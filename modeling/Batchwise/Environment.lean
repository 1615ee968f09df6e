import Batchwise.Table
import Batchwise.Text.Blank

/-!
# Environments and positive numbers in them

An environment is a stack of layers of named texts.  A name is looked up from the top, and the
first layer that holds it decides, whatever the layers below say.

A positive number is written with ASCII digits, an optional plus before them and blanks around
them, and is at least 1 and below `2 ^ 64`.  Digits are read from the left: what is wrong first
is what is reported.

* `Environment.get?`, `Environment.getD`      the text under a name;
* `PositiveNumber.read`                       the number that a text denotes;
* `Environment.positive?`                     the number under a name, or what is wrong with it.
-/

namespace Batchwise

/-! ### positive numbers -/

inductive NumberFault
  | empty
  | invalidDigit
  | tooLarge
  | zero
deriving DecidableEq

namespace NumberFault

def message : NumberFault → String
  | empty => "cannot parse integer from empty string"
  | invalidDigit => "invalid digit found in string"
  | tooLarge => "number too large to fit in target type"
  | zero => "Must be greater than zero"

end NumberFault

namespace PositiveNumber

/-- the first number that is too large. -/
def bound : Nat := Nat.pow 2 64

def digit? (c : Char) : Option Nat :=
  if '0' ≤ c ∧ c ≤ '9' then some (c.toNat - 48) else none

def readDigits (n : Nat) : List Char → Except NumberFault Nat
  | [] => .ok n
  | c :: cs =>
    match digit? c with
    | none => .error .invalidDigit
    | some d => if n * 10 + d < bound then readDigits (n * 10 + d) cs else .error .tooLarge

/-- read a number below the bound: digits, with an optional plus before them. -/
def readUnsigned : List Char → Except NumberFault Nat
  | [] => .error .empty
  | ['+'] => .error .invalidDigit
  | '+' :: c :: cs => readDigits 0 (c :: cs)
  | c :: cs => readDigits 0 (c :: cs)

def read (text : String) : Except NumberFault Nat :=
  match readUnsigned (Text.trim text.toList) with
  | .ok 0 => .error .zero
  | .ok n => .ok n
  | .error fault => .error fault

end PositiveNumber

/-! ### environments -/

/-- layers of named texts, the topmost first. -/
structure Environment where
  layers : List (Table String String)

structure EnvironmentError where
  key : String
  value : String
  fault : NumberFault

namespace EnvironmentError

def message (e : EnvironmentError) : String :=
  "Invalid env value " ++ e.value ++ " for " ++ e.key ++ ": " ++ e.fault.message

end EnvironmentError

namespace Environment

/-- an environment from lists of entries, the topmost layer first; in a layer a later entry
replaces an earlier one of its name. -/
def ofLists (layers : List (List (String × String))) : Environment :=
  ⟨layers.map Table.ofList⟩

def get? (env : Environment) (key : String) : Option String :=
  env.layers.findSome? fun layer => layer.find? key

def getD (env : Environment) (key default : String) : String := (env.get? key).getD default

/-- the positive number under `key`, if any layer holds `key`. -/
def positive? (env : Environment) (key : String) : Except EnvironmentError (Option Nat) :=
  match env.get? key with
  | none => .ok none
  | some value =>
    match PositiveNumber.read value with
    | .ok n => .ok (some n)
    | .error fault => .error ⟨key, value, fault⟩

end Environment
end Batchwise
