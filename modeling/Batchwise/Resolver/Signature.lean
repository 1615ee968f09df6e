import Batchwise.Resolver.Call

/-!
# Signatures

The parameters that a resolver may declare: its source, or the set of its sources if it is
batched, then at most once the arguments, then at most once a selection at least one level deep.
`Signature.ofParameters` reads a list of parameters or says what is wrong with it.
-/

namespace Batchwise

inductive Parameter
  | sources
  | source
  | arguments
  | selection (depth : Nat)
deriving DecidableEq

namespace Parameter

def describe : Parameter → String
  | sources => "Sources"
  | source => "Source"
  | arguments => "Arguments"
  | selection depth => "Selection \x7b depth: " ++ Nat.repr depth ++ " \x7d"

def describeList (ps : List Parameter) : String :=
  "[" ++ String.intercalate ", " (ps.map describe) ++ "]"

/-- the source parameter of a batched or a simple resolver. -/
def ofSource (batched : Bool) : Parameter := if batched then sources else source

end Parameter

inductive SignatureFault
  | noSource (batched : Bool)
  | otherSource (batched : Bool)
  | zeroDepth
  | unexpected (parameter : Parameter)
deriving DecidableEq

namespace SignatureFault

def message : SignatureFault → String
  | noSource batched => "the first parameter must be " ++ (Parameter.ofSource batched).describe
  | otherSource true => "a batched resolver takes the set of sources, not a single source"
  | otherSource false => "only batched resolvers take a set of sources"
  | zeroDepth => "selection depth must be at least 1"
  | unexpected p => "unexpected " ++ p.describe ++ "; parameters must be the source, " ++
      "then Arguments, then Selection, each at most once"

end SignatureFault

/-- what a resolver declares to want besides its source. -/
structure Signature where
  wantsArgs : Bool
  selection : Option Nat
deriving DecidableEq

namespace Signature

def takeSource (batched : Bool) : List Parameter → Except SignatureFault (List Parameter)
  | [] => .error (.noSource batched)
  | p :: ps =>
    if p = Parameter.ofSource batched then .ok ps
    else if p = Parameter.ofSource (!batched) then .error (.otherSource batched)
    else .error (.noSource batched)

/-- read the arguments, if they come next. -/
def takeArgs : List Parameter → Bool × List Parameter
  | .arguments :: ps => (true, ps)
  | ps => (false, ps)

def takeSelection : List Parameter → Except SignatureFault (Option Nat × List Parameter)
  | .selection depth :: ps => if depth = 0 then .error .zeroDepth else .ok (some depth, ps)
  | ps => .ok (none, ps)

def ofParameters (batched : Bool) (ps : List Parameter) : Except SignatureFault Signature := do
  let ps ← takeSource batched ps
  let (wantsArgs, ps) := takeArgs ps
  let (selection, ps) ← takeSelection ps
  match ps with
  | [] => .ok ⟨wantsArgs, selection⟩
  | p :: _ => .error (.unexpected p)

/-- whether a function takes just what is declared. -/
def fits (s : Signature) (shape : Shape) : Bool :=
  shape.takesArgs == s.wantsArgs && shape.takesSelection == s.selection.isSome

end Signature
end Batchwise
