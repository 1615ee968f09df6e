import Batchwise.Resolver.Declaration
import Batchwise.Settings

/-!
# Registries

The catalogue of all bindings, made once from a list of declarations.  A binding's number is its
place in that list.

* `Registry.build`     checks the declarations one by one: the first that is not in order, or
                       that binds a field bound before, is reported;
* `Registry.lookup?`   the binding of a field of a type, names compared one by one;
* `Registry.wirings`   the bindings of each type, in order of registration.
-/

namespace Batchwise

/-- settings, bindings, and the number of the binding of each field of each type. -/
structure Registry (S C : Type) where
  settings : Settings
  bindings : List (Binding S C)
  index : Table String (Table String Nat)

structure Wiring where
  fieldName : String
  id : Nat
  batched : Bool
deriving DecidableEq

namespace Registry

variable {S C : Type}

def empty (settings : Settings) : Registry S C := ⟨settings, [], .empty⟩

def add (r : Registry S C) (d : Declaration S C) : Except DeclarationError (Registry S C) :=
  match d.bind r.bindings.length with
  | .error e => .error e
  | .ok b =>
    let fields := (r.index.find? b.typeName).getD .empty
    if fields.contains b.fieldName then .error (.duplicate b.typeName b.fieldName)
    else .ok {
      r with
      bindings := r.bindings ++ [b]
      index := r.index.put b.typeName (fields.put b.fieldName b.id) }

def addAll : Registry S C → List (Declaration S C) → Except DeclarationError (Registry S C)
  | r, [] => .ok r
  | r, d :: ds =>
    match r.add d with
    | .error e => .error e
    | .ok r => addAll r ds

def build (settings : Settings) (ds : List (Declaration S C)) :
    Except DeclarationError (Registry S C) :=
  addAll (empty settings) ds

def get? (r : Registry S C) (id : Nat) : Option (Binding S C) := r.bindings[id]?

def lookup? (r : Registry S C) (typeName fieldName : String) : Option (Binding S C) := do
  let fields ← r.index.find? typeName
  let id ← fields.find? fieldName
  r.get? id

def size (r : Registry S C) : Nat := r.bindings.length

def isEmpty (r : Registry S C) : Bool := r.bindings.isEmpty

def wire (t : Table String (List Wiring)) (b : Binding S C) : Table String (List Wiring) :=
  t.put b.typeName ((t.find? b.typeName).getD [] ++ [⟨b.fieldName, b.id, b.isBatched⟩])

/-- the bound fields of each type: types by their first binding, fields by their own. -/
def wirings (r : Registry S C) : Table String (List Wiring) :=
  r.bindings.foldl wire .empty

end Registry
end Batchwise
