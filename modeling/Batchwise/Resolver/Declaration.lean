import Batchwise.Resolver.Signature

/-!
# Declarations and bindings

A declaration ties a resolver to a field of a type and lists the parameters it wants.  One whose
names, parameters and function are in order becomes a binding.

* `Declaration.plain`, `withArgs`, `withSelection`, `withArgsAndSelection`   declarations whose
  parameters are derived from what the function takes;
* `Declaration.bind`   checks the names first, then the parameters, then the function.
-/

namespace Batchwise

structure Declaration (S C : Type) where
  typeName : String
  fieldName : String
  parameters : List Parameter
  resolver : Resolver S C

structure Binding (S C : Type) where
  id : Nat
  typeName : String
  fieldName : String
  parameters : List Parameter
  signature : Signature
  resolver : Resolver S C

inductive DeclarationError
  | duplicate (typeName fieldName : String)
  | emptyName (typeName fieldName : String)
  | unsupported (typeName fieldName : String) (parameters : List Parameter) (fault : SignatureFault)
  | mismatch (typeName fieldName : String) (parameters : List Parameter) (shape : Shape)

def qualifiedName (typeName fieldName : String) : String := typeName ++ "." ++ fieldName

namespace DeclarationError

def message : DeclarationError → String
  | duplicate t f => "Resolver for '" ++ qualifiedName t f ++ "' is registered more than once"
  | emptyName t f => "Resolver must name a type and a field (got '" ++ qualifiedName t f ++ "')"
  | unsupported t f ps fault => "Resolver for '" ++ qualifiedName t f ++
      "' has unsupported parameters " ++ Parameter.describeList ps ++ ": " ++ fault.message
  | mismatch t f ps shape => "Resolver for '" ++ qualifiedName t f ++ "' declares " ++
      Parameter.describeList ps ++ ", but its function is " ++ shape.name

end DeclarationError

namespace Declaration

variable {S C : Type}

/-! ### derived parameters -/

def plain (typeName fieldName : String) (resolver : Resolver S C) : Declaration S C :=
  ⟨typeName, fieldName, [.ofSource resolver.isBatched], resolver⟩

def withArgs (typeName fieldName : String) (resolver : Resolver S C) : Declaration S C :=
  ⟨typeName, fieldName, [.ofSource resolver.isBatched, .arguments], resolver⟩

def withSelection (typeName fieldName : String) (depth : Nat) (resolver : Resolver S C) :
    Declaration S C :=
  ⟨typeName, fieldName, [.ofSource resolver.isBatched, .selection depth], resolver⟩

def withArgsAndSelection (typeName fieldName : String) (depth : Nat) (resolver : Resolver S C) :
    Declaration S C :=
  ⟨typeName, fieldName, [.ofSource resolver.isBatched, .arguments, .selection depth], resolver⟩

/-! ### checking -/

def bind (d : Declaration S C) (id : Nat) : Except DeclarationError (Binding S C) :=
  if d.typeName = "" ∨ d.fieldName = "" then .error (.emptyName d.typeName d.fieldName)
  else
    match Signature.ofParameters d.resolver.isBatched d.parameters with
    | .error fault => .error (.unsupported d.typeName d.fieldName d.parameters fault)
    | .ok signature =>
      if signature.fits d.resolver.shape then
        .ok ⟨id, d.typeName, d.fieldName, d.parameters, signature, d.resolver⟩
      else .error (.mismatch d.typeName d.fieldName d.parameters d.resolver.shape)

end Declaration

namespace Binding

variable {S C : Type}

def name (b : Binding S C) : String := qualifiedName b.typeName b.fieldName

def isBatched (b : Binding S C) : Bool := b.resolver.isBatched

def wantsSelection (b : Binding S C) : Bool := b.signature.selection.isSome

/-- the depth of the selection that is wanted, 0 if none is. -/
def selectionDepth (b : Binding S C) : Nat := b.signature.selection.getD 0

/-- what the resolver is to see of a field's subfields. -/
def selectionOf (b : Binding S C) (subfields : List Field) : Option Selection :=
  b.signature.selection.map fun depth => Selection.ofFields subfields depth

end Binding
end Batchwise
