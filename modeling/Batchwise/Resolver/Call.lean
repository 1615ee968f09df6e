import Batchwise.Answer
import Batchwise.Deferred
import Batchwise.Selection

/-!
# Resolvers and their calls

A resolver is called with its input, the execution's context and, where its function takes them,
the arguments and the selection of the field.  A batched resolver is given distinct sources and
returns a table of answers; a simple one is given one source and returns one answer.

* `Call.ofShape`   the call that a function of a given shape receives.
-/

namespace Batchwise

/-- why a resolver failed: a message of its own, or an error from elsewhere to which contexts
were added one after the other. -/
inductive ResolverFailure
  | message (text : String)
  | wrapped (root : String) (contexts : List String)

namespace ResolverFailure

def text : ResolverFailure → String
  | message t => t
  | wrapped root contexts => contexts.getLastD root

end ResolverFailure

/-- what a function takes besides its input and the context. -/
structure Shape where
  takesArgs : Bool
  takesSelection : Bool
deriving DecidableEq

namespace Shape

def name : Shape → String
  | ⟨false, false⟩ => "NoArgsNoSelection"
  | ⟨true, false⟩ => "ArgsOnly"
  | ⟨false, true⟩ => "SelectionOnly"
  | ⟨true, true⟩ => "ArgsAndSelection"

end Shape

structure Call (I C : Type) where
  input : I
  args : Option Args
  selection : Option Selection
  context : C

namespace Call

variable {I J C : Type}

/-- the call of a function: it gets the arguments and the selection only if it takes them, and
the selection that sees nothing if it takes one and none was computed. -/
def ofShape (shape : Shape) (input : I) (args : Args) (selection : Option Selection)
    (context : C) : Call I C where
  input := input
  args := if shape.takesArgs then some args else none
  selection := if shape.takesSelection then some (selection.getD Selection.empty) else none
  context := context

def withInput (call : Call I C) (input : J) : Call J C :=
  ⟨input, call.args, call.selection, call.context⟩

end Call

abbrev BatchOutcome (S : Type) := Except ResolverFailure (Table S (Answer S))

abbrev SimpleOutcome (S : Type) := Except ResolverFailure (Answer S)

/-- a function that answers for one source or for many. -/
inductive Resolver (S C : Type)
  | batched (shape : Shape) (run : Call (List S) C → Deferred (BatchOutcome S))
  | simple (shape : Shape) (run : Call S C → Deferred (SimpleOutcome S))

namespace Resolver

variable {S C : Type}

def shape : Resolver S C → Shape
  | batched s _ => s
  | simple s _ => s

def isBatched : Resolver S C → Bool
  | batched _ _ => true
  | simple _ _ => false

end Resolver
end Batchwise
