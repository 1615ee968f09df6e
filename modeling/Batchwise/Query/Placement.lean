import Batchwise.Query.Level
import Batchwise.Response.Draft

/-!
# Placing outcomes in a draft

The outcome of a field is written into the slot that was reserved for it.  An object's subfields
are reserved there and become tasks of the next level; a failure leaves null and an error with
the path of the field.
-/

namespace Batchwise

structure FieldError where
  failure : FieldFailure
  path : List PathSegment

/-- the draft of a response, the fields to resolve next, and the errors so far. -/
structure Placement (S : Type) where
  draft : Draft
  tasks : List (FieldTask S)
  errors : List FieldError

namespace Placement

variable {S : Type}

/-- reserve a member of the object at `parent` for each field, and a task to resolve it. -/
def schedule (parent : Nat) (source : S) (path : List PathSegment) :
    List Field → Placement S → Placement S
  | [], p => p
  | f :: fs, p =>
    let r := p.draft.addEntry parent f.outputName
    let task : FieldTask S := ⟨r.slot, source, f, path ++ [.field f.outputName]⟩
    schedule parent source path fs { p with draft := r.draft, tasks := p.tasks ++ [task] }

mutual

/-- write an answer into a slot; `fields` are the subfields wanted of objects in it.  Every constant
value has a document, so a scalar is always placed and leaves no error. -/
def place (fields : List Field) (slot : Nat) (path : List PathSegment) :
    Answer S → Placement S → Placement S
  | .null, p => { p with draft := p.draft.setNull slot }
  | .scalar d, p => { p with draft := p.draft.setScalar slot (Document.ofDatum d) }
  | .object source, p =>
    schedule slot source path fields { p with draft := p.draft.setObject slot }
  | .list items, p =>
    let r := p.draft.setList slot items.length
    placeItems fields r.slot path 0 items { p with draft := r.draft }

/-- write answers into neighbouring slots, from the item number `index` of a list on. -/
def placeItems (fields : List Field) (slot : Nat) (path : List PathSegment) (index : Nat) :
    List (Answer S) → Placement S → Placement S
  | [], p => p
  | a :: as, p =>
    placeItems fields (slot + 1) path (index + 1) as
      (place fields slot (path ++ [.index index]) a p)

end

def placeOutcome (task : FieldTask S) : FieldOutcome S → Placement S → Placement S
  | .ok answer, p => place task.field.subfields task.slot task.path (answer.getD .null) p
  | .error failure, p => {
      p with
      draft := p.draft.setNull task.slot
      errors := p.errors ++ [⟨failure, task.path⟩] }

def placeAll : List (FieldTask S) → List (FieldOutcome S) → Placement S → Placement S
  | task :: tasks, outcome :: outcomes, p =>
    placeAll tasks outcomes (placeOutcome task outcome p)
  | _, _, p => p

end Placement
end Batchwise
