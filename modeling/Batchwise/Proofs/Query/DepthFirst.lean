import Batchwise.Proofs.Gather
import Batchwise.Query.Level
import Batchwise.Query.Placement

/-!
# Depth-first evaluation

A query resolved the plain way: each occurrence of a field on its own, with a call for its one
source, and its subfields at once for every object in its answer.  Nothing is batched, shared or
deferred, and calls, outcomes and objects are read off the declarations, the answers and the query
alone; this is what the resolution level by level is measured by.

* `DepthFirst.call`      the call that a binding declares;
* `DepthFirst.outcome`   what becomes of one field of one object;
* `DepthFirst.answer`    the document of an answer, given the documents of objects;
* `DepthFirst.field`, `DepthFirst.members`   the document of a field, and those of many;
* `DepthFirst.document`, `DepthFirst.errors`   the whole response.
-/

namespace Batchwise

/-- a document, and the fields in it that have no value. -/
abbrev Rendered := Document × List FieldError

namespace DepthFirst

variable {S C : Type} [DecidableEq S]

/-- the call that a binding declares for a field: with arguments if it wants them, and with what is
to be seen of the subfields as deep as it wants. -/
def call {I : Type} (b : Binding S C) (input : I) (args : Args) (subfields : List Field)
    (context : C) : Call I C where
  input := input
  args := if b.signature.wantsArgs then some args else none
  selection := b.signature.selection.map fun depth => Selection.ofFields subfields depth
  context := context

/-- what the outcome of a batched call means for one source. -/
def batchedOutcome (b : Binding S C) (source : S) : BatchOutcome S → FieldOutcome S
  | .ok answers => .ok (answers.find? source)
  | .error failure => .error (.batch (.resolverFailed b.name failure))

/-- what the outcome of a simple call means. -/
def simpleOutcome : SimpleOutcome S → FieldOutcome S
  | .ok answer => .ok (some answer)
  | .error failure => .error (.resolver failure)

/-- what becomes of one field of one object: the registered function is called for that object
alone; without one the object's own value is taken. -/
def outcome (world : World S) (registry : Registry S C) (context : C) (source : S)
    (f : Field) : FieldOutcome S :=
  match registry.lookup? (world.typeName source) f.name with
  | none => .ok (world.property source f.name)
  | some b =>
    match b.resolver with
    | .batched _ run =>
      batchedOutcome b source (run (call b [source] f.args f.subfields context)).value
    | .simple _ run => simpleOutcome (run (call b source f.args f.subfields context)).value

/-! ### answers -/

section

variable (object : S → List PathSegment → Rendered)

mutual

/-- the document of an answer. -/
def answer (path : List PathSegment) : Answer S → Rendered
  | .null => (.null, [])
  | .scalar d => (Document.ofDatum d, [])
  | .object source => object source path
  | .list as => let rs := items path 0 as; (.list (rs.map Prod.fst), rs.flatMap Prod.snd)

/-- the documents of the items of a list, from the item number `index` on. -/
def items (path : List PathSegment) (index : Nat) : List (Answer S) → List Rendered
  | [] => []
  | a :: as => answer (path ++ [.index index]) a :: items path (index + 1) as

end

/-- the document of an outcome: a failure leaves null and an error. -/
def rendered (path : List PathSegment) : FieldOutcome S → Rendered
  | .ok a => answer object path (a.getD .null)
  | .error failure => (.null, [⟨failure, path⟩])

end

/-- an object from its members: each name once, where it first occurs, with the document of the last
member of that name. -/
def objectOf (members : List (String × Rendered)) : Rendered :=
  (.object ((members.map Prod.fst).eraseDups.filterMap fun name =>
      (members.filter fun m => decide (m.1 = name)).getLast?.map fun m => (name, m.2.1)),
    members.flatMap fun m => m.2.2)

/-- the same object, its members written one after the other. -/
theorem objectOf_eq (members : List (String × Rendered)) :
    objectOf members = (.object (Entries.ofList (members.map fun m => (m.1, m.2.1))),
      members.flatMap fun m => m.2.2) := by
  have hmembers : Entries.ofList (members.map fun m => (m.1, m.2.1)) =
      (members.map Prod.fst).eraseDups.filterMap fun name =>
        (members.filter fun m => decide (m.1 = name)).getLast?.map fun m => (name, m.2.1) := by
    rw [Entries.ofList_eq, List.map_map]
    refine congrArg (fun f => List.filterMap f _) (funext fun name => ?_)
    rw [List.filter_map, List.getLast?_map, Option.map_map]
    rfl
  rw [hmembers]
  rfl

/-! ### fields -/

variable (world : World S) (registry : Registry S C) (context : C)

mutual

/-- the document of a field of an object; `path` is where it stands. -/
def field : Field → S → List PathSegment → Rendered
  | ⟨alias?, name, args, subfields⟩, source, path =>
    rendered (fun s p => objectOf (members subfields s p)) path
      (outcome world registry context source ⟨alias?, name, args, subfields⟩)

/-- the documents of fields of an object, each under its output name. -/
def members : List Field → S → List PathSegment → List (String × Rendered)
  | [], _, _ => []
  | f :: fs, source, path =>
    (f.outputName, field f source (path ++ [.field f.outputName])) :: members fs source path

end

theorem field_eq (f : Field) (source : S) (path : List PathSegment) :
    field world registry context f source path =
      rendered (fun s p => objectOf (members world registry context f.subfields s p)) path
        (outcome world registry context source f) := by
  obtain ⟨_, _, _, _⟩ := f
  rfl

theorem members_eq (fs : List Field) (source : S) (path : List PathSegment) :
    members world registry context fs source path = fs.map fun f =>
      (f.outputName, field world registry context f source (path ++ [.field f.outputName])) := by
  induction fs with
  | nil => rfl
  | cons f fs ih => exact congrArg (List.cons _) ih

/-- the document of a whole query. -/
def document (root : S) (fields : List Field) : Document :=
  (objectOf (members world registry context fields root [])).1

/-- the fields of a whole query that have no value. -/
def errors (root : S) (fields : List Field) : List FieldError :=
  (objectOf (members world registry context fields root [])).2

end DepthFirst
end Batchwise
