import Batchwise.Field

/-!
# Selections

The part of a field's subfields that a resolver asked to see: the paths of the fields that lie at
most `depth` levels below the resolved one.  A path joins names by slashes; aliases, arguments,
repetition and the order of siblings leave no trace in it.

* `Selection.walk`       the paths found by going through a queue of lists of fields, first in first
                         out, each list put there when the field above it was seen;
* `Selection.ofFields`   these paths as a set, in ascending order;
* `Selection.paths` is also the fingerprint by which calls are grouped: it leaves out the depth.
-/

namespace Batchwise

/-- the paths seen `depth` levels deep, in strictly ascending order. -/
structure Selection where
  depth : Nat
  paths : List String
deriving DecidableEq

namespace Selection

def empty : Selection := ⟨0, []⟩

/-- the path of a field named `name` below `above`; nothing above leaves the name alone. -/
def join (above name : String) : String :=
  if above = "" then name else above ++ "/" ++ name

/-- fields that wait for their turn, with the path that leads to them and the level they are on. -/
structure Waiting where
  above : String
  fields : List Field
  level : Nat

namespace Waiting

def paths (w : Waiting) : List String := w.fields.map fun f => join w.above f.name

/-- the subfields of every field that has any, unless that would be too deep. -/
def below (depth : Nat) (w : Waiting) : List Waiting :=
  (w.fields.filter fun f => decide (w.level < depth) && !f.subfields.isEmpty).map fun f =>
    ⟨join w.above f.name, f.subfields, w.level + 1⟩

/-- the turns that the fields and all that is below them can take. -/
def turns (w : Waiting) : Nat := Field.total w.fields + 1

def total : List Waiting → Nat
  | [] => 0
  | w :: queue => w.turns + total queue

theorem total_append (queue more : List Waiting) :
    total (queue ++ more) = total queue + total more := by
  induction queue with
  | nil => exact (Nat.zero_add _).symm
  | cons w queue ih => rw [List.cons_append, total, total, ih, Nat.add_assoc]

theorem total_below (depth : Nat) (w : Waiting) : total (w.below depth) < w.turns := by
  obtain ⟨above, fields, level⟩ := w
  unfold below turns
  refine Nat.lt_succ_of_le ?_
  induction fields with
  | nil => exact Nat.le_refl 0
  | cons f fs ih =>
    rw [Field.total, Field.size_eq, List.filter_cons]
    split
    · exact Nat.add_le_add (Nat.le_refl _) ih
    · exact Nat.le_trans ih (Nat.le_add_left _ _)

end Waiting

/-- what waits at first: the fields themselves, if anything is to be seen at all. -/
def start (fields : List Field) (depth : Nat) : List Waiting :=
  if 0 < depth then [⟨"", fields, 1⟩] else []

/-- the paths found from a queue on: what is below the first fields waits behind all others. -/
@[semireducible]
def walk (depth : Nat) : List Waiting → List String
  | [] => []
  | w :: queue => w.paths ++ walk depth (queue ++ w.below depth)
termination_by queue => Waiting.total queue
decreasing_by
  have hturns := w.total_below depth
  rw [Waiting.total_append, Waiting.total]
  omega

def ascending (paths : List String) : List String :=
  (paths.mergeSort fun a b => decide (a ≤ b)).eraseReps

def ofFields (fields : List Field) (depth : Nat) : Selection :=
  ⟨depth, ascending (walk depth (start fields depth))⟩

def contains (s : Selection) (path : String) : Bool := s.paths.contains path

def size (s : Selection) : Nat := s.paths.length

def isEmpty (s : Selection) : Bool := s.paths.isEmpty

end Selection
end Batchwise
