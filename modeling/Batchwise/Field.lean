import Batchwise.Args

/-!
# Requested fields

A query asks for a list of fields, each with an optional alias, arguments, and the subfields that
are wanted of the objects it resolves to.

* `Field.outputName`   the name of the field in the response;
* `Field.same`         equality of fields, arguments by `Args.same`;
* `Field.levels`       the number of nested levels of a list of fields.
-/

namespace Batchwise

structure Field where
  /-- the name under which the value is wanted, if it differs from the field's own. -/
  alias? : Option String
  name : String
  args : Args
  subfields : List Field

namespace Field

/-- the name of the field in the response: the alias if there is one, even an empty one. -/
def outputName (f : Field) : String := f.alias?.getD f.name

/-- a chain of fields without aliases and arguments, with `last` below the end of it. -/
def chain : List String → List Field → List Field
  | [], last => last
  | n :: ns, last => [⟨none, n, .empty, chain ns last⟩]

/-! ### equality -/

mutual

def same : Field → Field → Bool
  | ⟨a, n, as, fs⟩, ⟨b, m, bs, gs⟩ => a == b && n == m && as.same bs && sameList fs gs

def sameList : List Field → List Field → Bool
  | [], [] => true
  | f :: fs, g :: gs => f.same g && sameList fs gs
  | _, _ => false

end

/-! ### levels -/

mutual

/-- the number of fields from a field downwards, its own included. -/
def size : Field → Nat
  | ⟨_, _, _, fs⟩ => total fs + 1

def total : List Field → Nat
  | [] => 0
  | f :: fs => f.size + total fs

end

theorem size_eq (f : Field) : f.size = total f.subfields + 1 := by
  obtain ⟨_, _, _, _⟩ := f
  rfl

theorem total_append (fs gs : List Field) : total (fs ++ gs) = total fs + total gs := by
  induction fs with
  | nil => exact (Nat.zero_add _).symm
  | cons f fs ih => rw [List.cons_append, total, total, ih, Nat.add_assoc]

def nextLevel (fs : List Field) : List Field := fs.flatMap subfields

theorem total_nextLevel (fs : List Field) : total (nextLevel fs) + fs.length = total fs := by
  induction fs with
  | nil => rfl
  | cons f fs ih =>
    have hnext : nextLevel (f :: fs) = f.subfields ++ nextLevel fs := rfl
    rw [hnext, total_append, total, size_eq, List.length_cons]
    omega

/-- the number of nested levels of a list of fields, counted one level after the other: 0 if there
are no fields. -/
@[semireducible]
def levels (fs : List Field) : Nat :=
  if fs.isEmpty then 0 else levels (nextLevel fs) + 1
termination_by total fs
decreasing_by
  rename_i hne
  have htotal := total_nextLevel fs
  have hlength : fs.length ≠ 0 := fun h => hne (List.isEmpty_iff.mpr (List.length_eq_zero_iff.mp h))
  omega

/-- the number of nested levels from a field downwards, its own included. -/
def height (f : Field) : Nat := levels f.subfields + 1

end Field
end Batchwise
