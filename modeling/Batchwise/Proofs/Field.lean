import Batchwise.Field

/-!
# How deep fields are nested

The levels of fields are counted one after the other, all fields of a level at once.  What comes out
is what a count field by field gives: a field has one level more than its subfields, and a list as
many as the deepest of its fields.

* `Field.levels_append`      two lists side by side have the levels of the deeper one;
* `Field.levels_cons`        so have one field and the fields beside it;
* `Field.levels_eq_max`      and a list has one level more than the deepest list of subfields;
* `Field.height_le_levels`   no field of a list is higher than the list, and none below it as high.
-/

namespace Batchwise
namespace Field

@[simp] theorem levels_nil : levels [] = 0 := rfl

theorem levels_of_ne_nil {fs : List Field} (h : fs ≠ []) :
    levels fs = levels (nextLevel fs) + 1 := by
  rw [levels, if_neg (mt List.isEmpty_iff.mp h)]

theorem nextLevel_append (fs gs : List Field) :
    nextLevel (fs ++ gs) = nextLevel fs ++ nextLevel gs := List.flatMap_append

theorem levels_append (fs gs : List Field) : levels (fs ++ gs) = max (levels fs) (levels gs) := by
  induction fs using levels.induct generalizing gs with
  | case1 fs hempty =>
    rw [List.isEmpty_iff.mp hempty]
    exact (Nat.zero_max _).symm
  | case2 fs hne ih =>
    have hfs : fs ≠ [] := mt List.isEmpty_iff.mpr hne
    rw [levels_of_ne_nil (List.append_ne_nil_of_left_ne_nil hfs gs), nextLevel_append, ih,
      levels_of_ne_nil hfs]
    by_cases hgs : gs = []
    · rw [hgs]
      exact congrArg (· + 1) (Nat.max_zero _)
    · rw [levels_of_ne_nil hgs, Nat.succ_max_succ]

theorem levels_cons (f : Field) (fs : List Field) :
    levels (f :: fs) = max f.height (levels fs) := by
  have hone : levels [f] = f.height := by
    rw [levels_of_ne_nil (List.cons_ne_nil f [])]
    exact congrArg (levels · + 1) (List.append_nil _)
  rw [← hone, ← levels_append, List.singleton_append]

theorem levels_eq_max {fs : List Field} (h : fs ≠ []) :
    ∃ deepest, (fs.map fun f => levels f.subfields).max? = some deepest ∧
      levels fs = 1 + deepest := by
  induction fs with
  | nil => exact absurd rfl h
  | cons f fs ih =>
    rw [levels_cons, height, Nat.add_comm _ 1, List.map_cons, List.max?_cons]
    by_cases hfs : fs = []
    · subst hfs
      exact ⟨_, rfl, Nat.max_zero _⟩
    · obtain ⟨deepest, hmax, hlevels⟩ := ih hfs
      rw [hmax, hlevels, Nat.add_max_add_left]
      exact ⟨_, rfl, rfl⟩

/-! ### heights -/

theorem height_eq (f : Field) : f.height = levels f.subfields + 1 := rfl

theorem height_le_levels {f : Field} {fs : List Field} (h : f ∈ fs) : f.height ≤ levels fs := by
  induction fs with
  | nil => cases h
  | cons g fs ih =>
    rw [levels_cons]
    rcases List.mem_cons.mp h with rfl | h
    · exact Nat.le_max_left _ _
    · exact Nat.le_trans (ih h) (Nat.le_max_right _ _)

theorem height_lt {f g : Field} (h : g ∈ f.subfields) : g.height < f.height := by
  rw [height_eq f]
  exact Nat.lt_succ_of_le (height_le_levels h)

theorem height_pos (f : Field) : 0 < f.height := by
  rw [height_eq]
  exact Nat.succ_pos _

end Field
end Batchwise
