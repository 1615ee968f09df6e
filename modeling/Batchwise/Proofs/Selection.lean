import Batchwise.Selection
import Mathlib.Data.List.Sort
import Mathlib.Data.String.Basic

/-!
# What a selection sees

A selection is made of the chains of names that lead downwards from the selected fields, up to its
depth, and of nothing else: no alias, no argument, no order or repetition of siblings, and nothing
further down.

* `Selection.pairwise_ascending` a list as a set ascends, with the members of the list;
* `Field.HasChain`               a chain of names leads downwards from some fields;
* `Selection.mem_paths_ofFields` the paths of a selection are those of the chains;
* `Selection.ofFields_congr`     fields with the same chains have the same selection.
-/

namespace Batchwise

namespace Selection

/-! ### lists as sets -/

theorem mem_eraseReps_loop {x : String} (as : List String) (a : String) (done : List String) :
    x ∈ List.eraseRepsBy.loop (fun a b => a == b) a as done ↔ x ∈ done ∨ x ∈ a :: as := by
  induction as generalizing a done with
  | nil => simp [List.eraseRepsBy.loop, or_comm]
  | cons b as ih =>
    rw [List.eraseRepsBy.loop]
    cases hab : a == b with
    | true =>
      have heq : a = b := beq_iff_eq.mp hab
      simp [ih, heq]
    | false =>
      simp only [ih, List.mem_cons]
      tauto

/-- what is left after neighbours that are equal were joined grows strictly. -/
theorem pairwise_eraseReps_loop (as : List String) (a : String) (done : List String)
    (hdone : (a :: done).reverse.Pairwise (· < ·)) (has : (a :: as).Pairwise (· ≤ ·)) :
    (List.eraseRepsBy.loop (fun a b => a == b) a as done).Pairwise (· < ·) := by
  induction as generalizing a done with
  | nil => exact hdone
  | cons b as ih =>
    rw [List.pairwise_cons] at has
    obtain ⟨hle, has⟩ := has
    rw [List.eraseRepsBy.loop]
    cases hab : a == b with
    | true =>
      refine ih a done hdone
        (List.pairwise_cons.mpr ⟨fun c hc => ?_, (List.pairwise_cons.mp has).2⟩)
      exact hle c (List.mem_cons_of_mem b hc)
    | false =>
      have hne : a ≠ b := by simpa using hab
      have hlt : a < b := lt_of_le_of_ne (hle b List.mem_cons_self) hne
      refine ih b (a :: done) ?_ has
      rw [List.reverse_cons, List.pairwise_append]
      refine ⟨hdone, List.pairwise_singleton _ _, fun c hc d hd => ?_⟩
      rw [List.mem_singleton.mp hd]
      rw [List.reverse_cons, List.pairwise_append] at hdone
      rw [List.mem_reverse, List.mem_cons] at hc
      rcases hc with rfl | hc
      · exact hlt
      · exact lt_trans (hdone.2.2 c (List.mem_reverse.mpr hc) a (List.mem_singleton_self a)) hlt

theorem mem_ascending {x : String} {paths : List String} : x ∈ ascending paths ↔ x ∈ paths := by
  have hperm := List.mergeSort_perm paths fun a b => decide (a ≤ b)
  unfold ascending List.eraseReps
  rw [← hperm.mem_iff]
  cases paths.mergeSort fun a b => decide (a ≤ b) with
  | nil => rfl
  | cons a as => exact (mem_eraseReps_loop as a []).trans (by simp)

theorem pairwise_ascending (paths : List String) : (ascending paths).Pairwise (· < ·) := by
  have hsorted : (paths.mergeSort fun a b => decide (a ≤ b)).Pairwise (· ≤ ·) := by
    refine (List.pairwise_mergeSort ?_ ?_ paths).imp fun hab => of_decide_eq_true hab
    · intro a b c hab hbc
      exact decide_eq_true (le_trans (of_decide_eq_true hab) (of_decide_eq_true hbc))
    · intro a b
      rcases le_total a b with h | h <;> simp [h]
  unfold ascending List.eraseReps
  cases hlist : paths.mergeSort fun a b => decide (a ≤ b) with
  | nil => exact List.Pairwise.nil
  | cons a as =>
    rw [hlist] at hsorted
    exact pairwise_eraseReps_loop as a [] (List.pairwise_singleton _ _) hsorted

end Selection

/-! ### chains -/

/-- a chain of names leads downwards from one of the fields. -/
inductive Field.HasChain : List Field → List String → Prop
  | one {fs : List Field} {f : Field} (hf : f ∈ fs) : Field.HasChain fs [f.name]
  | deeper {fs : List Field} {f : Field} {names : List String} (hf : f ∈ fs)
      (h : Field.HasChain f.subfields names) : Field.HasChain fs (f.name :: names)

theorem Field.HasChain.ne_nil {fs : List Field} {names : List String} (h : HasChain fs names) :
    fs ≠ [] ∧ names ≠ [] := by
  cases h with
  | one hf => exact ⟨List.ne_nil_of_mem hf, List.cons_ne_nil _ _⟩
  | deeper hf _ => exact ⟨List.ne_nil_of_mem hf, List.cons_ne_nil _ _⟩

namespace Selection

open Batchwise.Field (HasChain)

namespace Waiting

theorem mem_paths {w : Waiting} {path : String} :
    path ∈ w.paths ↔ ∃ f ∈ w.fields, join w.above f.name = path := by
  simp [paths]

theorem mem_below {depth : Nat} {w w' : Waiting} :
    w' ∈ w.below depth ↔ ∃ f ∈ w.fields, w.level < depth ∧ f.subfields ≠ [] ∧
      ⟨join w.above f.name, f.subfields, w.level + 1⟩ = w' := by
  simp [below, and_assoc]

/-- a chain leads down from the fields, behind the path above them, to no level below `depth`. -/
def Sees (depth : Nat) (w : Waiting) (path : String) : Prop :=
  ∃ names, Field.HasChain w.fields names ∧ w.level + names.length ≤ depth + 1 ∧
    names.foldl join w.above = path

/-- a chain ends at the fields themselves or goes through what is put into the queue for them. -/
theorem sees_iff {depth : Nat} {w : Waiting} {path : String} (hlevel : w.level ≤ depth) :
    w.Sees depth path ↔ path ∈ w.paths ∨ ∃ w' ∈ w.below depth, w'.Sees depth path := by
  constructor
  · rintro ⟨names, hchain, hlength, rfl⟩
    cases hchain with
    | one hf => exact Or.inl (mem_paths.mpr ⟨_, hf, rfl⟩)
    | @deeper _ f names hf hchain =>
      have hpos := List.length_pos_iff.mpr hchain.ne_nil.2
      rw [List.length_cons] at hlength
      have hlt : w.level < depth := by omega
      refine Or.inr ⟨_, mem_below.mpr ⟨f, hf, hlt, hchain.ne_nil.1, rfl⟩, names, hchain, ?_, rfl⟩
      show w.level + 1 + names.length ≤ depth + 1
      omega
  · rintro (hpath | ⟨w', hw', names, hchain, hlength, rfl⟩)
    · obtain ⟨f, hf, rfl⟩ := mem_paths.mp hpath
      exact ⟨[f.name], .one hf, Nat.succ_le_succ hlevel, rfl⟩
    · obtain ⟨f, hf, _, _, rfl⟩ := mem_below.mp hw'
      refine ⟨f.name :: names, .deeper hf hchain, ?_, rfl⟩
      rw [List.length_cons, ← Nat.add_assoc, Nat.add_right_comm]
      exact hlength

end Waiting

/-- **The walk finds the chains** that lead down from what waits. -/
theorem mem_walk {depth : Nat} {queue : List Waiting} {path : String}
    (hlevel : ∀ w ∈ queue, w.level ≤ depth) :
    path ∈ walk depth queue ↔ ∃ w ∈ queue, w.Sees depth path := by
  induction queue using walk.induct depth with
  | case1 => simp [walk]
  | case2 w queue ih =>
    have hbelow : ∀ w' ∈ queue ++ w.below depth, w'.level ≤ depth := by
      intro w' hw'
      rcases List.mem_append.mp hw' with hw' | hw'
      · exact hlevel w' (List.mem_cons_of_mem w hw')
      · obtain ⟨_, _, hlt, _, rfl⟩ := Waiting.mem_below.mp hw'
        exact hlt
    rw [walk, List.mem_append, ih hbelow]
    simp only [List.mem_append, List.mem_cons, or_and_right, exists_or, exists_eq_left,
      Waiting.sees_iff (hlevel w List.mem_cons_self), or_assoc]
    exact or_congr_right or_comm

/-- **A selection sees chains of names**, and no more. -/
theorem mem_paths_ofFields {fields : List Field} {depth : Nat} {path : String} :
    path ∈ (ofFields fields depth).paths ↔ ∃ names, HasChain fields names ∧
      names.length ≤ depth ∧ names.foldl join "" = path := by
  show path ∈ ascending _ ↔ _
  rw [mem_ascending]
  cases depth with
  | zero =>
    constructor
    · intro h
      cases h
    · rintro ⟨names, hchain, hlength, _⟩
      exact absurd (List.eq_nil_of_length_eq_zero (Nat.le_zero.mp hlength)) hchain.ne_nil.2
  | succ depth =>
    show path ∈ walk (depth + 1) [⟨"", fields, 1⟩] ↔ _
    rw [mem_walk (by simp)]
    simp [Waiting.Sees, Nat.add_comm 1]

theorem ofFields_congr {fields fields' : List Field} {depth : Nat}
    (h : ∀ names, names.length ≤ depth → (HasChain fields names ↔ HasChain fields' names)) :
    ofFields fields depth = ofFields fields' depth := by
  have hpaths : (ofFields fields depth).paths = (ofFields fields' depth).paths := by
    refine (pairwise_ascending _).eq_of_mem_iff (pairwise_ascending _) fun path => ?_
    show path ∈ (ofFields fields depth).paths ↔ path ∈ (ofFields fields' depth).paths
    rw [mem_paths_ofFields, mem_paths_ofFields]
    constructor
    · rintro ⟨names, hchain, hlength, hpath⟩
      exact ⟨names, (h names hlength).mp hchain, hlength, hpath⟩
    · rintro ⟨names, hchain, hlength, hpath⟩
      exact ⟨names, (h names hlength).mpr hchain, hlength, hpath⟩
  exact congrArg (Selection.mk depth) hpaths

end Selection
end Batchwise
