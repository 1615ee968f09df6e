import Batchwise.Text.Blank
import Mathlib.Data.List.TakeWhile

/-!
# Text without the blanks around it

`Trimmed s core` says what is left of a text without the blanks at its two ends, and nothing of how
they are taken off.

* `trimmed_trim`        `trim` leaves such a rest;
* `Trimmed.eq_trim`     and there is no other.
-/

namespace Batchwise.Text

/-- all characters are blanks. -/
def Blank (s : List Char) : Prop := ∀ c ∈ s, isBlank c = true

/-- `core` is `s` without the blanks around it. -/
structure Trimmed (s core : List Char) : Prop where
  around : ∃ front back, s = front ++ core ++ back ∧ Blank front ∧ Blank back
  head : ∀ c ∈ core.head?, isBlank c = false
  last : ∀ c ∈ core.getLast?, isBlank c = false

theorem blank_takeWhile (s : List Char) : Blank (s.takeWhile isBlank) :=
  fun _ hc => List.mem_takeWhile_imp hc

theorem head_dropWhile {s : List Char} : ∀ c ∈ (s.dropWhile isBlank).head?, isBlank c = false := by
  intro c hc
  have h := List.head?_dropWhile_not isBlank s
  rw [hc] at h
  exact h

theorem dropWhile_of_head {s : List Char} (h : ∀ c ∈ s.head?, isBlank c = false) :
    s.dropWhile isBlank = s := by
  cases s with
  | nil => rfl
  | cons c s => exact List.dropWhile_cons_of_neg (by simp [h c rfl])

theorem trimEnd_append (s : List Char) : ∃ back, s = trimEnd s ++ back ∧ Blank back := by
  refine ⟨(s.reverse.takeWhile isBlank).reverse, ?_, ?_⟩
  · unfold trimEnd
    rw [← List.reverse_append, List.takeWhile_append_dropWhile, List.reverse_reverse]
  · intro c hc
    exact blank_takeWhile _ c (List.mem_reverse.mp hc)

theorem last_trimEnd (s : List Char) : ∀ c ∈ (trimEnd s).getLast?, isBlank c = false := by
  unfold trimEnd
  rw [List.getLast?_reverse]
  exact head_dropWhile

theorem head_trimEnd {s : List Char} (h : ∀ c ∈ s.head?, isBlank c = false) :
    ∀ c ∈ (trimEnd s).head?, isBlank c = false := by
  obtain ⟨back, hs, _⟩ := trimEnd_append s
  intro c hc
  apply h
  rw [hs, List.head?_append, hc]
  rfl

theorem trimmed_trim (s : List Char) : Trimmed s (trim s) := by
  obtain ⟨back, hback, hblank⟩ := trimEnd_append (s.dropWhile isBlank)
  refine ⟨⟨s.takeWhile isBlank, back, ?_, blank_takeWhile s, hblank⟩,
    head_trimEnd head_dropWhile, last_trimEnd _⟩
  unfold trim
  rw [List.append_assoc, ← hback, List.takeWhile_append_dropWhile]

/-- blanks behind a text that ends with none are taken off. -/
theorem trimEnd_append_of_blank {s back : List Char} (hs : ∀ c ∈ s.getLast?, isBlank c = false)
    (hback : Blank back) : trimEnd (s ++ back) = s := by
  have hblank : ∀ c ∈ back.reverse, isBlank c = true := fun c hc => hback c (List.mem_reverse.mp hc)
  unfold trimEnd
  rw [List.reverse_append, List.dropWhile_append_of_pos hblank, dropWhile_of_head,
    List.reverse_reverse]
  rw [List.head?_reverse]
  exact hs

theorem Trimmed.eq_trim {s core : List Char} (h : Trimmed s core) : core = trim s := by
  obtain ⟨front, back, rfl, hfront, hback⟩ := h.around
  unfold trim
  rw [List.append_assoc, List.dropWhile_append_of_pos hfront]
  cases hcore : core with
  | nil =>
    have hnil : back.dropWhile isBlank = [] := List.dropWhile_eq_nil_iff.mpr hback
    rw [List.nil_append, hnil]
    rfl
  | cons c cs =>
    rw [← hcore]
    have hhead : ∀ d ∈ (core ++ back).head?, isBlank d = false := by
      intro d hd
      apply h.head
      rw [hcore] at hd ⊢
      exact hd
    rw [dropWhile_of_head hhead, trimEnd_append_of_blank h.last hback]

end Batchwise.Text
