import Batchwise.Proofs.Table
import Mathlib.Data.List.Basic
import Mathlib.Data.List.Induction
import Mathlib.Data.List.Perm.Basic

/-!
# What is gathered under keys

A list is gone through once, and each of its elements is written to a table at the key it has.
The keys come out in the order in which they first occurred, each with just its own elements, in
the order of the list.

* `eraseDups_concat`, `nodup_eraseDups`   first occurrences;
* `Table.gather`            the table of a list, one element after the other;
* `Table.entries_gather`    that table without the fold;
* `Entries.ofList_eq`       entries written one after the other: first positions, last values;
* `perm_flatMap_filter`     key by key, every element is there as often as in the list.
-/

namespace Batchwise

/-! ### first occurrences -/

section

variable {A : Type} [BEq A] [LawfulBEq A]

theorem eraseDups_concat [DecidableEq A] (as : List A) (a : A) :
    (as ++ [a]).eraseDups = if a ∈ as then as.eraseDups else as.eraseDups ++ [a] := by
  rw [List.eraseDups_append, List.cons_removeAll, List.nil_removeAll]
  by_cases h : a ∈ as
  · simp [h]
  · simp [h, List.eraseDups_cons]

theorem nodup_eraseDups (as : List A) : as.eraseDups.Nodup := by
  classical
  induction as using List.reverseRecOn with
  | nil => exact List.nodup_nil
  | append_singleton as b ih =>
    rw [eraseDups_concat]
    by_cases h : b ∈ as
    · rw [if_pos h]
      exact ih
    · rw [if_neg h, List.nodup_append]
      refine ⟨ih, by simp, ?_⟩
      intro x hx y hy
      rw [List.mem_singleton] at hy
      subst hy
      exact fun hxy => h (hxy ▸ List.mem_eraseDups.mp hx)

theorem eraseDups_of_nodup {as : List A} (h : as.Nodup) : as.eraseDups = as := by
  classical
  induction as using List.reverseRecOn with
  | nil => rfl
  | append_singleton as b ih =>
    rw [List.nodup_append] at h
    have hb : b ∉ as := fun hb => h.2.2 b hb b (List.mem_singleton_self b) rfl
    rw [eraseDups_concat, if_neg hb, ih h.1]

end

variable {A K V : Type} [DecidableEq K]

/-! ### elements at their keys -/

namespace Table

/-- write elements one after the other, each at its key, upon what stands there. -/
def gather (key : A → K) (write : Option V → A → V) (as : List A) : Table K V :=
  as.foldl (fun t a => t.put (key a) (write (t.find? (key a)) a)) empty

theorem gather_concat (key : A → K) (write : Option V → A → V) (as : List A) (a : A) :
    gather key write (as ++ [a]) = (gather key write as).put (key a)
      (write ((gather key write as).find? (key a)) a) := by
  unfold gather
  rw [List.foldl_append]
  rfl

/-- the keys come in the order of first occurrence, each with what its own elements amount to. -/
theorem entries_gather [BEq K] [LawfulBEq K] (key : A → K) {write : Option V → A → V}
    {value : List A → V} (hfirst : ∀ a, value [a] = write none a)
    (hnext : ∀ {as} a, as ≠ [] → value (as ++ [a]) = write (some (value as)) a) (as : List A) :
    (gather key write as).entries = (as.map key).eraseDups.map fun k =>
      (k, value (as.filter fun a => decide (key a = k))) := by
  induction as using List.reverseRecOn with
  | nil => rfl
  | append_singleton as a ih =>
    have hkeys : (gather key write as).keys = (as.map key).eraseDups := by
      show (gather key write as).entries.map Prod.fst = _
      rw [ih, List.map_map]
      exact List.map_id _
    have hother : ∀ k, k ≠ key a → (as ++ [a]).filter (fun a => decide (key a = k))
        = as.filter fun a => decide (key a = k) := fun k hk => by
      simp [List.filter_append, hk.symm]
    have hself : (as ++ [a]).filter (fun b => decide (key b = key a))
        = (as.filter fun b => decide (key b = key a)) ++ [a] := by
      simp [List.filter_append]
    rw [gather_concat, List.map_append, List.map_singleton, eraseDups_concat]
    by_cases h : key a ∈ as.map key
    · -- the key is there: it is written where it stands
      have hmem : key a ∈ (as.map key).eraseDups := List.mem_eraseDups.mpr h
      have hfind : (gather key write as).find? (key a)
          = some (value (as.filter fun b => decide (key b = key a))) := by
        rw [← mem_entries_iff, ih]
        exact List.mem_map.mpr ⟨_, hmem, rfl⟩
      have hne : (as.filter fun b => decide (key b = key a)) ≠ [] := by
        obtain ⟨b, hb, hkey⟩ := List.mem_map.mp h
        exact List.ne_nil_of_mem (List.mem_filter.mpr ⟨hb, decide_eq_true hkey⟩)
      rw [hfind, if_pos h, ← hnext a hne]
      show Entries.put (key a) _ (gather key write as).entries = _
      rw [ih, Entries.put_graph _ _ (nodup_eraseDups _) hmem]
      refine List.map_congr_left fun k _ => ?_
      by_cases hk : k = key a
      · rw [if_pos hk, hk, hself]
      · rw [if_neg hk, hother k hk]
    · -- a new key goes to the end
      have hnew : key a ∉ (gather key write as).keys := by
        rw [hkeys, List.mem_eraseDups]
        exact h
      have hnil : (as.filter fun b => decide (key b = key a)) = [] := by
        refine List.filter_eq_nil_iff.mpr fun b hb hkey => h ?_
        exact of_decide_eq_true hkey ▸ List.mem_map_of_mem hb
      rw [find?_eq_none_iff.mpr hnew, if_neg h, entries_put_of_notMem _ hnew, ih, List.map_append,
        List.map_singleton, hself, hnil, List.nil_append, ← hfirst]
      congr 1
      refine List.map_congr_left fun k hk => ?_
      rw [hother k fun hka => h (hka ▸ List.mem_eraseDups.mp hk)]

end Table

/-- entries written one after the other: each key once, where it first occurs, with the value of its
last entry. -/
theorem Entries.ofList_eq [BEq K] [LawfulBEq K] (es : List (K × V)) :
    ofList es = (es.map Prod.fst).eraseDups.filterMap fun k =>
      (es.filter fun e => decide (e.1 = k)).getLast?.map fun e => (k, e.2) := by
  let last (es : List (K × V)) : Option V := es.getLast?.map Prod.snd
  let gathered : Table K (Option V) := .gather Prod.fst (fun _ e => some e.2) es
  have hwritten : gathered.entries = (ofList es).map fun e => (e.1, some e.2) := by
    induction es using List.reverseRecOn with
    | nil => rfl
    | append_singleton es e ih =>
      have hconcat : ofList (es ++ [e]) = put e.1 e.2 (ofList es) := List.foldl_concat _ _ _ _
      rw [hconcat, ← put_map_value some, ← ih]
      exact congrArg Table.entries (Table.gather_concat Prod.fst _ es e)
  have hgathered : gathered.entries = (es.map Prod.fst).eraseDups.map fun k =>
      (k, last (es.filter fun e => decide (e.1 = k))) :=
    Table.entries_gather Prod.fst (fun _ => rfl)
      (fun e _ => congrArg (Option.map Prod.snd) List.getLast?_concat) es
  have hread := congrArg (List.filterMap fun e : K × Option V => e.2.map fun v => (e.1, v))
    (hwritten.symm.trans hgathered)
  rw [List.filterMap_map, List.filterMap_map] at hread
  refine (List.filterMap_some.symm.trans hread).trans ?_
  exact congrArg (fun f => List.filterMap f _) (funext fun k => Option.map_map _ _ _)

/-! ### key by key -/

/-- the classes of a list under distinct values of `f` that cover it. -/
theorem perm_flatMap_filter (f : A → K) (ks : List K) (as : List A)
    (hd : ks.Nodup) (hc : ∀ a ∈ as, f a ∈ ks) :
    (ks.flatMap fun k => as.filter fun a => decide (f a = k)).Perm as := by
  induction ks generalizing as with
  | nil =>
    have has : as = [] := List.eq_nil_iff_forall_not_mem.mpr fun a ha => by cases hc a ha
    rw [has]
    exact List.Perm.refl []
  | cons k ks ih =>
    rw [List.nodup_cons] at hd
    rw [List.flatMap_cons]
    have hrest : (ks.flatMap fun k' => as.filter fun a => decide (f a = k'))
        = ks.flatMap fun k' => (as.filter fun a => !decide (f a = k)).filter
            fun a => decide (f a = k') := by
      rw [List.flatMap_def, List.flatMap_def]
      congr 1
      refine List.map_congr_left fun k' hk' => ?_
      have hne : k' ≠ k := fun h => hd.1 (h ▸ hk')
      rw [List.filter_filter]
      refine List.filter_congr fun a _ => ?_
      by_cases h : f a = k'
      · simp [h, hne]
      · simp [h]
    rw [hrest]
    refine (List.Perm.append_left _ (ih _ hd.2 ?_)).trans
      (List.filter_append_perm (fun a => decide (f a = k)) as)
    intro a ha
    obtain ⟨ha, hne⟩ := List.mem_filter.mp ha
    rcases List.mem_cons.mp (hc a ha) with h | h
    · simp [h] at hne
    · exact h

end Batchwise
