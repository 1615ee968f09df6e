import Batchwise.Proofs.Args
import Batchwise.Proofs.Text.Bytes
import Mathlib.Data.List.Induction

/-!
# Building argument sets

Arguments come one after the other, all at once, or from a table.  In each case what is under a
name in the end is the value of the last entry of that name, and an argument set is told by what is
under each name.

* `Entries.latest?`       the value of the last entry under a key;
* `Args.get?_insertAll`, `Args.get?_ofList`, `Args.get?_ofTable`   what is found under a name;
* `Args.eq_of_get?`       argument sets that agree under each name are equal;
* `Args.built_from_last_entries`   the three ways of building.
-/

namespace Batchwise

/-! ### last entries -/

namespace Entries

variable {K V : Type} [DecidableEq K]

theorem find?_append (k : K) (es fs : List (K × V)) :
    find? k (es ++ fs) = (find? k es).or (find? k fs) := by
  induction es with
  | nil => rfl
  | cons e es ih =>
    rw [List.cons_append, find?_cons, find?_cons, ih]
    by_cases h : e.1 = k
    · rw [if_pos h, if_pos h, Option.some_or]
    · rw [if_neg h, if_neg h]

theorem find?_eq_map (k : K) (es : List (K × V)) :
    find? k es = (es.find? fun e => decide (e.1 = k)).map Prod.snd := by
  induction es with
  | nil => rfl
  | cons e es ih =>
    rw [find?_cons, List.find?_cons]
    by_cases h : e.1 = k
    · simp [h]
    · simp [h, ih]

/-- the value of the last entry under `k`. -/
def latest? (k : K) (es : List (K × V)) : Option V := find? k es.reverse

theorem latest?_concat (k : K) (es : List (K × V)) (e : K × V) :
    latest? k (es ++ [e]) = if e.1 = k then some e.2 else latest? k es := by
  unfold latest?
  rw [List.reverse_concat, find?_cons]

theorem latest?_cons (k : K) (e : K × V) (es : List (K × V)) :
    latest? k (e :: es) = (latest? k es).or (if e.1 = k then some e.2 else none) := by
  unfold latest?
  rw [List.reverse_cons, find?_append]
  rfl

theorem latest?_eq_none_iff {k : K} {es : List (K × V)} :
    latest? k es = none ↔ k ∉ es.map Prod.fst := by
  unfold latest?
  rw [find?_eq_none_iff, List.map_reverse, List.mem_reverse]

/-- the last entry under `k` has `v`: no entry behind it is under `k`. -/
def Last (es : List (K × V)) (k : K) (v : V) : Prop :=
  ∃ us vs, es = us ++ (k, v) :: vs ∧ k ∉ vs.map Prod.fst

theorem latest?_eq_some_iff {k : K} {v : V} {es : List (K × V)} :
    latest? k es = some v ↔ Last es k v := by
  induction es with
  | nil =>
    refine iff_of_false (by simp [latest?, find?_nil]) ?_
    rintro ⟨us, vs, hsplit, _⟩
    cases us <;> cases hsplit
  | cons e es ih =>
    rw [latest?_cons, Option.or_eq_some_iff, ih, latest?_eq_none_iff]
    constructor
    · rintro (⟨us, vs, rfl, hvs⟩ | ⟨hes, he⟩)
      · exact ⟨e :: us, vs, rfl, hvs⟩
      · by_cases hk : e.1 = k
        · rw [if_pos hk] at he
          cases he
          exact ⟨[], es, by rw [← hk]; rfl, hes⟩
        · rw [if_neg hk] at he
          cases he
    · rintro ⟨us, vs, hsplit, hvs⟩
      cases us with
      | nil =>
        cases hsplit
        exact Or.inr ⟨hvs, if_pos rfl⟩
      | cons u us =>
        cases hsplit
        exact Or.inl ⟨us, vs, rfl, hvs⟩

theorem latest?_eq_getLast? (k : K) (es : List (K × V)) :
    latest? k es = (es.filter fun e => decide (e.1 = k)).getLast?.map Prod.snd := by
  unfold latest?
  rw [find?_eq_map, List.getLast?_filter]

/-- among distinct keys the last entry under a key is the only one. -/
theorem latest?_of_nodup {es : List (K × V)} (h : (es.map Prod.fst).Nodup) (k : K) :
    latest? k es = find? k es := by
  have hreverse : (es.reverse.map Prod.fst).Nodup := by
    rw [List.map_reverse]
    exact List.nodup_reverse.mpr h
  refine Option.ext fun v => ?_
  rw [latest?, ← mem_iff_find? hreverse, ← mem_iff_find? h, List.mem_reverse]

end Entries

theorem Table.find?_ofList {K V : Type} [DecidableEq K] (es : List (K × V)) (k : K) :
    (Table.ofList es).find? k = Entries.latest? k es := by
  induction es using List.reverseRecOn with
  | nil => rfl
  | append_singleton es e ih =>
    have hconcat : Table.ofList (es ++ [e]) = (Table.ofList es).put e.1 e.2 := List.foldl_concat _ _ _ _
    rw [hconcat, find?_put, ih, Entries.latest?_concat]

namespace Args

/-! ### what is under a name -/

/-- argument sets that agree under each name are equal. -/
theorem eq_of_get? {a b : Args} (h : ∀ name, a.get? name = b.get? name) : a = b := by
  have hmem : ∀ e, e ∈ a.entries ↔ e ∈ b.entries := fun e => by
    rw [Entries.mem_iff_find? a.nodup_names, Entries.mem_iff_find? b.nodup_names]
    exact iff_of_eq (congrArg (· = some e.2) (h e.1))
  have hperm : a.entries.Perm b.entries :=
    (List.perm_ext_iff_of_nodup (List.Nodup.of_map _ a.nodup_names)
      (List.Nodup.of_map _ b.nodup_names)).mpr hmem
  have hentries : a.entries = b.entries := by
    apply hperm.eq_of_pairwise _ (List.pairwise_map.mp a.ascending) (List.pairwise_map.mp b.ascending)
    intro e f _ _ hef hfe
    exact absurd (String.lt_trans hef hfe) (String.lt_irrefl _)
  cases a
  cases b
  cases hentries
  rfl

theorem get?_insert (args : Args) (name name' : String) (d : Datum) :
    (args.insert name d).get? name' = if name = name' then some d else args.get? name' := by
  show Entries.find? name' (insertEntry name d args.entries) = if _ then _ else
    Entries.find? name' args.entries
  induction args.entries with
  | nil => rfl
  | cons e es ih =>
    rw [insertEntry]
    split
    · rw [Entries.find?_cons]
    · split
      · rename_i heq
        rw [Entries.find?_cons, Entries.find?_cons, ← heq]
        by_cases hname : name = name'
        · rw [if_pos hname, if_pos hname]
        · rw [if_neg hname, if_neg hname, if_neg hname]
      · rename_i hne
        rw [Entries.find?_cons, Entries.find?_cons, ih]
        by_cases he : e.1 = name'
        · rw [if_pos he, if_pos he, if_neg fun h => hne (h.trans he.symm)]
        · rw [if_neg he, if_neg he]

theorem get?_insertAll (es : List (String × Datum)) (name : String) :
    (insertAll es).get? name = Entries.latest? name es := by
  induction es using List.reverseRecOn with
  | nil => rfl
  | append_singleton es e ih =>
    have hconcat : insertAll (es ++ [e]) = (insertAll es).insert e.1 e.2 := List.foldl_concat _ _ _ _
    rw [hconcat, get?_insert, ih, Entries.latest?_concat]

/-- the sort is stable: the entries of one name stay in order. -/
theorem filter_sortByName (name : String) (es : List (String × Datum)) :
    (sortByName es).filter (fun e => decide (e.1 = name))
      = es.filter fun e => decide (e.1 = name) := by
  let p : String × Datum → Bool := fun e => decide (e.1 = name)
  have hsame : (es.filter p).Pairwise (fun a b => nameLe a b = true) := by
    refine List.pairwise_of_forall_mem_list fun a ha b hb => ?_
    have ha' : a.1 = name := of_decide_eq_true (List.mem_filter.mp ha).2
    have hb' : b.1 = name := of_decide_eq_true (List.mem_filter.mp hb).2
    exact decide_eq_true (ha'.trans hb'.symm ▸ String.le_refl _)
  have hsub : (es.filter p).Sublist (sortByName es) :=
    List.sublist_mergeSort nameLe_trans nameLe_total hsame List.filter_sublist
  have hfilter : (es.filter p).Sublist ((sortByName es).filter p) := by
    have h := hsub.filter p
    rw [List.filter_filter] at h
    simpa only [Bool.and_self] using h
  refine (hfilter.eq_of_length ?_).symm
  exact ((List.mergeSort_perm es nameLe).filter p).length_eq.symm

theorem find?_keepLast {es : List (String × Datum)} (h : es.Pairwise (fun a b => a.1 ≤ b.1))
    (name : String) : Entries.find? name (keepLast es) = Entries.latest? name es := by
  fun_induction keepLast es with
  | case1 => rfl
  | case2 e => rfl
  | case3 e f es heq ih =>
    rw [ih (List.pairwise_cons.mp h).2, Entries.latest?_cons name e]
    by_cases hname : e.1 = name
    · have hsome : Entries.latest? name (f :: es) ≠ none := fun hnone =>
        Entries.latest?_eq_none_iff.mp hnone (hname ▸ heq ▸ List.mem_cons_self)
      obtain ⟨d, hd⟩ := Option.ne_none_iff_exists'.mp hsome
      rw [hd, Option.some_or]
    · rw [if_neg hname, Option.or_none]
  | case4 e f es hne ih =>
    obtain ⟨hle, hrest⟩ := List.pairwise_cons.mp h
    rw [Entries.find?_cons, ih hrest, Entries.latest?_cons name e]
    by_cases hname : e.1 = name
    · -- names are ascending, so this one does not come again
      have hnone : Entries.latest? name (f :: es) = none := by
        refine Entries.latest?_eq_none_iff.mpr fun hmem => ?_
        have hef : e.1 < f.1 :=
          String.not_le.mp fun hfe => hne (String.le_antisymm (hle f List.mem_cons_self) hfe)
        obtain ⟨g, hg, hgname⟩ := List.mem_map.mp hmem
        have hfg : f.1 ≤ g.1 := by
          rcases List.mem_cons.mp hg with rfl | hg
          · exact String.le_refl _
          · exact (List.pairwise_cons.mp hrest).1 g hg
        rw [hgname, ← hname] at hfg
        exact String.not_le.mpr hef hfg
      rw [if_pos hname, if_pos hname, hnone, Option.none_or]
    · rw [if_neg hname, if_neg hname, Option.or_none]

theorem get?_ofList (es : List (String × Datum)) (name : String) :
    (ofList es).get? name = Entries.latest? name es := by
  show Entries.find? name (keepLast (sortByName es)) = _
  rw [find?_keepLast (pairwise_sortByName es), Entries.latest?_eq_getLast?, filter_sortByName,
    Entries.latest?_eq_getLast?]

theorem get?_ofTable (t : Table String Datum) (name : String) :
    (ofTable t).get? name = t.find? name :=
  (get?_ofList t.entries name).trans (Entries.latest?_of_nodup t.distinct name)

theorem insertAll_eq_ofList (es : List (String × Datum)) : insertAll es = ofList es :=
  eq_of_get? fun name => (get?_insertAll es name).trans (get?_ofList es name).symm

theorem ofTable_eq_ofList (es : List (String × Datum)) : ofTable (Table.ofList es) = ofList es :=
  eq_of_get? fun name => by rw [get?_ofTable, Table.find?_ofList, get?_ofList]

theorem mem_entries_ofList {es : List (String × Datum)} {name : String} {d : Datum} :
    (name, d) ∈ (ofList es).entries ↔ Entries.Last es name d := by
  rw [← Entries.latest?_eq_some_iff, ← get?_ofList]
  exact Entries.mem_iff_find? (nodup_names _)

/-- entries that give each name the same last value are one argument set. -/
theorem ofList_congr {es fs : List (String × Datum)}
    (h : ∀ name d, Entries.Last es name d ↔ Entries.Last fs name d) : ofList es = ofList fs :=
  eq_of_get? fun name => Option.ext fun d => by
    rw [get?_ofList, get?_ofList, Entries.latest?_eq_some_iff, Entries.latest?_eq_some_iff]
    exact h name d

/-- **Arguments are made of last entries.**  For all entries, with names repeated or not:
* written one after the other, all at once or from a table, they are one argument set;
* it has the names of the entries, each once, in ascending order of their bytes;
* and under a name the value of its last entry;
* so entries in another order, with others overwritten, are the same argument set if the last value
  of each name is the same: what is found under a name and the fingerprint are the same too. -/
theorem built_from_last_entries (es : List (String × Datum)) :
    let args := ofList es
    insertAll es = args ∧ ofTable (Table.ofList es) = args ∧
    (args.entries.map Prod.fst).Pairwise (fun m n => Text.bytes m < Text.bytes n) ∧
    (∀ name, name ∈ args.entries.map Prod.fst ↔ name ∈ es.map Prod.fst) ∧
    (∀ name d, (name, d) ∈ args.entries ↔ Entries.Last es name d) ∧
    ∀ fs, (∀ name d, Entries.Last es name d ↔ Entries.Last fs name d) →
      ∀ args' ∈ [insertAll fs, ofList fs, ofTable (Table.ofList fs)], args' = args ∧
        (∀ name, args'.get? name = args.get? name ∧ args'.getText? name = args.getText? name) ∧
        args'.fingerprint = args.fingerprint := by
  intro args
  refine ⟨insertAll_eq_ofList es, ofTable_eq_ofList es,
    args.ascending.imp fun h => Text.bytes_lt_iff.mpr h, fun name => ?_,
    fun name d => mem_entries_ofList, fun fs h args' hargs' => ?_⟩
  · have hnone : args.get? name = none ↔ Entries.latest? name es = none := by
      rw [get?_ofList]
    rw [Entries.latest?_eq_none_iff] at hnone
    exact not_iff_not.mp (Entries.find?_eq_none_iff.symm.trans hnone)
  · rw [insertAll_eq_ofList, ofTable_eq_ofList] at hargs'
    have heq : args' = args := by
      have hmem : args' = ofList fs := by simpa using hargs'
      exact hmem.trans (ofList_congr h).symm
    rw [heq]
    exact ⟨rfl, fun name => ⟨rfl, rfl⟩, rfl⟩

/-- two arguments, and the same two in the other order with the limit changed on the way. -/
theorem built_from_last_entries_of_limits :
    let es := [("suffix", Datum.text "foo"), ("limit", Datum.number (.int 10))]
    let fs := [("limit", Datum.null), ("suffix", Datum.text "foo"), ("limit", Datum.number (.int 10))]
    (∀ name d, Entries.Last es name d ↔ Entries.Last fs name d) ∧
      insertAll fs = ofList es ∧ (insertAll fs).fingerprint = (ofList es).fingerprint := by
  intro es fs
  have hlast : ∀ name d, Entries.Last es name d ↔ Entries.Last fs name d := fun name d => by
    rw [← Entries.latest?_eq_some_iff, ← Entries.latest?_eq_some_iff]
    have hes : Entries.latest? name es = if "limit" = name then some (.number (.int 10))
      else if "suffix" = name then some (.text "foo") else none := rfl
    have hfs : Entries.latest? name fs = if "limit" = name then some (.number (.int 10))
      else if "suffix" = name then some (.text "foo") else
      if "limit" = name then some .null else none := rfl
    rw [hes, hfs]
    by_cases h : "limit" = name
    · rw [if_pos h, if_pos h]
    · rw [if_neg h, if_neg h, if_neg h]
  obtain ⟨_, _, _, _, _, hsame⟩ := built_from_last_entries es
  obtain ⟨heq, _, htext⟩ := hsame fs hlast (insertAll fs) List.mem_cons_self
  exact ⟨hlast, heq, htext⟩

end Args
end Batchwise
