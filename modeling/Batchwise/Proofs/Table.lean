import Batchwise.Table
import Mathlib.Data.List.Nodup

/-!
# Looking up in tables

What a lookup finds after entries were written one after the other, filtered or taken out.

* `Entries.mem_iff_find?`   among distinct keys a lookup finds just the entries that are there;
* `Table.find?_filterKeys`, `Table.find?_erase`   what is left of a lookup;
* `Table.find?_ofList_graph`   a table of one value for each of some keys;
* `Table.mapValues`         other values under the same keys;
* `Entries.put_graph`       a list of keys with a value for each, written at one of its keys;
* `find?_map_replace`       a lookup by number, after entries were replaced by one of their number;
* `exists_split_number`, `map_replace_split`   a list around its entry of a number.
-/

namespace Batchwise

namespace Entries

variable {K V : Type} [DecidableEq K]

theorem find?_eq_none_iff {k : K} {es : List (K × V)} :
    find? k es = none ↔ k ∉ es.map Prod.fst := by
  induction es with
  | nil => simp [find?_nil]
  | cons e es ih =>
    rw [find?_cons, List.map_cons, List.mem_cons, not_or]
    by_cases h : e.1 = k
    · simp [h]
    · rw [if_neg h, ih]
      exact ⟨fun hk => ⟨fun hek => h hek.symm, hk⟩, fun hk => hk.2⟩

theorem mem_of_find? {k : K} {v : V} {es : List (K × V)} (h : find? k es = some v) :
    (k, v) ∈ es := by
  induction es with
  | nil => rw [find?_nil] at h; cases h
  | cons e es ih =>
    rw [find?_cons] at h
    by_cases he : e.1 = k
    · rw [if_pos he] at h
      cases h
      exact he ▸ List.mem_cons_self
    · rw [if_neg he] at h
      exact List.mem_cons_of_mem _ (ih h)

theorem find?_of_mem {k : K} {v : V} {es : List (K × V)} (hd : (es.map Prod.fst).Nodup)
    (h : (k, v) ∈ es) : find? k es = some v := by
  induction es with
  | nil => cases h
  | cons e es ih =>
    rw [List.map_cons, List.nodup_cons] at hd
    rw [find?_cons]
    rcases List.mem_cons.mp h with rfl | h
    · rw [if_pos rfl]
    · have hne : e.1 ≠ k := fun hek => hd.1 (hek ▸ List.mem_map_of_mem h)
      rw [if_neg hne, ih hd.2 h]

theorem mem_iff_find? {k : K} {v : V} {es : List (K × V)} (hd : (es.map Prod.fst).Nodup) :
    (k, v) ∈ es ↔ find? k es = some v :=
  ⟨find?_of_mem hd, mem_of_find?⟩

theorem mem_put {k : K} {v : V} {e : K × V} {es : List (K × V)} (h : e ∈ put k v es) :
    e = (k, v) ∨ e ∈ es := by
  induction es with
  | nil => exact Or.inl (List.mem_singleton.mp h)
  | cons f es ih =>
    rw [put_cons] at h
    split at h
    · rcases List.mem_cons.mp h with h | h
      · exact Or.inl h
      · exact Or.inr (List.mem_cons_of_mem f h)
    · rcases List.mem_cons.mp h with rfl | h
      · exact Or.inr List.mem_cons_self
      · rcases ih h with h | h
        · exact Or.inl h
        · exact Or.inr (List.mem_cons_of_mem f h)

theorem find?_map_value {W : Type} (f : V → W) (k : K) (es : List (K × V)) :
    find? k (es.map fun e => (e.1, f e.2)) = (find? k es).map f := by
  induction es with
  | nil => rfl
  | cons e es ih =>
    rw [List.map_cons, find?_cons, find?_cons, ih]
    by_cases h : e.1 = k
    · rw [if_pos h, if_pos h]
      rfl
    · rw [if_neg h, if_neg h]

theorem put_map_value {W : Type} (f : V → W) (k : K) (v : V) (es : List (K × V)) :
    put k (f v) (es.map fun e => (e.1, f e.2)) = (put k v es).map fun e => (e.1, f e.2) := by
  induction es with
  | nil => rfl
  | cons e es ih =>
    rw [List.map_cons, put_cons, put_cons, ih]
    by_cases h : e.1 = k
    · rw [if_pos h, if_pos h]
      rfl
    · rw [if_neg h, if_neg h]
      rfl

theorem find?_filter (p : K → Bool) (k : K) (es : List (K × V)) :
    find? k (es.filter fun e => p e.1) = if p k = true then find? k es else none := by
  induction es with
  | nil => simp [find?_nil]
  | cons e es ih =>
    rw [List.filter_cons]
    by_cases hk : e.1 = k
    · subst hk
      by_cases hp : p e.1 = true
      · simp [hp, find?_cons]
      · simp [hp, ih]
    · by_cases hp : p e.1 = true
      · simp [hp, find?_cons, hk, ih]
      · simp [hp, find?_cons, hk, ih]

theorem put_graph {ks : List K} (f : K → V) {k : K} (v : V) (hd : ks.Nodup) (hk : k ∈ ks) :
    put k v (ks.map fun x => (x, f x)) = ks.map fun x => (x, if x = k then v else f x) := by
  induction ks with
  | nil => cases hk
  | cons x ks ih =>
    rw [List.nodup_cons] at hd
    rw [List.map_cons, List.map_cons, put_cons]
    by_cases hx : x = k
    · subst hx
      rw [if_pos rfl, if_pos rfl]
      congr 1
      refine List.map_congr_left fun y hy => ?_
      have hyx : y ≠ x := fun h => hd.1 (h ▸ hy)
      rw [if_neg hyx]
    · have hk' : k ∈ ks := by
        rcases List.mem_cons.mp hk with h | h
        · exact absurd h.symm hx
        · exact h
      rw [if_neg hx, if_neg hx, ih hd.2 hk']

/-- entries under distinct keys are written as they are. -/
theorem ofList_of_nodup {es : List (K × V)} (h : (es.map Prod.fst).Nodup) : ofList es = es := by
  have hfold : ∀ (es done : List (K × V)), ((done ++ es).map Prod.fst).Nodup →
      es.foldl (fun t e => put e.1 e.2 t) done = done ++ es := by
    intro es
    induction es with
    | nil => intro done _; simp
    | cons e es ih =>
      intro done hd
      have hnew : e.1 ∉ done.map Prod.fst := by
        rw [List.map_append, List.map_cons, List.nodup_append] at hd
        intro hmem
        exact hd.2.2 e.1 hmem e.1 List.mem_cons_self rfl
      rw [List.foldl_cons, keys_put_of_notMem e.2 hnew]
      have hsplit : done ++ [(e.1, e.2)] ++ es = done ++ e :: es := by simp
      rw [ih _ (by rw [hsplit]; exact hd), hsplit]
  exact hfold es [] h

end Entries

namespace Table

variable {K V : Type} [DecidableEq K]

theorem mem_entries_iff {t : Table K V} {k : K} {v : V} :
    (k, v) ∈ t.entries ↔ t.find? k = some v :=
  Entries.mem_iff_find? t.distinct

theorem find?_eq_none_iff {t : Table K V} {k : K} : t.find? k = none ↔ k ∉ t.keys :=
  Entries.find?_eq_none_iff

theorem find?_filterKeys (p : K → Bool) (t : Table K V) (k : K) :
    (t.filterKeys p).find? k = if p k = true then t.find? k else none :=
  Entries.find?_filter p k t.entries

theorem find?_erase (t : Table K V) (k k' : K) :
    (t.erase k).find? k' = if k' = k then none else t.find? k' := by
  show (t.filterKeys _).find? k' = _
  rw [find?_filterKeys]
  by_cases h : k' = k
  · simp [h]
  · simp [h]

theorem find?_ofList_graph (f : K → V) (ks : List K) (k : K) :
    (ofList (ks.map fun x => (x, f x))).find? k = if k ∈ ks then some (f k) else none := by
  have hfold : ∀ t : Table K V, ((ks.map fun x => (x, f x)).foldl (fun t e => t.put e.1 e.2)
      t).find? k = if k ∈ ks then some (f k) else t.find? k := by
    induction ks with
    | nil => exact fun t => (if_neg List.not_mem_nil).symm
    | cons x ks ih =>
      intro t
      rw [List.map_cons, List.foldl_cons, ih, find?_put]
      by_cases hk : k ∈ ks
      · rw [if_pos hk, if_pos (List.mem_cons_of_mem x hk)]
      · rw [if_neg hk]
        by_cases hx : x = k
        · rw [if_pos hx, hx, if_pos List.mem_cons_self]
        · have hnot : k ∉ x :: ks := fun h => (List.mem_cons.mp h).elim (fun h => hx h.symm) hk
          rw [if_neg hx, if_neg hnot]
  exact hfold empty

/-! ### other values -/

/-- the table with other values under its keys. -/
def mapValues {W : Type} (f : V → W) (t : Table K V) : Table K W where
  entries := t.entries.map fun e => (e.1, f e.2)
  distinct := by
    rw [List.map_map]
    exact t.distinct

theorem find?_mapValues {W : Type} (f : V → W) (t : Table K V) (k : K) :
    (t.mapValues f).find? k = (t.find? k).map f :=
  Entries.find?_map_value f k t.entries

theorem put_mapValues {W : Type} (f : V → W) (t : Table K V) (k : K) (v : V) :
    (t.mapValues f).put k (f v) = (t.put k v).mapValues f := by
  have hentries := Entries.put_map_value f k v t.entries
  unfold put mapValues
  simp only [hentries]

end Table

/-! ### lists by number -/

theorem find?_number_cons {A : Type} (number : A → Nat) (x : A) (as : List A) (n : Nat) :
    (x :: as).find? (fun a => number a == n) =
      if number x = n then some x else as.find? fun a => number a == n := by
  by_cases h : number x = n
  · simp [h]
  · simp [h]

theorem find?_number_eq_none {A : Type} {number : A → Nat} {as : List A} {n : Nat}
    (h : n ∉ as.map number) : as.find? (fun a => number a == n) = none := by
  rw [List.find?_eq_none]
  exact fun a ha heq => h (eq_of_beq heq ▸ List.mem_map_of_mem ha)

theorem number_of_find? {A : Type} {number : A → Nat} {as : List A} {n : Nat} {a : A}
    (h : as.find? (fun a => number a == n) = some a) : number a = n := by
  have hp := List.find?_some h
  exact eq_of_beq hp

theorem find?_number_map {A : Type} (number : A → Nat) {f : A → A}
    (hf : ∀ a, number (f a) = number a) (as : List A) (n : Nat) :
    (as.map f).find? (fun a => number a == n) = (as.find? fun a => number a == n).map f := by
  rw [List.find?_map]
  refine congrArg (fun p => (as.find? p).map f) (funext fun a => ?_)
  show (number (f a) == n) = _
  rw [hf]

theorem find?_map_replace {A : Type} (number : A → Nat) (x : A) (as : List A) (n : Nat) :
    (as.map fun a => if number a == number x then x else a).find? (fun a => number a == n) =
      if n = number x then (as.find? fun a => number a == n).map fun _ => x
      else as.find? fun a => number a == n := by
  have hf : ∀ a, number (if number a == number x then x else a) = number a := fun a => by
    by_cases ha : number a = number x
    · simp [ha]
    · simp [ha]
  rw [find?_number_map number hf]
  cases hfind : as.find? fun a => number a == n with
  | none => simp
  | some a =>
    have ha : number a = n := number_of_find? hfind
    by_cases hn : n = number x
    · rw [if_pos hn, Option.map_some, if_pos (beq_iff_eq.mpr (ha.trans hn)), Option.map_some]
    · rw [if_neg hn, Option.map_some, if_neg fun h => hn (ha.symm.trans (eq_of_beq h))]

theorem find?_number_of_mem {A : Type} {number : A → Nat} {as : List A} {a : A}
    (hd : (as.map number).Nodup) (ha : a ∈ as) :
    as.find? (fun b => number b == number a) = some a := by
  cases hfind : as.find? fun b => number b == number a with
  | none => exact absurd (beq_self_eq_true (number a)) (List.find?_eq_none.mp hfind a ha)
  | some b =>
    have hb := List.inj_on_of_nodup_map hd (List.mem_of_find?_eq_some hfind) ha
      (number_of_find? hfind)
    rw [hb]

/-- a list of distinct numbers around the entry of one of them. -/
theorem exists_split_number {A : Type} {number : A → Nat} {as : List A} {n : Nat} {a : A}
    (hd : (as.map number).Nodup) (h : as.find? (fun a => number a == n) = some a) :
    ∃ us vs, as = us ++ a :: vs ∧ ∀ u ∈ us ++ vs, number u ≠ n := by
  obtain ⟨us, vs, hsplit⟩ := List.append_of_mem (List.mem_of_find?_eq_some h)
  have ha : number a = n := number_of_find? h
  refine ⟨us, vs, hsplit, fun u hu heq => ?_⟩
  rw [hsplit, List.map_append, List.map_cons, List.nodup_append, List.nodup_cons] at hd
  rcases List.mem_append.mp hu with hu | hu
  · exact hd.2.2 _ (List.mem_map_of_mem hu) _ List.mem_cons_self (heq.trans ha.symm)
  · exact hd.2.1.1 (ha.trans heq.symm ▸ List.mem_map_of_mem hu)

theorem map_replace_split {A : Type} (number : A → Nat) {a x : A} {us vs : List A}
    (ha : number a = number x) (hne : ∀ u ∈ us ++ vs, number u ≠ number x) :
    (us ++ a :: vs).map (fun u => if number u == number x then x else u) = us ++ x :: vs := by
  have hkeep : (us ++ vs).map (fun u => if number u == number x then x else u) = us ++ vs := by
    refine (List.map_congr_left fun u hu => ?_).trans (List.map_id _)
    rw [if_neg fun h => hne u hu (eq_of_beq h)]
    rfl
  have hlen := List.append_inj (List.map_append.symm.trans hkeep) (List.length_map _)
  rw [List.map_append, List.map_cons, hlen.1, hlen.2, if_pos (beq_iff_eq.mpr ha)]

end Batchwise
