/-!
# Tables: entries in order of first insertion

A table lists entries under pairwise distinct keys.  Writing under a key that is there already
replaces the value where it stands; a new key goes to the end.

* `Table.put`      the only way in: `find?_put`, `keys_put_of_mem`, `keys_put_of_notMem`;
* `Table.find?`    the value under a key;
* `Table.erase`, `Table.filter`   take entries out and keep the order of the others.

The same operations on bare lists of entries (`Entries`) serve recursive types, whose
constructors cannot carry the proof that the keys are distinct.
-/

namespace Batchwise

/-! ### bare lists of entries -/

namespace Entries

variable {K V : Type} [DecidableEq K]

def find? (k : K) : List (K × V) → Option V
  | [] => none
  | e :: es => if e.1 = k then some e.2 else find? k es

/-- replace the value under `k` where it stands, or add an entry at the end. -/
def put (k : K) (v : V) : List (K × V) → List (K × V)
  | [] => [(k, v)]
  | e :: es => if e.1 = k then (k, v) :: es else e :: put k v es

/-- write entries one after the other: a repeated key keeps its first position and its last
value. -/
def ofList (es : List (K × V)) : List (K × V) :=
  es.foldl (fun t e => put e.1 e.2 t) []

theorem find?_nil (k : K) : find? k ([] : List (K × V)) = none := rfl

theorem find?_cons (k : K) (e : K × V) (es : List (K × V)) :
    find? k (e :: es) = if e.1 = k then some e.2 else find? k es := rfl

theorem put_nil (k : K) (v : V) : put k v [] = [(k, v)] := rfl

theorem put_cons (k : K) (v : V) (e : K × V) (es : List (K × V)) :
    put k v (e :: es) = if e.1 = k then (k, v) :: es else e :: put k v es := rfl

theorem find?_put (k k' : K) (v : V) (es : List (K × V)) :
    find? k' (put k v es) = if k = k' then some v else find? k' es := by
  induction es with
  | nil => simp [put_nil, find?_cons, find?_nil]
  | cons e es ih =>
    rw [put_cons]
    by_cases h : e.1 = k
    · by_cases hk : k = k'
      · simp [h, hk, find?_cons]
      · simp [h, hk, find?_cons]
    · by_cases hk : k = k'
      · subst hk
        simp [h, find?_cons, ih]
      · simp [h, find?_cons, ih, hk]

theorem keys_put_of_mem {k : K} {es : List (K × V)} (v : V) (h : k ∈ es.map Prod.fst) :
    (put k v es).map Prod.fst = es.map Prod.fst := by
  induction es with
  | nil => simp at h
  | cons e es ih =>
    rw [put_cons]
    by_cases he : e.1 = k
    · simp [he]
    · have hk : k ∈ es.map Prod.fst := by
        rcases List.mem_cons.mp h with h | h
        · exact absurd h.symm he
        · exact h
      simp [he, ih hk]

theorem keys_put_of_notMem {k : K} {es : List (K × V)} (v : V) (h : k ∉ es.map Prod.fst) :
    put k v es = es ++ [(k, v)] := by
  induction es with
  | nil => rfl
  | cons e es ih =>
    rw [put_cons]
    have he : e.1 ≠ k := fun he => h (by simp [he])
    have hk : k ∉ es.map Prod.fst := fun hk => h (List.mem_cons_of_mem _ hk)
    simp [he, ih hk]

theorem nodup_put {k : K} {es : List (K × V)} (v : V) (h : (es.map Prod.fst).Nodup) :
    ((put k v es).map Prod.fst).Nodup := by
  by_cases hk : k ∈ es.map Prod.fst
  · rw [keys_put_of_mem v hk]
    exact h
  · rw [keys_put_of_notMem v hk, List.map_append, List.nodup_append]
    refine ⟨h, by simp, ?_⟩
    intro a ha b hb
    simp only [List.map_cons, List.map_nil, List.mem_singleton] at hb
    subst hb
    exact fun hab => hk (hab ▸ ha)

end Entries

/-! ### tables -/

/-- entries under pairwise distinct keys, in the order in which the keys first came. -/
structure Table (K V : Type) where
  entries : List (K × V)
  distinct : (entries.map Prod.fst).Nodup

namespace Table

variable {K V : Type}

def empty : Table K V := ⟨[], List.nodup_nil⟩

instance : EmptyCollection (Table K V) := ⟨empty⟩

instance : Inhabited (Table K V) := ⟨empty⟩

def keys (t : Table K V) : List K := t.entries.map Prod.fst

def values (t : Table K V) : List V := t.entries.map Prod.snd

def size (t : Table K V) : Nat := t.entries.length

def isEmpty (t : Table K V) : Bool := t.entries.isEmpty

def filterKeys (p : K → Bool) (t : Table K V) : Table K V where
  entries := t.entries.filter (fun e => p e.1)
  distinct := t.distinct.sublist (List.filter_sublist.map Prod.fst)

variable [DecidableEq K]

def find? (t : Table K V) (k : K) : Option V := Entries.find? k t.entries

def contains (t : Table K V) (k : K) : Bool := (t.find? k).isSome

/-- write `v` under `k`: in place if `k` is there, at the end otherwise. -/
def put (t : Table K V) (k : K) (v : V) : Table K V where
  entries := Entries.put k v t.entries
  distinct := Entries.nodup_put v t.distinct

def erase (t : Table K V) (k : K) : Table K V := t.filterKeys (fun k' => !decide (k' = k))

def ofList (es : List (K × V)) : Table K V :=
  es.foldl (fun t e => t.put e.1 e.2) empty

/-! ### equations -/

omit [DecidableEq K] in
@[simp] theorem entries_empty : (empty : Table K V).entries = [] := rfl

omit [DecidableEq K] in
@[simp] theorem keys_empty : (empty : Table K V).keys = [] := rfl

@[simp] theorem find?_empty (k : K) : (empty : Table K V).find? k = none := rfl

@[simp] theorem find?_put (t : Table K V) (k k' : K) (v : V) :
    (t.put k v).find? k' = if k = k' then some v else t.find? k' :=
  Entries.find?_put k k' v t.entries

theorem keys_put_of_mem {t : Table K V} {k : K} (v : V) (h : k ∈ t.keys) :
    (t.put k v).keys = t.keys :=
  Entries.keys_put_of_mem v h

theorem entries_put_of_notMem {t : Table K V} {k : K} (v : V) (h : k ∉ t.keys) :
    (t.put k v).entries = t.entries ++ [(k, v)] :=
  Entries.keys_put_of_notMem v h

omit [DecidableEq K] in
theorem keys_nodup (t : Table K V) : t.keys.Nodup := t.distinct

end Table
end Batchwise
