import Batchwise.Datum
import Batchwise.Proofs.Table
import Mathlib.Data.List.Forall2

/-!
# Data up to the order of records

`Alike` is identity of structure, only that the entries of a record may stand in any order: a name
of an enumeration is not alike to a text, an integer not to a double, and items count in order.

* `Datum.induction`     induction over the items and the entries of a value;
* `Datum.Alike`         the relation;
* `Datum.PlainEnums`    no name of an enumeration, at any depth, ends a value;
* `Datum.distinct_ofEntries`   records have distinct names as they are written.
-/

namespace Batchwise.Datum

/-! ### induction -/

theorem induction {P : Datum → Prop} (null : P null) (bool : ∀ b, P (bool b))
    (number : ∀ n, P (number n)) (text : ∀ s, P (text s)) (enum : ∀ name, P (enum name))
    (bytes : ∀ bs, P (bytes bs)) (list : ∀ items, (∀ d ∈ items, P d) → P (list items))
    (record : ∀ entries, (∀ e ∈ entries, P e.2) → P (record entries)) (d : Datum) : P d := by
  -- lists of items and of entries are data of their own for the recursor
  refine @Datum.rec P (fun items => ∀ d ∈ items, P d) (fun entries => ∀ e ∈ entries, P e.2)
    (fun e => P e.2) null bool number text enum bytes list record ?_ ?_ ?_ ?_ ?_ d
  · intro d hd
    cases hd
  · intro d ds hd hds x hx
    rcases List.mem_cons.mp hx with rfl | hx
    · exact hd
    · exact hds x hx
  · intro e he
    cases he
  · intro e es he hes x hx
    rcases List.mem_cons.mp hx with rfl | hx
    · exact he
    · exact hes x hx
  · intro name d hd
    exact hd

/-! ### the relation -/

mutual

/-- the same structure, up to the order of the entries of records -/
inductive Alike : Datum → Datum → Prop
  | null : Alike null null
  | bool (value : Bool) : Alike (bool value) (bool value)
  | number (value : Number) : Alike (number value) (number value)
  | text (value : String) : Alike (text value) (text value)
  | enum (name : String) : Alike (enum name) (enum name)
  | bytes (value : List UInt8) : Alike (bytes value) (bytes value)
  | list {as bs : List Datum} : List.Forall₂ Alike as bs → Alike (list as) (list bs)
  | record {as cs bs : List (String × Datum)} :
    as.Perm cs → List.Forall₂ AlikeEntry cs bs → Alike (record as) (record bs)

/-- alike values under one name -/
inductive AlikeEntry : String × Datum → String × Datum → Prop
  | mk (name : String) {a b : Datum} : Alike a b → AlikeEntry (name, a) (name, b)

end

theorem AlikeEntry.name_eq {e f : String × Datum} (h : AlikeEntry e f) : e.1 = f.1 := by
  cases h
  rfl

theorem AlikeEntry.alike {e f : String × Datum} (h : AlikeEntry e f) : e.2.Alike f.2 := by
  cases h
  assumption

theorem alikeEntry_iff {e f : String × Datum} : AlikeEntry e f ↔ e.1 = f.1 ∧ e.2.Alike f.2 := by
  constructor
  · intro h
    exact ⟨h.name_eq, h.alike⟩
  · obtain ⟨name, a⟩ := e
    obtain ⟨name', b⟩ := f
    rintro ⟨rfl, h⟩
    exact AlikeEntry.mk name h

/-! ### names of enumerations -/

/-- none of the characters that stand behind a value in a list or a record -/
def IsPlain (name : String) : Prop := ∀ c ∈ name.toList, c ≠ ',' ∧ c ≠ ']' ∧ c ≠ '\x7d'

mutual

/-- every name of an enumeration, at any depth, is plain. -/
def PlainEnums : Datum → Prop
  | enum name => IsPlain name
  | list items => PlainItems items
  | record entries => PlainEntries entries
  | _ => True

def PlainItems : List Datum → Prop
  | [] => True
  | d :: ds => d.PlainEnums ∧ PlainItems ds

def PlainEntries : List (String × Datum) → Prop
  | [] => True
  | (_, d) :: es => d.PlainEnums ∧ PlainEntries es

end

theorem plainItems_iff {items : List Datum} : PlainItems items ↔ ∀ d ∈ items, d.PlainEnums := by
  induction items with
  | nil => simp [PlainItems]
  | cons d ds ih => simp [PlainItems, ih]

theorem plainEntries_iff {entries : List (String × Datum)} :
    PlainEntries entries ↔ ∀ e ∈ entries, e.2.PlainEnums := by
  induction entries with
  | nil => simp [PlainEntries]
  | cons e es ih => simp [PlainEntries, ih]

/-! ### distinct names -/

theorem distinctItems_iff {items : List Datum} : DistinctItems items ↔ ∀ d ∈ items, d.Distinct := by
  induction items with
  | nil => simp [DistinctItems]
  | cons d ds ih => simp [DistinctItems, ih]

theorem distinctEntries_iff {entries : List (String × Datum)} :
    DistinctEntries entries ↔ ∀ e ∈ entries, e.2.Distinct := by
  induction entries with
  | nil => simp [DistinctEntries]
  | cons e es ih => simp [DistinctEntries, ih]

theorem distinct_record {entries : List (String × Datum)} : (record entries).Distinct ↔
    (entries.map Prod.fst).Nodup ∧ ∀ e ∈ entries, e.2.Distinct := by
  rw [← distinctEntries_iff]
  rfl

/-- a record that is written entry by entry has distinct names. -/
theorem distinct_ofEntries {entries : List (String × Datum)} (h : ∀ e ∈ entries, e.2.Distinct) :
    (ofEntries entries).Distinct := by
  have hfold : ∀ es : List (String × Datum), (record es).Distinct →
      (record (entries.foldl (fun t e => Entries.put e.1 e.2 t) es)).Distinct := by
    induction entries with
    | nil =>
      intro es hes
      exact hes
    | cons e entries ih =>
      intro es hes
      rw [List.foldl_cons]
      apply ih (fun x hx => h x (List.mem_cons_of_mem e hx))
      rw [distinct_record] at hes ⊢
      refine ⟨Entries.nodup_put e.2 hes.1, ?_⟩
      intro x hx
      rcases Entries.mem_put hx with rfl | hx
      · exact h _ List.mem_cons_self
      · exact hes.2 x hx
  exact hfold [] ⟨List.nodup_nil, trivial⟩

end Batchwise.Datum
