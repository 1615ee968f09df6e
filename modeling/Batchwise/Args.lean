import Batchwise.Datum.Canonical

/-!
# Argument sets

The arguments of one field occurrence: data under distinct names, kept in ascending order of the
names.  The order of names is the order of their code points, which is also the order of their
UTF-8 bytes.

* `Args.insertAll`   one argument after the other, by `Args.insert`;
* `Args.ofList`      all at once: a stable sort, then the last value of each name;
* `Args.ofTable`     from a table in order of first insertion;
* `Args.fingerprint`   the canonical text by which calls are grouped.
-/

namespace Batchwise

/-- data under strictly ascending names. -/
structure Args where
  entries : List (String × Datum)
  ascending : (entries.map Prod.fst).Pairwise (· < ·)

namespace Args

def empty : Args := ⟨[], List.Pairwise.nil⟩

instance : EmptyCollection Args := ⟨empty⟩

instance : Inhabited Args := ⟨empty⟩

/-! ### writing one argument -/

def insertEntry (name : String) (d : Datum) : List (String × Datum) → List (String × Datum)
  | [] => [(name, d)]
  | e :: es =>
    if name < e.1 then (name, d) :: e :: es
    else if name = e.1 then (name, d) :: es
    else e :: insertEntry name d es

theorem mem_keys_insertEntry {n name : String} {d : Datum} {es : List (String × Datum)}
    (h : n ∈ (insertEntry name d es).map Prod.fst) : n = name ∨ n ∈ es.map Prod.fst := by
  induction es with
  | nil => simpa [insertEntry] using h
  | cons e es ih =>
    rw [insertEntry] at h
    split at h
    · simpa using h
    · split at h
      · rcases List.mem_cons.mp h with h | h
        · exact Or.inl h
        · exact Or.inr (List.mem_cons_of_mem _ h)
      · rcases List.mem_cons.mp h with h | h
        · exact Or.inr (by simp [h])
        · rcases ih h with h | h
          · exact Or.inl h
          · exact Or.inr (List.mem_cons_of_mem _ h)

theorem ascending_insertEntry (name : String) (d : Datum) {es : List (String × Datum)}
    (h : (es.map Prod.fst).Pairwise (· < ·)) :
    ((insertEntry name d es).map Prod.fst).Pairwise (· < ·) := by
  induction es with
  | nil => simp [insertEntry]
  | cons e es ih =>
    rw [List.map_cons, List.pairwise_cons] at h
    rw [insertEntry]
    split
    case isTrue hlt =>
      rw [List.map_cons, List.map_cons, List.pairwise_cons, List.pairwise_cons]
      refine ⟨fun n hn => ?_, h.1, h.2⟩
      rcases List.mem_cons.mp hn with hn | hn
      · exact hn ▸ hlt
      · exact String.lt_trans hlt (h.1 n hn)
    case isFalse hlt =>
      split
      case isTrue heq =>
        rw [List.map_cons, List.pairwise_cons]
        exact ⟨fun n hn => heq ▸ h.1 n hn, h.2⟩
      case isFalse hne =>
        have hgt : e.1 < name := by
          rcases String.le_total e.1 name with hle | hle
          · exact String.not_le.mp (fun hle' => hne (String.le_antisymm hle' hle))
          · exact absurd (String.not_le.mp (fun hle' => hne (String.le_antisymm hle hle'))) hlt
        rw [List.map_cons, List.pairwise_cons]
        refine ⟨fun n hn => ?_, ih h.2⟩
        rcases mem_keys_insertEntry hn with hn | hn
        · exact hn ▸ hgt
        · exact h.1 n hn

/-- write `d` under `name`, in place of the value that was there. -/
def insert (args : Args) (name : String) (d : Datum) : Args where
  entries := insertEntry name d args.entries
  ascending := ascending_insertEntry name d args.ascending

def insertAll (es : List (String × Datum)) : Args :=
  es.foldl (fun args e => args.insert e.1 e.2) empty

/-! ### all at once -/

/-- of neighbours with one name only the last stays. -/
def keepLast : List (String × Datum) → List (String × Datum)
  | [] => []
  | [e] => [e]
  | e :: f :: es => if e.1 = f.1 then keepLast (f :: es) else e :: keepLast (f :: es)

def nameLe (a b : String × Datum) : Bool := decide (a.1 ≤ b.1)

/-- the entries in ascending order of names, entries of one name in the order they came in. -/
def sortByName (es : List (String × Datum)) : List (String × Datum) := es.mergeSort nameLe

theorem nameLe_trans (a b c : String × Datum) (hab : nameLe a b = true) (hbc : nameLe b c = true) :
    nameLe a c = true :=
  decide_eq_true (String.le_trans (of_decide_eq_true hab) (of_decide_eq_true hbc))

theorem nameLe_total (a b : String × Datum) : (nameLe a b || nameLe b a) = true := by
  rcases String.le_total a.1 b.1 with h | h <;> simp [nameLe, h]

theorem mem_of_mem_keepLast {e : String × Datum} {es : List (String × Datum)}
    (h : e ∈ keepLast es) : e ∈ es := by
  fun_induction keepLast es with
  | case1 => exact h
  | case2 => exact h
  | case3 f g es heq ih => exact List.mem_cons_of_mem _ (ih h)
  | case4 f g es hne ih =>
    rcases List.mem_cons.mp h with h | h
    · simp [h]
    · exact List.mem_cons_of_mem _ (ih h)

theorem ascending_keepLast {es : List (String × Datum)} (h : es.Pairwise (fun a b => a.1 ≤ b.1)) :
    ((keepLast es).map Prod.fst).Pairwise (· < ·) := by
  fun_induction keepLast es with
  | case1 => exact List.Pairwise.nil
  | case2 e => simp
  | case3 e f es heq ih => exact ih (List.pairwise_cons.mp h).2
  | case4 e f es hne ih =>
    have hf := List.pairwise_cons.mp h
    rw [List.map_cons, List.pairwise_cons]
    refine ⟨fun n hn => ?_, ih hf.2⟩
    obtain ⟨g, hg, rfl⟩ := List.mem_map.mp hn
    have hef : e.1 < f.1 :=
      String.not_le.mp (fun hle => hne (String.le_antisymm (hf.1 f List.mem_cons_self) hle))
    rcases List.mem_cons.mp (mem_of_mem_keepLast hg) with hg | hg
    · exact hg ▸ hef
    · have hfg : f.1 ≤ g.1 := (List.pairwise_cons.mp hf.2).1 g hg
      exact String.not_le.mp (fun hle => absurd (String.le_trans hfg hle) (String.not_le.mpr hef))

theorem pairwise_sortByName (es : List (String × Datum)) :
    (sortByName es).Pairwise (fun a b => a.1 ≤ b.1) := by
  exact (List.pairwise_mergeSort nameLe_trans nameLe_total es).imp
    (fun hab => of_decide_eq_true hab)

/-- the last value of each name. -/
def ofList (es : List (String × Datum)) : Args where
  entries := keepLast (sortByName es)
  ascending := ascending_keepLast (pairwise_sortByName es)

def ofTable (t : Table String Datum) : Args := ofList t.entries

/-! ### reading -/

def get? (args : Args) (name : String) : Option Datum := Entries.find? name args.entries

def getText? (args : Args) (name : String) : Option String :=
  match args.get? name with
  | some (.text s) => some s
  | _ => none

def size (args : Args) : Nat := args.entries.length

def isEmpty (args : Args) : Bool := args.entries.isEmpty

/-- equality name by name, by `Datum.same`. -/
def same (a b : Args) : Bool := (Datum.record a.entries).same (Datum.record b.entries)

def fingerprint (args : Args) : String := String.ofList (Datum.record args.entries).canonical

end Args
end Batchwise
