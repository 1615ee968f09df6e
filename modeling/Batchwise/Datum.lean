import Batchwise.Number
import Batchwise.Table

/-!
# Data

The constant values that arguments carry and resolvers return: null, truth values, numbers, text,
names of enumerations, bytes, lists, and records with named entries in order.

* `Datum.same`   equality of data: by kind and value, except that the name of an enumeration
                 equals the text of the same characters and that the order of a record's entries
                 does not matter;
* `Datum.ofEntries`   a record from entries written one after the other;
* `Datum.Distinct`    no record, at any depth, has two entries of one name.
-/

namespace Batchwise

inductive Datum
  | null
  | bool (value : Bool)
  | number (value : Number)
  | text (value : String)
  | enum (name : String)
  | bytes (value : List UInt8)
  | list (items : List Datum)
  | record (entries : List (String × Datum))

namespace Datum

instance : Inhabited Datum := ⟨null⟩

/-- only a finite double is a number; anything else is null. -/
def ofReading : Double.Reading → Datum
  | .finite x => number (.float x)
  | .notFinite => null

/-- a record whose repeated names keep their first position and their last value. -/
def ofEntries (es : List (String × Datum)) : Datum := record (Entries.ofList es)

def nest : Nat → Datum → Datum
  | 0, d => d
  | n + 1, d => nest n (list [d])

/-! ### equality -/

mutual

def same : Datum → Datum → Bool
  | null, null => true
  | bool a, bool b => a == b
  | number a, number b => a.same b
  | text a, text b => a == b
  | text a, enum b => a == b
  | enum a, text b => a == b
  | enum a, enum b => a == b
  | bytes a, bytes b => a == b
  | list as, list bs => sameItems as bs
  | record as, record bs => as.length == bs.length && sameEntries as bs
  | _, _ => false

def sameItems : List Datum → List Datum → Bool
  | [], [] => true
  | a :: as, b :: bs => a.same b && sameItems as bs
  | _, _ => false

def sameEntries : List (String × Datum) → List (String × Datum) → Bool
  | [], _ => true
  | (name, a) :: as, bs =>
    (match Entries.find? name bs with
      | some b => a.same b
      | none => false) && sameEntries as bs

end

/-! ### distinct names -/

mutual

/-- no record, at any depth, has two entries of one name. -/
def Distinct : Datum → Prop
  | list items => DistinctItems items
  | record entries => (entries.map Prod.fst).Nodup ∧ DistinctEntries entries
  | _ => True

def DistinctItems : List Datum → Prop
  | [] => True
  | d :: ds => d.Distinct ∧ DistinctItems ds

def DistinctEntries : List (String × Datum) → Prop
  | [] => True
  | (_, d) :: es => d.Distinct ∧ DistinctEntries es

end

end Datum
end Batchwise
