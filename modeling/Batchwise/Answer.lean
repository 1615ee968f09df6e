import Batchwise.Datum

/-!
# Answers

What a resolver gives for one source: nothing to show, a constant value, an object whose own
fields are resolved next, or a list of answers.
-/

namespace Batchwise

/-- the value of a field, with objects named by their source. -/
inductive Answer (S : Type)
  | null
  | scalar (value : Datum)
  | object (source : S)
  | list (items : List (Answer S))

namespace Answer

variable {S : Type}

def text (s : String) : Answer S := scalar (.text s)

def objects (sources : List S) : Answer S := list (sources.map object)

variable [DecidableEq S]

mutual

/-- equality of answers: constant values by `Datum.same`, objects by their source. -/
def same : Answer S → Answer S → Bool
  | null, null => true
  | scalar a, scalar b => a.same b
  | object a, object b => decide (a = b)
  | list as, list bs => sameItems as bs
  | _, _ => false

def sameItems : List (Answer S) → List (Answer S) → Bool
  | [], [] => true
  | a :: as, b :: bs => a.same b && sameItems as bs
  | _, _ => false

end

end Answer
end Batchwise
