/-!
# Finite binary64 numbers

A finite double is a sign and the rank of its magnitude among all magnitudes, zero first.  The
rank is the bit pattern without the sign bit, so neighbours in rank are neighbours in value and
every rank below `2047 * 2^52` is a finite number.

* `Double.significand`, `Double.exponent`   the magnitude is `significand * 2 ^ exponent`;
* `Double.same`        numeric equality: as data, except that the two zeros are equal;
* `Double.ofDecimal`   the double nearest to `digits * 10 ^ exponent`, an exact tie going to the
                       even neighbour; no double where the magnitude is beyond the largest one;
* `Double.read?`       what the text of a number stands for.
-/

namespace Batchwise

/-- the number of magnitudes from one power of two up to the next: `2 ^ 52`. -/
def Double.binade : Nat := Nat.pow 2 52

structure Double where
  negative : Bool
  rank : Nat
  rank_lt : rank < 2047 * Double.binade
deriving DecidableEq

namespace Double

def zero : Double := ⟨false, 0, by decide⟩

/-- the integer `m` of the magnitude `m * 2 ^ q`. -/
def significand (x : Double) : Nat :=
  if x.rank < binade then x.rank else binade + x.rank % binade

/-- the exponent `q` of the magnitude `m * 2 ^ q`. -/
def exponent (x : Double) : Int :=
  if x.rank < binade then -1074 else (x.rank / binade : Nat) - 1075

def isZero (x : Double) : Bool := decide (x.rank = 0)

/-- numeric equality: the two zeros are equal. -/
def same (x y : Double) : Bool := decide (x = y) || (x.isZero && y.isZero)

/-! ### rounding a fraction -/

/-- the integer nearest to `num / den`, a half going to the even neighbour. -/
def roundEven (num den : Nat) : Nat :=
  let q := num / den
  let r := num % den
  if 2 * r < den then q
  else if den < 2 * r then q + 1
  else if q % 2 = 0 then q else q + 1

def log2Floor (num den : Nat) : Int :=
  let k : Int := (num.log2 : Int) - den.log2
  if num * Nat.pow 2 (-k).toNat < den * Nat.pow 2 k.toNat then k - 1 else k

/-- the rank of the magnitude nearest to `num / den`. -/
def nearestRank (num den : Nat) : Nat :=
  if num = 0 then 0
  else
    let q := max (-1074) (log2Floor num den - 52)
    (q + 1074).toNat * binade +
      roundEven (num * Nat.pow 2 (-q).toNat) (den * Nat.pow 2 q.toNat)

inductive Reading
  | finite (x : Double)
  /-- too large, infinite, or not a number. -/
  | notFinite
deriving DecidableEq

def ofDecimal (negative : Bool) (digits : Nat) (exponent : Int) : Reading :=
  let rank := nearestRank (digits * Nat.pow 10 exponent.toNat) (Nat.pow 10 (-exponent).toNat)
  if h : rank < 2047 * binade then .finite ⟨negative, rank, h⟩ else .notFinite

/-! ### reading -/

def digitsValue (cs : List Char) : Nat :=
  cs.foldl (fun n c => n * 10 + (c.toNat - 48)) 0

def readSign : List Char → Bool × List Char
  | '-' :: cs => (true, cs)
  | '+' :: cs => (false, cs)
  | cs => (false, cs)

/-- the power of ten at the end of a number: nothing, or `e`, an optional sign and digits. -/
def readPower? : List Char → Option Int
  | [] => some 0
  | c :: cs =>
    if c = 'e' ∨ c = 'E' then
      let (negative, ds) := readSign cs
      if ds = [] ∨ !ds.all Char.isDigit then none
      else some (if negative then -(digitsValue ds : Int) else digitsValue ds)
    else none

def readFraction : List Char → List Char × List Char
  | '.' :: cs => (cs.takeWhile Char.isDigit, cs.dropWhile Char.isDigit)
  | cs => ([], cs)

/-- the double nearest to the digits `ds` times a power of ten; beyond some powers every magnitude
is zero or too large. -/
def ofDigits (negative : Bool) (ds : List Char) (exponent : Int) : Reading :=
  let n := digitsValue ds
  if n = 0 ∨ exponent < -(400 + ds.length : Int) then .finite { zero with negative := negative }
  else if 400 < exponent then .notFinite
  else ofDecimal negative n exponent

def notFiniteWords : List (List Char) :=
  ["inf".toList, "infinity".toList, "nan".toList]

/-- what a text stands for: behind an optional sign, digits with an optional point among them and
an optional power of ten, or a word for an infinite number or none. -/
def read? (text : List Char) : Option Reading :=
  let (negative, cs) := readSign text
  let whole := cs.takeWhile Char.isDigit
  let (fraction, rest) := readFraction (cs.dropWhile Char.isDigit)
  if notFiniteWords.contains (cs.map Char.toLower) then some .notFinite
  else if whole ++ fraction = [] then none
  else (readPower? rest).map fun power =>
    ofDigits negative (whole ++ fraction) (power - fraction.length)

end Double
end Batchwise
