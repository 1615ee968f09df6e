import Batchwise.Double
import Batchwise.Decimal.Shortest

/-!
# Numbers and their text

A number is an integer or a double, and the two never count as equal.  An integer is written in
plain decimal.  A double is written with the fewest digits that read back, positionally for
decimal exponents from -5 to 15, where a whole number keeps a `.0`, and scientifically otherwise.
-/

namespace Batchwise

inductive Number
  | int (n : Int)
  | float (x : Double)
deriving DecidableEq

/-! ### layout of a decimal -/

/-- where positional notation ends. -/
structure DecimalLayout where
  leastPositional : Int
  greatestPositional : Int

namespace DecimalLayout

/-- the digits `ds`, the first of which stands for `10 ^ e`, with a point among or around them. -/
def positional (ds : List Char) (e : Int) : List Char :=
  if e < 0 then '0' :: '.' :: (List.replicate ((-e).toNat - 1) '0' ++ ds)
  else
    let whole := e.toNat + 1
    if ds.length ≤ whole then ds ++ List.replicate (whole - ds.length) '0' ++ ['.', '0']
    else ds.take whole ++ '.' :: ds.drop whole

/-- one digit, the others behind a point, and the signed exponent. -/
def scientific (ds : List Char) (e : Int) : List Char :=
  let fraction := if ds.length ≤ 1 then [] else '.' :: ds.drop 1
  let sign := if e < 0 then '-' else '+'
  ds.take 1 ++ fraction ++ 'e' :: sign :: Nat.toDigits 10 e.natAbs

def write (layout : DecimalLayout) (ds : List Char) (e : Int) : List Char :=
  if layout.leastPositional ≤ e ∧ e ≤ layout.greatestPositional then positional ds e
  else scientific ds e

end DecimalLayout

/-! ### text -/

def dropTrailingZeros (ds : List Char) : List Char :=
  (ds.reverse.dropWhile (fun c => c == '0')).reverse

namespace Double

/-- doubles are positional from `1e-5` up to, but not including, `1e16`. -/
def layout : DecimalLayout := ⟨-5, 15⟩

/-- whether the next smaller magnitude is only half as far away as the next greater one. -/
def isNarrow (x : Double) : Bool := decide (2 * binade ≤ x.rank) && decide (x.rank % binade = 0)

def magnitudeText (x : Double) : List Char :=
  if x.isZero then ['0', '.', '0']
  else
    let (c, k) := Decimal.shortest x.significand x.exponent x.isNarrow
    let ds := Nat.toDigits 10 c
    layout.write (dropTrailingZeros ds) (k + ds.length - 1)

def text (x : Double) : List Char :=
  if x.negative then '-' :: x.magnitudeText else x.magnitudeText

end Double

namespace Number

/-- numeric equality within a kind; an integer never equals a double. -/
def same : Number → Number → Bool
  | int m, int n => decide (m = n)
  | float x, float y => x.same y
  | _, _ => false

def text : Number → List Char
  | int n => if n < 0 then '-' :: Nat.toDigits 10 n.natAbs else Nat.toDigits 10 n.natAbs
  | float x => x.text

end Number
end Batchwise
