/-!
# Shortest decimals

The shortest decimal that reads back as a given magnitude `m * 2 ^ q`.

A magnitude owns the interval of reals that round to it; the ends belong to it iff `m` is even.
The multiples of `10 ^ k` form a grid, finer as `k` falls.  The shortest decimal is a point of
the coarsest grid that meets the interval: the nearer one to the magnitude of the two grid points
around it, and of two equally near points the one with an even multiple.

All comparisons are between natural numbers, in units of a quarter of `2 ^ q`.
-/

namespace Batchwise.Decimal

/-- the magnitudes that round to `mid / 4 * 2 ^ q`: from `low` to `high` quarters of `2 ^ q`. -/
structure Interval where
  low : Nat
  mid : Nat
  high : Nat
  closed : Bool
  exponent : Int

/-- the interval of `m * 2 ^ q`; `narrow` where the neighbour below is only half as far away. -/
def Interval.around (m : Nat) (q : Int) (narrow : Bool) : Interval where
  low := if narrow then 4 * m - 1 else 4 * m - 2
  mid := 4 * m
  high := 4 * m + 2
  closed := m % 2 == 0
  exponent := q - 2

/-- the interval and the grid of the multiples of `10 ^ k`, in one common unit. -/
structure Scaled where
  low : Nat
  mid : Nat
  high : Nat
  step : Nat
  closed : Bool

def Interval.scale (i : Interval) (k : Int) : Scaled :=
  let unit := Nat.pow 2 i.exponent.toNat * Nat.pow 10 (-k).toNat
  { low := i.low * unit
    mid := i.mid * unit
    high := i.high * unit
    step := Nat.pow 10 k.toNat * Nat.pow 2 (-i.exponent).toNat
    closed := i.closed }

def Scaled.holds (s : Scaled) (c : Nat) : Bool :=
  let x := c * s.step
  if s.closed then decide (s.low ≤ x) && decide (x ≤ s.high)
  else decide (s.low < x) && decide (x < s.high)

/-- of the grid points around the magnitude the nearest one that is in the interval. -/
def Scaled.nearest? (s : Scaled) : Option Nat :=
  let c := s.mid / s.step
  let below := s.mid - c * s.step
  let above := (c + 1) * s.step - s.mid
  match s.holds c, s.holds (c + 1) with
  | true, true =>
    if below < above then some c
    else if above < below then some (c + 1)
    else if c % 2 = 0 then some c else some (c + 1)
  | true, false => some c
  | false, true => some (c + 1)
  | false, false => none

/-- the power of ten of the finest grid: every interval of a binary64 number meets it. -/
def finest : Int := -324

/-- the first grid with a point in the interval, from `10 ^ (finest + n)` downwards: the multiple
and the power of ten. -/
def search (i : Interval) : Nat → Nat × Int
  | 0 => (((i.scale finest).nearest?).getD 0, finest)
  | n + 1 =>
    match (i.scale (finest + (n + 1 : Nat))).nearest? with
    | some c => (c, finest + (n + 1 : Nat))
    | none => search i n

/-- the number of grids to try: above `10 ^ 309` there is no binary64 number. -/
def grids : Nat := 633

/-- the shortest decimal `(c, k)`, standing for `c * 10 ^ k`, of the magnitude `m * 2 ^ q`. -/
def shortest (m : Nat) (q : Int) (narrow : Bool) : Nat × Int :=
  search (Interval.around m q narrow) grids

end Batchwise.Decimal
