import Batchwise.Number
import Mathlib.Algebra.Order.Field.Rat
import Mathlib.Algebra.Order.Field.Power
import Mathlib.Order.Monotone.Basic
import Mathlib.Tactic.FieldSimp
import Mathlib.Tactic.Linarith
import Mathlib.Tactic.Ring
import Mathlib.Tactic.SplitIfs

/-!
# The intervals of magnitudes

The magnitude of a rank owns the numbers from `lower` to `upper`, with both ends where the rank is
even.  The intervals of neighbours meet at one end, which only one of them owns.

* `Double.lower_succ`       one interval begins where the one below ends;
* `Double.eq_of_owns`       no number is owned twice;
* `Decimal.search_spec`     the search stops at a point of the interval;
* `Double.owns_shortest`    so the shortest decimal of a magnitude is owned by it.
-/

namespace Batchwise

namespace Double

theorem binade_eq : binade = 4503599627370496 := by decide

def significandAt (r : Nat) : Nat := if r < binade then r else binade + r % binade

def exponentAt (r : Nat) : Int := if r < binade then -1074 else (r / binade : Nat) - 1075

def lowAt (r : Nat) : Nat :=
  if 2 * binade ≤ r ∧ r % binade = 0 then 4 * significandAt r - 1 else 4 * significandAt r - 2

/-- the lower end of the interval of a rank -/
def lower (r : Nat) : ℚ := lowAt r * 2 ^ (exponentAt r - 2)

/-- the upper end -/
def upper (r : Nat) : ℚ := (4 * significandAt r + 2 : Nat) * 2 ^ (exponentAt r - 2)

/-- the ends belong to the intervals of even ranks -/
def Owns (r : Nat) (v : ℚ) : Prop :=
  if r % 2 = 0 then lower r ≤ v ∧ v ≤ upper r else lower r < v ∧ v < upper r

/-! ### neighbours -/

theorem significandAt_mod (r : Nat) : significandAt r % 2 = r % 2 := by
  unfold significandAt
  rw [binade_eq]
  split <;> omega

theorem significandAt_pos {r : Nat} (h : r ≠ 0) : 0 < significandAt r := by
  unfold significandAt
  rw [binade_eq]
  split <;> omega

theorem lowAt_succ (r : Nat) :
    (lowAt (r + 1) = 4 * significandAt r + 2 ∧ exponentAt (r + 1) = exponentAt r) ∨
      (2 * lowAt (r + 1) = 4 * significandAt r + 2 ∧ exponentAt (r + 1) = exponentAt r + 1) := by
  unfold lowAt exponentAt significandAt
  rw [binade_eq]
  split_ifs <;> omega

theorem lower_succ (r : Nat) : lower (r + 1) = upper r := by
  unfold lower upper
  rcases lowAt_succ r with ⟨h1, h2⟩ | ⟨h1, h2⟩
  · rw [h1, h2]
  · rw [← h1, h2]
    have hexp : exponentAt r + 1 - 2 = 1 + (exponentAt r - 2) := by omega
    rw [hexp, zpow_add₀ (by norm_num), zpow_one]
    push_cast
    ring

theorem lower_lt_upper (r : Nat) : lower r < upper r := by
  unfold lower upper
  have hpow : (0 : ℚ) < 2 ^ (exponentAt r - 2) := zpow_pos (by norm_num) _
  apply mul_lt_mul_of_pos_right _ hpow
  have hlt : lowAt r < 4 * significandAt r + 2 := by
    unfold lowAt
    split <;> omega
  exact_mod_cast hlt

theorem strictMono_upper : StrictMono upper := by
  apply strictMono_nat_of_lt_succ
  intro r
  have h := lower_lt_upper (r + 1)
  rw [lower_succ] at h
  exact h

theorem lower_pos {r : Nat} (h : r ≠ 0) : 0 < lower r := by
  unfold lower
  have hpow : (0 : ℚ) < 2 ^ (exponentAt r - 2) := zpow_pos (by norm_num) _
  apply mul_pos _ hpow
  have hsig := significandAt_pos h
  have hlow : 0 < lowAt r := by
    unfold lowAt
    split <;> omega
  exact_mod_cast hlow

theorem Owns.bounds {r : Nat} {v : ℚ} (h : Owns r v) : lower r ≤ v ∧ v ≤ upper r := by
  unfold Owns at h
  split at h
  · exact h
  · exact ⟨h.1.le, h.2.le⟩

theorem Owns.even_of_lower {r : Nat} {v : ℚ} (h : Owns r v) (hv : v = lower r) : r % 2 = 0 := by
  unfold Owns at h
  split at h
  · assumption
  · exact absurd hv.symm h.1.ne

theorem Owns.even_of_upper {r : Nat} {v : ℚ} (h : Owns r v) (hv : v = upper r) : r % 2 = 0 := by
  unfold Owns at h
  split at h
  · assumption
  · exact absurd hv h.2.ne

theorem not_owns_of_lt {r r' : Nat} {v : ℚ} (hlt : r < r') (h : Owns r v) : ¬ Owns r' v := by
  intro h'
  obtain ⟨k, rfl⟩ : ∃ k, r' = k + 1 := ⟨r' - 1, by omega⟩
  obtain ⟨_, hv⟩ := h.bounds
  obtain ⟨hv', _⟩ := h'.bounds
  rw [lower_succ] at hv'
  have hle : upper r ≤ upper k := strictMono_upper.monotone (by omega)
  have heq : upper r = upper k := by linarith
  have hr : r = k := strictMono_upper.injective heq
  subst hr
  -- the end that the two intervals share would belong to both
  have h1 := h.even_of_upper (by linarith)
  have h2 := h'.even_of_lower (by rw [lower_succ]; linarith)
  omega

/-- **No number is owned twice.** -/
theorem eq_of_owns {r r' : Nat} {v : ℚ} (h : Owns r v) (h' : Owns r' v) : r = r' := by
  rcases Nat.lt_trichotomy r r' with hlt | heq | hlt
  · exact absurd h' (not_owns_of_lt hlt h)
  · exact heq
  · exact absurd h (not_owns_of_lt hlt h')

end Double

/-! ### the search -/

namespace Decimal

theorem holds_of_nearest? {s : Scaled} {c : Nat} (h : s.nearest? = some c) :
    s.holds c = true := by
  unfold Scaled.nearest? at h
  dsimp only at h
  split at h
  · rename_i h1 h2
    split at h
    · cases h
      exact h1
    · split at h
      · cases h
        exact h2
      · split at h
        · cases h
          exact h1
        · cases h
          exact h2
  · rename_i h1 _
    cases h
    exact h1
  · rename_i _ h2
    cases h
    exact h2
  · cases h

theorem nearest?_isSome {s : Scaled} (hstep : 0 < s.step) (hlow : s.low + s.step ≤ s.mid)
    (hhigh : s.mid < s.high) : s.nearest?.isSome = true := by
  have hbelow : s.mid / s.step * s.step ≤ s.mid := Nat.div_mul_le_self _ _
  have habove : s.mid < s.mid / s.step * s.step + s.step := by
    have h := Nat.lt_div_mul_add hstep (a := s.mid)
    omega
  have hholds : s.holds (s.mid / s.step) = true := by
    unfold Scaled.holds
    dsimp only
    split
    · rw [Bool.and_eq_true, decide_eq_true_eq, decide_eq_true_eq]
      omega
    · rw [Bool.and_eq_true, decide_eq_true_eq, decide_eq_true_eq]
      omega
  unfold Scaled.nearest?
  dsimp only
  rw [hholds]
  split
  · split
    · rfl
    · split
      · rfl
      · split <;> rfl
  · rfl
  · rename_i h _
    cases h
  · rename_i h _
    cases h

/-- the search stops at a point of its grid that is in the interval. -/
theorem search_spec {i : Interval} (h : (i.scale finest).nearest?.isSome = true) (n : Nat) :
    (i.scale (search i n).2).nearest? = some (search i n).1 := by
  induction n with
  | zero =>
    obtain ⟨c, hc⟩ := Option.isSome_iff_exists.mp h
    show (i.scale finest).nearest? = some ((i.scale finest).nearest?.getD 0)
    rw [hc]
    rfl
  | succ n ih =>
    rw [search]
    split
    · rename_i c hc
      exact hc
    · exact ih

/-- the grid of `10 ^ k` meets an interval that reaches `d` units below its middle. -/
theorem scale_meets {i : Interval} {k : Int} (d : Nat) (hk : k.toNat = 0)
    (hstep : 2 ^ (-i.exponent).toNat ≤ d * 10 ^ (-k).toNat) (hlow : i.low + d ≤ i.mid)
    (hhigh : i.mid < i.high) : (i.scale k).nearest?.isSome = true := by
  have hunit : 0 < 2 ^ i.exponent.toNat * 10 ^ (-k).toNat := by positivity
  have hgrid : (i.scale k).step = 2 ^ (-i.exponent).toNat := by
    show 10 ^ k.toNat * 2 ^ (-i.exponent).toNat = _
    rw [hk, Nat.pow_zero, Nat.one_mul]
  apply nearest?_isSome
  · rw [hgrid]
    positivity
  · rw [hgrid]
    show i.low * (2 ^ i.exponent.toNat * 10 ^ (-k).toNat) + 2 ^ (-i.exponent).toNat
      ≤ i.mid * (2 ^ i.exponent.toNat * 10 ^ (-k).toNat)
    have hone : 10 ^ (-k).toNat ≤ 2 ^ i.exponent.toNat * 10 ^ (-k).toNat :=
      Nat.le_mul_of_pos_left _ (by positivity)
    have hreach := Nat.mul_le_mul_right (2 ^ i.exponent.toNat * 10 ^ (-k).toNat) hlow
    rw [Nat.add_mul] at hreach
    have hd := Nat.mul_le_mul_left d hone
    omega
  · exact Nat.mul_lt_mul_of_pos_right hhigh hunit

theorem two_pow_le_finest : 2 ^ 1075 ≤ 10 ^ (-finest).toNat := by
  have hfinest : (-finest).toNat = 324 := rfl
  have hfive : 2 ^ 65 ≤ 5 ^ 28 := by norm_num
  have hsum : 2 ^ 1075 = (2 ^ 324 * (2 ^ 65) ^ 11) * 2 ^ 36 := by
    rw [← pow_mul, ← pow_add, ← pow_add]
  have hten : 10 ^ 324 = (2 ^ 324 * (5 ^ 28) ^ 11) * 5 ^ 16 := by
    simp only [← pow_mul, mul_assoc, ← pow_add, ← mul_pow, Nat.reduceMul, Nat.reduceAdd]
  rw [hfinest, hsum, hten]
  apply Nat.mul_le_mul
  · apply Nat.mul_le_mul_left
    exact Nat.pow_le_pow_left hfive 11
  · norm_num

theorem zpow_eq_div (b : ℚ) (e : Int) : b ^ e = b ^ e.toNat / b ^ (-e).toNat := by
  rcases Int.le_total 0 e with he | he
  · have h1 : (-e).toNat = 0 := by omega
    have h2 : ((e.toNat : Nat) : Int) = e := by omega
    rw [h1, pow_zero, div_one, ← zpow_natCast, h2]
  · have h1 : e.toNat = 0 := by omega
    have h2 : (((-e).toNat : Nat) : Int) = -e := by omega
    rw [h1, pow_zero, ← zpow_natCast, h2, zpow_neg, one_div, inv_inv]

/-- measured in the common unit two numbers compare as they are. -/
theorem scale_le_iff (e k : Int) (a c : Nat) :
    a * (Nat.pow 2 e.toNat * Nat.pow 10 (-k).toNat)
        ≤ c * (Nat.pow 10 k.toNat * Nat.pow 2 (-e).toNat) ↔
      (a : ℚ) * 2 ^ e ≤ c * 10 ^ k := by
  rw [zpow_eq_div 2 e, zpow_eq_div 10 k, mul_div_assoc', mul_div_assoc',
    div_le_div_iff₀ (by positivity) (by positivity)]
  show a * (2 ^ e.toNat * 10 ^ (-k).toNat) ≤ c * (10 ^ k.toNat * 2 ^ (-e).toNat) ↔ _
  rw [← mul_assoc, ← mul_assoc]
  exact_mod_cast Iff.rfl

theorem le_scale_iff (e k : Int) (a c : Nat) :
    c * (Nat.pow 10 k.toNat * Nat.pow 2 (-e).toNat)
        ≤ a * (Nat.pow 2 e.toNat * Nat.pow 10 (-k).toNat) ↔
      (c : ℚ) * 10 ^ k ≤ a * 2 ^ e := by
  rw [zpow_eq_div 2 e, zpow_eq_div 10 k, mul_div_assoc', mul_div_assoc',
    div_le_div_iff₀ (by positivity) (by positivity)]
  show c * (10 ^ k.toNat * 2 ^ (-e).toNat) ≤ a * (2 ^ e.toNat * 10 ^ (-k).toNat) ↔ _
  rw [← mul_assoc, ← mul_assoc]
  exact_mod_cast Iff.rfl

theorem holds_scale_iff (i : Interval) (k : Int) (c : Nat) :
    (i.scale k).holds c = true ↔
      if i.closed then (i.low : ℚ) * 2 ^ i.exponent ≤ c * 10 ^ k ∧
          (c : ℚ) * 10 ^ k ≤ i.high * 2 ^ i.exponent
      else (i.low : ℚ) * 2 ^ i.exponent < c * 10 ^ k ∧
        (c : ℚ) * 10 ^ k < i.high * 2 ^ i.exponent := by
  unfold Scaled.holds
  have hclosed : (i.scale k).closed = i.closed := rfl
  dsimp only
  rw [hclosed]
  split
  · rw [Bool.and_eq_true, decide_eq_true_eq, decide_eq_true_eq]
    exact and_congr (scale_le_iff _ _ _ _) (le_scale_iff _ _ _ _)
  · rw [Bool.and_eq_true, decide_eq_true_eq, decide_eq_true_eq, ← not_le, ← not_le, ← not_le,
      ← not_le]
    exact and_congr (not_congr (le_scale_iff _ _ _ _)) (not_congr (scale_le_iff _ _ _ _))

end Decimal

/-! ### the shortest decimal -/

namespace Double

theorem low_around (x : Double) :
    (Decimal.Interval.around x.significand x.exponent x.isNarrow).low = lowAt x.rank := by
  show (if x.isNarrow = true then 4 * x.significand - 1 else 4 * x.significand - 2) = _
  unfold isNarrow lowAt
  by_cases hnarrow : 2 * binade ≤ x.rank ∧ x.rank % binade = 0
  · rw [if_pos hnarrow, decide_eq_true hnarrow.1, decide_eq_true hnarrow.2]
    rfl
  · rw [if_neg hnarrow, if_neg (by simpa using hnarrow)]
    rfl

theorem exponent_bounds (x : Double) : -1074 ≤ x.exponent ∧
    (x.isNarrow = true → -1073 ≤ x.exponent) := by
  unfold exponent isNarrow
  rw [binade_eq, Bool.and_eq_true, decide_eq_true_eq, decide_eq_true_eq]
  constructor
  · split <;> omega
  · rintro ⟨hnarrow, _⟩
    split <;> omega

/-- the finest grid meets every interval: `10 ^ -324` is less than half of the least magnitude. -/
theorem finest_meets {x : Double} (h : x.rank ≠ 0) :
    ((Decimal.Interval.around x.significand x.exponent x.isNarrow).scale
      Decimal.finest).nearest?.isSome = true := by
  have hsig : 0 < x.significand := significandAt_pos h
  obtain ⟨hexp, hnarrow⟩ := exponent_bounds x
  by_cases hn : x.isNarrow = true
  · apply Decimal.scale_meets 1 (by decide)
    · show 2 ^ (-(x.exponent - 2)).toNat ≤ 1 * 10 ^ (-Decimal.finest).toNat
      rw [Nat.one_mul]
      apply le_trans _ Decimal.two_pow_le_finest
      apply Nat.pow_le_pow_right (by omega)
      have hfrom := hnarrow hn
      omega
    · show (if x.isNarrow = true then 4 * x.significand - 1 else _) + 1 ≤ 4 * x.significand
      rw [if_pos hn]
      omega
    · show 4 * x.significand < 4 * x.significand + 2
      omega
  · apply Decimal.scale_meets 2 (by decide)
    · show 2 ^ (-(x.exponent - 2)).toNat ≤ 2 * 10 ^ (-Decimal.finest).toNat
      apply le_trans _ (Nat.mul_le_mul_left 2 Decimal.two_pow_le_finest)
      rw [← Nat.pow_succ']
      apply Nat.pow_le_pow_right (by omega)
      omega
    · show (if x.isNarrow = true then _ else 4 * x.significand - 2) + 2 ≤ 4 * x.significand
      rw [if_neg hn]
      omega
    · show 4 * x.significand < 4 * x.significand + 2
      omega

/-- **The shortest decimal of a magnitude is owned by it.** -/
theorem owns_shortest {x : Double} (h : x.rank ≠ 0) :
    Owns x.rank (((Decimal.shortest x.significand x.exponent x.isNarrow).1 : ℚ) *
      10 ^ (Decimal.shortest x.significand x.exponent x.isNarrow).2) := by
  have hspec := Decimal.search_spec (finest_meets h) Decimal.grids
  have hholds := (Decimal.holds_scale_iff _ _ _).mp (Decimal.holds_of_nearest? hspec)
  rw [low_around] at hholds
  have hclosed : (Decimal.Interval.around x.significand x.exponent x.isNarrow).closed
      = decide (x.rank % 2 = 0) := by
    show (x.significand % 2 == 0) = _
    have hmod : x.significand % 2 = x.rank % 2 := significandAt_mod x.rank
    rw [hmod]
    rfl
  rw [hclosed] at hholds
  unfold Owns
  by_cases heven : x.rank % 2 = 0
  · rw [if_pos heven]
    rw [decide_eq_true heven, if_pos rfl] at hholds
    exact hholds
  · rw [if_neg heven]
    rw [decide_eq_false heven, if_neg Bool.false_ne_true] at hholds
    exact hholds

end Double
end Batchwise
