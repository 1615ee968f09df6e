import Batchwise.Proofs.Decimal.Interval
import Batchwise.Proofs.Decimal.Layout

/-!
# The text of a number determines the number

An integer is read back from its digits.  The text of a double stands for a number that its own
magnitude owns, and no other does; so different doubles have different texts, and the two zeros
differ in the sign.

* `Number.text_injective`   different numbers have different texts;
* `Number.numeric_text`     the characters of a text;
* `Number.text_head`        the first of them.
-/

namespace Batchwise

namespace Double

theorem magnitudeText_zero {x : Double} (h : x.rank = 0) : x.magnitudeText = ['0', '.', '0'] := by
  unfold magnitudeText isZero
  rw [if_pos (decide_eq_true h)]

theorem magnitudeText_pos {x : Double} (h : x.rank ≠ 0) :
    x.magnitudeText =
      let d := Decimal.shortest x.significand x.exponent x.isNarrow
      layout.write (dropTrailingZeros (Nat.toDigits 10 d.1))
        (d.2 + (Nat.toDigits 10 d.1).length - 1) := by
  unfold magnitudeText isZero
  rw [if_neg (by simpa using h)]

theorem shortest_ne_zero {x : Double} (h : x.rank ≠ 0) :
    (Decimal.shortest x.significand x.exponent x.isNarrow).1 ≠ 0 := by
  intro hzero
  have hlow := (owns_shortest h).bounds.1
  rw [hzero, Nat.cast_zero, zero_mul] at hlow
  exact absurd (lower_pos h) (not_lt.mpr hlow)

theorem digits_ne_nil {x : Double} (h : x.rank ≠ 0) :
    dropTrailingZeros
      (Nat.toDigits 10 (Decimal.shortest x.significand x.exponent x.isNarrow).1) ≠ [] := by
  apply dropTrailingZeros_ne_nil
  rw [Nat.ofDigitChars_ten_toDigits]
  exact shortest_ne_zero h

/-- The text of a magnitude stands for a number that the magnitude owns. -/
theorem owns_magnitudeText {x : Double} (h : x.rank ≠ 0) :
    Owns x.rank (decimalValue x.magnitudeText) := by
  rw [magnitudeText_pos h]
  dsimp only
  rw [DecimalLayout.value_write _ (digits_dropTrailingZeros (digits_toDigits _)) _ (digits_ne_nil h),
    value_dropTrailingZeros, Nat.ofDigitChars_ten_toDigits]
  have howns := owns_shortest h
  generalize Decimal.shortest x.significand x.exponent x.isNarrow = d at howns ⊢
  have hexp : d.2 + ((Nat.toDigits 10 d.1).length : Int) - 1 + 1 - (Nat.toDigits 10 d.1).length
      = d.2 := by omega
  rw [hexp]
  exact howns

theorem value_zeroText : decimalValue ['0', '.', '0'] = 0 := by
  have h := decimalValue_point (digits_zeros 1) (digits_zeros 1) isPower_nil
  rw [List.append_nil] at h
  refine h.trans ?_
  rw [List.replicate_append_replicate, Nat.ofDigitChars_replicate_zero]
  simp

theorem rank_of_magnitudeText {x y : Double} (h : x.magnitudeText = y.magnitudeText) :
    x.rank = y.rank := by
  -- the text of zero is owned by no other magnitude: their intervals are positive
  have hzero : ∀ {z : Double}, z.rank ≠ 0 → z.magnitudeText ≠ ['0', '.', '0'] := by
    intro z hz htext
    have howns := owns_magnitudeText hz
    rw [htext, value_zeroText] at howns
    exact absurd (lower_pos hz) (not_lt.mpr howns.bounds.1)
  by_cases hx : x.rank = 0
  · by_cases hy : y.rank = 0
    · rw [hx, hy]
    · rw [magnitudeText_zero hx] at h
      exact absurd h.symm (hzero hy)
  · by_cases hy : y.rank = 0
    · rw [magnitudeText_zero hy] at h
      exact absurd h (hzero hx)
    · have howns := owns_magnitudeText hx
      rw [h] at howns
      exact eq_of_owns howns (owns_magnitudeText hy)

theorem isFloatText_magnitudeText (x : Double) : IsFloatText x.magnitudeText := by
  by_cases h : x.rank = 0
  · rw [magnitudeText_zero h]
    exact ⟨['0'], '.', ['0'], rfl, by simp, digits_zeros 1, Or.inl rfl, (digits_zeros 1).numeric⟩
  · rw [magnitudeText_pos h]
    exact DecimalLayout.isFloatText_write _ (digits_dropTrailingZeros (digits_toDigits _))
      (digits_ne_nil h) _

end Double

/-! ### the sign -/

theorem signed_inj {s t : Bool} {cs ds : List Char}
    (hc : ∃ c rest, cs = c :: rest ∧ c.isDigit = true)
    (hd : ∃ d rest, ds = d :: rest ∧ d.isDigit = true)
    (h : (if s then '-' :: cs else cs) = if t then '-' :: ds else ds) : s = t ∧ cs = ds := by
  obtain ⟨c, cs, rfl, hc⟩ := hc
  obtain ⟨d, ds, rfl, hd⟩ := hd
  cases s <;> cases t <;> simp at h
  · exact ⟨rfl, by simp [h]⟩
  · obtain ⟨rfl, _⟩ := h
    exact absurd hc (by decide)
  · obtain ⟨rfl, _⟩ := h
    exact absurd hd (by decide)
  · exact ⟨rfl, by simp [h]⟩

theorem toDigits_head (n : Nat) : ∃ c rest, Nat.toDigits 10 n = c :: rest ∧ c.isDigit = true := by
  obtain ⟨c, rest, h⟩ := List.exists_cons_of_ne_nil (Nat.toDigits_ne_nil (n := n) (b := 10))
  refine ⟨c, rest, h, digits_toDigits n c ?_⟩
  rw [h]
  exact List.mem_cons_self

namespace Double

theorem text_eq (x : Double) :
    x.text = if x.negative then '-' :: x.magnitudeText else x.magnitudeText := rfl

theorem text_injective {x y : Double} (h : x.text = y.text) : x = y := by
  obtain ⟨hnegative, hmagnitude⟩ := signed_inj (isFloatText_magnitudeText x).head
    (isFloatText_magnitudeText y).head h
  have hrank := rank_of_magnitudeText hmagnitude
  cases x
  cases y
  cases hnegative
  cases hrank
  rfl

end Double

namespace Number

theorem int_text_eq (n : Int) : (int n).text =
    if decide (n < 0) then '-' :: Nat.toDigits 10 n.natAbs else Nat.toDigits 10 n.natAbs := by
  simp [text]

theorem text_cases (n : Number) : ∃ (s : Bool) (cs : List Char),
    n.text = (if s then '-' :: cs else cs) ∧ (Digits cs ∨ IsFloatText cs) ∧
      ∃ c rest, cs = c :: rest ∧ c.isDigit = true := by
  cases n with
  | int n =>
    exact ⟨decide (n < 0), Nat.toDigits 10 n.natAbs, int_text_eq n, Or.inl (digits_toDigits _),
      toDigits_head _⟩
  | float x =>
    exact ⟨x.negative, x.magnitudeText, x.text_eq, Or.inr x.isFloatText_magnitudeText,
      x.isFloatText_magnitudeText.head⟩

theorem numeric_text (n : Number) : ∀ c ∈ n.text, isNumeric c = true := by
  obtain ⟨s, cs, htext, hcs, _⟩ := n.text_cases
  have hnumeric : ∀ c ∈ cs, isNumeric c = true := by
    rcases hcs with hcs | hcs
    · exact hcs.numeric
    · exact hcs.numeric
  intro c hc
  rw [htext] at hc
  cases s with
  | false => exact hnumeric c hc
  | true =>
    rcases List.mem_cons.mp hc with rfl | hc
    · decide
    · exact hnumeric c hc

theorem text_head (n : Number) : ∃ c rest, n.text = c :: rest ∧ (c = '-' ∨ c.isDigit = true) := by
  obtain ⟨s, cs, htext, _, c, rest, hhead, hc⟩ := n.text_cases
  cases s with
  | false => exact ⟨c, rest, htext.trans hhead, Or.inr hc⟩
  | true => exact ⟨'-', cs, htext, Or.inl rfl⟩

theorem int_text_injective {m n : Int} (h : (int m).text = (int n).text) : m = n := by
  rw [int_text_eq, int_text_eq] at h
  obtain ⟨hsign, hdigits⟩ := signed_inj (toDigits_head _) (toDigits_head _) h
  have habs := congrArg (fun ds => Nat.ofDigitChars 10 ds 0) hdigits
  simp only [Nat.ofDigitChars_ten_toDigits] at habs
  have hneg : m < 0 ↔ n < 0 := decide_eq_decide.mp hsign
  omega

theorem int_text_ne_float (n : Int) (x : Double) : (int n).text ≠ (float x).text := by
  intro h
  rw [int_text_eq] at h
  obtain ⟨_, hdigits⟩ := signed_inj (toDigits_head _) x.isFloatText_magnitudeText.head h
  apply x.isFloatText_magnitudeText.not_digits
  rw [← hdigits]
  exact digits_toDigits _

/-- **Different numbers have different texts.** -/
theorem text_injective {m n : Number} (h : m.text = n.text) : m = n := by
  cases m with
  | int m =>
    cases n with
    | int n => rw [int_text_injective h]
    | float y => exact absurd h (int_text_ne_float m y)
  | float x =>
    cases n with
    | int n => exact absurd h.symm (int_text_ne_float n x)
    | float y => rw [Double.text_injective h]

end Number
end Batchwise
