import Batchwise.Number
import Mathlib.Algebra.Order.Field.Rat
import Mathlib.Algebra.Order.Field.Power
import Mathlib.Tactic.FieldSimp
import Mathlib.Tactic.Linarith
import Mathlib.Tactic.Ring

/-!
# What a decimal text stands for

A text is read as the digits around its point times the power of ten behind its `e`.  A layout
writes digits so that they are read back as the number they stand for.

* `decimalValue`                the rational number that a text stands for;
* `DecimalLayout.value_write`   the number that a layout writes;
* `value_dropTrailingZeros`     zeros at the end only move the exponent;
* `DecimalLayout.isFloatText_write`   digits up to a point or an `e` open every text.
-/

namespace Batchwise

/-- the power of ten behind a number. -/
def powerValue : List Char → Int
  | _ :: '-' :: ds => -(Nat.ofDigitChars 10 ds 0 : Int)
  | _ :: _ :: ds => Nat.ofDigitChars 10 ds 0
  | _ => 0

/-- the number that a text stands for. -/
def decimalValue (cs : List Char) : ℚ :=
  let mantissa := cs.takeWhile fun c => c != 'e'
  let whole := mantissa.takeWhile fun c => c != '.'
  let fraction := (mantissa.dropWhile fun c => c != '.').drop 1
  (Nat.ofDigitChars 10 (whole ++ fraction) 0 : ℚ) *
    10 ^ (powerValue (cs.dropWhile fun c => c != 'e') - fraction.length)

def Digits (ds : List Char) : Prop := ∀ c ∈ ds, c.isDigit = true

theorem digits_toDigits (n : Nat) : Digits (Nat.toDigits 10 n) :=
  fun _ hc => Nat.isDigit_of_mem_toDigits (by omega) (by omega) hc

theorem Digits.append {as bs : List Char} (ha : Digits as) (hb : Digits bs) : Digits (as ++ bs) := by
  intro c hc
  rcases List.mem_append.mp hc with hc | hc
  · exact ha c hc
  · exact hb c hc

theorem digits_zeros (n : Nat) : Digits (List.replicate n '0') := by
  intro c hc
  rw [List.eq_of_mem_replicate hc]
  decide

theorem Digits.ne {ds : List Char} (h : Digits ds) {x : Char} (hx : x.isDigit = false) :
    ∀ c ∈ ds, (c != x) = true := by
  intro c hc
  rw [bne_iff_ne]
  intro heq
  have hd := h c hc
  rw [heq, hx] at hd
  cases hd

/-! ### taking a text apart -/

theorem takeWhile_stop {A : Type} {p : A → Bool} {as bs : List A} (ha : ∀ a ∈ as, p a = true)
    (hb : ∀ b ∈ bs.head?, p b = false) :
    (as ++ bs).takeWhile p = as ∧ (as ++ bs).dropWhile p = bs := by
  induction as with
  | nil =>
    cases bs with
    | nil => exact ⟨rfl, rfl⟩
    | cons b bs =>
      have h := hb b rfl
      simp [h]
  | cons a as ih =>
    have h := ha a List.mem_cons_self
    have hrest := ih fun x hx => ha x (List.mem_cons_of_mem a hx)
    simp [h, hrest]

/-- a power of ten is behind the digits, or nothing. -/
def IsPower (power : List Char) : Prop := ∀ c ∈ power.head?, c = 'e'

theorem isPower_nil : IsPower [] := fun c hc => by cases hc

theorem IsPower.stops {power : List Char} (h : IsPower power) :
    ∀ c ∈ power.head?, (c != 'e') = false := by
  intro c hc
  rw [h c hc]
  rfl

theorem decimalValue_point {whole fraction power : List Char} (hw : Digits whole)
    (hf : Digits fraction) (hp : IsPower power) :
    decimalValue (whole ++ '.' :: fraction ++ power) =
      (Nat.ofDigitChars 10 (whole ++ fraction) 0 : ℚ) *
        10 ^ (powerValue power - fraction.length) := by
  have hmantissa : ∀ c ∈ whole ++ '.' :: fraction, (c != 'e') = true := by
    intro c hc
    rcases List.mem_append.mp hc with hc | hc
    · exact hw.ne (by decide) c hc
    · rcases List.mem_cons.mp hc with rfl | hc
      · decide
      · exact hf.ne (by decide) c hc
  obtain ⟨h1, h2⟩ := takeWhile_stop hmantissa hp.stops
  have hpoint : ∀ c ∈ ('.' :: fraction).head?, (c != '.') = false := by
    intro c hc
    cases hc
    rfl
  obtain ⟨h3, h4⟩ := takeWhile_stop (hw.ne (by decide)) hpoint
  unfold decimalValue
  rw [h1, h2]
  dsimp only
  rw [h3, h4, List.drop_one, List.tail_cons]

theorem decimalValue_whole {whole power : List Char} (hw : Digits whole) (hp : IsPower power) :
    decimalValue (whole ++ power) =
      (Nat.ofDigitChars 10 whole 0 : ℚ) * 10 ^ (powerValue power) := by
  obtain ⟨h1, h2⟩ := takeWhile_stop (hw.ne (by decide)) hp.stops
  have hnil : ∀ c ∈ ([] : List Char).head?, (c != '.') = false := by
    intro c hc
    cases hc
  obtain ⟨h3, h4⟩ := takeWhile_stop (hw.ne (by decide)) hnil
  rw [List.append_nil] at h3 h4
  unfold decimalValue
  rw [h1, h2]
  dsimp only
  rw [h3, h4]
  simp

theorem powerValue_nil : powerValue [] = 0 := rfl

/-! ### writing digits -/

theorem ofDigits_zeros (ds : List Char) (n : Nat) :
    Nat.ofDigitChars 10 (ds ++ List.replicate n '0') 0 = Nat.ofDigitChars 10 ds 0 * 10 ^ n := by
  rw [Nat.ofDigitChars_append, Nat.ofDigitChars_replicate_zero, Nat.mul_comm]

theorem zeros_ofDigits (ds : List Char) (n : Nat) :
    Nat.ofDigitChars 10 (List.replicate n '0' ++ ds) 0 = Nat.ofDigitChars 10 ds 0 := by
  rw [Nat.ofDigitChars_append, Nat.ofDigitChars_replicate_zero, Nat.mul_zero]

namespace DecimalLayout

theorem value_positional {ds : List Char} (hds : Digits ds) (e : Int) :
    decimalValue (positional ds e) =
      (Nat.ofDigitChars 10 ds 0 : ℚ) * 10 ^ (e + 1 - ds.length) := by
  unfold positional
  split
  · -- all digits stand behind the point
    rename_i he
    have hf : Digits (List.replicate ((-e).toNat - 1) '0' ++ ds) := (digits_zeros _).append hds
    have h := decimalValue_point (digits_zeros 1) hf isPower_nil
    rw [List.append_nil] at h
    refine h.trans ?_
    rw [← List.append_assoc, List.replicate_append_replicate, zeros_ofDigits, List.length_append,
      List.length_replicate, powerValue_nil]
    congr 2
    omega
  · rename_i he
    dsimp only
    split
    · -- zeros fill up to the point
      rename_i hlen
      have hw : Digits (ds ++ List.replicate (e.toNat + 1 - ds.length) '0') :=
        hds.append (digits_zeros _)
      have h := decimalValue_point hw (digits_zeros 1) isPower_nil
      rw [List.append_nil] at h
      refine h.trans ?_
      rw [List.append_assoc, List.replicate_append_replicate, ofDigits_zeros, List.length_replicate,
        powerValue_nil, Nat.cast_mul, Nat.cast_pow, mul_assoc, ← zpow_natCast]
      congr 1
      rw [Nat.cast_ofNat, ← zpow_add₀ (by norm_num)]
      congr 1
      omega
    · rename_i hlen
      have hw : Digits (ds.take (e.toNat + 1)) := fun c hc => hds c (List.mem_of_mem_take hc)
      have hf : Digits (ds.drop (e.toNat + 1)) := fun c hc => hds c (List.mem_of_mem_drop hc)
      have h := decimalValue_point hw hf isPower_nil
      rw [List.append_nil] at h
      refine h.trans ?_
      rw [List.take_append_drop, List.length_drop, powerValue_nil]
      congr 2
      omega

theorem value_scientific {ds : List Char} (hds : Digits ds) (e : Int) (h : ds ≠ []) :
    decimalValue (scientific ds e) =
      (Nat.ofDigitChars 10 ds 0 : ℚ) * 10 ^ (e + 1 - ds.length) := by
  have hpower : ∀ power, power = 'e' :: (if e < 0 then '-' else '+') :: Nat.toDigits 10 e.natAbs →
      IsPower power ∧ powerValue power = e := by
    rintro power rfl
    refine ⟨fun c hc => by cases hc; rfl, ?_⟩
    by_cases he : e < 0
    · rw [if_pos he]
      show -(Nat.ofDigitChars 10 (Nat.toDigits 10 e.natAbs) 0 : Int) = e
      rw [Nat.ofDigitChars_ten_toDigits]
      omega
    · rw [if_neg he]
      show (Nat.ofDigitChars 10 (Nat.toDigits 10 e.natAbs) 0 : Int) = e
      rw [Nat.ofDigitChars_ten_toDigits]
      omega
  obtain ⟨hp, hvalue⟩ := hpower _ rfl
  unfold scientific
  dsimp only
  have hpos : 0 < ds.length := List.length_pos_of_ne_nil h
  split
  · rename_i hlen
    rw [List.take_of_length_le hlen, List.append_nil]
    rw [decimalValue_whole hds hp, hvalue]
    congr 2
    omega
  · rename_i hlen
    have hw : Digits (ds.take 1) := fun c hc => hds c (List.mem_of_mem_take hc)
    have hf : Digits (ds.drop 1) := fun c hc => hds c (List.mem_of_mem_drop hc)
    rw [decimalValue_point hw hf hp, hvalue, List.take_append_drop, List.length_drop]
    congr 2
    omega

theorem value_write (layout : DecimalLayout) {ds : List Char} (hds : Digits ds) (e : Int)
    (h : ds ≠ []) : decimalValue (layout.write ds e) =
      (Nat.ofDigitChars 10 ds 0 : ℚ) * 10 ^ (e + 1 - ds.length) := by
  unfold write
  split
  · exact value_positional hds e
  · exact value_scientific hds e h

end DecimalLayout

/-! ### characters -/

/-- the characters of the texts of numbers -/
def isNumeric (c : Char) : Bool := c.isDigit || c == '+' || c == '-' || c == '.' || c == 'e'

/-- digits, then a point or an `e`, then anything a number is written with -/
def IsFloatText (cs : List Char) : Prop :=
  ∃ whole mark rest, cs = whole ++ mark :: rest ∧ whole ≠ [] ∧ Digits whole ∧
    (mark = '.' ∨ mark = 'e') ∧ ∀ c ∈ rest, isNumeric c = true

theorem Digits.numeric {ds : List Char} (h : Digits ds) : ∀ c ∈ ds, isNumeric c = true := by
  intro c hc
  have hd := h c hc
  simp [isNumeric, hd]

theorem IsFloatText.numeric {cs : List Char} (h : IsFloatText cs) :
    ∀ c ∈ cs, isNumeric c = true := by
  obtain ⟨whole, mark, rest, rfl, _, hwhole, hmark, hrest⟩ := h
  intro c hc
  rcases List.mem_append.mp hc with hc | hc
  · exact hwhole.numeric c hc
  · rcases List.mem_cons.mp hc with rfl | hc
    · rcases hmark with rfl | rfl <;> decide
    · exact hrest c hc

/-- a point or an `e` is no digit, so whole numbers are told apart. -/
theorem IsFloatText.not_digits {cs : List Char} (h : IsFloatText cs) : ¬ Digits cs := by
  obtain ⟨whole, mark, rest, rfl, _, _, hmark, _⟩ := h
  intro hd
  have hdigit := hd mark (by simp)
  rcases hmark with rfl | rfl <;> exact absurd hdigit (by decide)

theorem IsFloatText.head {cs : List Char} (h : IsFloatText cs) :
    ∃ c rest, cs = c :: rest ∧ c.isDigit = true := by
  obtain ⟨whole, mark, rest, rfl, hne, hwhole, _, _⟩ := h
  obtain ⟨d, ds, rfl⟩ := List.exists_cons_of_ne_nil hne
  exact ⟨d, ds ++ mark :: rest, rfl, hwhole d List.mem_cons_self⟩

namespace DecimalLayout

theorem isFloatText_positional {ds : List Char} (hds : Digits ds) (h : ds ≠ []) (e : Int) :
    IsFloatText (positional ds e) := by
  unfold positional
  split
  · have hrest : Digits (List.replicate ((-e).toNat - 1) '0' ++ ds) := (digits_zeros _).append hds
    exact ⟨['0'], '.', _, rfl, by simp, digits_zeros 1, Or.inl rfl, hrest.numeric⟩
  · dsimp only
    split
    · refine ⟨_, '.', ['0'], rfl, ?_, hds.append (digits_zeros _), Or.inl rfl,
        (digits_zeros 1).numeric⟩
      simp [h]
    · have hw : Digits (ds.take (e.toNat + 1)) := fun c hc => hds c (List.mem_of_mem_take hc)
      have hf : Digits (ds.drop (e.toNat + 1)) := fun c hc => hds c (List.mem_of_mem_drop hc)
      refine ⟨_, '.', _, rfl, ?_, hw, Or.inl rfl, hf.numeric⟩
      simp [h]

theorem isFloatText_scientific {ds : List Char} (hds : Digits ds) (h : ds ≠ []) (e : Int) :
    IsFloatText (scientific ds e) := by
  have hw : Digits (ds.take 1) := fun c hc => hds c (List.mem_of_mem_take hc)
  have hf : Digits (ds.drop 1) := fun c hc => hds c (List.mem_of_mem_drop hc)
  have hne : ds.take 1 ≠ [] := by simp [h]
  have hpower : ∀ c ∈ (if e < 0 then '-' else '+') :: Nat.toDigits 10 e.natAbs,
      isNumeric c = true := by
    intro c hc
    rcases List.mem_cons.mp hc with rfl | hc
    · split <;> decide
    · exact (digits_toDigits _).numeric c hc
  unfold scientific
  dsimp only
  split
  · rw [List.append_nil]
    exact ⟨_, 'e', _, rfl, hne, hw, Or.inr rfl, hpower⟩
  · refine ⟨ds.take 1, '.', _, List.append_assoc _ _ _, hne, hw, Or.inl rfl, ?_⟩
    intro c hc
    rcases List.mem_append.mp hc with hc | hc
    · exact hf.numeric c hc
    · rcases List.mem_cons.mp hc with rfl | hc
      · decide
      · exact hpower c hc

theorem isFloatText_write (layout : DecimalLayout) {ds : List Char} (hds : Digits ds)
    (h : ds ≠ []) (e : Int) : IsFloatText (layout.write ds e) := by
  unfold write
  split
  · exact isFloatText_positional hds h e
  · exact isFloatText_scientific hds h e

end DecimalLayout

/-! ### zeros at the end -/

theorem dropTrailingZeros_append (ds : List Char) :
    ∃ n, dropTrailingZeros ds ++ List.replicate n '0' = ds := by
  refine ⟨(ds.reverse.takeWhile fun c => c == '0').length, ?_⟩
  have hzeros : ds.reverse.takeWhile (fun c => c == '0')
      = List.replicate (ds.reverse.takeWhile fun c => c == '0').length '0' := by
    refine List.eq_replicate_iff.mpr ⟨rfl, fun c hc => ?_⟩
    have h := List.all_eq_true.mp (List.all_takeWhile (p := fun c => c == '0')) c hc
    exact eq_of_beq h
  have hsplit := List.takeWhile_append_dropWhile (p := fun c => c == '0') (l := ds.reverse)
  unfold dropTrailingZeros
  rw [← List.reverse_replicate, ← hzeros, ← List.reverse_append, hsplit, List.reverse_reverse]

theorem digits_dropTrailingZeros {ds : List Char} (h : Digits ds) :
    Digits (dropTrailingZeros ds) := by
  obtain ⟨n, hn⟩ := dropTrailingZeros_append ds
  intro c hc
  apply h
  rw [← hn]
  exact List.mem_append_left _ hc

theorem value_dropTrailingZeros (ds : List Char) (e : Int) :
    (Nat.ofDigitChars 10 (dropTrailingZeros ds) 0 : ℚ) *
        10 ^ (e + 1 - (dropTrailingZeros ds).length) =
      (Nat.ofDigitChars 10 ds 0 : ℚ) * 10 ^ (e + 1 - ds.length) := by
  obtain ⟨n, hn⟩ := dropTrailingZeros_append ds
  generalize dropTrailingZeros ds = cs at hn
  subst hn
  rw [ofDigits_zeros, List.length_append, List.length_replicate, Nat.cast_mul, Nat.cast_pow,
    mul_assoc, ← zpow_natCast, Nat.cast_ofNat, ← zpow_add₀ (by norm_num)]
  congr 2
  omega

theorem dropTrailingZeros_ne_nil {ds : List Char} (h : Nat.ofDigitChars 10 ds 0 ≠ 0) :
    dropTrailingZeros ds ≠ [] := by
  intro hnil
  obtain ⟨n, hn⟩ := dropTrailingZeros_append ds
  apply h
  rw [← hn, ofDigits_zeros, hnil, Nat.ofDigitChars_nil, Nat.zero_mul]

end Batchwise
