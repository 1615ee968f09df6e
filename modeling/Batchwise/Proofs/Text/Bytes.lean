import Mathlib.Data.List.Basic

/-!
# Text and its bytes

Text is ordered by its code points.  UTF-8 keeps this order: a greater character has a greater
first byte, or the same first bytes and then a greater one.

* `Text.bytes`          the UTF-8 bytes of a text;
* `Text.encode_lt`      the bytes of a greater character are greater, whatever comes behind;
* `Text.bytes_lt_iff`   texts and their bytes are in one order.
-/

namespace Batchwise.Text

/-- the UTF-8 bytes of a text. -/
def bytes (s : String) : List UInt8 := s.toUTF8.data.toList

theorem bytes_eq (s : String) : bytes s = s.toList.flatMap String.utf8EncodeChar := by
  unfold bytes
  rw [String.toUTF8_eq_toByteArray, ← String.utf8Encode_toList, List.utf8Encode,
    List.data_toByteArray]

theorem byte_cons_lt_iff {m n : Nat} (hm : m < 256) (hn : n < 256) (xs ys : List UInt8) :
    UInt8.ofNat m :: xs < UInt8.ofNat n :: ys ↔ m < n ∨ m = n ∧ xs < ys := by
  have hlt : UInt8.ofNat m < UInt8.ofNat n ↔ m < n := by
    rw [UInt8.lt_iff_toNat_lt, UInt8.toNat_ofNat', UInt8.toNat_ofNat', Nat.mod_eq_of_lt hm,
      Nat.mod_eq_of_lt hn]
  have heq : UInt8.ofNat m = UInt8.ofNat n ↔ m = n := by
    rw [← UInt8.toNat_inj, UInt8.toNat_ofNat', UInt8.toNat_ofNat', Nat.mod_eq_of_lt hm,
      Nat.mod_eq_of_lt hn]
  rw [List.cons_lt_cons_iff, hlt, heq]

theorem encode_lt {c d : Char} (h : c < d) (xs ys : List UInt8) :
    String.utf8EncodeChar c ++ xs < String.utf8EncodeChar d ++ ys := by
  have hlt : c.val.toNat < d.val.toNat := h
  have hd : d.val.toNat < 0x110000 := by
    rcases d.valid with hd | hd
    · exact Nat.lt_trans hd (by decide)
    · exact hd.2
  unfold String.utf8EncodeChar
  generalize c.val.toNat = m at hlt
  generalize d.val.toNat = n at hlt hd
  -- a byte holds one digit to the base 64, or what is left of the number above the others
  have h12 : ∀ k, k / 4096 = k / 64 / 64 := fun k => (Nat.div_div_eq_div_mul k 64 64).symm
  have h18 : ∀ k, k / 262144 = k / 64 / 64 / 64 := fun k => by
    rw [Nat.div_div_eq_div_mul, Nat.div_div_eq_div_mul]
  dsimp only
  simp only [h12, h18]
  -- one case for each two numbers of bytes
  split_ifs
  all_goals simp (disch := omega) only [List.cons_append, List.nil_append, byte_cons_lt_iff]
  all_goals omega

theorem flatMap_encode_lt {cs ds : List Char} (h : cs < ds) :
    cs.flatMap String.utf8EncodeChar < ds.flatMap String.utf8EncodeChar := by
  induction cs generalizing ds with
  | nil =>
    cases ds with
    | nil => exact absurd h (List.lt_irrefl _)
    | cons d ds =>
      rw [List.flatMap_nil, List.flatMap_cons]
      obtain ⟨b, bs, hb⟩ := List.exists_cons_of_ne_nil (String.utf8EncodeChar_ne_nil (c := d))
      rw [hb]
      exact List.nil_lt_cons _ _
  | cons c cs ih =>
    cases ds with
    | nil => exact absurd h (List.not_lt_nil _)
    | cons d ds =>
      rw [List.flatMap_cons, List.flatMap_cons]
      rcases List.cons_lt_cons_iff.mp h with hlt | ⟨rfl, hlt⟩
      · exact encode_lt hlt _ _
      · exact List.append_left_lt (ih hlt)

/-- **Texts and their bytes are in one order.** -/
theorem bytes_lt_iff {s t : String} : bytes s < bytes t ↔ s < t := by
  have hmono : ∀ {s t : String}, s < t → bytes s < bytes t := fun {s t} h => by
    rw [bytes_eq, bytes_eq]
    exact flatMap_encode_lt h
  refine ⟨fun h => String.not_le.mp fun hle => ?_, hmono⟩
  by_cases heq : t = s
  · exact List.lt_irrefl _ (heq ▸ h)
  · have hlt : t < s := String.not_le.mp fun hle' => heq (String.le_antisymm hle hle')
    exact List.lt_asymm h (hmono hlt)

end Batchwise.Text
