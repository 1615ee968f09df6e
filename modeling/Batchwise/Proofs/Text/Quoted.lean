import Batchwise.Text.Quoted
import Mathlib.Tactic.SplitIfs

/-!
# Quoted text is read back

`unescape` takes the first character off escaped text.  A quote inside is escaped, so the first
bare quote ends the text.

* `Text.unescape_escape`   one character is read back, whatever stands behind it;
* `Text.quote_inj`         so quoted text is read back together with its end.
-/

namespace Batchwise.Text

/-! ### hexadecimal digits -/

/-- the number below sixteen that a hexadecimal digit stands for -/
def hexValue (c : Char) : Nat := if c.toNat < 58 then c.toNat - 48 else c.toNat - 87

theorem hexValue_hexDigit {n : Nat} (h : n < 16) : hexValue (hexDigit n) = n := by
  revert n
  decide

theorem hexByte_value {n : Nat} (h : n < 256) :
    16 * hexValue (hexDigit (n / 16)) + hexValue (hexDigit (n % 16)) = n := by
  rw [hexValue_hexDigit (by omega), hexValue_hexDigit (by omega)]
  omega

theorem hexByte_inj {m n : Nat} (hm : m < 256) (hn : n < 256) (h : hexByte m = hexByte n) :
    m = n := by
  rw [← hexByte_value hm, ← hexByte_value hn]
  simp only [hexByte, List.cons.injEq] at h
  rw [h.1, h.2.1]

/-! ### one character -/

/-- the first character of escaped text and the text behind it -/
def unescape : List Char → Option (Char × List Char)
  | '\\' :: 'b' :: cs => some (Char.ofNat 8, cs)
  | '\\' :: 'f' :: cs => some (Char.ofNat 12, cs)
  | '\\' :: 'n' :: cs => some ('\n', cs)
  | '\\' :: 'r' :: cs => some ('\r', cs)
  | '\\' :: 't' :: cs => some ('\t', cs)
  | '\\' :: 'u' :: '0' :: '0' :: a :: b :: cs => some (Char.ofNat (16 * hexValue a + hexValue b), cs)
  | '\\' :: c :: cs => some (c, cs)
  | '"' :: _ => none
  | c :: cs => some (c, cs)
  | [] => none

theorem unescape_escape (c : Char) (cs : List Char) :
    unescape (escape c ++ cs) = some (c, cs) := by
  unfold escape
  split_ifs with h1 h2 h3 h4 h5 h6 h7 h8
  · rw [h1]; rfl
  · rw [h2]; rfl
  · rw [h3]; rfl
  · rw [h4]; rfl
  · rw [h5]; rfl
  · rw [h6]; rfl
  · rw [h7]; rfl
  · -- a control character without a letter of its own
    show some (Char.ofNat (16 * hexValue (hexDigit (c.toNat / 16)) +
      hexValue (hexDigit (c.toNat % 16))), cs) = some (c, cs)
    rw [hexByte_value (by omega), Char.ofNat_toNat]
  · show unescape (c :: cs) = some (c, cs)
    unfold unescape
    split <;> simp_all

theorem unescape_quote (cs : List Char) : unescape ('"' :: cs) = none := rfl

/-! ### text between quotes -/

theorem body_inj {s t cs ds : List Char}
    (h : s.flatMap escape ++ '"' :: cs = t.flatMap escape ++ '"' :: ds) : s = t ∧ cs = ds := by
  induction s generalizing t with
  | nil =>
    cases t with
    | nil => exact ⟨rfl, (List.cons.inj h).2⟩
    | cons d t =>
      have hread := congrArg unescape h
      rw [List.flatMap_nil, List.nil_append, List.flatMap_cons, List.append_assoc, unescape_quote,
        unescape_escape] at hread
      cases hread
  | cons c s ih =>
    cases t with
    | nil =>
      have hread := congrArg unescape h
      rw [List.flatMap_nil, List.nil_append, List.flatMap_cons, List.append_assoc, unescape_quote,
        unescape_escape] at hread
      cases hread
    | cons d t =>
      have hread := congrArg unescape h
      rw [List.flatMap_cons, List.flatMap_cons, List.append_assoc, List.append_assoc,
        unescape_escape, unescape_escape] at hread
      obtain ⟨hcd, hrest⟩ := Prod.mk.inj (Option.some.inj hread)
      obtain ⟨hst, hend⟩ := ih hrest
      exact ⟨by rw [hcd, hst], hend⟩

/-- **Quoted text is read back together with its end.** -/
theorem quote_inj {s t cs ds : List Char} (h : quote s ++ cs = quote t ++ ds) :
    s = t ∧ cs = ds := by
  apply body_inj
  simpa [quote] using h

end Batchwise.Text
