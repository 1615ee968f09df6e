import Batchwise.Settings
import Batchwise.Proofs.Text.Blank

/-!
# Which texts are positive numbers

A text is described as a whole, by the digits that open it and by what stands behind them, and the
reader, which goes through it digit by digit, is compared with that.

* `PositiveNumber.Numeral`   the texts that denote a number;
* `PositiveNumber.read_of_trimmed`   what is read of a text, and which of its faults is reported;
* `Environment.Holds`        the text under a name is that of the topmost layer that has one;
* `Environment.topmost_text_decides`   numbers in an environment, and the settings made of them.
-/

namespace Batchwise

/-! ### numerals -/

namespace PositiveNumber

/-- the text behind an optional plus. -/
def unsigned : List Char → List Char
  | '+' :: cs => cs
  | cs => cs

/-- the digits that open a text, behind an optional plus. -/
def leading (cs : List Char) : List Char := (unsigned cs).takeWhile Char.isDigit

/-- what stands behind these digits. -/
def behind (cs : List Char) : List Char := (unsigned cs).dropWhile Char.isDigit

/-- the number that digits denote. -/
def value (ds : List Char) : Nat := Nat.ofDigitChars 10 ds 0

/-- the text is an optional plus and at least one digit, and denotes `n`. -/
def Numeral (cs : List Char) (n : Nat) : Prop :=
  ∃ ds, (cs = ds ∨ cs = '+' :: ds) ∧ ds ≠ [] ∧ (∀ c ∈ ds, c.isDigit = true) ∧ value ds = n

/-- the text denotes a number that is at least one and fits into 64 bits. -/
def Positive (cs : List Char) (n : Nat) : Prop := Numeral cs n ∧ 1 ≤ n ∧ n < Nat.pow 2 64

/-- the text is an optional plus and at least one digit, and all digits are zeros. -/
def Zero (cs : List Char) : Prop := leading cs ≠ [] ∧ value (leading cs) = 0 ∧ behind cs = []

/-- what is wrong with a text that is no positive number. -/
def Faulty (cs : List Char) : NumberFault → Prop
  | .empty => cs = []
  | .tooLarge => Nat.pow 2 64 ≤ value (leading cs)
  | .zero => Zero cs
  | .invalidDigit =>
    cs ≠ [] ∧ value (leading cs) < Nat.pow 2 64 ∧ ¬ Zero cs ∧ ∀ n, ¬ Positive cs n

theorem unsigned_of_digits {ds : List Char} (h : ∀ c ∈ ds, c.isDigit = true) :
    unsigned ds = ds := by
  unfold unsigned
  split
  · exact absurd (h '+' List.mem_cons_self) (by decide)
  · rfl

theorem eq_or_eq_plus (cs : List Char) : cs = unsigned cs ∨ cs = '+' :: unsigned cs := by
  unfold unsigned
  split
  · exact Or.inr rfl
  · exact Or.inl rfl

theorem leading_append_behind (cs : List Char) : leading cs ++ behind cs = unsigned cs :=
  List.takeWhile_append_dropWhile

theorem numeral_iff {cs : List Char} {n : Nat} :
    Numeral cs n ↔ leading cs ≠ [] ∧ behind cs = [] ∧ value (leading cs) = n := by
  constructor
  · rintro ⟨ds, hcs, hne, hdigits, hvalue⟩
    have hunsigned : unsigned cs = ds := by
      rcases hcs with rfl | rfl
      · exact unsigned_of_digits hdigits
      · rfl
    have hleading : leading cs = ds := by
      unfold leading
      rw [hunsigned, List.takeWhile_eq_self_iff.mpr hdigits]
    have hbehind : behind cs = [] := by
      unfold behind
      rw [hunsigned, List.dropWhile_eq_nil_iff.mpr hdigits]
    rw [hleading]
    exact ⟨hne, hbehind, hvalue⟩
  · rintro ⟨hne, hbehind, hvalue⟩
    have hall : unsigned cs = leading cs := by
      rw [← leading_append_behind, hbehind, List.append_nil]
    refine ⟨leading cs, ?_, hne, fun c hc => List.mem_takeWhile_imp hc, hvalue⟩
    rw [← hall]
    exact eq_or_eq_plus cs

theorem ne_nil_of_leading {cs : List Char} (h : leading cs ≠ []) : cs ≠ [] := by
  rintro rfl
  exact h rfl

/-! ### reading -/

theorem isDigit_iff {c : Char} : c.isDigit = true ↔ '0' ≤ c ∧ c ≤ '9' := by
  unfold Char.isDigit
  rw [Bool.and_eq_true, decide_eq_true_iff, decide_eq_true_iff]
  exact Iff.rfl

theorem digit?_of_isDigit {c : Char} (h : c.isDigit = true) :
    digit? c = some (c.toNat - '0'.toNat) := if_pos (isDigit_iff.mp h)

theorem digit?_of_not_isDigit {c : Char} (h : c.isDigit = false) : digit? c = none := by
  refine if_neg fun hrange => ?_
  rw [isDigit_iff.mpr hrange] at h
  cases h

theorem le_ofDigitChars (n : Nat) (ds : List Char) : n ≤ Nat.ofDigitChars 10 ds n := by
  induction ds generalizing n with
  | nil => exact Nat.le_refl n
  | cons c ds ih =>
    rw [Nat.ofDigitChars_cons]
    exact Nat.le_trans (by omega) (ih _)

/-- As more digits never make a number smaller, the first number that is too large is reported just
when all digits together denote one. -/
theorem readDigits_eq {n : Nat} (hn : n < bound) (cs : List Char) :
    readDigits n cs =
      if bound ≤ Nat.ofDigitChars 10 (cs.takeWhile Char.isDigit) n then .error .tooLarge
      else if cs.dropWhile Char.isDigit = [] then
        .ok (Nat.ofDigitChars 10 (cs.takeWhile Char.isDigit) n)
      else .error .invalidDigit := by
  induction cs generalizing n with
  | nil => exact (if_neg (Nat.not_le.mpr hn)).symm
  | cons c cs ih =>
    rw [readDigits]
    cases hc : c.isDigit with
    | false =>
      rw [digit?_of_not_isDigit hc, List.takeWhile_cons_of_neg (by simp [hc]),
        List.dropWhile_cons_of_neg (by simp [hc]), if_neg (List.cons_ne_nil c cs)]
      exact (if_neg (Nat.not_le.mpr hn)).symm
    | true =>
      rw [digit?_of_isDigit hc, List.takeWhile_cons_of_pos hc, List.dropWhile_cons_of_pos hc,
        Nat.ofDigitChars_cons, Nat.mul_comm 10 n]
      dsimp only
      by_cases hlt : n * 10 + (c.toNat - '0'.toNat) < bound
      · rw [if_pos hlt, ih hlt]
      · have hlarge := Nat.le_trans (Nat.not_lt.mp hlt)
          (le_ofDigitChars _ (cs.takeWhile Char.isDigit))
        rw [if_neg hlt, if_pos hlarge]

theorem readUnsigned_eq {cs : List Char} (h : unsigned cs ≠ []) :
    readUnsigned cs = readDigits 0 (unsigned cs) := by
  unfold readUnsigned
  split
  · exact absurd rfl h
  · exact absurd rfl h
  · rfl
  · rename_i c cs halone hplus
    have hc : c ≠ '+' := by
      intro hc
      cases cs with
      | nil => exact halone hc rfl
      | cons d ds => exact hplus d ds hc rfl
    have hunsigned : unsigned (c :: cs) = c :: cs := by simp [unsigned, hc]
    rw [hunsigned]

theorem readUnsigned_of_ne_nil {cs : List Char} (h : cs ≠ []) :
    readUnsigned cs =
      if bound ≤ value (leading cs) then .error .tooLarge
      else if leading cs ≠ [] ∧ behind cs = [] then .ok (value (leading cs))
      else .error .invalidDigit := by
  by_cases hnil : unsigned cs = []
  · obtain rfl : cs = ['+'] := by
      rcases eq_or_eq_plus cs with hcs | hcs
      · exact absurd (hcs.trans hnil) h
      · rw [hcs, hnil]
    rfl
  · -- without anything behind them there are digits, as there is something to read
    have hleading : behind cs = [] → leading cs ≠ [] := by
      intro hbehind hempty
      rw [← leading_append_behind, hbehind, hempty] at hnil
      exact hnil rfl
    have hread := readDigits_eq (by decide : 0 < bound) (unsigned cs)
    simp only [and_iff_right_of_imp hleading]
    rw [readUnsigned_eq hnil]
    exact hread

/-- what is read of a text, and which of its faults is reported. -/
theorem read_of_trimmed {text : String} {core : List Char} (h : Text.Trimmed text.toList core) :
    read text =
      if core = [] then .error .empty
      else if bound ≤ value (leading core) then .error .tooLarge
      else if leading core ≠ [] ∧ behind core = [] then
        if value (leading core) = 0 then .error .zero else .ok (value (leading core))
      else .error .invalidDigit := by
  unfold read
  rw [← h.eq_trim]
  by_cases hnil : core = []
  · rw [if_pos hnil, hnil]
    rfl
  · rw [if_neg hnil, readUnsigned_of_ne_nil hnil]
    split_ifs with hlarge hwhole hzero
    · rfl
    · rw [hzero]
      rfl
    · generalize value (leading core) = n at hzero
      cases n with
      | zero => exact absurd rfl hzero
      | succ n => rfl
    · rfl

theorem positive_iff {cs : List Char} {n : Nat} : Positive cs n ↔
    leading cs ≠ [] ∧ behind cs = [] ∧ value (leading cs) = n ∧ n ≠ 0 ∧ n < bound := by
  unfold Positive
  rw [numeral_iff, Nat.one_le_iff_ne_zero, and_assoc, and_assoc]
  rfl

theorem positive_or_faulty (cs : List Char) :
    (∃ n, Positive cs n) ∨ ∃ fault, Faulty cs fault := by
  by_cases hpositive : ∃ n, Positive cs n
  · exact Or.inl hpositive
  · right
    by_cases hnil : cs = []
    · exact ⟨.empty, hnil⟩
    · by_cases hlarge : bound ≤ value (leading cs)
      · exact ⟨.tooLarge, hlarge⟩
      · by_cases hzero : Zero cs
        · exact ⟨.zero, hzero⟩
        · exact ⟨.invalidDigit, hnil, Nat.not_le.mp hlarge, hzero, fun n hn => hpositive ⟨n, hn⟩⟩

section

variable {text : String} {core : List Char} (h : Text.Trimmed text.toList core)
include h

/-- **Just the positive numbers are read.** -/
theorem read_eq_ok_iff {n : Nat} : read text = .ok n ↔ Positive core n := by
  rw [read_of_trimmed h, positive_iff]
  constructor
  · intro hread
    split_ifs at hread with _ hlarge hwhole hzero
    cases hread
    exact ⟨hwhole.1, hwhole.2, rfl, hzero, Nat.not_le.mp hlarge⟩
  · rintro ⟨hne, hbehind, rfl, hzero, hlt⟩
    rw [if_neg (ne_nil_of_leading hne), if_neg (Nat.not_le.mpr hlt), if_pos ⟨hne, hbehind⟩,
      if_neg hzero]

theorem read_of_faulty {fault : NumberFault} (hfault : Faulty core fault) :
    read text = .error fault := by
  rw [read_of_trimmed h]
  cases fault with
  | empty => exact if_pos hfault
  | tooLarge =>
    have hlarge : bound ≤ value (leading core) := hfault
    have hne : core ≠ [] := by
      rintro rfl
      exact absurd hlarge (by decide)
    rw [if_neg hne, if_pos hlarge]
  | zero =>
    obtain ⟨hne, hzero, hbehind⟩ := hfault
    have hsmall : ¬ bound ≤ value (leading core) := by
      rw [hzero]
      decide
    rw [if_neg (ne_nil_of_leading hne), if_neg hsmall, if_pos ⟨hne, hbehind⟩, if_pos hzero]
  | invalidDigit =>
    obtain ⟨hne, hlt, hzero, hpositive⟩ := hfault
    have hbroken : ¬ (leading core ≠ [] ∧ behind core = []) := by
      rintro ⟨hleading, hbehind⟩
      by_cases hvalue : value (leading core) = 0
      · exact hzero ⟨hleading, hvalue, hbehind⟩
      · exact hpositive _ (positive_iff.mpr ⟨hleading, hbehind, rfl, hvalue, hlt⟩)
    have hsmall : ¬ bound ≤ value (leading core) := Nat.not_le.mpr hlt
    rw [if_neg hne, if_neg hsmall, if_neg hbroken]

/-- **Of any other text its fault is reported.** -/
theorem read_eq_error_iff {fault : NumberFault} : read text = .error fault ↔ Faulty core fault := by
  refine ⟨fun hread => ?_, read_of_faulty h⟩
  rcases positive_or_faulty core with ⟨n, hn⟩ | ⟨fault', hfault⟩
  · rw [(read_eq_ok_iff h).mpr hn] at hread
    cases hread
  · rw [read_of_faulty h hfault] at hread
    cases hread
    exact hfault

end

end PositiveNumber

/-! ### texts in an environment -/

namespace Environment

variable {env : Environment} {key value : String}

/-- no layer holds a text under the name. -/
def Unset (env : Environment) (key : String) : Prop :=
  ∀ layer ∈ env.layers, layer.find? key = none

/-- the topmost layer that holds a text under the name holds this one. -/
def Holds (env : Environment) (key value : String) : Prop :=
  ∃ upper layer lower, env.layers = upper ++ layer :: lower ∧
    (∀ l ∈ upper, l.find? key = none) ∧ layer.find? key = some value

/-- the text under the name, without blanks around it, is this positive number. -/
def HoldsNumber (env : Environment) (key : String) (n : Nat) : Prop :=
  ∃ value core, env.Holds key value ∧ Text.Trimmed value.toList core ∧
    PositiveNumber.Positive core n

theorem get?_eq_none_iff : env.get? key = none ↔ env.Unset key := List.findSome?_eq_none_iff

theorem get?_eq_some_iff : env.get? key = some value ↔ env.Holds key value := by
  unfold get? Holds
  rw [List.findSome?_eq_some_iff]
  refine exists_congr fun upper => exists_congr fun layer => exists_congr fun lower => ?_
  rw [and_comm (a := layer.find? key = some value)]

theorem unset_or_holds (env : Environment) (key : String) :
    env.Unset key ∨ ∃ value, env.Holds key value := by
  cases hget : env.get? key with
  | none => exact Or.inl (get?_eq_none_iff.mp hget)
  | some value => exact Or.inr ⟨value, get?_eq_some_iff.mp hget⟩

theorem positive?_of_unset (h : env.Unset key) : env.positive? key = .ok none := by
  unfold positive?
  rw [get?_eq_none_iff.mpr h]

theorem positive?_of_holds (h : env.Holds key value) :
    env.positive? key =
      match PositiveNumber.read value with
      | .ok n => .ok (some n)
      | .error fault => .error ⟨key, value, fault⟩ := by
  have hget := get?_eq_some_iff.mpr h
  unfold positive?
  cases hread : PositiveNumber.read value <;> simp only [hget, hread]

section

variable {core : List Char} (h : env.Holds key value) (hcore : Text.Trimmed value.toList core)
include h hcore

theorem positive?_eq_some_iff {n : Nat} :
    env.positive? key = .ok (some n) ↔ PositiveNumber.Positive core n := by
  rw [positive?_of_holds h, ← PositiveNumber.read_eq_ok_iff hcore]
  cases PositiveNumber.read value <;> simp

theorem positive?_eq_error_iff {fault : NumberFault} :
    env.positive? key = .error ⟨key, value, fault⟩ ↔ PositiveNumber.Faulty core fault := by
  rw [positive?_of_holds h, ← PositiveNumber.read_eq_error_iff hcore]
  cases PositiveNumber.read value <;> simp

/-- **The topmost text alone decides**: it is a positive number, or its fault is reported. -/
theorem positive?_cases :
    (∃ n, PositiveNumber.Positive core n ∧ env.positive? key = .ok (some n)) ∨
      ∃ fault, PositiveNumber.Faulty core fault ∧
        env.positive? key = .error ⟨key, value, fault⟩ := by
  rcases PositiveNumber.positive_or_faulty core with ⟨n, hn⟩ | ⟨fault, hfault⟩
  · exact Or.inl ⟨n, hn, (positive?_eq_some_iff h hcore).mpr hn⟩
  · exact Or.inr ⟨fault, hfault, (positive?_eq_error_iff h hcore).mpr hfault⟩

end

theorem positive?_eq_none_iff : env.positive? key = .ok none ↔ env.Unset key := by
  refine ⟨fun hread => ?_, positive?_of_unset⟩
  rcases unset_or_holds env key with hunset | ⟨value, hvalue⟩
  · exact hunset
  · rcases positive?_cases hvalue (Text.trimmed_trim _) with ⟨n, _, h⟩ | ⟨fault, _, h⟩
    · rw [h] at hread
      cases hread
    · rw [h] at hread
      cases hread

theorem one_le_of_positive? {n : Nat} (h : env.positive? key = .ok (some n)) : 1 ≤ n := by
  rcases unset_or_holds env key with hunset | ⟨value, hvalue⟩
  · rw [positive?_of_unset hunset] at h
    cases h
  · exact ((positive?_eq_some_iff hvalue (Text.trimmed_trim _)).mp h).2.1

/-- what is reported of a name, if anything is. -/
def fault? (env : Environment) (key : String) : Option EnvironmentError :=
  match env.positive? key with
  | .ok _ => none
  | .error e => some e

theorem fault?_eq_some_iff {e : EnvironmentError} :
    env.fault? key = some e ↔ env.positive? key = .error e := by
  unfold fault?
  cases env.positive? key <;> simp

/-- nothing is reported of a name that is unset, or has a positive number. -/
theorem fault?_eq_none_iff :
    env.fault? key = none ↔ env.Unset key ∨ ∃ n, env.HoldsNumber key n := by
  unfold fault?
  constructor
  · intro hnone
    rcases unset_or_holds env key with hunset | ⟨value, hvalue⟩
    · exact Or.inl hunset
    · have hcore := Text.trimmed_trim value.toList
      rcases positive?_cases hvalue hcore with ⟨n, hn, _⟩ | ⟨fault, _, h⟩
      · exact Or.inr ⟨n, value, _, hvalue, hcore, hn⟩
      · rw [h] at hnone
        cases hnone
  · rintro (hunset | ⟨n, value, core, hvalue, hcore, hn⟩)
    · rw [positive?_of_unset hunset]
    · rw [(positive?_eq_some_iff hvalue hcore).mpr hn]

end Environment

/-! ### settings -/

namespace Settings

/-- the names of the settings, in the order in which they are read. -/
def keys : List String := [maxConcurrentGroupsKey, defaultSelectionDepthKey, queryDepthLimitKey]

/-- every number is at least one. -/
structure Positive (s : Settings) : Prop where
  maxConcurrentGroups : ∀ n, s.maxConcurrentGroups = some n → 1 ≤ n
  defaultSelectionDepth : 1 ≤ s.defaultSelectionDepth
  queryDepthLimit : 1 ≤ s.queryDepthLimit

theorem one_le_getD {n? : Option Nat} {n : Nat} (hn : 1 ≤ n) (h : ∀ m, n? = some m → 1 ≤ m) :
    1 ≤ n?.getD n := by
  cases n? with
  | none => exact hn
  | some m => exact h m rfl

/-- all names are read, or the first of them that is no positive number is reported. -/
theorem ofEnvironment_cases (env : Environment) :
    (keys.findSome? env.fault? = none ∧ ∃ s, ofEnvironment env = .ok s ∧ s.Positive) ∨
      ∃ e, keys.findSome? env.fault? = some e ∧ ofEnvironment env = .error e := by
  unfold ofEnvironment keys
  simp only [List.findSome?_cons, List.findSome?_nil, Environment.fault?]
  cases hgroups : env.positive? maxConcurrentGroupsKey with
  | error e => exact Or.inr ⟨e, rfl, rfl⟩
  | ok groups =>
    cases hselection : env.positive? defaultSelectionDepthKey with
    | error e => exact Or.inr ⟨e, rfl, rfl⟩
    | ok selectionDepth =>
      cases hquery : env.positive? queryDepthLimitKey with
      | error e => exact Or.inr ⟨e, rfl, rfl⟩
      | ok queryDepth =>
        refine Or.inl ⟨rfl, _, rfl, ?_, one_le_getD (by decide) ?_, one_le_getD (by decide) ?_⟩
        · rintro n rfl
          exact Environment.one_le_of_positive? hgroups
        · rintro n rfl
          exact Environment.one_le_of_positive? hselection
        · rintro n rfl
          exact Environment.one_le_of_positive? hquery

/-- settings are made just when no name has anything but a positive number. -/
theorem exists_ofEnvironment_iff {env : Environment} :
    (∃ s, ofEnvironment env = .ok s) ↔
      ∀ key ∈ keys, env.Unset key ∨ ∃ n, env.HoldsNumber key n := by
  have hnone : keys.findSome? env.fault? = none ↔
      ∀ key ∈ keys, env.Unset key ∨ ∃ n, env.HoldsNumber key n := by
    rw [List.findSome?_eq_none_iff]
    exact forall₂_congr fun _ _ => Environment.fault?_eq_none_iff
  rw [← hnone]
  rcases ofEnvironment_cases env with ⟨hfault, s, hs, _⟩ | ⟨e, hfault, he⟩
  · exact ⟨fun _ => hfault, fun _ => ⟨s, hs⟩⟩
  · constructor
    · rintro ⟨s, hs⟩
      rw [he] at hs
      cases hs
    · intro hnone
      rw [hfault] at hnone
      cases hnone

/-- what is reported is what is wrong under the first name that has no positive number. -/
theorem ofEnvironment_eq_error_iff {env : Environment} {e : EnvironmentError} :
    ofEnvironment env = .error e ↔ ∃ before key after, keys = before ++ key :: after ∧
      (∀ k ∈ before, env.Unset k ∨ ∃ n, env.HoldsNumber k n) ∧ env.positive? key = .error e := by
  have hfirst : keys.findSome? env.fault? = some e ↔ ∃ before key after,
      keys = before ++ key :: after ∧
      (∀ k ∈ before, env.Unset k ∨ ∃ n, env.HoldsNumber k n) ∧ env.positive? key = .error e := by
    rw [List.findSome?_eq_some_iff]
    refine exists_congr fun before => exists_congr fun key => exists_congr fun after => ?_
    rw [Environment.fault?_eq_some_iff, and_comm (a := env.positive? key = .error e)]
    exact and_congr_right fun _ => and_congr_left fun _ =>
      forall₂_congr fun _ _ => Environment.fault?_eq_none_iff
  rw [← hfirst]
  rcases ofEnvironment_cases env with ⟨hfault, s, hs, _⟩ | ⟨e', hfault, he⟩
  · rw [hfault, hs]
    exact iff_of_false (fun he => by cases he) (fun he => by cases he)
  · rw [hfault, he, Except.error.injEq, Option.some.injEq]

theorem positive_of_ofEnvironment {env : Environment} {s : Settings}
    (h : ofEnvironment env = .ok s) : s.Positive := by
  rcases ofEnvironment_cases env with ⟨_, s', hs, hpositive⟩ | ⟨e, _, he⟩
  · rw [h] at hs
    cases hs
    exact hpositive
  · rw [h] at he
    cases he

end Settings

/-- **The topmost text under a name decides, and the first name that is wrong is reported.**

* there is no number under a name if and only if no layer holds a text under it;
* of the topmost text, without the blanks around it, a number is read if and only if it is an
  optional plus and digits that denote this number, and this number is positive and fits into 64
  bits; any other text is reported with its name and with its own fault, and whatever lower layers
  hold makes no difference;
* settings are made if and only if each of their names is unset or has a positive number, and all
  their numbers are positive; otherwise the first name without one is reported. -/
theorem Environment.topmost_text_decides (env : Environment) :
    (∀ key, env.positive? key = .ok none ↔ env.Unset key) ∧
    (∀ key value, env.Holds key value → ∃ core, Text.Trimmed value.toList core ∧
      (∀ n, env.positive? key = .ok (some n) ↔ PositiveNumber.Positive core n) ∧
      (∀ fault, env.positive? key = .error ⟨key, value, fault⟩ ↔
        PositiveNumber.Faulty core fault) ∧
      ((∃ n, PositiveNumber.Positive core n) ∨ ∃ fault, PositiveNumber.Faulty core fault)) ∧
    ((∃ s, Settings.ofEnvironment env = .ok s) ↔
      ∀ key ∈ Settings.keys, env.Unset key ∨ ∃ n, env.HoldsNumber key n) ∧
    (∀ s, Settings.ofEnvironment env = .ok s → s.Positive) ∧
    ∀ e, Settings.ofEnvironment env = .error e ↔
      ∃ before key after, Settings.keys = before ++ key :: after ∧
        (∀ k ∈ before, env.Unset k ∨ ∃ n, env.HoldsNumber k n) ∧ env.positive? key = .error e := by
  refine ⟨fun key => positive?_eq_none_iff, fun key value hvalue => ?_,
    Settings.exists_ofEnvironment_iff, fun s hs => Settings.positive_of_ofEnvironment hs,
    fun e => Settings.ofEnvironment_eq_error_iff⟩
  have hcore := Text.trimmed_trim value.toList
  exact ⟨_, hcore, fun n => positive?_eq_some_iff hvalue hcore,
    fun fault => positive?_eq_error_iff hvalue hcore, PositiveNumber.positive_or_faulty _⟩

/-- a number with a sign, zeros and blanks hides a text that is none; of a number that is too large
with letters behind it the size is reported, and no settings are made. -/
theorem Environment.topmost_text_decides_of_layers :
    let env := ofLists [[(Settings.maxConcurrentGroupsKey, " +0012 ")],
      [(Settings.maxConcurrentGroupsKey, "many"),
        (Settings.defaultSelectionDepthKey, "18446744073709551616th")]]
    let upper := ofLists [[(Settings.maxConcurrentGroupsKey, " +0012 ")]]
    let e : EnvironmentError :=
      ⟨Settings.defaultSelectionDepthKey, "18446744073709551616th", .tooLarge⟩
    env.positive? Settings.maxConcurrentGroupsKey = .ok (some 12) ∧
      env.positive? Settings.queryDepthLimitKey = .ok none ∧
      Settings.ofEnvironment env = .error e ∧
      ∃ s, Settings.ofEnvironment upper = .ok s ∧ s.Positive := by
  intro env upper e
  obtain ⟨hunset, hholds, _, _, herror⟩ := topmost_text_decides env
  obtain ⟨_, _, hok, hpositive, _⟩ := topmost_text_decides upper
  -- the text at the top of both environments
  have htwelve : ∀ core, Text.Trimmed " +0012 ".toList core → PositiveNumber.Positive core 12 := by
    intro core hcore
    rw [hcore.eq_trim]
    have hdigits : ∀ c ∈ ['0', '0', '1', '2'], c.isDigit = true := by simp
    exact ⟨⟨_, by decide, by decide, hdigits, by decide⟩, by decide, by decide⟩
  have hgroups : env.Holds Settings.maxConcurrentGroupsKey " +0012 " :=
    ⟨[], _, _, rfl, List.forall_mem_nil _, by decide⟩
  have hdepth : env.Holds Settings.defaultSelectionDepthKey "18446744073709551616th" :=
    ⟨[_], _, [], rfl, by decide, by decide⟩
  have hread : env.positive? Settings.maxConcurrentGroupsKey = .ok (some 12) := by
    obtain ⟨core, hcore, hsome, _⟩ := hholds _ _ hgroups
    exact (hsome 12).mpr (htwelve core hcore)
  refine ⟨hread, (hunset _).mpr (by unfold Unset; decide), (herror e).mpr ?_, ?_⟩
  · obtain ⟨core, hcore, _, hfault, _⟩ := hholds _ _ hdepth
    refine ⟨[Settings.maxConcurrentGroupsKey], _, [Settings.queryDepthLimitKey], rfl, ?_,
      (hfault .tooLarge).mpr ?_⟩
    · intro k hk
      rw [List.mem_singleton.mp hk]
      obtain ⟨core, hcore, _⟩ := hholds _ _ hgroups
      exact Or.inr ⟨12, _, core, hgroups, hcore, htwelve core hcore⟩
    · rw [hcore.eq_trim]
      unfold PositiveNumber.Faulty
      decide
  · have hmade : ∀ key ∈ Settings.keys, upper.Unset key ∨ ∃ n, upper.HoldsNumber key n := by
      intro key hkey
      by_cases hgroupsKey : key = Settings.maxConcurrentGroupsKey
      · rw [hgroupsKey]
        have hcore := Text.trimmed_trim " +0012 ".toList
        exact Or.inr ⟨12, _, _, ⟨[], _, [], rfl, List.forall_mem_nil _, by decide⟩, hcore,
          htwelve _ hcore⟩
      · refine Or.inl fun layer hlayer => ?_
        rw [List.mem_singleton.mp hlayer]
        revert key
        unfold Settings.keys
        decide
    obtain ⟨s, hs⟩ := hok.mpr hmade
    exact ⟨s, hs, hpositive s hs⟩

end Batchwise
