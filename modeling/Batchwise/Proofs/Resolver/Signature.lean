import Batchwise.Resolver.Signature
import Mathlib.Data.List.Basic

/-!
# The grammar of parameters

A list of parameters is read from its front, one parameter at a time.  Here lists are described as
wholes: those that are read, and for each fault those that have it.

* `Parameter.Regular`      the lists that are read;
* `Signature.parameters`   the one that declares a signature;
* `Signature.Faulty`       what is wrong with a list that declares none;
* `Signature.declares_or_faulty`          every list is one or the other;
* `Signature.ofParameters_eq_ok_iff`      just the lists that declare a signature are read as it;
* `Signature.ofParameters_eq_error_iff`   and of any other just its fault is reported.
-/

namespace Batchwise

/-- the source, then at most once the arguments, then at most once a selection that is at least one
level deep. -/
def Parameter.Regular (batched : Bool) (ps : List Parameter) : Prop :=
  ∃ args selection, (args = [] ∨ args = [.arguments]) ∧
    (selection = [] ∨ ∃ depth, 1 ≤ depth ∧ selection = [.selection depth]) ∧
    ps = .ofSource batched :: (args ++ selection)

namespace Signature

/-- the parameters that declare a signature. -/
def parameters (batched : Bool) (s : Signature) : List Parameter :=
  .ofSource batched ::
    ((if s.wantsArgs then [.arguments] else []) ++ (s.selection.map .selection).toList)

/-- a selection that is wanted is at least one level deep. -/
def Reaches (s : Signature) : Prop := ∀ depth, s.selection = some depth → 1 ≤ depth

/-- a parameter may come next, after those of a signature. -/
def Admits (s : Signature) : Parameter → Prop
  | .sources => False
  | .source => False
  | .arguments => s.wantsArgs = false ∧ s.selection = none
  | .selection _ => s.selection = none

/-- what is wrong with a list of parameters: of several faults the first. -/
inductive Faulty (batched : Bool) : List Parameter → SignatureFault → Prop
  | empty : Faulty batched [] (.noSource batched)
  | noSource {p : Parameter} {ps : List Parameter} (hset : p ≠ .sources) (hone : p ≠ .source) :
      Faulty batched (p :: ps) (.noSource batched)
  | otherSource {ps : List Parameter} :
      Faulty batched (.ofSource (!batched) :: ps) (.otherSource batched)
  | zeroDepth {wantsArgs : Bool} {ps : List Parameter} :
      Faulty batched (parameters batched ⟨wantsArgs, none⟩ ++ .selection 0 :: ps) .zeroDepth
  | unexpected {s : Signature} {p : Parameter} {ps : List Parameter} (hs : s.Reaches)
      (hp : ¬ s.Admits p) : Faulty batched (s.parameters batched ++ p :: ps) (.unexpected p)

theorem regular_iff {batched : Bool} {ps : List Parameter} :
    Parameter.Regular batched ps ↔ ∃ s : Signature, s.Reaches ∧ ps = s.parameters batched := by
  constructor
  · rintro ⟨args, selection, hargs, hselection, rfl⟩
    have hnone : ∀ wantsArgs, (⟨wantsArgs, none⟩ : Signature).Reaches := fun _ depth h => by cases h
    have hsome : ∀ wantsArgs depth, 1 ≤ depth → (⟨wantsArgs, some depth⟩ : Signature).Reaches := by
      intro wantsArgs depth hdepth depth' h
      cases h
      exact hdepth
    rcases hargs with rfl | rfl <;> rcases hselection with rfl | ⟨depth, hdepth, rfl⟩
    · exact ⟨⟨false, none⟩, hnone false, rfl⟩
    · exact ⟨⟨false, some depth⟩, hsome false depth hdepth, rfl⟩
    · exact ⟨⟨true, none⟩, hnone true, rfl⟩
    · exact ⟨⟨true, some depth⟩, hsome true depth hdepth, rfl⟩
  · rintro ⟨⟨wantsArgs, selection⟩, hs, rfl⟩
    refine ⟨_, _, ?_, ?_, rfl⟩
    · cases wantsArgs <;> simp
    · cases selection with
      | none => exact Or.inl rfl
      | some depth => exact Or.inr ⟨depth, hs depth rfl, rfl⟩

theorem parameters_append (batched : Bool) (s : Signature) (ps : List Parameter) :
    s.parameters batched ++ ps = .ofSource batched ::
      ((if s.wantsArgs then [.arguments] else []) ++
        ((s.selection.map .selection).toList ++ ps)) := by
  unfold parameters
  rw [List.cons_append, List.append_assoc]

theorem arguments_mem_parameters {batched : Bool} {s : Signature} :
    .arguments ∈ s.parameters batched ↔ s.wantsArgs = true := by
  obtain ⟨wantsArgs, selection⟩ := s
  cases batched <;> cases wantsArgs <;> cases selection <;> simp [parameters, Parameter.ofSource]

theorem selection_mem_parameters {batched : Bool} {s : Signature} {depth : Nat} :
    .selection depth ∈ s.parameters batched ↔ s.selection = some depth := by
  obtain ⟨wantsArgs, selection⟩ := s
  cases batched <;> cases wantsArgs <;> cases selection <;>
    simp [parameters, Parameter.ofSource, eq_comm]

/-! ### reading -/

theorem takeSource_ofSource (batched : Bool) (ps : List Parameter) :
    takeSource batched (.ofSource batched :: ps) = .ok ps := if_pos rfl

theorem takeArgs_append {wantsArgs : Bool} {ps : List Parameter}
    (h : wantsArgs = false → ps.head? ≠ some .arguments) :
    takeArgs ((if wantsArgs then [.arguments] else []) ++ ps) = (wantsArgs, ps) := by
  cases wantsArgs with
  | true => rfl
  | false =>
    cases ps with
    | nil => rfl
    | cons p ps =>
      cases p with
      | arguments => exact absurd rfl (h rfl)
      | _ => rfl

theorem takeSelection_append {selection : Option Nat} {ps : List Parameter}
    (hreach : ∀ depth, selection = some depth → 1 ≤ depth)
    (h : selection = none → ∀ depth, ps.head? ≠ some (.selection depth)) :
    takeSelection ((selection.map .selection).toList ++ ps) = .ok (selection, ps) := by
  cases selection with
  | some depth => exact if_neg (Nat.one_le_iff_ne_zero.mp (hreach depth rfl))
  | none =>
    cases ps with
    | nil => rfl
    | cons p ps =>
      cases p with
      | selection depth => exact absurd rfl (h rfl depth)
      | _ => rfl

/-- after the parameters of a signature nothing may come that is not admitted. -/
theorem ofParameters_append {batched : Bool} {s : Signature} {ps : List Parameter}
    (hs : s.Reaches) (hps : ∀ p, ps.head? = some p → ¬ s.Admits p) :
    ofParameters batched (s.parameters batched ++ ps) =
      match ps with
      | [] => .ok s
      | p :: _ => .error (.unexpected p) := by
  have hargs : s.wantsArgs = false →
      ((s.selection.map Parameter.selection).toList ++ ps).head? ≠ some .arguments := by
    intro hwants hhead
    cases hselection : s.selection with
    | none =>
      rw [hselection] at hhead
      exact hps .arguments hhead ⟨hwants, hselection⟩
    | some depth =>
      rw [hselection] at hhead
      cases hhead
  have hselection : s.selection = none → ∀ depth, ps.head? ≠ some (.selection depth) :=
    fun hnone depth hhead => hps (.selection depth) hhead hnone
  unfold ofParameters
  rw [parameters_append, takeSource_ofSource]
  simp only [bind, Except.bind, takeArgs_append hargs, takeSelection_append hs hselection]
  cases ps with
  | nil => rfl
  | cons p ps => rfl

theorem ofParameters_zeroDepth (batched wantsArgs : Bool) (ps : List Parameter) :
    ofParameters batched (parameters batched ⟨wantsArgs, none⟩ ++ .selection 0 :: ps)
      = .error .zeroDepth := by
  have hargs : wantsArgs = false → (.selection 0 :: ps).head? ≠ some Parameter.arguments :=
    fun _ hhead => by cases hhead
  unfold ofParameters
  rw [parameters_append, takeSource_ofSource, Option.map_none, Option.toList_none,
    List.nil_append]
  simp only [bind, Except.bind, takeArgs_append hargs]
  rfl

theorem ofParameters_parameters (batched : Bool) {s : Signature} (hs : s.Reaches) :
    ofParameters batched (s.parameters batched) = .ok s := by
  have h : ofParameters batched (s.parameters batched ++ []) = .ok s :=
    ofParameters_append hs fun p hp => by cases hp
  rw [List.append_nil] at h
  exact h

theorem ofParameters_of_faulty {batched : Bool} {ps : List Parameter} {fault : SignatureFault}
    (h : Faulty batched ps fault) : ofParameters batched ps = .error fault := by
  cases h with
  | empty => rfl
  | @noSource p ps hset hone =>
    have hnone : takeSource batched (p :: ps) = .error (.noSource batched) := by
      cases batched <;> simp [takeSource, Parameter.ofSource, hset, hone]
    unfold ofParameters
    rw [hnone]
    rfl
  | otherSource => cases batched <;> rfl
  | zeroDepth => exact ofParameters_zeroDepth batched _ _
  | unexpected hs hp =>
    refine ofParameters_append hs fun q hq => ?_
    cases hq
    exact hp

/-! ### every list -/

theorem exists_args (ps : List Parameter) :
    ∃ wantsArgs rest, ps = (if wantsArgs then [.arguments] else []) ++ rest ∧
      (wantsArgs = false → rest.head? ≠ some .arguments) := by
  by_cases h : ps.head? = some .arguments
  · obtain ⟨rest, hrest⟩ := List.head?_eq_some_iff.mp h
    exact ⟨true, rest, hrest, fun hfalse => by cases hfalse⟩
  · exact ⟨false, ps, rfl, fun _ => h⟩

/-- a list of parameters declares a signature, or something is wrong with it. -/
theorem declares_or_faulty (batched : Bool) (ps : List Parameter) :
    (∃ s : Signature, s.Reaches ∧ ps = s.parameters batched) ∨
      ∃ fault, Faulty batched ps fault := by
  cases ps with
  | nil => exact Or.inr ⟨_, .empty⟩
  | cons p ps =>
    by_cases hsource : p = .ofSource batched
    · subst hsource
      obtain ⟨wantsArgs, rest, rfl, hargs⟩ := exists_args ps
      have hnone : (⟨wantsArgs, none⟩ : Signature).Reaches := fun depth h => by cases h
      have hunexpected : ∀ selection q qs, (⟨wantsArgs, selection⟩ : Signature).Reaches →
          ¬ (⟨wantsArgs, selection⟩ : Signature).Admits q → ∃ fault, Faulty batched
            (.ofSource batched :: ((if wantsArgs then [.arguments] else []) ++
              ((selection.map .selection).toList ++ q :: qs))) fault := by
        intro selection q qs hreaches hrefused
        rw [← parameters_append batched ⟨wantsArgs, selection⟩]
        exact ⟨_, .unexpected hreaches hrefused⟩
      cases rest with
      | nil => exact Or.inl ⟨⟨wantsArgs, none⟩, hnone, rfl⟩
      | cons q qs =>
        cases q with
        | sources => exact Or.inr (hunexpected none .sources qs hnone fun h => h)
        | source => exact Or.inr (hunexpected none .source qs hnone fun h => h)
        | arguments => exact Or.inr (hunexpected none .arguments qs hnone fun h => hargs h.1 rfl)
        | selection depth =>
          by_cases hdepth : depth = 0
          · have hzero : Faulty batched
                (parameters batched ⟨wantsArgs, none⟩ ++ .selection 0 :: qs) .zeroDepth := .zeroDepth
            rw [parameters_append] at hzero
            rw [hdepth]
            exact Or.inr ⟨_, hzero⟩
          · have hsome : (⟨wantsArgs, some depth⟩ : Signature).Reaches := by
              intro depth' h
              cases h
              omega
            cases qs with
            | nil => exact Or.inl ⟨⟨wantsArgs, some depth⟩, hsome, rfl⟩
            | cons r rs =>
              have hrefused : ¬ (⟨wantsArgs, some depth⟩ : Signature).Admits r := by
                cases r <;> simp [Admits]
              exact Or.inr (hunexpected (some depth) r rs hsome hrefused)
    · by_cases hother : p = .ofSource (!batched)
      · subst hother
        exact Or.inr ⟨_, .otherSource⟩
      · refine Or.inr ⟨_, .noSource ?_ ?_⟩
        · rintro rfl
          cases batched
          · exact hother rfl
          · exact hsource rfl
        · rintro rfl
          cases batched
          · exact hsource rfl
          · exact hother rfl

/-- **Just the lists that declare a signature are read**, each as its own. -/
theorem ofParameters_eq_ok_iff {batched : Bool} {ps : List Parameter} {s : Signature} :
    ofParameters batched ps = .ok s ↔ s.Reaches ∧ ps = s.parameters batched := by
  constructor
  · intro h
    rcases declares_or_faulty batched ps with ⟨t, ht, rfl⟩ | ⟨fault, hfault⟩
    · rw [ofParameters_parameters batched ht] at h
      cases h
      exact ⟨ht, rfl⟩
    · rw [ofParameters_of_faulty hfault] at h
      cases h
  · rintro ⟨hs, rfl⟩
    exact ofParameters_parameters batched hs

/-- **Of any other list its fault is reported.** -/
theorem ofParameters_eq_error_iff {batched : Bool} {ps : List Parameter} {fault : SignatureFault} :
    ofParameters batched ps = .error fault ↔ Faulty batched ps fault := by
  refine ⟨fun h => ?_, ofParameters_of_faulty⟩
  rcases declares_or_faulty batched ps with ⟨t, ht, rfl⟩ | ⟨fault', hfault⟩
  · rw [ofParameters_parameters batched ht] at h
    cases h
  · rw [ofParameters_of_faulty hfault] at h
    cases h
    exact hfault

end Signature
end Batchwise
