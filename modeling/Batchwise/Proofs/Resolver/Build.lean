import Batchwise.Proofs.Registry
import Batchwise.Proofs.Table
import Batchwise.Proofs.Resolver.Signature

/-!
# Which declarations are accepted

A list of declarations makes a registry if each of them is in order by itself and no two bind one
field.  Otherwise the first that is not in order, or binds a field bound before it, is reported.

* `Declaration.InOrder`   names, parameters and function are in order;
* `Declaration.Refused`   what is reported of a declaration after others;
* `Declaration.Derived`   declarations whose parameters are derived from the function;
* `Registry.Indexes`      the index knows the fields bound so far: kept by `add_of_inOrder`;
* `Registry.build_checks_declarations`   what is built, and what is reported.
-/

namespace Batchwise

variable {S C : Type}

namespace Declaration

/-! ### declarations in order -/

/-- a type and a field are named. -/
def Named (d : Declaration S C) : Prop := d.typeName ≠ "" ∧ d.fieldName ≠ ""

/-- the function takes what is declared, and nothing else. -/
def Suits (d : Declaration S C) : Prop :=
  (d.resolver.shape.takesArgs = true ↔ .arguments ∈ d.parameters) ∧
  (d.resolver.shape.takesSelection = true ↔ ∃ depth, .selection depth ∈ d.parameters)

instance (d : Declaration S C) : Decidable d.Named := inferInstanceAs (Decidable (_ ∧ _))

structure InOrder (d : Declaration S C) : Prop where
  named : d.Named
  regular : Parameter.Regular d.resolver.isBatched d.parameters
  suits : d.Suits

/-- two declarations bind different fields: the names of types are compared, and those of fields. -/
def Different (c d : Declaration S C) : Prop := c.typeName ≠ d.typeName ∨ c.fieldName ≠ d.fieldName

instance (c d : Declaration S C) : Decidable (c.Different d) :=
  inferInstanceAs (Decidable (_ ∨ _))

/-- what is wrong with a declaration by itself. -/
inductive Broken (d : Declaration S C) : DeclarationError → Prop
  | emptyName (h : ¬ d.Named) : Broken d (.emptyName d.typeName d.fieldName)
  | unsupported {fault : SignatureFault} (hnamed : d.Named)
      (h : Signature.Faulty d.resolver.isBatched d.parameters fault) :
      Broken d (.unsupported d.typeName d.fieldName d.parameters fault)
  | mismatch (hnamed : d.Named) (hregular : Parameter.Regular d.resolver.isBatched d.parameters)
      (h : ¬ d.Suits) : Broken d (.mismatch d.typeName d.fieldName d.parameters d.resolver.shape)

/-- what is wrong with a declaration after others: it is broken, or its field is bound. -/
inductive Refused (before : List (Declaration S C)) (d : Declaration S C) : DeclarationError → Prop
  | broken {e : DeclarationError} (h : d.Broken e) : Refused before d e
  | duplicate {c : Declaration S C} (h : d.InOrder) (hc : c ∈ before) (hsame : ¬ c.Different d) :
      Refused before d (.duplicate d.typeName d.fieldName)

theorem different_iff {c d : Declaration S C} :
    ¬ c.Different d ↔ c.typeName = d.typeName ∧ c.fieldName = d.fieldName := by
  unfold Different
  rw [not_or, not_not, not_not]

theorem suits_iff {d : Declaration S C} {s : Signature}
    (h : d.parameters = s.parameters d.resolver.isBatched) :
    s.fits d.resolver.shape = true ↔ d.Suits := by
  have hselection : (∃ depth, .selection depth ∈ d.parameters) ↔ s.selection.isSome = true := by
    rw [h, Option.isSome_iff_exists]
    exact exists_congr fun depth => Signature.selection_mem_parameters
  have hargs : .arguments ∈ d.parameters ↔ s.wantsArgs = true := by
    rw [h]
    exact Signature.arguments_mem_parameters
  unfold Suits Signature.fits
  rw [hselection, hargs, Bool.and_eq_true, beq_iff_eq, beq_iff_eq]
  exact and_congr Bool.eq_iff_iff Bool.eq_iff_iff

theorem bind_of_inOrder {d : Declaration S C} (h : d.InOrder) (id : Nat) :
    ∃ b, d.bind id = .ok b ∧ b.typeName = d.typeName ∧ b.fieldName = d.fieldName := by
  obtain ⟨s, hs, hparameters⟩ := Signature.regular_iff.mp h.regular
  have hread : Signature.ofParameters d.resolver.isBatched d.parameters = .ok s :=
    Signature.ofParameters_eq_ok_iff.mpr ⟨hs, hparameters⟩
  have hfits := (suits_iff hparameters).mpr h.suits
  unfold bind
  rw [if_neg (not_or.mpr h.named), hread]
  dsimp only
  rw [if_pos hfits]
  exact ⟨_, rfl, rfl, rfl⟩

theorem bind_of_broken {d : Declaration S C} {e : DeclarationError} (h : d.Broken e) (id : Nat) :
    d.bind id = .error e := by
  unfold bind
  cases h with
  | emptyName h =>
    unfold Named at h
    rw [not_and_or, not_not, not_not] at h
    exact if_pos h
  | unsupported hnamed h =>
    rw [if_neg (not_or.mpr hnamed), Signature.ofParameters_eq_error_iff.mpr h]
  | mismatch hnamed hregular h =>
    obtain ⟨s, hs, hparameters⟩ := Signature.regular_iff.mp hregular
    have hread : Signature.ofParameters d.resolver.isBatched d.parameters = .ok s :=
      Signature.ofParameters_eq_ok_iff.mpr ⟨hs, hparameters⟩
    rw [if_neg (not_or.mpr hnamed), hread]
    exact if_neg fun hfits => h ((suits_iff hparameters).mp hfits)

theorem inOrder_or_broken (d : Declaration S C) : d.InOrder ∨ ∃ e, d.Broken e := by
  by_cases hnamed : d.Named
  · rcases Signature.declares_or_faulty d.resolver.isBatched d.parameters with hs | ⟨fault, hfault⟩
    · have hregular := Signature.regular_iff.mpr hs
      by_cases hsuits : d.Suits
      · exact Or.inl ⟨hnamed, hregular, hsuits⟩
      · exact Or.inr ⟨_, .mismatch hnamed hregular hsuits⟩
    · exact Or.inr ⟨_, .unsupported hnamed hfault⟩
  · exact Or.inr ⟨_, .emptyName hnamed⟩

/-! ### derived parameters -/

/-- the declarations that are made without listing parameters: each way to make one has functions
of one shape, and a selection is as deep as it says or as the settings say. -/
inductive Derived (settings : Settings) : Declaration S C → Prop
  | plain {typeName fieldName : String} {r : Resolver S C} (h : r.shape = ⟨false, false⟩) :
      Derived settings (.plain typeName fieldName r)
  | withArgs {typeName fieldName : String} {r : Resolver S C} (h : r.shape = ⟨true, false⟩) :
      Derived settings (.withArgs typeName fieldName r)
  | withSelection {typeName fieldName : String} {r : Resolver S C} (h : r.shape = ⟨false, true⟩) :
      Derived settings (.withSelection typeName fieldName settings.defaultSelectionDepth r)
  | withSelectionDepth {typeName fieldName : String} {r : Resolver S C} (depth : Nat)
      (h : r.shape = ⟨false, true⟩) : Derived settings (.withSelection typeName fieldName depth r)
  | withArgsAndSelection {typeName fieldName : String} {r : Resolver S C} (depth : Nat)
      (h : r.shape = ⟨true, true⟩) :
      Derived settings (.withArgsAndSelection typeName fieldName depth r)

namespace Derived

variable {settings : Settings} {d : Declaration S C}

/-- derived parameters are those of what the function takes, with the selection of some depth. -/
theorem parameters_eq (h : d.Derived settings) : ∃ s : Signature,
    d.parameters = s.parameters d.resolver.isBatched ∧ s.fits d.resolver.shape = true := by
  cases h with
  | plain h => exact ⟨⟨false, none⟩, rfl, by simp [Declaration.plain, Signature.fits, h]⟩
  | withArgs h => exact ⟨⟨true, none⟩, rfl, by simp [Declaration.withArgs, Signature.fits, h]⟩
  | withSelection h =>
    exact ⟨⟨false, some _⟩, rfl, by simp [Declaration.withSelection, Signature.fits, h]⟩
  | withSelectionDepth depth h =>
    exact ⟨⟨false, some depth⟩, rfl, by simp [Declaration.withSelection, Signature.fits, h]⟩
  | withArgsAndSelection depth h =>
    exact ⟨⟨true, some depth⟩, rfl, by simp [Declaration.withArgsAndSelection, Signature.fits, h]⟩

/-- a derived declaration is in order if it has names and a selection that is deep enough. -/
theorem inOrder (h : d.Derived settings) (hnamed : d.Named)
    (hdepth : .selection 0 ∉ d.parameters) : d.InOrder := by
  obtain ⟨s, hparameters, hfits⟩ := h.parameters_eq
  rw [hparameters, Signature.selection_mem_parameters] at hdepth
  have hreaches : s.Reaches := by
    intro depth hselection
    rcases Nat.eq_zero_or_pos depth with rfl | hpos
    · exact absurd hselection hdepth
    · exact hpos
  refine ⟨hnamed, ?_, (suits_iff hparameters).mp hfits⟩
  exact Signature.regular_iff.mpr ⟨s, hreaches, hparameters⟩

/-- the function of a derived declaration takes what is declared, and nothing is wrong with its
parameters but a selection that is not deep enough. -/
theorem refused (h : d.Derived settings) {before : List (Declaration S C)} {e : DeclarationError}
    (hrefused : d.Refused before e) : (∀ t f ps shape, e ≠ .mismatch t f ps shape) ∧
      ((∃ t f ps fault, e = .unsupported t f ps fault) → .selection 0 ∈ d.parameters) := by
  cases hrefused with
  | duplicate => simp
  | broken hbroken =>
    cases hbroken with
    | emptyName => simp
    | mismatch _ _ hsuits =>
      obtain ⟨s, hparameters, hfits⟩ := h.parameters_eq
      exact absurd ((suits_iff hparameters).mp hfits) hsuits
    | unsupported hnamed hfault =>
      refine ⟨by simp, fun _ => ?_⟩
      by_contra hdepth
      obtain ⟨b, hb, _⟩ := bind_of_inOrder (h.inOrder hnamed hdepth) 0
      rw [bind_of_broken (.unsupported hnamed hfault)] at hb
      cases hb

end Derived
end Declaration

namespace Registry

/-! ### one declaration after the other -/

/-- the index of a registry knows the fields of some declarations, and no other. -/
def Indexes (r : Registry S C) (ds : List (Declaration S C)) : Prop :=
  ∀ typeName fieldName, ((r.index.find? typeName).getD .empty).contains fieldName = true ↔
    ∃ d ∈ ds, d.typeName = typeName ∧ d.fieldName = fieldName

theorem indexes_empty (settings : Settings) : (empty settings : Registry S C).Indexes [] := by
  intro typeName fieldName
  simp [empty, Table.contains]

variable {r : Registry S C} {ds : List (Declaration S C)} {d : Declaration S C}

theorem add_of_inOrder (h : r.Indexes ds) (hd : d.InOrder) (hnew : ∀ c ∈ ds, c.Different d) :
    ∃ r', r.add d = .ok r' ∧ r'.Indexes (ds ++ [d]) := by
  obtain ⟨b, hb, htype, hfield⟩ := Declaration.bind_of_inOrder hd r.bindings.length
  have hfree : ((r.index.find? b.typeName).getD .empty).contains b.fieldName ≠ true := by
    rw [htype, hfield]
    intro hbound
    obtain ⟨c, hc, hsame⟩ := (h d.typeName d.fieldName).mp hbound
    exact absurd (hnew c hc) (Declaration.different_iff.mpr hsame)
  unfold add
  rw [hb]
  dsimp only
  rw [if_neg hfree]
  refine ⟨_, rfl, fun typeName fieldName => ?_⟩
  have hmem : (∃ c ∈ ds ++ [d], c.typeName = typeName ∧ c.fieldName = fieldName) ↔
      (d.typeName = typeName ∧ d.fieldName = fieldName) ∨
        ∃ c ∈ ds, c.typeName = typeName ∧ c.fieldName = fieldName := by
    simp only [List.mem_append, List.mem_singleton, or_and_right, exists_or, exists_eq_left]
    exact or_comm
  rw [hmem, ← h typeName fieldName, Table.find?_put, htype, hfield]
  by_cases htypes : d.typeName = typeName
  · subst htypes
    rw [if_pos rfl, Option.getD_some]
    unfold Table.contains
    rw [Table.find?_put]
    by_cases hfields : d.fieldName = fieldName
    · simp [hfields]
    · simp [hfields]
  · rw [if_neg htypes]
    simp [htypes]

theorem add_of_refused {e : DeclarationError} (h : r.Indexes ds) (hd : d.Refused ds e) :
    r.add d = .error e := by
  cases hd with
  | broken hbroken =>
    unfold add
    rw [Declaration.bind_of_broken hbroken]
  | @duplicate c hd hc hsame =>
    obtain ⟨b, hb, htype, hfield⟩ := Declaration.bind_of_inOrder hd r.bindings.length
    have hbound := (h d.typeName d.fieldName).mpr ⟨c, hc, Declaration.different_iff.mp hsame⟩
    unfold add
    rw [hb]
    dsimp only
    rw [htype, hfield, if_pos hbound]

theorem accepted_or_refused (ds : List (Declaration S C)) (d : Declaration S C) :
    (d.InOrder ∧ ∀ c ∈ ds, c.Different d) ∨ ∃ e, d.Refused ds e := by
  rcases d.inOrder_or_broken with hd | ⟨e, he⟩
  · by_cases hnew : ∀ c ∈ ds, c.Different d
    · exact Or.inl ⟨hd, hnew⟩
    · simp only [not_forall] at hnew
      obtain ⟨c, hc, hsame⟩ := hnew
      exact Or.inr ⟨_, .duplicate hd hc hsame⟩
  · exact Or.inr ⟨e, .broken he⟩

/-! ### a list of declarations -/

/-- all declarations are in order, and no two bind one field. -/
def Orderly (ds : List (Declaration S C)) : Prop :=
  (∀ d ∈ ds, d.InOrder) ∧ ds.Pairwise Declaration.Different

theorem orderly_concat :
    Orderly (ds ++ [d]) ↔ Orderly ds ∧ d.InOrder ∧ ∀ c ∈ ds, c.Different d := by
  unfold Orderly
  simp only [List.mem_append, List.mem_singleton, List.pairwise_append, List.pairwise_singleton,
    forall_eq, or_imp, forall_and, true_and]
  tauto

theorem addAll_append (r : Registry S C) (ds es : List (Declaration S C)) :
    addAll r (ds ++ es) = (addAll r ds).bind fun r' => addAll r' es := by
  induction ds generalizing r with
  | nil => rfl
  | cons d ds ih =>
    rw [List.cons_append, addAll, addAll]
    cases r.add d with
    | error e => rfl
    | ok r' => exact ih r'

theorem build_concat (settings : Settings) (ds : List (Declaration S C)) (d : Declaration S C) :
    build settings (ds ++ [d]) = (build settings ds).bind fun r => r.add d := by
  unfold build
  rw [addAll_append]
  refine congrArg (Except.bind (addAll (empty settings) ds)) (funext fun r => ?_)
  rw [addAll]
  cases r.add d with
  | error e => rfl
  | ok r' => rfl

/-- declarations in order are built, and the index knows their fields. -/
theorem build_of_orderly (settings : Settings) {ds : List (Declaration S C)} (h : Orderly ds) :
    ∃ r, build settings ds = .ok r ∧ r.Indexes ds := by
  induction ds using List.reverseRecOn with
  | nil => exact ⟨empty settings, rfl, indexes_empty settings⟩
  | append_singleton ds d ih =>
    obtain ⟨hds, hd, hnew⟩ := orderly_concat.mp h
    obtain ⟨r, hr, hindexes⟩ := ih hds
    obtain ⟨r', hadd, hindexes'⟩ := add_of_inOrder hindexes hd hnew
    refine ⟨r', ?_, hindexes'⟩
    rw [build_concat, hr]
    exact hadd

theorem build_of_refused (settings : Settings) {before after : List (Declaration S C)}
    {d : Declaration S C} {e : DeclarationError} (h : Orderly before) (hd : d.Refused before e) :
    build settings (before ++ d :: after) = .error e := by
  obtain ⟨r, hr, hindexes⟩ := build_of_orderly settings h
  unfold build at hr ⊢
  rw [addAll_append, hr]
  show addAll r (d :: after) = _
  rw [addAll, add_of_refused hindexes hd]

/-- a list of declarations is in order, or there is a first one that is refused. -/
theorem orderly_or_refused (ds : List (Declaration S C)) : Orderly ds ∨
    ∃ before d after e, ds = before ++ d :: after ∧ Orderly before ∧ d.Refused before e := by
  induction ds using List.reverseRecOn with
  | nil => exact Or.inl (by simp [Orderly])
  | append_singleton ds d ih =>
    rcases ih with hds | ⟨before, c, after, e, rfl, hbefore, hc⟩
    · rcases accepted_or_refused ds d with hd | ⟨e, he⟩
      · exact Or.inl (orderly_concat.mpr ⟨hds, hd⟩)
      · exact Or.inr ⟨ds, d, [], e, rfl, hds, he⟩
    · refine Or.inr ⟨before, c, after ++ [d], e, ?_, hbefore, hc⟩
      rw [List.append_assoc, List.cons_append]

/-- **Just the declarations in order are built.**  Whatever the settings, a list of declarations
makes a registry if and only if in each of them a type and a field are named, the parameters are
the source, then at most once the arguments, then at most once a selection at least one level deep,
and the function takes what is declared, and no two bind the same field of the same type.  If not,
what is reported is what is wrong with the first that is refused: an empty name, else its parameters,
else its function, else that its field is bound.  A declaration whose parameters are derived is never
refused for its function, and for its parameters only if its selection is no level deep. -/
theorem build_checks_declarations (settings : Settings) (ds : List (Declaration S C)) :
    ((∃ r, build settings ds = .ok r) ↔ Orderly ds) ∧
    (∀ e, build settings ds = .error e ↔ ∃ before d after, ds = before ++ d :: after ∧
      Orderly before ∧ d.Refused before e) ∧
    ∀ d : Declaration S C, d.Derived settings → ∀ before e, d.Refused before e →
      (∀ t f ps shape, e ≠ .mismatch t f ps shape) ∧
      ((∃ t f ps fault, e = .unsupported t f ps fault) → .selection 0 ∈ d.parameters) := by
  refine ⟨⟨?_, fun h => ?_⟩, fun e => ⟨fun h => ?_, ?_⟩, fun d hd before e => hd.refused⟩
  · rintro ⟨r, hr⟩
    rcases orderly_or_refused ds with hds | ⟨before, d, after, e, rfl, hbefore, hd⟩
    · exact hds
    · rw [build_of_refused settings hbefore hd] at hr
      cases hr
  · obtain ⟨r, hr, _⟩ := build_of_orderly settings h
    exact ⟨r, hr⟩
  · rcases orderly_or_refused ds with hds | ⟨before, d, after, e', rfl, hbefore, hd⟩
    · obtain ⟨r, hr, _⟩ := build_of_orderly settings hds
      rw [hr] at h
      cases h
    · rw [build_of_refused settings hbefore hd] at h
      cases h
      exact ⟨before, d, after, rfl, hbefore, hd⟩
  · rintro ⟨before, d, after, rfl, hbefore, hd⟩
    exact build_of_refused settings hbefore hd

/-- points within names are no clash, and a selection as deep as the settings say is refused where
they say 0. -/
theorem build_checks_declarations_of_points :
    let shallow : Settings := { Settings.default with defaultSelectionDepth := 0 }
    let null (shape : Shape) : Resolver Nat Unit := .simple shape fun _ => .ready (.ok .null)
    let inner : Declaration Nat Unit := .plain "Post.author" "name" (null ⟨false, false⟩)
    let outer : Declaration Nat Unit := .plain "Post" "author.name" (null ⟨false, false⟩)
    let blind : Declaration Nat Unit :=
      .withSelection "Post" "author" shallow.defaultSelectionDepth (null ⟨false, true⟩)
    qualifiedName inner.typeName inner.fieldName = qualifiedName outer.typeName outer.fieldName ∧
      (∃ r, build shallow [inner, outer] = .ok r) ∧
      build shallow [inner, blind, inner]
        = .error (.unsupported "Post" "author" [.source, .selection 0] .zeroDepth) := by
  intro shallow null inner outer blind
  have hderived : ∀ d ∈ [inner, outer], d.Derived shallow := by
    intro d hd
    simp only [List.mem_cons, List.not_mem_nil, or_false] at hd
    rcases hd with rfl | rfl
    · exact .plain rfl
    · exact .plain rfl
  have hinOrder : ∀ d ∈ [inner, outer], d.InOrder := by
    intro d hd
    refine (hderived d hd).inOrder ?_ ?_
    · revert d
      decide
    · revert d
      decide
  have hfault : Signature.Faulty false
      (Signature.parameters false ⟨false, none⟩ ++ .selection 0 :: []) .zeroDepth := .zeroDepth
  refine ⟨by decide, (build_checks_declarations shallow _).1.mpr ⟨hinOrder, ?_⟩, ?_⟩
  · exact List.pairwise_pair.mpr (by decide)
  · refine ((build_checks_declarations shallow _).2.1 _).mpr ⟨[inner], blind, [inner], rfl, ?_, ?_⟩
    · refine ⟨fun d hd => hinOrder d ?_, List.pairwise_singleton _ _⟩
      exact List.mem_cons.mpr (Or.inl (List.mem_singleton.mp hd))
    · exact .broken (.unsupported (by decide) hfault)

end Registry
end Batchwise
