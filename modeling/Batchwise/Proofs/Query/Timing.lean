import Batchwise.Proofs.Batch.Timing
import Batchwise.Proofs.Query.Traversal

/-!
# Responses and the time that calls take

Two registries whose functions come back with the same, each in its own time, give the same
response to every query, whatever the rounds in which it is looked at and however many groups may
be out at a time: a field has its slot before its call is made, and what it comes to depends on the
calls of its level alone.

* `Resolver.Retimed`, `Declaration.Retimed`, `Registry.Retimed`   the same but for the time at which
                         calls come back: `Registry.Retimed.build`;
* `Level.sharedOutcome_retimed`, `Query.placement_resolveLevels`   levels and queries;
* `Query.timing_does_not_show`   responses, and the ticks of batchers.
-/

set_option linter.unusedSectionVars false

namespace Batchwise

variable {S C : Type} [DecidableEq S] [DecidableEq C]

/-! ### other times -/

/-- the same function but for the time at which its calls come back. -/
inductive Resolver.Retimed : Resolver S C → Resolver S C → Prop
  | batched (shape : Shape) {run run' : Call (List S) C → Deferred (BatchOutcome S)}
      (h : ∀ call, (run' call).value = (run call).value) :
      Retimed (.batched shape run) (.batched shape run')
  | simple (shape : Shape) {run run' : Call S C → Deferred (SimpleOutcome S)}
      (h : ∀ call, (run' call).value = (run call).value) :
      Retimed (.simple shape run) (.simple shape run')

structure Declaration.Retimed (d d' : Declaration S C) : Prop where
  typeName_eq : d'.typeName = d.typeName
  fieldName_eq : d'.fieldName = d.fieldName
  parameters_eq : d'.parameters = d.parameters
  resolver : d.resolver.Retimed d'.resolver

structure Binding.Retimed (b b' : Binding S C) : Prop where
  id_eq : b'.id = b.id
  typeName_eq : b'.typeName = b.typeName
  fieldName_eq : b'.fieldName = b.fieldName
  signature_eq : b'.signature = b.signature
  resolver : b.resolver.Retimed b'.resolver

/-- the same registry but for the time at which calls come back and the bound on groups. -/
structure Registry.Retimed (r r' : Registry S C) : Prop where
  bindings : List.Forall₂ Binding.Retimed r.bindings r'.bindings
  index_eq : r'.index = r.index
  depth_eq : r'.settings.queryDepthLimit = r.settings.queryDepthLimit

theorem Resolver.Retimed.shape_eq {f f' : Resolver S C} (h : f.Retimed f') :
    f'.shape = f.shape ∧ f'.isBatched = f.isBatched := by
  cases h <;> exact ⟨rfl, rfl⟩

theorem Declaration.Retimed.bind {d d' : Declaration S C} (h : d.Retimed d') {id : Nat}
    {b : Binding S C} (hb : d.bind id = .ok b) : ∃ b', d'.bind id = .ok b' ∧ b.Retimed b' := by
  obtain ⟨hshape, hbatched⟩ := h.resolver.shape_eq
  unfold Declaration.bind at hb ⊢
  rw [h.typeName_eq, h.fieldName_eq, h.parameters_eq, hshape, hbatched]
  split at hb
  · cases hb
  · rename_i hnames
    rw [if_neg hnames]
    split at hb
    · cases hb
    · split at hb
      · rename_i hfits
        cases hb
        rw [if_pos hfits]
        exact ⟨_, rfl, rfl, rfl, rfl, rfl, h.resolver⟩
      · cases hb

namespace Registry.Retimed

variable {r r' : Registry S C}

theorem add (h : r.Retimed r') {d d' : Declaration S C} (hd : d.Retimed d') {r₁ : Registry S C}
    (hadd : r.add d = .ok r₁) : ∃ r₁', r'.add d' = .ok r₁' ∧ r₁.Retimed r₁' := by
  unfold Registry.add at hadd ⊢
  rw [← h.bindings.length_eq]
  split at hadd
  · cases hadd
  · rename_i b hb
    obtain ⟨b', hb', hretimed⟩ := hd.bind hb
    rw [hb']
    dsimp only at hadd ⊢
    rw [h.index_eq, hretimed.typeName_eq, hretimed.fieldName_eq, hretimed.id_eq]
    split at hadd
    · cases hadd
    · rename_i hnew
      cases hadd
      rw [if_neg hnew]
      exact ⟨_, rfl, List.rel_append h.bindings (.cons hretimed .nil), rfl, h.depth_eq⟩

theorem addAll (h : r.Retimed r') {ds ds' : List (Declaration S C)}
    (hds : List.Forall₂ Declaration.Retimed ds ds') {r₁ : Registry S C}
    (hadd : Registry.addAll r ds = .ok r₁) :
    ∃ r₁', Registry.addAll r' ds' = .ok r₁' ∧ r₁.Retimed r₁' := by
  induction hds generalizing r r' with
  | nil =>
    cases hadd
    exact ⟨r', rfl, h⟩
  | cons hd _ ih =>
    rw [Registry.addAll] at hadd
    split at hadd
    · cases hadd
    · rename_i r₂ hr₂
      obtain ⟨r₂', hr₂', h₂⟩ := h.add hd hr₂
      rw [Registry.addAll, hr₂']
      exact ih h₂ hadd

theorem build {settings : Settings} {ds ds' : List (Declaration S C)} (limit : Option Nat)
    (hds : List.Forall₂ Declaration.Retimed ds ds') (hr : Registry.build settings ds = .ok r) :
    ∃ r', Registry.build { settings with maxConcurrentGroups := limit } ds' = .ok r' ∧
      r.Retimed r' := by
  have hempty : (Registry.empty settings : Registry S C).Retimed
      (.empty { settings with maxConcurrentGroups := limit }) := ⟨.nil, rfl, rfl⟩
  exact hempty.addAll hds hr

theorem getElem?_rel {A B : Type} {R : A → B → Prop} {as : List A} {bs : List B}
    (h : List.Forall₂ R as bs) (n : Nat) : Option.Rel R as[n]? bs[n]? := by
  induction h generalizing n with
  | nil => exact .none
  | cons hab _ ih =>
    cases n with
    | zero => exact .some hab
    | succ n => exact ih n

theorem lookup? (h : r.Retimed r') (typeName fieldName : String) :
    Option.Rel Binding.Retimed (r.lookup? typeName fieldName)
      (r'.lookup? typeName fieldName) := by
  unfold Registry.lookup?
  rw [h.index_eq]
  cases r.index.find? typeName with
  | none => exact .none
  | some fields =>
    cases hid : fields.find? fieldName with
    | none =>
      show Option.Rel _ ((fields.find? fieldName).bind _) ((fields.find? fieldName).bind _)
      rw [hid]
      exact .none
    | some id =>
      show Option.Rel _ ((fields.find? fieldName).bind _) ((fields.find? fieldName).bind _)
      rw [hid]
      exact getElem?_rel h.bindings id

end Registry.Retimed

/-! ### levels -/

namespace Level

variable {world : World S} {registry registry' : Registry S C} {context : C}

theorem boundTo_retimed (h : registry.Retimed registry') (n : Nat) (ts : List (FieldTask S)) :
    boundTo world registry' n ts = boundTo world registry n ts := by
  refine List.filter_congr fun t _ => ?_
  have hbinding : Option.Rel Binding.Retimed (bindingOf world registry t)
      (bindingOf world registry' t) := h.lookup? _ _
  generalize bindingOf world registry t = found at hbinding
  generalize bindingOf world registry' t = found' at hbinding
  cases hbinding with
  | none => rfl
  | some hb => rw [Option.map_some, Option.map_some, hb.id_eq]

/-- **What becomes of the fields of a level** does not depend on time. -/
theorem sharedOutcome_retimed (h : registry.Retimed registry') (ts : List (FieldTask S))
    (t : FieldTask S) : sharedOutcome world registry' context ts t
      = sharedOutcome world registry context ts t := by
  have hbinding : Option.Rel Binding.Retimed (bindingOf world registry t)
      (bindingOf world registry' t) := h.lookup? _ _
  unfold sharedOutcome
  generalize bindingOf world registry t = found at hbinding
  generalize bindingOf world registry' t = found' at hbinding
  cases hbinding with
  | none => rfl
  | @some b b' hb =>
    obtain ⟨id, typeName, fieldName, parameters, signature, resolver⟩ := b
    obtain ⟨id', typeName', fieldName', parameters', signature', resolver'⟩ := b'
    obtain ⟨rfl, rfl, rfl, rfl, hresolver⟩ := hb
    dsimp only at hresolver ⊢
    cases hresolver with
    | batched shape hvalue =>
      dsimp only
      rw [boundTo_retimed h, hvalue]
      rfl
    | simple shape hvalue =>
      dsimp only
      rw [hvalue]
      rfl

end Level

/-! ### queries -/

namespace Query

/-- **Levels place the same**, in whatever rounds and whatever time their calls take. -/
theorem placement_resolveLevels {registry registry' : Registry S C} (hr : registry.Sound)
    (hr' : registry'.Sound) (h : registry.Retimed registry') (world : World S) (context : C)
    (schedule schedule' : Schedule) (left number : Nat) {s s' : State S C}
    (hs : s.execution.Each registry fun service b => b.Idle service)
    (hs' : s'.execution.Each registry' fun service b => b.Idle service)
    (hplacement : s'.placement = s.placement) :
    (resolveLevels world registry' context schedule' left number s').placement
      = (resolveLevels world registry context schedule left number s).placement := by
  induction left generalizing number s s' with
  | zero => exact hplacement
  | succ left ih =>
    rw [resolveLevels, resolveLevels, hplacement]
    split
    · exact hplacement
    · obtain ⟨hidle, houtcomes⟩ :=
        Level.outcomes_run world context hr hs (schedule number) s.placement.tasks
      obtain ⟨hidle', houtcomes'⟩ :=
        Level.outcomes_run world context hr' hs' (schedule' number) s'.placement.tasks
      refine ih (number + 1) hidle hidle' ?_
      unfold resolveLevel
      dsimp only
      rw [houtcomes, houtcomes', hplacement]
      exact congrArg (fun outcomes => Placement.placeAll s.placement.tasks outcomes _)
        (List.map_congr_left fun t _ => Level.sharedOutcome_retimed h s.placement.tasks t)

/-- **The time that calls take does not show.**  Where the outcome of a call depends on the call
alone:
* whatever time the calls of a registry take, in whatever rounds they are looked at and however many
  groups may be out at a time, every query has the same response, or is refused with the same
  error;
* after submissions and dispatches in one order, whatever else happened between them, a batcher has
  the same calls pending; their dispatch can return, and while it has not, opening every gate lets
  it; and whenever it returns, its result and the results of all its calls are the same. -/
theorem timing_does_not_show {settings : Settings} {ds ds' : List (Declaration S C)}
    {registry : Registry S C} (hr : Registry.build settings ds = .ok registry)
    (hds : List.Forall₂ Declaration.Retimed ds ds') (maxConcurrentGroups : Option Nat) :
    (∃ registry',
      Registry.build { settings with maxConcurrentGroups := maxConcurrentGroups } ds'
        = .ok registry' ∧
      ∀ (world : World S) (schedule schedule' : Schedule) (root : S) (fields : List Field)
        (context : C),
        (execute world registry' schedule' root fields context).map Resolved.response
          = (execute world registry schedule root fields context).map Resolved.response) ∧
    ∀ (s s' : Service S C), s.Retimed s' → ∀ (limit limit' : Option Nat) (ms ms' : List (Move S C)),
      (∀ m ∈ ms, m.Steady s) → (∀ m ∈ ms', m.Steady s') →
      ms.filter Move.fills = ms'.filter Move.fills →
      let b := (Batcher.new limit s).run ms
      let b' := (Batcher.new limit' s').run ms'
      b.intake = b'.intake ∧ (∃ result b₁, b.Returns s result b₁) ∧
      (∀ ns number, (b.run ns).tick? number ≠ none →
        ∃ summary, ((b.run ns).poll (fun _ => true) number).dispatch = .ended (.ok summary)) ∧
      ∀ result b₁ result' b₁', b.Returns s result b₁ → b'.Returns s' result' b₁' →
        result = result' ∧ ∀ e ∈ b.pending.entries,
          ∃ r, b₁.result? e.2.ticket = some r ∧ b₁'.result? e.2.ticket = some r := by
  refine ⟨?_, fun s s' hs limit limit' ms ms' hms hms' hfills =>
    Batcher.returns_alike hs limit limit' hms hms' hfills⟩
  obtain ⟨registry', hr', h⟩ := Registry.Retimed.build maxConcurrentGroups hds hr
  refine ⟨registry', hr', fun world schedule schedule' root fields context => ?_⟩
  have hsound := Registry.sound_build hr
  have hsound' := Registry.sound_build hr'
  have hplacement : (resolveLevels world registry' context schedule' (Field.levels fields) 1
        (begin registry' root fields)).placement
      = (resolveLevels world registry context schedule (Field.levels fields) 1
        (begin registry root fields)).placement :=
    placement_resolveLevels hsound hsound' h world context schedule schedule' _ 1
      (Execution.each_ofRegistry hsound) (Execution.each_ofRegistry hsound') rfl
  unfold execute
  rw [h.depth_eq]
  dsimp only
  split
  · rfl
  · show Except.ok _ = Except.ok _
    dsimp only
    rw [hplacement]

/-- the author of each post, whose call waits at some gates, and its number, whose call waits at
others. -/
def posts (first second : List Gate) : List (Declaration Nat Unit) :=
  [.plain "Post" "author" (.batched ⟨false, false⟩ fun call =>
      ⟨first, .ok (Table.ofList (call.input.map fun n => (n, .object (n / 10))))⟩),
    .plain "Post" "number" (.simple ⟨false, false⟩ fun call =>
      ⟨second, .ok (.scalar (.number (.int call.input)))⟩)]

/-- the same halves, but later. -/
def lateHalves : Service Nat Unit :=
  { Batcher.halves with run := fun call => ⟨["late"], (Batcher.halves.run call).value⟩ }

/-- the author comes last and stands first; and a tick that waits gives what one gives that does
not. -/
theorem timing_does_not_show_of_slow_author :
    (∃ registry, Registry.build { Settings.default with maxConcurrentGroups := some 0 }
        (posts ["author"] ["number"]) = .ok registry ∧
      (execute blog registry (fun _ => [fun gate => gate == "number"]) 10
          [⟨none, "author", .empty, []⟩, ⟨none, "number", .empty, []⟩] ()).map Resolved.response
        = .ok ⟨.object [("author", .object []), ("number", .number (.int 10))], []⟩) ∧
    let ms : List (Move Nat Unit) := [.submit 4 .empty [] (), .submit 3 .empty [] ()]
    let b := (Batcher.new none Batcher.halves).run ms
    let b' := (Batcher.new (some 1) lateHalves).run ms
    let ended := b.beginTick.batcher.poll (fun _ => false) 0
    let ended' := (b'.beginTick.batcher.run [.poll (fun _ => false) 0]).poll (fun _ => true) 0
    ∃ r, ended.batcher.result? 1 = some r ∧ ended'.batcher.result? 1 = some r := by
  have hbuild : ∃ registry, Registry.build Settings.default (posts [] []) = .ok registry :=
    ⟨_, rfl⟩
  obtain ⟨registry, hr⟩ := hbuild
  have hposts : List.Forall₂ Declaration.Retimed (posts [] []) (posts ["author"] ["number"]) :=
    .cons ⟨rfl, rfl, rfl, .batched _ fun _ => rfl⟩
      (.cons ⟨rfl, rfl, rfl, .simple _ fun _ => rfl⟩ .nil)
  obtain ⟨⟨registry', hr', hresponse⟩, hticks⟩ := timing_does_not_show hr hposts (some 0)
  constructor
  · refine ⟨registry', hr', (hresponse blog Schedule.immediate _ 10 _ ()).trans ?_⟩
    cases hr
    rfl
  · intro ms b b' ended ended'
    have hlate : Batcher.halves.Retimed lateHalves := ⟨rfl, rfl, rfl, rfl, fun _ => rfl⟩
    have hsteady : ∀ (s : Service Nat Unit), ∀ m ∈ ms, m.Steady s := by
      intro s m hm
      rcases List.mem_cons.mp hm with rfl | hm
      · trivial
      · rw [List.mem_singleton.mp hm]
        trivial
    obtain ⟨_, _, _, halike⟩ := hticks _ _ hlate none (some 1) ms ms (hsteady _) (hsteady _) rfl
    have hkept : .drop 0 ∉ ([] : List (Move Nat Unit)) := List.not_mem_nil
    have hat : b.Returns Batcher.halves (.ok ⟨0, 2, 1, 0⟩) ended.batcher :=
      .later rfl (fun _ hm => by cases hm) hkept rfl
    have hlater : b'.Returns lateHalves (.ok ⟨0, 2, 1, 0⟩) ended'.batcher := by
      refine .later rfl (fun m hm => ?_) (fun hm => ?_) rfl
      · rw [List.mem_singleton.mp hm]
        trivial
      · cases List.mem_singleton.mp hm
    have hmem : ((⟨3, none, none, ()⟩, ⟨.empty, none, 1⟩) : Key Nat Unit × Pending) ∈
        b.pending.entries := List.mem_cons_of_mem _ List.mem_cons_self
    exact (halike _ _ _ _ hat hlater).2 _ hmem

end Query
end Batchwise
