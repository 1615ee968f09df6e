import Batchwise.Proofs.Batch.Calls
import Batchwise.Proofs.Query.DepthFirst

/-!
# One level of a query

Where batched functions act source by source, each field of a level comes to what it would have
come to on its own, however its call was shared and in whatever rounds the level was looked at.

* `BySource`            a batched function acts source by source;
* `ofShape_eq_call`     a function that fits its binding is called as the binding declares;
* `handed_eq_outcome`   then what the call of a group hands to one of its members is what a call
                        for that member alone would have;
* `Level.Replied`       a started field has its object's own value, waits for a call of its own, or
                        has a pending call of its own key;
* `Level.start_spec`    every field of the level is started so, and none lacks its batcher;
* `Level.Going`         while a level is looked at: its batchers are in flight, and its calls are
                        those of its start and those of the batchers;
* `Level.run_spec`      the outcomes of a level.
-/

set_option linter.unusedSectionVars false

namespace Batchwise

variable {S C : Type} [DecidableEq S] [DecidableEq C]

/-! ### source by source -/

/-- calls that differ in their input at most, where arguments count by their fingerprint. -/
structure Call.Alike {I C : Type} (c d : Call I C) : Prop where
  args : c.args.map Args.fingerprint = d.args.map Args.fingerprint
  selection : c.selection = d.selection
  context : c.context = d.context

/-- a batched function acts source by source: whether it fails and how does not depend on the
sources, and neither does what it answers, or not, for one of them. -/
structure BySource (run : Call (List S) C → Deferred (BatchOutcome S)) : Prop where
  failure : ∀ c d, c.Alike d → ∀ f, (run c).value = .error f → (run d).value = .error f
  answer : ∀ c d, c.Alike d → ∀ as bs, (run c).value = .ok as → (run d).value = .ok bs →
    ∀ source ∈ c.input, source ∈ d.input → as.find? source = bs.find? source

/-- every batched function of a registry acts source by source. -/
def Registry.BySource (r : Registry S C) : Prop :=
  ∀ b ∈ r.bindings, ∀ shape run, b.resolver = .batched shape run → Batchwise.BySource run

/-- a function that works out each answer on its own acts source by source. -/
theorem bySource_of_graph (answer : S → Answer S) :
    BySource fun call : Call (List S) C =>
      .ready (.ok (Table.ofList (call.input.map fun source => (source, answer source)))) := by
  refine ⟨fun c d _ f hf => (by cases hf), fun c d _ as bs has hbs source hc hd => ?_⟩
  cases has
  cases hbs
  rw [Table.find?_ofList_graph, Table.find?_ofList_graph, if_pos hc, if_pos hd]

theorem Call.Alike.symm {I : Type} {c d : Call I C} (h : c.Alike d) : d.Alike c :=
  ⟨h.args.symm, h.selection.symm, h.context.symm⟩

theorem BySource.handed_eq {s : Service S C} (hs : BySource s.run) {c d : Call (List S) C}
    (h : c.Alike d) {source : S} (hc : source ∈ c.input) (hd : source ∈ d.input) :
    s.handed (s.run c).value source = s.handed (s.run d).value source := by
  cases hvalue : (s.run c).value with
  | error f => rw [hs.failure c d h f hvalue]
  | ok as =>
    cases hvalue' : (s.run d).value with
    | error f =>
      have hfail := hs.failure d c h.symm f hvalue'
      rw [hvalue] at hfail
      cases hfail
    | ok bs => exact congrArg Except.ok (hs.answer c d h as bs hvalue hvalue' source hc hd)

/-- a function that fits its binding is called as the binding declares. -/
theorem ofShape_eq_call {I : Type} {b : Binding S C} {shape : Shape}
    (h : b.signature.fits shape = true) (input : I) (args : Args) (subfields : List Field)
    (context : C) : Call.ofShape shape input args (b.selectionOf subfields) context
      = DepthFirst.call b input args subfields context := by
  obtain ⟨hargs, hselection⟩ := Bool.and_eq_true_iff.mp h
  unfold Call.ofShape DepthFirst.call Binding.selectionOf
  rw [eq_of_beq hargs, eq_of_beq hselection]
  cases b.signature.selection with
  | none => rfl
  | some depth => rfl

/-- the call of a group is like a call for one of its members alone. -/
theorem alike_declaredCall {s : Service S C} {context : C}
    {calls : List (Key S C × Pending)} {g : Group S C} (hg : Serves s context calls g)
    {e : Key S C × Pending} (he : e ∈ calls) (hcall : s.Calls e) (hm : asMember e ∈ g.members)
    {source : S} {args : Args} {subfields : List Field}
    (hkey : e.1 = Key.ofCall s.binding.signature source args (s.binding.selectionOf subfields)
      context) :
    (g.call s context).Alike (DepthFirst.call s.binding [source] args subfields context) := by
  -- the field's own arguments and selection under the key of the pending call
  let own : Key S C × Pending := (e.1, ⟨args, s.binding.selectionOf subfields, e.2.ticket⟩)
  have hdepth : (s.binding.selectionOf subfields).map Selection.depth
      = s.binding.signature.selection := by
    show (s.binding.signature.selection.map _).map Selection.depth = _
    rw [Option.map_map]
    exact Option.map_id'
  have hown : s.Calls own := by
    refine ⟨?_, hdepth⟩
    show Key.ofCall _ e.1.source args _ e.1.context = e.1
    rw [hkey]
    rfl
  refine ⟨?_, ?_, rfl⟩
  · obtain ⟨first, _, _, hargs, hsame⟩ := hg.args_eq
    rw [hargs]
    show _ = (if s.binding.signature.wantsArgs = true then some args else none).map Args.fingerprint
    by_cases hwants : s.binding.signature.wantsArgs = true
    · have hfingerprint : s.fingerprints e.2 = s.fingerprints own.2 :=
        hcall.groupKey_eq.symm.trans hown.groupKey_eq
      have hargs' := congrArg Prod.fst hfingerprint
      have hargs'' : (if s.binding.signature.wantsArgs then some e.2.args.fingerprint else none)
          = if s.binding.signature.wantsArgs then some args.fingerprint else none := hargs'
      rw [if_pos hwants, if_pos hwants] at hargs''
      rw [if_pos hwants, if_pos hwants]
      exact (congrArg some (hsame hwants e he hm).symm).trans hargs''
    · rw [if_neg hwants, if_neg hwants]
  · rw [hg.selection_eq e he hm]
    exact selection_eq_of_paths hcall hown rfl

theorem handed_eq_outcome {s : Service S C} (hs : BySource s.run) {context : C}
    {calls : List (Key S C × Pending)} {g : Group S C} (hg : Serves s context calls g)
    {e : Key S C × Pending} (he : e ∈ calls) (hcall : s.Calls e) (hm : asMember e ∈ g.members)
    {source : S} {args : Args} {subfields : List Field}
    (hkey : e.1 = Key.ofCall s.binding.signature source args (s.binding.selectionOf subfields)
      context) :
    s.handed (s.run (g.call s context)).value source =
      s.handed (s.run (DepthFirst.call s.binding [source] args subfields context)).value source := by
  refine hs.handed_eq (alike_declaredCall hg he hcall hm hkey) ?_ (List.mem_singleton_self _)
  rw [hg.input_eq]
  refine List.mem_map.mpr ⟨asMember e, hm, ?_⟩
  show e.1.source = source
  rw [hkey]
  rfl

/-- what the outcomes of two calls hand to one source alike is the same outcome of its field. -/
theorem batchedOutcome_of_handed {s : Service S C} {o o' : BatchOutcome S} {source : S}
    (h : s.handed o source = s.handed o' source) :
    DepthFirst.batchedOutcome s.binding source o
      = DepthFirst.batchedOutcome s.binding source o' := by
  have hfield : ∀ o, DepthFirst.batchedOutcome s.binding source o
      = (s.handed o source).mapError FieldFailure.batch := fun o => by
    cases o <;> rfl
  rw [hfield, hfield, h]

/-! ### starting fields -/

namespace Execution

/-- batchers keep their services and what is pending in them. -/
def Keeps (e e' : Execution S C) : Prop :=
  ∀ n b, e.batcher? n = some b → ∃ b', e'.batcher? n = some b' ∧ b'.service = b.service ∧
    ∀ k p, b.pending.find? k = some p → b'.pending.find? k = some p

theorem Keeps.refl (e : Execution S C) : e.Keeps e := fun _ b hb => ⟨b, hb, rfl, fun _ _ h => h⟩

theorem Keeps.trans {e e' e'' : Execution S C} (h : e.Keeps e') (h' : e'.Keeps e'') :
    e.Keeps e'' := by
  intro n b hb
  obtain ⟨b', hb', hservice, hpending⟩ := h n b hb
  obtain ⟨b'', hb'', hservice', hpending'⟩ := h' n b' hb'
  exact ⟨b'', hb'', hservice'.trans hservice, fun k p hp => hpending' k p (hpending k p hp)⟩

theorem keeps_replace {e : Execution S C} {b b' : Batcher S C} {n : Nat}
    (hb : e.batcher? n = some b) (hservice : b'.service = b.service)
    (hpending : ∀ k p, b.pending.find? k = some p → b'.pending.find? k = some p) :
    e.Keeps (e.replace b') := by
  have hid : b'.id = n := (congrArg Service.id hservice).trans (id_of_batcher? hb)
  intro m c hc
  by_cases hm : m = n
  · subst hm
    have heq : b = c := Option.some.inj (hb.symm.trans hc)
    subst heq
    exact ⟨b', batcher?_replace_self hb hid, hservice, hpending⟩
  · have hne : m ≠ b'.id := fun h => hm (h.trans hid)
    exact ⟨c, (batcher?_replace_other hne).trans hc, rfl, fun _ _ h => h⟩

theorem Each.replace {r : Registry S C} (hr : r.Sound) {P : Service S C → Batcher S C → Prop}
    {e : Execution S C} (he : e.Each r P) {s : Service S C} (hs : s ∈ r.services)
    {b b' : Batcher S C} (hb : e.batcher? s.id = some b) (hid : b'.id = s.id) (hP : P s b') :
    (e.replace b').Each r P := by
  refine ⟨(ids_replace e b').trans he.ids, fun s' hs' => ?_⟩
  by_cases h : s'.id = s.id
  · have heq := hr.service_eq_of_id hs' hs h
    subst heq
    exact ⟨b', batcher?_replace_self hb hid, hP⟩
  · obtain ⟨c, hc, hPc⟩ := he.holds s' hs'
    exact ⟨c, (batcher?_replace_other fun h' => h (h'.trans hid)).trans hc, hPc⟩

end Execution

namespace Level

variable (world : World S) (registry : Registry S C) (context : C)

/-- a started field has its object's own value, waits for a call of its own, or has a pending call
under its own key. -/
inductive Replied (e : Execution S C) (task : FieldTask S) : Reply S C → Prop
  | known (hlookup : registry.lookup? (world.typeName task.source) task.field.name = none) :
      Replied e task (.known (.ok (world.property task.source task.field.name)))
  | called (b : Binding S C) (shape : Shape) (run : Call S C → Deferred (SimpleOutcome S))
      (hlookup : registry.lookup? (world.typeName task.source) task.field.name = some b)
      (hresolver : b.resolver = .simple shape run) :
      Replied e task (.called b.id (simpleCall b shape task.source task.field context)
        (run (simpleCall b shape task.source task.field context)))
  | submitted (s : Service S C) (hs : s ∈ registry.services)
      (hlookup : registry.lookup? (world.typeName task.source) task.field.name = some s.binding)
      (b : Batcher S C) (hb : e.batcher? s.id = some b) (p : Pending)
      (hp : b.pending.find?
        (b.keyOf task.source task.field.args task.field.subfields context) = some p) :
      Replied e task (.submitted s.binding p.ticket)

variable {world registry context}

theorem Replied.keeps {e e' : Execution S C} (he : e.Keeps e') {task : FieldTask S}
    {reply : Reply S C} (h : Replied world registry context e task reply) :
    Replied world registry context e' task reply := by
  cases h with
  | known hlookup => exact .known hlookup
  | called b shape run hlookup hresolver => exact .called b shape run hlookup hresolver
  | submitted s hs hlookup b hb p hp =>
    obtain ⟨b', hb', hservice, hpending⟩ := he s.id b hb
    refine .submitted s hs hlookup b' hb' p ?_
    have hkey : b'.keyOf task.source task.field.args task.field.subfields context
        = b.keyOf task.source task.field.args task.field.subfields context := by
      unfold Batcher.keyOf
      rw [hservice]
    rw [hkey]
    exact hpending _ p hp

/-- what is true of an execution while its fields are started. -/
abbrev Starting (registry : Registry S C) (context : C) (e : Execution S C) : Prop :=
  e.Each registry fun s b => b.Collecting s context

theorem starting_of_idle {e : Execution S C} (he : e.Each registry fun s b => b.Idle s)
    (context : C) : Starting registry context e :=
  he.mono fun _ _ hb => hb.collecting context

/-- a bound simple function is called as its binding declares. -/
theorem simpleCall_eq (hr : registry.Sound) {b : Binding S C} (hb : b ∈ registry.bindings)
    {shape : Shape} {run : Call S C → Deferred (SimpleOutcome S)}
    (hresolver : b.resolver = .simple shape run) (source : S) (f : Field) (context : C) :
    simpleCall b shape source f context
      = DepthFirst.call b source f.args f.subfields context := by
  have hfits := hr.fits b hb
  rw [hresolver] at hfits
  exact ofShape_eq_call hfits source f.args f.subfields context

theorem simpleOutcome_eq (o : SimpleOutcome S) : simpleOutcome o = DepthFirst.simpleOutcome o := by
  cases o with
  | ok answer => rfl
  | error failure => rfl

theorem startTask_of_none {e : Execution S C} {task : FieldTask S}
    (h : registry.lookup? (world.typeName task.source) task.field.name = none) :
    startTask world registry context e task =
      (e, .known (.ok (world.property task.source task.field.name)), []) := by
  unfold startTask
  rw [h]

theorem startTask_of_simple {e : Execution S C} {task : FieldTask S} {b : Binding S C}
    {shape : Shape} {run : Call S C → Deferred (SimpleOutcome S)}
    (h : registry.lookup? (world.typeName task.source) task.field.name = some b)
    (hresolver : b.resolver = .simple shape run) :
    let call := simpleCall b shape task.source task.field context
    startTask world registry context e task =
      (e, .called b.id call (run call), [.called b.id (call.withInput [task.source])]) := by
  unfold startTask
  rw [h]
  dsimp only
  rw [hresolver]

theorem startTask_of_batched {e : Execution S C} {task : FieldTask S} {s : Service S C}
    {b : Batcher S C}
    (h : registry.lookup? (world.typeName task.source) task.field.name = some s.binding)
    (hresolver : s.binding.resolver = .batched s.shape s.run) (hb : e.batcher? s.id = some b) :
    let sub := b.submit task.source task.field.args task.field.subfields context
    startTask world registry context e task =
      (e.replace sub.batcher, .submitted s.binding sub.ticket, sub.events) := by
  have hb' : e.batcher? s.binding.id = some b := hb
  unfold startTask Execution.submit?
  rw [h]
  dsimp only
  rw [hresolver, hb']
  rfl

theorem startTask_spec (world : World S) (hr : registry.Sound) {e : Execution S C}
    (he : Starting registry context e) (task : FieldTask S) :
    Starting registry context (startTask world registry context e task).1 ∧
      e.Keeps (startTask world registry context e task).1 ∧
      Replied world registry context (startTask world registry context e task).1 task
        (startTask world registry context e task).2.1 := by
  cases hlookup : registry.lookup? (world.typeName task.source) task.field.name with
  | none =>
    rw [startTask_of_none hlookup]
    exact ⟨he, Execution.Keeps.refl e, .known hlookup⟩
  | some b =>
    cases hresolver : b.resolver with
    | simple shape run =>
      rw [startTask_of_simple hlookup hresolver]
      exact ⟨he, Execution.Keeps.refl e, .called b shape run hlookup hresolver⟩
    | batched shape run =>
      let s : Service S C := ⟨b, shape, run⟩
      have hs : s ∈ registry.services :=
        Registry.mem_services_of_batched (Registry.mem_of_lookup? hlookup) hresolver
      obtain ⟨c, hc, hcollecting⟩ := he.holds s hs
      let sub := c.submit task.source task.field.args task.field.subfields context
      have hservice : sub.batcher.service = c.service :=
        Batcher.service_after c (m := .submit task.source task.field.args task.field.subfields
          context) fun _ h => by cases h
      have hid : sub.batcher.id = s.id :=
        (congrArg Service.id hservice).trans (Execution.id_of_batcher? hc)
      have hpending : ∀ k p, c.pending.find? k = some p → sub.batcher.pending.find? k = some p :=
        fun k p hp => Batcher.find?_pending_after (m := .submit task.source task.field.args
          task.field.subfields context) (fun h => by cases h) hp
      obtain ⟨p, hp, hticket⟩ := Batcher.find?_pending_submit c task.source task.field.args
        task.field.subfields context
      have hkey : sub.batcher.keyOf task.source task.field.args task.field.subfields context
          = c.keyOf task.source task.field.args task.field.subfields context := by
        unfold Batcher.keyOf
        rw [hservice]
      rw [startTask_of_batched (s := s) hlookup hresolver hc]
      refine ⟨he.replace hr hs hc hid (hcollecting.submit _ _ _),
        Execution.keeps_replace hc hservice hpending, ?_⟩
      show Replied world registry context _ task (.submitted s.binding sub.ticket)
      rw [← hticket]
      exact .submitted s hs hlookup sub.batcher (Execution.batcher?_replace_self hc hid) p
        (hkey ▸ hp)

/-- **Every field of a level is started.** -/
theorem start_spec (world : World S) (hr : registry.Sound) (tasks : List (FieldTask S))
    {e : Execution S C} (he : Starting registry context e) :
    Starting registry context (start world registry context e tasks).execution ∧
      e.Keeps (start world registry context e tasks).execution ∧
      List.Forall₂ (Replied world registry context (start world registry context e tasks).execution)
        tasks (start world registry context e tasks).replies := by
  induction tasks generalizing e with
  | nil => exact ⟨he, Execution.Keeps.refl e, .nil⟩
  | cons task tasks ih =>
    obtain ⟨hstarted, hkeeps, hreplied⟩ := startTask_spec world hr he task
    obtain ⟨hrest, hkeeps', hreplies⟩ := ih hstarted
    exact ⟨hrest, hkeeps.trans hkeeps', .cons (hreplied.keeps hkeeps') hreplies⟩

/-! ### looking at a level -/

theorem outcome_pollReply (e : Execution S C) (isOpen : Round) (reply : Reply S C) :
    outcome e (pollReply isOpen reply).1 = outcome e reply := by
  cases reply with
  | known o => rfl
  | submitted b ticket => rfl
  | called resolver call awaited =>
    unfold pollReply
    dsimp only
    split
    · rfl
    · rfl

theorem outcomes_pollReplies (e : Execution S C) (isOpen : Round) (replies : List (Reply S C)) :
    (pollReplies isOpen replies).1.map (outcome e) = replies.map (outcome e) := by
  induction replies with
  | nil => rfl
  | cons reply replies ih =>
    show outcome e (pollReply isOpen reply).1 :: (pollReplies isOpen replies).1.map (outcome e) = _
    rw [outcome_pollReply, ih, List.map_cons]

theorem callsTo_pollReplies (n : Nat) (isOpen : Round) (replies : List (Reply S C)) :
    callsTo n (pollReplies isOpen replies).2 = [] := by
  induction replies with
  | nil => rfl
  | cons reply replies ih =>
    have hreply : callsTo n (pollReply isOpen reply).2 = [] := by
      cases reply with
      | known o => rfl
      | submitted b ticket => rfl
      | called resolver call awaited =>
        unfold pollReply
        dsimp only
        split
        · rfl
        · rfl
    show callsTo n ((pollReply isOpen reply).2 ++ (pollReplies isOpen replies).2) = []
    rw [callsTo_append, hreply, ih]
    rfl

/-- a level whose fields were started and whose calls were dispatched; `inner` is what its batchers
did. -/
structure Going (registry : Registry S C) (context : C) (started : Started S C)
    (l : Progress S C) (inner : List (Event S C)) : Prop where
  inFlight : Execution.InFlight registry context started.execution l.execution l.run
  outcomes : ∀ e, l.replies.map (outcome e) = started.replies.map (outcome e)
  called : Execution.Called registry context started.execution l.execution inner
  calls : ∀ n, callsTo n l.events = callsTo n started.events ++ callsTo n inner

theorem going_dispatch (hr : registry.Sound) {started : Started S C}
    (h : Starting registry context started.execution) (isOpen : Round) :
    Going registry context started (dispatch isOpen started)
      (started.execution.dispatchAll isOpen).events := by
  refine ⟨Execution.inFlight_dispatchAll hr h isOpen, fun e => outcomes_pollReplies e isOpen _,
    Execution.called_dispatchAll hr h isOpen, fun n => ?_⟩
  show callsTo n (started.events ++ _ ++ (pollReplies isOpen started.replies).2) = _
  rw [callsTo_append, callsTo_append, callsTo_pollReplies, List.append_nil]

theorem Going.look {started : Started S C} {l : Progress S C} {inner : List (Event S C)}
    (h : Going registry context started l inner) (isOpen : Round) :
    Going registry context started (look isOpen l)
      (inner ++ (Execution.resume isOpen l.execution l.run).events) := by
  refine ⟨h.inFlight.resume isOpen, fun e => (outcomes_pollReplies e isOpen _).trans (h.outcomes e),
    h.called.resume h.inFlight isOpen, fun n => ?_⟩
  show callsTo n (l.events ++ _ ++ (pollReplies isOpen l.replies).2) = _
  rw [callsTo_append, callsTo_append, callsTo_pollReplies, List.append_nil, h.calls,
    callsTo_append, List.append_assoc]

theorem Going.lookAll {started : Started S C} (rounds : List Round) {l : Progress S C}
    {inner : List (Event S C)} (h : Going registry context started l inner) :
    ∃ inner', Going registry context started (lookAll rounds l) inner' := by
  induction rounds generalizing l inner with
  | nil => exact ⟨inner, h⟩
  | cons isOpen rounds ih => exact ih (h.look isOpen)

theorem lookAll_concat (rounds : List Round) (isOpen : Round) (l : Progress S C) :
    Level.lookAll (rounds ++ [isOpen]) l = look isOpen (Level.lookAll rounds l) := by
  unfold lookAll
  rw [List.foldl_append]
  rfl

theorem going_finished (hr : registry.Sound) {e : Execution S C} {tasks : List (FieldTask S)}
    (h : Starting registry context (start world registry context e tasks).execution)
    (rounds : List Round) :
    ∃ inner, Going registry context (start world registry context e tasks)
        (finished world registry context rounds e tasks) inner ∧
      ∀ s ∈ registry.services,
        Execution.Ended (finished world registry context rounds e tasks).run s.id := by
  cases rounds with
  | nil =>
    exact ⟨_, going_dispatch hr h Round.allOpen, fun s hs => Execution.ended_dispatchAll hr h hs⟩
  | cons r rs =>
    obtain ⟨_, hgoing⟩ := (going_dispatch hr h r).lookAll rs
    unfold finished
    dsimp only
    rw [lookAll_concat]
    exact ⟨_, hgoing.look Round.allOpen, fun s hs => hgoing.inFlight.ended_resume hs⟩

/-- the level after its last look, in which every gate is open. -/
theorem going_run (hr : registry.Sound) {e : Execution S C} {tasks : List (FieldTask S)}
    (h : Starting registry context (start world registry context e tasks).execution)
    (rounds : List Round) :
    ∃ l inner, Going registry context (start world registry context e tasks) l inner ∧
      (∀ s ∈ registry.services, Execution.Ended l.run s.id) ∧
      run world registry context rounds e tasks
        = ⟨l.execution, l.replies.map (outcome l.execution), l.events⟩ := by
  obtain ⟨inner, hgoing, hended⟩ := going_finished hr h rounds
  exact ⟨_, inner, hgoing, hended, rfl⟩

/-- a field with a pending call has what the call of a group of it came back with. -/
theorem outcome_submitted {e e' : Execution S C}
    (he : Starting registry context e) {run : Run}
    (h : Execution.InFlight registry context e e' run)
    (hended : ∀ s ∈ registry.services, Execution.Ended run s.id) {s : Service S C}
    (hs : s ∈ registry.services) {b : Batcher S C} (hb : e.batcher? s.id = some b)
    {task : FieldTask S} {p : Pending} (hp : b.pending.find?
      (b.keyOf task.source task.field.args task.field.subfields context) = some p) :
    b.Collecting s context ∧ ∃ g ∈ (groupPending b.pending.entries).values,
      asMember (b.keyOf task.source task.field.args task.field.subfields context, p) ∈ g.members ∧
      outcome e' (.submitted s.binding p.ticket) =
        DepthFirst.batchedOutcome s.binding task.source (s.run (g.call s context)).value := by
  obtain ⟨c, hc, hcollecting⟩ := he.holds s hs
  obtain rfl := Option.some.inj (hb.symm.trans hc)
  obtain ⟨g, hg, hm, hresult⟩ := h.result hended hs hb (Table.mem_entries_iff.mpr hp)
  refine ⟨hcollecting, g, hg, hm, ?_⟩
  have hresult' : e'.result? s.binding.id p.ticket
      = some (s.handed (s.run (g.call s context)).value task.source) := hresult
  unfold outcome
  dsimp only
  rw [hresult']
  cases (s.run (g.call s context)).value with
  | ok answers => rfl
  | error failure => rfl

theorem outcome_eq (hr : registry.Sound) (hsources : registry.BySource) {e e' : Execution S C}
    (he : Starting registry context e) {run : Run}
    (h : Execution.InFlight registry context e e' run)
    (hended : ∀ s ∈ registry.services, Execution.Ended run s.id) {task : FieldTask S}
    {reply : Reply S C} (hreply : Replied world registry context e task reply) :
    outcome e' reply = DepthFirst.outcome world registry context task.source task.field := by
  unfold DepthFirst.outcome
  cases hreply with
  | known hlookup =>
    rw [hlookup]
    rfl
  | called b shape run hlookup hresolver =>
    rw [hlookup, simpleCall_eq hr (Registry.mem_of_lookup? hlookup) hresolver]
    dsimp only
    rw [hresolver]
    exact simpleOutcome_eq _
  | submitted s hs hlookup b hb p hp =>
    obtain ⟨hcollecting, g, hg, hm, houtcome⟩ := outcome_submitted he h hended hs hb hp
    have hmem := Table.mem_entries_iff.mpr hp
    have hfits := hr.fits_of_services hs
    obtain ⟨hbinding, hresolver⟩ := Registry.batched_of_services hs
    have hcalls : ∀ e ∈ b.pending.entries, s.Calls e := fun e he =>
      hcollecting.service_eq ▸ hcollecting.sound.calls e he
    have hserves := serves_of_mem_groups hfits b.pending.distinct hcalls hcollecting.sameContext
      context hg
    have hkey : b.keyOf task.source task.field.args task.field.subfields context
        = Key.ofCall s.binding.signature task.source task.field.args
          (s.binding.selectionOf task.field.subfields) context := by
      unfold Batcher.keyOf
      rw [hcollecting.service_eq]
    have hhanded := handed_eq_outcome (hsources s.binding hbinding s.shape s.run hresolver) hserves
      hmem (hcalls _ hmem) hm hkey
    rw [houtcome, hlookup]
    dsimp only
    rw [hresolver]
    exact batchedOutcome_of_handed hhanded

theorem outcomes_eq (hr : registry.Sound) (hsources : registry.BySource) {e e' : Execution S C}
    (he : Starting registry context e) {run : Run}
    (h : Execution.InFlight registry context e e' run)
    (hended : ∀ s ∈ registry.services, Execution.Ended run s.id) {tasks : List (FieldTask S)}
    {replies : List (Reply S C)}
    (hreplied : List.Forall₂ (Replied world registry context e) tasks replies) :
    replies.map (outcome e') = tasks.map fun t =>
      DepthFirst.outcome world registry context t.source t.field := by
  induction hreplied with
  | nil => rfl
  | cons hreply _ ih =>
    rw [List.map_cons, List.map_cons, ih]
    exact congrArg (fun o => o :: _) (outcome_eq hr hsources he h hended hreply)

/-- **The outcomes of a level.**  Every field comes to what it would have come to on its own, and
the execution is idle again. -/
theorem run_spec (world : World S) (context : C) (hr : registry.Sound)
    (hsources : registry.BySource) {e : Execution S C}
    (he : e.Each registry fun s b => b.Idle s) (rounds : List Round)
    (tasks : List (FieldTask S)) :
    ((run world registry context rounds e tasks).execution.Each registry fun s b => b.Idle s) ∧
      (run world registry context rounds e tasks).outcomes = tasks.map fun t =>
        DepthFirst.outcome world registry context t.source t.field := by
  obtain ⟨hstarted, _, hreplied⟩ := start_spec world hr tasks (starting_of_idle he context)
  obtain ⟨l, _, hgoing, hended, hrun⟩ := going_run hr hstarted rounds
  rw [hrun]
  constructor
  · exact hgoing.inFlight.idle hended
  · show l.replies.map (outcome l.execution) = _
    rw [hgoing.outcomes]
    exact outcomes_eq hr hsources hstarted hgoing.inFlight hended hreplied

end Level
end Batchwise
