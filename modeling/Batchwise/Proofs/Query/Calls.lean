import Batchwise.Proofs.Query.Sharing

/-!
# The calls of a level

A level calls a batched resolver once for each pair that occurs among the fields bound to it, and a
simple one once for each of these fields; it makes no other call.  What a field comes to is what
its call, shared or not, came back with.

* `Binding.ownCall`, `Binding.levelCalls`   the call for one occurrence of a simple resolver, and
                       all calls of a resolver in a level;
* `Level.callsTo_run`  the calls that a level makes;
* `Level.sharedOutcome`, `Level.outcomes_run`   the outcomes of a level.
-/

set_option linter.unusedSectionVars false

namespace Batchwise

variable {S C : Type} [DecidableEq S] [DecidableEq C]

namespace Binding

/-- the call that is declared for one occurrence alone. -/
def ownCall (b : Binding S C) (context : C) (t : FieldTask S) : Call (List S) C :=
  DepthFirst.call b [t.source] t.field.args t.field.subfields context

/-- the calls of a resolver in a level, for the occurrences that are bound to it: one for each pair
if it is batched, one for each occurrence if it is simple. -/
def levelCalls (b : Binding S C) (context : C) (ts : List (FieldTask S)) :
    List (Call (List S) C) :=
  match b.resolver with
  | .batched _ _ => b.sharedCalls context ts
  | .simple _ _ => ts.map (b.ownCall context)

/-- the calls that are made while occurrences of the binding are started. -/
def callsAtStart (b : Binding S C) (context : C) (ts : List (FieldTask S)) :
    List (Call (List S) C) :=
  match b.resolver with
  | .batched _ _ => []
  | .simple _ _ => ts.map (b.ownCall context)

theorem callsAtStart_cons (b : Binding S C) (context : C) (t : FieldTask S)
    (ts : List (FieldTask S)) :
    b.callsAtStart context (t :: ts) = b.callsAtStart context [t] ++ b.callsAtStart context ts := by
  unfold callsAtStart
  cases b.resolver <;> rfl

end Binding

namespace Level

variable {world : World S} {registry : Registry S C} {context : C}

/-! ### while fields are started -/

theorem callsTo_submit (b : Batcher S C) (n : Nat) (source : S) (args : Args)
    (subfields : List Field) (context : C) :
    callsTo n (b.submit source args subfields context).events = [] := by
  obtain ⟨shared, hevents⟩ := b.events_submit source args subfields context
  rw [hevents]
  rfl

/-- the call of a simple resolver, as it is observed. -/
theorem withInput_simpleCall (hr : registry.Sound) {b : Binding S C} (hb : b ∈ registry.bindings)
    {shape : Shape} {run : Call S C → Deferred (SimpleOutcome S)}
    (hresolver : b.resolver = .simple shape run) (context : C) (t : FieldTask S) :
    (simpleCall b shape t.source t.field context).withInput [t.source] = b.ownCall context t := by
  rw [simpleCall_eq hr hb hresolver]
  rfl

/-- starting a field calls its own resolver or nobody. -/
theorem callsTo_startTask (hr : registry.Sound) (e : Execution S C) (t : FieldTask S) (n : Nat) :
    callsTo n (startTask world registry context e t).2.2 =
      match bindingOf world registry t with
      | none => []
      | some b => if b.id = n then b.callsAtStart context [t] else [] := by
  cases hlookup : bindingOf world registry t with
  | none =>
    rw [startTask_of_none hlookup]
    rfl
  | some b =>
    dsimp only
    unfold Binding.callsAtStart
    cases hresolver : b.resolver with
    | simple shape run =>
      rw [startTask_of_simple hlookup hresolver]
      dsimp only
      rw [withInput_simpleCall hr (Registry.mem_of_lookup? hlookup) hresolver]
      by_cases hn : b.id = n
      · simp [callsTo, Event.callTo?, hn]
      · simp [callsTo, Event.callTo?, hn]
    | batched shape run =>
      unfold startTask
      rw [show registry.lookup? _ _ = some b from hlookup]
      dsimp only
      rw [hresolver, ite_self]
      unfold Execution.submit?
      cases e.batcher? b.id with
      | none => rfl
      | some c => exact callsTo_submit c n t.source t.field.args t.field.subfields context

theorem callsTo_start (hr : registry.Sound) {b : Binding S C} (hb : b ∈ registry.bindings)
    (e : Execution S C) (ts : List (FieldTask S)) :
    callsTo b.id (start world registry context e ts).events
      = b.callsAtStart context (boundTo world registry b.id ts) := by
  induction ts generalizing e with
  | nil =>
    unfold Binding.callsAtStart
    cases b.resolver <;> rfl
  | cons t ts ih =>
    rw [start, callsTo_append, ih, callsTo_startTask hr]
    cases hlookup : bindingOf world registry t with
    | none =>
      have hskip : boundTo world registry b.id (t :: ts) = boundTo world registry b.id ts :=
        List.filter_cons_of_neg (by simp [hlookup])
      rw [hskip]
      rfl
    | some c =>
      dsimp only
      by_cases hid : c.id = b.id
      · obtain rfl : c = b := hr.eq_of_id (Registry.mem_of_lookup? hlookup) hb hid
        have hkeep : boundTo world registry c.id (t :: ts) = t :: boundTo world registry c.id ts :=
          List.filter_cons_of_pos (by simp [hlookup])
        rw [if_pos rfl, hkeep, ← Binding.callsAtStart_cons]
      · have hskip : boundTo world registry b.id (t :: ts) = boundTo world registry b.id ts :=
          List.filter_cons_of_neg (by simp [hlookup, hid])
        rw [if_neg hid, hskip]
        rfl

theorem callsTo_start_other (hr : registry.Sound) {n : Nat}
    (hn : ∀ b ∈ registry.bindings, b.id ≠ n) (e : Execution S C) (ts : List (FieldTask S)) :
    callsTo n (start world registry context e ts).events = [] := by
  induction ts generalizing e with
  | nil => rfl
  | cons t ts ih =>
    rw [start, callsTo_append, ih, callsTo_startTask hr, List.append_nil]
    cases hlookup : bindingOf world registry t with
    | none => rfl
    | some c => exact if_neg (hn c (Registry.mem_of_lookup? hlookup))

/-! ### the calls of a level -/

/-- **The calls of a level** are those of its bindings, and no other. -/
theorem callsTo_run (world : World S) (context : C) (hr : registry.Sound) {e : Execution S C}
    (he : e.Each registry fun s b => b.Idle s) (rounds : List Round)
    (tasks : List (FieldTask S)) :
    (∀ b ∈ registry.bindings, callsTo b.id (run world registry context rounds e tasks).events
      = b.levelCalls context (boundTo world registry b.id tasks)) ∧
    ∀ n, (∀ b ∈ registry.bindings, b.id ≠ n) →
      callsTo n (run world registry context rounds e tasks).events = [] := by
  have hgathering := gathering_start_of_idle world context hr he tasks
  have hstarting := hgathering.mono fun _ _ h => h.1
  obtain ⟨l, inner, hgoing, hended, hrun⟩ := going_run hr hstarting rounds
  rw [hrun]
  refine ⟨fun b hb => ?_, fun n hn => ?_⟩
  · rw [hgoing.calls, callsTo_start hr hb]
    unfold Binding.callsAtStart Binding.levelCalls
    cases hresolver : b.resolver with
    | simple shape run =>
      have hinner : callsTo b.id inner = [] := hgoing.called.others b.id fun s hs hid => by
        obtain ⟨hmem, hbatched⟩ := Registry.batched_of_services hs
        have heq : s.binding = b := hr.eq_of_id hmem hb hid
        rw [heq, hresolver] at hbatched
        cases hbatched
      rw [hinner, List.append_nil]
    | batched shape run =>
      let s : Service S C := ⟨b, shape, run⟩
      have hs : s ∈ registry.services := Registry.mem_services_of_batched hb hresolver
      obtain ⟨c, hc, hcollecting, hgathered⟩ := hgathering.holds s hs
      have hall := hgoing.called.all hgoing.inFlight hended hs hc
      rw [hgathered.calls_groups hcollecting.service_eq (hr.fits_of_services hs)] at hall
      exact hall
  · have hservices : ∀ s ∈ registry.services, s.id ≠ n := fun s hs =>
      hn s.binding (Registry.batched_of_services hs).1
    rw [hgoing.calls, callsTo_start_other hr hn, hgoing.called.others n hservices]
    rfl

/-! ### the outcomes of a level -/

variable (world registry context)

/-- what becomes of an occurrence in a level of occurrences: what its call came back with for its
source, where the call of a batched resolver is shared. -/
def sharedOutcome (ts : List (FieldTask S)) (t : FieldTask S) : FieldOutcome S :=
  match bindingOf world registry t with
  | none => .ok (world.property t.source t.field.name)
  | some b =>
    match b.resolver with
    | .batched _ run =>
      DepthFirst.batchedOutcome b t.source (run (b.sharedCall context
        (b.alike (boundTo world registry b.id ts) (b.pairOf t.field)))).value
    | .simple _ run =>
      DepthFirst.simpleOutcome
        (run (DepthFirst.call b t.source t.field.args t.field.subfields context)).value

variable {world registry context}

theorem outcome_eq_sharedOutcome (hr : registry.Sound) {ts : List (FieldTask S)}
    {e e' : Execution S C} (he : Gathering world registry context ts e) {run : Run}
    (h : Execution.InFlight registry context e e' run)
    (hended : ∀ s ∈ registry.services, Execution.Ended run s.id) {t : FieldTask S}
    {reply : Reply S C} (hreply : Replied world registry context e t reply) :
    outcome e' reply = sharedOutcome world registry context ts t := by
  unfold sharedOutcome
  cases hreply with
  | known hlookup =>
    rw [show bindingOf world registry t = none from hlookup]
    rfl
  | called b shape run hlookup hresolver =>
    rw [show bindingOf world registry t = some b from hlookup,
      simpleCall_eq hr (Registry.mem_of_lookup? hlookup) hresolver]
    dsimp only
    rw [hresolver]
    exact simpleOutcome_eq _
  | submitted s hs hlookup b hb p hp =>
    obtain ⟨c, hc, hcollecting, hgathered⟩ := he.holds s hs
    obtain rfl := Option.some.inj (hb.symm.trans hc)
    obtain ⟨_, g, hg, hm, houtcome⟩ :=
      outcome_submitted (he.mono fun _ _ h => h.1) h hended hs hb hp
    have hcall : g.call s context = s.binding.sharedCall context _ :=
      hgathered.call_of_group hcollecting.service_eq (hr.fits_of_services hs)
        (Table.mem_entries_iff.mpr hp) hg hm
    have hpair : (b.keyOf t.source t.field.args t.field.subfields context).groupKey
        = s.binding.pairOf t.field := by
      rw [← hcollecting.service_eq]
      rfl
    dsimp only at hcall
    rw [hpair] at hcall
    rw [houtcome, hcall, show bindingOf world registry t = some s.binding from hlookup]
    dsimp only
    rw [(Registry.batched_of_services hs).2]
    rfl

/-- **The outcomes of a level.** -/
theorem outcomes_run (world : World S) (context : C) (hr : registry.Sound) {e : Execution S C}
    (he : e.Each registry fun s b => b.Idle s) (rounds : List Round)
    (tasks : List (FieldTask S)) :
    ((run world registry context rounds e tasks).execution.Each registry fun s b => b.Idle s) ∧
      (run world registry context rounds e tasks).outcomes
        = tasks.map (sharedOutcome world registry context tasks) := by
  have hgathering := gathering_start_of_idle world context hr he tasks
  obtain ⟨hstarting, _, hreplied⟩ :=
    start_spec world hr tasks (starting_of_idle he context)
  obtain ⟨l, _, hgoing, hended, hrun⟩ := going_run hr hstarting rounds
  rw [hrun]
  refine ⟨hgoing.inFlight.idle hended, ?_⟩
  show l.replies.map (outcome l.execution) = _
  rw [hgoing.outcomes]
  have houtcomes : ∀ {us : List (FieldTask S)} {replies : List (Reply S C)},
      List.Forall₂ (Replied world registry context
        (start world registry context e tasks).execution) us replies →
      replies.map (outcome l.execution) = us.map (sharedOutcome world registry context tasks) := by
    intro us replies h
    induction h with
    | nil => rfl
    | cons hreply _ ih =>
      rw [List.map_cons, List.map_cons, ih,
        outcome_eq_sharedOutcome hr hgathering hgoing.inFlight hended hreply]
  exact houtcomes hreplied

end Level
end Batchwise
