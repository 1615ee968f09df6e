import Batchwise.Proofs.Batch.Returning
import Batchwise.Proofs.Query.Calls

/-!
# A level as a history of its batchers

A level first starts its fields, in order: simple resolvers are called, and calls of batched ones
are submitted.  Then every batcher dispatches and ticks are looked at; besides what this tells, the
simple calls come back.

* `Level.Begun`          what is told while fields are started: `begun_start`;
* `Level.start_moves`    fields are started by submissions alone;
* `Level.owed`           what is still to be told of simple calls: `owed_pollReplies`, `owed_start`;
* `Level.Looking`        a level that is looked at: `run_history`.
-/

set_option linter.unusedSectionVars false

namespace Batchwise

variable {S C : Type} [DecidableEq S] [DecidableEq C]

/-! ### what is told while a level is resolved -/

namespace Level

variable (world : World S) (registry : Registry S C) (context : C)

/-- what is told while fields are started in order: nothing of a field without a resolver, the call
of a simple one, and a submission to a batched one. -/
inductive Begun : List (FieldTask S) → List (Event S C) → Prop
  | nil : Begun [] []
  | unbound {t : FieldTask S} {ts : List (FieldTask S)} {events : List (Event S C)}
      (hbinding : bindingOf world registry t = none) (hrest : Begun ts events) :
      Begun (t :: ts) events
  | simple {t : FieldTask S} {ts : List (FieldTask S)} {events : List (Event S C)}
      {b : Binding S C} {shape : Shape} {run : Call S C → Deferred (SimpleOutcome S)}
      (hbinding : bindingOf world registry t = some b) (hresolver : b.resolver = .simple shape run)
      (hrest : Begun ts events) :
      Begun (t :: ts) (.called b.id (b.ownCall context t) :: events)
  | batched {t : FieldTask S} {ts : List (FieldTask S)} {events : List (Event S C)}
      {b : Binding S C} (shared : Bool) (hbinding : bindingOf world registry t = some b)
      (hbatched : b.isBatched = true) (hrest : Begun ts events) :
      Begun (t :: ts) (.submitted b.id shared :: events)

variable {world registry context}

/-- while fields are started nothing comes back and no tick is taken. -/
theorem Begun.quiet {ts : List (FieldTask S)} {events : List (Event S C)}
    (h : Begun world registry context ts events) :
    ∀ e ∈ events, e.back? = none ∧ ∀ n, e.takes n = false := by
  induction h with
  | nil => exact fun _ he => by cases he
  | unbound _ _ ih => exact ih
  | simple _ _ _ ih => exact List.forall_mem_cons.mpr ⟨⟨rfl, fun _ => rfl⟩, ih⟩
  | batched _ _ _ _ ih => exact List.forall_mem_cons.mpr ⟨⟨rfl, fun _ => rfl⟩, ih⟩

theorem begun_start (world : World S) (hr : registry.Sound) {e : Execution S C}
    (he : Starting registry context e) (tasks : List (FieldTask S)) :
    Begun world registry context tasks (start world registry context e tasks).events := by
  induction tasks generalizing e with
  | nil => exact .nil
  | cons t tasks ih =>
    have hrest := ih (startTask_spec world hr he t).1
    rw [start]
    dsimp only
    cases hlookup : bindingOf world registry t with
    | none =>
      rw [startTask_of_none hlookup] at hrest ⊢
      exact .unbound hlookup hrest
    | some b =>
      cases hresolver : b.resolver with
      | simple shape run =>
        rw [startTask_of_simple hlookup hresolver] at hrest ⊢
        dsimp only
        rw [withInput_simpleCall hr (Registry.mem_of_lookup? hlookup) hresolver]
        exact .simple hlookup hresolver hrest
      | batched shape run =>
        let s : Service S C := ⟨b, shape, run⟩
        have hs : s ∈ registry.services :=
          Registry.mem_services_of_batched (Registry.mem_of_lookup? hlookup) hresolver
        obtain ⟨c, hc, _⟩ := he.holds s hs
        have hid : c.id = b.id := Execution.id_of_batcher? hc
        have hbatched : b.isBatched = true := by
          unfold Binding.isBatched
          rw [hresolver]
          rfl
        obtain ⟨shared, hevents⟩ :=
          c.events_submit t.source t.field.args t.field.subfields context
        rw [startTask_of_batched (s := s) hlookup hresolver hc] at hrest ⊢
        dsimp only at hrest ⊢
        rw [hevents, hid]
        exact .batched shared hlookup hbatched hrest

theorem startTask_moves (world : World S) (registry : Registry S C) (context : C)
    (e : Execution S C) (t : FieldTask S) :
    ∃ ms : List (Nat × Move S C), (∀ m ∈ ms, m.2.Submits) ∧
      (startTask world registry context e t).1 = e.run ms := by
  have hnothing : ∃ ms : List (Nat × Move S C), (∀ m ∈ ms, m.2.Submits) ∧ e = e.run ms :=
    ⟨[], fun _ hm => (by cases hm), rfl⟩
  unfold startTask
  cases registry.lookup? (world.typeName t.source) t.field.name with
  | none => exact hnothing
  | some b =>
    dsimp only
    cases b.resolver with
    | simple shape run => exact hnothing
    | batched shape run =>
      dsimp only
      cases hsubmit : e.submit? b.id t.source t.field.args t.field.subfields context with
      | none => exact hnothing
      | some submitted =>
        refine ⟨[(b.id, .submit t.source t.field.args t.field.subfields context)],
          fun m hm => ?_, (Execution.submit?_move hsubmit).1⟩
        rw [List.mem_singleton.mp hm]
        exact ⟨_, _, _, _, rfl⟩

/-- **Fields are started** by submissions alone. -/
theorem start_moves (world : World S) (registry : Registry S C) (context : C)
    (tasks : List (FieldTask S)) (e : Execution S C) :
    ∃ ms : List (Nat × Move S C), (∀ m ∈ ms, m.2.Submits) ∧
      (start world registry context e tasks).execution = e.run ms := by
  induction tasks generalizing e with
  | nil => exact ⟨[], fun _ hm => (by cases hm), rfl⟩
  | cons t tasks ih =>
    obtain ⟨ms, hms, hrun⟩ := startTask_moves world registry context e t
    obtain ⟨ns, hns, hrun'⟩ := ih (startTask world registry context e t).1
    refine ⟨ms ++ ns, fun m hm => (List.mem_append.mp hm).elim (hms m) (hns m), ?_⟩
    rw [Execution.run_append, ← hrun]
    exact hrun'

/-- submissions take no tick. -/
theorem ticks_start (world : World S) (registry : Registry S C) (context : C)
    (tasks : List (FieldTask S)) {e : Execution S C} {n : Nat} {b c : Batcher S C}
    (hb : e.batcher? n = some b)
    (hc : (start world registry context e tasks).execution.batcher? n = some c) :
    c.ticks = b.ticks := by
  obtain ⟨ms, hms, hrun⟩ := start_moves world registry context tasks e
  have hnone : .beginTick ∉ Execution.own n ms := fun hm => by
    obtain ⟨_, _, _, _, heq⟩ := hms _ (Execution.mem_of_mem_own hm)
    cases heq
  rw [hrun, Execution.batcher?_run, hb] at hc
  rw [← Option.some.inj hc, Batcher.ticks_run, Batcher.takes_trace b hnone, Nat.add_zero]

/-! ### simple calls -/

/-- what is told when the call that a reply waits for comes back. -/
def owed? : Reply S C → Option (Event S C)
  | .called resolver call _ => some (.returned resolver (call.withInput [call.input]))
  | _ => none

/-- what is still to be told of simple calls. -/
def owed (replies : List (Reply S C)) : List (Event S C) := replies.filterMap owed?

theorem owed_cons (reply : Reply S C) (replies : List (Reply S C)) :
    owed (reply :: replies) = (owed? reply).toList ++ owed replies := by
  unfold owed
  rw [List.filterMap_cons]
  cases owed? reply <;> rfl

theorem owed_pollReply (isOpen : Round) (reply : Reply S C) :
    (pollReply isOpen reply).2 ++ (owed? (pollReply isOpen reply).1).toList
      = (owed? reply).toList := by
  cases reply with
  | known outcome => rfl
  | submitted b ticket => rfl
  | called resolver call awaited =>
    unfold pollReply
    dsimp only
    split
    · rfl
    · rfl

/-- a look tells of the simple calls that are back, and the others are waited for. -/
theorem owed_pollReplies (isOpen : Round) (replies : List (Reply S C)) :
    ((pollReplies isOpen replies).2 ++ owed (pollReplies isOpen replies).1).Perm
      (owed replies) := by
  induction replies with
  | nil => exact List.Perm.refl []
  | cons reply replies ih =>
    rw [pollReplies]
    dsimp only
    rw [owed_cons, owed_cons, ← owed_pollReply isOpen reply]
    exact (perm_append_exchange _ _ _ _).trans (ih.append_left _)

theorem tells_pollReplies (isOpen : Round) (events : List (Event S C))
    (replies : List (Reply S C)) :
    (events ++ (pollReplies isOpen replies).2 ++ owed (pollReplies isOpen replies).1).Perm
      (owed replies ++ events) := by
  rw [List.append_assoc]
  exact ((owed_pollReplies isOpen replies).append_left events).trans List.perm_append_comm

/-- in the last look every simple call is back. -/
theorem owed_allOpen (replies : List (Reply S C)) :
    owed (pollReplies Round.allOpen replies).1 = [] := by
  induction replies with
  | nil => rfl
  | cons reply replies ih =>
    have hfirst : owed? (pollReply Round.allOpen reply).1 = none := by
      cases reply with
      | known outcome => rfl
      | submitted b ticket => rfl
      | called resolver call awaited =>
        have hready : (awaited.poll Round.allOpen).isReady = true := awaited.isReady_poll_all
        unfold pollReply
        dsimp only
        rw [if_pos hready]
        rfl
    rw [pollReplies]
    dsimp only
    rw [owed_cons, hfirst, ih]
    rfl

theorem returned_of_owed {replies : List (Reply S C)} {event : Event S C}
    (h : event ∈ owed replies) : ∃ n call, event = .returned n call := by
  obtain ⟨reply, _, howed⟩ := List.mem_filterMap.mp h
  cases reply with
  | called resolver call awaited => exact ⟨_, _, (Option.some.inj howed).symm⟩
  | _ => cases howed

theorem owed_startTask (world : World S) (registry : Registry S C) (context : C)
    (e : Execution S C) (t : FieldTask S) (n : Nat) :
    backTo n (owed? (startTask world registry context e t).2.1).toList
      = callsTo n (startTask world registry context e t).2.2 := by
  unfold startTask
  cases registry.lookup? (world.typeName t.source) t.field.name with
  | none => rfl
  | some b =>
    dsimp only
    cases b.resolver with
    | simple shape run =>
      by_cases hid : b.id = n
      · simp [owed?, backTo, about, backCalls, Event.back?, Event.resolver?, callsTo,
          Event.callTo?, hid, simpleCall, Call.ofShape]
      · simp [owed?, backTo, about, backCalls, Event.resolver?, callsTo, Event.callTo?, hid]
    | batched shape run =>
      dsimp only
      cases hsubmit : e.submit? b.id t.source t.field.args t.field.subfields context with
      | none => rfl
      | some submitted =>
        obtain ⟨c, _, rfl⟩ := Option.map_eq_some_iff.mp hsubmit
        exact (callsTo_submit c n t.source t.field.args t.field.subfields context).symm

/-- what is owed when fields were started is the return of every call that was made. -/
theorem owed_start (world : World S) (registry : Registry S C) (context : C)
    (e : Execution S C) (tasks : List (FieldTask S)) (n : Nat) :
    backTo n (owed (start world registry context e tasks).replies)
      = callsTo n (start world registry context e tasks).events := by
  induction tasks generalizing e with
  | nil => rfl
  | cons t tasks ih =>
    rw [start]
    dsimp only
    rw [owed_cons, backTo_append, callsTo_append, owed_startTask, ih]

/-! ### a level as a history -/

/-- a level that was dispatched and is looked at: the moves since its fields were started, and the
events. -/
structure Looking (started : Started S C) (l : Progress S C) (ms : List (Nat × Move S C))
    (rest : List (Event S C)) : Prop where
  execution : l.execution = started.execution.run ms
  events : l.events = started.events ++ rest
  tells : (rest ++ owed l.replies).Perm (owed started.replies ++ started.execution.trace ms)

theorem looking_dispatch {started : Started S C}
    (hd : (started.execution.batchers.map Batcher.id).Nodup) (isOpen : Round) :
    Looking started (dispatch isOpen started)
      (Execution.dispatchMoves isOpen started.execution.batchers)
      ((started.execution.dispatchAll isOpen).events ++ (pollReplies isOpen started.replies).2) := by
  obtain ⟨hrun, htrace⟩ := Execution.dispatchAll_moves hd isOpen
  refine ⟨hrun, List.append_assoc _ _ _, ?_⟩
  rw [htrace]
  exact tells_pollReplies isOpen _ started.replies

theorem Looking.look {started : Started S C} {l : Progress S C} {ms : List (Nat × Move S C)}
    {rest : List (Event S C)} (h : Looking started l ms rest) (isOpen : Round) :
    ∃ ls rest', (∀ m ∈ ls, m.2.Looks) ∧
      Looking started (Level.look isOpen l) (ms ++ ls) rest' := by
  obtain ⟨ls, hls, hrun, htrace⟩ := Execution.resume_moves isOpen l.execution l.run
  refine ⟨ls, rest ++ ((Execution.resume isOpen l.execution l.run).events
    ++ (pollReplies isOpen l.replies).2), fun m hm => ?_, ?_, ?_, ?_⟩
  · obtain ⟨number, hmove, _⟩ := hls m hm
    exact ⟨isOpen, number, hmove⟩
  · show (Execution.resume isOpen l.execution l.run).execution = _
    rw [hrun, Execution.run_append, ← h.execution]
  · show l.events ++ _ ++ _ = _
    rw [h.events, List.append_assoc, List.append_assoc]
  · rw [Execution.trace_append, ← h.execution, ← htrace]
    exact perm_append_chain h.tells (tells_pollReplies isOpen _ l.replies)

theorem Looking.lookAll {started : Started S C} (rounds : List Round) {l : Progress S C}
    {ms : List (Nat × Move S C)} {rest : List (Event S C)} (h : Looking started l ms rest) :
    ∃ ls rest', (∀ m ∈ ls, m.2.Looks) ∧
      Looking started (Level.lookAll rounds l) (ms ++ ls) rest' := by
  induction rounds generalizing l ms rest with
  | nil =>
    refine ⟨[], rest, fun _ hm => (by cases hm), ?_⟩
    rw [List.append_nil]
    exact h
  | cons isOpen rounds ih =>
    obtain ⟨ls, rest', hls, hlook⟩ := h.look isOpen
    obtain ⟨ks, rest'', hks, hlooks⟩ := ih hlook
    refine ⟨ls ++ ks, rest'', fun m hm => (List.mem_append.mp hm).elim (hls m) (hks m), ?_⟩
    rw [← List.append_assoc]
    exact hlooks

/-- **A level is a joint history** of its batchers: when its fields were started every batcher
dispatches, and then ticks are looked at.  Besides the events of this history the returns of the
simple calls are told. -/
theorem run_history (world : World S) (registry : Registry S C) (context : C)
    {e : Execution S C} {tasks : List (FieldTask S)}
    (hd : ((start world registry context e tasks).execution.batchers.map Batcher.id).Nodup)
    (rounds : List Round) :
    let started := start world registry context e tasks
    let done := run world registry context rounds e tasks
    ∃ (isOpen : Round) (ls : List (Nat × Move S C)) (rest : List (Event S C)),
      (∀ m ∈ ls, m.2.Looks) ∧
      done.execution = started.execution.run
        (Execution.dispatchMoves isOpen started.execution.batchers ++ ls) ∧
      done.events = started.events ++ rest ∧
      rest.Perm (owed started.replies ++ started.execution.trace
        (Execution.dispatchMoves isOpen started.execution.batchers ++ ls)) := by
  intro started done
  cases rounds with
  | nil =>
    obtain ⟨hrun, hevents, htells⟩ := looking_dispatch hd Round.allOpen
    refine ⟨Round.allOpen, [], _, fun _ hm => (by cases hm), ?_, hevents, ?_⟩
    · rw [List.append_nil]
      exact hrun
    · rw [show owed (dispatch Round.allOpen started).replies = [] from owed_allOpen _,
        List.append_nil] at htells
      rw [List.append_nil]
      exact htells
  | cons r rs =>
    obtain ⟨ls, rest, hls, hlooking⟩ := (looking_dispatch hd r).lookAll (rs ++ [Round.allOpen])
    obtain ⟨hrun, hevents, htells⟩ := hlooking
    refine ⟨r, ls, rest, hls, hrun, hevents, ?_⟩
    rw [lookAll_concat, show owed (look Round.allOpen _).replies = [] from owed_allOpen _,
      List.append_nil] at htells
    exact htells

end Level
end Batchwise
