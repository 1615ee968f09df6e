import Batchwise.Proofs.Batch.Trace

/-!
# What a look tells

A look at started groups tells only of their work: calls that are made and that come back, and
groups that fail.  Its events agree with what it leaves: every call that is made is announced, every
call that was made comes back or is waited for, and every failed group is counted.

* `Event.isWork`        the events of a look;
* `Progress.Tells`      what the events of a look say: `Progress.Tells.append`;
* `Tick.tells_poll`     a look at a tick;
* `Batcher.waitingCalls`   the calls that a batcher waits for: `Batcher.calls_run`;
* `Event.takes`         the events of taking a tick: `Batcher.ticks_run`.
-/

set_option linter.unusedSectionVars false

namespace Batchwise

variable {S C : Type} [DecidableEq S] [DecidableEq C]

/-! ### kinds of events -/

namespace Event

/-- whether an event belongs to the work on started groups. -/
def isWork : Event S C → Bool
  | .invoked _ _ => true
  | .called _ _ => true
  | .returned _ _ => true
  | .groupFailed _ _ _ => true
  | .unrequested _ _ => true
  | .missing _ _ => true
  | _ => false

def isSubmitted : Event S C → Bool
  | .submitted _ _ => true
  | _ => false

def isGroupFailed : Event S C → Bool
  | .groupFailed _ _ _ => true
  | _ => false

/-- the resolver that a group is about to be handed to. -/
def invoked? : Event S C → Option Nat
  | .invoked resolver _ => some resolver
  | _ => none

/-- the call that came back. -/
def back? : Event S C → Option (Call (List S) C)
  | .returned _ call => some call
  | _ => none

end Event

/-- the resolvers that groups were handed to. -/
def invokedResolvers (events : List (Event S C)) : List Nat := events.filterMap Event.invoked?

/-- the calls that came back. -/
def backCalls (events : List (Event S C)) : List (Call (List S) C) :=
  events.filterMap Event.back?

theorem invokedResolvers_append (es fs : List (Event S C)) :
    invokedResolvers (es ++ fs) = invokedResolvers es ++ invokedResolvers fs := List.filterMap_append

theorem backCalls_append (es fs : List (Event S C)) :
    backCalls (es ++ fs) = backCalls es ++ backCalls fs := List.filterMap_append

/-! ### looks -/

namespace Progress

/-- what the events of a look at some started groups say. -/
structure Tells (p : Progress S C) (old : List (Running S C)) : Prop where
  work : ∀ e ∈ p.events, e.isWork = true
  invoked : (invokedResolvers p.events).length = (madeCalls p.events).length
  failed : p.events.countP Event.isGroupFailed = p.failed
  back : (backCalls p.events ++ p.running.map Running.call).Perm
    (old.map Running.call ++ madeCalls p.events)

theorem tells_none : (none : Progress S C).Tells [] :=
  ⟨fun _ he => (by cases he), rfl, rfl, List.Perm.refl []⟩

theorem Tells.append {p q : Progress S C} {rs rs' : List (Running S C)} (hp : p.Tells rs)
    (hq : q.Tells rs') : (p ++ q).Tells (rs ++ rs') := by
  have hevents : (p ++ q).events = p.events ++ q.events := rfl
  have hrunning : (p ++ q).running = p.running ++ q.running := rfl
  refine ⟨fun e he => ?_, ?_, ?_, ?_⟩
  · exact (List.mem_append.mp he).elim (hp.work e) (hq.work e)
  · rw [hevents, invokedResolvers_append, madeCalls_append, List.length_append, List.length_append,
      hp.invoked, hq.invoked]
  · rw [hevents, List.countP_append, hp.failed, hq.failed]
    rfl
  · rw [hevents, hrunning, backCalls_append, madeCalls_append, List.map_append, List.map_append]
    exact (perm_append_exchange _ _ _ _).trans
      ((hp.back.append hq.back).trans (perm_append_exchange _ _ _ _))

end Progress

theorem Group.tells_finish (s : Service S C) (g : Group S C) (outcome : BatchOutcome S) :
    (∀ e ∈ (g.finish s outcome).events, e.isWork = true ∧ e.invoked? = none ∧ e.back? = none) ∧
      (g.finish s outcome).events.countP Event.isGroupFailed = (g.finish s outcome).failed := by
  cases outcome with
  | ok answers =>
    show (∀ e ∈ countEvent _ _ ++ countEvent _ _, _) ∧
      (countEvent _ _ ++ countEvent _ _).countP Event.isGroupFailed = 0
    unfold countEvent
    split <;> split <;> simp [Event.isWork, Event.invoked?, Event.back?, Event.isGroupFailed]
  | error failure =>
    show (∀ e ∈ [Event.groupFailed s.id failure g.members.length], _) ∧ _
    simp [Event.isWork, Event.invoked?, Event.back?]
    rfl

namespace Running

theorem tells_poll (s : Service S C) (isOpen : Gate → Bool) (r : Running S C) :
    (r.poll s isOpen).Tells [r] := by
  unfold poll
  dsimp only
  split
  · obtain ⟨hwork, hfailed⟩ := r.group.tells_finish s (r.awaited.poll isOpen).value
    have hevents : ((r.group.finish s (r.awaited.poll isOpen).value).after
        [.returned s.id r.call]).events
      = .returned s.id r.call :: (r.group.finish s (r.awaited.poll isOpen).value).events := rfl
    have hinvoked : invokedResolvers (r.group.finish s (r.awaited.poll isOpen).value).events = [] :=
      List.filterMap_eq_nil_iff.mpr fun e he => (hwork e he).2.1
    have hback : backCalls (r.group.finish s (r.awaited.poll isOpen).value).events = [] :=
      List.filterMap_eq_nil_iff.mpr fun e he => (hwork e he).2.2
    have hmade := madeCalls_finish s r.group (r.awaited.poll isOpen).value
    refine ⟨fun e he => ?_, ?_, ?_, ?_⟩
    · rcases List.mem_cons.mp he with rfl | he
      · rfl
      · exact (hwork e he).1
    · show (invokedResolvers (r.group.finish s _).events).length
        = (madeCalls (r.group.finish s _).events).length
      rw [hinvoked, hmade]
      rfl
    · exact hfailed
    · show (r.call :: backCalls (r.group.finish s _).events ++
        (r.group.finish s _).running.map call).Perm
        ([r.call] ++ madeCalls (r.group.finish s _).events)
      rw [hback, hmade, Group.running_finish]
      exact List.Perm.refl _
  · exact ⟨fun _ he => (by cases he), rfl, rfl, List.Perm.refl _⟩

theorem tells_start (s : Service S C) (isOpen : Gate → Bool) (context : C) (g : Group S C) :
    (start s isOpen context g).Tells [] := by
  let r : Running S C := ⟨g, g.call s context, s.run (g.call s context)⟩
  obtain ⟨hwork, hinvoked, hfailed, hback⟩ := tells_poll s isOpen r
  refine ⟨fun e he => ?_, ?_, hfailed, ?_⟩
  · rcases List.mem_cons.mp he with rfl | he
    · rfl
    · rcases List.mem_cons.mp he with rfl | he
      · rfl
      · exact hwork e he
  · show (s.id :: invokedResolvers (r.poll s isOpen).events).length
      = (g.call s context :: madeCalls (r.poll s isOpen).events).length
    rw [List.length_cons, List.length_cons, hinvoked]
  · show (backCalls (r.poll s isOpen).events ++ (r.poll s isOpen).running.map call).Perm
      (g.call s context :: madeCalls (r.poll s isOpen).events)
    exact hback

theorem tells_pollAll (s : Service S C) (isOpen : Gate → Bool) (rs : List (Running S C)) :
    (pollAll s isOpen rs).Tells rs := by
  induction rs with
  | nil => exact Progress.tells_none
  | cons r rs ih => exact (tells_poll s isOpen r).append ih

end Running

namespace Tick

theorem tells_startQueued (s : Service S C) (isOpen : Gate → Bool) (context : C)
    (limit busy : Nat) (gs : List (Group S C)) :
    (startQueued s isOpen context limit busy gs).1.Tells [] := by
  induction gs generalizing busy with
  | nil => exact Progress.tells_none
  | cons g gs ih =>
    rw [startQueued]
    split
    · exact (Running.tells_start s isOpen context g).append (ih _)
    · exact Progress.tells_none

/-- **What a look at a tick tells.**  It tells of work only; it announces every call that it makes,
and counts every group that fails; and every call that was made is back or is waited for. -/
theorem tells_poll (s : Service S C) (isOpen : Gate → Bool) (t : Tick S C) :
    (∀ e ∈ (t.poll s isOpen).events, e.isWork = true) ∧
      (invokedResolvers (t.poll s isOpen).events).length
        = (madeCalls (t.poll s isOpen).events).length ∧
      t.failed + (t.poll s isOpen).events.countP Event.isGroupFailed
        = (t.poll s isOpen).tick.failed ∧
      (backCalls (t.poll s isOpen).events
          ++ (t.poll s isOpen).tick.running.map Running.call).Perm
        (t.running.map Running.call ++ madeCalls (t.poll s isOpen).events) := by
  let w := t.wake isOpen
  let looked := Running.pollAll s isOpen w.woken
  let started := (startQueued s isOpen t.context t.limit
    (w.waiting.length + looked.running.length) t.queued).1
  have hall : (looked ++ started).Tells (w.woken ++ []) :=
    (Running.tells_pollAll s isOpen w.woken).append (tells_startQueued s isOpen _ _ _ _)
  rw [List.append_nil] at hall
  obtain ⟨hwork, hinvoked, hfailed, hback⟩ := hall
  refine ⟨hwork, hinvoked, congrArg (t.failed + ·) hfailed, ?_⟩
  -- the groups that were not looked at are waited for as before
  show (backCalls (looked ++ started).events ++
    (w.waiting ++ (looked ++ started).running).map Running.call).Perm _
  have hold : (w.woken.map Running.call ++ w.waiting.map Running.call).Perm
      (t.running.map Running.call) := by
    rw [← List.map_append]
    exact (running_wake isOpen t).map Running.call
  rw [List.map_append]
  refine List.Perm.trans ?_ (hold.append_right _)
  refine (List.perm_append_comm_assoc _ _ _).trans ?_
  refine (hback.append_left _).trans ?_
  rw [← List.append_assoc]
  exact List.perm_append_comm.append_right _

end Tick

namespace Batcher

/-- a look at a tick tells of work only. -/
theorem work_poll (b : Batcher S C) (isOpen : Gate → Bool) (number : Nat) :
    ∀ e ∈ (b.poll isOpen number).events, e.isWork = true := by
  rcases poll_cases b isOpen number with ⟨_, _, _, hevents⟩ | ⟨t, _, hevents, _⟩
  · rw [hevents]
    exact fun _ he => by cases he
  · rw [hevents]
    exact (t.tells_poll b.service isOpen).1

/-! ### calls come back -/

/-- the calls that were made and are not back. -/
def waitingCalls (b : Batcher S C) : List (Call (List S) C) :=
  b.running.flatMap fun t => t.running.map Running.call

theorem calls_beginTick (b : Batcher S C) :
    backCalls b.beginTick.events = [] ∧ madeCalls b.beginTick.events = [] ∧
      b.beginTick.batcher.waitingCalls = b.waitingCalls := by
  by_cases hnil : b.pending.entries = []
  · rw [beginTick_of_nil hnil]
    exact ⟨rfl, rfl, rfl⟩
  · obtain ⟨e, he⟩ := List.exists_mem_of_ne_nil _ hnil
    by_cases hsame : SameContext b.pending.entries
    · rw [beginTick_of_same he hsame]
      refine ⟨rfl, rfl, ?_⟩
      show (b.running ++ [b.formTick e.1.context b.pending.entries]).flatMap _ = _
      rw [List.flatMap_append]
      exact List.append_nil _
    · rw [beginTick_of_differ hsame]
      exact ⟨rfl, rfl, rfl⟩

theorem calls_poll {b : Batcher S C} (hb : b.Sound) (isOpen : Gate → Bool) (number : Nat) :
    (backCalls (b.poll isOpen number).events ++ (b.poll isOpen number).batcher.waitingCalls).Perm
      (b.waitingCalls ++ madeCalls (b.poll isOpen number).events) := by
  cases ht : b.tick? number with
  | none =>
    rw [poll_of_none ht]
    exact List.Perm.of_eq (List.append_nil _).symm
  | some t =>
    obtain ⟨us, vs, hsplit, hrunning⟩ := running_poll hb.numbers isOpen ht
    have hevents : (b.poll isOpen number).events = (t.poll b.service isOpen).events := by
      rcases poll_cases b isOpen number with ⟨hnone, _⟩ | ⟨u, hu, hevents, _⟩
      · cases hnone.symm.trans ht
      · rw [hevents, Option.some.inj (hu.symm.trans ht)]
    -- a tick that is done waits for nothing
    have hmiddle : (if (t.poll b.service isOpen).tick.isDone then []
        else [(t.poll b.service isOpen).tick]).flatMap (fun t => t.running.map Running.call)
        = (t.poll b.service isOpen).tick.running.map Running.call := by
      cases hdone : (t.poll b.service isOpen).tick.isDone with
      | true =>
        have hover := List.isEmpty_iff.mp (Bool.and_eq_true_iff.mp hdone).2
        rw [if_pos rfl, hover]
        rfl
      | false => exact List.flatMap_singleton _ _
    have htells := (t.tells_poll b.service isOpen).2.2.2
    unfold waitingCalls
    rw [hevents, hsplit, hrunning, List.flatMap_append, List.flatMap_append, List.flatMap_append,
      List.flatMap_cons, hmiddle]
    classical
    rw [List.perm_iff_count] at htells ⊢
    intro call
    have hcount := htells call
    simp only [List.count_append] at hcount ⊢
    omega

/-- in a move that gives nothing up, every call that was waited for or made comes back or is waited
for. -/
theorem calls_after {b : Batcher S C} (hb : b.Sound) {m : Move S C}
    (hm : ∀ number, m ≠ .drop number) :
    (backCalls (b.eventsBy m) ++ (b.after m).waitingCalls).Perm
      (b.waitingCalls ++ madeCalls (b.eventsBy m)) := by
  cases m with
  | submit source args subfields context =>
    obtain ⟨shared, hevents⟩ := b.events_submit source args subfields context
    show (backCalls (b.submit source args subfields context).events ++ _).Perm
      (_ ++ madeCalls (b.submit source args subfields context).events)
    rw [hevents]
    refine List.Perm.of_eq (Eq.trans ?_ (List.append_nil _).symm)
    obtain ⟨phase, ⟨_, _, _, hb'⟩ | ⟨_, _, hb'⟩⟩ := submit_cases b source args subfields context
    · rw [after_submit, hb']
      rfl
    · rw [after_submit, hb']
      rfl
  | beginTick =>
    obtain ⟨hback, hmade, hwaiting⟩ := calls_beginTick b
    rw [after_beginTick]
    show (backCalls b.beginTick.events ++ _).Perm (_ ++ madeCalls b.beginTick.events)
    rw [hback, hmade, hwaiting, List.append_nil]
    exact List.Perm.refl _
  | wake isOpen =>
    show ((b.running.map (Tick.wake isOpen)).flatMap _).Perm (b.waitingCalls ++ [])
    rw [List.flatMap_map, List.append_nil]
    exact List.Perm.flatMap_left _ fun t _ => (t.running_wake isOpen).map Running.call
  | poll isOpen number => exact calls_poll hb isOpen number
  | drop number => exact absurd rfl (hm number)
  | answer run => exact List.Perm.of_eq (List.append_nil _).symm

/-- **Calls come back.**  While nothing is given up, every call that was made is back or is waited
for. -/
theorem calls_run {b : Batcher S C} (hb : b.Sound) {ms : List (Move S C)}
    (hms : ∀ number, .drop number ∉ ms) :
    (backCalls (b.trace ms) ++ (b.run ms).waitingCalls).Perm
      (b.waitingCalls ++ madeCalls (b.trace ms)) := by
  induction ms generalizing b with
  | nil => exact List.Perm.of_eq (List.append_nil _).symm
  | cons m ms ih =>
    have hfirst := calls_after hb (m := m) fun number h =>
      hms number (h ▸ List.mem_cons_self)
    have hrest := ih (hb.after m) fun number h => hms number (List.mem_cons_of_mem m h)
    rw [trace_cons, backCalls_append, madeCalls_append, run_cons]
    exact perm_append_chain hfirst hrest

end Batcher

/-! ### taking a tick -/

/-- whether an event tells that a resolver's pending calls were taken as a tick. -/
def Event.takes (n : Nat) : Event S C → Bool
  | .dispatched resolver _ _ => resolver == n
  | .diverged resolver _ => resolver == n
  | _ => false

theorem takes_of_work {n : Nat} {e : Event S C} (h : e.isWork = true) : e.takes n = false := by
  cases e with
  | dispatched resolver keys groups => cases h
  | diverged resolver keys => cases h
  | _ => rfl

namespace Batcher

/-- taking what is pending tells of one tick, if there is something. -/
theorem takes_beginTick (b : Batcher S C) :
    b.beginTick.events.countP (Event.takes b.id) = if b.hasPending then 1 else 0 := by
  obtain ⟨hpending, hevents⟩ | ⟨hpending, ⟨keys, groups, hevents⟩ | ⟨keys, hevents⟩⟩ :=
    b.events_beginTick
  · rw [hpending, hevents]
    rfl
  · rw [hpending, hevents]
    simp [Event.takes]
  · rw [hpending, hevents]
    simp [Event.takes]

/-- no other move tells of a tick that is taken. -/
theorem takes_eventsBy (b : Batcher S C) {m : Move S C} (hm : m ≠ .beginTick) :
    (b.eventsBy m).countP (Event.takes b.id) = 0 := by
  cases m with
  | submit source args subfields context =>
    obtain ⟨shared, hevents⟩ := b.events_submit source args subfields context
    show (b.submit source args subfields context).events.countP _ = 0
    rw [hevents]
    rfl
  | beginTick => exact absurd rfl hm
  | poll isOpen number =>
    refine List.countP_eq_zero.mpr fun e he => ?_
    rw [takes_of_work (work_poll b isOpen number e he)]
    exact Bool.false_ne_true
  | _ => rfl

theorem takes_trace (b : Batcher S C) {ms : List (Move S C)} (hms : .beginTick ∉ ms) :
    (b.trace ms).countP (Event.takes b.id) = 0 := by
  induction ms generalizing b with
  | nil => rfl
  | cons m ms ih =>
    have hid : (b.after m).id = b.id := congrArg Binding.id (carried_after b m).binding
    have hfirst := b.takes_eventsBy fun h : m = .beginTick => hms (h ▸ List.mem_cons_self)
    have hrest := ih (b.after m) fun h => hms (List.mem_cons_of_mem m h)
    rw [hid] at hrest
    rw [trace_cons, List.countP_append, hfirst, hrest]

theorem ticks_submit (b : Batcher S C) (source : S) (args : Args) (subfields : List Field)
    (context : C) : (b.submit source args subfields context).batcher.ticks = b.ticks := by
  obtain ⟨phase, ⟨_, _, _, hb'⟩ | ⟨_, _, hb'⟩⟩ := submit_cases b source args subfields context
  · rw [hb']
  · rw [hb']
    rfl

/-- a move tells of the ticks that it takes. -/
theorem ticks_after (b : Batcher S C) (m : Move S C) :
    (b.after m).ticks = b.ticks + (b.eventsBy m).countP (Event.takes b.id) := by
  cases m with
  | beginTick =>
    show b.beginTick.batcher.ticks = _ + b.beginTick.events.countP _
    rw [takes_beginTick]
    refine (congrArg Intake.ticks (intake_beginTick b)).trans ?_
    by_cases hnil : b.pending.entries = []
    · rw [if_pos hnil, if_neg fun h => hasPending_iff.mp h hnil]
      rfl
    · rw [if_neg hnil, if_pos (hasPending_iff.mpr hnil)]
  | submit source args subfields context =>
    rw [takes_eventsBy b fun h => by cases h]
    exact ticks_submit b source args subfields context
  | wake isOpen => rfl
  | poll isOpen number =>
    rw [takes_eventsBy b fun h => by cases h]
    exact congrArg Intake.ticks (intake_poll b isOpen number)
  | drop number => exact congrArg Intake.ticks (intake_drop b number)
  | answer run => rfl

/-- **The ticks of a history** are those that it tells of. -/
theorem ticks_run (b : Batcher S C) (ms : List (Move S C)) :
    (b.run ms).ticks = b.ticks + (b.trace ms).countP (Event.takes b.id) := by
  induction ms generalizing b with
  | nil => rfl
  | cons m ms ih =>
    have hid : (b.after m).id = b.id := congrArg Binding.id (carried_after b m).binding
    rw [run_cons, trace_cons, List.countP_append, ih, ticks_after, hid, Nat.add_assoc]

end Batcher
end Batchwise
