import Batchwise.Proofs.Batch.Settlement

/-!
# What moves leave behind

What is left of a move besides the results: what is pending and the numbers to come, what its
caller is given, and the events on the way.  A batcher speaks of nobody but its own resolver.

* `Batcher.intake`          what is pending and the numbers to come: `intake_after`;
* `Batcher.receipt`, `Batcher.trace`   what the caller of a move is given, and the events of a
                            history, in order;
* `AllAbout`                all events are about one resolver: `allAbout_poll`.
-/

set_option linter.unusedSectionVars false

namespace Batchwise

variable {S C : Type} [DecidableEq S] [DecidableEq C]

/-- whether a move changes what is pending: it submits a call, or it takes what is pending. -/
def Move.fills : Move S C → Bool
  | .submit _ _ _ _ => true
  | .beginTick => true
  | _ => false

/-- what the caller of a move is given. -/
inductive Receipt
  | ticket (t : Ticket)
  | dispatch (d : Dispatch)
  | nothing

namespace Batcher

/-! ### pending calls and numbers to come -/

theorem hasPending_iff {b : Batcher S C} : b.hasPending = true ↔ b.pending.entries ≠ [] := by
  unfold hasPending Table.isEmpty
  cases b.pending.entries <;> simp

/-- taking what is pending tells of it in one event, if there is something. -/
theorem events_beginTick (b : Batcher S C) :
    (b.hasPending = false ∧ b.beginTick.events = []) ∨
    (b.hasPending = true ∧ ((∃ keys groups, b.beginTick.events = [.dispatched b.id keys groups]) ∨
      ∃ keys, b.beginTick.events = [.diverged b.id keys])) := by
  by_cases hnil : b.pending.entries = []
  · rw [beginTick_of_nil hnil]
    exact Or.inl ⟨Bool.eq_false_iff.mpr fun h => hasPending_iff.mp h hnil, rfl⟩
  · refine Or.inr ⟨hasPending_iff.mpr hnil, ?_⟩
    by_cases hsame : SameContext b.pending.entries
    · obtain ⟨e, he⟩ := List.exists_mem_of_ne_nil _ hnil
      rw [beginTick_of_same he hsame]
      exact Or.inl ⟨_, _, rfl⟩
    · rw [beginTick_of_differ hsame]
      exact Or.inr ⟨_, rfl⟩

/-- what is pending, and the numbers of the next tick and of the next ticket. -/
structure Intake (S C : Type) where
  pending : Table (Key S C) Pending
  ticks : Nat
  tickets : Nat

def intake (b : Batcher S C) : Intake S C := ⟨b.pending, b.ticks, b.results.size⟩

theorem size_settle (b : Batcher S C) (es : List (Ticket × CallResult S)) :
    (b.settle es).results.size = b.results.size := by
  show (es.foldl _ b.results).size = _
  generalize b.results = rs
  induction es generalizing rs with
  | nil => rfl
  | cons e es ih => exact (ih _).trans Array.size_setIfInBounds

theorem intake_settle (b : Batcher S C) (es : List (Ticket × CallResult S)) :
    (b.settle es).intake = b.intake :=
  congrArg (Intake.mk b.pending b.ticks) (size_settle b es)

theorem intake_poll (b : Batcher S C) (isOpen : Gate → Bool) (number : Nat) :
    (b.poll isOpen number).batcher.intake = b.intake := by
  rcases poll_cases b isOpen number with ⟨_, hb, _⟩ | ⟨t, _, _, ⟨_, _, hb⟩ | ⟨_, _, hb⟩⟩
  · rw [hb]
  · rw [hb]
    exact intake_settle b _
  · rw [hb]
    exact intake_settle b _

theorem intake_drop (b : Batcher S C) (number : Nat) : (b.drop number).intake = b.intake := by
  cases ht : b.tick? number with
  | none => rw [drop_of_none ht]
  | some t =>
    rw [drop_of_some ht]
    exact intake_settle b _

theorem intake_beginTick (b : Batcher S C) : b.beginTick.batcher.intake =
    if b.pending.entries = [] then b.intake else ⟨.empty, b.ticks + 1, b.results.size⟩ := by
  by_cases hnil : b.pending.entries = []
  · rw [beginTick_of_nil hnil, if_pos hnil]
  · rw [if_neg hnil]
    by_cases hsame : SameContext b.pending.entries
    · obtain ⟨e, he⟩ := List.exists_mem_of_ne_nil _ hnil
      rw [beginTick_of_same he hsame]
      rfl
    · rw [beginTick_of_differ hsame]
      exact intake_settle b.take _

/-- only submissions and dispatches change what is pending and the numbers to come. -/
theorem intake_after (b : Batcher S C) {m : Move S C} (hm : m.fills = false) :
    (b.after m).intake = b.intake := by
  cases m with
  | submit source args subfields context => cases hm
  | beginTick => cases hm
  | wake isOpen => rfl
  | poll isOpen number => exact intake_poll b isOpen number
  | drop number => exact intake_drop b number
  | answer run => rfl

/-! ### the events of a history -/

def eventsBy (b : Batcher S C) : Move S C → List (Event S C)
  | .submit source args subfields context => (b.submit source args subfields context).events
  | .beginTick => b.beginTick.events
  | .poll isOpen number => (b.poll isOpen number).events
  | _ => []

/-- the events of a history, in order. -/
def trace : Batcher S C → List (Move S C) → List (Event S C)
  | _, [] => []
  | b, m :: ms => b.eventsBy m ++ trace (b.after m) ms

def receipt (b : Batcher S C) : Move S C → Receipt
  | .submit source args subfields context =>
    .ticket (b.submit source args subfields context).ticket
  | .beginTick => .dispatch b.beginTick.dispatch
  | .poll isOpen number => .dispatch (b.poll isOpen number).dispatch
  | _ => .nothing

theorem trace_cons (b : Batcher S C) (m : Move S C) (ms : List (Move S C)) :
    b.trace (m :: ms) = b.eventsBy m ++ (b.after m).trace ms := rfl

theorem trace_append (b : Batcher S C) (ms ns : List (Move S C)) :
    b.trace (ms ++ ns) = b.trace ms ++ (b.run ms).trace ns := by
  induction ms generalizing b with
  | nil => rfl
  | cons m ms ih => rw [List.cons_append, trace_cons, trace_cons, ih, run_cons, List.append_assoc]

end Batcher

/-! ### whom events are about -/

/-- the resolver that an event is about. -/
def Event.resolver? : Event S C → Option Nat
  | .submitted resolver _ => some resolver
  | .dispatched resolver _ _ => some resolver
  | .diverged resolver _ => some resolver
  | .invoked resolver _ => some resolver
  | .called resolver _ => some resolver
  | .returned resolver _ => some resolver
  | .groupFailed resolver _ _ => some resolver
  | .unrequested resolver _ => some resolver
  | .missing resolver _ => some resolver
  | .level _ _ => none

def AllAbout (resolver : Nat) (events : List (Event S C)) : Prop :=
  ∀ e ∈ events, e.resolver? = some resolver

namespace AllAbout

variable {n : Nat} {es fs : List (Event S C)}

theorem nil : AllAbout n ([] : List (Event S C)) := fun _ he => by cases he

theorem cons {e : Event S C} (he : e.resolver? = some n) (hes : AllAbout n es) :
    AllAbout n (e :: es) := by
  intro f hf
  rcases List.mem_cons.mp hf with rfl | hf
  · exact he
  · exact hes f hf

theorem append (hes : AllAbout n es) (hfs : AllAbout n fs) : AllAbout n (es ++ fs) :=
  fun e he => (List.mem_append.mp he).elim (hes e) (hfs e)

end AllAbout

theorem Group.allAbout_countEvent {n : Nat} {event : Nat → Event S C}
    (h : ∀ count, (event count).resolver? = some n) (count : Nat) :
    AllAbout n (countEvent event count) := by
  unfold countEvent
  split
  · exact AllAbout.nil
  · exact AllAbout.nil.cons (h count)

theorem Group.allAbout_finish (s : Service S C) (g : Group S C) (outcome : BatchOutcome S) :
    AllAbout s.id (g.finish s outcome).events := by
  cases outcome with
  | ok answers =>
    exact (allAbout_countEvent (fun _ => rfl) _).append (allAbout_countEvent (fun _ => rfl) _)
  | error failure => exact AllAbout.nil.cons rfl

namespace Running

theorem allAbout_poll (s : Service S C) (isOpen : Gate → Bool) (r : Running S C) :
    AllAbout s.id (r.poll s isOpen).events := by
  unfold poll
  dsimp only
  split
  · exact (Group.allAbout_finish s r.group _).cons rfl
  · exact AllAbout.nil

theorem allAbout_pollAll (s : Service S C) (isOpen : Gate → Bool) (rs : List (Running S C)) :
    AllAbout s.id (pollAll s isOpen rs).events := by
  induction rs with
  | nil => exact AllAbout.nil
  | cons r rs ih => exact (allAbout_poll s isOpen r).append ih

theorem allAbout_start (s : Service S C) (isOpen : Gate → Bool) (context : C) (g : Group S C) :
    AllAbout s.id (start s isOpen context g).events :=
  ((allAbout_poll s isOpen ⟨g, g.call s context, s.run (g.call s context)⟩).cons rfl).cons rfl

end Running

namespace Tick

theorem allAbout_startQueued (s : Service S C) (isOpen : Gate → Bool) (context : C)
    (limit busy : Nat) (gs : List (Group S C)) :
    AllAbout s.id (startQueued s isOpen context limit busy gs).1.events := by
  induction gs generalizing busy with
  | nil => exact AllAbout.nil
  | cons g gs ih =>
    rw [startQueued]
    split
    · exact (Running.allAbout_start s isOpen context g).append (ih _)
    · exact AllAbout.nil

theorem allAbout_poll (s : Service S C) (isOpen : Gate → Bool) (t : Tick S C) :
    AllAbout s.id (t.poll s isOpen).events :=
  (Running.allAbout_pollAll s isOpen _).append (allAbout_startQueued s isOpen _ _ _ _)

end Tick

/-- a look at a tick tells of nobody but the batcher's own resolver. -/
theorem Batcher.allAbout_poll (b : Batcher S C) (isOpen : Gate → Bool) (number : Nat) :
    AllAbout b.id (b.poll isOpen number).events := by
  rcases poll_cases b isOpen number with ⟨_, _, _, hevents⟩ | ⟨t, _, hevents, _⟩
  · rw [hevents]
    exact AllAbout.nil
  · rw [hevents]
    exact Tick.allAbout_poll b.service isOpen t

theorem Batcher.allAbout_beginTick (b : Batcher S C) : AllAbout b.id b.beginTick.events := by
  obtain ⟨_, hevents⟩ | ⟨_, ⟨keys, groups, hevents⟩ | ⟨keys, hevents⟩⟩ := b.events_beginTick
  · rw [hevents]
    exact AllAbout.nil
  · rw [hevents]
    exact AllAbout.nil.cons rfl
  · rw [hevents]
    exact AllAbout.nil.cons rfl

end Batchwise
