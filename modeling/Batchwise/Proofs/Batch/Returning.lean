import Batchwise.Proofs.Batch.Joint
import Batchwise.Proofs.Batch.Looks

/-!
# Dispatches of all batchers, and what they tell

All batchers dispatch together and are then looked at.  As a joint history this has no submissions;
it takes one tick of each batcher that has something pending; and when nothing runs any more every
call that was made is back.

* `backTo`                  the calls of one resolver that came back;
* `Move.Submits`, `Move.Looks`, `Move.Attends`   kinds of moves;
* `Execution.attends_dispatchMoves`   a dispatch of all batchers submits nothing;
* `Execution.perm_backTo_trace`       every call comes back;
* `Execution.takes_dispatchAll`       what is pending is taken as one tick.
-/

set_option linter.unusedSectionVars false

namespace Batchwise

variable {S C : Type} [DecidableEq S] [DecidableEq C]

/-! ### calls that come back -/

/-- the calls of one resolver that came back, in order. -/
def backTo (n : Nat) (events : List (Event S C)) : List (Call (List S) C) :=
  backCalls (about n events)

theorem backTo_append (n : Nat) (es fs : List (Event S C)) :
    backTo n (es ++ fs) = backTo n es ++ backTo n fs := by
  unfold backTo
  rw [about_append, backCalls_append]

theorem backTo_eq_nil {es : List (Event S C)} (h : ∀ e ∈ es, e.back? = none) (n : Nat) :
    backTo n es = [] :=
  List.filterMap_eq_nil_iff.mpr fun e he => h e (List.mem_filter.mp he).1

theorem perm_backTo {es fs : List (Event S C)} (h : es.Perm fs) (n : Nat) :
    (backTo n es).Perm (backTo n fs) := (h.filter _).filterMap _

theorem perm_callsTo {es fs : List (Event S C)} (h : es.Perm fs) (n : Nat) :
    (callsTo n es).Perm (callsTo n fs) := h.filterMap _

theorem callsTo_about (n : Nat) (es : List (Event S C)) :
    callsTo n es = madeCalls (about n es) := by
  unfold callsTo madeCalls about
  rw [List.filterMap_filter]
  refine List.filterMap_congr fun e _ => ?_
  cases e with
  | called m call =>
    by_cases hmn : m = n
    · simp [Event.callTo?, Event.call?, Event.resolver?, hmn]
    · simp [Event.callTo?, Event.resolver?, hmn]
  | _ =>
    show none = if _ then none else none
    rw [ite_self]

/-- the ticks that are told of are told of as their resolver's. -/
theorem countP_takes_about (n : Nat) (es : List (Event S C)) :
    (about n es).countP (Event.takes n) = es.countP (Event.takes n) := by
  unfold about
  rw [List.countP_filter]
  refine List.countP_congr fun e _ => ?_
  cases e <;> simp [Event.takes, Event.resolver?]

/-- the move submits a call. -/
def Move.Submits (m : Move S C) : Prop :=
  ∃ source args subfields context, m = .submit source args subfields context

/-- the move looks at a tick. -/
def Move.Looks (m : Move S C) : Prop := ∃ isOpen number, m = .poll isOpen number

/-- the move takes what is pending, or looks at a tick. -/
def Move.Attends (m : Move S C) : Prop := m = .beginTick ∨ m.Looks

namespace Batcher

/-- a look, and taking what is pending, tells of no submission. -/
theorem not_submitted_of_attends (b : Batcher S C) {m : Move S C} (hm : m.Attends) :
    ∀ event ∈ b.eventsBy m, event.isSubmitted = false := by
  rcases hm with rfl | ⟨isOpen, number, rfl⟩
  · show ∀ event ∈ b.beginTick.events, _
    obtain ⟨_, hevents⟩ | ⟨_, ⟨keys, groups, hevents⟩ | ⟨keys, hevents⟩⟩ := b.events_beginTick
    all_goals
      rw [hevents]
      simp [Event.isSubmitted]
  · intro event hevent
    have hwork := work_poll b isOpen number event hevent
    cases event with
    | submitted resolver shared => cases hwork
    | _ => rfl

theorem dispatchMoves_eq (b : Batcher S C) (isOpen : Gate → Bool) :
    ∃ looks : List (Move S C), (∀ m ∈ looks, m.Looks) ∧
      b.dispatchMoves isOpen = .beginTick :: looks := by
  unfold dispatchMoves
  cases b.beginTick.dispatch with
  | ended result => exact ⟨[], fun _ hm => (by cases hm), rfl⟩
  | running number =>
    refine ⟨[.poll isOpen number], fun m hm => ?_, rfl⟩
    rw [List.mem_singleton.mp hm]
    exact ⟨isOpen, number, rfl⟩

theorem notMem_of_looks {ms : List (Move S C)} (h : ∀ m ∈ ms, m.Looks) : .beginTick ∉ ms := by
  intro hm
  obtain ⟨_, _, heq⟩ := h _ hm
  cases heq

/-- a dispatch tells of one tick, if something is pending. -/
theorem takes_dispatchMoves (b : Batcher S C) (isOpen : Gate → Bool) :
    (b.trace (b.dispatchMoves isOpen)).countP (Event.takes b.id)
      = if b.hasPending then 1 else 0 := by
  obtain ⟨looks, hlooks, hmoves⟩ := b.dispatchMoves_eq isOpen
  have hrest := takes_trace (b.after .beginTick) (notMem_of_looks hlooks)
  rw [b.id_after] at hrest
  rw [hmoves, trace_cons, List.countP_append, hrest]
  exact b.takes_beginTick

end Batcher

namespace Execution

theorem attends_dispatchMoves {isOpen : Gate → Bool} {bs : List (Batcher S C)}
    {m : Nat × Move S C} (hm : m ∈ dispatchMoves isOpen bs) : m.2.Attends := by
  obtain ⟨b, _, hm⟩ := List.mem_flatMap.mp hm
  split at hm
  · obtain ⟨move, hmove, rfl⟩ := List.mem_map.mp hm
    obtain ⟨looks, hlooks, hmoves⟩ := b.dispatchMoves_eq isOpen
    rw [hmoves] at hmove
    exact (List.mem_cons.mp hmove).imp id (hlooks move)
  · cases hm

theorem mem_of_mem_own {n : Nat} {ms : List (Nat × Move S C)} {m : Move S C} (h : m ∈ own n ms) :
    (n, m) ∈ ms := by
  obtain ⟨⟨k, move⟩, hmem, heq⟩ := List.mem_filterMap.mp h
  dsimp only at heq
  split at heq
  · rename_i hk
    cases heq
    exact hk ▸ hmem
  · cases heq

theorem own_looks {ms : List (Nat × Move S C)} (h : ∀ m ∈ ms, m.2.Looks) (n : Nat) :
    ∀ m ∈ own n ms, m.Looks := fun _ hm => h _ (mem_of_mem_own hm)

/-- a joint history of dispatches and looks, after which nothing runs of what ran before, brings
back the calls that it makes. -/
theorem perm_backTo_trace {e : Execution S C} {ms : List (Nat × Move S C)}
    (hms : ∀ m ∈ ms, m.2.Attends) {n : Nat}
    (h : ∀ b, e.batcher? n = some b →
      b.Sound ∧ b.running = [] ∧ (b.run (own n ms)).running = []) :
    (backTo n (e.trace ms)).Perm (callsTo n (e.trace ms)) := by
  unfold backTo
  rw [callsTo_about, about_trace]
  cases hb : e.batcher? n with
  | none => exact List.Perm.refl []
  | some b =>
    obtain ⟨hsound, hbefore, hafter⟩ := h b hb
    have hkept : ∀ number, .drop number ∉ own n ms := fun number hm => by
      obtain heq | ⟨_, _, heq⟩ := hms _ (mem_of_mem_own hm)
      · cases heq
      · cases heq
    have hcalls := Batcher.calls_run hsound hkept
    unfold Batcher.waitingCalls at hcalls
    rw [hbefore, hafter, List.flatMap_nil, List.append_nil, List.nil_append] at hcalls
    exact hcalls

/-- a dispatch of all batchers that is looked at takes one tick of each that has something
pending. -/
theorem takes_dispatchAll {e : Execution S C} (hd : (e.batchers.map Batcher.id).Nodup) {n : Nat}
    {b : Batcher S C} (hb : e.batcher? n = some b) (isOpen : Gate → Bool)
    {ls : List (Nat × Move S C)} (hls : ∀ m ∈ ls, m.2.Looks) :
    (b.trace (own n (dispatchMoves isOpen e.batchers ++ ls))).countP (Event.takes n)
      = if b.hasPending then 1 else 0 := by
  have hid : b.id = n := id_of_batcher? hb
  have hlooks : ∀ c : Batcher S C, c.id = n →
      (c.trace (own n ls)).countP (Event.takes n) = 0 := fun c hc =>
    hc ▸ c.takes_trace (Batcher.notMem_of_looks (own_looks hls _))
  have hdispatch := hid ▸ b.takes_dispatchMoves isOpen
  rw [own_append, own_dispatchMoves isOpen hd hb, Batcher.trace_append, List.countP_append,
    hlooks _ ((b.id_run _).trans hid), Nat.add_zero]
  cases hpending : b.hasPending with
  | true =>
    rw [hpending] at hdispatch
    exact hdispatch
  | false => rfl

end Execution
end Batchwise
