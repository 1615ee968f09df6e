import Batchwise.Proofs.Batch.Grouping
import Batchwise.Proofs.Batch.Looks
import Mathlib.Algebra.Order.Group.Multiset

/-!
# The groups of a tick pass a window

The calls of a tick's groups wait in a queue.  They are made in its order, each as soon as fewer are
away than the limit of the tick, and come back in whatever order their gates open.  So at any moment
no more calls are away than the limit says, whichever came back first; no group is passed over, and
none is called twice.

* `Window`                    calls that leave a queue in order while at most so many are away;
* `Window.of_append`, `Window.made`, `Window.back`   what is true at any moment of a window;
* `Tick.window_poll`          a look at a tick goes on with its window;
* `Batcher.window_run`        and so does a whole history;
* `Batcher.groups_start_in_order`   the groups of a dispatch.
-/

set_option linter.unusedSectionVars false

namespace Batchwise

variable {S C : Type} [DecidableEq S] [DecidableEq C]

/-! ### windows -/

/-- calls that are still to be made, the first one first, and calls that were made and are away. -/
structure Backlog (S C : Type) where
  queue : List (Call (List S) C)
  away : Multiset (Call (List S) C)

/-- calls leave a queue one after the other, and any call that is away may come back; at no moment
are more than `limit` away. -/
inductive Window (limit : Nat) : Backlog S C → List (Event S C) → Backlog S C → Prop
  | idle {w : Backlog S C} (h : w.away.card ≤ limit) : Window limit w [] w
  | leave {call : Call (List S) C} {queue : List (Call (List S) C)}
      {away : Multiset (Call (List S) C)} {n : Nat} {events : List (Event S C)} {w : Backlog S C}
      (hrest : Window limit ⟨queue, call ::ₘ away⟩ events w) :
      Window limit ⟨call :: queue, away⟩ (.called n call :: events) w
  | return {call : Call (List S) C} {queue : List (Call (List S) C)}
      {away : Multiset (Call (List S) C)} {n : Nat} {events : List (Event S C)} {w : Backlog S C}
      (h : (call ::ₘ away).card ≤ limit) (hrest : Window limit ⟨queue, away⟩ events w) :
      Window limit ⟨queue, call ::ₘ away⟩ (.returned n call :: events) w
  | other {v w : Backlog S C} {e : Event S C} {events : List (Event S C)} (hcall : e.call? = none)
      (hback : e.back? = none) (hrest : Window limit v events w) : Window limit v (e :: events) w

namespace Window

variable {limit : Nat} {u v w : Backlog S C} {es fs : List (Event S C)}

theorem card_le (h : Window limit v es w) : v.away.card ≤ limit := by
  induction h with
  | idle h => exact h
  | leave _ ih => exact Nat.le_trans (Multiset.card_le_card (Multiset.le_cons_self _ _)) ih
  | «return» h _ _ => exact h
  | other _ _ _ ih => exact ih

theorem card_le_end (h : Window limit v es w) : w.away.card ≤ limit := by
  induction h with
  | idle h => exact h
  | leave _ ih => exact ih
  | «return» _ _ ih => exact ih
  | other _ _ _ ih => exact ih

theorem trans (h : Window limit u es v) (h' : Window limit v fs w) :
    Window limit u (es ++ fs) w := by
  induction h with
  | idle _ => exact h'
  | leave _ ih => exact .leave (ih h')
  | «return» h _ ih => exact .return h (ih h')
  | other hcall hback _ ih => exact .other hcall hback (ih h')

/-- what happens at first in a window is a window. -/
theorem of_append (h : Window limit u (es ++ fs) w) : ∃ v, Window limit u es v := by
  induction es generalizing u with
  | nil => exact ⟨u, .idle h.card_le⟩
  | cons e es ih =>
    cases h with
    | leave hrest =>
      obtain ⟨v, hv⟩ := ih hrest
      exact ⟨v, .leave hv⟩
    | «return» h hrest =>
      obtain ⟨v, hv⟩ := ih hrest
      exact ⟨v, .return h hv⟩
    | other hcall hback hrest =>
      obtain ⟨v, hv⟩ := ih hrest
      exact ⟨v, .other hcall hback hv⟩

theorem quiet (h : v.away.card ≤ limit) (hes : ∀ e ∈ es, e.call? = none ∧ e.back? = none) :
    Window limit v es v := by
  induction es with
  | nil => exact .idle h
  | cons e es ih =>
    obtain ⟨⟨hcall, hback⟩, hes⟩ := List.forall_mem_cons.mp hes
    exact .other hcall hback (ih hes)

/-- calls are made in the order of the queue. -/
theorem made (h : Window limit v es w) : madeCalls es ++ w.queue = v.queue := by
  induction h with
  | idle _ => rfl
  | leave _ ih => exact congrArg (List.cons _) ih
  | «return» _ _ ih => exact ih
  | @other _ _ e es hcall _ _ ih =>
    have hnone : madeCalls (e :: es) = madeCalls es := List.filterMap_cons_none hcall
    rw [hnone, ih]

/-- every call that was away or was made is back or is away. -/
theorem back (h : Window limit v es w) :
    (backCalls es : Multiset (Call (List S) C)) + w.away = v.away + madeCalls es := by
  induction h with
  | idle _ => exact (zero_add _).trans (add_zero _).symm
  | @leave call queue away n es w _ ih =>
    have hmade : madeCalls (.called n call :: es) = call :: madeCalls es := rfl
    have hback : backCalls (.called n call :: es) = backCalls es := rfl
    rw [hmade, hback, ih, ← Multiset.cons_coe, Multiset.add_cons, Multiset.cons_add]
  | @«return» call queue away n es w _ _ ih =>
    have hmade : madeCalls (.returned n call :: es) = madeCalls es := rfl
    have hback : backCalls (.returned n call :: es) = call :: backCalls es := rfl
    rw [hmade, hback, ← Multiset.cons_coe, Multiset.cons_add, ih, Multiset.cons_add]
  | @other _ _ e es hcall hback _ ih =>
    have hmade : madeCalls (e :: es) = madeCalls es := List.filterMap_cons_none hcall
    have hback : backCalls (e :: es) = backCalls es := List.filterMap_cons_none hback
    rw [hmade, hback, ih]

/-- at every moment of a window in which nothing was away at first, what was made and is not back is
no more than the limit. -/
theorem at_every_moment {queue : List (Call (List S) C)} (h : Window limit ⟨queue, 0⟩ es w)
    {seen : List (Event S C)} (hseen : seen <+: es) :
    ∃ unfinished, (backCalls seen ++ unfinished).Perm (madeCalls seen) ∧
      unfinished.length ≤ limit := by
  obtain ⟨rest, rfl⟩ := hseen
  obtain ⟨v, hv⟩ := h.of_append
  obtain ⟨unfinished, haway⟩ := Quotient.exists_rep v.away
  have hback := hv.back
  have hcard := hv.card_le_end
  rw [← haway] at hback hcard
  refine ⟨unfinished, Multiset.coe_eq_coe.mp ?_, hcard⟩
  rw [← Multiset.coe_add]
  exact hback.trans (zero_add _)

end Window

/-! ### looks -/

theorem Group.quiet_finish (s : Service S C) (g : Group S C) (outcome : BatchOutcome S) :
    ∀ e ∈ (g.finish s outcome).events, e.call? = none ∧ e.back? = none := fun e he =>
  ⟨List.filterMap_eq_nil_iff.mp (madeCalls_finish s g outcome) e he,
    ((g.tells_finish s outcome).1 e he).2.2⟩

namespace Running

/-- the calls of started groups. -/
def calls (rs : List (Running S C)) : Multiset (Call (List S) C) := (rs.map call : List _)

theorem calls_nil : calls ([] : List (Running S C)) = 0 := rfl

theorem calls_cons (r : Running S C) (rs : List (Running S C)) :
    calls (r :: rs) = r.call ::ₘ calls rs := rfl

theorem calls_append (rs rs' : List (Running S C)) : calls (rs ++ rs') = calls rs + calls rs' := by
  unfold calls
  rw [List.map_append, Multiset.coe_add]

theorem card_calls (rs : List (Running S C)) : (calls rs).card = rs.length := List.length_map _

theorem calls_perm {rs rs' : List (Running S C)} (h : rs.Perm rs') : calls rs = calls rs' :=
  Multiset.coe_eq_coe.mpr (h.map call)

variable {limit : Nat} {queue : List (Call (List S) C)} {away : Multiset (Call (List S) C)}

theorem window_poll (s : Service S C) (isOpen : Gate → Bool) (r : Running S C)
    (h : (r.call ::ₘ away).card ≤ limit) :
    Window limit ⟨queue, r.call ::ₘ away⟩ (r.poll s isOpen).events
      ⟨queue, calls (r.poll s isOpen).running + away⟩ := by
  unfold poll
  dsimp only
  split
  · have hless : away.card ≤ limit :=
      Nat.le_trans (Multiset.card_le_card (Multiset.le_cons_self _ _)) h
    show Window limit _ (.returned s.id r.call :: (r.group.finish s _).events)
      ⟨queue, calls (r.group.finish s _).running + away⟩
    rw [Group.running_finish, calls_nil, zero_add]
    exact .return h (.quiet hless (Group.quiet_finish s r.group _))
  · show Window limit _ [] ⟨queue, {r.call} + away⟩
    rw [Multiset.singleton_add]
    exact .idle h

theorem window_pollAll (s : Service S C) (isOpen : Gate → Bool) (rs : List (Running S C))
    (h : (calls rs + away).card ≤ limit) :
    Window limit ⟨queue, calls rs + away⟩ (pollAll s isOpen rs).events
      ⟨queue, calls (pollAll s isOpen rs).running + away⟩ := by
  induction rs generalizing away with
  | nil => exact .idle h
  | cons r rs ih =>
    rw [calls_cons, Multiset.cons_add] at h ⊢
    have hfirst : Window limit ⟨queue, _⟩ _ _ := window_poll s isOpen r h
    rw [add_left_comm] at hfirst
    have hrest := ih hfirst.card_le_end
    have hrunning : calls (pollAll s isOpen (r :: rs)).running + away
        = calls (pollAll s isOpen rs).running + (calls (r.poll s isOpen).running + away) := by
      rw [add_left_comm, ← add_assoc, ← calls_append]
      rfl
    rw [hrunning]
    exact hfirst.trans hrest

theorem window_start (s : Service S C) (isOpen : Gate → Bool) (context : C) (g : Group S C)
    (h : away.card < limit) :
    Window limit ⟨g.call s context :: queue, away⟩ (start s isOpen context g).events
      ⟨queue, calls (start s isOpen context g).running + away⟩ := by
  have hcard : (g.call s context ::ₘ away).card ≤ limit := by
    rw [Multiset.card_cons]
    exact h
  exact .other rfl rfl (.leave
    (window_poll s isOpen ⟨g, g.call s context, s.run (g.call s context)⟩ hcard))

end Running

namespace Tick

theorem window_startQueued (s : Service S C) (isOpen : Gate → Bool) (context : C) {limit : Nat}
    (gs : List (Group S C)) {busy : Nat} {away : Multiset (Call (List S) C)}
    (hbusy : away.card = busy) (h : busy ≤ limit) :
    Window limit ⟨gs.map (Group.call s context), away⟩
      (startQueued s isOpen context limit busy gs).1.events
      ⟨(startQueued s isOpen context limit busy gs).2.map (Group.call s context),
        Running.calls (startQueued s isOpen context limit busy gs).1.running + away⟩ := by
  induction gs generalizing busy away with
  | nil =>
    show Window limit _ [] ⟨[], 0 + away⟩
    rw [zero_add]
    exact .idle (hbusy ▸ h)
  | cons g gs ih =>
    rw [startQueued]
    split
    · rename_i hroom
      let first := Running.start s isOpen context g
      have hfirst : Window limit ⟨(g :: gs).map (Group.call s context), away⟩ _ _ :=
        Running.window_start s isOpen context g (hbusy ▸ hroom)
      have hcard : (Running.calls first.running + away).card = busy + first.running.length := by
        rw [Multiset.card_add, Running.card_calls, hbusy, Nat.add_comm]
      have hrest := ih hcard (hcard ▸ hfirst.card_le_end)
      let rest := startQueued s isOpen context limit (busy + first.running.length) gs
      show Window limit _ (first.events ++ rest.1.events)
        ⟨_, Running.calls (first.running ++ rest.1.running) + away⟩
      rw [Running.calls_append, add_assoc, add_left_comm]
      exact hfirst.trans hrest
    · show Window limit _ [] ⟨_, 0 + away⟩
      rw [zero_add]
      exact .idle (hbusy ▸ h)

/-- what is left to do for a tick. -/
def backlog (s : Service S C) (t : Tick S C) : Backlog S C :=
  ⟨t.queued.map (Group.call s t.context), Running.calls t.running⟩

/-- **A look at a tick goes on with its window.** -/
theorem window_poll (s : Service S C) (isOpen : Gate → Bool) (t : Tick S C)
    (h : t.running.length ≤ t.limit) :
    Window t.limit (t.backlog s) (t.poll s isOpen).events ((t.poll s isOpen).tick.backlog s) := by
  let w := t.wake isOpen
  let looked := Running.pollAll s isOpen w.woken
  have hbefore : Running.calls t.running
      = Running.calls w.woken + Running.calls w.waiting := by
    rw [← Running.calls_append]
    exact (Running.calls_perm (running_wake isOpen t)).symm
  have hcard : (Running.calls w.woken + Running.calls w.waiting).card ≤ t.limit := by
    rw [← hbefore, Running.card_calls]
    exact h
  have hbusy : (Running.calls looked.running + Running.calls w.waiting).card
      = w.waiting.length + looked.running.length := by
    rw [Multiset.card_add, Running.card_calls, Running.card_calls, Nat.add_comm]
  have hlooked : Window t.limit ⟨t.queued.map (Group.call s t.context), _⟩ _ _ :=
    Running.window_pollAll s isOpen w.woken hcard
  have hstarted := window_startQueued s isOpen t.context t.queued hbusy
    (hbusy ▸ hlooked.card_le_end)
  let started := startQueued s isOpen t.context t.limit
    (w.waiting.length + looked.running.length) t.queued
  have hafter : Running.calls (t.poll s isOpen).tick.running
      = Running.calls started.1.running
        + (Running.calls looked.running + Running.calls w.waiting) := by
    show Running.calls (w.waiting ++ (looked.running ++ started.1.running)) = _
    rw [Running.calls_append, Running.calls_append, add_comm,
      add_comm (Running.calls looked.running), add_assoc]
  unfold backlog
  rw [hbefore, hafter]
  exact hlooked.trans hstarted

end Tick

/-! ### histories -/

namespace Batcher

/-- the events of a move that looks at one tick. -/
def lookedBy (b : Batcher S C) (number : Nat) : Move S C → List (Event S C)
  | .poll isOpen n => if n = number then (b.poll isOpen n).events else []
  | _ => []

/-- what happened in one tick in the course of a history. -/
def looked (number : Nat) : Batcher S C → List (Move S C) → List (Event S C)
  | _, [] => []
  | b, m :: ms => b.lookedBy number m ++ looked number (b.after m) ms

theorem looked_cons (number : Nat) (b : Batcher S C) (m : Move S C) (ms : List (Move S C)) :
    b.looked number (m :: ms) = b.lookedBy number m ++ (b.after m).looked number ms := rfl

theorem lookedBy_poll (b : Batcher S C) (number : Nat) (isOpen : Gate → Bool) :
    b.lookedBy number (.poll isOpen number) = (b.poll isOpen number).events := if_pos rfl

theorem lookedBy_other (b : Batcher S C) {number : Nat} {m : Move S C}
    (h : ∀ isOpen, m ≠ .poll isOpen number) : b.lookedBy number m = [] := by
  cases m with
  | poll isOpen n => exact if_neg fun hn => h isOpen (congrArg (Move.poll isOpen) hn)
  | _ => rfl

/-- what is left to do for a tick: nothing once it has ended. -/
def backlog (b : Batcher S C) (number : Nat) : Backlog S C :=
  ((b.tick? number).map (Tick.backlog b.service)).getD ⟨[], 0⟩

theorem backlog_of_some {b : Batcher S C} {number : Nat} {t : Tick S C}
    (h : b.tick? number = some t) : b.backlog number = t.backlog b.service := by
  unfold backlog
  rw [h]
  rfl

theorem backlog_of_none {b : Batcher S C} {number : Nat} (h : b.tick? number = none) :
    b.backlog number = ⟨[], 0⟩ := by
  unfold backlog
  rw [h]
  rfl

/-- the tick of a number, while it runs, has this limit, and keeps to it. -/
def LimitedTo (limit number : Nat) (b : Batcher S C) : Prop :=
  ∀ t, b.tick? number = some t → t.limit = limit ∧ t.running.length ≤ limit

variable {b : Batcher S C} {limit number : Nat}

theorem LimitedTo.card_le (h : b.LimitedTo limit number) :
    (b.backlog number).away.card ≤ limit := by
  cases ht : b.tick? number with
  | none =>
    rw [backlog_of_none ht]
    exact Nat.zero_le _
  | some t =>
    rw [backlog_of_some ht]
    exact (Running.card_calls t.running).trans_le (h t ht).2

/-! ### a tick that is over -/

theorem tick?_drop (b : Batcher S C) (number : Nat) : (b.drop number).tick? number = none := by
  cases ht : b.tick? number with
  | none => rw [drop_of_none ht, ht]
  | some t =>
    rw [drop_of_some ht]
    exact tick?_removeTick.trans (if_pos rfl)

theorem tick?_after_of_none (hlt : number < b.ticks) (hnone : b.tick? number = none)
    (m : Move S C) : (b.after m).tick? number = none ∧ b.lookedBy number m = [] := by
  by_cases hpoll : ∃ isOpen, m = .poll isOpen number
  · obtain ⟨isOpen, rfl⟩ := hpoll
    rw [lookedBy_poll, after_poll, poll_of_none hnone]
    exact ⟨hnone, rfl⟩
  · have hpoll' : ∀ isOpen, m ≠ .poll isOpen number := fun isOpen h => hpoll ⟨isOpen, h⟩
    refine ⟨?_, b.lookedBy_other hpoll'⟩
    by_cases hdrop : m = .drop number
    · rw [hdrop]
      exact tick?_drop b number
    · rcases tick?_after hlt hpoll' hdrop with hsame | ⟨isOpen, hwoken⟩
      · rw [hsame, hnone]
      · rw [hwoken, hnone]
        rfl

/-- a tick that is over is not looked at again. -/
theorem looked_of_none (hlt : number < b.ticks) (hnone : b.tick? number = none)
    (ms : List (Move S C)) : b.looked number ms = [] ∧ (b.run ms).tick? number = none := by
  induction ms generalizing b with
  | nil => exact ⟨rfl, hnone⟩
  | cons m ms ih =>
    obtain ⟨hnone', hquiet⟩ := tick?_after_of_none hlt hnone m
    obtain ⟨hrest, hover⟩ :=
      ih (Nat.lt_of_lt_of_le hlt (carried_after b m).ticks_le) hnone'
    rw [looked_cons, hquiet, hrest, run_cons]
    exact ⟨rfl, hover⟩

theorem tick?_of_dropped (hlt : number < b.ticks) {ms : List (Move S C)}
    (h : .drop number ∈ ms) : (b.run ms).tick? number = none := by
  obtain ⟨before, later, rfl⟩ := List.append_of_mem h
  have hlt' : number < ((b.run before).drop number).ticks :=
    Nat.lt_of_lt_of_le hlt (Nat.le_trans (carried_run b before).ticks_le
      (carried_after _ (.drop number)).ticks_le)
  rw [run_append, run_cons]
  exact (looked_of_none hlt' (tick?_drop _ number) later).2

/-! ### the window of a tick -/

theorem window_poll (h : b.LimitedTo limit number) (isOpen : Gate → Bool) :
    Window limit (b.backlog number) (b.poll isOpen number).events
        ((b.poll isOpen number).batcher.backlog number) ∧
      (b.poll isOpen number).batcher.LimitedTo limit number := by
  cases ht : b.tick? number with
  | none =>
    rw [poll_of_none ht]
    exact ⟨.idle h.card_le, h⟩
  | some t =>
    obtain ⟨rfl, hle⟩ := h t ht
    have hwindow := t.window_poll b.service isOpen hle
    have htick := tick?_poll isOpen ht
    cases hdone : (t.poll b.service isOpen).tick.isDone with
    | true =>
      rw [hdone, if_pos rfl] at htick
      obtain ⟨hqueue, hrunning⟩ := Bool.and_eq_true_iff.mp hdone
      have hover : (t.poll b.service isOpen).tick.backlog b.service = ⟨[], 0⟩ := by
        unfold Tick.backlog
        rw [List.isEmpty_iff.mp hqueue, List.isEmpty_iff.mp hrunning]
        rfl
      rw [hover] at hwindow
      rw [backlog_of_none htick, backlog_of_some ht, poll_of_done ht hdone]
      refine ⟨hwindow, fun u hu => ?_⟩
      rw [poll_of_done ht hdone] at htick
      cases hu.symm.trans htick
    | false =>
      rw [hdone, if_neg Bool.false_ne_true] at htick
      rw [backlog_of_some htick, backlog_of_some ht, poll_of_open ht hdone]
      refine ⟨hwindow, fun u hu => ?_⟩
      rw [poll_of_open ht hdone] at htick
      obtain rfl := Option.some.inj (hu.symm.trans htick)
      exact ⟨rfl, (Running.card_calls _).symm.trans_le hwindow.card_le_end⟩

/-- other moves leave a tick its window. -/
theorem backlog_other (hlt : number < b.ticks) {m : Move S C}
    (hpoll : ∀ isOpen, m ≠ .poll isOpen number) (hdrop : m ≠ .drop number)
    (h : b.LimitedTo limit number) :
    (b.after m).backlog number = b.backlog number ∧ (b.after m).LimitedTo limit number := by
  have hcall : ∀ (context : C) (gs : List (Group S C)),
      gs.map (Group.call (b.after m).service context) = gs.map (Group.call b.service context) :=
    fun context gs => List.map_congr_left fun g _ =>
      Group.call_congr (carried_after b m).shape context g
  unfold LimitedTo backlog
  rcases tick?_after hlt hpoll hdrop with hsame | ⟨isOpen, hwoken⟩
  · rw [hsame]
    refine ⟨?_, h⟩
    cases b.tick? number with
    | none => rfl
    | some t => exact congrArg (Backlog.mk · _) (hcall t.context t.queued)
  · rw [hwoken]
    cases ht : b.tick? number with
    | none => exact ⟨rfl, fun _ hu => by cases hu⟩
    | some t =>
      have hperm := Tick.running_wake isOpen t
      refine ⟨congrArg₂ Backlog.mk (hcall t.context t.queued) (Running.calls_perm hperm), ?_⟩
      intro u hu
      cases hu
      exact ⟨(h t ht).1, hperm.length_eq.trans_le (h t ht).2⟩

/-- **A history goes on with the window of a tick**, until the tick is given up. -/
theorem window_run (hlt : number < b.ticks) (h : b.LimitedTo limit number)
    (ms : List (Move S C)) :
    ∃ w, Window limit (b.backlog number) (b.looked number ms) w ∧
      (.drop number ∉ ms → w = (b.run ms).backlog number) := by
  induction ms generalizing b with
  | nil => exact ⟨_, .idle h.card_le, fun _ => rfl⟩
  | cons m ms ih =>
    have hlt' : number < (b.after m).ticks := Nat.lt_of_lt_of_le hlt (carried_after b m).ticks_le
    rw [looked_cons, run_cons]
    by_cases hpoll : ∃ isOpen, m = .poll isOpen number
    · obtain ⟨isOpen, rfl⟩ := hpoll
      obtain ⟨hwindow, hlimited⟩ := window_poll h isOpen
      obtain ⟨w, hrest, hend⟩ := ih hlt' hlimited
      rw [lookedBy_poll]
      exact ⟨w, hwindow.trans hrest, fun hms => hend fun hdrop =>
        hms (List.mem_cons_of_mem _ hdrop)⟩
    · have hpoll' : ∀ isOpen, m ≠ .poll isOpen number := fun isOpen h => hpoll ⟨isOpen, h⟩
      rw [b.lookedBy_other hpoll', List.nil_append]
      by_cases hdrop : m = .drop number
      · -- nothing more is told of the tick, and what is away stays away
        rw [hdrop] at hlt' ⊢
        rw [(looked_of_none hlt' (tick?_drop b number) ms).1]
        exact ⟨_, .idle h.card_le, fun hms => absurd List.mem_cons_self hms⟩
      · obtain ⟨hsame, hlimited⟩ := backlog_other hlt hpoll' hdrop h
        obtain ⟨w, hrest, hend⟩ := ih hlt' hlimited
        rw [hsame] at hrest
        exact ⟨w, hrest, fun hms => hend fun hdrop => hms (List.mem_cons_of_mem _ hdrop)⟩

/-! ### the groups of a dispatch -/

/-- **The groups of a dispatch start in order, and no more than the limit at a time.**  Take a
batcher after any history whose pending calls carry one context.  The dispatch that takes them forms
their classes, in the order of their first submissions.  Whatever happens next, however calls come
back and even if the tick is given up:
* what happens in the tick passes a window of the size that was set, but of at least one, or of all
  groups if none was set;
* so at every moment the calls that were made and are not back are no more than that;
* the calls that were made are those of the first groups, in order;
* and when the dispatch returns each group was called once, and every call is back. -/
theorem groups_start_in_order (maxConcurrentGroups : Option Nat) (service : Service S C)
    (ms : List (Move S C)) :
    let b := (Batcher.new maxConcurrentGroups service).run ms
    let calls := b.pending.entries
    let groups := (groupPending calls).values
    let limit := match maxConcurrentGroups with
      | some n => max 1 n
      | none => groups.length
    calls ≠ [] → SameContext calls →
    b.beginTick.dispatch = .running b.ticks ∧ Classes service calls groups ∧
    ∃ context, (∀ e ∈ calls, e.1.context = context) ∧
      let queue := groups.map (Group.call service context)
      ∀ ns, let events := b.beginTick.batcher.looked b.ticks ns
        (∃ w, Window limit ⟨queue, 0⟩ events w) ∧
        (∀ seen, seen <+: events → ∃ unfinished,
          (backCalls seen ++ unfinished).Perm (madeCalls seen) ∧ unfinished.length ≤ limit) ∧
        madeCalls events <+: queue ∧
        ∀ isOpen result,
          ((b.beginTick.batcher.run ns).poll isOpen b.ticks).dispatch = .ended result →
          let all := b.beginTick.batcher.looked b.ticks (ns ++ [.poll isOpen b.ticks])
          madeCalls all = queue ∧ (backCalls all).Perm queue := by
  intro b calls groups limit hne hsame
  have hb : b.Sound := sound_run (sound_new maxConcurrentGroups service) ms
  have hcarried : Carried (Batcher.new maxConcurrentGroups service) b := carried_run _ ms
  have hcalls : ∀ e ∈ calls, service.Calls e := by
    intro e he
    obtain ⟨hkey, hdepth⟩ := hb.calls e he
    rw [hcarried.binding] at hkey hdepth
    exact ⟨hkey, hdepth⟩
  obtain ⟨e, he⟩ := List.exists_mem_of_ne_nil calls hne
  obtain ⟨hdispatch, htick⟩ := tick?_beginTick hb he hsame
  have hlt : b.ticks < b.beginTick.batcher.ticks := number_lt_run hb.beginTick htick []
  have hgroups : 1 ≤ groups.length := by
    obtain ⟨g, hg, _⟩ := exists_mem_members he
    exact List.length_pos_of_mem hg
  have hlimit : b.groupLimit groups.length = limit := by
    have hset : b.maxConcurrentGroups = maxConcurrentGroups := maxConcurrentGroups_run _ ms
    unfold groupLimit
    rw [hset]
    cases maxConcurrentGroups with
    | none => exact Nat.max_eq_right hgroups
    | some n => rfl
  have hbacklog : b.beginTick.batcher.backlog b.ticks
      = ⟨groups.map (Group.call service e.1.context), 0⟩ := by
    have hshape : b.beginTick.batcher.service.shape = service.shape :=
      (carried_after b .beginTick).shape.trans hcarried.shape
    rw [backlog_of_some htick]
    exact congrArg (Backlog.mk · 0) (List.map_congr_left fun g _ => Group.call_congr hshape _ g)
  have hlimited : b.beginTick.batcher.LimitedTo limit b.ticks := by
    intro t ht
    obtain rfl := Option.some.inj (htick.symm.trans ht)
    exact ⟨hlimit, Nat.zero_le _⟩
  refine ⟨hdispatch, classes_groupPending b.pending.distinct hcalls, e.1.context,
    fun f hf => hsame f hf e he, fun ns => ?_⟩
  obtain ⟨w, hwindow, _⟩ := window_run hlt hlimited ns
  rw [hbacklog] at hwindow
  refine ⟨⟨w, hwindow⟩, fun seen hseen => hwindow.at_every_moment hseen, ?_, ?_⟩
  · exact ⟨w.queue, hwindow.made⟩
  · intro isOpen result hended all
    have hns : .drop b.ticks ∉ ns ++ [Move.poll isOpen b.ticks] := by
      rw [List.mem_append, List.mem_singleton]
      rintro (hdrop | hdrop)
      · rw [poll_of_none (tick?_of_dropped hlt hdrop)] at hended
        cases hended
      · cases hdrop
    obtain ⟨w, hwindow, hend⟩ := window_run hlt hlimited (ns ++ [.poll isOpen b.ticks])
    have hover : w = ⟨[], 0⟩ := by
      rw [hend hns, run_concat]
      exact backlog_of_none (tick?_of_ended hended)
    rw [hbacklog, hover] at hwindow
    have hmade : madeCalls all = groups.map (Group.call service e.1.context) :=
      (List.append_nil _).symm.trans hwindow.made
    have hback := hwindow.back
    rw [add_zero, zero_add] at hback
    exact ⟨hmade, hmade ▸ Multiset.coe_eq_coe.mp hback⟩

/-- titles that take a while: each form of a title has a gate of its own. -/
def slowTitles : Service Nat Unit :=
  { titlesService with
    run := fun call => ⟨[(call.args.map Args.fingerprint).getD ""],
      .ok (Table.ofList (call.input.map fun n => (n, .text "untitled")))⟩ }

/-- one group at a time: the call of the second is made when the first is back. -/
theorem groups_start_in_order_of_slow_titles :
    let long := Args.empty.insert "form" (.enum "LONG")
    let short := Args.empty.insert "form" (.enum "SHORT")
    let b := (Batcher.new (some 0) slowTitles).run
      [.submit 1 long [] (), .submit 2 short [] (), .submit 3 long [] ()]
    let groups := (groupPending b.pending.entries).values
    let looks : List (Move Nat Unit) :=
      [.poll (fun _ => false) b.ticks, .poll (fun gate => gate == short.fingerprint) b.ticks]
    let events := b.beginTick.batcher.looked b.ticks looks
    groups.length = 2 ∧ (madeCalls events).length = 1 ∧
      (∀ seen, seen <+: events → ∃ unfinished,
        (backCalls seen ++ unfinished).Perm (madeCalls seen) ∧ unfinished.length ≤ 1) ∧
      madeCalls (b.beginTick.batcher.looked b.ticks (looks ++ [.poll (fun _ => true) b.ticks]))
        = groups.map (Group.call slowTitles ()) := by
  intro long short b groups looks events
  have hlength : groups.length = 2 ∧ (madeCalls events).length = 1 ∧
      ((b.beginTick.batcher.run looks).tick? b.ticks).isSome = true := by
    decide +kernel
  obtain ⟨hgroups, hmade, htick⟩ := hlength
  have hcalls : b.pending.entries ≠ [] := fun h => by
    have hnil : groups.length = 0 := congrArg (fun es => (groupPending es).values.length) h
    rw [hnil] at hgroups
    cases hgroups
  obtain ⟨_, _, context, _, hwindow⟩ := groups_start_in_order (some 0) slowTitles
    [.submit 1 long [] (), .submit 2 short [] (), .submit 3 long [] ()] hcalls fun _ _ _ _ => rfl
  obtain ⟨_, hmoments, _, hreturned⟩ := hwindow looks
  have hsound : (b.beginTick.batcher.run looks).Sound :=
    sound_run (sound_run (sound_new (some 0) slowTitles) _).beginTick _
  obtain ⟨t, ht⟩ := Option.isSome_iff_exists.mp htick
  obtain ⟨summary, hended⟩ := ended_of_allOpen hsound ht
  exact ⟨hgroups, hmade, hmoments, (hreturned _ (.ok summary) hended).1⟩

end Batcher
end Batchwise
