import Batchwise.Proofs.Batch.Timing

/-!
# A tick that is not there

A batcher beside one that has one more running tick.  As long as nobody asks for that tick the two
cannot be told apart by what is pending, by the other ticks, by what callers are given, and by the
results of any ticket but those that the tick owes.

* `Move.isOn`              whether a move asks for the tick of a number;
* `Batcher.Without`        a batcher and one that has one more tick: `Without.after`;
* `Without.run`            every history, with the moves on that tick left out on the other side.
-/

set_option linter.unusedSectionVars false

namespace Batchwise

variable {S C : Type} [DecidableEq S] [DecidableEq C]

/-- whether a move goes on with the tick of a number or gives it up. -/
def Move.isOn (number : Nat) : Move S C → Bool
  | .poll _ n => n == number
  | .drop n => n == number
  | _ => false

namespace Batcher

/-- entering results gives the same where the same was there. -/
theorem getElem?_settle_congr {b c : Batcher S C} (es : List (Ticket × CallResult S))
    (hsize : b.results.size = c.results.size) {t : Ticket} (h : b.results[t]? = c.results[t]?) :
    (b.settle es).results[t]? = (c.settle es).results[t]? := by
  show (es.foldl _ b.results)[t]? = (es.foldl _ c.results)[t]?
  generalize b.results = rs at hsize h
  generalize c.results = rs' at hsize h
  induction es generalizing rs rs' with
  | nil => exact h
  | cons e es ih =>
    rw [List.foldl_cons, List.foldl_cons]
    refine ih _ _ (by simp [hsize]) ?_
    rw [Array.getElem?_setIfInBounds, Array.getElem?_setIfInBounds, hsize, h]

/-- `c` has one more running tick than `b`, which owes results to the tickets `owed`. -/
structure Without (number : Nat) (owed : List Ticket) (b c : Batcher S C) : Prop where
  service_eq : b.service = c.service
  limit_eq : b.maxConcurrentGroups = c.maxConcurrentGroups
  intake_eq : b.intake = c.intake
  running_eq : b.running = (c.removeTick number).running
  results_eq : ∀ t, t ∉ owed → b.results[t]? = c.results[t]?
  number_lt : number < c.ticks

namespace Without

variable {number : Nat} {owed : List Ticket} {b c : Batcher S C}

theorem pending_eq (h : Without number owed b c) : b.pending = c.pending :=
  congrArg Intake.pending h.intake_eq

theorem ticks_eq (h : Without number owed b c) : b.ticks = c.ticks :=
  congrArg Intake.ticks h.intake_eq

theorem size_eq (h : Without number owed b c) : b.results.size = c.results.size :=
  congrArg Intake.tickets h.intake_eq

theorem result?_eq (h : Without number owed b c) {t : Ticket} (ht : t ∉ owed) :
    b.result? t = c.result? t :=
  congrArg Option.join (h.results_eq t ht)

theorem tick?_self (h : Without number owed b c) : b.tick? number = none := by
  unfold tick?
  rw [h.running_eq]
  exact tick?_removeTick.trans (if_pos rfl)

theorem tick?_other (h : Without number owed b c) {n : Nat} (hn : n ≠ number) :
    b.tick? n = c.tick? n := by
  unfold tick?
  rw [h.running_eq]
  exact tick?_removeTick.trans (if_neg hn)

theorem id_eq (h : Without number owed b c) : b.id = c.id := congrArg Service.id h.service_eq

theorem keyOf_eq (h : Without number owed b c) (source : S) (args : Args)
    (subfields : List Field) (context : C) :
    b.keyOf source args subfields context = c.keyOf source args subfields context := by
  unfold keyOf
  rw [h.service_eq]

/-! ### one move -/

/-- the same call is new on both sides, or joins the same pending call. -/
theorem submit (h : Without number owed b c) (source : S) (args : Args) (subfields : List Field)
    (context : C) :
    Without number owed (b.submit source args subfields context).batcher
        (c.submit source args subfields context).batcher ∧
      (b.submit source args subfields context).ticket
        = (c.submit source args subfields context).ticket ∧
      (b.submit source args subfields context).events
        = (c.submit source args subfields context).events := by
  have hintake := intake_submit_congr h.intake_eq (by rw [h.service_eq]) source args subfields
    context
  have hfind : b.pending.find? (b.keyOf source args subfields context)
      = c.pending.find? (c.keyOf source args subfields context) := by
    rw [h.pending_eq, h.keyOf_eq]
  cases hc : c.pending.find? (c.keyOf source args subfields context) with
  | some p =>
    rw [submit_of_some (hfind.trans hc), submit_of_some hc] at hintake ⊢
    refine ⟨⟨h.service_eq, h.limit_eq, hintake, h.running_eq, h.results_eq, h.number_lt⟩, rfl, ?_⟩
    rw [h.id_eq]
  | none =>
    rw [submit_of_none (hfind.trans hc), submit_of_none hc] at hintake ⊢
    refine ⟨⟨h.service_eq, h.limit_eq, hintake, h.running_eq, fun t ht => ?_, h.number_lt⟩,
      h.size_eq, ?_⟩
    · show (b.results.push none)[t]? = (c.results.push none)[t]?
      rw [Array.getElem?_push, Array.getElem?_push, h.size_eq, h.results_eq t ht]
    · rw [h.id_eq]

/-- both take the same calls, under the same number. -/
theorem beginTick (h : Without number owed b c) :
    Without number owed b.beginTick.batcher c.beginTick.batcher ∧
      b.beginTick.dispatch = c.beginTick.dispatch ∧ b.beginTick.events = c.beginTick.events := by
  have hintake : b.beginTick.batcher.intake = c.beginTick.batcher.intake := by
    rw [intake_beginTick, intake_beginTick, h.intake_eq, h.pending_eq, h.ticks_eq, h.size_eq]
  have hlt := h.number_lt
  cases hentries : c.pending.entries with
  | nil =>
    have hb : b.pending.entries = [] := by rw [h.pending_eq, hentries]
    rw [beginTick_of_nil hb, beginTick_of_nil hentries, h.id_eq]
    exact ⟨h, rfl, rfl⟩
  | cons e es =>
    have he : e ∈ c.pending.entries := hentries ▸ List.mem_cons_self
    by_cases hsame : SameContext c.pending.entries
    · rw [beginTick_of_same (h.pending_eq ▸ he) (h.pending_eq ▸ hsame),
        beginTick_of_same he hsame] at hintake ⊢
      have htick : b.formTick e.1.context b.pending.entries
          = c.formTick e.1.context c.pending.entries := by
        unfold formTick groupLimit
        rw [h.pending_eq, h.ticks_eq, h.limit_eq]
      refine ⟨⟨h.service_eq, h.limit_eq, hintake, ?_, h.results_eq, Nat.lt_succ_of_lt hlt⟩, ?_, ?_⟩
      · show b.running ++ [b.formTick _ _] = (c.running ++ [c.formTick _ _]).filter _
        have hnew : [c.formTick e.1.context c.pending.entries].filter (fun u => u.number != number)
            = [c.formTick e.1.context c.pending.entries] := by
          have hne : c.ticks ≠ number := by omega
          simp [formTick, hne]
        rw [List.filter_append, hnew, htick, h.running_eq]
        rfl
      · rw [h.ticks_eq]
      · rw [h.id_eq, h.pending_eq]
    · rw [beginTick_of_differ (h.pending_eq ▸ hsame), beginTick_of_differ hsame] at hintake ⊢
      refine ⟨⟨h.service_eq, h.limit_eq, hintake, h.running_eq, fun t ht => ?_,
        Nat.lt_succ_of_lt hlt⟩, ?_, ?_⟩
      · show (b.take.settle _).results[t]? = (c.take.settle _).results[t]?
        rw [h.pending_eq, h.service_eq]
        exact getElem?_settle_congr (b := b.take) (c := c.take) _ h.size_eq (h.results_eq t ht)
      · rw [h.service_eq]
      · rw [h.id_eq, h.pending_eq]

/-- the same results are entered, and the running ticks change in the same way. -/
theorem settle (h : Without number owed b c) (es : List (Ticket × CallResult S)) :
    Without number owed (b.settle es) (c.settle es) := by
  refine ⟨h.service_eq, h.limit_eq, ?_, h.running_eq, fun t ht => ?_, h.number_lt⟩
  · rw [intake_settle, intake_settle, h.intake_eq]
  · exact getElem?_settle_congr es h.size_eq (h.results_eq t ht)

theorem removeTick (h : Without number owed b c) (n : Nat) :
    Without number owed (b.removeTick n).endTick (c.removeTick n).endTick := by
  refine ⟨h.service_eq, h.limit_eq, h.intake_eq, ?_, h.results_eq, h.number_lt⟩
  show b.running.filter _ = (c.running.filter _).filter _
  rw [h.running_eq, List.filter_filter]
  show (c.running.filter _).filter _ = _
  rw [List.filter_filter]
  simp only [Bool.and_comm]

theorem replaceTick (h : Without number owed b c) (t : Tick S C) :
    Without number owed (b.replaceTick t) (c.replaceTick t) := by
  refine ⟨h.service_eq, h.limit_eq, h.intake_eq, ?_, h.results_eq, h.number_lt⟩
  show b.running.map _ = (c.running.map _).filter _
  rw [h.running_eq, List.filter_map]
  refine congrArg (List.map _) (List.filter_congr fun u _ => ?_)
  show (u.number != number) = ((if u.number == t.number then t else u).number != number)
  by_cases hu : u.number = t.number
  · rw [if_pos (beq_iff_eq.mpr hu), hu]
  · rw [if_neg fun heq => hu (beq_iff_eq.mp heq)]

theorem poll (h : Without number owed b c) (isOpen : Gate → Bool) {n : Nat} (hn : n ≠ number) :
    Without number owed (b.poll isOpen n).batcher (c.poll isOpen n).batcher ∧
      (b.poll isOpen n).dispatch = (c.poll isOpen n).dispatch ∧
      (b.poll isOpen n).events = (c.poll isOpen n).events := by
  have htick := h.tick?_other hn
  cases ht : c.tick? n with
  | none =>
    rw [poll_of_none (htick.trans ht), poll_of_none ht]
    exact ⟨h, rfl, rfl⟩
  | some t =>
    have hsettled := h.settle (t.poll c.service isOpen).settled
    cases hdone : (t.poll c.service isOpen).tick.isDone with
    | true =>
      have hdone' : (t.poll b.service isOpen).tick.isDone = true := h.service_eq ▸ hdone
      rw [poll_of_done (htick.trans ht) hdone', poll_of_done ht hdone, h.service_eq, h.id_eq]
      exact ⟨hsettled.removeTick n, rfl, rfl⟩
    | false =>
      have hopen' : (t.poll b.service isOpen).tick.isDone = false := h.service_eq ▸ hdone
      rw [poll_of_open (htick.trans ht) hopen', poll_of_open ht hdone, h.service_eq]
      exact ⟨hsettled.replaceTick _, rfl, rfl⟩

theorem drop (h : Without number owed b c) {n : Nat} (hn : n ≠ number) :
    Without number owed (b.drop n) (c.drop n) := by
  have htick := h.tick?_other hn
  cases ht : c.tick? n with
  | none =>
    rw [drop_of_none (htick.trans ht), drop_of_none ht]
    exact h
  | some t =>
    rw [drop_of_some (htick.trans ht), drop_of_some ht, h.service_eq]
    exact (h.settle _).removeTick n

theorem wake (h : Without number owed b c) (isOpen : Gate → Bool) :
    Without number owed (b.wake isOpen) (c.wake isOpen) := by
  refine ⟨h.service_eq, h.limit_eq, h.intake_eq, ?_, h.results_eq, h.number_lt⟩
  show b.running.map _ = (c.running.map _).filter _
  rw [h.running_eq, List.filter_map]
  rfl

/-- **One move that does not ask for the tick** does the same on both sides. -/
theorem after (h : Without number owed b c) {m : Move S C} (hm : m.isOn number = false) :
    Without number owed (b.after m) (c.after m) ∧ b.receipt m = c.receipt m ∧
      b.eventsBy m = c.eventsBy m := by
  cases m with
  | submit source args subfields context =>
    obtain ⟨hnext, hticket, hevents⟩ := h.submit source args subfields context
    exact ⟨hnext, congrArg Receipt.ticket hticket, hevents⟩
  | beginTick =>
    obtain ⟨hnext, hdispatch, hevents⟩ := h.beginTick
    exact ⟨hnext, congrArg Receipt.dispatch hdispatch, hevents⟩
  | wake isOpen => exact ⟨h.wake isOpen, rfl, rfl⟩
  | poll isOpen n =>
    obtain ⟨hnext, hdispatch, hevents⟩ := h.poll isOpen (beq_eq_false_iff_ne.mp hm)
    exact ⟨hnext, congrArg Receipt.dispatch hdispatch, hevents⟩
  | drop n => exact ⟨h.drop (beq_eq_false_iff_ne.mp hm), rfl, rfl⟩
  | answer run =>
    refine ⟨⟨?_, h.limit_eq, h.intake_eq, h.running_eq, h.results_eq, h.number_lt⟩, rfl, rfl⟩
    show ({ b.service with run := run } : Service S C) = { c.service with run := run }
    rw [h.service_eq]

/-- a move that asks for the tick does nothing where it is not there. -/
theorem after_isOn (h : Without number owed b c) {m : Move S C} (hm : m.isOn number = true) :
    b.after m = b ∧ b.eventsBy m = [] := by
  cases m with
  | poll isOpen n =>
    obtain rfl : n = number := beq_iff_eq.mp hm
    rw [after_poll, eventsBy, poll_of_none h.tick?_self]
    exact ⟨rfl, rfl⟩
  | drop n =>
    obtain rfl : n = number := beq_iff_eq.mp hm
    exact ⟨drop_of_none h.tick?_self, rfl⟩
  | submit source args subfields context => cases hm
  | beginTick => cases hm
  | wake isOpen => cases hm
  | answer run => cases hm

/-- **Any history** is the one of the other side, where nobody asks for the tick. -/
theorem run (h : Without number owed b c) (ms : List (Move S C)) :
    Without number owed (b.run ms) (c.run (ms.filter fun m => !m.isOn number)) ∧
      b.trace ms = c.trace (ms.filter fun m => !m.isOn number) := by
  induction ms generalizing b c with
  | nil => exact ⟨h, rfl⟩
  | cons m ms ih =>
    rw [run_cons, trace_cons]
    cases hm : m.isOn number with
    | true =>
      obtain ⟨hidle, hsilent⟩ := h.after_isOn hm
      rw [List.filter_cons_of_neg (by simp [hm]), hidle, hsilent]
      exact ih h
    | false =>
      obtain ⟨hnext, _, hevents⟩ := h.after hm
      obtain ⟨hrest, htrace⟩ := ih hnext
      rw [List.filter_cons_of_pos (by simp [hm]), run_cons, trace_cons, hevents, htrace]
      exact ⟨hrest, rfl⟩

end Without

/-- a tick that is given up is not there any more. -/
theorem without_drop {b : Batcher S C} (hb : b.Sound) {number : Nat} {t : Tick S C}
    (ht : b.tick? number = some t) : Without number t.unsettled (b.drop number) b := by
  have hintake := intake_drop b number
  have hlt := hb.numbers_lt t (mem_of_tick? ht)
  rw [number_of_tick? ht] at hlt
  rw [drop_of_some ht] at hintake ⊢
  refine ⟨rfl, rfl, hintake, rfl, fun x hx => ?_, hlt⟩
  refine getElem?_settle_of_notMem (b := b) ?_
  rw [List.map_map]
  intro hmem
  obtain ⟨y, hy, rfl⟩ := List.mem_map.mp hmem
  exact hx hy

end Batcher
end Batchwise
