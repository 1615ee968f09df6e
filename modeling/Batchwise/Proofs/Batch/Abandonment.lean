import Batchwise.Proofs.Batch.Absence
import Batchwise.Proofs.Batch.Phase

/-!
# What is given up

A dispatch may be given up between any two looks at its tick, and the batcher may be given up as a
whole.  Nobody waits in vain: a ticket that has no result belongs to a pending call or to a group of
a running tick, and whoever gives these up settles it.

* `Tick.AllAwaited`          no started group has its call back: `allAwaited_run`;
* `Batcher.Attended`         every ticket without a result is waited for by somebody: `attended_run`;
* `served_by_next_tick`      a pending call is served by the next tick, whatever else happens;
* `Batcher.result?_close`    what a batcher leaves when it is given up;
* `Batcher.abandonment_is_contained`   a dispatch that is given up at any moment.
-/

set_option linter.unusedSectionVars false

namespace Batchwise

variable {S C : Type} [DecidableEq S] [DecidableEq C]

/-! ### started groups wait for their calls -/

theorem Running.awaited_poll (s : Service S C) (isOpen : Gate → Bool) (r : Running S C) :
    ∀ r' ∈ (r.poll s isOpen).running, r'.awaited.isReady = false := by
  unfold poll
  dsimp only
  intro r' hr'
  cases hready : (r.awaited.poll isOpen).isReady with
  | true =>
    rw [hready, if_pos rfl] at hr'
    have hnone : r' ∈ (r.group.finish s (r.awaited.poll isOpen).value).running := hr'
    rw [Group.running_finish] at hnone
    cases hnone
  | false =>
    rw [hready, if_neg Bool.false_ne_true] at hr'
    rw [List.mem_singleton.mp hr']
    exact hready

theorem Running.awaited_pollAll (s : Service S C) (isOpen : Gate → Bool) (rs : List (Running S C)) :
    ∀ r ∈ (pollAll s isOpen rs).running, r.awaited.isReady = false := by
  induction rs with
  | nil => intro r hr; cases hr
  | cons q rs ih =>
    intro r hr
    rcases List.mem_append.mp hr with hr | hr
    · exact awaited_poll s isOpen q r hr
    · exact ih r hr

namespace Tick

theorem awaited_startQueued (s : Service S C) (isOpen : Gate → Bool) (context : C)
    (limit busy : Nat) (gs : List (Group S C)) :
    ∀ r ∈ (startQueued s isOpen context limit busy gs).1.running, r.awaited.isReady = false := by
  induction gs generalizing busy with
  | nil => intro r hr; cases hr
  | cons g gs ih =>
    rw [startQueued]
    split
    · intro r hr
      rcases List.mem_append.mp hr with hr | hr
      · exact Running.awaited_poll s isOpen ⟨g, g.call s context, s.run (g.call s context)⟩ r hr
      · exact ih _ r hr
    · intro r hr
      cases hr

/-- the started groups of a tick all wait: none of their calls is back. -/
def AllAwaited (t : Tick S C) : Prop := ∀ r ∈ t.running, r.awaited.isReady = false

theorem AllAwaited.wake {t : Tick S C} (h : t.AllAwaited) (isOpen : Gate → Bool) :
    (t.wake isOpen).AllAwaited :=
  fun r hr => h r ((running_wake isOpen t).subset hr)

theorem AllAwaited.poll {t : Tick S C} (h : t.AllAwaited) (s : Service S C)
    (isOpen : Gate → Bool) : (t.poll s isOpen).tick.AllAwaited := by
  let w := t.wake isOpen
  let looked := Running.pollAll s isOpen w.woken
  intro r hr
  have hr' : r ∈ w.waiting ++ (looked.running ++ (startQueued s isOpen t.context t.limit
      (w.waiting.length + looked.running.length) t.queued).1.running) := hr
  rcases List.mem_append.mp hr' with hr' | hr'
  · exact h.wake isOpen r (List.mem_append_right _ hr')
  · rcases List.mem_append.mp hr' with hr' | hr'
    · exact Running.awaited_pollAll s isOpen w.woken r hr'
    · exact awaited_startQueued s isOpen t.context t.limit _ t.queued r hr'

end Tick

namespace Batcher

/-- what new ticks have, and what opening gates and looks keep, every running tick has. -/
theorem forall_running_after {P : Tick S C → Prop} {b : Batcher S C}
    (hnew : ∀ context, P (b.formTick context b.pending.entries))
    (hwake : ∀ t isOpen, P t → P (t.wake isOpen))
    (hpoll : ∀ t isOpen, P t → P (t.poll b.service isOpen).tick) (h : ∀ t ∈ b.running, P t)
    (m : Move S C) : ∀ t ∈ (b.after m).running, P t := by
  cases m with
  | submit source args subfields context =>
    rw [after_submit]
    obtain ⟨_, ⟨_, _, _, hb⟩ | ⟨_, _, hb⟩⟩ := submit_cases b source args subfields context
    · rw [hb]
      exact h
    · rw [hb]
      exact h
  | beginTick =>
    rw [after_beginTick]
    rcases beginTick_cases b with ⟨_, hb⟩ | ⟨_, _, e, _, hb⟩ | ⟨_, _, hb⟩
    · rw [hb]
      exact h
    · rw [hb]
      intro t ht
      rcases List.mem_append.mp ht with ht | ht
      · exact h t ht
      · rw [List.mem_singleton.mp ht]
        exact hnew e.1.context
    · rw [hb]
      exact h
  | wake isOpen =>
    intro t ht
    obtain ⟨u, hu, rfl⟩ := List.mem_map.mp ht
    exact hwake u isOpen (h u hu)
  | poll isOpen number =>
    rw [after_poll]
    rcases poll_cases b isOpen number with ⟨_, hb, _⟩ | ⟨u, hu, _, ⟨_, _, hb⟩ | ⟨_, _, hb⟩⟩
    · rw [hb]
      exact h
    · rw [hb]
      exact fun t ht => h t (List.mem_filter.mp ht).1
    · rw [hb]
      intro t ht
      obtain ⟨v, hv, rfl⟩ := List.mem_map.mp ht
      split
      · exact hpoll u isOpen (h u (mem_of_tick? hu))
      · exact h v hv
  | drop number =>
    rw [after_drop]
    cases hu : b.tick? number with
    | none =>
      rw [drop_of_none hu]
      exact h
    | some u =>
      rw [drop_of_some hu]
      exact fun t ht => h t (List.mem_filter.mp ht).1
  | answer run => exact h

theorem allAwaited_run {b : Batcher S C} (h : ∀ t ∈ b.running, t.AllAwaited)
    (ms : List (Move S C)) : ∀ t ∈ (b.run ms).running, t.AllAwaited := by
  induction ms generalizing b with
  | nil => exact h
  | cons m ms ih =>
    refine ih (forall_running_after (fun _ r hr => ?_) (fun t isOpen ht => ht.wake isOpen)
      (fun t isOpen ht => ht.poll b.service isOpen) h m)
    cases hr

/-! ### every ticket without a result is waited for -/

theorem open_of_result?_none {b : Batcher S C} {t : Ticket} (ht : t < b.results.size)
    (h : b.result? t = none) : b.results[t]? = some none := by
  unfold result? at h
  rw [Array.getElem?_eq_getElem ht] at h ⊢
  rw [Option.join_some] at h
  rw [h]

/-- a ticket without a result is that of a pending call or of an open group. -/
def Attended (b : Batcher S C) : Prop := ∀ t, b.results[t]? = some none → t ∈ b.openTickets

theorem Advance.attended {b b' : Batcher S C} {settled : List (Ticket × CallResult S)}
    (h : Advance b b' settled) (hb : b.Consistent) (ha : b.Attended) : b'.Attended := by
  intro t ht
  have hnot : t ∉ settled.map Prod.fst := by
    intro hmem
    obtain ⟨⟨u, r⟩, hr, rfl⟩ := List.mem_map.mp hmem
    have hread := result?_eq_some.mp (h.reads hb hr)
    rw [ht] at hread
    cases hread
  rw [h.results_eq, getElem?_settle_of_notMem hnot] at ht
  rcases List.mem_append.mp (h.tickets.symm.subset (ha t ht)) with hmem | hmem
  · exact absurd hmem hnot
  · exact hmem

theorem attended_withCall {b : Batcher S C} (ha : b.Attended) {key : Key S C} (args : Args)
    (selection : Option Selection) (h : b.pending.find? key = none) :
    (b.withCall key args selection).Attended := by
  intro t ht
  refine (perm_openTickets_withCall args selection h).symm.subset ?_
  have ht' : (b.results.push none)[t]? = some none := ht
  rw [Array.getElem?_push] at ht'
  by_cases hnew : t = b.results.size
  · rw [hnew]
    exact List.mem_cons_self
  · rw [if_neg hnew] at ht'
    exact List.mem_cons_of_mem _ (ha t ht')

theorem attended_after {b : Batcher S C} (hb : b.Sound) (ha : b.Attended) (m : Move S C) :
    (b.after m).Attended := by
  cases m with
  | submit source args subfields context =>
    rw [after_submit]
    obtain ⟨_, ⟨_, _, _, hb'⟩ | ⟨hnone, _, hb'⟩⟩ := submit_cases b source args subfields context
    · rw [hb']
      exact ha
    · rw [hb']
      exact attended_withCall ha args _ hnone
  | beginTick =>
    rw [after_beginTick]
    rcases beginTick_cases b with ⟨_, hb'⟩ | ⟨_, _, e, _, hb'⟩ | ⟨_, _, hb'⟩
    · rw [hb']
      exact ha
    · rw [hb']
      exact (advance_taken b e.1.context).attended hb.toConsistent ha
    · rw [hb']
      exact (advance_refused b).attended hb.toConsistent ha
  | wake isOpen => exact (advance_wake b isOpen).attended hb.toConsistent ha
  | poll isOpen number =>
    rw [after_poll]
    cases ht : b.tick? number with
    | none =>
      rw [poll_of_none ht]
      exact ha
    | some t => exact (advance_poll hb.numbers isOpen ht).attended hb.toConsistent ha
  | drop number =>
    rw [after_drop]
    cases ht : b.tick? number with
    | none =>
      rw [drop_of_none ht]
      exact ha
    | some t => exact (advance_drop hb.numbers ht).attended hb.toConsistent ha
  | answer run => exact ha

/-- **In every history** a ticket without a result is that of a pending call or of an open group. -/
theorem attended_run {b : Batcher S C} (hb : b.Sound) (ha : b.Attended) (ms : List (Move S C)) :
    (b.run ms).Attended := by
  induction ms generalizing b with
  | nil => exact ha
  | cons m ms ih => exact ih (hb.after m) (attended_after hb ha m)

/-! ### giving up a tick -/

theorem result?_drop {b : Batcher S C} (hb : b.Sound) {number : Nat} {t : Tick S C}
    (ht : b.tick? number = some t) {ticket : Ticket} (h : ticket ∈ t.unsettled) :
    (b.drop number).result? ticket = some (.error (.abandoned b.service.name)) :=
  (advance_drop hb.numbers ht).reads hb.toConsistent (List.mem_map_of_mem h)

/-- a member of a group that was given up is told so. -/
theorem result?_drop_of_openGroups {b : Batcher S C} (hb : b.Sound) {number : Nat} {g : Group S C}
    (hg : g ∈ b.openGroups number) {ticket : Ticket} (h : ticket ∈ g.tickets) :
    (b.drop number).result? ticket = some (.error (.abandoned b.service.name)) := by
  cases ht : b.tick? number with
  | none =>
    rw [openGroups_of_none ht] at hg
    cases hg
  | some t =>
    rw [openGroups_of_some ht] at hg
    refine result?_drop hb ht ?_
    rw [Tick.unsettled_eq]
    exact List.mem_flatMap.mpr ⟨g, hg, h⟩

/-- a ticket without a result is settled as abandoned when a tick is given up, or left alone. -/
theorem result?_drop_cases {b : Batcher S C} (hb : b.Sound) (number : Nat) {ticket : Ticket}
    (h : b.results[ticket]? = some none) :
    (b.drop number).result? ticket = some (.error (.abandoned b.service.name)) ∨
      (b.drop number).results[ticket]? = some none := by
  cases ht : b.tick? number with
  | none =>
    rw [drop_of_none ht]
    exact Or.inr h
  | some t =>
    by_cases hmem : ticket ∈ t.unsettled
    · exact Or.inl (result?_drop hb ht hmem)
    · refine Or.inr ?_
      rw [(without_drop hb ht).results_eq ticket hmem]
      exact h

/-! ### giving up everything -/

theorem foldl_drop (b : Batcher S C) (numbers : List Nat) :
    numbers.foldl drop b = b.run (numbers.map .drop) := by
  unfold run
  rw [List.foldl_map]
  rfl

theorem result?_run_drop {b : Batcher S C} (hb : b.Sound) (numbers : List Nat) {ticket : Ticket}
    (h : b.results[ticket]? = some none) :
    (b.run (numbers.map .drop)).result? ticket = some (.error (.abandoned b.service.name)) ∨
      (b.run (numbers.map .drop)).results[ticket]? = some none := by
  induction numbers generalizing b with
  | nil => exact Or.inr h
  | cons n numbers ih =>
    rw [List.map_cons, run_cons, after_drop]
    have hname : (b.drop n).service = b.service :=
      service_after b (m := .drop n) fun _ hm => by cases hm
    rcases result?_drop_cases hb n h with habandoned | hnone
    · exact Or.inl (result?_run (hb.drop n) _ habandoned)
    · rw [← hname]
      exact ih (hb.drop n) hnone

/-- giving up ticks starts none. -/
theorem running_run_drop (b : Batcher S C) (numbers : List Nat) :
    ∀ t ∈ (b.run (numbers.map .drop)).running, t ∈ b.running ∧ t.number ∉ numbers := by
  induction numbers generalizing b with
  | nil => exact fun t ht => ⟨ht, List.not_mem_nil⟩
  | cons n numbers ih =>
    intro t ht
    obtain ⟨hmem, hnot⟩ := ih (b.drop n) t ht
    cases hu : b.tick? n with
    | none =>
      rw [drop_of_none hu] at hmem
      refine ⟨hmem, fun hin => ?_⟩
      rcases List.mem_cons.mp hin with hn | hin
      · exact List.find?_eq_none.mp hu t hmem (beq_iff_eq.mpr hn)
      · exact hnot hin
    | some u =>
      rw [drop_of_some hu] at hmem
      obtain ⟨hold, hne⟩ := List.mem_filter.mp hmem
      refine ⟨hold, fun hin => ?_⟩
      rcases List.mem_cons.mp hin with hn | hin
      · exact bne_iff_ne.mp hne hn
      · exact hnot hin

/-- **Giving up a batcher** leaves the results that there are, and abandons every other ticket. -/
theorem result?_close {b : Batcher S C} (hb : b.Sound) (ha : b.Attended) {ticket : Ticket}
    (h : ticket < b.results.size) :
    b.close.result? ticket = some ((b.result? ticket).getD (.error (.abandoned b.service.name))) := by
  let moves : List (Move S C) := (b.running.map Tick.number).map .drop
  let c := b.run moves
  have hc : c.Sound := sound_run hb moves
  have hservice : c.service = b.service := by
    refine service_run b fun m hm run hrun => ?_
    obtain ⟨n, _, rfl⟩ := List.mem_map.mp hm
    cases hrun
  have hidle : c.running = [] := by
    rw [List.eq_nil_iff_forall_not_mem]
    intro t ht
    obtain ⟨hmem, hnot⟩ := running_run_drop b _ t ht
    exact hnot (List.mem_map_of_mem hmem)
  -- with no tick left, what is open is what is pending
  have hadvance : Advance c b.close ((c.pending.values.map Pending.ticket).map fun t =>
      (t, .error (.abandoned b.service.name))) := by
    unfold close
    rw [foldl_drop]
    refine ⟨by rw [← hservice]; rfl, ?_⟩
    rw [List.map_map]
    refine List.Perm.of_eq ?_
    show (c.pending.values.map Pending.ticket).map (fun t => t) ++
      ([] ++ c.running.flatMap Tick.unsettled) = _
    rw [List.map_id', List.nil_append]
    rfl
  cases hread : b.result? ticket with
  | some r => exact hadvance.keeps hc.toConsistent (result?_run hb moves hread)
  | none =>
    show b.close.result? ticket = some (.error (.abandoned b.service.name))
    rcases result?_run_drop hb (b.running.map Tick.number) (open_of_result?_none h hread) with
      habandoned | hopen
    · exact hadvance.keeps hc.toConsistent habandoned
    · have hmem := attended_run hb ha moves ticket hopen
      unfold openTickets at hmem
      rw [hidle, List.flatMap_nil, List.append_nil] at hmem
      exact hadvance.reads hc.toConsistent (List.mem_map_of_mem hmem)

/-! ### what comes after -/

/-- a batcher that gives up a running tick has one less, and goes by what it still has to do. -/
theorem phase_drop {b : Batcher S C} {numbers : List Nat} {taken : Nat} (h : b.Paced numbers taken)
    (hb : b.Sound) {number : Nat} {t : Tick S C} (ht : b.tick? number = some t) :
    (b.drop number).inFlight = (b.drop number).running.length ∧
      (b.drop number).inFlight + 1 = b.inFlight ∧
      (b.drop number).phase =
        if (b.drop number).running ≠ [] then .dispatching
        else if (b.drop number).pending.entries ≠ [] then .collecting
        else .completed := by
  have hpaced := h.drop hb number
  have hlength : (b.drop number).inFlight = (b.drop number).running.length := by
    rw [hpaced.inFlight_eq, ← hpaced.running_eq, List.length_map]
  have hphase : (b.drop number).phase
      = settledPhase (b.drop number).inFlight (b.drop number).pending := by
    rw [drop_of_some ht]
    rfl
  refine ⟨hlength, ?_, ?_⟩
  · rw [drop_of_some ht]
    exact (h.endTick hb ht _).2
  · rw [hphase, hlength]
    unfold settledPhase Table.isEmpty
    cases (b.drop number).running <;> cases (b.drop number).pending.entries <;> simp

/-- a dispatch that does not end at once took pending calls of one context as its tick. -/
theorem taken_of_running {b : Batcher S C} {number : Nat}
    (h : b.beginTick.dispatch = .running number) :
    b.ticks = number ∧ SameContext b.pending.entries ∧ ∃ e, e ∈ b.pending.entries := by
  rcases beginTick_cases b with ⟨hnil, _⟩ | ⟨hsame, hrun, e, he, _⟩ | ⟨_, hrun, _⟩
  · rw [beginTick_of_nil hnil] at h
    cases h
  · rw [hrun] at h
    exact ⟨Dispatch.running.inj h, hsame, e, he⟩
  · rw [hrun] at h
    cases h

/-- a pending call stays pending, and without result, until a tick is begun. -/
theorem pending_run {b : Batcher S C} (hb : b.Sound) {e : Key S C × Pending}
    (he : e ∈ b.pending.entries) {ms : List (Move S C)} (hms : .beginTick ∉ ms) :
    e ∈ (b.run ms).pending.entries ∧ (b.run ms).result? e.2.ticket = none := by
  have hfind : (b.run ms).pending.find? e.1 = some e.2 :=
    find?_pending_run hms (Table.mem_entries_iff.mp he)
  exact ⟨Table.mem_entries_iff.mpr hfind, result?_of_pending (sound_run hb ms) hfind⟩

/-- a pending call is taken by the next tick, and has what the call of its group came back with as
soon as every gate is open. -/
theorem served_by_next_tick {b : Batcher S C} (hb : b.Sound) {e : Key S C × Pending}
    (he : e ∈ b.pending.entries) (hsame : SameContext b.pending.entries) :
    b.beginTick.dispatch = .running b.ticks ∧
      ∃ g ∈ (groupPending b.pending.entries).values, asMember e ∈ g.members ∧
      ∀ ns, .drop b.ticks ∉ ns →
        let looks := ns ++ [.poll (fun _ => true) b.ticks]
        ∃ outcome, CallMade b.beginTick.batcher looks b.ticks e.1.context (g, outcome) ∧
          (b.beginTick.batcher.run looks).result? e.2.ticket
            = some (b.service.handed outcome e.1.source) := by
  obtain ⟨hdispatch, htick⟩ := tick?_beginTick hb he hsame
  obtain ⟨g, hg, _, hmember⟩ := exists_mem_members he
  refine ⟨hdispatch, g, hg, hmember, fun ns hns => ?_⟩
  have hbegun := hb.beginTick
  have hlooks : .drop b.ticks ∉ ns ++ [Move.poll (fun _ => true) b.ticks] := by
    rw [List.mem_append, List.mem_singleton]
    exact fun h => h.elim hns (fun h => by cases h)
  obtain ⟨ended, h⟩ := followed_run hbegun htick rfl _ hlooks
  have hnone : (b.beginTick.batcher.run (ns ++ [.poll (fun _ => true) b.ticks])).tick? b.ticks
      = none := by
    rw [run_concat, after_poll]
    cases ht : (b.beginTick.batcher.run ns).tick? b.ticks with
    | none =>
      rw [poll_of_none ht]
      exact ht
    | some t =>
      obtain ⟨_, hended⟩ := ended_of_allOpen (sound_run hbegun ns) ht
      exact tick?_of_ended hended
  rcases h.cases hbegun hg hmember with ⟨hopen, _⟩ | hsettled
  · rw [openGroups_of_none hnone] at hopen
    cases hopen
  · have hhanded : b.beginTick.batcher.service.handed = b.service.handed := handed_run b [.beginTick]
    rw [hhanded] at hsettled
    exact hsettled

/-- each call of a tick that is given up: its group was handed its results, or its ticket is told
that it was abandoned. -/
theorem result_of_givenUp {b : Batcher S C} (hb : b.Sound)
    (hall : ∀ t ∈ b.running, t.AllAwaited) {ns : List (Move S C)} {number : Nat} {context : C}
    {calls : List (Key S C × Pending)} {ended : List (Answered S C)}
    (h : Followed b ns number context (groupPending calls).values ended) {t : Tick S C}
    (ht : (b.run ns).tick? number = some t) {e : Key S C × Pending} (he : e ∈ calls) :
    ∃ g ∈ (groupPending calls).values, asMember e ∈ g.members ∧
      ((∃ outcome, CallMade b ns number context (g, outcome) ∧
        (b.run ns).result? e.2.ticket = some (b.service.handed outcome e.1.source) ∧
        ∀ later, (((b.run ns).drop number).run later).result? e.2.ticket
          = some (b.service.handed outcome e.1.source)) ∨
      ((g ∈ t.queued ∨ ∃ r ∈ t.running, r.group = g ∧ r.awaited.isReady = false) ∧
        (b.run ns).result? e.2.ticket = none ∧
        ∀ later, (((b.run ns).drop number).run later).result? e.2.ticket
          = some (.error (.abandoned (b.run ns).service.name)))) := by
  have hsound : (b.run ns).Sound := sound_run hb ns
  obtain ⟨g, hg, _, hmember⟩ := exists_mem_members he
  refine ⟨g, hg, hmember, ?_⟩
  rcases h.cases hb hg hmember with ⟨hopen, hnone⟩ | ⟨outcome, hmade, hresult⟩
  · refine Or.inr ⟨?_, hnone, fun later => ?_⟩
    · rw [openGroups_of_some ht] at hopen
      rcases List.mem_append.mp hopen with hstarted | hqueued
      · obtain ⟨r, hr, hgroup⟩ := List.mem_map.mp hstarted
        exact Or.inr ⟨r, hr, hgroup, allAwaited_run hall ns t (mem_of_tick? ht) r hr⟩
      · exact Or.inl hqueued
    · have hticket : e.2.ticket ∈ g.tickets := List.mem_map_of_mem hmember
      exact result?_run (hsound.drop number) later (result?_drop_of_openGroups hsound hopen hticket)
  · refine Or.inl ⟨outcome, hmade, hresult, fun later => ?_⟩
    exact result?_run (hsound.drop number) later (result?_after hsound (.drop number) hresult)

/-- what a given-up tick owed went to tickets of its own calls. -/
theorem unsettled_of_followed {b : Batcher S C} {ns : List (Move S C)} {number : Nat} {context : C}
    {calls : List (Key S C × Pending)} {ended : List (Answered S C)}
    (h : Followed b ns number context (groupPending calls).values ended) {t : Tick S C}
    (ht : (b.run ns).tick? number = some t) {ticket : Ticket} (hmem : ticket ∈ t.unsettled) :
    ∃ e ∈ calls, e.2.ticket = ticket := by
  rw [Tick.unsettled_eq] at hmem
  obtain ⟨g, hg, hticket⟩ := List.mem_flatMap.mp hmem
  have hgroup : g ∈ (groupPending calls).values := by
    refine h.groups_perm.subset (List.mem_append_right _ ?_)
    rw [openGroups_of_some ht]
    exact hg
  have hall := (perm_tickets_groups calls).subset (List.mem_flatMap.mpr ⟨g, hgroup, hticket⟩)
  exact List.mem_map.mp hall

/-- **A dispatch that is given up.**  After any history let a dispatch be begun as a tick, let
anything happen after that, and let the tick be given up before the dispatch has returned.
* Each call of the tick is in a group.  If the call of that group was back, the ticket keeps the
  result that it was handed.  Else the group was not started yet or still waited, the ticket had no
  result, and it has that it was abandoned, for good.
* One tick less is in flight, and the phase goes by whether other ticks run and calls are pending.
  It happens once: to look at the tick or to give it up does nothing from then on.
* What is pending stays pending until a tick is begun, and is served by that tick as ever.
* Whatever comes later is as if the tick were still there and nobody asked for it: the same other
  ticks, pending calls, events and receipts, and the same results of every ticket of another tick.

Giving up the batcher leaves the results that there are, and abandons every other ticket. -/
theorem abandonment_is_contained (maxConcurrentGroups : Option Nat) (service : Service S C)
    (ms : List (Move S C)) :
    let b := (Batcher.new maxConcurrentGroups service).run ms
    let calls := b.pending.entries
    let abandoned : CallResult S := .error (.abandoned service.name)
    (∀ number, b.beginTick.dispatch = .running number → ∀ ns, .drop number ∉ ns →
      let begun := b.beginTick.batcher
      let before := begun.run ns
      let now := before.drop number
      ∀ t, before.tick? number = some t →
        (∀ e ∈ calls, ∃ g ∈ (groupPending calls).values, asMember e ∈ g.members ∧
          ((∃ outcome, CallMade begun ns number t.context (g, outcome) ∧
            before.result? e.2.ticket = some (service.handed outcome e.1.source) ∧
            ∀ later, (now.run later).result? e.2.ticket
              = some (service.handed outcome e.1.source)) ∨
          ((g ∈ t.queued ∨ ∃ r ∈ t.running, r.group = g ∧ r.awaited.isReady = false) ∧
            before.result? e.2.ticket = none ∧
            ∀ later, (now.run later).result? e.2.ticket = some abandoned))) ∧
        (now.inFlight = now.running.length ∧ now.inFlight + 1 = before.inFlight ∧
          now.phase =
            (if now.running ≠ [] then .dispatching
            else if now.pending.entries ≠ [] then .collecting
            else .completed) ∧
          ∀ later, (now.run later).drop number = now.run later ∧
            ∀ isOpen, (now.run later).poll isOpen number
              = ⟨now.run later, .running number, [], []⟩) ∧
        (now.intake = before.intake ∧
          ∀ e ∈ before.pending.entries, ∀ later, .beginTick ∉ later →
            let l := now.run later
            e ∈ l.pending.entries ∧ l.result? e.2.ticket = none ∧
            (SameContext l.pending.entries →
              l.beginTick.dispatch = .running l.ticks ∧
              ∃ g ∈ (groupPending l.pending.entries).values, asMember e ∈ g.members ∧
              ∀ ks, .drop l.ticks ∉ ks →
                let looks := ks ++ [.poll (fun _ => true) l.ticks]
                ∃ outcome, CallMade l.beginTick.batcher looks l.ticks e.1.context (g, outcome) ∧
                  (l.beginTick.batcher.run looks).result? e.2.ticket
                    = some (service.handed outcome e.1.source))) ∧
        ∀ later,
          let kept := before.run (later.filter fun m => !m.isOn number)
          (now.run later).running = kept.running.filter (fun u => u.number != number) ∧
          (now.run later).intake = kept.intake ∧
          now.trace later = before.trace (later.filter fun m => !m.isOn number) ∧
          (∀ m, m.isOn number = false → (now.run later).receipt m = kept.receipt m) ∧
          ∀ ticket, (∀ e ∈ calls, e.2.ticket ≠ ticket) →
            (now.run later).result? ticket = kept.result? ticket) ∧
    ∀ ticket, ticket < b.results.size →
      b.close.result? ticket = some ((b.result? ticket).getD abandoned) := by
  intro b calls abandoned
  have hnew := sound_new maxConcurrentGroups service
  have hb : b.Sound := sound_run hnew ms
  have hname : b.service.name = service.name :=
    congrArg Binding.name (carried_run (Batcher.new maxConcurrentGroups service) ms).binding
  have hattended : b.Attended := attended_run hnew (fun _ ht => by cases ht) ms
  refine ⟨fun number hdispatch ns hns => ?_, fun ticket hlt => ?_⟩
  · intro begun before now t ht
    obtain ⟨rfl, hsame, e₀, he₀⟩ := taken_of_running hdispatch
    have hbegun : begun.Sound := hb.beginTick
    have hbefore : before.Sound := sound_run hbegun ns
    have hnow : now.Sound := hbefore.drop b.ticks
    obtain ⟨_, htick⟩ := tick?_beginTick hb he₀ hsame
    obtain ⟨ended, hfollowed⟩ := followed_run hbegun htick rfl ns hns
    obtain ⟨hcontext, _⟩ := hfollowed.running t ht
    have hwithout := without_drop hbefore ht
    let start := Batcher.new maxConcurrentGroups service
    have hbefore_eq : before = start.run (ms ++ .beginTick :: ns) := by
      rw [run_append, run_cons]
      rfl
    have hcarried : Carried start before := hbefore_eq ▸ carried_run start _
    have hname' : before.service.name = service.name := congrArg Binding.name hcarried.binding
    have hhanded : begun.service.handed = service.handed := by
      have h := handed_run start (ms ++ [.beginTick])
      rw [run_concat] at h
      exact h
    refine ⟨fun e he => ?_, ?_, ⟨hwithout.intake_eq, fun e he later hlater => ?_⟩, fun later => ?_⟩
    · have hawaited : ∀ u ∈ begun.running, u.AllAwaited := by
        have h := allAwaited_run (b := start) (fun _ hu => by cases hu) (ms ++ [.beginTick])
        rw [run_concat] at h
        exact h
      have h := result_of_givenUp hbegun hawaited hfollowed ht he
      rw [hhanded, hname', ← hcontext] at h
      exact h
    · have hpaced := (paced_new maxConcurrentGroups service).run hnew (ms ++ .beginTick :: ns)
      rw [← hbefore_eq] at hpaced
      obtain ⟨hlength, hone, hphase⟩ := phase_drop hpaced hbefore ht
      refine ⟨hlength, hone, hphase, fun later => ?_⟩
      have hgone := (hwithout.run later).1.tick?_self
      exact ⟨drop_of_none hgone, fun isOpen => poll_of_none hgone isOpen⟩
    · intro l
      have he' : e ∈ now.pending.entries := by
        rw [hwithout.pending_eq]
        exact he
      obtain ⟨hmem, hnone⟩ := pending_run hnow he' hlater
      refine ⟨hmem, hnone, fun hsame' => ?_⟩
      have hhanded' : l.service.handed = service.handed := by
        have h := handed_run start (ms ++ .beginTick :: (ns ++ .drop b.ticks :: later))
        rw [run_append, run_cons, run_append, run_cons] at h
        exact h
      have hserved := served_by_next_tick (sound_run hnow later) hmem hsame'
      rw [hhanded'] at hserved
      exact hserved
    · intro kept
      obtain ⟨hrest, htrace⟩ := hwithout.run later
      refine ⟨hrest.running_eq, hrest.intake_eq, htrace, fun m hm => (hrest.after hm).2.1,
        fun ticket hticket => hrest.result?_eq fun howed => ?_⟩
      obtain ⟨e, he, hmine⟩ := unsettled_of_followed hfollowed ht howed
      exact hticket e he hmine
  · rw [result?_close hb hattended hlt, hname]

/-- a function that answers every source with itself, behind the gate that its arguments name. -/
def gated : Service Nat Unit :=
  let shape : Shape := ⟨true, false⟩
  let run (call : Call (List Nat) Unit) : Deferred (BatchOutcome Nat) :=
    ⟨(call.args.bind fun args => args.getText? "gate").toList,
      .ok (Table.ofList (call.input.map fun n => (n, .scalar (.number (.int n)))))⟩
  ⟨⟨0, "Int", "same", [.sources, .arguments], ⟨true, none⟩, .batched shape run⟩, shape, run⟩

/-- of three groups, one at a time, the first is done, the second waits and the third is not started
when the dispatch is given up; a call that came meanwhile is still pending. -/
theorem abandonment_is_contained_of_gated :
    let behind (gate : String) : Args := Args.empty.insert "gate" (.text gate)
    let begun := ((Batcher.new (some 1) gated).run [.submit 1 (behind "a") [] (),
      .submit 2 (behind "b") [] (), .submit 3 (behind "c") [] ()]).beginTick.batcher
    let before := begun.run [.poll (fun gate => gate == "a") 0, .submit 4 (behind "a") [] ()]
    let now := before.drop 0
    now.inFlight + 1 = before.inFlight ∧ now.phase = .collecting ∧ now.result? 3 = none ∧
      ∀ later, (∃ outcome, (now.run later).result? 0 = some (gated.handed outcome 1)) ∧
        (now.run later).result? 1 = some (.error (.abandoned gated.name)) ∧
        (now.run later).result? 2 = some (.error (.abandoned gated.name)) := by
  intro behind begun before now
  let b := (Batcher.new (some 1) gated).run [.submit 1 (behind "a") [] (),
    .submit 2 (behind "b") [] (), .submit 3 (behind "c") [] ()]
  have hsome : (before.tick? 0).isSome = true := by decide +kernel
  obtain ⟨t, ht⟩ := Option.isSome_iff_exists.mp hsome
  obtain ⟨hgivenUp, _⟩ := abandonment_is_contained (some 1) gated [.submit 1 (behind "a") [] (),
    .submit 2 (behind "b") [] (), .submit 3 (behind "c") [] ()]
  have hbegun : b.beginTick.dispatch = .running 0 := by rfl
  have hkept : Move.drop 0 ∉ [.poll (fun gate => gate == "a") 0, .submit 4 (behind "a") [] ()] := by
    simp
  obtain ⟨hresults, ⟨_, hone, hphase, _⟩, ⟨_, hpending⟩, _⟩ :=
    hgivenUp 0 hbegun _ hkept t ht
  have hcall : ∀ n gate ticket,
      (b.pending.find? (b.keyOf n (behind gate) [] ())).map Pending.ticket = some ticket →
      (before.result? ticket).isSome = false →
      ∀ later, (now.run later).result? ticket = some (.error (.abandoned gated.name)) := by
    intro n gate ticket hfind hnone
    obtain ⟨p, hp, rfl⟩ := Option.map_eq_some_iff.mp hfind
    obtain ⟨_, _, _, ⟨_, _, hsome, _⟩ | ⟨_, _, habandoned⟩⟩ :=
      hresults _ (Table.mem_entries_iff.mpr hp)
    · rw [hsome] at hnone
      cases hnone
    · exact habandoned
  refine ⟨hone, ?_, ?_, fun later => ⟨?_, hcall 2 "b" 1 (by decide +kernel) (by decide +kernel) later,
    hcall 3 "c" 2 (by decide +kernel) (by decide +kernel) later⟩⟩
  · have hrunning : now.running.isEmpty = true := by decide +kernel
    have hcalls : now.pending.entries.isEmpty = false := by decide +kernel
    rw [hphase, if_neg (not_not.mpr (List.isEmpty_iff.mp hrunning)),
      if_pos (List.isEmpty_eq_false_iff.mp hcalls)]
  · have hfind : (before.pending.find? (before.keyOf 4 (behind "a") [] ())).map Pending.ticket
        = some 3 := by decide +kernel
    obtain ⟨p, hp, hticket⟩ := Option.map_eq_some_iff.mp hfind
    obtain ⟨_, hnone, _⟩ := hpending _ (Table.mem_entries_iff.mpr hp) [] List.not_mem_nil
    rw [run_nil, hticket] at hnone
    exact hnone
  · have hfind : (b.pending.find? (b.keyOf 1 (behind "a") [] ())).map Pending.ticket = some 0 := by
      decide +kernel
    obtain ⟨p, hp, hticket⟩ := Option.map_eq_some_iff.mp hfind
    rw [← hticket]
    obtain ⟨_, _, _, ⟨_, _, _, hkeeps⟩ | ⟨_, hnone, _⟩⟩ :=
      hresults _ (Table.mem_entries_iff.mpr hp)
    · exact ⟨_, hkeeps later⟩
    · have hdone : (before.result? 0).isSome = true := by decide +kernel
      rw [← hticket, hnone] at hdone
      cases hdone

end Batcher
end Batchwise
