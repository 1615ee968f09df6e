import Batchwise.Proofs.Batch.Renaming

/-!
# A refused tick

Calls of different contexts that a dispatch finds pending are refused together.  Nothing is called
for them, each of them is told so, and nobody else can tell that they were ever there: not the
ticks that run meanwhile, and nothing that comes later.

* `beginTick_diverges_iff`   when a dispatch refuses what is pending;
* `Batcher.Aside`            a batcher beside one that has the same ticks but got no calls:
                             `Aside.run`;
* `Aside.twins`              the refusal makes the two the same but for the numbers to come;
* `Move.withoutTick`, `Twins.run_without`   any later history, where the tick was never taken;
* `Batcher.divergence_is_contained`   all of it, for every history.
-/

set_option linter.unusedSectionVars false

namespace Batchwise

variable {S C : Type} [DecidableEq S] [DecidableEq C]

/-- what becomes of a move where the tick of a number was never taken: moves on that tick are
none, and later ticks have the number before theirs. -/
def Move.withoutTick (refused : Nat) : Move S C → Option (Move S C)
  | .poll isOpen n =>
    if n = refused then none else some (.poll isOpen (if n < refused then n else n - 1))
  | .drop n => if n = refused then none else some (.drop (if n < refused then n else n - 1))
  | m => some m

namespace Renaming

variable (first amount number : Nat)

theorem tick_shift_ne (n : Nat) : (shift first amount number).tick n ≠ number := by
  show shifted number 1 n ≠ number
  rcases Nat.lt_or_ge n number with h | h
  · rw [shifted_of_lt h]
    exact Nat.ne_of_lt h
  · rw [shifted_of_le h]
    omega

theorem tick_shift_unshifted {n : Nat} (h : n ≠ number) :
    (shift first amount number).tick (if n < number then n else n - 1) = n := by
  show shifted number 1 _ = n
  by_cases hlt : n < number
  · rw [if_pos hlt, shifted_of_lt hlt]
  · have hle : number ≤ n - 1 := by omega
    rw [if_neg hlt, shifted_of_le hle]
    omega

/-- a move is a renamed one, or it is on the tick that was never taken. -/
theorem cases_withoutTick (m : Move S C) :
    (m.withoutTick number = none ∧
      ((∃ isOpen, m = .poll isOpen number) ∨ m = .drop number)) ∨
    ∃ m', m.withoutTick number = some m' ∧ m = m'.rename (shift first amount number) := by
  cases m with
  | poll isOpen n =>
    by_cases h : n = number
    · exact Or.inl ⟨if_pos h, Or.inl ⟨isOpen, h ▸ rfl⟩⟩
    · refine Or.inr ⟨_, if_neg h, ?_⟩
      show _ = Move.poll isOpen ((shift first amount number).tick _)
      rw [tick_shift_unshifted first amount number h]
  | drop n =>
    by_cases h : n = number
    · exact Or.inl ⟨if_pos h, Or.inr (h ▸ rfl)⟩
    · refine Or.inr ⟨_, if_neg h, ?_⟩
      show _ = Move.drop ((shift first amount number).tick _)
      rw [tick_shift_unshifted first amount number h]
  | submit source args subfields context => exact Or.inr ⟨_, rfl, rfl⟩
  | beginTick => exact Or.inr ⟨_, rfl, rfl⟩
  | wake isOpen => exact Or.inr ⟨_, rfl, rfl⟩
  | answer run => exact Or.inr ⟨_, rfl, rfl⟩

end Renaming

namespace Batcher

/-! ### when a tick is refused -/

theorem not_sameContext_iff {es : List (Key S C × Pending)} :
    ¬ SameContext es ↔ ∃ e ∈ es, ∃ f ∈ es, e.1.context ≠ f.1.context := by
  unfold SameContext
  push Not
  rfl

/-- a dispatch fails just when two of the calls it takes carry different contexts. -/
theorem beginTick_diverges_iff (b : Batcher S C) :
    b.beginTick.dispatch = .ended (.error (.contextDivergence b.service.name)) ↔
      ∃ e ∈ b.pending.entries, ∃ f ∈ b.pending.entries, e.1.context ≠ f.1.context := by
  rw [← not_sameContext_iff]
  constructor
  · intro hended hsame
    cases hentries : b.pending.entries with
    | nil =>
      rw [beginTick_of_nil hentries] at hended
      cases hended
    | cons e es =>
      rw [beginTick_of_same (hentries ▸ List.mem_cons_self) hsame] at hended
      cases hended
  · intro hdiff
    rw [beginTick_of_differ hdiff]

/-- a dispatch that is under way does not fail any more. -/
theorem poll_ne_error (b : Batcher S C) (isOpen : Gate → Bool) (number : Nat)
    (error : DispatchError) : (b.poll isOpen number).dispatch ≠ .ended (.error error) := by
  intro herror
  rcases poll_cases b isOpen number with
    ⟨_, _, hrun, _⟩ | ⟨_, _, _, ⟨_, ⟨_, hend⟩, _⟩ | ⟨_, hrun, _⟩⟩
  · rw [hrun] at herror
    cases herror
  · rw [hend] at herror
    cases herror
  · rw [hrun] at herror
    cases herror

/-! ### beside a batcher that got no calls -/

/-- `b` got calls that `c` did not get; otherwise the same happened to both. -/
structure Aside (b c : Batcher S C) : Prop extends Mirrors .refl b c where
  ticks_eq : b.ticks = c.ticks
  nothing : c.pending.entries = []
  size_eq : b.results.size = c.results.size + b.pending.entries.length
  fresh : ∀ e ∈ b.pending.entries, c.results.size ≤ e.2.ticket

namespace Aside

variable {b c : Batcher S C}

theorem refl {b : Batcher S C} (h : b.pending.entries = []) : Aside b b := by
  refine ⟨Mirrors.refl b, rfl, h, ?_, fun e he => ?_⟩
  · rw [h]
    rfl
  · rw [h] at he
    cases he

theorem submit (h : Aside b c) (source : S) (args : Args) (subfields : List Field) (context : C) :
    Aside (b.submit source args subfields context).batcher c := by
  cases hfind : b.pending.find? (b.keyOf source args subfields context) with
  | some p =>
    rw [submit_of_some hfind]
    exact ⟨⟨h.service_eq, h.limit_eq, h.inFlight_eq, h.running_eq, h.results_eq⟩, h.ticks_eq,
      h.nothing, h.size_eq, h.fresh⟩
  | none =>
    have hentries := Table.entries_put_of_notMem
      (⟨args, b.service.binding.selectionOf subfields, b.results.size⟩ : Pending)
      (Table.find?_eq_none_iff.mp hfind)
    rw [submit_of_none hfind]
    refine ⟨⟨h.service_eq, h.limit_eq, h.inFlight_eq, h.running_eq, fun t ht => ?_⟩, h.ticks_eq,
      h.nothing, ?_, fun e he => ?_⟩
    · show (b.results.push none)[t]? = _
      have hlt : t < b.results.size := by
        rw [h.size_eq]
        exact Nat.lt_add_right _ ht
      rw [Array.getElem?_push_lt hlt, ← Array.getElem?_eq_getElem hlt]
      exact h.results_eq t ht
    · show (b.results.push none).size = c.results.size + (b.pending.put _ _).entries.length
      rw [Array.size_push, hentries, List.length_append, h.size_eq]
      rfl
    · have he' : e ∈ (b.pending.put _ _).entries := he
      rw [hentries] at he'
      rcases List.mem_append.mp he' with he' | he'
      · exact h.fresh e he'
      · rw [List.mem_singleton.mp he']
        show c.results.size ≤ b.results.size
        rw [h.size_eq]
        exact Nat.le_add_right _ _

/-- what either shows to a move that brings no calls is the same. -/
theorem shows (h : Aside b c) {m : Move S C} (hm : m.fills = false) :
    Mirrors .refl (b.after m) (c.after m) ∧ b.receipt m = c.receipt m ∧
      b.eventsBy m = c.eventsBy m := by
  have hboth := h.toMirrors.after hm
  rw [m.rename_refl, Receipt.rename_refl] at hboth
  exact hboth

theorem after (h : Aside b c) {m : Move S C} (hm : m.fills = false) :
    Aside (b.after m) (c.after m) := by
  obtain ⟨hpending, hticks, hsize⟩ := Intake.mk.inj (intake_after b hm)
  obtain ⟨hpending', hticks', hsize'⟩ := Intake.mk.inj (intake_after c hm)
  refine ⟨(h.shows hm).1, ?_, ?_, ?_, ?_⟩
  · rw [hticks, hticks']
    exact h.ticks_eq
  · rw [hpending']
    exact h.nothing
  · rw [hsize, hsize', hpending]
    exact h.size_eq
  · rw [hsize', hpending]
    exact h.fresh

/-- any history without a dispatch, and the same without its calls. -/
theorem run (h : Aside b c) (ms : List (Move S C)) (hms : .beginTick ∉ ms) :
    Aside (b.run ms) (c.run (ms.filter fun m => !m.fills)) := by
  induction ms generalizing b c with
  | nil => exact h
  | cons m ms ih =>
    rw [List.mem_cons, not_or] at hms
    cases hm : m.fills with
    | false =>
      rw [List.filter_cons_of_pos (by rw [hm]; rfl)]
      exact ih (h.after hm) hms.2
    | true =>
      rw [List.filter_cons_of_neg (by rw [hm]; exact Bool.false_ne_true)]
      cases m with
      | submit source args subfields context =>
        exact ih (h.submit source args subfields context) hms.2
      | beginTick => exact absurd rfl hms.1
      | wake isOpen => cases hm
      | poll isOpen number => cases hm
      | drop number => cases hm
      | answer run => cases hm

theorem running_same (h : Aside b c) : b.running = c.running := by
  rw [h.running_eq]
  exact (List.map_congr_left fun t _ => t.rename_refl).trans (List.map_id _)

theorem result?_same (h : Aside b c) {t : Ticket} (ht : t < c.results.size) :
    b.result? t = c.result? t :=
  congrArg Option.join (h.results_eq t ht)

/-- **When the calls were refused** nothing of them is left but that the numbers to come are
higher. -/
theorem twins (h : Aside b c) (hc : c.Sound) :
    Twins (.shift c.results.size b.pending.entries.length c.ticks) b.refused c := by
  have hstays : ∀ t, t < c.results.size →
      Renaming.shifted c.results.size b.pending.entries.length t = t :=
    fun t ht => Renaming.shifted_of_lt ht
  refine ⟨⟨h.service_eq, h.limit_eq, h.inFlight_eq, ?_, fun t ht => ?_⟩, ?_, fun n => ?_,
    fun n => ?_⟩
  · show b.running = _
    rw [h.running_same]
    refine ((List.map_congr_left fun t ht => ?_).trans (List.map_id _)).symm
    refine Tick.rename_self (Renaming.shifted_of_lt (hc.numbers_lt t ht)) fun x hx => ?_
    exact hstays x (hc.lt_size (List.mem_append_right _ (List.mem_flatMap.mpr ⟨t, ht, hx⟩)))
  · show b.refused.results[Renaming.shifted _ _ t]? = c.results[t]?
    rw [hstays t ht, ← h.results_eq t ht]
    refine getElem?_settle_of_notMem (b := b.take) fun hmem => ?_
    rw [List.map_map] at hmem
    obtain ⟨x, hx, rfl⟩ := List.mem_map.mp hmem
    obtain ⟨p, hp, rfl⟩ := List.mem_map.mp hx
    obtain ⟨e, he, rfl⟩ := List.mem_map.mp hp
    exact absurd ht (Nat.not_lt.mpr (h.fresh e he))
  · rw [h.nothing]
    rfl
  · show b.ticks + 1 + n = Renaming.shifted c.ticks 1 (c.ticks + n)
    rw [Renaming.shifted_of_le (Nat.le_add_right _ _), h.ticks_eq, Nat.add_right_comm]
  · show (b.take.settle _).results.size + n = Renaming.shifted c.results.size _ (c.results.size + n)
    rw [Renaming.shifted_of_le (Nat.le_add_right _ _), size_settle, Nat.add_right_comm, ← h.size_eq]
    rfl

end Aside

/-! ### histories in which a tick was never taken -/

namespace Twins

variable {first amount number : Nat} {b c : Batcher S C}

/-- the tick that was never taken is not there. -/
theorem tick?_shift (h : Twins (.shift first amount number) b c) : b.tick? number = none := by
  unfold tick?
  rw [h.running_eq, List.find?_eq_none]
  intro t ht heq
  obtain ⟨u, _, rfl⟩ := List.mem_map.mp ht
  exact Renaming.tick_shift_ne first amount number u.number (beq_iff_eq.mp heq)

/-- **Any history that follows** is, under other numbers, the one in which the tick was never
taken. -/
theorem run_without (h : Twins (.shift first amount number) b c) (ms : List (Move S C)) :
    Twins (.shift first amount number) (b.run ms)
        (c.run (ms.filterMap (Move.withoutTick number))) ∧
      b.trace ms = c.trace (ms.filterMap (Move.withoutTick number)) := by
  induction ms generalizing b c with
  | nil => exact ⟨h, rfl⟩
  | cons m ms ih =>
    rw [List.filterMap_cons, run_cons, trace_cons]
    rcases Renaming.cases_withoutTick first amount number m with ⟨hnone, hm⟩ | ⟨m', hsome, hm⟩
    · have hidle : b.after m = b ∧ b.eventsBy m = [] := by
        rcases hm with ⟨isOpen, rfl⟩ | rfl
        · rw [after_poll, eventsBy, poll_of_none h.tick?_shift]
          exact ⟨rfl, rfl⟩
        · exact ⟨drop_of_none h.tick?_shift, rfl⟩
      rw [hnone, hidle.1, hidle.2]
      exact ih h
    · obtain ⟨hnext, _, hevents⟩ := h.after m'
      rw [← hm] at hnext hevents
      rw [hsome]
      obtain ⟨hrest, htrace⟩ := ih hnext
      refine ⟨hrest, ?_⟩
      show _ = c.trace (m' :: _)
      rw [trace_cons, hevents, htrace]

theorem receipt_eq {ρ : Renaming} (h : Twins ρ b c) (m : Move S C) :
    b.receipt (m.rename ρ) = (c.receipt m).rename ρ :=
  (h.after m).2.1

/-- tickets that were not given out yet have no result on either side. -/
theorem result?_eq {ρ : Renaming} (h : Twins ρ b c) (t : Ticket) :
    b.result? (ρ.ticket t) = c.result? t := by
  unfold result?
  rcases Nat.lt_or_ge t c.results.size with hlt | hge
  · rw [h.results_eq t hlt]
  · obtain ⟨n, rfl⟩ := Nat.exists_eq_add_of_le hge
    rw [← h.tickets_eq n, Array.getElem?_eq_none (Nat.le_add_right _ _),
      Array.getElem?_eq_none (Nat.le_add_right _ _)]

end Twins

/-! ### the calls of the next tick -/

/-- what is pending after a history was submitted since the last dispatch. -/
theorem exists_since (start : Batcher S C) (hstart : start.pending.entries = [])
    (ms : List (Move S C)) :
    ∃ before since, ms = before ++ since ∧ (start.run before).pending.entries = [] ∧
      .beginTick ∉ since := by
  induction ms using List.reverseRecOn with
  | nil => exact ⟨[], [], rfl, hstart, List.not_mem_nil⟩
  | append_singleton ms m ih =>
    obtain ⟨before, since, rfl, hnothing, hsince⟩ := ih
    by_cases hm : m = .beginTick
    · subst hm
      refine ⟨before ++ since ++ [.beginTick], [], (List.append_nil _).symm, ?_, List.not_mem_nil⟩
      rw [run_concat, after_beginTick]
      rcases beginTick_cases (start.run (before ++ since)) with
        ⟨hnil, hb⟩ | ⟨_, _, _, _, hb⟩ | ⟨_, _, hb⟩
      · rw [hb]
        exact hnil
      · rw [hb]
        rfl
      · rw [hb]
        rfl
    · refine ⟨before, since ++ [m], List.append_assoc before since [m], hnothing, ?_⟩
      rw [List.mem_append, List.mem_singleton, not_or]
      exact ⟨hsince, fun h => hm h.symm⟩

/-- what a refused dispatch leaves behind, and the history without its calls. -/
theorem twins_since {start : Batcher S C} (hstart : start.Sound) {before since : List (Move S C)}
    (hnothing : (start.run before).pending.entries = []) (hsince : .beginTick ∉ since) :
    let b := start.run (before ++ since)
    let never := start.run (before ++ since.filter fun m => !m.fills)
    Twins (.shift never.results.size b.pending.entries.length b.ticks) b.refused never := by
  intro b never
  have haside := (Aside.refl hnothing).run since hsince
  rw [← run_append, ← run_append] at haside
  have hticks : b.ticks = never.ticks := haside.ticks_eq
  rw [hticks]
  exact haside.twins (sound_run hstart _)

theorem result?_refused_other {b : Batcher S C} {t : Ticket}
    (ht : ∀ e ∈ b.pending.entries, e.2.ticket ≠ t) : b.refused.result? t = b.result? t := by
  refine congrArg Option.join (getElem?_settle_of_notMem (b := b.take) fun hmem => ?_)
  rw [List.map_map] at hmem
  obtain ⟨x, hx, rfl⟩ := List.mem_map.mp hmem
  obtain ⟨p, hp, rfl⟩ := List.mem_map.mp hx
  obtain ⟨e, he, rfl⟩ := List.mem_map.mp hp
  exact ht e he rfl

/-- **A divergence is contained.**  After any history:
* a dispatch fails just when two of the calls it takes carry different contexts, and one that did
  not fail at once never does;
* if it fails, nothing but the refusal happens for its tick, then or later: it is not running, and
  looks at it and giving it up do nothing;
* each of its calls is settled with the divergence for good, and no other ticket is touched;
* the tick is counted and has ended;
* the moves since the last dispatch show of every running tick, and of every ticket given out
  before, what they would have shown had the calls never been submitted;
* and so does every later history, where the numbers of later tickets and ticks are higher: it has
  the same running ticks, pending calls, events, receipts and results. -/
theorem divergence_is_contained (maxConcurrentGroups : Option Nat) (service : Service S C)
    (ms : List (Move S C)) :
    let start := Batcher.new maxConcurrentGroups service
    let b := start.run ms
    let calls := b.pending.entries
    let refused := b.beginTick.batcher
    let divergence := DispatchError.contextDivergence service.name
    (b.beginTick.dispatch = .ended (.error divergence) ↔
      ∃ e ∈ calls, ∃ f ∈ calls, e.1.context ≠ f.1.context) ∧
    (∀ ns isOpen number error, ((b.run ns).poll isOpen number).dispatch ≠ .ended (.error error)) ∧
    ((∃ e ∈ calls, ∃ f ∈ calls, e.1.context ≠ f.1.context) →
      b.beginTick.events = [.diverged service.id calls.length] ∧
      (∀ ns isOpen, (refused.run ns).poll isOpen b.ticks
          = ⟨refused.run ns, .running b.ticks, [], []⟩ ∧
        (refused.run ns).drop b.ticks = refused.run ns) ∧
      (∀ e ∈ calls, b.result? e.2.ticket = none ∧ ∀ ns, (refused.run ns).result? e.2.ticket
        = some (.error (.contextDivergence service.name))) ∧
      (∀ t, (∀ e ∈ calls, e.2.ticket ≠ t) → refused.result? t = b.result? t) ∧
      (refused.ticks = b.ticks + 1 ∧ refused.inFlight = b.inFlight ∧
        refused.pending.entries = [] ∧ refused.running = b.running ∧
        refused.phase = settledPhase refused.inFlight refused.pending) ∧
      ∃ before since, ms = before ++ since ∧ (start.run before).pending.entries = [] ∧
        .beginTick ∉ since ∧
        (∀ sofar, sofar <+: since →
          let now := start.run (before ++ sofar)
          let never := start.run (before ++ sofar.filter fun m => !m.fills)
          now.running = never.running ∧
          (∀ t, t < never.results.size → now.result? t = never.result? t) ∧
          ∀ m, m.fills = false →
            now.receipt m = never.receipt m ∧ now.eventsBy m = never.eventsBy m) ∧
        ∀ ns,
          let never := start.run (before ++ since.filter fun m => !m.fills)
          let ρ := Renaming.shift never.results.size calls.length b.ticks
          let later := ns.filterMap (Move.withoutTick b.ticks)
          (refused.run ns).running = (never.run later).running.map (Tick.rename ρ) ∧
          (refused.run ns).pending.entries = (never.run later).pending.entries.map ρ.call ∧
          refused.trace ns = never.trace later ∧
          (∀ t, (refused.run ns).result? (ρ.ticket t) = (never.run later).result? t) ∧
          ∀ m, (refused.run ns).receipt (m.rename ρ) = ((never.run later).receipt m).rename ρ) := by
  intro start b calls refused divergence
  have hcarried : Carried start b := carried_run start ms
  have hname : b.service.name = service.name := congrArg Binding.name hcarried.binding
  have hid : b.id = service.id := congrArg Binding.id hcarried.binding
  have hb : b.Sound := sound_run (sound_new maxConcurrentGroups service) ms
  have hiff := beginTick_diverges_iff b
  rw [hname] at hiff
  refine ⟨hiff, fun ns isOpen number error => poll_ne_error (b.run ns) isOpen number error,
    fun hdiff => ?_⟩
  have hbegin := beginTick_of_differ (not_sameContext_iff.mpr hdiff)
  have hrefused : refused = b.refused := congrArg Step.batcher hbegin
  obtain ⟨before, since, hms, hnothing, hsince⟩ := exists_since start rfl ms
  have htwins := twins_since (sound_new maxConcurrentGroups service) hnothing hsince
  dsimp only at htwins
  rw [← hms] at htwins
  change Twins _ b.refused _ at htwins
  rw [← hrefused] at htwins
  refine ⟨?_, fun ns isOpen => ?_, fun e he => ⟨?_, fun ns => ?_⟩, fun t ht => ?_, ?_,
    before, since, hms, hnothing, hsince, fun sofar hsofar => ?_, fun ns => ?_⟩
  · rw [hbegin, hid]
  · have hnone := (htwins.run_without ns).1.tick?_shift
    exact ⟨poll_of_none hnone isOpen, drop_of_none hnone⟩
  · exact result?_of_pending hb (Table.mem_entries_iff.mp he)
  · rw [← hname]
    exact (refused_of_contexts hb he (not_sameContext_iff.mpr hdiff)).2 ns
  · rw [hrefused]
    exact result?_refused_other ht
  · rw [hrefused]
    exact ⟨rfl, rfl, rfl, rfl, rfl⟩
  · have hnot : .beginTick ∉ sofar := fun h => hsince (hsofar.subset h)
    have h := (Aside.refl hnothing).run sofar hnot
    rw [← run_append, ← run_append] at h
    exact ⟨h.running_same, fun t ht => h.result?_same ht, fun m hm => (h.shows hm).2⟩
  · obtain ⟨hlater, htrace⟩ := htwins.run_without ns
    exact ⟨hlater.running_eq, hlater.pending_eq, htrace, hlater.result?_eq, hlater.receipt_eq⟩

/-- a function that answers every source with itself, for any context. -/
def echoes : Service Nat String :=
  let shape : Shape := ⟨false, false⟩
  let run (call : Call (List Nat) String) : Deferred (BatchOutcome Nat) :=
    .ready (.ok (Table.ofList (call.input.map fun n => (n, .scalar (.number (.int n))))))
  ⟨⟨0, "Int", "echo", [.sources], ⟨false, none⟩, .batched shape run⟩, shape, run⟩

/-- two calls are refused while an earlier tick runs. -/
theorem divergence_is_contained_of_two_contexts :
    let b := (Batcher.new none echoes).run [.submit 7 .empty [] "ann", .beginTick,
      .submit 7 .empty [] "ann", .submit 7 .empty [] "bob"]
    let refused := b.beginTick.batcher
    b.beginTick.events = [.diverged 0 2] ∧ refused.inFlight = 1 ∧ refused.result? 0 = none ∧
      ∀ ns, (refused.run ns).result? 1 = some (.error (.contextDivergence echoes.name)) ∧
        (refused.run ns).result? 2 = some (.error (.contextDivergence echoes.name)) := by
  intro b refused
  obtain ⟨_, _, hdiverges⟩ := divergence_is_contained none echoes [.submit 7 .empty [] "ann",
    .beginTick, .submit 7 .empty [] "ann", .submit 7 .empty [] "bob"]
  have hann : ((⟨7, none, none, "ann"⟩, ⟨.empty, none, 1⟩) : Key Nat String × Pending) ∈
      b.pending.entries := List.mem_cons_self
  have hbob : ((⟨7, none, none, "bob"⟩, ⟨.empty, none, 2⟩) : Key Nat String × Pending) ∈
      b.pending.entries := List.mem_cons_of_mem _ List.mem_cons_self
  obtain ⟨hevents, _, hsettled, hothers, ⟨_, hinFlight, _⟩, _⟩ :=
    hdiverges ⟨_, hann, _, hbob, by decide⟩
  have hpending : b.pending.entries = [(⟨7, none, none, "ann"⟩, ⟨.empty, none, 1⟩),
      (⟨7, none, none, "bob"⟩, ⟨.empty, none, 2⟩)] := rfl
  refine ⟨hevents, hinFlight, hothers 0 ?_,
    fun ns => ⟨(hsettled _ hann).2 ns, (hsettled _ hbob).2 ns⟩⟩
  rw [hpending]
  simp

end Batcher
end Batchwise
