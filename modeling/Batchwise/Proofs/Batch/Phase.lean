import Batchwise.Proofs.Batch.Trace

/-!
# The phase follows the ticks

A batcher stores its phase beside the number of ticks in flight and the pending calls, and three
operations write it.  Here the three are tied together, and to the dispatches that a history has
under way, as their callers see it: begun, not returned, and not given up.

* `Batcher.underWay`     the dispatches that a history has under way, by the numbers of their ticks;
* `Batcher.ticksTaken`   the dispatches of a history that found something pending;
* `Batcher.Paced`        counters and phase belong together: `Paced.after` for one move;
* `Batcher.phase_follows_ticks`   every history.
-/

set_option linter.unusedSectionVars false

namespace Batchwise

variable {S C : Type} [DecidableEq S] [DecidableEq C]

namespace Batcher

/-! ### dispatches as their callers see them -/

/-- the dispatches that are under way after a move, of those before it. -/
def underWayAfter (b : Batcher S C) (numbers : List Nat) : Move S C → List Nat
  | .beginTick =>
    match b.beginTick.dispatch with
    | .running number => numbers ++ [number]
    | .ended _ => numbers
  | .poll isOpen number =>
    match (b.poll isOpen number).dispatch with
    | .running _ => numbers
    | .ended _ => numbers.filter fun n => n != number
  | .drop number => numbers.filter fun n => n != number
  | _ => numbers

/-- the dispatches under way after a history, of those before it. -/
def underWay : Batcher S C → List Nat → List (Move S C) → List Nat
  | _, numbers, [] => numbers
  | b, numbers, m :: ms => underWay (b.after m) (b.underWayAfter numbers m) ms

/-- whether a move is a dispatch that finds something pending. -/
def takesTick (b : Batcher S C) : Move S C → Bool
  | .beginTick => b.hasPending
  | _ => false

/-- the number of dispatches of a history that found something pending. -/
def ticksTaken : Batcher S C → List (Move S C) → Nat
  | _, [] => 0
  | b, m :: ms => (b.takesTick m).toNat + ticksTaken (b.after m) ms

/-! ### phases -/

theorem settledPhase_eq_dispatching {inFlight : Nat} {pending : Table (Key S C) Pending} :
    settledPhase inFlight pending = .dispatching ↔ 0 < inFlight := by
  unfold settledPhase
  split
  · simp [*]
  · split <;> simp [*]

theorem empty_of_settledPhase {inFlight : Nat} {pending : Table (Key S C) Pending}
    (h : settledPhase inFlight pending = .completed) : pending.entries = [] := by
  unfold settledPhase Table.isEmpty at h
  split at h
  · cases h
  · split at h
    · exact List.isEmpty_iff.mp ‹_›
    · cases h

theorem ne_nil_of_settledPhase {inFlight : Nat} {pending : Table (Key S C) Pending}
    (h : settledPhase inFlight pending = .collecting) : pending.entries ≠ [] := by
  unfold settledPhase Table.isEmpty at h
  intro hnil
  rw [hnil] at h
  split at h <;> cases h

/-! ### counters and phase -/

/-- counters and phase belong together: with the dispatches `numbers` under way, after `taken`
dispatches that found something pending. -/
structure Paced (b : Batcher S C) (numbers : List Nat) (taken : Nat) : Prop where
  running_eq : b.running.map Tick.number = numbers
  inFlight_eq : b.inFlight = numbers.length
  ticks_eq : b.ticks = taken
  dispatching : b.phase = .dispatching ↔ 0 < b.inFlight
  completed : b.phase = .completed → b.pending.entries = []
  collecting : b.phase = .collecting → b.pending.entries ≠ [] ∨ b.ticks = 0

theorem paced_new (maxConcurrentGroups : Option Nat) (service : Service S C) :
    (Batcher.new maxConcurrentGroups service).Paced [] 0 where
  running_eq := rfl
  inFlight_eq := rfl
  ticks_eq := rfl
  dispatching := ⟨fun h => (by cases h), fun h => absurd h (Nat.lt_irrefl 0)⟩
  completed := fun h => by cases h
  collecting := fun _ => Or.inr rfl

/-- a number that occurs leaves a list of distinct numbers one shorter. -/
theorem length_filter_bne {numbers : List Nat} {n : Nat} (hd : numbers.Nodup) (h : n ∈ numbers) :
    (numbers.filter fun m => m != n).length + 1 = numbers.length := by
  have hfilter : (numbers.filter fun m => m != n) = numbers.erase n :=
    (hd.erase_eq_filter n).symm
  rw [hfilter, List.length_erase_of_mem h]
  have hpos := List.length_pos_of_mem h
  omega

namespace Paced

variable {b : Batcher S C} {numbers : List Nat} {taken : Nat}

theorem mem_of_tick? (h : b.Paced numbers taken) {number : Nat} {t : Tick S C}
    (ht : b.tick? number = some t) : number ∈ numbers := by
  rw [← h.running_eq, ← number_of_tick? ht]
  exact List.mem_map_of_mem (Batcher.mem_of_tick? ht)

theorem tick?_of_mem (h : b.Paced numbers taken) {number : Nat} (hn : number ∈ numbers) :
    ∃ t, b.tick? number = some t := by
  rw [← h.running_eq] at hn
  obtain ⟨t, ht, hnumber⟩ := List.mem_map.mp hn
  refine Option.isSome_iff_exists.mp ?_
  unfold tick?
  rw [List.find?_isSome]
  exact ⟨t, ht, beq_iff_eq.mpr hnumber⟩

theorem submit (h : b.Paced numbers taken) (source : S) (args : Args) (subfields : List Field)
    (context : C) : (b.submit source args subfields context).batcher.Paced numbers taken := by
  obtain ⟨p, hp, _⟩ := find?_pending_submit b source args subfields context
  have hpending : (b.submit source args subfields context).batcher.pending.entries ≠ [] :=
    List.ne_nil_of_mem (Table.mem_entries_iff.mpr hp)
  have hphase : (b.submit source args subfields context).batcher.phase = b.phase.resumed ∧
      (b.submit source args subfields context).batcher.inFlight = b.inFlight ∧
      (b.submit source args subfields context).batcher.running = b.running ∧
      (b.submit source args subfields context).batcher.ticks = b.ticks := by
    cases hfind : b.pending.find? (b.keyOf source args subfields context) with
    | some p =>
      rw [submit_of_some hfind]
      exact ⟨rfl, rfl, rfl, rfl⟩
    | none =>
      rw [submit_of_none hfind]
      exact ⟨rfl, rfl, rfl, rfl⟩
  obtain ⟨hphase, hinFlight, hrunning, hticks⟩ := hphase
  refine ⟨hrunning ▸ h.running_eq, hinFlight ▸ h.inFlight_eq, hticks ▸ h.ticks_eq, ?_, ?_,
    fun _ => Or.inl hpending⟩
  · rw [hphase, hinFlight, ← h.dispatching]
    cases b.phase <;> simp [Phase.resumed]
  · rw [hphase]
    cases b.phase <;> simp [Phase.resumed]

/-- one more tick is in flight, or none when it was refused. -/
theorem beginTick (h : b.Paced numbers taken) :
    b.beginTick.batcher.Paced (b.underWayAfter numbers .beginTick)
      (taken + (b.takesTick .beginTick).toNat) := by
  dsimp only [underWayAfter, takesTick]
  by_cases hnil : b.pending.entries = []
  · have hpending : b.hasPending = false := by
      rw [← Bool.not_eq_true, hasPending_iff]
      exact fun hne => hne hnil
    rw [beginTick_of_nil hnil, hpending]
    exact h
  · have hpending : b.hasPending = true := hasPending_iff.mpr hnil
    rw [hpending]
    by_cases hsame : SameContext b.pending.entries
    · obtain ⟨e, he⟩ := List.exists_mem_of_ne_nil _ hnil
      rw [beginTick_of_same he hsame]
      refine ⟨?_, ?_, congrArg (fun n => n + 1) h.ticks_eq, ?_, ?_, ?_⟩
      · show (b.running ++ [b.formTick _ _]).map Tick.number = numbers ++ [b.ticks]
        rw [List.map_append, h.running_eq]
        rfl
      · show b.inFlight + 1 = (numbers ++ [b.ticks]).length
        rw [h.inFlight_eq, List.length_append]
        rfl
      · exact ⟨fun _ => Nat.succ_pos _, fun _ => rfl⟩
      · exact fun hphase => by cases hphase
      · exact fun hphase => by cases hphase
    · rw [beginTick_of_differ hsame]
      refine ⟨h.running_eq, h.inFlight_eq, congrArg (fun n => n + 1) h.ticks_eq,
        settledPhase_eq_dispatching, fun _ => rfl, fun hphase => ?_⟩
      exact absurd rfl (ne_nil_of_settledPhase hphase)

/-- a running tick ends: the tick leaves, and the counter was not 0. -/
theorem endTick (h : b.Paced numbers taken) (hb : b.Sound) {number : Nat} {t : Tick S C}
    (ht : b.tick? number = some t) (settled : List (Ticket × CallResult S)) :
    (((b.settle settled).removeTick number).endTick).Paced
        (numbers.filter fun n => n != number) taken ∧
      (((b.settle settled).removeTick number).endTick).inFlight + 1 = b.inFlight := by
  have hlength := length_filter_bne (h.running_eq ▸ hb.numbers) (h.mem_of_tick? ht)
  have hinFlight := h.inFlight_eq
  refine ⟨⟨?_, ?_, h.ticks_eq, settledPhase_eq_dispatching, empty_of_settledPhase,
    fun hphase => Or.inl (ne_nil_of_settledPhase hphase)⟩, ?_⟩
  · show (b.running.filter fun u => u.number != number).map Tick.number = _
    rw [← h.running_eq, List.filter_map]
    rfl
  · show b.inFlight - 1 = _
    omega
  · show b.inFlight - 1 + 1 = _
    omega

theorem poll (h : b.Paced numbers taken) (hb : b.Sound) (isOpen : Gate → Bool) (number : Nat) :
    (b.poll isOpen number).batcher.Paced (b.underWayAfter numbers (.poll isOpen number)) taken := by
  dsimp only [underWayAfter]
  cases ht : b.tick? number with
  | none =>
    rw [poll_of_none ht]
    exact h
  | some t =>
    cases hdone : (t.poll b.service isOpen).tick.isDone with
    | true =>
      rw [poll_of_done ht hdone]
      exact (h.endTick hb ht _).1
    | false =>
      rw [poll_of_open ht hdone]
      refine ⟨?_, h.inFlight_eq, h.ticks_eq, h.dispatching, h.completed, h.collecting⟩
      rw [← h.running_eq]
      show (b.running.map _).map Tick.number = _
      rw [List.map_map]
      refine List.map_congr_left fun u _ => ?_
      show (if u.number == _ then _ else u).number = u.number
      split
      · exact (eq_of_beq ‹_›).symm
      · rfl

theorem drop (h : b.Paced numbers taken) (hb : b.Sound) (number : Nat) :
    (b.drop number).Paced (b.underWayAfter numbers (.drop number)) taken := by
  show (b.drop number).Paced (numbers.filter fun n => n != number) taken
  cases ht : b.tick? number with
  | none =>
    have hnot : number ∉ numbers := fun hn => by
      obtain ⟨t, ht'⟩ := h.tick?_of_mem hn
      rw [ht] at ht'
      cases ht'
    have hkeep : (numbers.filter fun n => n != number) = numbers :=
      List.filter_eq_self.mpr fun n hn => bne_iff_ne.mpr fun heq => hnot (heq ▸ hn)
    rw [drop_of_none ht, hkeep]
    exact h
  | some t =>
    rw [drop_of_some ht]
    exact (h.endTick hb ht _).1

/-- **One move keeps counters and phase together.** -/
theorem after (h : b.Paced numbers taken) (hb : b.Sound) (m : Move S C) :
    (b.after m).Paced (b.underWayAfter numbers m) (taken + (b.takesTick m).toNat) := by
  cases m with
  | submit source args subfields context => exact h.submit source args subfields context
  | beginTick => exact h.beginTick
  | wake isOpen =>
    refine ⟨?_, h.inFlight_eq, h.ticks_eq, h.dispatching, h.completed, h.collecting⟩
    show (b.running.map (Tick.wake isOpen)).map Tick.number = numbers
    rw [List.map_map]
    exact h.running_eq
  | poll isOpen number => exact h.poll hb isOpen number
  | drop number => exact h.drop hb number
  | answer run =>
    exact ⟨h.running_eq, h.inFlight_eq, h.ticks_eq, h.dispatching, h.completed, h.collecting⟩

/-- **Every history keeps counters and phase together.** -/
theorem run (h : b.Paced numbers taken) (hb : b.Sound) (ms : List (Move S C)) :
    (b.run ms).Paced (b.underWay numbers ms) (taken + b.ticksTaken ms) := by
  induction ms generalizing b numbers taken with
  | nil => exact h
  | cons m ms ih =>
    have hrest := ih (h.after hb m) (hb.after m)
    rw [Nat.add_assoc] at hrest
    exact hrest

end Paced

/-- **The phase follows the ticks.**  After any history:
* the number of ticks in flight is the number of dispatches under way, and it is counted down by
  one, and not below 0, whenever one of them returns or is given up;
* the batcher is dispatching just when a tick is in flight;
* it has completed only when nothing is pending and no tick is in flight;
* it collects only when something is pending or no tick was taken yet;
* the ticks are the dispatches that found something pending;
* a dispatch that finds nothing pending changes nothing. -/
theorem phase_follows_ticks (maxConcurrentGroups : Option Nat) (service : Service S C)
    (ms : List (Move S C)) :
    let start := Batcher.new maxConcurrentGroups service
    let b := start.run ms
    b.inFlight = (start.underWay [] ms).length ∧
    (∀ isOpen number result, (b.poll isOpen number).dispatch = .ended result →
      number ∈ start.underWay [] ms ∧
        (b.poll isOpen number).batcher.inFlight + 1 = b.inFlight) ∧
    (∀ number ∈ start.underWay [] ms, (b.drop number).inFlight + 1 = b.inFlight) ∧
    (b.phase = .dispatching ↔ 0 < b.inFlight) ∧
    (b.phase = .completed → b.pending.entries = [] ∧ b.inFlight = 0) ∧
    (b.phase = .collecting → b.pending.entries ≠ [] ∨ start.ticksTaken ms = 0) ∧
    b.ticks = start.ticksTaken ms ∧
    (b.pending.entries = [] →
      b.beginTick.batcher = b ∧ b.beginTick.dispatch = .ended (.ok ⟨b.id, 0, 0, 0⟩)) := by
  intro start b
  have hsound : b.Sound := sound_run (sound_new maxConcurrentGroups service) ms
  have hpaced : b.Paced (start.underWay [] ms) (start.ticksTaken ms) := by
    have h := (paced_new maxConcurrentGroups service).run (sound_new _ _) ms
    rwa [Nat.zero_add] at h
  refine ⟨hpaced.inFlight_eq, fun isOpen number result hended => ?_, fun number hn => ?_,
    hpaced.dispatching, fun hphase => ⟨hpaced.completed hphase, ?_⟩, fun hphase => ?_,
    hpaced.ticks_eq, fun hnil => ?_⟩
  · cases ht : b.tick? number with
    | none =>
      rw [poll_of_none ht] at hended
      cases hended
    | some t =>
      refine ⟨hpaced.mem_of_tick? ht, ?_⟩
      cases hdone : (t.poll b.service isOpen).tick.isDone with
      | true =>
        rw [poll_of_done ht hdone]
        exact (hpaced.endTick hsound ht _).2
      | false =>
        rw [poll_of_open ht hdone] at hended
        cases hended
  · obtain ⟨t, ht⟩ := hpaced.tick?_of_mem hn
    rw [drop_of_some ht]
    exact (hpaced.endTick hsound ht _).2
  · have hnot : ¬ 0 < b.inFlight := fun hpos => by
      rw [hpaced.dispatching.mpr hpos] at hphase
      cases hphase
    omega
  · rw [← hpaced.ticks_eq]
    exact hpaced.collecting hphase
  · rw [beginTick_of_nil hnil]
    exact ⟨rfl, rfl⟩

/-- of two ticks that overlap the first returns: the second is in flight until it is given up. -/
theorem phase_follows_ticks_of_overlap :
    let b := (Batcher.new none halves).run [.submit 4 .empty [] (), .beginTick,
      .submit 3 .empty [] (), .beginTick, .poll (fun _ => true) 0]
    b.inFlight = 1 ∧ b.phase = .dispatching ∧ (b.drop 1).inFlight + 1 = b.inFlight := by
  intro b
  obtain ⟨hinFlight, _, hdrop, hdispatching, _⟩ := phase_follows_ticks none halves
    [.submit 4 .empty [] (), .beginTick, .submit 3 .empty [] (), .beginTick,
      .poll (fun _ => true) 0]
  have hunder : (Batcher.new none halves).underWay [] [.submit 4 .empty [] (), .beginTick,
      .submit 3 .empty [] (), .beginTick, .poll (fun _ => true) 0] = [1] := rfl
  rw [hunder] at hinFlight hdrop
  have hone : b.inFlight = 1 := hinFlight
  exact ⟨hone, hdispatching.mpr (hone ▸ Nat.one_pos), hdrop 1 (List.mem_singleton_self 1)⟩

end Batcher
end Batchwise
