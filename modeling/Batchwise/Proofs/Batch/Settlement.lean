import Batchwise.Proofs.Batch.Invariant

/-!
# Every ticket is settled by its own group

A ticket is followed through a history: pending under its key until a tick takes it, then a member
of one group of that tick, then settled with what the call of that group came back with.

* `Batcher.find?_pending_run`   a pending call stays what it is until a tick is begun;
* `Batcher.CallMade`            at some point of a history the call of a group was made, and the
                                function in force at that point answered it so;
* `Batcher.followed_run`        the groups of a tick: each is open, or its call was made and its
                                members have been handed their results;
* `Batcher.ticket_settled_by_own_group`   the whole life of a ticket.
-/

set_option linter.unusedSectionVars false

namespace Batchwise

variable {S C : Type} [DecidableEq S] [DecidableEq C]

namespace Batcher

/-! ### what never changes -/

/-- the binding and the shape of the function stay, and ticks are only counted up. -/
structure Carried (b b' : Batcher S C) : Prop where
  binding : b'.service.binding = b.service.binding
  shape : b'.service.shape = b.service.shape
  ticks_le : b.ticks ≤ b'.ticks

/-- unless the function changes its mind, a move leaves it alone, and counts no tick down. -/
theorem steady_after (b : Batcher S C) {m : Move S C} (hm : ∀ run, m ≠ .answer run) :
    (b.after m).service = b.service ∧ b.ticks ≤ (b.after m).ticks ∧
      (b.after m).maxConcurrentGroups = b.maxConcurrentGroups := by
  cases m with
  | submit source args subfields context =>
    rw [after_submit]
    obtain ⟨_, ⟨_, _, _, hb⟩ | ⟨_, _, hb⟩⟩ := submit_cases b source args subfields context
    · rw [hb]
      exact ⟨rfl, Nat.le_refl _, rfl⟩
    · rw [hb]
      exact ⟨rfl, Nat.le_refl _, rfl⟩
  | beginTick =>
    rw [after_beginTick]
    rcases beginTick_cases b with ⟨_, hb⟩ | ⟨_, _, _, _, hb⟩ | ⟨_, _, hb⟩
    · rw [hb]
      exact ⟨rfl, Nat.le_refl _, rfl⟩
    · rw [hb]
      exact ⟨rfl, Nat.le_succ _, rfl⟩
    · rw [hb]
      exact ⟨rfl, Nat.le_succ _, rfl⟩
  | wake isOpen => exact ⟨rfl, Nat.le_refl _, rfl⟩
  | poll isOpen number =>
    rw [after_poll]
    rcases poll_cases b isOpen number with ⟨_, hb, _⟩ | ⟨_, _, _, ⟨_, _, hb⟩ | ⟨_, _, hb⟩⟩
    · rw [hb]
      exact ⟨rfl, Nat.le_refl _, rfl⟩
    · rw [hb]
      exact ⟨rfl, Nat.le_refl _, rfl⟩
    · rw [hb]
      exact ⟨rfl, Nat.le_refl _, rfl⟩
  | drop number =>
    rw [after_drop]
    cases ht : b.tick? number with
    | none =>
      rw [drop_of_none ht]
      exact ⟨rfl, Nat.le_refl _, rfl⟩
    | some t =>
      rw [drop_of_some ht]
      exact ⟨rfl, Nat.le_refl _, rfl⟩
  | answer run => exact absurd rfl (hm run)

theorem service_after (b : Batcher S C) {m : Move S C} (hm : ∀ run, m ≠ .answer run) :
    (b.after m).service = b.service := (steady_after b hm).1

theorem service_run (b : Batcher S C) {ms : List (Move S C)}
    (hms : ∀ m ∈ ms, ∀ run, m ≠ .answer run) : (b.run ms).service = b.service := by
  induction ms generalizing b with
  | nil => rfl
  | cons m ms ih =>
    have hrest := ih (b.after m) fun n hn => hms n (List.mem_cons_of_mem m hn)
    exact hrest.trans (service_after b (hms m List.mem_cons_self))

theorem carried_after (b : Batcher S C) (m : Move S C) : Carried b (b.after m) := by
  by_cases hm : ∃ run, m = .answer run
  · obtain ⟨run, rfl⟩ := hm
    exact ⟨rfl, rfl, Nat.le_refl _⟩
  · obtain ⟨hservice, hticks, _⟩ := steady_after b fun run h => hm ⟨run, h⟩
    exact ⟨congrArg Service.binding hservice, congrArg Service.shape hservice, hticks⟩

theorem carried_run (b : Batcher S C) (ms : List (Move S C)) : Carried b (b.run ms) := by
  induction ms generalizing b with
  | nil => exact ⟨rfl, rfl, Nat.le_refl _⟩
  | cons m ms ih =>
    have h := carried_after b m
    have hs := ih (b.after m)
    exact ⟨hs.binding.trans h.binding, hs.shape.trans h.shape, Nat.le_trans h.ticks_le hs.ticks_le⟩

theorem maxConcurrentGroups_after (b : Batcher S C) (m : Move S C) :
    (b.after m).maxConcurrentGroups = b.maxConcurrentGroups := by
  by_cases hm : ∃ run, m = .answer run
  · obtain ⟨run, rfl⟩ := hm
    rfl
  · exact (steady_after b fun run h => hm ⟨run, h⟩).2.2

theorem maxConcurrentGroups_run (b : Batcher S C) (ms : List (Move S C)) :
    (b.run ms).maxConcurrentGroups = b.maxConcurrentGroups := by
  induction ms generalizing b with
  | nil => rfl
  | cons m ms ih => exact (ih (b.after m)).trans (maxConcurrentGroups_after b m)

theorem handed_run (b : Batcher S C) (ms : List (Move S C)) :
    (b.run ms).service.handed = b.service.handed := by
  funext outcome source
  cases outcome with
  | ok answers => rfl
  | error failure =>
    show (.error (.resolverFailed (b.run ms).service.binding.name failure) : CallResult S) = _
    rw [(carried_run b ms).binding]
    rfl

/-! ### pending calls -/

theorem find?_pending_submit (b : Batcher S C) (source : S) (args : Args) (subfields : List Field)
    (context : C) :
    ∃ p, (b.submit source args subfields context).batcher.pending.find?
        (b.keyOf source args subfields context) = some p ∧
      p.ticket = (b.submit source args subfields context).ticket := by
  obtain ⟨_, ⟨p, hp, ht, hb⟩ | ⟨_, ht, hb⟩⟩ := submit_cases b source args subfields context
  · exact ⟨p, hb ▸ hp, ht.symm⟩
  · refine ⟨⟨args, b.service.binding.selectionOf subfields, b.results.size⟩, ?_, ht.symm⟩
    rw [hb]
    exact (Table.find?_put b.pending _ _ _).trans (if_pos rfl)

theorem find?_pending_after {b : Batcher S C} {m : Move S C} (hm : m ≠ .beginTick) {k : Key S C}
    {p : Pending} (hp : b.pending.find? k = some p) : (b.after m).pending.find? k = some p := by
  cases m with
  | submit source args subfields context =>
    show (b.submit source args subfields context).batcher.pending.find? k = some p
    obtain ⟨_, ⟨_, _, _, hb⟩ | ⟨hnone, _, hb⟩⟩ := submit_cases b source args subfields context
    · rw [hb]
      exact hp
    · rw [hb]
      have hne : b.keyOf source args subfields context ≠ k := fun h => by
        rw [h, hp] at hnone
        cases hnone
      exact (Table.find?_put b.pending _ _ _).trans ((if_neg hne).trans hp)
  | beginTick => exact absurd rfl hm
  | wake isOpen => exact hp
  | poll isOpen number =>
    show (b.poll isOpen number).batcher.pending.find? k = some p
    rcases poll_cases b isOpen number with ⟨_, hb, _⟩ | ⟨_, _, _, ⟨_, _, hb⟩ | ⟨_, _, hb⟩⟩
    · rw [hb]
      exact hp
    · rw [hb]
      exact hp
    · rw [hb]
      exact hp
  | drop number =>
    show (b.drop number).pending.find? k = some p
    cases ht : b.tick? number with
    | none => rw [drop_of_none ht]; exact hp
    | some t => rw [drop_of_some ht]; exact hp
  | answer run => exact hp

/-- a pending call stays what it is until a tick is begun. -/
theorem find?_pending_run {b : Batcher S C} {ms : List (Move S C)} (hms : .beginTick ∉ ms)
    {k : Key S C} {p : Pending} (hp : b.pending.find? k = some p) :
    (b.run ms).pending.find? k = some p := by
  induction ms generalizing b with
  | nil => exact hp
  | cons m ms ih =>
    rw [List.mem_cons, not_or] at hms
    exact ih hms.2 (find?_pending_after (fun h => hms.1 h.symm) hp)

theorem ticket_mem_openTickets {b : Batcher S C} {k : Key S C} {p : Pending}
    (hp : b.pending.find? k = some p) : p.ticket ∈ b.openTickets := by
  have hmem := Table.mem_entries_iff.mpr hp
  have hvalue : p ∈ b.pending.values := List.mem_map.mpr ⟨(k, p), hmem, rfl⟩
  exact List.mem_append_left _ (List.mem_map_of_mem hvalue)

theorem result?_of_pending {b : Batcher S C} (h : b.Sound) {k : Key S C} {p : Pending}
    (hp : b.pending.find? k = some p) : b.result? p.ticket = none :=
  result?_of_none (h.unsettled _ (ticket_mem_openTickets hp))

/-! ### one tick in a history -/

theorem tick?_removeTick {b : Batcher S C} {number n : Nat} :
    (b.removeTick number).tick? n = if n = number then none else b.tick? n := by
  show (b.running.filter _).find? _ = _
  by_cases h : n = number
  · rw [if_pos h, List.find?_eq_none]
    intro t ht
    obtain ⟨_, hne⟩ := List.mem_filter.mp ht
    rw [h]
    simpa using hne
  · rw [if_neg h, List.find?_filter]
    refine congrArg (fun p => b.running.find? p) (funext fun t => ?_)
    by_cases ht : t.number = n
    · simp [ht, h]
    · simp [ht]

theorem tick?_replaceTick (b : Batcher S C) (t : Tick S C) (n : Nat) :
    (b.replaceTick t).tick? n = if n = t.number then (b.tick? n).map fun _ => t else b.tick? n :=
  find?_map_replace Tick.number t b.running n

/-- the tick of a number is left alone by every move but two. -/
theorem tick?_after {b : Batcher S C} {number : Nat} (hlt : number < b.ticks) {m : Move S C}
    (hpoll : ∀ isOpen, m ≠ .poll isOpen number) (hdrop : m ≠ .drop number) :
    (b.after m).tick? number = b.tick? number ∨
      ∃ isOpen, (b.after m).tick? number = (b.tick? number).map (Tick.wake isOpen) := by
  cases m with
  | submit source args subfields context =>
    left
    show (b.submit source args subfields context).batcher.tick? number = _
    obtain ⟨_, ⟨_, _, _, hb⟩ | ⟨_, _, hb⟩⟩ := submit_cases b source args subfields context
    · exact congrArg (fun b => b.tick? number) hb
    · exact congrArg (fun b => b.tick? number) hb
  | beginTick =>
    left
    show b.beginTick.batcher.tick? number = _
    rcases beginTick_cases b with ⟨_, hb⟩ | ⟨_, _, e, _, hb⟩ | ⟨_, _, hb⟩
    · rw [hb]
    · rw [hb]
      show (b.running ++ [b.formTick _ _]).find? _ = b.running.find? _
      rw [List.find?_append]
      have hnew : [b.formTick e.1.context b.pending.entries].find? (fun t => t.number == number)
          = none := by
        rw [List.find?_eq_none]
        intro t ht
        rw [List.mem_singleton.mp ht]
        show ¬ (b.ticks == number) = true
        rw [beq_iff_eq]
        omega
      rw [hnew, Option.or_none]
    · exact congrArg (fun b => b.tick? number) hb
  | wake isOpen =>
    refine Or.inr ⟨isOpen, ?_⟩
    show (b.running.map _).find? _ = (b.running.find? _).map _
    rw [List.find?_map]
    rfl
  | poll isOpen n =>
    left
    have hne : number ≠ n := fun h => hpoll isOpen (h ▸ rfl)
    show (b.poll isOpen n).batcher.tick? number = _
    rcases poll_cases b isOpen n with ⟨_, hb, _⟩ | ⟨t, ht, _, ⟨_, _, hb⟩ | ⟨_, _, hb⟩⟩
    · rw [hb]
    · rw [hb]
      exact tick?_removeTick.trans (if_neg hne)
    · rw [hb]
      have hnumber : number ≠ t.number := by
        rw [number_of_tick? ht]
        exact hne
      exact (tick?_replaceTick _ _ number).trans (if_neg hnumber)
  | drop n =>
    left
    have hne : number ≠ n := fun h => hdrop (h ▸ rfl)
    show (b.drop n).tick? number = _
    cases ht : b.tick? n with
    | none => rw [drop_of_none ht]
    | some t =>
      rw [drop_of_some ht]
      exact tick?_removeTick.trans (if_neg hne)
  | answer run => exact Or.inl rfl

theorem tick?_poll {b : Batcher S C} (isOpen : Gate → Bool) {number : Nat} {t : Tick S C}
    (ht : b.tick? number = some t) :
    (b.poll isOpen number).batcher.tick? number =
      if (t.poll b.service isOpen).tick.isDone then none
      else some (t.poll b.service isOpen).tick := by
  cases hdone : (t.poll b.service isOpen).tick.isDone with
  | true =>
    rw [poll_of_done ht hdone, if_pos rfl]
    exact tick?_removeTick.trans (if_pos rfl)
  | false =>
    rw [poll_of_open ht hdone, if_neg Bool.false_ne_true]
    have hnumber : number = t.number := (number_of_tick? ht).symm
    have hold : (b.settle (t.poll b.service isOpen).settled).tick? number = some t := ht
    refine (tick?_replaceTick _ _ number).trans ((if_pos hnumber).trans ?_)
    rw [hold]
    rfl

/-- the number of a running tick is given to no later one. -/
theorem number_lt_run {b : Batcher S C} (hb : b.Sound) {number : Nat} {t : Tick S C}
    (ht : b.tick? number = some t) (ms : List (Move S C)) : number < (b.run ms).ticks := by
  have hlt := hb.numbers_lt t (mem_of_tick? ht)
  rw [number_of_tick? ht] at hlt
  exact Nat.lt_of_lt_of_le hlt (carried_run b ms).ticks_le

/-! ### following the groups of a tick -/

/-- the groups of a running tick whose members have no result yet. -/
def openGroups (b : Batcher S C) (number : Nat) : List (Group S C) :=
  ((b.tick? number).map Tick.openGroups).getD []

theorem openGroups_of_some {b : Batcher S C} {number : Nat} {t : Tick S C}
    (h : b.tick? number = some t) : b.openGroups number = t.openGroups := by
  unfold openGroups
  rw [h]
  rfl

theorem openGroups_of_none {b : Batcher S C} {number : Nat} (h : b.tick? number = none) :
    b.openGroups number = [] := by
  unfold openGroups
  rw [h]
  rfl

/-- in the course of a history the call of a group was made by a look at its tick, and the function
in force at that moment answers it so. -/
def CallMade (b : Batcher S C) (ms : List (Move S C)) (number : Nat) (context : C)
    (a : Answered S C) : Prop :=
  ∃ before isOpen later, ms = before ++ .poll isOpen number :: later ∧
    a.1.call (b.run before).service context ∈
      madeCalls ((b.run before).poll isOpen number).events ∧
    a = (b.run before).service.answered context a.1

theorem CallMade.append {b : Batcher S C} {ms : List (Move S C)} {number : Nat} {context : C}
    {a : Answered S C} (h : CallMade b ms number context a) (ns : List (Move S C)) :
    CallMade b (ms ++ ns) number context a := by
  obtain ⟨before, isOpen, later, hms, hcall, ha⟩ := h
  refine ⟨before, isOpen, later ++ ns, ?_, hcall, ha⟩
  rw [hms, List.append_assoc, List.cons_append]

/-- how far the groups of a tick are: each is open, or its call was made and its members have been
handed what it came back with. -/
structure Followed (b : Batcher S C) (ms : List (Move S C)) (number : Nat) (context : C)
    (groups : List (Group S C)) (ended : List (Answered S C)) : Prop where
  groups_perm : (ended.map Prod.fst ++ (b.run ms).openGroups number).Perm groups
  made : ∀ a ∈ ended, CallMade b ms number context a
  handed : ∀ a ∈ ended, ∀ m ∈ a.1.members,
    (b.run ms).result? m.2 = some (b.service.handed a.2 m.1.source)
  running : ∀ t, (b.run ms).tick? number = some t → t.context = context ∧
    ∀ r ∈ t.running, CallMade b ms number context r.answered

theorem run_concat (b : Batcher S C) (ms : List (Move S C)) (m : Move S C) :
    b.run (ms ++ [m]) = (b.run ms).after m :=
  run_append b ms [m]

namespace Followed

variable {b : Batcher S C} {ms : List (Move S C)} {number : Nat} {context : C}
  {groups : List (Group S C)} {ended : List (Answered S C)}

theorem idle (h : Followed b ms number context groups ended) (hb : b.Sound) {m : Move S C}
    (hm : ((b.run ms).after m).tick? number = (b.run ms).tick? number ∨
      ∃ isOpen, ((b.run ms).after m).tick? number
        = ((b.run ms).tick? number).map (Tick.wake isOpen)) :
    Followed b (ms ++ [m]) number context groups ended := by
  have hopen : (((b.run ms).after m).openGroups number).Perm ((b.run ms).openGroups number) := by
    unfold openGroups
    rcases hm with hm | ⟨isOpen, hm⟩
    · rw [hm]
    · rw [hm]
      cases (b.run ms).tick? number with
      | none => exact List.Perm.refl []
      | some t => exact Tick.perm_openGroups_wake isOpen t
  refine ⟨?_, fun a ha => (h.made a ha).append [m], fun a ha k hk => ?_, fun t ht => ?_⟩
  · rw [run_concat]
    exact (hopen.append_left _).trans h.groups_perm
  · rw [run_concat]
    exact result?_after (sound_run hb ms) m (h.handed a ha k hk)
  · rw [run_concat] at ht
    rcases hm with hm | ⟨isOpen, hm⟩
    · rw [hm] at ht
      obtain ⟨hcontext, hrunning⟩ := h.running t ht
      exact ⟨hcontext, fun r hr => (hrunning r hr).append [m]⟩
    · rw [hm, Option.map_eq_some_iff] at ht
      obtain ⟨u, hu, rfl⟩ := ht
      obtain ⟨hcontext, hrunning⟩ := h.running u hu
      exact ⟨hcontext, fun r hr =>
        (hrunning r ((Tick.running_wake isOpen u).subset hr)).append [m]⟩

theorem poll (h : Followed b ms number context groups ended) (hb : b.Sound)
    (isOpen : Gate → Bool) :
    ∃ ended', Followed b (ms ++ [.poll isOpen number]) number context groups ended' := by
  have hsound := sound_run hb ms
  rcases poll_cases (b.run ms) isOpen number with ⟨_, hb', _⟩ | ⟨t, ht, hevents, _⟩
  · refine ⟨ended, h.idle hb (Or.inl ?_)⟩
    rw [after_poll, hb']
  · obtain ⟨hcontext, hrunning⟩ := h.running t ht
    obtain ⟨started, new, hqueued, hperm, hsettled, hcalls, _⟩ :=
      Tick.poll_accounts (b.run ms).service isOpen t
    have hgroups := Tick.perm_openGroups_of_accounts hqueued hperm
    -- every group that runs or is done after the look was called by now
    have hmade : ∀ a, a ∈ new ∨ a ∈ (t.poll (b.run ms).service isOpen).tick.running.map
        Running.answered → CallMade b (ms ++ [.poll isOpen number]) number context a := by
      intro a ha
      have ha' := hperm.subset (List.mem_append.mpr ha)
      rcases List.mem_append.mp ha' with ha' | ha'
      · obtain ⟨r, hr, rfl⟩ := List.mem_map.mp ha'
        exact (hrunning r hr).append _
      · obtain ⟨g, hg, rfl⟩ := List.mem_map.mp ha'
        rw [hcontext] at hcalls ⊢
        refine ⟨ms, isOpen, [], rfl, ?_, rfl⟩
        rw [hevents, hcalls]
        exact List.mem_map_of_mem hg
    have hadvance := advance_poll hsound.numbers isOpen ht
    have htick := tick?_poll isOpen ht
    have hopen : ((b.run ms).poll isOpen number).batcher.openGroups number
        = (t.poll (b.run ms).service isOpen).tick.openGroups := by
      cases hdone : (t.poll (b.run ms).service isOpen).tick.isDone with
      | true =>
        rw [hdone, if_pos rfl] at htick
        rw [openGroups_of_none htick, Tick.openGroups_of_isDone hdone]
      | false =>
        rw [hdone, if_neg Bool.false_ne_true] at htick
        exact openGroups_of_some htick
    refine ⟨ended ++ new, ?_, ?_, ?_, ?_⟩
    · rw [run_concat, after_poll, hopen, List.map_append, List.append_assoc]
      refine (hgroups.append_left _).trans ?_
      rw [← openGroups_of_some ht]
      exact h.groups_perm
    · intro a ha
      rcases List.mem_append.mp ha with ha | ha
      · exact (h.made a ha).append _
      · exact hmade a (Or.inl ha)
    · intro a ha k hk
      rw [run_concat]
      rcases List.mem_append.mp ha with ha | ha
      · exact result?_after hsound _ (h.handed a ha k hk)
      · have hmem : a.1 ∈ t.openGroups :=
          hgroups.subset (List.mem_append_left _ (List.mem_map_of_mem ha))
        have haligned := (hsound.fit t (mem_of_tick? ht)).aligned a.1 hmem
        refine hadvance.reads hsound.toConsistent ?_
        rw [hsettled]
        refine List.mem_flatMap.mpr ⟨a, ha, ?_⟩
        show _ ∈ (a.1.finish _ a.2).settled
        rw [Group.settled_finish _ haligned, handed_run]
        exact List.mem_map.mpr ⟨k, hk, rfl⟩
    · intro u hu
      rw [run_concat, after_poll] at hu
      rw [htick] at hu
      split at hu
      · cases hu
      · cases hu
        exact ⟨hcontext, fun r hr => hmade _ (Or.inr (List.mem_map_of_mem hr))⟩

end Followed

/-- **The groups of a tick.**  Unless the tick is given up, each of its groups is open, or its call
was made and its members have been handed what it came back with. -/
theorem followed_run {b : Batcher S C} (hb : b.Sound) {number : Nat} {t : Tick S C}
    (ht : b.tick? number = some t) (hidle : t.running = []) (ms : List (Move S C))
    (hms : .drop number ∉ ms) : ∃ ended, Followed b ms number t.context t.queued ended := by
  induction ms using List.reverseRecOn with
  | nil =>
    refine ⟨[], ?_, fun _ ha => (by cases ha), fun _ ha => (by cases ha), fun u hu => ?_⟩
    · rw [run_nil, openGroups_of_some ht]
      unfold Tick.openGroups
      rw [hidle]
      exact List.Perm.refl _
    · rw [run_nil, ht] at hu
      cases hu
      rw [hidle]
      exact ⟨rfl, fun r hr => by cases hr⟩
  | append_singleton ms m ih =>
    rw [List.mem_append, List.mem_singleton, not_or] at hms
    obtain ⟨ended, h⟩ := ih hms.1
    by_cases hpoll : ∃ isOpen, m = .poll isOpen number
    · obtain ⟨isOpen, rfl⟩ := hpoll
      exact h.poll hb isOpen
    · refine ⟨ended, h.idle hb (tick?_after (number_lt_run hb ht ms) ?_ ?_)⟩
      · exact fun isOpen h => hpoll ⟨isOpen, h⟩
      · exact fun h => hms.2 h.symm

/-- a group of the tick: as long as it is open none of its members has a result, and all of them
have been handed what one call came back with when it is not. -/
theorem Followed.group_cases {b : Batcher S C} {ms : List (Move S C)} {number : Nat} {context : C}
    {groups : List (Group S C)} {ended : List (Answered S C)}
    (h : Followed b ms number context groups ended) (hb : b.Sound) {g : Group S C}
    (hg : g ∈ groups) :
    (g ∈ (b.run ms).openGroups number ∧ ∀ m ∈ g.members, (b.run ms).result? m.2 = none) ∨
      ∃ outcome, CallMade b ms number context (g, outcome) ∧
        ∀ m ∈ g.members, (b.run ms).result? m.2 = some (b.service.handed outcome m.1.source) := by
  rcases List.mem_append.mp (h.groups_perm.symm.subset hg) with hg | hg
  · obtain ⟨a, ha, rfl⟩ := List.mem_map.mp hg
    exact Or.inr ⟨a.2, h.made a ha, h.handed a ha⟩
  · refine Or.inl ⟨hg, fun m hm => ?_⟩
    cases ht : (b.run ms).tick? number with
    | none =>
      rw [openGroups_of_none ht] at hg
      cases hg
    | some t =>
      rw [openGroups_of_some ht] at hg
      refine result?_of_none ((sound_run hb ms).unsettled _ ?_)
      refine List.mem_append_right _ (List.mem_flatMap.mpr ⟨t, mem_of_tick? ht, ?_⟩)
      rw [Tick.unsettled_eq]
      exact List.mem_flatMap.mpr ⟨g, hg, List.mem_map_of_mem hm⟩

/-- a member of a group of the tick: as long as its group is open it has no result. -/
theorem Followed.cases {b : Batcher S C} {ms : List (Move S C)} {number : Nat} {context : C}
    {groups : List (Group S C)} {ended : List (Answered S C)}
    (h : Followed b ms number context groups ended) (hb : b.Sound) {g : Group S C}
    (hg : g ∈ groups) {m : Key S C × Ticket} (hm : m ∈ g.members) :
    (g ∈ (b.run ms).openGroups number ∧ (b.run ms).result? m.2 = none) ∨
      ∃ outcome, CallMade b ms number context (g, outcome) ∧
        (b.run ms).result? m.2 = some (b.service.handed outcome m.1.source) := by
  rcases h.group_cases hb hg with ⟨hopen, hnone⟩ | ⟨outcome, hmade, hhanded⟩
  · exact Or.inl ⟨hopen, hnone m hm⟩
  · exact Or.inr ⟨outcome, hmade, hhanded m hm⟩

/-! ### beginning a tick -/

theorem tick?_beginTick {b : Batcher S C} (hb : b.Sound) {e : Key S C × Pending}
    (he : e ∈ b.pending.entries) (hsame : SameContext b.pending.entries) :
    b.beginTick.dispatch = .running b.ticks ∧
      b.beginTick.batcher.tick? b.ticks = some (b.formTick e.1.context b.pending.entries) := by
  rcases beginTick_cases b with ⟨hnil, _⟩ | ⟨_, hdispatch, f, hf, hb'⟩ | ⟨hdiff, _⟩
  · rw [hnil] at he
    cases he
  · refine ⟨hdispatch, ?_⟩
    rw [hb', hsame e he f hf]
    show (b.running ++ [b.formTick _ _]).find? _ = _
    have hold : b.running.find? (fun t => t.number == b.ticks) = none := by
      rw [List.find?_eq_none]
      intro t ht
      have hlt := hb.numbers_lt t ht
      rw [beq_iff_eq]
      omega
    rw [List.find?_append, hold, Option.none_or]
    exact List.find?_cons_of_pos (beq_self_eq_true b.ticks)
  · exact absurd hsame hdiff

theorem result?_refused {b : Batcher S C} (hb : b.Sound) {e : Key S C × Pending}
    (he : e ∈ b.pending.entries) :
    b.refused.result? e.2.ticket = some (.error (.contextDivergence b.service.name)) := by
  refine (advance_refused b).reads hb.toConsistent ?_
  have hvalue : e.2 ∈ b.pending.values := List.mem_map_of_mem he
  exact List.mem_map_of_mem (List.mem_map_of_mem hvalue)

theorem tick?_of_ended {b : Batcher S C} {isOpen : Gate → Bool} {number : Nat}
    {result : Except DispatchError Summary}
    (h : (b.poll isOpen number).dispatch = .ended result) :
    (b.poll isOpen number).batcher.tick? number = none := by
  cases ht : b.tick? number with
  | none =>
    rw [poll_of_none ht] at h
    cases h
  | some t =>
    cases hdone : (t.poll b.service isOpen).tick.isDone with
    | true => exact (tick?_poll isOpen ht).trans (if_pos hdone)
    | false =>
      rw [poll_of_open ht hdone] at h
      cases h

theorem ended_of_allOpen {b : Batcher S C} (hb : b.Sound) {number : Nat} {t : Tick S C}
    (ht : b.tick? number = some t) :
    ∃ summary, (b.poll (fun _ => true) number).dispatch = .ended (.ok summary) := by
  have hdone := Tick.isDone_poll b.service t (hb.fit t (mem_of_tick? ht)).limit_pos
  rw [poll_of_done ht hdone]
  exact ⟨_, rfl⟩

/-! ### the life of a ticket -/

theorem open_of_submit {b : Batcher S C} (hb : b.Sound) (source : S) (args : Args)
    (subfields : List Field) (context : C) {ns : List (Move S C)} (hns : .beginTick ∉ ns) :
    let s := b.submit source args subfields context
    (∃ p, (s.batcher.run ns).pending.find? (b.keyOf source args subfields context) = some p ∧
      p.ticket = s.ticket) ∧
    (s.batcher.run ns).result? s.ticket = none := by
  obtain ⟨p, hp, hticket⟩ := find?_pending_submit b source args subfields context
  have hpending := find?_pending_run hns hp
  refine ⟨⟨p, hpending, hticket⟩, ?_⟩
  rw [← hticket]
  exact result?_of_pending (sound_run (hb.submit source args subfields context) ns) hpending

theorem refused_of_contexts {b : Batcher S C} (hb : b.Sound) {e : Key S C × Pending}
    (he : e ∈ b.pending.entries) (hdiff : ¬ SameContext b.pending.entries) :
    b.beginTick.dispatch = .ended (.error (.contextDivergence b.service.name)) ∧
      ∀ ns, (b.beginTick.batcher.run ns).result? e.2.ticket
        = some (.error (.contextDivergence b.service.name)) := by
  rcases beginTick_cases b with ⟨hnil, _⟩ | ⟨hsame, _⟩ | ⟨_, hdispatch, hb'⟩
  · rw [hnil] at he
    cases he
  · exact absurd hsame hdiff
  · refine ⟨hdispatch, fun ns => result?_run hb.beginTick ns ?_⟩
    rw [hb']
    exact result?_refused hb he

/-- a result of a taken ticket is what the call of its group came back with. -/
theorem made_of_result {b : Batcher S C} (hb : b.Sound) {e : Key S C × Pending}
    (he : e ∈ b.pending.entries) (hsame : SameContext b.pending.entries) {g : Group S C}
    (hg : g ∈ (groupPending b.pending.entries).values) (hmember : (e.1, e.2.ticket) ∈ g.members)
    {ns : List (Move S C)} (hns : .drop b.ticks ∉ ns) {r : CallResult S}
    (hr : (b.beginTick.batcher.run ns).result? e.2.ticket = some r) :
    ∃ outcome, CallMade b.beginTick.batcher ns b.ticks e.1.context (g, outcome) ∧
      r = b.beginTick.batcher.service.handed outcome e.1.source := by
  obtain ⟨_, htick⟩ := tick?_beginTick hb he hsame
  obtain ⟨ended, h⟩ := followed_run hb.beginTick htick rfl ns hns
  rcases h.cases hb.beginTick hg hmember with ⟨_, hnone⟩ | ⟨outcome, hmade, hsome⟩
  · rw [hnone] at hr
    cases hr
  · exact ⟨outcome, hmade, Option.some.inj (hr.symm.trans hsome)⟩

/-- when the dispatch has returned there is such a result. -/
theorem result_of_ended {b : Batcher S C} (hb : b.Sound) {e : Key S C × Pending}
    (he : e ∈ b.pending.entries) (hsame : SameContext b.pending.entries) {g : Group S C}
    (hg : g ∈ (groupPending b.pending.entries).values) (hmember : (e.1, e.2.ticket) ∈ g.members)
    {ns : List (Move S C)} (hns : .drop b.ticks ∉ ns) {isOpen : Gate → Bool}
    {result : Except DispatchError Summary}
    (hended : ((b.beginTick.batcher.run ns).poll isOpen b.ticks).dispatch = .ended result) :
    ∃ outcome, CallMade b.beginTick.batcher (ns ++ [.poll isOpen b.ticks]) b.ticks e.1.context
        (g, outcome) ∧
      ((b.beginTick.batcher.run ns).poll isOpen b.ticks).batcher.result? e.2.ticket
        = some (b.beginTick.batcher.service.handed outcome e.1.source) := by
  have hns' : .drop b.ticks ∉ ns ++ [Move.poll isOpen b.ticks] := by
    rw [List.mem_append, List.mem_singleton]
    exact fun h => h.elim hns (fun h => by cases h)
  obtain ⟨_, htick⟩ := tick?_beginTick hb he hsame
  obtain ⟨ended, h⟩ := followed_run hb.beginTick htick rfl _ hns'
  have hcases := h.cases hb.beginTick hg hmember
  rw [run_concat, after_poll] at hcases
  rcases hcases with ⟨hopen, _⟩ | hsettled
  · rw [openGroups_of_none (tick?_of_ended hended)] at hopen
    cases hopen
  · exact hsettled

/-- **Every ticket is settled once, and by the call of its own group.**  After any history, with
any history to follow:
* a result stays;
* a submitted call is pending and has no result until a tick is begun;
* a begun tick of calls with different contexts settles each of them with the divergence;
* a begun tick of calls with one context puts each into a group.  The ticket has no result but what
  the call of that group came back with for its source, and it has that result when the dispatch
  returns. -/
theorem ticket_settled_by_own_group (maxConcurrentGroups : Option Nat) (service : Service S C)
    (ms : List (Move S C)) :
    let b := (Batcher.new maxConcurrentGroups service).run ms
    (∀ (t : Ticket) (r : CallResult S) (ns : List (Move S C)),
      b.result? t = some r → (b.run ns).result? t = some r) ∧
    (∀ (source : S) (args : Args) (subfields : List Field) (context : C) (ns : List (Move S C)),
      .beginTick ∉ ns →
      let s := b.submit source args subfields context
      (∃ p, (s.batcher.run ns).pending.find? (b.keyOf source args subfields context) = some p ∧
        p.ticket = s.ticket) ∧
      (s.batcher.run ns).result? s.ticket = none) ∧
    (∀ e ∈ b.pending.entries, ¬ SameContext b.pending.entries →
      b.beginTick.dispatch = .ended (.error (.contextDivergence b.service.name)) ∧
      ∀ ns, (b.beginTick.batcher.run ns).result? e.2.ticket
        = some (.error (.contextDivergence b.service.name))) ∧
    (∀ e ∈ b.pending.entries, SameContext b.pending.entries →
      b.beginTick.dispatch = .running b.ticks ∧
      ∃ g ∈ (groupPending b.pending.entries).values, (e.1, e.2.ticket) ∈ g.members ∧
      ∀ ns, .drop b.ticks ∉ ns →
        (∀ r, (b.beginTick.batcher.run ns).result? e.2.ticket = some r →
          ∃ outcome, CallMade b.beginTick.batcher ns b.ticks e.1.context (g, outcome) ∧
            r = service.handed outcome e.1.source) ∧
        (∀ isOpen result,
          ((b.beginTick.batcher.run ns).poll isOpen b.ticks).dispatch = .ended result →
          ∃ outcome, CallMade b.beginTick.batcher (ns ++ [.poll isOpen b.ticks]) b.ticks
              e.1.context (g, outcome) ∧
            ((b.beginTick.batcher.run ns).poll isOpen b.ticks).batcher.result? e.2.ticket
              = some (service.handed outcome e.1.source))) := by
  intro b
  have hb : b.Sound := sound_run (sound_new maxConcurrentGroups service) ms
  have hhanded : b.beginTick.batcher.service.handed = service.handed := by
    refine (handed_run b [.beginTick]).trans ?_
    exact handed_run (Batcher.new maxConcurrentGroups service) ms
  refine ⟨fun t r ns hr => result?_run hb ns hr, ?_, ?_, ?_⟩
  · intro source args subfields context ns hns
    exact open_of_submit hb source args subfields context hns
  · intro e he hdiff
    exact refused_of_contexts hb he hdiff
  · intro e he hsame
    obtain ⟨hdispatch, _⟩ := tick?_beginTick hb he hsame
    obtain ⟨g, hg, _, hmember⟩ := exists_mem_members he
    refine ⟨hdispatch, g, hg, hmember, fun ns hns => ?_⟩
    rw [← hhanded]
    constructor
    · intro r hr
      exact made_of_result hb he hsame hg hmember hns hr
    · intro isOpen result hended
      exact result_of_ended hb he hsame hg hmember hns hended

/-- a function that gives the half of every even number, and nothing for odd ones. -/
def halves : Service Nat Unit :=
  let shape : Shape := ⟨false, false⟩
  let run (call : Call (List Nat) Unit) : Deferred (BatchOutcome Nat) :=
    .ready (.ok (Table.ofList ((call.input.filter fun n => n % 2 == 0).map fun n =>
      (n, .scalar (.number (.int (n / 2)))))))
  ⟨⟨0, "Int", "half", [.sources], ⟨false, none⟩, .batched shape run⟩, shape, run⟩

/-- the calls for 4 and for 3 are taken together, and the dispatch hands each its own result. -/
theorem ticket_settled_by_own_group_of_halves :
    let b := (Batcher.new none halves).run [.submit 4 .empty [] (), .submit 3 .empty [] ()]
    let ended := (b.beginTick.batcher.run [.wake fun _ => true]).poll (fun _ => true) b.ticks
    ∃ g outcome, CallMade b.beginTick.batcher [.wake fun _ => true, .poll (fun _ => true) b.ticks]
        b.ticks () (g, outcome) ∧
      ended.batcher.result? 1 = some (halves.handed outcome 3) := by
  intro b ended
  obtain ⟨_, _, _, htaken⟩ := ticket_settled_by_own_group none halves
    [.submit 4 .empty [] (), .submit 3 .empty [] ()]
  have hmem : ((⟨3, none, none, ()⟩, ⟨.empty, none, 1⟩) : Key Nat Unit × Pending) ∈
      b.pending.entries := List.mem_cons_of_mem _ List.mem_cons_self
  obtain ⟨_, g, _, _, hrun⟩ := htaken _ hmem (fun _ _ _ _ => rfl)
  have hkept : Move.drop b.ticks ∉ [(.wake fun _ => true : Move Nat Unit)] := fun h => by
    cases List.mem_singleton.mp h
  obtain ⟨outcome, hmade, hresult⟩ := (hrun _ hkept).2 (fun _ => true) (.ok ⟨0, 2, 1, 0⟩) rfl
  exact ⟨g, outcome, hmade, hresult⟩

end Batcher
end Batchwise
