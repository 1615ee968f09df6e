import Batchwise.Batch.Tick
import Batchwise.Proofs.Batch.Group

/-!
# One look at a tick

What a look at a tick does, said once: some groups leave the queue and their calls are made; of
all groups whose call was made, some are done and hand out their results, the others stay.  No
group is lost and none is there twice.

* `Service.handed`       what the outcome of a group's call means for one source;
* `Group.settled_finish` a finished group hands each of its members the answer for its source;
* `Progress.Accounts`    what came of some groups accounts for each of them;
* `Tick.poll_accounts`   one look at a tick;
* `Tick.isDone_poll`     with every gate open one look ends the tick.
-/

set_option linter.unusedSectionVars false

namespace Batchwise

variable {S C : Type} [DecidableEq S] [DecidableEq C]

/-- what the outcome of a group's call means for one source. -/
def Service.handed (s : Service S C) (outcome : BatchOutcome S) (source : S) : CallResult S :=
  match outcome with
  | .ok answers => .ok (answers.find? source)
  | .error failure => .error (.resolverFailed s.name failure)

/-! ### handing out -/

namespace Group

theorem distribute_eq {ms : List (Key S C × Ticket)} (answers : Table S (Answer S))
    (hd : (ms.map fun m => m.1.source).Nodup) :
    (distribute ms answers).1 = ms.map fun m => (m.2, .ok (answers.find? m.1.source)) := by
  induction ms generalizing answers with
  | nil => rfl
  | cons m ms ih =>
    rw [List.map_cons, List.nodup_cons] at hd
    show (m.2, _) :: (distribute ms (answers.erase m.1.source)).1 = _
    rw [ih _ hd.2, List.map_cons]
    congr 1
    refine List.map_congr_left fun m' hm' => ?_
    have hne : m'.1.source ≠ m.1.source := fun h => hd.1 (List.mem_map.mpr ⟨m', hm', h⟩)
    rw [Table.find?_erase, if_neg hne]

theorem find?_restrict {sources : List S} (answers : Table S (Answer S)) {source : S}
    (h : source ∈ sources) : (restrict sources answers).answers.find? source = answers.find? source := by
  show (answers.filterKeys _).find? source = _
  rw [Table.find?_filterKeys, if_pos (decide_eq_true h)]

theorem settled_finish {g : Group S C} (s : Service S C) (hg : g.Aligned)
    (outcome : BatchOutcome S) :
    (g.finish s outcome).settled = g.members.map fun m => (m.2, s.handed outcome m.1.source) := by
  cases outcome with
  | error failure =>
    show g.tickets.map _ = _
    unfold tickets
    rw [List.map_map]
    rfl
  | ok answers =>
    show (distribute g.members (restrict g.sources answers).answers).1 = _
    rw [distribute_eq _ (hg.sources_eq ▸ hg.nodup)]
    refine List.map_congr_left fun m hm => ?_
    have hs : m.1.source ∈ g.sources := hg.sources_eq ▸ List.mem_map.mpr ⟨m, hm, rfl⟩
    rw [find?_restrict answers hs]
    rfl

theorem tickets_distribute (ms : List (Key S C × Ticket)) (answers : Table S (Answer S)) :
    (distribute ms answers).1.map Prod.fst = ms.map Prod.snd := by
  induction ms generalizing answers with
  | nil => rfl
  | cons m ms ih => exact congrArg (List.cons m.2) (ih _)

theorem running_finish (s : Service S C) (g : Group S C) (outcome : BatchOutcome S) :
    (g.finish s outcome).running = [] := by
  cases outcome <;> rfl

end Group

/-! ### accounting for groups -/

theorem perm_append_exchange {A : Type} (as bs cs ds : List A) :
    (as ++ bs ++ (cs ++ ds)).Perm (as ++ cs ++ (bs ++ ds)) := by
  rw [List.append_assoc, List.append_assoc]
  exact (List.perm_append_comm_assoc bs cs ds).append_left as

/-- what is left of the first account is what the second begins with. -/
theorem perm_append_chain {A : Type} {as as' bs bs' us vs ws : List A}
    (h : (as ++ vs).Perm (us ++ bs)) (h' : (as' ++ ws).Perm (vs ++ bs')) :
    (as ++ as' ++ ws).Perm (us ++ (bs ++ bs')) := by
  rw [List.append_assoc]
  refine (h'.append_left as).trans ?_
  rw [← List.append_assoc, ← List.append_assoc]
  exact h.append_right bs'

/-- a group and the outcome of its call. -/
abbrev Answered (S C : Type) := Group S C × BatchOutcome S

/-- a started group and what its call will come back with. -/
def Running.answered (r : Running S C) : Answered S C := (r.group, r.awaited.value)

/-- a group with the outcome of the call that serves it. -/
def Service.answered (s : Service S C) (context : C) (g : Group S C) : Answered S C :=
  (g, (s.run (g.call s context)).value)

/-- whether the call of a group failed. -/
def Answered.failed (a : Answered S C) : Bool :=
  match a.2 with
  | .ok _ => false
  | .error _ => true

/-- the results that a group with the outcome of its call hands out. -/
def Service.results (s : Service S C) (a : Answered S C) : List (Ticket × CallResult S) :=
  (a.1.finish s a.2).settled

/-- whatever the outcome, every member gets a result. -/
theorem Service.tickets_results (s : Service S C) (a : Answered S C) :
    (s.results a).map Prod.fst = a.1.tickets := by
  obtain ⟨g, outcome⟩ := a
  cases outcome with
  | ok answers => exact Group.tickets_distribute g.members _
  | error failure =>
    show (g.tickets.map _).map Prod.fst = g.tickets
    rw [List.map_map]
    exact List.map_id _

theorem Group.failed_finish (s : Service S C) (g : Group S C) (outcome : BatchOutcome S) :
    (g.finish s outcome).failed = [((g, outcome) : Answered S C)].countP Answered.failed := by
  cases outcome <;> rfl

namespace Progress

/-- what came of some groups: those that are done have handed out their results, and it is counted
which of them failed; the others still run. -/
def Accounts (s : Service S C) (p : Progress S C) (groups : List (Answered S C)) : Prop :=
  ∃ ended, (ended ++ p.running.map Running.answered).Perm groups ∧
    p.settled = ended.flatMap s.results ∧ p.failed = ended.countP Answered.failed

theorem accounts_none (s : Service S C) : (none : Progress S C).Accounts s [] :=
  ⟨[], List.Perm.refl [], rfl, rfl⟩

theorem Accounts.append {s : Service S C} {p q : Progress S C} {as bs : List (Answered S C)}
    (hp : p.Accounts s as) (hq : q.Accounts s bs) : (p ++ q).Accounts s (as ++ bs) := by
  obtain ⟨es, hpe, hps, hpf⟩ := hp
  obtain ⟨fs, hqe, hqs, hqf⟩ := hq
  refine ⟨es ++ fs, ?_, ?_, ?_⟩
  · show (es ++ fs ++ (p.running ++ q.running).map Running.answered).Perm _
    rw [List.map_append]
    exact (perm_append_exchange _ _ _ _).trans (hpe.append hqe)
  · show p.settled ++ q.settled = _
    rw [hps, hqs, List.flatMap_append]
  · show p.failed + q.failed = _
    rw [hpf, hqf, List.countP_append]

end Progress

/-- the call that an event tells of. -/
def Event.call? : Event S C → Option (Call (List S) C)
  | .called _ call => some call
  | _ => none

/-- the calls that were made. -/
def madeCalls (events : List (Event S C)) : List (Call (List S) C) := events.filterMap Event.call?

theorem madeCalls_append (es fs : List (Event S C)) :
    madeCalls (es ++ fs) = madeCalls es ++ madeCalls fs :=
  List.filterMap_append

theorem madeCalls_finish (s : Service S C) (g : Group S C) (outcome : BatchOutcome S) :
    madeCalls (g.finish s outcome).events = [] := by
  cases outcome with
  | error failure => rfl
  | ok answers =>
    show madeCalls (Group.countEvent _ _ ++ Group.countEvent _ _) = []
    rw [madeCalls_append]
    unfold Group.countEvent
    split <;> split <;> rfl

/-! ### started groups -/

namespace Running

theorem accounts_poll (s : Service S C) (isOpen : Gate → Bool) (r : Running S C) :
    (r.poll s isOpen).Accounts s [r.answered] := by
  unfold poll
  dsimp only
  split
  · refine ⟨[r.answered], ?_, ?_, ?_⟩
    · show ([r.answered] ++ (r.group.finish s _).running.map answered).Perm _
      rw [Group.running_finish]
      exact List.Perm.refl _
    · exact (List.append_nil _).symm
    · exact Group.failed_finish s r.group r.awaited.value
  · exact ⟨[], List.Perm.refl _, rfl, rfl⟩

theorem madeCalls_poll (s : Service S C) (isOpen : Gate → Bool) (r : Running S C) :
    madeCalls (r.poll s isOpen).events = [] := by
  unfold poll
  dsimp only
  split
  · show madeCalls ([.returned s.id r.call] ++ (r.group.finish s _).events) = []
    rw [madeCalls_append, madeCalls_finish]
    rfl
  · rfl

theorem accounts_start (s : Service S C) (isOpen : Gate → Bool) (context : C) (g : Group S C) :
    (start s isOpen context g).Accounts s [s.answered context g] :=
  accounts_poll s isOpen ⟨g, g.call s context, s.run (g.call s context)⟩

theorem madeCalls_start (s : Service S C) (isOpen : Gate → Bool) (context : C) (g : Group S C) :
    madeCalls (start s isOpen context g).events = [g.call s context] := by
  show madeCalls ([.invoked s.id g.sources.length, .called s.id (g.call s context)] ++
    (poll s isOpen _).events) = _
  rw [madeCalls_append, madeCalls_poll]
  rfl

theorem accounts_pollAll (s : Service S C) (isOpen : Gate → Bool) (rs : List (Running S C)) :
    (pollAll s isOpen rs).Accounts s (rs.map answered) := by
  induction rs with
  | nil => exact Progress.accounts_none s
  | cons r rs ih => exact (accounts_poll s isOpen r).append ih

theorem madeCalls_pollAll (s : Service S C) (isOpen : Gate → Bool) (rs : List (Running S C)) :
    madeCalls (pollAll s isOpen rs).events = [] := by
  induction rs with
  | nil => rfl
  | cons r rs ih =>
    show madeCalls ((r.poll s isOpen).events ++ (pollAll s isOpen rs).events) = []
    rw [madeCalls_append, madeCalls_poll, ih]
    rfl

theorem running_poll_allOpen (s : Service S C) (r : Running S C) :
    (r.poll s fun _ => true).running = [] := by
  unfold poll
  dsimp only
  rw [if_pos (Deferred.isReady_poll_all r.awaited)]
  exact Group.running_finish s r.group _

theorem running_pollAll_allOpen (s : Service S C) (rs : List (Running S C)) :
    (pollAll s (fun _ => true) rs).running = [] := by
  induction rs with
  | nil => rfl
  | cons r rs ih =>
    show (r.poll s _).running ++ (pollAll s _ rs).running = []
    rw [running_poll_allOpen, ih]
    rfl

end Running

/-! ### ticks -/

namespace Tick

/-- the started groups are a beginning of the queue, and a call was made for each of them. -/
theorem startQueued_accounts (s : Service S C) (isOpen : Gate → Bool) (context : C)
    (limit busy : Nat) (gs : List (Group S C)) :
    ∃ started, gs = started ++ (startQueued s isOpen context limit busy gs).2 ∧
      (startQueued s isOpen context limit busy gs).1.Accounts s
        (started.map (s.answered context)) ∧
      madeCalls (startQueued s isOpen context limit busy gs).1.events
        = started.map fun g => g.call s context := by
  induction gs generalizing busy with
  | nil => exact ⟨[], rfl, Progress.accounts_none s, rfl⟩
  | cons g gs ih =>
    rw [startQueued]
    split
    · obtain ⟨started, hgs, hacc, hcalls⟩ :=
        ih (busy + (Running.start s isOpen context g).running.length)
      refine ⟨g :: started, ?_, ?_, ?_⟩
      · exact congrArg (List.cons g) hgs
      · exact (Running.accounts_start s isOpen context g).append hacc
      · show madeCalls ((Running.start s isOpen context g).events ++ _) = _
        rw [madeCalls_append, Running.madeCalls_start, hcalls]
        rfl
    · exact ⟨[], rfl, Progress.accounts_none s, rfl⟩

theorem startQueued_allOpen (s : Service S C) (context : C) (limit busy : Nat)
    (gs : List (Group S C)) (h : busy < limit) :
    (startQueued s (fun _ => true) context limit busy gs).1.running = [] ∧
      (startQueued s (fun _ => true) context limit busy gs).2 = [] := by
  induction gs with
  | nil => exact ⟨rfl, rfl⟩
  | cons g gs ih =>
    have hg : (Running.start s (fun _ => true) context g).running = [] :=
      Running.running_poll_allOpen s ⟨g, g.call s context, s.run (g.call s context)⟩
    rw [startQueued, if_pos h]
    dsimp only
    rw [hg, List.length_nil, Nat.add_zero]
    refine ⟨?_, ih.2⟩
    show (Running.start s _ context g).running ++ _ = []
    rw [hg, ih.1]
    rfl

/-- the groups whose members have no result yet. -/
def openGroups (t : Tick S C) : List (Group S C) := t.running.map Running.group ++ t.queued

theorem running_wake (isOpen : Gate → Bool) (t : Tick S C) :
    (t.wake isOpen).running.Perm t.running := by
  show (t.woken ++ t.waiting.filter _ ++ t.waiting.filter _).Perm (t.woken ++ t.waiting)
  rw [List.append_assoc]
  exact List.Perm.append_left _ (List.filter_append_perm (fun r => r.mayPass isOpen) t.waiting)

/-- **One look at a tick.**  The groups that leave the queue are called; of all called groups
those that are done hand out their results, and the others stay with the tick. -/
theorem poll_accounts (s : Service S C) (isOpen : Gate → Bool) (t : Tick S C) :
    ∃ started ended, t.queued = started ++ (t.poll s isOpen).tick.queued ∧
      (ended ++ (t.poll s isOpen).tick.running.map Running.answered).Perm
        (t.running.map Running.answered ++ started.map (s.answered t.context)) ∧
      (t.poll s isOpen).settled = ended.flatMap s.results ∧
      madeCalls (t.poll s isOpen).events = (started.map fun g => g.call s t.context) ∧
      (t.poll s isOpen).tick.failed = t.failed + ended.countP Answered.failed := by
  let w := t.wake isOpen
  let looked := Running.pollAll s isOpen w.woken
  let busy := w.waiting.length + looked.running.length
  let rest := startQueued s isOpen t.context t.limit busy t.queued
  obtain ⟨started, hqueued, hstarted, hcalls⟩ :=
    startQueued_accounts s isOpen t.context t.limit busy t.queued
  obtain ⟨ended, hended, hsettled, hfailed⟩ :=
    (Running.accounts_pollAll s isOpen w.woken).append hstarted
  refine ⟨started, ended, hqueued, ?_, hsettled, ?_, congrArg (fun n => t.failed + n) hfailed⟩
  · -- the groups that were not looked at stand in front of those that still run
    show (ended ++ (w.waiting ++ (looked ++ rest.1).running).map Running.answered).Perm _
    have hw := (running_wake isOpen t).map Running.answered
    have hsplit : (t.wake isOpen).running.map Running.answered
        = w.woken.map Running.answered ++ w.waiting.map Running.answered := List.map_append
    rw [hsplit] at hw
    rw [List.map_append, ← List.append_assoc]
    refine (List.Perm.append_right _ List.perm_append_comm).trans ?_
    rw [List.append_assoc]
    refine (List.Perm.append_left _ hended).trans ?_
    rw [← List.append_assoc]
    exact List.Perm.append_right _ (List.perm_append_comm.trans hw)
  · show madeCalls (looked.events ++ rest.1.events) = _
    rw [madeCalls_append, Running.madeCalls_pollAll, hcalls]
    rfl

theorem unsettled_eq (t : Tick S C) : t.unsettled = t.openGroups.flatMap Group.tickets := by
  unfold unsettled openGroups
  rw [List.flatMap_append, List.flatMap_map]

theorem perm_openGroups_wake (isOpen : Gate → Bool) (t : Tick S C) :
    (t.wake isOpen).openGroups.Perm t.openGroups :=
  List.Perm.append_right _ ((running_wake isOpen t).map Running.group)

theorem perm_unsettled_wake (isOpen : Gate → Bool) (t : Tick S C) :
    (t.wake isOpen).unsettled.Perm t.unsettled := by
  rw [unsettled_eq, unsettled_eq]
  exact (perm_openGroups_wake isOpen t).flatMap_right _

/-- of a look: each open group stays open or is done. -/
theorem perm_openGroups_of_accounts {s : Service S C} {t t' : Tick S C}
    {started : List (Group S C)} {ended : List (Answered S C)}
    (hqueued : t.queued = started ++ t'.queued)
    (hperm : (ended ++ t'.running.map Running.answered).Perm
      (t.running.map Running.answered ++ started.map (s.answered t.context))) :
    (ended.map Prod.fst ++ t'.openGroups).Perm t.openGroups := by
  have h := hperm.map Prod.fst
  rw [List.map_append, List.map_append, List.map_map, List.map_map, List.map_map] at h
  have hstarted : started.map (Prod.fst ∘ s.answered t.context) = started := List.map_id _
  rw [hstarted] at h
  unfold openGroups
  rw [hqueued, ← List.append_assoc, ← List.append_assoc]
  exact List.Perm.append_right _ h

theorem perm_unsettled_poll (s : Service S C) (isOpen : Gate → Bool) (t : Tick S C) :
    ((t.poll s isOpen).settled.map Prod.fst ++ (t.poll s isOpen).tick.unsettled).Perm
      t.unsettled := by
  obtain ⟨_, ended, hqueued, hrunning, hsettled, _⟩ := poll_accounts s isOpen t
  have hperm := perm_openGroups_of_accounts hqueued hrunning
  have htickets : (ended.flatMap s.results).map Prod.fst
      = (ended.map Prod.fst).flatMap Group.tickets := by
    rw [List.map_flatMap, List.flatMap_map]
    exact congrArg (fun f => ended.flatMap f) (funext s.tickets_results)
  rw [hsettled, htickets, unsettled_eq, unsettled_eq, ← List.flatMap_append]
  exact hperm.flatMap_right _

theorem openGroups_of_isDone {t : Tick S C} (h : t.isDone = true) : t.openGroups = [] := by
  obtain ⟨hq, hr⟩ := Bool.and_eq_true_iff.mp h
  unfold openGroups
  rw [List.isEmpty_iff.mp hq, List.isEmpty_iff.mp hr]
  rfl

theorem unsettled_of_isDone {t : Tick S C} (h : t.isDone = true) : t.unsettled = [] := by
  rw [unsettled_eq, openGroups_of_isDone h]
  rfl

/-- there is room for a group, and the groups whose members have no result yet are aligned. -/
structure Fit (t : Tick S C) : Prop where
  limit_pos : 0 < t.limit
  aligned : ∀ g ∈ t.openGroups, g.Aligned

theorem Fit.wake {t : Tick S C} (h : t.Fit) (isOpen : Gate → Bool) : (t.wake isOpen).Fit :=
  ⟨h.limit_pos, fun g hg => h.aligned g ((perm_openGroups_wake isOpen t).subset hg)⟩

theorem Fit.poll {t : Tick S C} (h : t.Fit) (s : Service S C) (isOpen : Gate → Bool) :
    (t.poll s isOpen).tick.Fit := by
  obtain ⟨started, ended, hqueued, hrunning, _, _⟩ := poll_accounts s isOpen t
  have hperm := perm_openGroups_of_accounts hqueued hrunning
  exact ⟨h.limit_pos, fun g hg => h.aligned g (hperm.subset (List.mem_append_right _ hg))⟩

theorem isDone_poll (s : Service S C) (t : Tick S C) (h : 0 < t.limit) :
    (t.poll s fun _ => true).tick.isDone = true := by
  let w := t.wake fun _ => true
  have hwaiting : w.waiting = [] := by
    show t.waiting.filter _ = []
    rw [List.filter_eq_nil_iff]
    intro r _
    unfold Running.mayPass Deferred.mayPass
    cases r.awaited.gate? <;> simp
  have hlooked := Running.running_pollAll_allOpen s w.woken
  have hbusy : w.waiting.length + (Running.pollAll s (fun _ => true) w.woken).running.length
      < t.limit := by
    rw [hwaiting, hlooked]
    exact h
  obtain ⟨hrun, hqueue⟩ := startQueued_allOpen s t.context t.limit _ t.queued hbusy
  have hq : (t.poll s fun _ => true).tick.queued = [] := hqueue
  have hr : (t.poll s fun _ => true).tick.running = [] := by
    show [] ++ (w.waiting ++ ((Running.pollAll s _ w.woken).running ++
      (startQueued s (fun _ => true) t.context t.limit
        (w.waiting.length + (Running.pollAll s _ w.woken).running.length) t.queued).1.running)) = []
    rw [hrun, hwaiting, hlooked]
    rfl
  unfold isDone
  rw [hq, hr]
  rfl

end Tick
end Batchwise
