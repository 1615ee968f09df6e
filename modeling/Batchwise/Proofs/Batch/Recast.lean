import Batchwise.Proofs.Batch.Invariant

/-!
# Calls that are kept otherwise

What a tick keeps of its calls may be kept otherwise: with other arguments where nobody takes them,
under tickets of other numbers, and the tick itself under another number.  As long as the function
is called in the same way, everything that is done with calls goes through such a change.

* `Recast`                       other arguments, and other numbers for tickets and ticks;
* `Recast.Keeps`                 the function of a service is called in the same way;
* `values_groupPending_recast`   pending calls make the same groups;
* `Group.finish_recast`          groups settle the same results;
* `Tick.poll_recast`             looks at ticks: what comes back, what is settled and what is started.
-/

set_option linter.unusedSectionVars false

namespace Batchwise

variable {S C : Type} [DecidableEq S] [DecidableEq C]

/-- other arguments for calls, and other numbers for tickets and ticks. -/
structure Recast where
  args : Args → Args
  ticket : Ticket → Ticket
  tick : Nat → Nat

namespace Recast

/-- arguments change only where they are not taken. -/
def Keeps (m : Recast) (s : Service S C) : Prop :=
  s.shape.takesArgs = true → ∀ args, m.args args = args

def pending (m : Recast) (p : Pending) : Pending :=
  { p with args := m.args p.args, ticket := m.ticket p.ticket }

/-- a pending call under its key. -/
def call (m : Recast) (e : Key S C × Pending) : Key S C × Pending := (e.1, m.pending e.2)

def member (m : Recast) (e : Key S C × Ticket) : Key S C × Ticket := (e.1, m.ticket e.2)

def result (m : Recast) (e : Ticket × CallResult S) : Ticket × CallResult S := (m.ticket e.1, e.2)

end Recast

/-! ### groups -/

def Group.recast (m : Recast) (g : Group S C) : Group S C :=
  { g with args := m.args g.args, members := g.members.map m.member }

theorem addToGroup_recast (m : Recast) (groups : Table GroupKey (Group S C))
    (e : Key S C × Pending) : addToGroup (groups.mapValues (Group.recast m)) (m.call e)
      = (addToGroup groups e).mapValues (Group.recast m) := by
  unfold addToGroup
  dsimp only
  rw [← Table.put_mapValues]
  refine congrArg (Table.put (groups.mapValues (Group.recast m)) e.1.groupKey) ?_
  show (((groups.mapValues (Group.recast m)).find? e.1.groupKey).getD _).add _ _ = _
  rw [Table.find?_mapValues]
  have hadd : ∀ g : Group S C,
      (g.recast m).add e.1 (m.ticket e.2.ticket) = (g.add e.1 e.2.ticket).recast m := fun g => by
    unfold Group.add Group.recast
    rw [List.map_append]
    rfl
  cases groups.find? e.1.groupKey with
  | none => exact hadd (Group.start e.2)
  | some g => exact hadd g

theorem values_groupPending_recast (m : Recast) (es : List (Key S C × Pending)) :
    (groupPending (es.map m.call)).values = (groupPending es).values.map (Group.recast m) := by
  have hfold : ∀ (es : List (Key S C × Pending)) (groups : Table GroupKey (Group S C)),
      (es.map m.call).foldl addToGroup (groups.mapValues (Group.recast m))
        = (es.foldl addToGroup groups).mapValues (Group.recast m) := by
    intro es
    induction es with
    | nil => exact fun groups => rfl
    | cons e es ih =>
      intro groups
      rw [List.map_cons, List.foldl_cons, List.foldl_cons, addToGroup_recast, ih]
  have hgroups : groupPending (es.map m.call)
      = (groupPending es).mapValues (Group.recast m) := hfold es .empty
  rw [hgroups]
  unfold Table.values Table.mapValues
  rw [List.map_map, List.map_map]
  rfl

theorem sameContext_recast {m : Recast} {es : List (Key S C × Pending)} :
    SameContext (es.map m.call) ↔ SameContext es := by
  constructor
  · intro h e he f hf
    exact h (m.call e) (List.mem_map_of_mem he) (m.call f) (List.mem_map_of_mem hf)
  · intro h e' he' f' hf'
    obtain ⟨e, he, rfl⟩ := List.mem_map.mp he'
    obtain ⟨f, hf, rfl⟩ := List.mem_map.mp hf'
    exact h e he f hf

namespace Group

theorem tickets_recast (m : Recast) (g : Group S C) :
    (g.recast m).tickets = g.tickets.map m.ticket := by
  show (g.members.map m.member).map Prod.snd = (g.members.map Prod.snd).map m.ticket
  rw [List.map_map, List.map_map]
  rfl

theorem call_recast {m : Recast} {s : Service S C} (h : m.Keeps s) (context : C)
    (g : Group S C) : (g.recast m).call s context = g.call s context := by
  unfold call Call.ofShape recast
  dsimp only
  by_cases htakes : s.shape.takesArgs = true
  · rw [h htakes]
  · rw [if_neg htakes, if_neg htakes]

theorem distribute_recast (m : Recast) (ms : List (Key S C × Ticket))
    (answers : Table S (Answer S)) :
    (distribute (ms.map m.member) answers).1 = (distribute ms answers).1.map m.result := by
  induction ms generalizing answers with
  | nil => rfl
  | cons e ms ih =>
    show _ :: (distribute (ms.map m.member) _).1 = _ :: List.map m.result (distribute ms _).1
    rw [ih]
    rfl

end Group

/-! ### looks at groups -/

def Running.recast (m : Recast) (r : Running S C) : Running S C :=
  { r with group := r.group.recast m }

namespace Progress

def recast (m : Recast) (p : Progress S C) : Progress S C :=
  { p with running := p.running.map (Running.recast m), settled := p.settled.map m.result }

theorem recast_append (m : Recast) (p q : Progress S C) :
    (p ++ q).recast m = p.recast m ++ q.recast m := by
  show (⟨(p.running ++ q.running).map _, _, (p.settled ++ q.settled).map _, _⟩ : Progress S C) = _
  rw [List.map_append, List.map_append]
  rfl

theorem length_recast (m : Recast) (p : Progress S C) :
    (p.recast m).running.length = p.running.length := List.length_map _

end Progress

theorem Group.finish_recast (m : Recast) (s : Service S C) (g : Group S C)
    (outcome : BatchOutcome S) : (g.recast m).finish s outcome = (g.finish s outcome).recast m := by
  cases outcome with
  | ok answers =>
    show (⟨[], 0, (distribute (g.members.map m.member) _).1, _⟩ : Progress S C) = _
    rw [distribute_recast]
    rfl
  | error failure =>
    show (⟨[], 1, (g.recast m).tickets.map _, [.groupFailed s.id failure
      (g.members.map m.member).length]⟩ : Progress S C) = ⟨[], 1, (g.tickets.map _).map m.result, _⟩
    rw [tickets_recast, List.length_map, List.map_map, List.map_map]
    rfl

namespace Running

theorem poll_recast (m : Recast) (s : Service S C) (isOpen : Gate → Bool) (r : Running S C) :
    (r.recast m).poll s isOpen = (r.poll s isOpen).recast m := by
  show (if (r.awaited.poll isOpen).isReady then
    ((r.group.recast m).finish s _).after _ else _) = (if _ then _ else _ : Progress S C).recast m
  by_cases hready : (r.awaited.poll isOpen).isReady = true
  · rw [if_pos hready, if_pos hready, Group.finish_recast]
    rfl
  · rw [if_neg hready, if_neg hready]
    rfl

theorem pollAll_recast (m : Recast) (s : Service S C) (isOpen : Gate → Bool)
    (rs : List (Running S C)) :
    pollAll s isOpen (rs.map (recast m)) = (pollAll s isOpen rs).recast m := by
  induction rs with
  | nil => rfl
  | cons r rs ih =>
    show (r.recast m).poll s isOpen ++ pollAll s isOpen (rs.map (recast m)) = _
    rw [poll_recast, ih, ← Progress.recast_append]
    rfl

variable {m : Recast} {s : Service S C}

theorem start_recast (h : m.Keeps s) (isOpen : Gate → Bool) (context : C) (g : Group S C) :
    start s isOpen context (g.recast m) = (start s isOpen context g).recast m := by
  unfold start
  dsimp only
  rw [Group.call_recast h]
  have hpoll := poll_recast m s isOpen ⟨g, g.call s context, s.run (g.call s context)⟩
  exact congrArg (Progress.after [.invoked s.id g.sources.length, .called s.id (g.call s context)])
    hpoll

end Running

/-! ### looks at ticks -/

namespace Tick

def recast (m : Recast) (t : Tick S C) : Tick S C :=
  { t with
    number := m.tick t.number
    queued := t.queued.map (Group.recast m)
    waiting := t.waiting.map (Running.recast m)
    woken := t.woken.map (Running.recast m) }

def Polled.recast (m : Recast) (p : Polled S C) : Polled S C :=
  { p with tick := p.tick.recast m, settled := p.settled.map m.result }

theorem wake_recast (m : Recast) (isOpen : Gate → Bool) (t : Tick S C) :
    (t.recast m).wake isOpen = (t.wake isOpen).recast m := by
  unfold wake recast
  dsimp only
  rw [List.filter_map, List.filter_map, List.map_append]
  rfl

theorem isDone_recast (m : Recast) (t : Tick S C) : (t.recast m).isDone = t.isDone := by
  show ((t.queued.map _).isEmpty && (t.woken.map _ ++ t.waiting.map _).isEmpty) = _
  rw [List.isEmpty_map, ← List.map_append, List.isEmpty_map]
  rfl

theorem unsettled_recast (m : Recast) (t : Tick S C) :
    (t.recast m).unsettled = t.unsettled.map m.ticket := by
  have htickets : ∀ gs : List (Group S C), (gs.map (Group.recast m)).flatMap Group.tickets
      = (gs.flatMap Group.tickets).map m.ticket := fun gs => by
    rw [List.flatMap_map, List.map_flatMap]
    exact congrArg (fun f => gs.flatMap f) (funext fun g => Group.tickets_recast m g)
  have hrunning : (t.recast m).running = t.running.map (Running.recast m) :=
    List.map_append.symm
  have hopen : (t.recast m).openGroups = t.openGroups.map (Group.recast m) := by
    unfold openGroups
    rw [hrunning, List.map_append, List.map_map, List.map_map]
    rfl
  rw [unsettled_eq, unsettled_eq, hopen, htickets]

variable {m : Recast} {s : Service S C}

theorem startQueued_recast (h : m.Keeps s) (isOpen : Gate → Bool) (context : C)
    (limit busy : Nat) (gs : List (Group S C)) :
    startQueued s isOpen context limit busy (gs.map (Group.recast m)) =
      ((startQueued s isOpen context limit busy gs).1.recast m,
        (startQueued s isOpen context limit busy gs).2.map (Group.recast m)) := by
  induction gs generalizing busy with
  | nil => rfl
  | cons g gs ih =>
    rw [List.map_cons, startQueued, startQueued]
    split
    · dsimp only
      rw [Running.start_recast h, Progress.length_recast, ih, Progress.recast_append]
    · rfl

/-- **Looks at ticks go through.**  A tick that keeps its calls otherwise starts the same groups, is
told the same, and settles the same results. -/
theorem poll_recast (h : m.Keeps s) (isOpen : Gate → Bool) (t : Tick S C) :
    (t.recast m).poll s isOpen = (t.poll s isOpen).recast m := by
  have hgates : ∀ rs : List (Running S C), ((rs.map (Running.recast m)).filterMap fun r =>
      r.awaited.gate?) = rs.filterMap fun r => r.awaited.gate? := fun rs => List.filterMap_map
  unfold poll
  rw [wake_recast]
  generalize t.wake isOpen = w
  dsimp only [recast]
  rw [Running.pollAll_recast, List.length_map, Progress.length_recast, startQueued_recast h]
  dsimp only
  rw [← Progress.recast_append]
  generalize Running.pollAll s isOpen w.woken ++ (startQueued s isOpen w.context w.limit
    (w.waiting.length + (Running.pollAll s isOpen w.woken).running.length) w.queued).1 = all
  unfold Polled.recast recast Progress.recast
  dsimp only
  rw [hgates, List.map_append]
  rfl

end Tick
end Batchwise
