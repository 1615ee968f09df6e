import Batchwise.Proofs.Query.History
import Batchwise.Proofs.Query.Traversal

/-!
# Levels do not overlap

Every level starts its fields in order; only then do the batchers with pending calls dispatch, each
once, and the level goes on until every call is back and every handle is settled.  So nothing of a
level happens before the level before it is over, in whatever rounds the levels are looked at.

* `Level.order_run`, `back_run`, `handles_run`, `once_run`   what a level keeps in order;
* `Query.Stage`              a level with the executions before and after it;
* `Query.levels_are_apart`   the order of everything that happens in a query.
-/

set_option linter.unusedSectionVars false

namespace Batchwise

variable {S C : Type} [DecidableEq S] [DecidableEq C]

namespace Level

variable {world : World S} {registry : Registry S C} {context : C}

/-! ### what a level keeps in order -/

section

variable {e : Execution S C} {tasks : List (FieldTask S)}

/-- **Submissions and simple calls come first**, in order, and then nobody but batched resolvers
is called. -/
theorem order_run (world : World S) (context : C) (hr : registry.Sound)
    (he : e.Each registry fun s b => b.Idle s) (rounds : List Round)
    (tasks : List (FieldTask S)) :
    ∃ starts rest, (run world registry context rounds e tasks).events = starts ++ rest ∧
      Begun world registry context tasks starts ∧
      ∀ event ∈ rest, event.isSubmitted = false ∧ ∀ n call, event = .called n call →
        ∃ b ∈ registry.bindings, b.id = n ∧ b.isBatched = true := by
  have hstarting := starting_of_idle he context
  have hstarted := (start_spec world hr tasks hstarting).1
  obtain ⟨isOpen, ls, rest, hls, _, hevents, hperm⟩ :=
    run_history world registry context (hstarted.nodup_ids hr) rounds
  refine ⟨_, rest, hevents, begun_start world hr hstarting tasks, fun event hevent => ?_⟩
  rcases List.mem_append.mp (hperm.subset hevent) with hevent | hevent
  · obtain ⟨n, call, rfl⟩ := returned_of_owed hevent
    exact ⟨rfl, fun _ _ h => by cases h⟩
  · refine ⟨?_, fun n call hcalled => ?_⟩
    · refine Execution.forall_trace (fun m hm b => b.not_submitted_of_attends ?_) _ event hevent
      rcases List.mem_append.mp hm with hm | hm
      · exact Execution.attends_dispatchMoves hm
      · exact Or.inr (hls m hm)
    · obtain ⟨m, hm, hresolver⟩ := Execution.resolver_of_trace hevent
      rw [hstarted.ids, Registry.ids_services] at hm
      obtain ⟨b, hb, rfl⟩ := List.mem_map.mp hm
      rw [hcalled] at hresolver
      exact ⟨b, (List.mem_filter.mp hb).1, (Option.some.inj hresolver).symm,
        (List.mem_filter.mp hb).2⟩

/-- **Every call of a level comes back** before it is over. -/
theorem back_run (world : World S) (context : C) (hr : registry.Sound)
    (he : e.Each registry fun s b => b.Idle s) (rounds : List Round)
    (tasks : List (FieldTask S)) (n : Nat) :
    (backTo n (run world registry context rounds e tasks).events).Perm
      (callsTo n (run world registry context rounds e tasks).events) := by
  have hstarting := starting_of_idle he context
  have hstarted := (start_spec world hr tasks hstarting).1
  have hidle := (outcomes_run world context hr he rounds tasks).1
  have hbegun := begun_start world hr hstarting tasks
  obtain ⟨isOpen, ls, rest, hls, hrun, hevents, hperm⟩ :=
    run_history world registry context (hstarted.nodup_ids hr) rounds
  let started := start world registry context e tasks
  let ms := Execution.dispatchMoves isOpen started.execution.batchers ++ ls
  have htrace : (backTo n (started.execution.trace ms)).Perm
      (callsTo n (started.execution.trace ms)) := by
    refine Execution.perm_backTo_trace (fun m hm => ?_) fun b hb => ?_
    · exact (List.mem_append.mp hm).elim Execution.attends_dispatchMoves fun hm => Or.inr (hls m hm)
    · obtain ⟨s, hs, rfl⟩ := Execution.exists_service hstarted.ids hb
      obtain ⟨c, hc, hcollecting⟩ := hstarted.holds s hs
      obtain rfl := Option.some.inj (hb.symm.trans hc)
      obtain ⟨c, hc, hidle⟩ := hidle.holds s hs
      rw [hrun, Execution.batcher?_run, hb] at hc
      obtain rfl := Option.some.inj hc
      exact ⟨hcollecting.sound, hcollecting.running_eq, hidle.running_eq⟩
  have hstart : backTo n started.events = [] :=
    backTo_eq_nil (fun event hevent => (hbegun.quiet event hevent).1) n
  have howed : callsTo n (owed started.replies) = [] :=
    List.filterMap_eq_nil_iff.mpr fun event hevent => by
      obtain ⟨_, _, rfl⟩ := returned_of_owed hevent
      rfl
  have hback := perm_backTo hperm n
  have hcalls := perm_callsTo hperm n
  rw [backTo_append, owed_start] at hback
  rw [callsTo_append, howed, List.nil_append] at hcalls
  rw [hevents, backTo_append, hstart, List.nil_append, callsTo_append]
  exact hback.trans ((htrace.trans hcalls.symm).append_left _)

theorem exists_replied {replies : List (Reply S C)}
    (h : List.Forall₂ (Replied world registry context e) tasks replies) {reply : Reply S C}
    (hmem : reply ∈ replies) : ∃ t, Replied world registry context e t reply := by
  induction h with
  | nil => cases hmem
  | cons hreplied _ ih =>
    rcases List.mem_cons.mp hmem with rfl | hmem
    · exact ⟨_, hreplied⟩
    · exact ih hmem

/-- **Every handle of a level is settled** before it is over. -/
theorem handles_run (world : World S) (context : C) (hr : registry.Sound)
    (he : e.Each registry fun s b => b.Idle s) (rounds : List Round)
    {tasks : List (FieldTask S)} {b : Binding S C} {ticket : Ticket}
    (h : .submitted b ticket ∈ (start world registry context e tasks).replies) :
    ∃ result, (run world registry context rounds e tasks).execution.result? b.id ticket
      = some result := by
  have hstarting := starting_of_idle he context
  obtain ⟨hstarted, _, hreplied⟩ := start_spec world hr tasks hstarting
  obtain ⟨l, _, hgoing, hended, hrun⟩ := going_run hr hstarted rounds
  obtain ⟨t, hreply⟩ := exists_replied hreplied h
  cases hreply with
  | submitted s hs _ c hc p hp =>
    obtain ⟨g, _, _, hresult⟩ :=
      hgoing.inFlight.result hended hs hc (Table.mem_entries_iff.mpr hp)
    rw [hrun]
    exact ⟨_, hresult⟩

/-- **Every batcher dispatches once** in a level that has an occurrence for it, and else not at
all. -/
theorem once_run (world : World S) (context : C) (hr : registry.Sound)
    (he : e.Each registry fun s b => b.Idle s) (rounds : List Round)
    (tasks : List (FieldTask S)) {b : Binding S C} (hb : b ∈ registry.bindings)
    (hbatched : b.isBatched = true) :
    ∃ before after, e.batcher? b.id = some before ∧
      (run world registry context rounds e tasks).execution.batcher? b.id = some after ∧
      after.ticks = before.ticks
        + (run world registry context rounds e tasks).events.countP (Event.takes b.id) ∧
      (run world registry context rounds e tasks).events.countP (Event.takes b.id)
        = if (boundTo world registry b.id tasks).isEmpty then 0 else 1 := by
  have hmem : b.id ∈ registry.services.map Service.id := by
    rw [Registry.ids_services]
    exact List.mem_map_of_mem (List.mem_filter.mpr ⟨hb, hbatched⟩)
  obtain ⟨s, hs, hid⟩ := List.mem_map.mp hmem
  rw [← hid]
  have hstarting := starting_of_idle he context
  have hbegun := begun_start world hr hstarting tasks
  have hgathering := gathering_start_of_idle world context hr he tasks
  obtain ⟨isOpen, ls, rest, hls, hrun, hevents, hperm⟩ :=
    run_history world registry context (hgathering.nodup_ids hr) rounds
  obtain ⟨before, hbefore, _⟩ := he.holds s hs
  obtain ⟨c, hc, _, hgathered⟩ := hgathering.holds s hs
  let started := start world registry context e tasks
  let ms := Execution.dispatchMoves isOpen started.execution.batchers ++ ls
  have htakes : (c.trace (Execution.own s.id ms)).countP (Event.takes s.id)
      = if (boundTo world registry s.id tasks).isEmpty then 0 else 1 := by
    rw [Execution.takes_dispatchAll (hgathering.nodup_ids hr) hc isOpen hls]
    cases hbound : boundTo world registry s.id tasks with
    | nil =>
      exact if_neg fun hpending => hgathered.hasPending_iff.mp hpending hbound
    | cons t ts =>
      exact if_pos (hgathered.hasPending_iff.mpr fun hnil => by rw [hbound] at hnil; cases hnil)
  have hcount : (run world registry context rounds e tasks).events.countP (Event.takes s.id)
      = (c.trace (Execution.own s.id ms)).countP (Event.takes s.id) := by
    have hquiet : started.events.countP (Event.takes s.id) = 0 :=
      List.countP_eq_zero.mpr fun event hevent => by
        rw [(hbegun.quiet event hevent).2]
        exact Bool.false_ne_true
    have howed : (owed started.replies).countP (Event.takes s.id) = 0 :=
      List.countP_eq_zero.mpr fun event hevent => by
        obtain ⟨_, _, rfl⟩ := returned_of_owed hevent
        exact Bool.false_ne_true
    rw [hevents, List.countP_append, hquiet, Nat.zero_add, hperm.countP_eq, List.countP_append,
      howed, Nat.zero_add, ← countP_takes_about, Execution.about_trace, hc]
    rfl
  refine ⟨before, c.run (Execution.own s.id ms), hbefore, ?_, ?_, hcount.trans htakes⟩
  · rw [hrun, Execution.batcher?_run, hc]
    rfl
  · rw [Batcher.ticks_run, Execution.id_of_batcher? hc, hcount,
      ticks_start world registry context tasks hbefore hc]

end

end Level

/-! ### the levels of a query -/

namespace Query

/-- a level of a query, with the execution in which it is started and what it leaves. -/
structure Stage (S C : Type) where
  number : Nat
  tasks : List (FieldTask S)
  start : Execution S C
  done : Level.Done S C

/-- a stage as a level. -/
def Stage.level (stage : Stage S C) : ResolvedLevel S C :=
  ⟨stage.number, stage.tasks, stage.done.outcomes, stage.done.events⟩

section

variable (world : World S) (registry : Registry S C) (context : C) (schedule : Schedule)

/-- the stages that are resolved from a state on. -/
def stagesFrom : (left number : Nat) → State S C → List (Stage S C)
  | 0, _, _ => []
  | left + 1, number, s =>
    if s.placement.tasks.isEmpty then []
    else
      ⟨number, s.placement.tasks, s.execution,
        Level.run world registry context (schedule number) s.execution s.placement.tasks⟩ ::
        stagesFrom left (number + 1)
          (resolveLevel world registry context (schedule number) number s)

def stages (root : S) (fields : List Field) : List (Stage S C) :=
  stagesFrom world registry context schedule (Field.levels fields) 1 (begin registry root fields)

end

/-- every stage is started in the execution that the one before has left. -/
def Successive : Execution S C → List (Stage S C) → Prop
  | _, [] => True
  | e, stage :: stages => stage.start = e ∧ Successive stage.done.execution stages

/-- what happens in a level keeps its order, and is over with the level. -/
structure Stage.Apart (world : World S) (registry : Registry S C) (context : C)
    (stage : Stage S C) : Prop where
  /-- submissions and simple calls come first, in the order of the fields; then nothing is
  submitted, and nobody but batched resolvers is called. -/
  order : ∃ starts rest, stage.done.events = starts ++ rest ∧
    Level.Begun world registry context stage.tasks starts ∧
    ∀ event ∈ rest, event.isSubmitted = false ∧ ∀ n call, event = .called n call →
      ∃ b ∈ registry.bindings, b.id = n ∧ b.isBatched = true
  /-- every call that is made comes back, -/
  back : ∀ n, (backTo n stage.done.events).Perm (callsTo n stage.done.events)
  /-- every handle is settled, -/
  handles : ∀ b ticket,
    .submitted b ticket ∈ (Level.start world registry context stage.start stage.tasks).replies →
    ∃ result, stage.done.execution.result? b.id ticket = some result
  /-- and nothing is pending or runs. -/
  idle : stage.done.execution.Each registry fun service b => b.Idle service
  /-- a batcher takes one tick if an occurrence is bound to its resolver, and else none. -/
  once : ∀ b ∈ registry.bindings, b.isBatched = true →
    ∃ before after, stage.start.batcher? b.id = some before ∧
      stage.done.execution.batcher? b.id = some after ∧
      after.ticks = before.ticks + stage.done.events.countP (Event.takes b.id) ∧
      stage.done.events.countP (Event.takes b.id)
        = if (Level.boundTo world registry b.id stage.tasks).isEmpty then 0 else 1

variable {world : World S} {registry : Registry S C} {context : C} {schedule : Schedule}

theorem apart_run (world : World S) (context : C) (hr : registry.Sound) {e : Execution S C}
    (he : e.Each registry fun s b => b.Idle s) (rounds : List Round) (number : Nat)
    (tasks : List (FieldTask S)) :
    Stage.Apart world registry context
      ⟨number, tasks, e, Level.run world registry context rounds e tasks⟩ where
  order := Level.order_run world context hr he rounds tasks
  back := Level.back_run world context hr he rounds tasks
  handles _ _ h := Level.handles_run world context hr he rounds h
  idle := (Level.outcomes_run world context hr he rounds tasks).1
  once _ hb hbatched := Level.once_run world context hr he rounds tasks hb hbatched

theorem levelsFrom_eq (left number : Nat) (s : State S C) :
    levelsFrom world registry context schedule left number s
      = (stagesFrom world registry context schedule left number s).map Stage.level := by
  induction left generalizing number s with
  | zero => rfl
  | succ left ih =>
    rw [levelsFrom, stagesFrom]
    split
    · rfl
    · rw [List.map_cons, ih]
      rfl

theorem stagesFrom_spec (world : World S) (context : C) (schedule : Schedule)
    (hr : registry.Sound) (left number : Nat) {s : State S C} (h : Between registry left s) :
    Successive s.execution (stagesFrom world registry context schedule left number s) ∧
      ∀ stage ∈ stagesFrom world registry context schedule left number s,
        stage.Apart world registry context := by
  induction left generalizing number s with
  | zero => exact ⟨trivial, fun _ hstage => by cases hstage⟩
  | succ left ih =>
    rw [stagesFrom]
    split
    · exact ⟨trivial, fun _ hstage => by cases hstage⟩
    · obtain ⟨hsuccessive, hapart⟩ := ih (number + 1)
        (h.resolveLevel world context hr (schedule number) number)
      refine ⟨⟨rfl, hsuccessive⟩, fun stage hstage => ?_⟩
      rcases List.mem_cons.mp hstage with rfl | hstage
      · exact apart_run world context hr h.idle (schedule number) number s.placement.tasks
      · exact hapart stage hstage

/-- **Levels do not overlap.**  In every query that is resolved, in whatever rounds its calls come
back:
* the events are those of the levels, one level after the other, and every level is started in the
  execution that the one before has left;
* in a level, submissions and simple calls come first, in the order of the occurrences, and no
  batched resolver is called before;
* when a level is over every call that was made is back, every handle is settled, nothing is
  pending and no tick runs;
* in a level a batcher takes one tick if an occurrence is bound to its resolver, and else none. -/
theorem levels_are_apart {settings : Settings} {ds : List (Declaration S C)}
    {registry : Registry S C} (hr : Registry.build settings ds = .ok registry) (world : World S)
    (schedule : Schedule) (root : S) (fields : List Field) (context : C) {resolved : Resolved S C}
    (hresolved : execute world registry schedule root fields context = .ok resolved) :
    let stages := stages world registry context schedule root fields
    resolved.events = stages.flatMap
      (fun stage => .level stage.number stage.tasks.length :: stage.done.events) ∧
    Follow (Occurrence.ofObject fields root []) (stages.map Stage.level) ∧
    Successive (Execution.ofRegistry registry) stages ∧
    ∀ stage ∈ stages, stage.Apart world registry context := by
  intro stages
  have hsound := Registry.sound_build hr
  have hbetween := between_begin hsound root fields
  obtain ⟨hevents, hfollow, _⟩ := levelsFrom_spec world context schedule hsound
    (Field.levels fields) 1 hbetween
  obtain ⟨hsuccessive, hapart⟩ := stagesFrom_spec world context schedule hsound
    (Field.levels fields) 1 hbetween
  have hfirst : (begin registry root fields : State S C).placement.occurrences
      = Occurrence.ofObject fields root [] :=
    Placement.occurrences_schedule Draft.root root [] fields ⟨Draft.empty, [], []⟩
  rw [levelsFrom_eq] at hevents hfollow
  rw [hfirst] at hfollow
  unfold execute at hresolved
  dsimp only at hresolved
  split at hresolved
  · cases hresolved
  · cases hresolved
    refine ⟨hevents.trans ?_, hfollow, hsuccessive, hapart⟩
    exact List.flatMap_map ..

/-- a simple function that gives the number of a post, and whose calls take a while. -/
def slowNumbers : Resolver Nat Unit :=
  .simple ⟨false, false⟩ fun call => ⟨["number"], .ok (.scalar (.number (.int call.input)))⟩

/-- six occurrences in the second level: the three numbers are back before the level is over, and
the authors were dispatched once. -/
theorem levels_are_apart_of_shelf :
    let fields : List Field := [⟨none, "posts", .empty,
      [⟨none, "author", .empty, Field.chain ["name"] []⟩, ⟨none, "number", .empty, []⟩]⟩]
    let schedule : Schedule := fun _ => [fun _ => false]
    ∃ registry resolved, Registry.build Settings.default
        [.plain "Post" "author" authors, .plain "Post" "number" slowNumbers] = .ok registry ∧
      execute shelf registry schedule 0 fields () = .ok resolved ∧
      ∃ stage ∈ stages shelf registry () schedule 0 fields,
        stage.tasks.map (fun t => t.source) = [10, 10, 11, 11, 20, 20] ∧
        (backTo 1 stage.done.events).length = 3 ∧
        stage.done.events.countP (Event.takes 0) = 1 := by
  intro fields schedule
  have hbuild : ∃ registry : Registry Nat Unit, Registry.build Settings.default
      [.plain "Post" "author" authors, .plain "Post" "number" slowNumbers] = .ok registry :=
    ⟨_, rfl⟩
  obtain ⟨registry, hr⟩ := hbuild
  have hexecute : ∃ resolved, execute shelf registry schedule 0 fields () = .ok resolved := by
    cases hr
    exact ⟨_, rfl⟩
  obtain ⟨resolved, hresolved⟩ := hexecute
  obtain ⟨_, _, _, hapart⟩ := levels_are_apart hr shelf schedule 0 fields () hresolved
  cases hr
  have happly := hapart _ (List.mem_cons_of_mem _ List.mem_cons_self)
  obtain ⟨_, _, _, _, _, honce⟩ := happly.once _ List.mem_cons_self rfl
  refine ⟨_, resolved, rfl, hresolved, _, List.mem_cons_of_mem _ List.mem_cons_self, rfl, ?_, ?_⟩
  · exact (happly.back 1).length_eq.trans (by decide +kernel)
  · exact honce.trans rfl

end Query
end Batchwise
