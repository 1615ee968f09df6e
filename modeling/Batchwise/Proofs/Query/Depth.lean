import Batchwise.Proofs.Batch.Together
import Batchwise.Proofs.Query.Traversal

/-!
# A query ends after as many levels as it has

Levels are resolved as long as fields wait, and nothing in this bounds their number: what a resolver
answers may lead to new objects for ever, and a dispatch that is refused would end the query.  But
every field that waits was found below a field of the level before, so that fields run out when the
query does; and all calls of a query carry its one context, so that no dispatch is refused.

* `Level.dispatched_finished`   the dispatch of a level ends, and is not refused;
* `Query.Loops`                 levels one after the other for as long as it takes;
* `Query.loops_resolveLevels`   they are no more than the query has;
* `Query.run_observe`           what an observer sees;
* `Query.execute_iff_depth`     which queries are refused, and how the others end.
-/

set_option linter.unusedSectionVars false

namespace Batchwise

variable {S C : Type} [DecidableEq S] [DecidableEq C]

/-! ### the dispatch of a level -/

namespace Execution

/-- batchers whose calls carry one context dispatch together; when each of them has ended, none was
refused. -/
theorem dispatched_looks {r : Registry S C} (hr : r.Sound) {context : C} {e : Execution S C}
    (he : e.Each r fun s b => b.Collecting s context) (isOpen : Gate → Bool)
    (looks : List (Gate → Bool))
    (hended : ∀ s ∈ r.services,
      Ended ((e.dispatchAll isOpen).meanwhile (looks.map .look)).run s.id) :
    ∃ summaries,
      ((e.dispatchAll isOpen).meanwhile (looks.map .look)).run.result? = some (.ok summaries) := by
  have hd := he.nodup_ids hr
  have hs : ∀ b ∈ e.batchers, b.Sound := fun b hb =>
    let ⟨_, _, _, hcollecting⟩ := he.of_mem hr hb
    hcollecting.sound
  have hsame : ∀ b ∈ e.batchers, SameContext b.pending.entries := fun b hb =>
    let ⟨_, _, _, hcollecting⟩ := he.of_mem hr hb
    hcollecting.sameContext
  -- nothing but looks comes meanwhile, so no batcher has moves of its own
  have hnone : ∀ b ∈ e.batchers, b.hasPending = true →
      ∀ m ∈ (looks.map Meanwhile.look).flatMap (Meanwhile.own b.id),
        m.Steady b.service ∧ m.isOn b.ticks = false := by
    intro b _ _ m hm
    obtain ⟨_, hlook, hown⟩ := List.mem_flatMap.mp hm
    obtain ⟨look, _, rfl⟩ := List.mem_map.mp hlook
    cases hown
  let st := (e.dispatchAll isOpen).meanwhile (looks.map .look)
  have hparts := underway_together hd hs isOpen hnone
  have hresolvers : st.run.resolvers = (e.batchers.filter Batcher.hasPending).map Batcher.id :=
    (resolvers_meanwhile _ _).trans (resolvers_dispatchAll e isOpen)
  have hnodup : st.run.resolvers.Nodup := by
    rw [hresolvers]
    exact hd.sublist (List.filter_sublist.map Batcher.id)
  obtain ⟨result, hresult⟩ := Run.exists_result hnodup fun n hn => by
    rw [hresolvers] at hn
    obtain ⟨b, hb, rfl⟩ := List.mem_map.mp hn
    obtain ⟨s, hs, hid, _⟩ := he.of_mem hr (List.mem_of_mem_filter hb)
    exact hid ▸ hended s hs
  obtain ⟨results, hdispatches, hcollect⟩ := Run.result?_eq_some.mp hresult
  have hresults := results_eq hd hs hresolvers
    (fun b hb => (hparts b hb).imp fun b' h => ⟨_, h.2⟩) hdispatches
  obtain ⟨summaries, hsummaries, _⟩ := collect_of_same hs hsame
  refine ⟨summaries, hresult.trans (congrArg some ?_)⟩
  rw [← hcollect, hresults, hsummaries]

end Execution

namespace Level

variable {world : World S} {registry : Registry S C} {context : C}

theorem run_lookAll (rounds : List Round) {l : Progress S C} {st : Execution.Step S C}
    (hexecution : l.execution = st.execution) (hrun : l.run = st.run) :
    (lookAll rounds l).run = (st.meanwhile (rounds.map .look)).run := by
  induction rounds generalizing l st with
  | nil => exact hrun
  | cons isOpen rounds ih =>
    refine @ih (look isOpen l) (st.after (.look isOpen)) ?_ ?_
    · show (Execution.resume isOpen l.execution l.run).execution = _
      rw [hexecution, hrun]
      rfl
    · show (Execution.resume isOpen l.execution l.run).run = _
      rw [hexecution, hrun]
      rfl

/-- **The dispatch of a level ends** with its last look, and is not refused. -/
theorem dispatched_finished (world : World S) (context : C) (hr : registry.Sound)
    {e : Execution S C} (he : e.Each registry fun s b => b.Idle s) (rounds : List Round)
    (tasks : List (FieldTask S)) :
    ∃ summaries, (finished world registry context rounds e tasks).run.result?
      = some (.ok summaries) := by
  have hstarted := (start_spec world hr tasks (starting_of_idle he context)).1
  obtain ⟨_, _, hended⟩ := going_finished hr hstarted rounds
  cases rounds with
  | nil => exact Execution.dispatched_looks hr hstarted Round.allOpen [] hended
  | cons r rs =>
    have hrun : (finished world registry context (r :: rs) e tasks).run = _ :=
      run_lookAll (rs ++ [Round.allOpen]) rfl rfl
    rw [hrun] at hended ⊢
    exact Execution.dispatched_looks hr hstarted r _ hended

end Level

/-! ### levels for as long as it takes -/

namespace Query

section

variable (world : World S) (registry : Registry S C) (context : C) (schedule : Schedule)

/-- levels one after the other, however many: from a state on, in which the next level is the one of
a number, as many levels are resolved until nothing waits, or until a dispatch is refused. -/
inductive Loops : (number : Nat) → State S C → (levels : Nat) →
    Except DispatchError (State S C) → Prop
  | done {number : Nat} {s : State S C} (h : s.placement.tasks = []) : Loops number s 0 (.ok s)
  | refused {number : Nat} {s : State S C} {error : DispatchError} (h : s.placement.tasks ≠ [])
      (hdispatched : (Level.finished world registry context (schedule number) s.execution
        s.placement.tasks).run.result? = some (.error error)) :
      Loops number s 1 (.error error)
  | level {number : Nat} {s : State S C} {summaries : List Summary} {n : Nat}
      {result : Except DispatchError (State S C)} (h : s.placement.tasks ≠ [])
      (hdispatched : (Level.finished world registry context (schedule number) s.execution
        s.placement.tasks).run.result? = some (.ok summaries))
      (hrest : Loops (number + 1)
        (resolveLevel world registry context (schedule number) number s) n result) :
      Loops number s (n + 1) result

end

variable {world : World S} {registry : Registry S C} {context : C} {schedule : Schedule}

theorem Loops.unique {number n n' : Nat} {s : State S C}
    {result result' : Except DispatchError (State S C)}
    (h : Loops world registry context schedule number s n result)
    (h' : Loops world registry context schedule number s n' result') :
    n' = n ∧ result' = result := by
  induction h generalizing n' result' with
  | done hnil =>
    cases h' with
    | done _ => exact ⟨rfl, rfl⟩
    | refused hne _ => exact absurd hnil hne
    | level hne _ _ => exact absurd hnil hne
  | refused hne hdispatched =>
    cases h' with
    | done hnil => exact absurd hnil hne
    | refused _ hdispatched' =>
      cases hdispatched.symm.trans hdispatched'
      exact ⟨rfl, rfl⟩
    | level _ hdispatched' _ => cases hdispatched.symm.trans hdispatched'
  | level hne hdispatched _ ih =>
    cases h' with
    | done hnil => exact absurd hnil hne
    | refused _ hdispatched' => cases hdispatched.symm.trans hdispatched'
    | level _ _ hrest =>
      obtain ⟨rfl, rfl⟩ := ih hrest
      exact ⟨rfl, rfl⟩

theorem Between.tasks_eq_nil {s : State S C} (h : Between registry 0 s) :
    s.placement.tasks = [] := by
  refine List.eq_nil_iff_forall_not_mem.mpr fun t ht => ?_
  have hlow := h.low t.occurrence (List.mem_map_of_mem ht)
  have hpos := Field.height_pos t.occurrence.field
  omega

/-- **Levels run out** after no more than the bound says, and no dispatch is refused. -/
theorem loops_resolveLevels (world : World S) (context : C) (schedule : Schedule)
    (hr : registry.Sound) (left number : Nat) {s : State S C} (h : Between registry left s) :
    ∃ n ≤ left, Loops world registry context schedule number s n
      (.ok (resolveLevels world registry context schedule left number s)) := by
  induction left generalizing number s with
  | zero => exact ⟨0, Nat.le_refl 0, .done h.tasks_eq_nil⟩
  | succ left ih =>
    rw [resolveLevels]
    split
    · rename_i hempty
      exact ⟨0, Nat.zero_le _, .done (List.isEmpty_iff.mp hempty)⟩
    · rename_i hne
      obtain ⟨summaries, hdispatched⟩ := Level.dispatched_finished world context hr h.idle
        (schedule number) s.placement.tasks
      obtain ⟨n, hn, hloops⟩ := ih (number + 1)
        (h.resolveLevel world context hr (schedule number) number)
      exact ⟨n + 1, Nat.succ_le_succ hn, .level (mt List.isEmpty_iff.mpr hne) hdispatched hloops⟩

/-- an observer sees what happens while a query is resolved, and nothing if it is refused. -/
theorem run_observe (world : World S) (registry : Registry S C) (schedule : Schedule) (root : S)
    (fields : List Field) (context : C) (seen : List (Event S C)) :
    (observe world registry schedule root fields context).run seen =
      match execute world registry schedule root fields context with
      | .ok resolved => (.ok resolved.response, seen ++ resolved.events)
      | .error error => (.error error, seen) := by
  unfold observe execute
  dsimp only
  split
  · rfl
  · rfl

/-- **A query is refused if it is too deep, and else it ends.**  The levels of fields are 0 if there
are none, and else one more than those of the deepest subfields.  For every query:
* it is refused if and only if it has more levels than the settings allow, with these two numbers,
  and then an observer has seen nothing new;
* else, whatever the world is and whatever resolvers answer, the levels that are resolved for as
  long as fields wait come to an end, after no more levels than the query has, no dispatch on the
  way is refused, and the response is what was placed in them. -/
theorem execute_iff_depth {settings : Settings} {ds : List (Declaration S C)}
    {registry : Registry S C} (hr : Registry.build settings ds = .ok registry) (world : World S)
    (schedule : Schedule) (root : S) (fields : List Field) (context : C) :
    let limit := registry.settings.queryDepthLimit
    let depth := Field.levels fields
    let outcome := execute world registry schedule root fields context
    (fields = [] → depth = 0) ∧
    (fields ≠ [] → ∃ deepest, (fields.map fun f => Field.levels f.subfields).max? = some deepest ∧
      depth = 1 + deepest) ∧
    (∀ error, outcome = .error error ↔ limit < depth ∧ error = .depthLimitExceeded depth limit) ∧
    (limit < depth → ∀ seen, (observe world registry schedule root fields context).run seen
      = (.error (.depthLimitExceeded depth limit), seen)) ∧
    (depth ≤ limit → ∃ n last, n ≤ depth ∧
      Loops world registry context schedule 1 (begin registry root fields) n (.ok last) ∧
      (∀ n' result, Loops world registry context schedule 1 (begin registry root fields) n' result →
        n' = n ∧ result = .ok last) ∧
      let response : Response :=
        ⟨last.placement.draft.document Draft.root, last.placement.errors⟩
      outcome = .ok ⟨response, last.events⟩ ∧
      ∀ seen, (observe world registry schedule root fields context).run seen
        = (.ok response, seen ++ last.events)) := by
  intro limit depth outcome
  have hsound := Registry.sound_build hr
  have hrefused : limit < depth → execute world registry schedule root fields context
      = .error (.depthLimitExceeded depth limit) := fun hlt => if_pos hlt
  have hresolved : depth ≤ limit → execute world registry schedule root fields context
      = .ok _ := fun hle => if_neg (Nat.not_lt.mpr hle)
  refine ⟨fun hnil => ?_, Field.levels_eq_max, fun error => ⟨fun herror => ?_, ?_⟩,
    fun hlt seen => ?_, fun hle => ?_⟩
  · show Field.levels fields = 0
    rw [hnil, Field.levels_nil]
  · rcases Nat.lt_or_ge limit depth with hlt | hle
    · cases (hrefused hlt).symm.trans herror
      exact ⟨hlt, rfl⟩
    · cases (hresolved hle).symm.trans herror
  · rintro ⟨hlt, rfl⟩
    exact hrefused hlt
  · rw [run_observe, hrefused hlt]
  · obtain ⟨n, hn, hloops⟩ := loops_resolveLevels world context schedule hsound depth 1
      (between_begin hsound root fields)
    refine ⟨n, _, hn, hloops, fun n' result h => hloops.unique h, hresolved hle, fun seen => ?_⟩
    rw [run_observe, hresolved hle]

/-- numbers are nodes. -/
def nodes : World Nat where
  typeName _ := "Node"
  property _ _ := none

/-- a batched function that leads from every node to itself and to two new ones. -/
def spawning : Resolver Nat Unit :=
  .batched ⟨false, false⟩ fun call => .ready (.ok (Table.ofList
    (call.input.map fun n => (n, .list [.object n, .objects [2 * n, 2 * n + 1]]))))

/-- two levels are allowed, and nodes never end: three levels are refused, two are resolved. -/
theorem execute_iff_depth_of_nodes :
    ∃ registry, Registry.build { Settings.default with queryDepthLimit := 2 }
        [.plain "Node" "next" spawning] = .ok registry ∧
      execute nodes registry Schedule.immediate 1 (Field.chain ["next", "next", "next"] []) ()
        = .error (.depthLimitExceeded 3 2) ∧
      (∀ seen, (observe nodes registry Schedule.immediate 1
        (Field.chain ["next", "next", "next"] []) ()).run seen
          = (.error (.depthLimitExceeded 3 2), seen)) ∧
      ∃ n last, n ≤ 2 ∧ Loops nodes registry () Schedule.immediate 1
        (begin registry 1 (Field.chain ["next", "next"] [])) n (.ok last) := by
  have hbuild : ∃ registry : Registry Nat Unit,
      Registry.build { Settings.default with queryDepthLimit := 2 }
        [.plain "Node" "next" spawning] = .ok registry ∧
      registry.settings.queryDepthLimit = 2 := ⟨_, rfl, rfl⟩
  obtain ⟨registry, hr, hlimit⟩ := hbuild
  obtain ⟨_, _, hrefused, hunseen, _⟩ := execute_iff_depth hr nodes Schedule.immediate 1
    (Field.chain ["next", "next", "next"] []) ()
  obtain ⟨_, _, _, _, hresolved⟩ := execute_iff_depth hr nodes Schedule.immediate 1
    (Field.chain ["next", "next"] []) ()
  rw [hlimit] at hrefused hunseen hresolved
  obtain ⟨n, last, hn, hloops, _⟩ := hresolved (by decide)
  exact ⟨registry, hr, (hrefused _).mpr ⟨by decide, rfl⟩, hunseen (by decide), n, last, hn, hloops⟩

end Query
end Batchwise
