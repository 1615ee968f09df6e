import Batchwise.Proofs.Batch.Abandonment
import Batchwise.Proofs.Batch.Joint
import Batchwise.Proofs.Batch.Timing
import Mathlib.Data.Set.List

/-!
# Dispatching together

A dispatch of all batchers takes one tick of each that has pending calls, and goes on with all of
them until every one has ended.  Meanwhile anything else may happen to any batcher.  For each batcher
it comes to the same as a dispatch of that batcher alone.

* `Meanwhile`                what happens while a dispatch of all batchers is under way, and
                             `Step.after`, what becomes of it;
* `Underway`                 how far the dispatch of one batcher is: `underway_dispatch`,
                             `underway_run`;
* `Run.result?_of_parts`     the result of a dispatch from those of its parts;
* `together_as_alone`        what a dispatch of all batchers comes to.
-/

set_option linter.unusedSectionVars false

namespace Batchwise

variable {S C : Type} [DecidableEq S] [DecidableEq C]

/-- one thing that happens while a dispatch of all batchers is under way. -/
inductive Meanwhile (S C : Type)
  /-- gates open. -/
  | wake (isOpen : Gate → Bool)
  /-- the dispatch is gone on with. -/
  | look (isOpen : Gate → Bool)
  /-- something else happens to the batcher of a resolver. -/
  | move (resolver : Nat) (m : Move S C)

/-- what happens to the batcher of one resolver beside the dispatch. -/
def Meanwhile.own (n : Nat) : Meanwhile S C → List (Move S C)
  | .wake isOpen => [.wake isOpen]
  | .look _ => []
  | .move resolver m => if resolver = n then [m] else []

/-! ### one batcher -/

/-- what was pending was taken as a tick; besides looks at this tick just `others` happened, and they
left the outcomes of calls alone. -/
structure Took (b b' : Batcher S C) (others : List (Move S C)) : Prop where
  pending : b.hasPending = true
  steady : ∀ m ∈ others, m.Steady b.service
  moves : ∃ since, b' = b.run (.beginTick :: since) ∧
    since.filter (fun m => !m.isOn b.ticks) = others ∧
    ∀ m ∈ since, m.isOn b.ticks = true → ∃ isOpen, m = .poll isOpen b.ticks

/-- how far a dispatch is for one batcher: nothing was pending, or its tick runs, or it returned. -/
inductive Underway (b b' : Batcher S C) (others : List (Move S C)) : Option RunPart → Prop
  | nothing (hnone : b.hasPending = false) (h : b' = b.run others) : Underway b b' others none
  | running (h : Took b b' others) (hbegun : b.beginTick.dispatch = .running b.ticks)
      (htick : ∃ t, b'.tick? b.ticks = some t) :
      Underway b b' others (some ⟨b.id, .running b.ticks⟩)
  | ended (h : Took b b' others) {result : Except DispatchError Summary} {b₁ : Batcher S C}
      (later : List (Move S C)) (hreturns : b.Returns b.service result b₁)
      (hlater : b' = b₁.run later) : Underway b b' others (some ⟨b.id, .ended result⟩)

theorem Batcher.Returns.sound {s : Service S C} {b b₁ : Batcher S C}
    {result : Except DispatchError Summary} (h : b.Returns s result b₁) (hb : b.Sound) :
    b₁.Sound := by
  cases h with
  | atOnce _ => exact hb.beginTick
  | later _ _ _ _ => exact (Batcher.sound_run hb.beginTick _).poll _ _

namespace Took

variable {b b' : Batcher S C} {others : List (Move S C)}

theorem begun (h : b.hasPending = true) : Took b b.beginTick.batcher [] :=
  ⟨h, fun _ hm => (by cases hm), [], rfl, rfl, fun _ hm => (by cases hm)⟩

theorem sound (h : Took b b' others) (hb : b.Sound) : b'.Sound := by
  obtain ⟨_, _, since, rfl, _⟩ := h
  exact Batcher.sound_run hb _

theorem after (h : Took b b' others) {m : Move S C} (hm : m.Steady b.service)
    (hon : m.isOn b.ticks = false) : Took b (b'.after m) (others ++ [m]) := by
  obtain ⟨hpending, hsteady, since, rfl, hothers, hlooks⟩ := h
  refine ⟨hpending, fun k hk => ?_, since ++ [m], ?_, ?_, fun k hk hkon => ?_⟩
  · rcases List.mem_append.mp hk with hk | hk
    · exact hsteady k hk
    · exact List.mem_singleton.mp hk ▸ hm
  · rw [← List.cons_append, Batcher.run_concat]
  · rw [List.filter_append, hothers]
    simp [hon]
  · rcases List.mem_append.mp hk with hk | hk
    · exact hlooks k hk hkon
    · rw [List.mem_singleton.mp hk, hon] at hkon
      cases hkon

/-- one tick was taken, and nothing is pending unless something was submitted since. -/
theorem intake (h : Took b b' others) (hfills : ∀ m ∈ others, m.fills = false) :
    b'.ticks = b.ticks + 1 ∧ b'.pending.entries = [] := by
  obtain ⟨hpending, _, since, rfl, hothers, hlooks⟩ := h
  have hnone : (Move.beginTick :: since).filter Move.fills = [.beginTick] := by
    rw [List.filter_cons_of_pos rfl, List.cons.injEq, List.filter_eq_nil_iff]
    refine ⟨rfl, fun m hm => ?_⟩
    rw [Bool.not_eq_true]
    cases hon : m.isOn b.ticks with
    | true =>
      obtain ⟨isOpen, rfl⟩ := hlooks m hm hon
      rfl
    | false => exact hfills m (hothers ▸ List.mem_filter.mpr ⟨hm, by rw [hon]; rfl⟩)
  have hintake := Batcher.intake_run (b := b) rfl rfl (.beginTick :: since)
  have hone : b.run [.beginTick] = b.beginTick.batcher := rfl
  rw [hnone, hone, Batcher.intake_beginTick, if_neg (Batcher.hasPending_iff.mp hpending)] at hintake
  exact ⟨congrArg Batcher.Intake.ticks hintake,
    congrArg (fun i => i.pending.entries) hintake⟩

theorem poll (h : Took b b' others) (isOpen : Gate → Bool) :
    Took b (b'.poll isOpen b.ticks).batcher others := by
  obtain ⟨hpending, hsteady, since, rfl, hothers, hlooks⟩ := h
  have hon : (Move.poll isOpen b.ticks : Move S C).isOn b.ticks = true := beq_self_eq_true b.ticks
  refine ⟨hpending, hsteady, since ++ [.poll isOpen b.ticks], ?_, ?_, fun k hk hkon => ?_⟩
  · rw [← List.cons_append, Batcher.run_concat]
    rfl
  · rw [List.filter_append, hothers]
    simp [hon]
  · rcases List.mem_append.mp hk with hk | hk
    · exact hlooks k hk hkon
    · exact ⟨isOpen, List.mem_singleton.mp hk⟩

/-- a look that ends the tick ends a dispatch of the batcher alone. -/
theorem returns (h : Took b b' others) (hbegun : b.beginTick.dispatch = .running b.ticks)
    {isOpen : Gate → Bool} {result : Except DispatchError Summary}
    (hended : (b'.poll isOpen b.ticks).dispatch = .ended result) :
    b.Returns b.service result (b'.poll isOpen b.ticks).batcher := by
  obtain ⟨_, hsteady, since, rfl, hothers, hlooks⟩ := h
  refine .later hbegun (fun m hm => ?_) (fun hdrop => ?_) hended
  · cases hon : m.isOn b.ticks with
    | true =>
      obtain ⟨isOpen', rfl⟩ := hlooks m hm hon
      trivial
    | false =>
      refine hsteady m ?_
      rw [← hothers]
      exact List.mem_filter.mpr ⟨hm, by rw [hon]; rfl⟩
  · obtain ⟨_, h⟩ := hlooks _ hdrop (beq_self_eq_true b.ticks)
    cases h

end Took

namespace Underway

variable {b b' : Batcher S C} {others : List (Move S C)}

/-- going on with the part of a batcher. -/
theorem poll {n number : Nat} (h : Underway b b' others (some ⟨n, .running number⟩))
    (isOpen : Gate → Bool) : Underway b (b'.poll isOpen number).batcher others
      (some ⟨n, (b'.poll isOpen number).dispatch⟩) := by
  cases h with
  | running h hbegun htick =>
    obtain ⟨t, ht⟩ := htick
    have htook := h.poll isOpen
    have htick' := Batcher.tick?_poll isOpen ht
    cases hdone : (t.poll b'.service isOpen).tick.isDone with
    | true =>
      have hended := congrArg Batcher.Step.dispatch (Batcher.poll_of_done ht hdone)
      rw [hended]
      exact .ended htook [] (h.returns hbegun hended) rfl
    | false =>
      have hrunning := congrArg Batcher.Step.dispatch (Batcher.poll_of_open ht hdone)
      rw [hdone, if_neg Bool.false_ne_true] at htick'
      rw [hrunning]
      exact .running htook hbegun ⟨_, htick'⟩

/-- the last look. -/
theorem last {n number : Nat} (h : Underway b b' others (some ⟨n, .running number⟩))
    (hb : b.Sound) : ∃ result, (b'.poll (fun _ => true) number).dispatch = .ended result := by
  cases h with
  | running h _ htick =>
    obtain ⟨t, ht⟩ := htick
    obtain ⟨summary, hended⟩ := Batcher.ended_of_allOpen (h.sound hb) ht
    exact ⟨.ok summary, hended⟩

theorem of_idle {part : Option RunPart} (h : Underway b b' others part)
    (hnone : b.hasPending = false) : b' = b.run others := by
  cases h with
  | nothing _ h => exact h
  | running h _ _ => exact absurd h.pending (Bool.eq_false_iff.mp hnone)
  | ended h _ _ _ => exact absurd h.pending (Bool.eq_false_iff.mp hnone)

theorem took {part : Option RunPart} (h : Underway b b' others part)
    (hpending : b.hasPending = true) : Took b b' others := by
  cases h with
  | nothing hnone _ => exact absurd hpending (Bool.eq_false_iff.mp hnone)
  | running h _ _ => exact h
  | ended h _ _ _ => exact h

/-- the part of a batcher with pending calls, if it does not run. -/
theorem ended_part {part : Option RunPart} (h : Underway b b' others part)
    (hpending : b.hasPending = true)
    (hended : ∀ p, part = some p → ∃ result, p.dispatch = .ended result) :
    ∃ result, part = some ⟨b.id, .ended result⟩ := by
  cases h with
  | nothing hnone _ => exact absurd hpending (Bool.eq_false_iff.mp hnone)
  | running _ _ _ =>
    obtain ⟨_, hrunning⟩ := hended _ rfl
    cases hrunning
  | ended _ _ _ _ => exact ⟨_, rfl⟩

/-- something else happens to a batcher. -/
theorem after {part : Option RunPart} (h : Underway b b' others part) (hb : b.Sound)
    {m : Move S C} (hm : b.hasPending = true → m.Steady b.service ∧ m.isOn b.ticks = false) :
    Underway b (b'.after m) (others ++ [m]) part := by
  cases h with
  | nothing hnone h =>
    refine .nothing hnone ?_
    rw [h, Batcher.run_concat]
  | running h hbegun htick =>
    obtain ⟨hsteady, hon⟩ := hm h.pending
    obtain ⟨t, ht⟩ := htick
    have hlt : b.ticks < b'.ticks := Batcher.number_lt_run (h.sound hb) ht []
    have hsame : ∃ t, (b'.after m).tick? b.ticks = some t := by
      have hpoll : ∀ isOpen, m ≠ .poll isOpen b.ticks := by
        rintro isOpen rfl
        exact Bool.false_ne_true (hon.symm.trans (beq_self_eq_true b.ticks))
      have hdrop : m ≠ .drop b.ticks := by
        rintro rfl
        exact Bool.false_ne_true (hon.symm.trans (beq_self_eq_true b.ticks))
      rcases Batcher.tick?_after hlt hpoll hdrop with hsame | ⟨isOpen, hwoken⟩
      · exact ⟨t, hsame.trans ht⟩
      · exact ⟨t.wake isOpen, hwoken.trans (congrArg _ ht)⟩
    exact .running (h.after hsteady hon) hbegun hsame
  | @ended h result b₁ later hreturns hlater =>
    obtain ⟨hsteady, hon⟩ := hm h.pending
    refine .ended (h.after hsteady hon) (later ++ [m]) hreturns ?_
    rw [hlater, Batcher.run_concat]

end Underway

namespace Execution

/-- all batchers dispatch together. -/
theorem underway_dispatch {b : Batcher S C} (hb : b.Sound) (isOpen : Gate → Bool) :
    Underway b (dispatched isOpen b) [] (dispatchedPart isOpen b) := by
  unfold dispatched dispatchedPart
  cases hpending : b.hasPending with
  | false => exact .nothing hpending rfl
  | true =>
    rw [if_pos rfl, if_pos rfl]
    obtain ⟨e, he⟩ := List.exists_mem_of_ne_nil _ (Batcher.hasPending_iff.mp hpending)
    by_cases hsame : SameContext b.pending.entries
    · obtain ⟨hbegun, htick⟩ := Batcher.tick?_beginTick hb he hsame
      obtain ⟨hbatcher, hdispatch⟩ := b.dispatch_eq isOpen hbegun
      rw [hbatcher, hdispatch]
      exact (Underway.running (.begun hpending) hbegun ⟨_, htick⟩).poll isOpen
    · have hended := congrArg Batcher.Step.dispatch (Batcher.beginTick_of_differ hsame)
      have hdispatch : b.dispatch isOpen = b.beginTick := by
        unfold Batcher.dispatch
        dsimp only
        rw [hended]
      rw [hdispatch, hended]
      exact .ended (.begun hpending) [] (.atOnce hended) rfl

/-! ### all batchers -/

/-- an execution and a started dispatch of its batchers, one thing later. -/
def Step.after (st : Step S C) : Meanwhile S C → Step S C
  | .wake isOpen => ⟨st.execution.wake isOpen, st.run.wake isOpen, st.events⟩
  | .look isOpen =>
    let looked := resume isOpen st.execution st.run
    ⟨looked.execution, looked.run, st.events ++ looked.events⟩
  | .move resolver m =>
    ⟨st.execution.after (resolver, m), st.run, st.events ++ st.execution.trace [(resolver, m)]⟩

/-- many things later. -/
def Step.meanwhile (st : Step S C) (ns : List (Meanwhile S C)) : Step S C := ns.foldl Step.after st

theorem batcher?_wake (e : Execution S C) (isOpen : Gate → Bool) (n : Nat) :
    (e.wake isOpen).batcher? n = (e.batcher? n).map (Batcher.wake isOpen) :=
  find?_number_map (f := Batcher.wake isOpen) Batcher.id (fun _ => rfl) e.batchers n

theorem underway_after {st : Step S C} {b : Batcher S C} (hb : b.Sound) {others : List (Move S C)}
    (h : ∃ b', st.execution.batcher? b.id = some b' ∧
      Underway b b' others (st.run.part? b.id)) (x : Meanwhile S C)
    (hx : b.hasPending = true → ∀ m ∈ x.own b.id, m.Steady b.service ∧ m.isOn b.ticks = false) :
    ∃ b', (st.after x).execution.batcher? b.id = some b' ∧
      Underway b b' (others ++ x.own b.id) ((st.after x).run.part? b.id) := by
  obtain ⟨b', hb', hunderway⟩ := h
  cases x with
  | wake isOpen =>
    refine ⟨b'.wake isOpen, ?_, hunderway.after (m := .wake isOpen) hb fun _ => ⟨trivial, rfl⟩⟩
    show (st.execution.wake isOpen).batcher? b.id = _
    rw [batcher?_wake, hb']
    rfl
  | look isOpen =>
    rw [Meanwhile.own, List.append_nil]
    exact part_resume (fun c number hc => hc.poll isOpen) ⟨b', hb', hunderway⟩
  | move n m =>
    rw [Meanwhile.own] at hx ⊢
    by_cases hn : n = b.id
    · rw [if_pos hn] at hx ⊢
      refine ⟨b'.after m, ?_, hunderway.after hb fun hpending =>
        hx hpending m List.mem_cons_self⟩
      show (st.execution.after (n, m)).batcher? b.id = _
      rw [hn, batcher?_after_self, hb']
      rfl
    · rw [if_neg hn, List.append_nil]
      exact ⟨b', (batcher?_after_other st.execution hn m).trans hb', hunderway⟩

/-- **How far a dispatch is for one batcher**, whatever happens to the others. -/
theorem underway_run {st : Step S C} {b : Batcher S C} (hb : b.Sound) {others : List (Move S C)}
    (h : ∃ b', st.execution.batcher? b.id = some b' ∧
      Underway b b' others (st.run.part? b.id)) (ns : List (Meanwhile S C))
    (hns : b.hasPending = true → ∀ m ∈ ns.flatMap (Meanwhile.own b.id),
      m.Steady b.service ∧ m.isOn b.ticks = false) :
    ∃ b', (st.meanwhile ns).execution.batcher? b.id = some b' ∧
      Underway b b' (others ++ ns.flatMap (Meanwhile.own b.id)) ((st.meanwhile ns).run.part? b.id) := by
  induction ns generalizing st others with
  | nil =>
    rw [List.flatMap_nil, List.append_nil]
    exact h
  | cons x ns ih =>
    rw [List.flatMap_cons] at hns ⊢
    have hx := underway_after hb h x fun hpending m hm =>
      hns hpending m (List.mem_append_left _ hm)
    rw [← List.append_assoc]
    exact ih hx fun hpending m hm => hns hpending m (List.mem_append_right _ hm)

end Execution

/-! ### the result of a dispatch -/

namespace Run

theorem partResults?_of_ended {ps : List RunPart} {results : List (Except DispatchError Summary)}
    (h : ps.map RunPart.dispatch = results.map .ended) : partResults? ps = some results := by
  induction ps generalizing results with
  | nil =>
    rw [List.map_eq_nil_iff.mp h.symm]
    rfl
  | cons p ps ih =>
    cases results with
    | nil => cases h
    | cons result results =>
      obtain ⟨hp, hps⟩ := List.cons.inj h
      rw [partResults?, hp, ih hps]
      rfl

theorem ended_of_partResults? {ps : List RunPart} {results : List (Except DispatchError Summary)}
    (h : partResults? ps = some results) : ps.map RunPart.dispatch = results.map .ended := by
  induction ps generalizing results with
  | nil =>
    cases h
    rfl
  | cons p ps ih =>
    rw [partResults?] at h
    cases hp : p.dispatch with
    | running number =>
      rw [hp] at h
      cases h
    | ended result =>
      rw [hp] at h
      obtain ⟨rest, hrest, rfl⟩ := Option.map_eq_some_iff.mp h
      rw [List.map_cons, List.map_cons, hp, ih hrest]

/-- a dispatch has a result if and only if all its parts have ended. -/
theorem result?_eq_some {run : Run} {result : Except DispatchError (List Summary)} :
    run.result? = some result ↔ ∃ results, run.parts.map RunPart.dispatch = results.map .ended ∧
      collect results = result := by
  unfold result?
  rw [Option.map_eq_some_iff]
  exact exists_congr fun results =>
    and_congr_left fun _ => ⟨ended_of_partResults?, partResults?_of_ended⟩

theorem ended_of_dispatches {run : Run} {results : List (Except DispatchError Summary)}
    (h : run.parts.map RunPart.dispatch = results.map .ended) (n : Nat) : Execution.Ended run n := by
  intro p hp
  have hmem : p.dispatch ∈ results.map Dispatch.ended := by
    rw [← h]
    exact List.mem_map_of_mem (List.mem_of_find?_eq_some hp)
  obtain ⟨result, _, hresult⟩ := List.mem_map.mp hmem
  exact ⟨result, hresult.symm⟩

theorem collect_ok (ss : List Summary) : collect (ss.map .ok) = .ok ss := by
  induction ss with
  | nil => rfl
  | cons s ss ih => rw [List.map_cons, collect, ih]

theorem collect_error (ss : List Summary) (error : DispatchError)
    (rest : List (Except DispatchError Summary)) :
    collect (ss.map .ok ++ .error error :: rest) = .error error := by
  induction ss with
  | nil => rfl
  | cons s ss ih => rw [List.map_cons, List.cons_append, collect, ih]

theorem resolvers_update (run : Run) (n : Nat) (dispatch : Dispatch) (arrivals : List Gate) :
    (run.update n dispatch arrivals).resolvers = run.resolvers := by
  show (run.parts.map _).map RunPart.resolver = run.parts.map RunPart.resolver
  rw [List.map_map]
  refine List.map_congr_left fun p _ => ?_
  show (if p.resolver == n then (⟨n, dispatch⟩ : RunPart) else p).resolver = p.resolver
  by_cases h : p.resolver = n
  · simp [h]
  · simp [h]

/-- the parts of a dispatch, looked up one by one. -/
theorem dispatches_eq {run : Run} {A : Type} {number : A → Nat} {as : List A} {f : A → Dispatch}
    (hd : run.resolvers.Nodup) (hresolvers : run.resolvers = as.map number)
    (h : ∀ a ∈ as, run.part? (number a) = some ⟨number a, f a⟩) :
    run.parts.map RunPart.dispatch = as.map f := by
  have hlength : run.parts.length = as.length := by
    simpa [resolvers] using congrArg List.length hresolvers
  refine List.ext_getElem (by simpa using hlength) fun i hi hi' => ?_
  rw [List.length_map] at hi hi'
  rw [List.getElem_map, List.getElem_map]
  have hresolver : run.parts[i].resolver = number as[i] := by
    simpa [resolvers] using List.getElem_of_eq hresolvers (by simpa [resolvers] using hi)
  have hpart := h as[i] (List.getElem_mem hi')
  rw [← hresolver, part?, find?_number_of_mem hd (List.getElem_mem hi)] at hpart
  exact congrArg RunPart.dispatch (Option.some.inj hpart)

/-- when all parts have ended there is a result. -/
theorem exists_result {run : Run} (hd : run.resolvers.Nodup)
    (h : ∀ n ∈ run.resolvers, Execution.Ended run n) : ∃ result, run.result? = some result := by
  have hended : run.parts.map RunPart.dispatch ∈ Set.range (List.map Dispatch.ended) := by
    rw [Set.range_list_map]
    intro dispatch hdispatch
    obtain ⟨p, hp, rfl⟩ := List.mem_map.mp hdispatch
    obtain ⟨result, hresult⟩ :=
      h p.resolver (List.mem_map_of_mem hp) p (find?_number_of_mem hd hp)
    exact ⟨result, hresult.symm⟩
  obtain ⟨results, hresults⟩ := hended
  exact ⟨_, result?_eq_some.mpr ⟨results, hresults.symm, rfl⟩⟩

end Run

namespace Execution

theorem resolvers_resume (isOpen : Gate → Bool) (e : Execution S C) (run : Run) :
    (resume isOpen e run).run.resolvers = run.resolvers := by
  have hfold : ∀ (order : List Nat) (st : Step S C),
      (order.foldl (resumePart isOpen) st).run.resolvers = st.run.resolvers := by
    intro order
    induction order with
    | nil => exact fun _ => rfl
    | cons n order ih =>
      intro st
      refine (ih _).trans ?_
      unfold resumePart
      split
      · exact Run.resolvers_update _ _ _ _
      · rfl
  exact hfold _ _

theorem resolvers_meanwhile (st : Step S C) (ns : List (Meanwhile S C)) :
    (st.meanwhile ns).run.resolvers = st.run.resolvers := by
  induction ns generalizing st with
  | nil => rfl
  | cons x ns ih =>
    refine (ih (st.after x)).trans ?_
    cases x with
    | wake isOpen => rfl
    | look isOpen => exact resolvers_resume isOpen st.execution st.run
    | move n m => rfl

/-- the batchers with pending calls dispatch, in their order. -/
theorem resolvers_dispatchAll (e : Execution S C) (isOpen : Gate → Bool) :
    (e.dispatchAll isOpen).run.resolvers
      = (e.batchers.filter Batcher.hasPending).map Batcher.id := by
  show (dispatchList isOpen e.batchers).2.1.parts.map RunPart.resolver = _
  rw [(dispatchList_eq isOpen e.batchers).2, List.map_filterMap, ← List.filterMap_eq_map,
    List.filterMap_filter]
  refine List.filterMap_congr fun b _ => ?_
  unfold dispatchedPart
  cases b.hasPending <;> rfl

/-- what the parts of a dispatch of all batchers have come to. -/
theorem results_eq {e : Execution S C} (hd : (e.batchers.map Batcher.id).Nodup)
    (hs : ∀ b ∈ e.batchers, b.Sound) {run : Run}
    (hresolvers : run.resolvers = (e.batchers.filter Batcher.hasPending).map Batcher.id)
    (h : ∀ b ∈ e.batchers, ∃ b' others, Underway b b' others (run.part? b.id))
    {results : List (Except DispatchError Summary)}
    (hended : run.parts.map RunPart.dispatch = results.map .ended) :
    results = (e.batchers.filter Batcher.hasPending).map fun b =>
      b.service.verdict b.pending.entries := by
  have hnodup : run.resolvers.Nodup := by
    rw [hresolvers]
    exact hd.sublist (List.filter_sublist.map Batcher.id)
  have hall := Run.dispatches_eq (f := fun b => .ended (b.service.verdict b.pending.entries))
    hnodup hresolvers fun b hb => ?_
  · have hinjective : Function.Injective Dispatch.ended := fun _ _ heq => Dispatch.ended.inj heq
    refine List.map_injective_iff.mpr hinjective ?_
    rw [← hended, hall, List.map_map]
    rfl
  · obtain ⟨hmem, hpending⟩ := List.mem_filter.mp hb
    obtain ⟨b', others, hunderway⟩ := h b hmem
    obtain ⟨result, hpart⟩ :=
      hunderway.ended_part hpending (Run.ended_of_dispatches hended b.id)
    rw [hpart] at hunderway ⊢
    cases hunderway with
    | ended _ _ hreturns _ =>
      rw [(hreturns.spec (hs b hmem) (Service.Retimed.refl b.service)).1]

/-! ### all together -/

/-- every part of a dispatch of all batchers of a joint history, after whatever else happened. -/
theorem underway_together {e : Execution S C} (hd : (e.batchers.map Batcher.id).Nodup)
    (hs : ∀ b ∈ e.batchers, b.Sound) (isOpen : Gate → Bool) {ns : List (Meanwhile S C)}
    (hns : ∀ b ∈ e.batchers, b.hasPending = true → ∀ m ∈ ns.flatMap (Meanwhile.own b.id),
      m.Steady b.service ∧ m.isOn b.ticks = false) :
    ∀ b ∈ e.batchers, ∃ b',
      ((e.dispatchAll isOpen).meanwhile ns).execution.batcher? b.id = some b' ∧
      Underway b b' (ns.flatMap (Meanwhile.own b.id))
        (((e.dispatchAll isOpen).meanwhile ns).run.part? b.id) := by
  intro b hb
  have hfind : e.batcher? b.id = some b := find?_number_of_mem hd hb
  have hpart : (e.dispatchAll isOpen).run.part? b.id = dispatchedPart isOpen b := by
    rw [part?_dispatchAll hd, hfind]
    rfl
  have hstart : (e.dispatchAll isOpen).execution.batcher? b.id = some (dispatched isOpen b) := by
    rw [batcher?_dispatchAll, hfind]
    rfl
  have hunderway := underway_dispatch (hs b hb) isOpen
  rw [← hpart] at hunderway
  exact underway_run (hs b hb) ⟨_, hstart, hunderway⟩ ns (hns b hb)

/-- each call of a batcher comes to what it comes to when the batcher dispatches alone. -/
theorem settled_as_alone {b b' : Batcher S C} (hb : b.Sound) {others : List (Move S C)}
    {result : Except DispatchError Summary}
    (h : Underway b b' others (some ⟨b.id, .ended result⟩)) {alone : Except DispatchError Summary}
    {b₁ : Batcher S C} (halone : b.Returns b.service alone b₁) {c : Key S C × Pending}
    (hc : c ∈ b.pending.entries) :
    ∃ r, b'.result? c.2.ticket = some r ∧ b₁.result? c.2.ticket = some r := by
  cases h with
  | ended _ later hreturns hlater =>
    obtain ⟨_, hfates⟩ := hreturns.spec hb (Service.Retimed.refl b.service)
    obtain ⟨_, hfates'⟩ := halone.spec hb (Service.Retimed.refl b.service)
    refine ⟨_, ?_, hfates' c hc⟩
    rw [hlater]
    exact Batcher.result?_run (hreturns.sound hb) later (hfates c hc)

/-- the summaries of dispatches of which none is refused. -/
theorem exists_summaries (bs : List (Batcher S C))
    (h : ∀ b ∈ bs, SameContext b.pending.entries) :
    ∃ summaries : List Summary,
      bs.map (fun b => b.service.verdict b.pending.entries) = summaries.map .ok := by
  have hrange : bs.map (fun b => b.service.verdict b.pending.entries)
      ∈ Set.range (List.map (.ok : Summary → Except DispatchError Summary)) := by
    rw [Set.range_list_map]
    intro verdict hverdict
    obtain ⟨b, hb, rfl⟩ := List.mem_map.mp hverdict
    cases hcalls : b.pending.entries with
    | nil => exact ⟨_, rfl⟩
    | cons e es =>
      have hsame := h b hb
      rw [hcalls] at hsame
      exact ⟨_, (Service.verdict_of_same List.mem_cons_self hsame).symm⟩
  obtain ⟨summaries, hsummaries⟩ := hrange
  exact ⟨summaries, hsummaries.symm⟩

/-- the first refusal among dispatches is their result. -/
theorem collect_of_diverging {before after : List (Batcher S C)} {b : Batcher S C}
    (hbefore : ∀ c ∈ before, SameContext c.pending.entries)
    (hdiff : ¬ SameContext b.pending.entries) :
    Run.collect (((before ++ b :: after).filter Batcher.hasPending).map fun b =>
      b.service.verdict b.pending.entries) = .error (.contextDivergence b.service.name) := by
  have hpending : b.hasPending = true := Batcher.hasPending_iff.mpr fun hnil => by
    rw [hnil] at hdiff
    exact hdiff fun _ h => by cases h
  obtain ⟨summaries, hsummaries⟩ := exists_summaries (before.filter Batcher.hasPending)
    fun c hc => hbefore c (List.mem_of_mem_filter hc)
  rw [List.filter_append, List.filter_cons_of_pos hpending, List.map_append, List.map_cons,
    hsummaries, Service.verdict_of_differ hdiff]
  exact Run.collect_error summaries _ _

/-- dispatches of which none is refused have their summaries, in order, as the result. -/
theorem collect_of_same {bs : List (Batcher S C)} (hs : ∀ b ∈ bs, b.Sound)
    (hall : ∀ b ∈ bs, SameContext b.pending.entries) :
    ∃ summaries, Run.collect ((bs.filter Batcher.hasPending).map fun b =>
        b.service.verdict b.pending.entries) = .ok summaries ∧
      List.Forall₂ (fun b summary => ∀ alone b₁, b.Returns b.service alone b₁ →
        alone = .ok summary) (bs.filter Batcher.hasPending) summaries := by
  obtain ⟨summaries, hsummaries⟩ := exists_summaries (bs.filter Batcher.hasPending)
    fun c hc => hall c (List.mem_of_mem_filter hc)
  refine ⟨summaries, hsummaries ▸ Run.collect_ok summaries, ?_⟩
  have hverdicts : List.Forall₂ Eq ((bs.filter Batcher.hasPending).map fun b =>
      b.service.verdict b.pending.entries) (summaries.map .ok) := by
    rw [List.forall₂_eq_eq_eq]
    exact hsummaries
  rw [List.forall₂_map_left_iff, List.forall₂_map_right_iff] at hverdicts
  have hsounds : ∀ b ∈ bs.filter Batcher.hasPending, b.Sound :=
    fun b hb => hs b (List.mem_of_mem_filter hb)
  refine ((List.forall₂_and_left _ _).mpr ⟨hsounds, hverdicts⟩).imp ?_
  rintro b summary ⟨hb, hverdict⟩ alone b₁ halone
  exact (halone.spec hb (Service.Retimed.refl b.service)).1.trans hverdict

/-- **Batchers that dispatch together** each do what they do alone.  Take an execution of a built
registry after any joint history, dispatch all its batchers, and let meanwhile anything happen that
leaves the outcomes of calls alone and the ticks of this dispatch to it.

* The batchers stand in order of registration; one that had nothing pending is as it would be
  without the dispatch, and every other one took one tick.
* When all gates are open the dispatch has a result.
* When it has one, each call that was taken has the result that it has when its batcher dispatches
  alone.  The result is the refusal of the first batcher whose calls carry different contexts, or
  else the summaries, in order, that the batchers with pending calls give alone. -/
theorem together_as_alone {settings : Settings} {ds : List (Declaration S C)} {r : Registry S C}
    (hr : Registry.build settings ds = .ok r) (ms : List (Nat × Move S C)) (isOpen : Gate → Bool)
    (ns : List (Meanwhile S C))
    (hns : ∀ b ∈ ((ofRegistry r).run ms).batchers, b.hasPending = true →
      ∀ m ∈ ns.flatMap (Meanwhile.own b.id), m.Steady b.service ∧ m.isOn b.ticks = false) :
    let e := (ofRegistry r).run ms
    let now := (e.dispatchAll isOpen).meanwhile ns
    e.batchers.map Batcher.id = (r.bindings.filter Binding.isBatched).map Binding.id ∧
    (∀ b ∈ e.batchers, ∃ b', now.execution.batcher? b.id = some b' ∧
      let others := ns.flatMap (Meanwhile.own b.id)
      (b.hasPending = false → b' = b.run others) ∧
      (b.hasPending = true → Took b b' others ∧
        ((∀ m ∈ others, m.fills = false) →
          b'.ticks = b.ticks + 1 ∧ b'.pending.entries = []))) ∧
    (∃ result, (now.after (.look fun _ => true)).run.result? = some result) ∧
    ∀ result, now.run.result? = some result →
      (∀ b ∈ e.batchers, b.hasPending = true →
        (∃ alone b₁, b.Returns b.service alone b₁) ∧
        ∀ alone b₁, b.Returns b.service alone b₁ → ∀ c ∈ b.pending.entries,
          ∃ r, now.execution.result? b.id c.2.ticket = some r ∧
            b₁.result? c.2.ticket = some r) ∧
      (∀ before b after, e.batchers = before ++ b :: after →
        (∀ c ∈ before, SameContext c.pending.entries) → ¬ SameContext b.pending.entries →
        result = .error (.contextDivergence b.service.name)) ∧
      ((∀ b ∈ e.batchers, SameContext b.pending.entries) →
        ∃ summaries, result = .ok summaries ∧
          List.Forall₂ (fun b summary => ∀ alone b₁, b.Returns b.service alone b₁ →
            alone = .ok summary) (e.batchers.filter Batcher.hasPending) summaries) := by
  intro e now
  have hsound := Registry.sound_build hr
  have hids : e.batchers.map Batcher.id = r.services.map Service.id :=
    (ids_run _ ms).trans (each_ofRegistry hsound).ids
  have hd : (e.batchers.map Batcher.id).Nodup := hids ▸ hsound.nodup_service_ids
  have hs : ∀ b ∈ e.batchers, b.Sound := sound_run (sound_ofRegistry r) ms
  have hresolvers : now.run.resolvers = (e.batchers.filter Batcher.hasPending).map Batcher.id :=
    (resolvers_meanwhile _ ns).trans (resolvers_dispatchAll e isOpen)
  have hnodup : now.run.resolvers.Nodup := by
    rw [hresolvers]
    exact hd.sublist (List.filter_sublist.map Batcher.id)
  have hparts := underway_together hd hs isOpen hns
  refine ⟨hids.trans (Registry.ids_services r), fun b hb => ?_, ?_, fun result hresult => ?_⟩
  · obtain ⟨b', hb', hunderway⟩ := hparts b hb
    exact ⟨b', hb', hunderway.of_idle, fun hpending =>
      ⟨hunderway.took hpending, (hunderway.took hpending).intake⟩⟩
  · refine Run.exists_result ?_ fun n hn => ?_
    · exact (resolvers_resume _ now.execution now.run).symm ▸ hnodup
    · have hn' : n ∈ now.run.resolvers := resolvers_resume _ now.execution now.run ▸ hn
      rw [hresolvers] at hn'
      obtain ⟨b, hb, rfl⟩ := List.mem_map.mp hn'
      have hb' := List.mem_of_mem_filter hb
      exact ended_resume (fun c number hc => hc.poll _) (fun c number hc => hc.last (hs b hb'))
        (hparts b hb')
  · obtain ⟨results, hended, hcollect⟩ := Run.result?_eq_some.mp hresult
    have hresults := results_eq hd hs hresolvers
      (fun b hb => (hparts b hb).imp fun b' h => ⟨_, h.2⟩) hended
    rw [hresults] at hcollect
    refine ⟨fun b hb hpending => ⟨Batcher.exists_returns (hs b hb) b.service,
      fun alone b₁ halone c hc => ?_⟩, fun before b after hsplit hbefore hdiff => ?_, fun hall => ?_⟩
    · obtain ⟨b', hb', hunderway⟩ := hparts b hb
      obtain ⟨_, hpart⟩ := hunderway.ended_part hpending (Run.ended_of_dispatches hended b.id)
      rw [hpart] at hunderway
      unfold Execution.result?
      rw [hb', Option.bind_some]
      exact settled_as_alone (hs b hb) hunderway halone hc
    · rw [← hcollect, hsplit]
      exact collect_of_diverging hbefore hdiff
    · rw [← hcollect]
      exact collect_of_same hs hall

/-- two resolvers that answer every source with the same word. -/
def twins : List (Declaration Nat String) :=
  let resolver : Resolver Nat String := .batched ⟨false, false⟩ fun call =>
    .ready (.ok (Table.ofList (call.input.map fun n => (n, .text "both"))))
  [.plain "Int" "left" resolver, .plain "Int" "right" resolver]

/-- the calls of the first resolver are refused; the call of the second is settled as ever, though a
call of the first was submitted meanwhile. -/
theorem together_as_alone_of_twins :
    let ms : List (Nat × Move Nat String) := [(0, .submit 7 .empty [] "ann"),
      (1, .submit 7 .empty [] "ann"), (0, .submit 7 .empty [] "bob")]
    let ns : List (Meanwhile Nat String) := [.move 0 (.submit 8 .empty [] "ann")]
    ∃ r, Registry.build Settings.default twins = .ok r ∧ ∃ b c,
      let e := (ofRegistry r).run ms
      let now := (e.dispatchAll fun _ => false).meanwhile ns
      e.batchers = [b, c] ∧ now.run.result? = some (.error (.contextDivergence b.service.name)) ∧
        ∃ alone c₁ r, c.Returns c.service alone c₁ ∧ now.execution.result? c.id 0 = some r ∧
          c₁.result? 0 = some r := by
  intro ms ns
  have hbuild : ∃ r, Registry.build Settings.default twins = .ok r ∧
      let e := (ofRegistry r).run ms
      e.batchers.map (fun b => (b.hasPending, decide (SameContext b.pending.entries),
        b.pending.entries.map fun e => e.2.ticket))
        = [(true, false, [0, 1]), (true, true, [0])] ∧
      ((e.dispatchAll fun _ => false).meanwhile ns).run.result?.isSome = true := by
    refine ⟨_, rfl, ?_⟩
    decide +kernel
  obtain ⟨r, hr, hbatchers, hsome⟩ := hbuild
  refine ⟨r, hr, ?_⟩
  obtain ⟨b, cs, hcs, hb, hrest⟩ := List.map_eq_cons_iff.mp hbatchers
  obtain ⟨c, ds, rfl, hc, hds⟩ := List.map_eq_cons_iff.mp hrest
  obtain rfl := List.map_eq_nil_iff.mp hds
  simp only [Prod.mk.injEq, decide_eq_false_iff_not] at hb hc
  obtain ⟨result, hresult⟩ := Option.isSome_iff_exists.mp hsome
  have hns : ∀ n, ∀ m ∈ ns.flatMap (Meanwhile.own n), m = .submit 8 .empty [] "ann" := by
    intro n m hm
    obtain ⟨x, hx, hm⟩ := List.mem_flatMap.mp hm
    rw [List.mem_singleton.mp hx, Meanwhile.own] at hm
    split at hm
    · exact List.mem_singleton.mp hm
    · cases hm
  obtain ⟨_, _, _, hresults⟩ := together_as_alone hr ms (fun _ => false) ns
    fun d _ _ m hm => by
      rw [hns d.id m hm]
      exact ⟨trivial, rfl⟩
  obtain ⟨hcalls, hdiverging, _⟩ := hresults result hresult
  have hrefused := hdiverging [] b [c] hcs (fun _ h => by cases h) hb.2.1
  have hmem : c ∈ ((ofRegistry r).run ms).batchers := hcs ▸ List.mem_cons_of_mem b List.mem_cons_self
  obtain ⟨⟨alone, c₁, halone⟩, hsettled⟩ := hcalls c hmem hc.1
  obtain ⟨e, es, hes, hticket, _⟩ := List.map_eq_cons_iff.mp hc.2.2
  obtain ⟨x, hnow, hthen⟩ := hsettled alone c₁ halone e (hes ▸ List.mem_cons_self)
  rw [hticket] at hnow hthen
  exact ⟨b, c, hcs, hresult.trans (congrArg some hrefused), alone, c₁, x, halone, hnow, hthen⟩

end Execution
end Batchwise
