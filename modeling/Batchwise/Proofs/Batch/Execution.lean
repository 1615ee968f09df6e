import Batchwise.Proofs.Batch.Dispatching

/-!
# One level of an execution

All batchers of an execution dispatch together, and are looked at together until every tick has
ended.  What happens to one batcher is one dispatch of its own, whatever happens to the others
and in whatever order they are looked at.

* `Registry.services`      the services of the batched bindings;
* `Execution.Each`         a property of the batcher of each service;
* `Execution.InFlight`     each batcher has dispatched what it had collected, and the dispatch
                           knows the number of its tick;
* `part_resume`, `ended_resume`   what going on with a dispatch keeps of each part, and when it ends
                           all of them;
* `inFlight_dispatchAll`, `InFlight.resume`, `InFlight.idle`, `InFlight.result`   from the dispatch
                           to its end.
-/

set_option linter.unusedSectionVars false

namespace Batchwise

variable {S C : Type}

/-! ### services of a registry -/

namespace Registry

/-- the services of the batched bindings, in order of registration. -/
def services (r : Registry S C) : List (Service S C) := r.bindings.filterMap Service.ofBinding?

variable {r : Registry S C}

theorem mem_services {s : Service S C} :
    s ∈ r.services ↔ ∃ b ∈ r.bindings, Service.ofBinding? b = some s := List.mem_filterMap

theorem mem_services_of_batched {b : Binding S C} (hb : b ∈ r.bindings) {shape : Shape}
    {run : Call (List S) C → Deferred (BatchOutcome S)} (h : b.resolver = .batched shape run) :
    (⟨b, shape, run⟩ : Service S C) ∈ r.services := by
  refine mem_services.mpr ⟨b, hb, ?_⟩
  unfold Service.ofBinding?
  rw [h]

theorem batched_of_services {s : Service S C} (hs : s ∈ r.services) :
    s.binding ∈ r.bindings ∧ s.binding.resolver = .batched s.shape s.run := by
  obtain ⟨b, hb, hof⟩ := mem_services.mp hs
  obtain ⟨rfl, hresolver⟩ := Service.ofBinding?_eq_some hof
  exact ⟨hb, hresolver⟩

theorem Sound.fits_of_services (hr : r.Sound) {s : Service S C} (h : s ∈ r.services) : s.Fits := by
  obtain ⟨b, hb, hs⟩ := mem_services.mp h
  exact Service.fits_of_mem hr hb hs

theorem Sound.service_eq_of_id (hr : r.Sound) {s s' : Service S C} (h : s ∈ r.services)
    (h' : s' ∈ r.services) (hid : s.id = s'.id) : s = s' := by
  obtain ⟨b, hb, hs⟩ := mem_services.mp h
  obtain ⟨b', hb', hs'⟩ := mem_services.mp h'
  have hbinding : b.id = b'.id := by
    rw [← (Service.ofBinding?_eq_some hs).1, ← (Service.ofBinding?_eq_some hs').1]
    exact hid
  have heq := hr.eq_of_id hb hb' hbinding
  rw [← heq, hs] at hs'
  exact Option.some.inj hs'

theorem Sound.nodup_service_ids (hr : r.Sound) : (r.services.map Service.id).Nodup := by
  have hids := hr.nodup_ids
  unfold List.Nodup services at *
  rw [List.pairwise_map] at hids ⊢
  rw [List.pairwise_filterMap]
  refine hids.imp fun {b b'} hne s hs s' hs' heq => hne ?_
  rw [← (Service.ofBinding?_eq_some hs).1, ← (Service.ofBinding?_eq_some hs').1]
  exact heq

/-- the batched bindings are numbered as their services. -/
theorem ids_services (r : Registry S C) :
    r.services.map Service.id = (r.bindings.filter Binding.isBatched).map Binding.id := by
  unfold services
  rw [List.map_filterMap, ← List.filterMap_eq_map, List.filterMap_filter]
  refine List.filterMap_congr fun b _ => ?_
  unfold Service.ofBinding? Binding.isBatched Resolver.isBatched
  cases b.resolver <;> rfl

end Registry

/-! ### parts by number -/

namespace Run

theorem part?_update (run : Run) (resolver : Nat) (dispatch : Dispatch) (arrivals : List Gate)
    (n : Nat) : (run.update resolver dispatch arrivals).part? n =
      if n = resolver then (run.part? n).map fun _ => ⟨resolver, dispatch⟩ else run.part? n :=
  find?_map_replace RunPart.resolver ⟨resolver, dispatch⟩ run.parts n

theorem mem_wokenFirst {run : Run} {n : Nat} (h : n ∈ run.resolvers) : n ∈ run.wokenFirst := by
  unfold wokenFirst
  rw [List.mem_append, List.mem_filter]
  by_cases hw : n ∈ run.woken
  · exact Or.inl hw
  · exact Or.inr ⟨h, by simp [hw]⟩

theorem mem_resolvers {run : Run} {n : Nat} {p : RunPart} (h : run.part? n = some p) :
    n ∈ run.resolvers := by
  have hid : p.resolver = n := number_of_find? h
  exact List.mem_map.mpr ⟨p, List.mem_of_find?_eq_some h, hid⟩

end Run

variable [DecidableEq S] [DecidableEq C]

namespace Execution

theorem id_of_batcher? {e : Execution S C} {n : Nat} {b : Batcher S C}
    (h : e.batcher? n = some b) : b.id = n :=
  number_of_find? h

theorem batcher?_replace (e : Execution S C) (b : Batcher S C) (n : Nat) :
    (e.replace b).batcher? n =
      if n = b.id then (e.batcher? n).map fun _ => b else e.batcher? n :=
  find?_map_replace Batcher.id b e.batchers n

theorem batcher?_replace_self {e : Execution S C} {b b' : Batcher S C} {n : Nat}
    (h : e.batcher? n = some b) (hid : b'.id = n) : (e.replace b').batcher? n = some b' := by
  rw [batcher?_replace, if_pos hid.symm, h]
  rfl

theorem batcher?_replace_other {e : Execution S C} {b : Batcher S C} {n : Nat} (h : n ≠ b.id) :
    (e.replace b).batcher? n = e.batcher? n := by
  rw [batcher?_replace, if_neg h]

theorem ids_replace (e : Execution S C) (b : Batcher S C) :
    (e.replace b).batchers.map Batcher.id = e.batchers.map Batcher.id := by
  show (e.batchers.map _).map Batcher.id = _
  rw [List.map_map]
  refine List.map_congr_left fun c _ => ?_
  show (if c.id == b.id then b else c).id = c.id
  by_cases h : c.id = b.id
  · simp [h]
  · simp [h]

/-! ### all batchers -/

/-- there is one batcher for each service, and it has the property. -/
structure Each (r : Registry S C) (P : Service S C → Batcher S C → Prop) (e : Execution S C) :
    Prop where
  ids : e.batchers.map Batcher.id = r.services.map Service.id
  holds : ∀ s ∈ r.services, ∃ b, e.batcher? s.id = some b ∧ P s b

theorem Each.mono {r : Registry S C} {P Q : Service S C → Batcher S C → Prop} {e : Execution S C}
    (h : e.Each r P) (hPQ : ∀ s b, P s b → Q s b) : e.Each r Q :=
  ⟨h.ids, fun s hs =>
    let ⟨b, hb, hP⟩ := h.holds s hs
    ⟨b, hb, hPQ s b hP⟩⟩

theorem Each.nodup_ids {r : Registry S C} (hr : r.Sound) {P : Service S C → Batcher S C → Prop}
    {e : Execution S C} (h : e.Each r P) : (e.batchers.map Batcher.id).Nodup := by
  rw [h.ids]
  exact hr.nodup_service_ids

omit [DecidableEq S] [DecidableEq C] in
theorem ids_ofRegistry (r : Registry S C) :
    (ofRegistry r).batchers.map Batcher.id = r.services.map Service.id := by
  show ((r.services.map _).map Batcher.id) = _
  rw [List.map_map]
  rfl

omit [DecidableEq S] [DecidableEq C] in
/-- a fresh execution has a new batcher for each service. -/
theorem batcher?_ofRegistry_of_mem {r : Registry S C} (hr : r.Sound) {s : Service S C}
    (hs : s ∈ r.services) : (ofRegistry r).batcher? s.id =
      some (Batcher.new r.settings.maxConcurrentGroups s) := by
  have hmem : Batcher.new r.settings.maxConcurrentGroups s ∈ (ofRegistry r).batchers :=
    List.mem_map_of_mem hs
  have hd : ((ofRegistry r).batchers.map Batcher.id).Nodup :=
    ids_ofRegistry r ▸ hr.nodup_service_ids
  exact find?_number_of_mem hd hmem

theorem each_ofRegistry {r : Registry S C} (hr : r.Sound) :
    (ofRegistry r).Each r fun s b => b.Idle s :=
  ⟨ids_ofRegistry r, fun s hs =>
    ⟨_, batcher?_ofRegistry_of_mem hr hs, ⟨rfl, Batcher.sound_new _ s, rfl, rfl⟩⟩⟩

/-! ### dispatches in flight -/

/-- how far a batcher is with what it had collected: there was nothing, or the dispatch knows its
tick, which still runs or has ended. -/
inductive Part (s : Service S C) (b b' : Batcher S C) : Option RunPart → Prop
  | nothing (hnil : b.pending.entries = []) (heq : b' = b) : Part s b b' none
  | running (hne : b.pending.entries ≠ []) (h : Batcher.Dispatching b b')
      (htick : ∃ t, b'.tick? b.ticks = some t) : Part s b b' (some ⟨s.id, .running b.ticks⟩)
  | ended (hne : b.pending.entries ≠ []) (h : Batcher.Dispatching b b')
      (htick : b'.tick? b.ticks = none) (result : Except DispatchError Summary) :
      Part s b b' (some ⟨s.id, .ended result⟩)

/-- every batcher of `e` has dispatched what it had collected, and is looked at. -/
structure InFlight (r : Registry S C) (context : C) (e e' : Execution S C) (run : Run) :
    Prop where
  ids : e'.batchers.map Batcher.id = r.services.map Service.id
  parts : ∀ s ∈ r.services, ∃ b b', e.batcher? s.id = some b ∧ e'.batcher? s.id = some b' ∧
    b.Collecting s context ∧ Part s b b' (run.part? s.id)

theorem part_poll {s : Service S C} {context : C} {b b' : Batcher S C}
    (hb : b.Collecting s context) (hne : b.pending.entries ≠ []) (h : Batcher.Dispatching b b')
    {t : Tick S C} (ht : b'.tick? b.ticks = some t) (isOpen : Gate → Bool) :
    Part s b (b'.poll isOpen b.ticks).batcher
      (some ⟨s.id, (b'.poll isOpen b.ticks).dispatch⟩) := by
  have hsound := h.sound hb.sound
  have htick := Batcher.tick?_poll isOpen ht
  have hdispatching := h.poll isOpen
  cases hdone : (t.poll b'.service isOpen).tick.isDone with
  | true =>
    rw [hdone, if_pos rfl] at htick
    rw [Batcher.poll_of_done ht hdone] at htick hdispatching ⊢
    exact .ended hne hdispatching htick _
  | false =>
    rw [hdone, if_neg Bool.false_ne_true] at htick
    rw [Batcher.poll_of_open ht hdone] at htick hdispatching ⊢
    exact .running hne hdispatching ⟨_, htick⟩

/-! ### dispatching all -/

theorem part_dispatch {s : Service S C} {context : C} {b : Batcher S C}
    (hb : b.Collecting s context) (isOpen : Gate → Bool) (hne : b.pending.entries ≠ []) :
    Part s b (b.dispatch isOpen).batcher (some ⟨s.id, (b.dispatch isOpen).dispatch⟩) := by
  obtain ⟨e, he⟩ := List.exists_mem_of_ne_nil _ hne
  obtain ⟨hdispatch, htick⟩ := Batcher.tick?_beginTick hb.sound he hb.sameContext
  obtain ⟨hbatcher, hended⟩ := Batcher.dispatch_eq b isOpen hdispatch
  rw [hbatcher, hended]
  exact part_poll hb hne ⟨[], rfl⟩ htick isOpen

/-- one batcher after all of them dispatched. -/
def dispatched (isOpen : Gate → Bool) (b : Batcher S C) : Batcher S C :=
  if b.hasPending then (b.dispatch isOpen).batcher else b

/-- the part of one batcher after all of them dispatched. -/
def dispatchedPart (isOpen : Gate → Bool) (b : Batcher S C) : Option RunPart :=
  if b.hasPending then some ⟨b.id, (b.dispatch isOpen).dispatch⟩ else none

theorem dispatchList_eq (isOpen : Gate → Bool) (bs : List (Batcher S C)) :
    (dispatchList isOpen bs).1 = bs.map (dispatched isOpen) ∧
      (dispatchList isOpen bs).2.1.parts = bs.filterMap (dispatchedPart isOpen) := by
  induction bs with
  | nil => exact ⟨rfl, rfl⟩
  | cons b bs ih =>
    rw [dispatchList, List.map_cons, List.filterMap_cons]
    unfold dispatched dispatchedPart at *
    dsimp only
    by_cases h : b.hasPending = true
    · rw [if_pos h, if_pos h, if_pos h]
      exact ⟨congrArg _ ih.1, congrArg _ ih.2⟩
    · rw [if_neg h, if_neg h, if_neg h]
      exact ⟨congrArg _ ih.1, ih.2⟩

theorem id_dispatched (isOpen : Gate → Bool) (b : Batcher S C) :
    (dispatched isOpen b).id = b.id := by
  unfold dispatched
  split
  · exact congrArg Service.id (Batcher.service_dispatch b isOpen)
  · rfl

theorem find?_dispatchedPart (isOpen : Gate → Bool) {bs : List (Batcher S C)}
    (hd : (bs.map Batcher.id).Nodup) (n : Nat) :
    (bs.filterMap (dispatchedPart isOpen)).find? (fun p => p.resolver == n) =
      (bs.find? fun b => b.id == n).bind (dispatchedPart isOpen) := by
  induction bs with
  | nil => rfl
  | cons b bs ih =>
    rw [List.map_cons, List.nodup_cons] at hd
    have hrest := ih hd.2
    rw [List.filterMap_cons, find?_number_cons Batcher.id]
    by_cases hn : b.id = n
    · rw [if_pos hn, Option.bind_some]
      cases hpart : dispatchedPart isOpen b with
      | some p =>
        have hp : p.resolver = n := by
          unfold dispatchedPart at hpart
          split at hpart
          · cases hpart
            exact hn
          · cases hpart
        exact (find?_number_cons RunPart.resolver p _ n).trans (if_pos hp)
      | none =>
        have hnone : bs.find? (fun b => b.id == n) = none := find?_number_eq_none (hn ▸ hd.1)
        dsimp only
        rw [hrest, hnone]
        rfl
    · rw [if_neg hn]
      cases hpart : dispatchedPart isOpen b with
      | some p =>
        have hp : p.resolver ≠ n := by
          unfold dispatchedPart at hpart
          split at hpart
          · cases hpart
            exact hn
          · cases hpart
        exact ((find?_number_cons RunPart.resolver p _ n).trans (if_neg hp)).trans hrest
      | none => exact hrest

theorem batcher?_dispatchAll (e : Execution S C) (isOpen : Gate → Bool) (n : Nat) :
    (e.dispatchAll isOpen).execution.batcher? n = (e.batcher? n).map (dispatched isOpen) := by
  show (dispatchList isOpen e.batchers).1.find? _ = _
  rw [(dispatchList_eq isOpen e.batchers).1]
  exact find?_number_map Batcher.id (id_dispatched isOpen) e.batchers n

theorem part?_dispatchAll {e : Execution S C} (hd : (e.batchers.map Batcher.id).Nodup)
    (isOpen : Gate → Bool) (n : Nat) : (e.dispatchAll isOpen).run.part? n
      = (e.batcher? n).bind (dispatchedPart isOpen) := by
  show (dispatchList isOpen e.batchers).2.1.parts.find? _ = _
  rw [(dispatchList_eq isOpen e.batchers).2]
  exact find?_dispatchedPart isOpen hd n

/-- **All batchers dispatch what they had collected.** -/
theorem inFlight_dispatchAll {r : Registry S C} (hr : r.Sound) {context : C} {e : Execution S C}
    (he : e.Each r fun s b => b.Collecting s context) (isOpen : Gate → Bool) :
    InFlight r context e (e.dispatchAll isOpen).execution (e.dispatchAll isOpen).run := by
  refine ⟨?_, fun s hs => ?_⟩
  · show (dispatchList isOpen e.batchers).1.map Batcher.id = _
    rw [(dispatchList_eq isOpen e.batchers).1, List.map_map, ← he.ids]
    exact List.map_congr_left fun b _ => id_dispatched isOpen b
  · obtain ⟨b, hb, hcollecting⟩ := he.holds s hs
    have hb' : (e.dispatchAll isOpen).execution.batcher? s.id = some (dispatched isOpen b) := by
      rw [batcher?_dispatchAll, hb]
      rfl
    have hpart : (e.dispatchAll isOpen).run.part? s.id = dispatchedPart isOpen b := by
      rw [part?_dispatchAll (he.nodup_ids hr), hb]
      rfl
    refine ⟨b, _, hb, hb', hcollecting, ?_⟩
    rw [hpart]
    unfold dispatched dispatchedPart Batcher.hasPending Table.isEmpty
    by_cases hnil : b.pending.entries = []
    · rw [hnil]
      exact .nothing hnil rfl
    · have hpending : (!b.pending.entries.isEmpty) = true := by
        cases hentries : b.pending.entries with
        | nil => exact absurd hentries hnil
        | cons _ _ => rfl
      rw [if_pos hpending, if_pos hpending, id_of_batcher? hb]
      exact part_dispatch hcollecting isOpen hnil

/-! ### going on with one part after the other -/

/-- the part of a number, if there is one, has ended. -/
def Ended (run : Run) (n : Nat) : Prop :=
  ∀ p, run.part? n = some p → ∃ result, p.dispatch = .ended result

section

variable {n : Nat} {R : Batcher S C → Option RunPart → Prop} {isOpen : Gate → Bool}

/-- what a look keeps of one batcher and its part is kept, whatever part is gone on with. -/
theorem part_resumePart
    (hpoll : ∀ b number, R b (some ⟨n, .running number⟩) →
      R (b.poll isOpen number).batcher (some ⟨n, (b.poll isOpen number).dispatch⟩))
    {st : Step S C} (h : ∃ b, st.execution.batcher? n = some b ∧ R b (st.run.part? n))
    (resolver : Nat) : ∃ b, (resumePart isOpen st resolver).execution.batcher? n = some b ∧
      R b ((resumePart isOpen st resolver).run.part? n) := by
  obtain ⟨b, hb, hR⟩ := h
  unfold resumePart
  split
  · rename_i k number c hpart hc
    dsimp only
    have hk : k = resolver := number_of_find? hpart
    have hid : (c.poll isOpen number).batcher.id = c.id :=
      congrArg Service.id (Batcher.service_after c (m := .poll isOpen number) fun _ h => by cases h)
    by_cases hn : n = resolver
    · subst hn
      subst hk
      have heq : b = c := Option.some.inj (hb.symm.trans hc)
      subst heq
      rw [hpart] at hR
      refine ⟨_, batcher?_replace_self hb (hid.trans (id_of_batcher? hb)), ?_⟩
      rw [Run.part?_update, if_pos rfl, hpart]
      exact hpoll b number hR
    · refine ⟨b, ?_, ?_⟩
      · refine (batcher?_replace_other fun h => hn ?_).trans hb
        exact h.trans (hid.trans (id_of_batcher? hc))
      · rw [Run.part?_update, if_neg hn]
        exact hR
  · exact ⟨b, hb, hR⟩

theorem part_fold
    (hpoll : ∀ b number, R b (some ⟨n, .running number⟩) →
      R (b.poll isOpen number).batcher (some ⟨n, (b.poll isOpen number).dispatch⟩))
    (order : List Nat) {st : Step S C}
    (h : ∃ b, st.execution.batcher? n = some b ∧ R b (st.run.part? n)) :
    ∃ b, (order.foldl (resumePart isOpen) st).execution.batcher? n = some b ∧
      R b ((order.foldl (resumePart isOpen) st).run.part? n) := by
  induction order generalizing st with
  | nil => exact h
  | cons k order ih => exact ih (part_resumePart hpoll h k)

/-- **All parts are gone on with**, in whatever order. -/
theorem part_resume
    (hpoll : ∀ b number, R b (some ⟨n, .running number⟩) →
      R (b.poll isOpen number).batcher (some ⟨n, (b.poll isOpen number).dispatch⟩))
    {e : Execution S C} {run : Run} (h : ∃ b, e.batcher? n = some b ∧ R b (run.part? n)) :
    ∃ b, (resume isOpen e run).execution.batcher? n = some b ∧
      R b ((resume isOpen e run).run.part? n) :=
  part_fold hpoll _ h

theorem ids_resumePart (st : Step S C) (resolver : Nat) :
    (resumePart isOpen st resolver).execution.batchers.map Batcher.id
      = st.execution.batchers.map Batcher.id := by
  unfold resumePart
  split
  · exact ids_replace _ _
  · rfl

theorem ids_resume (e : Execution S C) (run : Run) :
    (resume isOpen e run).execution.batchers.map Batcher.id = e.batchers.map Batcher.id := by
  have hfold : ∀ (order : List Nat) (st : Step S C),
      (order.foldl (resumePart isOpen) st).execution.batchers.map Batcher.id
        = st.execution.batchers.map Batcher.id := by
    intro order
    induction order with
    | nil => exact fun _ => rfl
    | cons k order ih => exact fun st => (ih _).trans (ids_resumePart st k)
  exact hfold _ _

theorem Ended.resumePart {st : Step S C} (h : Ended st.run n) (resolver : Nat) :
    Ended (resumePart isOpen st resolver).run n := by
  unfold Execution.resumePart
  split
  · rename_i _ number b hpart _
    intro p hp
    dsimp only at hp
    rw [Run.part?_update] at hp
    split at hp
    · -- the part that went on had not ended
      rename_i heq
      subst heq
      obtain ⟨result, hresult⟩ := h _ hpart
      cases hresult
    · exact h p hp
  · exact h

/-- a part that ends when it is looked at ends when it is gone on with. -/
theorem ended_resumePart
    (hlast : ∀ b number, R b (some ⟨n, .running number⟩) →
      ∃ result, (b.poll isOpen number).dispatch = .ended result)
    {st : Step S C} (h : ∃ b, st.execution.batcher? n = some b ∧ R b (st.run.part? n)) :
    Ended (resumePart isOpen st n).run n := by
  obtain ⟨b, hb, hR⟩ := h
  intro p hp
  unfold resumePart at hp
  cases hpart : st.run.part? n with
  | none =>
    rw [hpart] at hp
    dsimp only at hp
    rw [hpart] at hp
    cases hp
  | some q =>
    obtain ⟨k, dispatch⟩ := q
    have hk : k = n := number_of_find? hpart
    subst hk
    rw [hpart, hb] at hp
    cases dispatch with
    | running number =>
      dsimp only at hp
      rw [Run.part?_update, if_pos rfl, hpart, Option.map_some] at hp
      cases hp
      rw [hpart] at hR
      exact hlast b number hR
    | ended result =>
      dsimp only at hp
      rw [hpart] at hp
      cases hp
      exact ⟨result, rfl⟩

theorem ended_fold
    (hpoll : ∀ b number, R b (some ⟨n, .running number⟩) →
      R (b.poll isOpen number).batcher (some ⟨n, (b.poll isOpen number).dispatch⟩))
    (hlast : ∀ b number, R b (some ⟨n, .running number⟩) →
      ∃ result, (b.poll isOpen number).dispatch = .ended result)
    (order : List Nat) {st : Step S C}
    (h : ∃ b, st.execution.batcher? n = some b ∧ R b (st.run.part? n))
    (hn : n ∈ order ∨ Ended st.run n) : Ended (order.foldl (resumePart isOpen) st).run n := by
  induction order generalizing st with
  | nil => exact hn.resolve_left List.not_mem_nil
  | cons k order ih =>
    refine ih (part_resumePart hpoll h k) ?_
    rcases hn with hn | hn
    · rcases List.mem_cons.mp hn with rfl | hn
      · exact Or.inr (ended_resumePart hlast h)
      · exact Or.inl hn
    · exact Or.inr (hn.resumePart k)

/-- **The last look ends every part.** -/
theorem ended_resume
    (hpoll : ∀ b number, R b (some ⟨n, .running number⟩) →
      R (b.poll isOpen number).batcher (some ⟨n, (b.poll isOpen number).dispatch⟩))
    (hlast : ∀ b number, R b (some ⟨n, .running number⟩) →
      ∃ result, (b.poll isOpen number).dispatch = .ended result)
    {e : Execution S C} {run : Run} (h : ∃ b, e.batcher? n = some b ∧ R b (run.part? n)) :
    Ended (resume isOpen e run).run n := by
  refine ended_fold hpoll hlast _ h ?_
  cases hpart : run.part? n with
  | none =>
    refine Or.inr fun p hp => ?_
    have hp' : run.part? n = some p := hp
    rw [hpart] at hp'
    cases hp'
  | some p =>
    have hmem : n ∈ (run.wake isOpen).resolvers := Run.mem_resolvers hpart
    left
    split
    · exact Run.mem_wokenFirst hmem
    · exact hmem

end

/-! ### looking at all -/

/-- a look at the tick of a part keeps what is known of it. -/
theorem Part.look {s : Service S C} {context : C} {b b' : Batcher S C} {n number : Nat}
    (hb : b.Collecting s context) (h : Part s b b' (some ⟨n, .running number⟩))
    (isOpen : Gate → Bool) : Part s b (b'.poll isOpen number).batcher
      (some ⟨n, (b'.poll isOpen number).dispatch⟩) := by
  obtain ⟨⟩ | ⟨hne, hd, t, ht⟩ := h
  exact part_poll hb hne hd ht isOpen

theorem Part.last {s : Service S C} {context : C} {b b' : Batcher S C} {n number : Nat}
    (hb : b.Collecting s context) (h : Part s b b' (some ⟨n, .running number⟩)) :
    ∃ result, (b'.poll (fun _ => true) number).dispatch = .ended result := by
  obtain ⟨⟩ | ⟨_, hd, t, ht⟩ := h
  obtain ⟨summary, hended⟩ := Batcher.ended_of_allOpen (hd.sound hb.sound) ht
  exact ⟨.ok summary, hended⟩

theorem InFlight.resumePart {r : Registry S C} {context : C} {e : Execution S C} {st : Step S C}
    (h : InFlight r context e st.execution st.run) (isOpen : Gate → Bool) (resolver : Nat) :
    InFlight r context e (resumePart isOpen st resolver).execution
      (resumePart isOpen st resolver).run := by
  refine ⟨(ids_resumePart st resolver).trans h.ids, fun s hs => ?_⟩
  obtain ⟨b, b', hb, hb', hcollecting, hpart⟩ := h.parts s hs
  obtain ⟨c, hc, hpart'⟩ := part_resumePart (R := Part s b)
    (fun c number hc => hc.look hcollecting isOpen) ⟨b', hb', hpart⟩ resolver
  exact ⟨b, c, hb, hc, hcollecting, hpart'⟩

/-- **All batchers are looked at once more**, in whatever order. -/
theorem InFlight.resume {r : Registry S C} {context : C} {e e' : Execution S C} {run : Run}
    (h : InFlight r context e e' run) (isOpen : Gate → Bool) :
    InFlight r context e (Execution.resume isOpen e' run).execution
      (Execution.resume isOpen e' run).run := by
  refine ⟨(ids_resume e' run).trans h.ids, fun s hs => ?_⟩
  obtain ⟨b, b', hb, hb', hcollecting, hpart⟩ := h.parts s hs
  obtain ⟨c, hc, hpart'⟩ := part_resume (R := Part s b)
    (fun c number hc => hc.look hcollecting isOpen) ⟨b', hb', hpart⟩
  exact ⟨b, c, hb, hc, hcollecting, hpart'⟩

/-! ### the last look -/

theorem InFlight.ended_resume {r : Registry S C} {context : C} {e e' : Execution S C} {run : Run}
    (h : InFlight r context e e' run) {s : Service S C} (hs : s ∈ r.services) :
    Ended (Execution.resume (fun _ => true) e' run).run s.id := by
  obtain ⟨b, b', _, hb', hcollecting, hpart⟩ := h.parts s hs
  exact Execution.ended_resume (R := Part s b) (fun c number hc => hc.look hcollecting _)
    (fun c number hc => hc.last hcollecting) ⟨b', hb', hpart⟩

theorem ended_dispatchAll {r : Registry S C} (hr : r.Sound) {context : C} {e : Execution S C}
    (he : e.Each r fun s b => b.Collecting s context) {s : Service S C} (hs : s ∈ r.services) :
    Ended (e.dispatchAll fun _ => true).run s.id := by
  obtain ⟨b, hb, hcollecting⟩ := he.holds s hs
  intro p hp
  rw [part?_dispatchAll (he.nodup_ids hr), hb, Option.bind_some] at hp
  unfold dispatchedPart at hp
  split at hp
  · rename_i hpending
    cases hp
    have hne : b.pending.entries ≠ [] := fun hnil => by
      unfold Batcher.hasPending Table.isEmpty at hpending
      rw [hnil] at hpending
      cases hpending
    obtain ⟨c, hc⟩ := List.exists_mem_of_ne_nil _ hne
    obtain ⟨hdispatch, htick⟩ := Batcher.tick?_beginTick hcollecting.sound hc
      hcollecting.sameContext
    obtain ⟨summary, hended⟩ := Batcher.ended_of_allOpen hcollecting.sound.beginTick htick
    refine ⟨.ok summary, ?_⟩
    rw [(Batcher.dispatch_eq b _ hdispatch).2]
    exact hended
  · cases hp

theorem InFlight.idle {r : Registry S C} {context : C} {e e' : Execution S C} {run : Run}
    (h : InFlight r context e e' run) (hended : ∀ s ∈ r.services, Ended run s.id) :
    e'.Each r fun s b => b.Idle s := by
  refine ⟨h.ids, fun s hs => ?_⟩
  obtain ⟨b, b', _, hb', hcollecting, hpart⟩ := h.parts s hs
  have hend := hended s hs
  refine ⟨b', hb', ?_⟩
  generalize hcases : run.part? s.id = part at hpart
  cases hpart with
  | nothing hnil heq =>
    rw [heq]
    exact hcollecting.idle hnil
  | running hne hd htick =>
    obtain ⟨_, hrunning⟩ := hend _ hcases
    cases hrunning
  | ended hne hd htick result => exact hd.idle hcollecting hne htick

/-- **When all parts have ended, each collected call has what the call of its group came back
with.** -/
theorem InFlight.result {r : Registry S C} {context : C} {e e' : Execution S C} {run : Run}
    (h : InFlight r context e e' run) (hended : ∀ s ∈ r.services, Ended run s.id)
    {s : Service S C} (hs : s ∈ r.services) {b : Batcher S C} (hb : e.batcher? s.id = some b)
    {c : Key S C × Pending} (hc : c ∈ b.pending.entries) :
    ∃ g ∈ (groupPending b.pending.entries).values, asMember c ∈ g.members ∧
      e'.result? s.id c.2.ticket
        = some (s.handed (s.run (g.call s context)).value c.1.source) := by
  obtain ⟨b₁, b', hb₁, hb', hcollecting, hpart⟩ := h.parts s hs
  have heq : b = b₁ := Option.some.inj (hb.symm.trans hb₁)
  subst heq
  have hend := hended s hs
  generalize hcases : run.part? s.id = part at hpart
  cases hpart with
  | nothing hnil _ =>
    rw [hnil] at hc
    cases hc
  | running hne hd htick =>
    obtain ⟨_, hrunning⟩ := hend _ hcases
    cases hrunning
  | ended hne hd htick result =>
    obtain ⟨g, hg, hmember, hresult⟩ := hd.ended hcollecting htick hc
    refine ⟨g, hg, hmember, ?_⟩
    unfold result?
    rw [hb', Option.bind_some]
    exact hresult

end Execution
end Batchwise
