import Batchwise.Proofs.Batch.Grouping

/-!
# One dispatch of a batcher

Within a level of a query a batcher collects calls of one context, takes them as one tick and is
looked at until the tick has ended.

* `Batcher.Collecting`    calls of one context are pending, and no tick runs;
* `Batcher.Dispatching`   the tick of these calls was begun and looked at some times;
* `Dispatching.ended`     when it has ended the batcher is idle, and each call has what the call of
                          its group came back with.
-/

set_option linter.unusedSectionVars false

namespace Batchwise

variable {S C : Type} [DecidableEq S] [DecidableEq C]

namespace Batcher

theorem service_dispatch (b : Batcher S C) (isOpen : Gate → Bool) :
    (b.dispatch isOpen).batcher.service = b.service := by
  have hbegin : b.beginTick.batcher.service = b.service :=
    service_after b (m := .beginTick) fun _ h => by cases h
  cases hdispatch : b.beginTick.dispatch with
  | ended result =>
    unfold dispatch
    dsimp only
    rw [hdispatch]
    exact hbegin
  | running number =>
    rw [(dispatch_eq b isOpen hdispatch).1]
    exact (service_after b.beginTick.batcher (m := .poll isOpen number) fun _ h => by cases h).trans
      hbegin

/-- a batcher of a service that collects calls of one context. -/
structure Collecting (s : Service S C) (context : C) (b : Batcher S C) : Prop where
  service_eq : b.service = s
  sound : b.Sound
  running_eq : b.running = []
  contexts : ∀ e ∈ b.pending.entries, e.1.context = context

/-- a batcher of a service without pending calls and running ticks. -/
structure Idle (s : Service S C) (b : Batcher S C) : Prop where
  service_eq : b.service = s
  sound : b.Sound
  running_eq : b.running = []
  pending_eq : b.pending.entries = []

namespace Collecting

variable {s : Service S C} {context : C} {b : Batcher S C}

theorem sameContext (h : b.Collecting s context) : SameContext b.pending.entries :=
  fun e he f hf => (h.contexts e he).trans (h.contexts f hf).symm

theorem idle (h : b.Collecting s context) (hnil : b.pending.entries = []) : b.Idle s :=
  ⟨h.service_eq, h.sound, h.running_eq, hnil⟩

theorem submit (h : b.Collecting s context) (source : S) (args : Args) (subfields : List Field) :
    (b.submit source args subfields context).batcher.Collecting s context := by
  have hsound := h.sound.submit source args subfields context
  have hservice : (b.submit source args subfields context).batcher.service = b.service :=
    service_after b (m := .submit source args subfields context) fun _ h => by cases h
  obtain ⟨_, ⟨_, _, _, hb⟩ | ⟨hnone, _, hb⟩⟩ := submit_cases b source args subfields context
  · refine ⟨hservice.trans h.service_eq, hsound, ?_, ?_⟩
    · rw [hb]
      exact h.running_eq
    · rw [hb]
      exact h.contexts
  · refine ⟨hservice.trans h.service_eq, hsound, ?_, ?_⟩
    · rw [hb]
      exact h.running_eq
    · rw [hb]
      intro e he
      have hentries := Table.entries_put_of_notMem
        (⟨args, b.service.binding.selectionOf subfields, b.results.size⟩ : Pending)
        (Table.find?_eq_none_iff.mp hnone)
      have he' : e ∈ (b.pending.put (b.keyOf source args subfields context) _).entries := he
      rw [hentries] at he'
      rcases List.mem_append.mp he' with he' | he'
      · exact h.contexts e he'
      · rw [List.mem_singleton.mp he']
        rfl

end Collecting

theorem Idle.collecting {s : Service S C} {b : Batcher S C} (h : b.Idle s) (context : C) :
    b.Collecting s context :=
  ⟨h.service_eq, h.sound, h.running_eq, fun e he => by rw [h.pending_eq] at he; cases he⟩

/-! ### the tick of the collected calls -/

/-- the calls that `b` collected were taken as a tick, and the tick was looked at some times. -/
def Dispatching (b b' : Batcher S C) : Prop :=
  ∃ looks : List (Gate → Bool),
    b' = b.run (.beginTick :: looks.map fun isOpen => .poll isOpen b.ticks)

namespace Dispatching

variable {s : Service S C} {context : C} {b b' : Batcher S C}

theorem poll (h : Dispatching b b') (isOpen : Gate → Bool) :
    Dispatching b (b'.poll isOpen b.ticks).batcher := by
  obtain ⟨looks, rfl⟩ := h
  refine ⟨looks ++ [isOpen], ?_⟩
  rw [List.map_append, List.map_singleton, ← List.cons_append, run_concat]
  rfl

theorem looks_only {number : Nat} {looks : List (Gate → Bool)} {m : Move S C}
    (h : m ∈ looks.map fun isOpen => .poll isOpen number) : ∃ isOpen, m = .poll isOpen number := by
  obtain ⟨isOpen, _, rfl⟩ := List.mem_map.mp h
  exact ⟨isOpen, rfl⟩

theorem service_eq (h : Dispatching b b') : b'.service = b.service := by
  obtain ⟨looks, rfl⟩ := h
  refine service_run b fun m hm run hrun => ?_
  rcases List.mem_cons.mp hm with rfl | hm
  · cases hrun
  · obtain ⟨isOpen, rfl⟩ := looks_only hm
    cases hrun

theorem sound (h : Dispatching b b') (hb : b.Sound) : b'.Sound := by
  obtain ⟨looks, rfl⟩ := h
  exact sound_run hb _

theorem taken (h : Dispatching b b') (hb : b.Collecting s context)
    (hne : b.pending.entries ≠ []) :
    b'.pending.entries = [] ∧ ∀ t ∈ b'.running, t.number = b.ticks := by
  obtain ⟨looks, rfl⟩ := h
  rw [run_cons]
  induction looks using List.reverseRecOn with
  | nil =>
    show b.beginTick.batcher.pending.entries = [] ∧ ∀ t ∈ b.beginTick.batcher.running, _
    rcases beginTick_cases b with ⟨hnil, _⟩ | ⟨_, _, e, _, hb'⟩ | ⟨hdiff, _⟩
    · exact absurd hnil hne
    · rw [hb']
      refine ⟨rfl, fun t ht => ?_⟩
      have ht' : t ∈ b.running ++ [b.formTick e.1.context b.pending.entries] := ht
      rw [hb.running_eq, List.nil_append] at ht'
      rw [List.mem_singleton.mp ht']
      rfl
    · exact absurd hb.sameContext hdiff
  | append_singleton looks isOpen ih =>
    rw [List.map_append, List.map_singleton, run_concat]
    obtain ⟨hpending, hnumbers⟩ := ih
    generalize (b.after .beginTick).run (looks.map fun isOpen => .poll isOpen b.ticks) = c at *
    show (c.poll isOpen b.ticks).batcher.pending.entries = [] ∧
      ∀ t ∈ (c.poll isOpen b.ticks).batcher.running, _
    rcases poll_cases c isOpen b.ticks with ⟨_, hc, _⟩ | ⟨t, ht, _, ⟨_, _, hc⟩ | ⟨_, _, hc⟩⟩
    · rw [hc]
      exact ⟨hpending, hnumbers⟩
    · rw [hc]
      exact ⟨hpending, fun u hu => hnumbers u (List.mem_filter.mp hu).1⟩
    · rw [hc]
      refine ⟨hpending, fun u hu => ?_⟩
      obtain ⟨v, hv, rfl⟩ := List.mem_map.mp hu
      have ht' : (t.poll c.service isOpen).tick.number = b.ticks := hnumbers t (mem_of_tick? ht)
      split
      · exact ht'
      · exact hnumbers v hv

theorem idle (h : Dispatching b b') (hb : b.Collecting s context) (hne : b.pending.entries ≠ [])
    (hended : b'.tick? b.ticks = none) : b'.Idle s := by
  obtain ⟨hpending, hnumbers⟩ := h.taken hb hne
  refine ⟨h.service_eq.trans hb.service_eq, h.sound hb.sound, ?_, hpending⟩
  rw [List.eq_nil_iff_forall_not_mem]
  intro t ht
  have hfind := List.find?_eq_none.mp hended t ht
  exact hfind (beq_iff_eq.mpr (hnumbers t ht))

/-- **When the tick has ended each call has what the call of its group came back with.** -/
theorem ended (h : Dispatching b b') (hb : b.Collecting s context)
    (hended : b'.tick? b.ticks = none) {e : Key S C × Pending} (he : e ∈ b.pending.entries) :
    ∃ g ∈ (groupPending b.pending.entries).values, asMember e ∈ g.members ∧
      b'.result? e.2.ticket
        = some (s.handed (s.run (g.call s context)).value e.1.source) := by
  obtain ⟨_, htick⟩ := tick?_beginTick hb.sound he hb.sameContext
  obtain ⟨g, hg, _, hmember⟩ := exists_mem_members he
  refine ⟨g, hg, hmember, ?_⟩
  obtain ⟨looks, rfl⟩ := h
  have hns : .drop b.ticks ∉ looks.map fun isOpen => (.poll isOpen b.ticks : Move S C) := fun h => by
    obtain ⟨_, h⟩ := looks_only h
    cases h
  have hbegun := hb.sound.beginTick
  have hservice : b.beginTick.batcher.service = s :=
    (service_after b (m := .beginTick) fun _ h => by cases h).trans hb.service_eq
  obtain ⟨ended, hfollowed⟩ := followed_run hbegun htick rfl _ hns
  have hnone : (b.beginTick.batcher.run (looks.map fun isOpen => .poll isOpen b.ticks)).tick?
      b.ticks = none := hended
  show (b.beginTick.batcher.run _).result? _ = _
  rcases hfollowed.cases hbegun hg hmember with ⟨hopen, _⟩ | ⟨outcome, hmade, hresult⟩
  · rw [openGroups_of_none hnone] at hopen
    cases hopen
  · obtain ⟨before, isOpen, later, hmoves, _, hanswered⟩ := hmade
    -- the function in force when the call was made is that of the service
    have hbefore : (b.beginTick.batcher.run before).service = s := by
      refine (service_run _ fun m hm run hrun => ?_).trans hservice
      obtain ⟨_, rfl⟩ := looks_only (hmoves ▸ List.mem_append_left _ hm)
      cases hrun
    rw [hbefore] at hanswered
    have houtcome : outcome = (s.run (g.call s e.1.context)).value := congrArg Prod.snd hanswered
    rw [hservice, houtcome, hb.contexts e he] at hresult
    exact hresult

end Dispatching
end Batcher
end Batchwise
