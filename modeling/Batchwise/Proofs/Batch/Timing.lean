import Batchwise.Proofs.Batch.Grouping
import Batchwise.Proofs.Batch.Trace

/-!
# Ticks and the time their calls take

If the outcome of a call depends on the call alone, then so does what a tick comes to: it is the
same whenever the calls of its groups come back, in whatever order, and however many of them are
made at a time.

* `Service.Retimed`        two services whose calls come back with the same, each in its own time;
* `Tick.account`           what a tick will have amounted to: `account_poll`,
                           `Batcher.account_after`, `account_run`;
* `Service.verdict`, `Service.fate`   what a dispatch gives, and what each of its calls comes to;
* `Batcher.intake_run`     what is pending depends on submissions and dispatches alone;
* `Batcher.Returns`        a dispatch has returned: `Returns.spec`, `returns_alike`.
-/

set_option linter.unusedSectionVars false

namespace Batchwise

variable {S C : Type} [DecidableEq S] [DecidableEq C]

/-! ### other times -/

/-- the same service but for the time at which its calls come back. -/
structure Service.Retimed (s s' : Service S C) : Prop where
  id_eq : s'.id = s.id
  name_eq : s'.name = s.name
  signature_eq : s'.binding.signature = s.binding.signature
  shape_eq : s'.shape = s.shape
  value_eq : ∀ call, (s'.run call).value = (s.run call).value

/-- a move that leaves the outcomes of calls alone. -/
def Move.Steady (s : Service S C) : Move S C → Prop
  | .answer run => ∀ call, (run call).value = (s.run call).value
  | _ => True

namespace Service.Retimed

variable {s s' : Service S C}

theorem refl (s : Service S C) : s.Retimed s := ⟨rfl, rfl, rfl, rfl, fun _ => rfl⟩

theorem answered_eq (h : s.Retimed s') : s'.answered = s.answered := by
  funext context g
  unfold Service.answered
  rw [h.value_eq, Group.call_congr h.shape_eq]

theorem handed_eq (h : s.Retimed s') (outcome : BatchOutcome S) (source : S) :
    s'.handed outcome source = s.handed outcome source := by
  unfold Service.handed
  rw [h.name_eq]

theorem after {b : Batcher S C} (h : s.Retimed b.service) {m : Move S C} (hm : m.Steady s) :
    s.Retimed (b.after m).service := by
  by_cases hanswer : ∃ run, m = .answer run
  · obtain ⟨run, rfl⟩ := hanswer
    exact ⟨h.id_eq, h.name_eq, h.signature_eq, h.shape_eq, hm⟩
  · rw [Batcher.service_after b fun run heq => hanswer ⟨run, heq⟩]
    exact h

theorem run {b : Batcher S C} (h : s.Retimed b.service) {ms : List (Move S C)}
    (hms : ∀ m ∈ ms, m.Steady s) : s.Retimed (b.run ms).service := by
  induction ms generalizing b with
  | nil => exact h
  | cons m ms ih =>
    exact ih (h.after (hms m List.mem_cons_self)) fun n hn => hms n (List.mem_cons_of_mem m hn)

end Service.Retimed

/-! ### what a tick amounts to -/

namespace Tick

/-- what a tick will have amounted to, with the failures that are still to come. -/
def account (s : Service S C) (t : Tick S C) : Summary where
  resolver := s.id
  keys := t.keys
  groups := t.groups
  failed := t.failed + (t.running.map Running.answered ++
    t.queued.map (s.answered t.context)).countP Answered.failed

variable {s s' : Service S C}

theorem account_retimed (h : s.Retimed s') (t : Tick S C) : t.account s' = t.account s := by
  unfold account
  rw [h.id_eq, h.answered_eq]

theorem account_wake (isOpen : Gate → Bool) (t : Tick S C) :
    (t.wake isOpen).account s = t.account s := by
  have hrunning := (((running_wake isOpen t).map Running.answered).append_right
    (t.queued.map (s.answered t.context))).countP_eq Answered.failed
  exact congrArg (fun n => Summary.mk s.id t.keys t.groups (t.failed + n)) hrunning

/-- a failure that is counted is none of those to come. -/
theorem account_poll (s : Service S C) (isOpen : Gate → Bool) (t : Tick S C) :
    (t.poll s isOpen).tick.account s = t.account s := by
  obtain ⟨started, ended, hqueued, hperm, _, _, hfailed⟩ := poll_accounts s isOpen t
  have hcount := hperm.countP_eq Answered.failed
  rw [List.countP_append, List.countP_append] at hcount
  have htotal : (t.poll s isOpen).tick.failed +
      ((t.poll s isOpen).tick.running.map Running.answered ++
        (t.poll s isOpen).tick.queued.map (s.answered t.context)).countP Answered.failed =
      t.failed + (t.running.map Running.answered ++
        t.queued.map (s.answered t.context)).countP Answered.failed := by
    rw [hfailed, hqueued, List.map_append, List.countP_append, List.countP_append,
      List.countP_append]
    omega
  exact congrArg (Summary.mk s.id t.keys t.groups) htotal

theorem account_of_isDone {t : Tick S C} (h : t.isDone = true) :
    t.account s = ⟨s.id, t.keys, t.groups, t.failed⟩ := by
  obtain ⟨hqueued, hrunning⟩ := Bool.and_eq_true_iff.mp h
  unfold account
  rw [List.isEmpty_iff.mp hqueued, List.isEmpty_iff.mp hrunning]
  rfl

end Tick

namespace Batcher

variable {s s' : Service S C} {b b' : Batcher S C}

/-- **No move changes what a running tick amounts to.** -/
theorem account_after (hs : s.Retimed b.service) {number : Nat} (hlt : number < b.ticks)
    {m : Move S C} (hm : m ≠ .drop number) {u : Tick S C}
    (hu : (b.after m).tick? number = some u) :
    ∃ t, b.tick? number = some t ∧ u.account s = t.account s := by
  by_cases hpoll : ∃ isOpen, m = .poll isOpen number
  · obtain ⟨isOpen, rfl⟩ := hpoll
    rw [after_poll] at hu
    cases ht : b.tick? number with
    | none =>
      rw [poll_of_none ht, ht] at hu
      cases hu
    | some t =>
      rw [tick?_poll isOpen ht] at hu
      split at hu
      · cases hu
      · cases hu
        refine ⟨t, rfl, ?_⟩
        rw [← Tick.account_retimed hs, Tick.account_poll, Tick.account_retimed hs]
  · rcases tick?_after hlt (fun isOpen h => hpoll ⟨isOpen, h⟩) hm with hsame | ⟨isOpen, hwoken⟩
    · exact ⟨u, hsame ▸ hu, rfl⟩
    · rw [hwoken, Option.map_eq_some_iff] at hu
      obtain ⟨t, ht, rfl⟩ := hu
      exact ⟨t, ht, Tick.account_wake isOpen t⟩

theorem account_run (hs : s.Retimed b.service) {number : Nat} (hlt : number < b.ticks)
    {ms : List (Move S C)} (hms : ∀ m ∈ ms, m.Steady s) (hdrop : .drop number ∉ ms)
    {u : Tick S C} (hu : (b.run ms).tick? number = some u) :
    ∃ t, b.tick? number = some t ∧ u.account s = t.account s := by
  induction ms generalizing b with
  | nil => exact ⟨u, hu, rfl⟩
  | cons m ms ih =>
    rw [List.mem_cons, not_or] at hdrop
    have hlater : number < (b.after m).ticks := Nat.lt_of_lt_of_le hlt (carried_after b m).ticks_le
    obtain ⟨v, hv, hu⟩ := ih (hs.after (hms m List.mem_cons_self)) hlater
      (fun n hn => hms n (List.mem_cons_of_mem m hn)) hdrop.2 hu
    obtain ⟨t, ht, hv⟩ := account_after hs hlt (fun h => hdrop.1 h.symm) hv
    exact ⟨t, ht, hu.trans hv⟩

/-- a look that ends a tick gives what the tick amounts to. -/
theorem account_of_ended {isOpen : Gate → Bool} {number : Nat} {t : Tick S C}
    (ht : b.tick? number = some t) {result : Except DispatchError Summary}
    (h : (b.poll isOpen number).dispatch = .ended result) :
    result = .ok (t.account b.service) := by
  cases hdone : (t.poll b.service isOpen).tick.isDone with
  | true =>
    rw [poll_of_done ht hdone] at h
    cases h
    rw [← Tick.account_poll b.service isOpen t, Tick.account_of_isDone hdone]
    rfl
  | false =>
    rw [poll_of_open ht hdone] at h
    cases h

end Batcher

/-! ### what a dispatch comes to -/

instance (calls : List (Key S C × Pending)) : Decidable (SameContext calls) :=
  inferInstanceAs (Decidable (∀ e ∈ calls, ∀ f ∈ calls, e.1.context = f.1.context))

namespace Service

variable (s : Service S C)

/-- what a dispatch of some calls gives. -/
def verdict : List (Key S C × Pending) → Except DispatchError Summary
  | [] => .ok ⟨s.id, 0, 0, 0⟩
  | e :: es =>
    if SameContext (e :: es) then
      .ok ⟨s.id, (e :: es).length, (groupPending (e :: es)).values.length,
        ((groupPending (e :: es)).values.map (s.answered e.1.context)).countP Answered.failed⟩
    else .error (.contextDivergence s.name)

/-- what one of these calls comes to. -/
def fate (calls : List (Key S C × Pending)) (e : Key S C × Pending) : CallResult S :=
  if SameContext calls then
    s.handed (s.answered e.1.context (Group.serving (callsOf calls e.1.groupKey))).2 e.1.source
  else .error (.contextDivergence s.name)

variable {s} {s' : Service S C}

theorem Retimed.verdict_eq (h : s.Retimed s') (calls : List (Key S C × Pending)) :
    s'.verdict calls = s.verdict calls := by
  cases calls with
  | nil => rw [verdict, verdict, h.id_eq]
  | cons e es =>
    rw [verdict, verdict, h.id_eq, h.name_eq, h.answered_eq]

theorem Retimed.fate_eq (h : s.Retimed s') (calls : List (Key S C × Pending))
    (e : Key S C × Pending) : s'.fate calls e = s.fate calls e := by
  unfold fate
  rw [h.handed_eq, h.answered_eq, h.name_eq]

theorem verdict_of_same {calls : List (Key S C × Pending)} {e : Key S C × Pending}
    (he : e ∈ calls) (hsame : SameContext calls) :
    s.verdict calls = .ok ⟨s.id, calls.length, (groupPending calls).values.length,
      ((groupPending calls).values.map (s.answered e.1.context)).countP Answered.failed⟩ := by
  cases calls with
  | nil => cases he
  | cons f fs => rw [verdict, if_pos hsame, hsame e he f List.mem_cons_self]

theorem verdict_of_differ {calls : List (Key S C × Pending)} (hdiff : ¬ SameContext calls) :
    s.verdict calls = .error (.contextDivergence s.name) := by
  cases calls with
  | nil => exact absurd (fun _ he => by cases he) hdiff
  | cons e es => rw [verdict, if_neg hdiff]

end Service

namespace Batcher

/-- a dispatch of what is pending has returned with `result`: at once, or later, when its tick is
looked at and was not given up. -/
inductive Returns (s : Service S C) (b : Batcher S C) :
    Except DispatchError Summary → Batcher S C → Prop
  | atOnce {result : Except DispatchError Summary} (h : b.beginTick.dispatch = .ended result) :
      Returns s b result b.beginTick.batcher
  | later {number : Nat} {ns : List (Move S C)} {isOpen : Gate → Bool}
      {result : Except DispatchError Summary} (h : b.beginTick.dispatch = .running number)
      (hns : ∀ m ∈ ns, m.Steady s) (hdrop : .drop number ∉ ns)
      (hended : ((b.beginTick.batcher.run ns).poll isOpen number).dispatch = .ended result) :
      Returns s b result ((b.beginTick.batcher.run ns).poll isOpen number).batcher

variable {s s' : Service S C} {b b' : Batcher S C}

/-- a call that was made came back with what the function gives for it. -/
theorem CallMade.outcome_eq (hs : s.Retimed b.service) {ms : List (Move S C)}
    (hms : ∀ m ∈ ms, m.Steady s) {number : Nat} {context : C} {a : Answered S C}
    (h : CallMade b ms number context a) : a = s.answered context a.1 := by
  obtain ⟨before, isOpen, rest, rfl, _, ha⟩ := h
  have hnow : s.Retimed (b.run before).service :=
    hs.run fun m hm => hms m (List.mem_append_left _ hm)
  exact ha.trans (congrFun (congrFun hnow.answered_eq context) a.1)

theorem exists_returns (hb : b.Sound) (s : Service S C) :
    ∃ result b₁, b.Returns s result b₁ := by
  by_cases hsame : SameContext b.pending.entries
  · cases hcalls : b.pending.entries with
    | nil => exact ⟨_, _, .atOnce (congrArg Step.dispatch (beginTick_of_nil hcalls))⟩
    | cons e es =>
      obtain ⟨hrunning, htick⟩ := tick?_beginTick hb (hcalls ▸ List.mem_cons_self) hsame
      obtain ⟨_, hended⟩ := ended_of_allOpen hb.beginTick htick
      have hkept : .drop b.ticks ∉ ([] : List (Move S C)) := List.not_mem_nil
      exact ⟨_, _, .later hrunning (fun _ hm => by cases hm) hkept hended⟩
  · exact ⟨_, _, .atOnce (congrArg Step.dispatch (beginTick_of_differ hsame))⟩

theorem account_formTick (b : Batcher S C) (s : Service S C) (context : C)
    (calls : List (Key S C × Pending)) : (b.formTick context calls).account s =
      ⟨s.id, calls.length, (groupPending calls).values.length,
        ((groupPending calls).values.map (s.answered context)).countP Answered.failed⟩ :=
  congrArg (Summary.mk s.id calls.length (groupPending calls).values.length) (Nat.zero_add _)

section

variable (hb : b.Sound) (hs : s.Retimed b.service) {e : Key S C × Pending}
  (he : e ∈ b.pending.entries) (hsame : SameContext b.pending.entries) {ns : List (Move S C)}
  (hns : ∀ m ∈ ns, m.Steady s) (hdrop : .drop b.ticks ∉ ns) {isOpen : Gate → Bool}
  {result : Except DispatchError Summary}
  (hended : ((b.beginTick.batcher.run ns).poll isOpen b.ticks).dispatch = .ended result)

include hb hs he hsame hns hdrop hended

theorem verdict_of_ended : result = s.verdict b.pending.entries := by
  have hbegun : s.Retimed b.beginTick.batcher.service := hs.after (m := .beginTick) trivial
  obtain ⟨_, htick⟩ := tick?_beginTick hb he hsame
  cases hu : (b.beginTick.batcher.run ns).tick? b.ticks with
  | none =>
    rw [poll_of_none hu] at hended
    cases hended
  | some u =>
    obtain ⟨t, ht, haccount⟩ :=
      account_run hbegun (number_lt_run hb.beginTick htick []) hns hdrop hu
    cases htick.symm.trans ht
    rw [account_of_ended hu hended, Tick.account_retimed (hbegun.run hns), haccount,
      account_formTick, Service.verdict_of_same he hsame]

theorem fate_of_ended :
    ((b.beginTick.batcher.run ns).poll isOpen b.ticks).batcher.result? e.2.ticket
      = some (s.fate b.pending.entries e) := by
  have hbegun : s.Retimed b.beginTick.batcher.service := hs.after (m := .beginTick) trivial
  have hgroup : Group.serving (callsOf b.pending.entries e.1.groupKey)
      ∈ (groupPending b.pending.entries).values :=
    mem_groups.mpr ⟨e.1.groupKey, mem_groupKeys.mpr ⟨e, he, rfl⟩, rfl⟩
  have hmember : asMember e ∈ (Group.serving (callsOf b.pending.entries e.1.groupKey)).members :=
    (asMember_mem_serving b.pending.distinct he).mpr rfl
  obtain ⟨outcome, hmade, hresult⟩ := result_of_ended hb he hsame hgroup hmember hdrop hended
  have hmoves : ∀ m ∈ ns ++ [.poll isOpen b.ticks], m.Steady s := by
    intro m hm
    rcases List.mem_append.mp hm with hm | hm
    · exact hns m hm
    · rw [List.mem_singleton.mp hm]
      trivial
  have houtcome := congrArg Prod.snd (hmade.outcome_eq hbegun hmoves)
  dsimp only at houtcome
  rw [hresult, hbegun.handed_eq, Service.fate, if_pos hsame, ← houtcome]

end

/-- **What a dispatch comes to** depends on the calls it takes, and on what the function gives. -/
theorem Returns.spec (hb : b.Sound) (hs : s.Retimed b.service)
    {result : Except DispatchError Summary} {b₁ : Batcher S C} (h : b.Returns s result b₁) :
    result = s.verdict b.pending.entries ∧
      ∀ e ∈ b.pending.entries, b₁.result? e.2.ticket = some (s.fate b.pending.entries e) := by
  by_cases hsame : SameContext b.pending.entries
  · cases hcalls : b.pending.entries with
    | nil =>
      have hbegun := beginTick_of_nil hcalls
      cases h with
      | atOnce h =>
        rw [hbegun] at h
        cases h
        refine ⟨?_, fun _ he => by cases he⟩
        rw [Service.verdict, ← hs.id_eq]
        rfl
      | later h _ _ _ =>
        rw [hbegun] at h
        cases h
    | cons f fs =>
      have hf : f ∈ b.pending.entries := hcalls ▸ List.mem_cons_self
      obtain ⟨hrunning, _⟩ := tick?_beginTick hb hf hsame
      rw [← hcalls]
      cases h with
      | atOnce h =>
        rw [hrunning] at h
        cases h
      | later h hns hdrop hended =>
        cases hrunning.symm.trans h
        exact ⟨verdict_of_ended hb hs hf hsame hns hdrop hended,
          fun e he => fate_of_ended hb hs he hsame hns hdrop hended⟩
  · have hbegun := beginTick_of_differ hsame
    cases h with
    | atOnce h =>
      rw [hbegun] at h
      cases h
      rw [Service.verdict_of_differ hsame, ← hs.name_eq]
      refine ⟨rfl, fun e he => ?_⟩
      rw [Service.fate, if_neg hsame, ← hs.name_eq]
      exact (refused_of_contexts hb he hsame).2 []
    | later h _ _ _ =>
      rw [hbegun] at h
      cases h

/-! ### what is pending -/

theorem intake_submit_congr (hi : b.intake = b'.intake)
    (hsignature : b.service.binding.signature = b'.service.binding.signature) (source : S)
    (args : Args) (subfields : List Field) (context : C) :
    (b.submit source args subfields context).batcher.intake
      = (b'.submit source args subfields context).batcher.intake := by
  obtain ⟨hpending, hticks, htickets⟩ := Intake.mk.inj hi
  have hselection : b.service.binding.selectionOf subfields
      = b'.service.binding.selectionOf subfields := by
    unfold Binding.selectionOf
    rw [hsignature]
  have hkey : b.keyOf source args subfields context = b'.keyOf source args subfields context := by
    unfold keyOf
    rw [hsignature, hselection]
  cases hfind : b.pending.find? (b.keyOf source args subfields context) with
  | some p =>
    rw [submit_of_some hfind, submit_of_some (hkey ▸ hpending ▸ hfind)]
    exact hi
  | none =>
    rw [submit_of_none hfind, submit_of_none (hkey ▸ hpending ▸ hfind)]
    unfold intake withCall
    dsimp only
    rw [Array.size_push, Array.size_push, hkey, hselection, hpending, hticks, htickets]

theorem intake_after_congr (hi : b.intake = b'.intake)
    (hsignature : b.service.binding.signature = b'.service.binding.signature) (m : Move S C) :
    (b.after m).intake = (b'.after m).intake := by
  cases hm : m.fills with
  | false => rw [intake_after b hm, intake_after b' hm, hi]
  | true =>
    cases m with
    | submit source args subfields context =>
      exact intake_submit_congr hi hsignature source args subfields context
    | beginTick =>
      obtain ⟨hpending, hticks, htickets⟩ := Intake.mk.inj hi
      rw [after_beginTick, after_beginTick, intake_beginTick, intake_beginTick, hi, hpending,
        hticks, htickets]
    | wake isOpen => cases hm
    | poll isOpen number => cases hm
    | drop number => cases hm
    | answer run => cases hm

theorem signature_after (b : Batcher S C) (m : Move S C) :
    (b.after m).service.binding.signature = b.service.binding.signature :=
  congrArg Binding.signature (carried_after b m).binding

/-- **What is pending** and the numbers to come depend on submissions and dispatches alone. -/
theorem intake_run (hi : b.intake = b'.intake)
    (hsignature : b.service.binding.signature = b'.service.binding.signature)
    (ms : List (Move S C)) : (b.run ms).intake = (b'.run (ms.filter Move.fills)).intake := by
  induction ms generalizing b b' with
  | nil => exact hi
  | cons m ms ih =>
    rw [run_cons]
    cases hm : m.fills with
    | true =>
      rw [List.filter_cons_of_pos hm, run_cons]
      refine ih (intake_after_congr hi hsignature m) ?_
      rw [signature_after, signature_after, hsignature]
    | false =>
      rw [List.filter_cons_of_neg (Bool.not_eq_true _ ▸ hm)]
      refine ih ((intake_after b hm).trans hi) ?_
      rw [signature_after, hsignature]

/-! ### two runs -/

/-- **Two histories of submissions and dispatches in one order** have the same calls pending, and
their dispatches return with the same, and with the same results of the calls. -/
theorem returns_alike (hs : s.Retimed s') (limit limit' : Option Nat) {ms ms' : List (Move S C)}
    (hms : ∀ m ∈ ms, m.Steady s) (hms' : ∀ m ∈ ms', m.Steady s')
    (hfills : ms.filter Move.fills = ms'.filter Move.fills) :
    let b := (Batcher.new limit s).run ms
    let b' := (Batcher.new limit' s').run ms'
    b.intake = b'.intake ∧ (∃ result b₁, b.Returns s result b₁) ∧
    (∀ ns number, (b.run ns).tick? number ≠ none →
      ∃ summary, ((b.run ns).poll (fun _ => true) number).dispatch = .ended (.ok summary)) ∧
    ∀ result b₁ result' b₁', b.Returns s result b₁ → b'.Returns s' result' b₁' →
      result = result' ∧ ∀ e ∈ b.pending.entries,
        ∃ r, b₁.result? e.2.ticket = some r ∧ b₁'.result? e.2.ticket = some r := by
  intro b b'
  have hb : b.Sound := sound_run (sound_new limit s) ms
  have hb' : b'.Sound := sound_run (sound_new limit' s') ms'
  have hstart : (Batcher.new limit s).intake = (Batcher.new limit' s').intake := rfl
  have hintake : b.intake = b'.intake := by
    refine (intake_run hstart hs.signature_eq.symm ms).trans ?_
    rw [hfills]
    exact (intake_run rfl rfl ms').symm
  have hpending : b.pending = b'.pending := (Intake.mk.inj hintake).1
  refine ⟨hintake, exists_returns hb s, fun ns number hsome => ?_,
    fun result b₁ result' b₁' h h' => ?_⟩
  · obtain ⟨t, ht⟩ := Option.ne_none_iff_exists'.mp hsome
    exact ended_of_allOpen (sound_run hb ns) ht
  obtain ⟨hresult, hresults⟩ := h.spec hb ((Service.Retimed.refl s).run hms)
  obtain ⟨hresult', hresults'⟩ := h'.spec hb' ((Service.Retimed.refl s').run hms')
  rw [← hpending, hs.verdict_eq] at hresult'
  refine ⟨hresult.trans hresult'.symm, fun e he => ⟨_, hresults e he, ?_⟩⟩
  rw [hresults' e (hpending ▸ he), ← hpending, hs.fate_eq]

end Batcher
end Batchwise
