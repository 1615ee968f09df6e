import Batchwise.Proofs.Batch.Execution
import Batchwise.Proofs.Batch.Trace

/-!
# The calls of an execution

While the batchers of an execution dispatch and are looked at, each of them calls its own resolver
for the groups of what it had collected, once for each group and in order, and nobody calls
another's.

* `callsTo`              the calls of one resolver among some events;
* `Collecting.calls_dispatch`   the calls of one dispatch, made and to be made;
* `Execution.Called`     the same of all batchers: `called_dispatchAll`, `Called.resume`;
* `Called.all`           when the last part has ended all calls were made.
-/

set_option linter.unusedSectionVars false

namespace Batchwise

variable {S C : Type} [DecidableEq S] [DecidableEq C]

/-! ### calls among events -/

def Event.callTo? (n : Nat) : Event S C → Option (Call (List S) C)
  | .called m call => if m = n then some call else none
  | _ => none

/-- the calls of one resolver among some events, in order. -/
def callsTo (n : Nat) (events : List (Event S C)) : List (Call (List S) C) :=
  events.filterMap (Event.callTo? n)

theorem callsTo_append (n : Nat) (es fs : List (Event S C)) :
    callsTo n (es ++ fs) = callsTo n es ++ callsTo n fs :=
  List.filterMap_append

theorem callsTo_of_allAbout {m : Nat} {es : List (Event S C)} (h : AllAbout m es) (n : Nat) :
    callsTo n es = if m = n then madeCalls es else [] := by
  unfold callsTo madeCalls
  by_cases hmn : m = n
  · rw [if_pos hmn]
    refine List.filterMap_congr fun e he => ?_
    have hm := h e he
    cases e with
    | called k call =>
      have hk : k = n := (Option.some.inj hm).trans hmn
      exact if_pos hk
    | _ => rfl
  · rw [if_neg hmn, List.filterMap_eq_nil_iff]
    intro e he
    have hm := h e he
    cases e with
    | called k call =>
      have hk : k ≠ n := fun hk => hmn ((Option.some.inj hm).symm.trans hk)
      exact if_neg hk
    | _ => rfl

/-! ### one dispatch -/

namespace Batcher

theorem allAbout_dispatch (b : Batcher S C) (isOpen : Gate → Bool) :
    AllAbout b.id (b.dispatch isOpen).events := by
  have hbegin := allAbout_beginTick b
  have hid : b.beginTick.batcher.id = b.id :=
    congrArg Service.id (service_after b (m := .beginTick) fun _ h => by cases h)
  unfold dispatch
  dsimp only
  split
  · exact hbegin
  · exact hbegin.append (hid ▸ allAbout_poll b.beginTick.batcher isOpen _)

/-- the groups of what was collected are called in order, some of them at once. -/
theorem Collecting.calls_dispatch {s : Service S C} {context : C} {b : Batcher S C}
    (hb : b.Collecting s context) (hne : b.pending.entries ≠ []) (isOpen : Gate → Bool) :
    madeCalls (b.dispatch isOpen).events ++ (b.dispatch isOpen).batcher.queuedCalls b.ticks
      = (groupPending b.pending.entries).values.map (Group.call s context) := by
  obtain ⟨e, he⟩ := List.exists_mem_of_ne_nil _ hne
  obtain ⟨hdispatch, htick⟩ := tick?_beginTick hb.sound he hb.sameContext
  have hservice : b.beginTick.batcher.service = s :=
    (service_after b (m := .beginTick) fun _ h => by cases h).trans hb.service_eq
  have hqueued : b.beginTick.batcher.queuedCalls b.ticks
      = (groupPending b.pending.entries).values.map (Group.call s context) := by
    rw [queuedCalls_of_some htick, hservice, ← hb.contexts e he]
    rfl
  have hevents : madeCalls (b.dispatch isOpen).events
      = madeCalls (b.beginTick.batcher.poll isOpen b.ticks).events := by
    unfold dispatch
    dsimp only
    rw [hdispatch]
    dsimp only
    rw [beginTick_of_same he hb.sameContext, madeCalls_append]
    rfl
  rw [hevents, (dispatch_eq b isOpen hdispatch).1, ← hqueued]
  exact queuedCalls_poll b.beginTick.batcher isOpen b.ticks

/-- a batcher without running ticks has no calls to make. -/
theorem queuedCalls_of_idle {b : Batcher S C} (h : b.running = []) (number : Nat) :
    b.queuedCalls number = [] := by
  refine queuedCalls_of_none ?_
  unfold tick?
  rw [h]
  rfl

end Batcher

/-! ### all dispatches -/

namespace Execution

/-- of the groups of what the batchers of `e` had collected some were called, and the others have
still to be. -/
structure Called (r : Registry S C) (context : C) (e e' : Execution S C)
    (events : List (Event S C)) : Prop where
  own : ∀ s ∈ r.services, ∀ b b', e.batcher? s.id = some b → e'.batcher? s.id = some b' →
    callsTo s.id events ++ b'.queuedCalls b.ticks
      = (groupPending b.pending.entries).values.map (Group.call s context)
  others : ∀ n, (∀ s ∈ r.services, s.id ≠ n) → callsTo n events = []

theorem callsTo_dispatchList (isOpen : Gate → Bool) {bs : List (Batcher S C)}
    (hd : (bs.map Batcher.id).Nodup) (n : Nat) :
    callsTo n (dispatchList isOpen bs).2.2 = ((bs.find? fun b => b.id == n).map fun b =>
      if b.hasPending then madeCalls (b.dispatch isOpen).events else []).getD [] := by
  induction bs with
  | nil => rfl
  | cons b bs ih =>
    rw [List.map_cons, List.nodup_cons] at hd
    have hown : callsTo n (dispatchList isOpen (b :: bs)).2.2
        = (if b.hasPending then callsTo n (b.dispatch isOpen).events else [])
          ++ callsTo n (dispatchList isOpen bs).2.2 := by
      rw [dispatchList]
      dsimp only
      split
      · exact callsTo_append n _ _
      · rfl
    rw [hown, ih hd.2, callsTo_of_allAbout (b.allAbout_dispatch isOpen),
      find?_number_cons Batcher.id]
    by_cases hn : b.id = n
    · have hnone : bs.find? (fun b => b.id == n) = none := find?_number_eq_none (hn ▸ hd.1)
      rw [if_pos hn, if_pos hn, hnone]
      simp
    · rw [if_neg hn, if_neg hn]
      simp

theorem exists_service {r : Registry S C} {e : Execution S C}
    (h : e.batchers.map Batcher.id = r.services.map Service.id) {n : Nat} {b : Batcher S C}
    (hb : e.batcher? n = some b) : ∃ s ∈ r.services, s.id = n := by
  have hmem : b.id ∈ e.batchers.map Batcher.id :=
    List.mem_map_of_mem (List.mem_of_find?_eq_some hb)
  rw [h, id_of_batcher? hb] at hmem
  exact List.mem_map.mp hmem

theorem Each.of_mem {r : Registry S C} (hr : r.Sound) {P : Service S C → Batcher S C → Prop}
    {e : Execution S C} (h : e.Each r P) {b : Batcher S C} (hb : b ∈ e.batchers) :
    ∃ s ∈ r.services, s.id = b.id ∧ P s b := by
  have hfind : e.batcher? b.id = some b := find?_number_of_mem (h.nodup_ids hr) hb
  obtain ⟨s, hs, hid⟩ := exists_service h.ids hfind
  obtain ⟨c, hc, hP⟩ := h.holds s hs
  obtain rfl := Option.some.inj (hfind.symm.trans (hid ▸ hc))
  exact ⟨s, hs, hid, hP⟩

/-- **All batchers begin to call** for what they had collected. -/
theorem called_dispatchAll {r : Registry S C} (hr : r.Sound) {context : C} {e : Execution S C}
    (he : e.Each r fun s b => b.Collecting s context) (isOpen : Gate → Bool) :
    Called r context e (e.dispatchAll isOpen).execution (e.dispatchAll isOpen).events := by
  have hcalls := callsTo_dispatchList isOpen (he.nodup_ids hr)
  refine ⟨fun s hs b b' hb hb' => ?_, fun n hn => ?_⟩
  · obtain ⟨c, hc, hcollecting⟩ := he.holds s hs
    have heq : b = c := Option.some.inj (hb.symm.trans hc)
    subst heq
    have hfind : e.batchers.find? (fun b => b.id == s.id) = some b := hb
    rw [batcher?_dispatchAll, hb] at hb'
    obtain rfl := Option.some.inj hb'
    show callsTo s.id (dispatchList isOpen e.batchers).2.2 ++ _ = _
    rw [hcalls, hfind]
    show (if b.hasPending = true then _ else _)
      ++ (if b.hasPending = true then _ else b).queuedCalls b.ticks = _
    by_cases hpending : b.hasPending = true
    · rw [if_pos hpending, if_pos hpending]
      exact hcollecting.calls_dispatch (Batcher.hasPending_iff.mp hpending) isOpen
    · have hnil : b.pending.entries = [] := by
        by_contra hne
        exact hpending (Batcher.hasPending_iff.mpr hne)
      rw [if_neg hpending, if_neg hpending, Batcher.queuedCalls_of_idle hcollecting.running_eq, hnil]
      rfl
  · show callsTo n (dispatchList isOpen e.batchers).2.2 = []
    rw [hcalls]
    cases hb : e.batcher? n with
    | none =>
      have hnone : e.batchers.find? (fun b => b.id == n) = none := hb
      rw [hnone]
      rfl
    | some b =>
      obtain ⟨s, hs, hid⟩ := exists_service he.ids hb
      exact absurd hid (hn s hs)

namespace Called

variable {r : Registry S C} {context : C} {e : Execution S C}

theorem resumePart {st : Step S C} {before : List (Event S C)}
    (h : Called r context e st.execution (before ++ st.events))
    (hflight : InFlight r context e st.execution st.run) (isOpen : Gate → Bool) (resolver : Nat) :
    Called r context e (resumePart isOpen st resolver).execution
      (before ++ (resumePart isOpen st resolver).events) := by
  unfold Execution.resumePart
  split
  · rename_i _ number b hpart hb
    dsimp only
    have hbid : b.id = resolver := id_of_batcher? hb
    have hid : (b.poll isOpen number).batcher.id = resolver :=
      (congrArg Service.id (Batcher.service_after b (m := .poll isOpen number)
        fun _ h => by cases h)).trans hbid
    have hcalls := fun n => callsTo_of_allAbout (b.allAbout_poll isOpen number) n
    rw [← List.append_assoc]
    refine ⟨fun s hs c c' hc hc' => ?_, fun n hn => ?_⟩
    · rw [callsTo_append, hcalls, hbid]
      obtain ⟨c₀, b₀, hc₀, hb₀, _, hpart'⟩ := hflight.parts s hs
      obtain rfl := Option.some.inj (hc.symm.trans hc₀)
      by_cases hs' : s.id = resolver
      · subst hs'
        obtain rfl := Option.some.inj (hb.symm.trans hb₀)
        rw [hpart] at hpart'
        rw [batcher?_replace_self hb hid] at hc'
        obtain rfl := Option.some.inj hc'
        obtain ⟨⟩ | ⟨_, _, _⟩ := hpart'
        rw [if_pos rfl, List.append_assoc, Batcher.queuedCalls_poll]
        exact h.own s hs c b hc hb
      · rw [batcher?_replace_other fun h => hs' (h.trans hid)] at hc'
        rw [if_neg fun h => hs' h.symm, List.append_nil]
        exact h.own s hs c c' hc hc'
    · obtain ⟨s, hs, hsid⟩ := exists_service hflight.ids hb
      rw [callsTo_append, hcalls, h.others n hn, hbid, ← hsid, if_neg (hn s hs)]
      rfl
  · exact h

theorem fold (isOpen : Gate → Bool) (order : List Nat) {st : Step S C} {before : List (Event S C)}
    (h : Called r context e st.execution (before ++ st.events))
    (hflight : InFlight r context e st.execution st.run) :
    Called r context e (order.foldl (Execution.resumePart isOpen) st).execution
      (before ++ (order.foldl (Execution.resumePart isOpen) st).events) := by
  induction order generalizing st with
  | nil => exact h
  | cons n order ih => exact ih (h.resumePart hflight isOpen n) (hflight.resumePart isOpen n)

/-- **All batchers go on calling**, in whatever order they are looked at. -/
theorem resume {e' : Execution S C} {run : Run} {events : List (Event S C)}
    (h : Called r context e e' events) (hflight : InFlight r context e e' run)
    (isOpen : Gate → Bool) :
    Called r context e (Execution.resume isOpen e' run).execution
      (events ++ (Execution.resume isOpen e' run).events) := by
  let st : Step S C := ⟨e', { run.wake isOpen with woken := [] }, []⟩
  have hstart : Called r context e st.execution (events ++ st.events) := by
    rw [List.append_nil]
    exact h
  have hflight' : InFlight r context e st.execution st.run := ⟨hflight.ids, hflight.parts⟩
  exact hstart.fold isOpen _ hflight'

/-- **When all parts have ended** each batcher has called for all groups. -/
theorem all {e' : Execution S C} {run : Run} {events : List (Event S C)}
    (h : Called r context e e' events) (hflight : InFlight r context e e' run)
    (hended : ∀ s ∈ r.services, Ended run s.id) {s : Service S C} (hs : s ∈ r.services)
    {b : Batcher S C} (hb : e.batcher? s.id = some b) :
    callsTo s.id events
      = (groupPending b.pending.entries).values.map (Group.call s context) := by
  obtain ⟨b', hb', hidle⟩ := (hflight.idle hended).holds s hs
  have hown := h.own s hs b b' hb hb'
  rw [Batcher.queuedCalls_of_idle hidle.running_eq, List.append_nil] at hown
  exact hown

end Called
end Execution
end Batchwise
