import Batchwise.Proofs.Batch.Joint
import Batchwise.Proofs.Batch.Looks
import Batchwise.Proofs.Batch.Timing
import Mathlib.Algebra.BigOperators.Group.Finset.Basic
import Mathlib.Algebra.Ring.Nat

/-!
# What an observer counts

An observer that all batchers of an execution share counts submissions, ticks, handed groups and
failures as they are told, in whatever order the batchers move.  Its counts agree with what the
dispatches took and gave back: nothing is told twice, and nothing that happened is left out.

* `Batcher.takenBy`, `Batcher.returnedBy`, `Batcher.droppedBy`   the ticks that a move takes, the
                        dispatches that it returns, and the ticks that it gives up;
* `Moved`               what goes into some batchers is in them or comes out: `moved_after` for one
                        move, `moved_run` for a joint history;
* `Counts.recordAll_eq` the counts as numbers of events;
* `counts_balance`      what an observer was told of at any moment.
-/

set_option linter.unusedSectionVars false

namespace Batchwise

variable {S C : Type} [DecidableEq S] [DecidableEq C]

/-! ### counts as numbers of events -/

namespace Event

def isShared : Event S C → Bool
  | .submitted _ shared => shared
  | _ => false

def isDispatched : Event S C → Bool
  | .dispatched _ _ _ => true
  | _ => false

end Event

namespace Counts

theorem record_eq (c : Counts) (e : Event S C) :
    (c.record e).submissions = c.submissions + [e].countP Event.isSubmitted ∧
      (c.record e).deduplicated = c.deduplicated + [e].countP Event.isShared ∧
      (c.record e).dispatches = c.dispatches + [e].countP Event.isDispatched ∧
      (c.record e).invocations = c.invocations + (invokedResolvers [e]).length ∧
      (c.record e).failedGroups = c.failedGroups + [e].countP Event.isGroupFailed ∧
      ∀ n, (c.record e).invocationsOf n = c.invocationsOf n + (invokedResolvers [e]).count n := by
  cases e with
  | submitted resolver shared =>
    cases shared <;> exact ⟨rfl, rfl, rfl, rfl, rfl, fun n => rfl⟩
  | invoked resolver sources =>
    refine ⟨rfl, rfl, rfl, rfl, rfl, fun n => ?_⟩
    show (Entries.find? n (Entries.put resolver _ c.byResolver)).getD 0
      = c.invocationsOf n + [resolver].count n
    rw [Entries.find?_put, List.count_singleton]
    by_cases h : resolver = n
    · simp [h]
    · simp [h, invocationsOf]
  | _ => exact ⟨rfl, rfl, rfl, rfl, rfl, fun n => rfl⟩

/-- **The counts are numbers of events.** -/
theorem recordAll_eq (c : Counts) (es : List (Event S C)) :
    (c.recordAll es).submissions = c.submissions + es.countP Event.isSubmitted ∧
      (c.recordAll es).deduplicated = c.deduplicated + es.countP Event.isShared ∧
      (c.recordAll es).dispatches = c.dispatches + es.countP Event.isDispatched ∧
      (c.recordAll es).invocations = c.invocations + (invokedResolvers es).length ∧
      (c.recordAll es).failedGroups = c.failedGroups + es.countP Event.isGroupFailed ∧
      ∀ n, (c.recordAll es).invocationsOf n = c.invocationsOf n + (invokedResolvers es).count n := by
  induction es generalizing c with
  | nil => exact ⟨rfl, rfl, rfl, rfl, rfl, fun n => rfl⟩
  | cons e es ih =>
    obtain ⟨hs, hd, ht, hi, hf, hn⟩ := ih (c.record e)
    obtain ⟨hs', hd', ht', hi', hf', hn'⟩ := record_eq c e
    have hsplit : e :: es = [e] ++ es := rfl
    have hall : c.recordAll (e :: es) = (c.record e).recordAll es := rfl
    rw [hall, hsplit, invokedResolvers_append, List.length_append]
    simp only [List.countP_append, List.count_append]
    refine ⟨?_, ?_, ?_, ?_, ?_, fun n => ?_⟩
    · rw [hs, hs', Nat.add_assoc]
    · rw [hd, hd', Nat.add_assoc]
    · rw [ht, ht', Nat.add_assoc]
    · rw [hi, hi', Nat.add_assoc]
    · rw [hf, hf', Nat.add_assoc]
    · rw [hn, hn', Nat.add_assoc]

/-- the counts of an observer that was told of nothing before. -/
theorem recordAll_zero (es : List (Event S C)) :
    (zero.recordAll es).submissions = es.countP Event.isSubmitted ∧
      (zero.recordAll es).deduplicated = es.countP Event.isShared ∧
      (zero.recordAll es).dispatches = es.countP Event.isDispatched ∧
      (zero.recordAll es).invocations = (invokedResolvers es).length ∧
      (zero.recordAll es).failedGroups = es.countP Event.isGroupFailed ∧
      ∀ n, (zero.recordAll es).invocationsOf n = (invokedResolvers es).count n := by
  have hnone : ∀ n, zero.invocationsOf n = 0 := fun _ => rfl
  have h := recordAll_eq zero es
  simp only [hnone] at h
  simpa only [zero, Nat.zero_add] using h

end Counts

/-- counted by its numbers, a list whose members are all among some numbers has its length. -/
theorem sum_count {ns as : List Nat} (hd : ns.Nodup) (h : ∀ a ∈ as, a ∈ ns) :
    (ns.map fun n => as.count n).sum = as.length := by
  have hsum := Multiset.sum_count_eq_card (s := ns.toFinset) (m := (as : Multiset Nat))
    fun a ha => List.mem_toFinset.mpr (h a ha)
  rw [List.sum_toFinset _ hd, Multiset.coe_card] at hsum
  simpa only [Multiset.coe_count] using hsum

/-! ### what moves take, return and give up -/

/-- a tick that a dispatch took. -/
structure Taken where
  resolver : Nat
  number : Nat
  keys : Nat
  groups : Nat
  /-- its calls carry different contexts. -/
  diverged : Bool

/-- a dispatch that returned. -/
structure Returned where
  resolver : Nat
  /-- the number of its tick, unless it returned at once. -/
  tick? : Option Nat
  result : Except DispatchError Summary

namespace Taken

/-- the ticks that were split into groups. -/
def formed (ts : List Taken) : List Taken := ts.filter fun t => !t.diverged

def key (t : Taken) : Nat × Nat := (t.resolver, t.number)

end Taken

namespace Returned

/-- the summaries that were returned. -/
def summaries (rs : List Returned) : List Summary := rs.filterMap fun r => r.result.toOption

/-- the ticks whose dispatches returned. -/
def ticks (rs : List Returned) : List (Nat × Nat) :=
  rs.filterMap fun r => r.tick?.map fun number => (r.resolver, number)

end Returned

/-- the number of the tick that a move looks at. -/
def Move.looksAt? : Move S C → Option Nat
  | .poll _ number => some number
  | _ => none

namespace Batcher

/-- the tick that a move takes. -/
def takenBy (b : Batcher S C) : Move S C → List Taken
  | .beginTick =>
    if b.hasPending then
      [⟨b.id, b.ticks, b.pending.size, (groupPending b.pending.entries).values.length,
        decide ¬ SameContext b.pending.entries⟩]
    else []
  | _ => []

/-- the dispatch that a move returns. -/
def returnedBy (b : Batcher S C) (m : Move S C) : List Returned :=
  match b.receipt m with
  | .dispatch (.ended result) => [⟨b.id, m.looksAt?, result⟩]
  | _ => []

/-- the tick that a move gives up. -/
def droppedBy (b : Batcher S C) : Move S C → List (Tick S C)
  | .drop number => (b.tick? number).toList
  | _ => []

theorem mem_takenBy {b : Batcher S C} {m : Move S C} {t : Taken} (h : t ∈ b.takenBy m) :
    m = .beginTick ∧ b.pending.entries ≠ [] ∧ t.resolver = b.id ∧ t.number = b.ticks := by
  cases m with
  | beginTick =>
    rw [takenBy] at h
    by_cases hpending : b.hasPending = true
    · rw [if_pos hpending] at h
      rw [List.mem_singleton.mp h]
      exact ⟨rfl, hasPending_iff.mp hpending, rfl, rfl⟩
    · rw [if_neg hpending] at h
      cases h
  | _ => cases h

/-- a tick that was taken is not taken again. -/
theorem lt_of_mem_takenBy {b : Batcher S C} {m : Move S C} {t : Taken} (h : t ∈ b.takenBy m) :
    t.number < (b.after m).ticks := by
  obtain ⟨rfl, hne, _, hnumber⟩ := mem_takenBy h
  have hticks := congrArg Intake.ticks (intake_beginTick b)
  rw [if_neg hne] at hticks
  rw [hnumber]
  exact Nat.lt_of_lt_of_eq (Nat.lt_succ_self b.ticks) hticks.symm

theorem nodup_takenBy (b : Batcher S C) (m : Move S C) : ((b.takenBy m).map Taken.key).Nodup := by
  cases m with
  | beginTick =>
    rw [takenBy]
    by_cases hpending : b.hasPending = true
    · rw [if_pos hpending]
      exact List.nodup_singleton _
    · rw [if_neg hpending]
      exact List.nodup_nil
  | _ => exact List.nodup_nil

end Batcher

/-! ### what goes in is there or comes out -/

/-- what batchers hold: the number of their pending calls, and their running ticks. -/
structure Holding (S C : Type) where
  pending : Nat
  running : List (Tick S C)

namespace Holding

def ofBatcher (b : Batcher S C) : Holding S C := ⟨b.pending.size, b.running⟩

def ofBatchers (bs : List (Batcher S C)) : Holding S C :=
  ⟨(bs.map fun b => b.pending.size).sum, bs.flatMap Batcher.running⟩

/-- a quantity of all running ticks. -/
def total (h : Holding S C) (w : Tick S C → Nat) : Nat := (h.running.map w).sum

end Holding

/-- what goes in is held or comes out, on the way from `h` to `h'`. -/
structure Moved (h h' : Holding S C) (events : List (Event S C)) (taken : List Taken)
    (returned : List Returned) (dropped : List (Tick S C)) : Prop where
  keys : events.countP Event.isSubmitted + h.pending
    = events.countP Event.isShared + (taken.map Taken.keys).sum + h'.pending
  dispatches : events.countP Event.isDispatched = (Taken.formed taken).length
  ticks : (Taken.formed taken).length + h.running.length
    = (Returned.ticks returned).length + dropped.length + h'.running.length
  queued : ((Taken.formed taken).map Taken.groups).sum + h.total (fun t => t.queued.length)
    = (invokedResolvers events).length + (dropped.map fun t => t.queued.length).sum
      + h'.total (fun t => t.queued.length)
  running : events.countP Event.isGroupFailed + h'.total (fun t => t.running.length)
    ≤ (invokedResolvers events).length + h.total (fun t => t.running.length)
  groups : ((Taken.formed taken).map Taken.groups).sum + h.total Tick.groups
    = ((Returned.summaries returned).map Summary.groups).sum
      + (dropped.map Tick.groups).sum + h'.total Tick.groups
  failed : events.countP Event.isGroupFailed + h.total Tick.failed
    = ((Returned.summaries returned).map Summary.failed).sum
      + (dropped.map Tick.failed).sum + h'.total Tick.failed

namespace Moved

variable {h h' h'' : Holding S C} {es es' : List (Event S C)} {ts ts' : List Taken}
  {rs rs' : List Returned} {ds ds' : List (Tick S C)}

theorem refl (h : Holding S C) : Moved h h [] [] [] [] := by
  constructor <;> simp [Taken.formed, Returned.ticks, Returned.summaries, invokedResolvers]

theorem trans (h₁ : Moved h h' es ts rs ds) (h₂ : Moved h' h'' es' ts' rs' ds') :
    Moved h h'' (es ++ es') (ts ++ ts') (rs ++ rs') (ds ++ ds') := by
  obtain ⟨hkeys, hdispatches, hticks, hqueued, hrunning, hgroups, hfailed⟩ := h₁
  obtain ⟨hkeys', hdispatches', hticks', hqueued', hrunning', hgroups', hfailed'⟩ := h₂
  constructor <;>
    simp only [Taken.formed, Returned.ticks, Returned.summaries, invokedResolvers,
      List.countP_append, List.filter_append, List.filterMap_append, List.map_append,
      List.sum_append, List.length_append] at * <;>
    omega

/-- what else is held stays as it is. -/
theorem frame {p p' : Nat} {us us' : List (Tick S C)} (h : Moved ⟨p, us⟩ ⟨p', us'⟩ es ts rs ds)
    (n : Nat) (before later : List (Tick S C)) :
    Moved ⟨n + p, before ++ us ++ later⟩ ⟨n + p', before ++ us' ++ later⟩ es ts rs ds := by
  obtain ⟨hkeys, hdispatches, hticks, hqueued, hrunning, hgroups, hfailed⟩ := h
  constructor <;>
    simp only [Holding.total, List.map_append, List.sum_append, List.length_append] at * <;>
    omega

end Moved

/-- what comes of nothing: once all ticks that were formed have returned, nothing runs and nothing
was given up. -/
theorem Moved.of_nothing {h : Holding S C} {es : List (Event S C)} {ts : List Taken}
    {rs : List Returned} {ds : List (Tick S C)} (hmoved : Moved ⟨0, []⟩ h es ts rs ds) :
    es.countP Event.isSubmitted
        = es.countP Event.isShared + (ts.map Taken.keys).sum + h.pending ∧
      es.countP Event.isDispatched = (Taken.formed ts).length ∧
      (invokedResolvers es).length ≤ ((Taken.formed ts).map Taken.groups).sum ∧
      es.countP Event.isGroupFailed ≤ (invokedResolvers es).length ∧
      ((Taken.formed ts).length ≤ (Returned.ticks rs).length →
        (invokedResolvers es).length = ((Taken.formed ts).map Taken.groups).sum ∧
        (invokedResolvers es).length = ((Returned.summaries rs).map Summary.groups).sum ∧
        es.countP Event.isGroupFailed = ((Returned.summaries rs).map Summary.failed).sum) := by
  obtain ⟨hkeys, hdispatches, hticks, hqueued, hrunning, hgroups, hfailed⟩ := hmoved
  have hzero : ∀ w : Tick S C → Nat, (⟨0, []⟩ : Holding S C).total w = 0 := fun _ => rfl
  simp only [hzero, Nat.add_zero, List.length_nil] at hkeys hticks hqueued hrunning hgroups hfailed
  refine ⟨hkeys, hdispatches, by omega, by omega, fun hle => ?_⟩
  have hdropped : ds = [] := List.length_eq_zero_iff.mp (by omega)
  have hover : h.running = [] := List.length_eq_zero_iff.mp (by omega)
  have hrest : ∀ w : Tick S C → Nat, h.total w = 0 := fun w => by
    unfold Holding.total
    rw [hover]
    rfl
  simp only [hdropped, hrest, List.map_nil, List.sum_nil, Nat.add_zero] at hqueued hgroups hfailed
  exact ⟨hqueued.symm, hqueued.symm.trans hgroups, hfailed⟩

/-! ### one move of one batcher -/

/-- a call that is not shared is one more pending. -/
theorem moved_fresh (n : Nat) :
    Moved (⟨0, []⟩ : Holding S C) ⟨1, []⟩ [.submitted n false] [] [] [] := by
  constructor <;> rfl

theorem moved_shared (n : Nat) :
    Moved (⟨0, []⟩ : Holding S C) ⟨0, []⟩ [.submitted n true] [] [] [] := by
  constructor <;> rfl

/-- all groups of a new tick are in its queue. -/
theorem moved_taken (b : Batcher S C) (context : C) :
    Moved (⟨b.pending.size, []⟩ : Holding S C)
      ⟨0, [b.formTick context b.pending.entries]⟩
      [.dispatched b.id b.pending.size (groupPending b.pending.entries).values.length]
      [⟨b.id, b.ticks, b.pending.size, (groupPending b.pending.entries).values.length, false⟩]
      [] [] := by
  constructor <;>
    simp [Taken.formed, Returned.ticks, Returned.summaries, invokedResolvers, Holding.total,
      Batcher.formTick, Tick.running, Event.isSubmitted, Event.isShared, Event.isDispatched,
      Event.isGroupFailed, Event.invoked?]

/-- calls that are refused are in no tick. -/
theorem moved_refused (b : Batcher S C) (groups : Nat) (error : DispatchError) :
    Moved (⟨b.pending.size, []⟩ : Holding S C) ⟨0, []⟩ [.diverged b.id b.pending.size]
      [⟨b.id, b.ticks, b.pending.size, groups, true⟩] [⟨b.id, none, .error error⟩] [] := by
  constructor <;> rfl

/-- a dispatch that found nothing took nothing. -/
theorem moved_nothing (n : Nat) :
    Moved (⟨0, []⟩ : Holding S C) ⟨0, []⟩ [] [] [⟨n, none, .ok ⟨n, 0, 0, 0⟩⟩] [] := by
  constructor <;> rfl

theorem moved_wake (isOpen : Gate → Bool) (ts : List (Tick S C)) :
    Moved ⟨0, ts⟩ ⟨0, ts.map (Tick.wake isOpen)⟩ [] [] [] [] := by
  have hlength : ∀ t : Tick S C, (t.wake isOpen).running.length = t.running.length :=
    fun t => (t.running_wake isOpen).length_eq
  have htotal : ∀ w : Tick S C → Nat, (∀ t, w (t.wake isOpen) = w t) →
      (⟨0, ts.map (Tick.wake isOpen)⟩ : Holding S C).total w = (⟨0, ts⟩ : Holding S C).total w := by
    intro w hw
    unfold Holding.total
    rw [List.map_map]
    exact congrArg List.sum (List.map_congr_left fun t _ => hw t)
  have hsame := Moved.refl (⟨0, ts⟩ : Holding S C)
  refine ⟨rfl, rfl, ?_, ?_, ?_, ?_, ?_⟩
  · rw [List.length_map]
    exact hsame.ticks
  · rw [htotal _ fun _ => rfl]
    exact hsame.queued
  · rw [htotal _ hlength]
    exact hsame.running
  · rw [htotal _ fun _ => rfl]
    exact hsame.groups
  · rw [htotal _ fun _ => rfl]
    exact hsame.failed

theorem moved_drop (t : Tick S C) : Moved ⟨0, [t]⟩ ⟨0, []⟩ [] [] [] [t] := by
  constructor <;> simp [Taken.formed, Returned.ticks, Returned.summaries, invokedResolvers,
    Holding.total]

/-- a look tells of no submission and of no new tick. -/
theorem countP_work {es : List (Event S C)} (h : ∀ e ∈ es, e.isWork = true) :
    es.countP Event.isSubmitted = 0 ∧ es.countP Event.isShared = 0 ∧
      es.countP Event.isDispatched = 0 := by
  refine ⟨List.countP_eq_zero.mpr fun e he => ?_, List.countP_eq_zero.mpr fun e he => ?_,
    List.countP_eq_zero.mpr fun e he => ?_⟩
  all_goals
    have hwork := h e he
    cases e with
    | submitted resolver shared => cases hwork
    | dispatched resolver keys groups => cases hwork
    | _ => exact Bool.false_ne_true

/-- a look at a tick moves its groups on. -/
theorem moved_look (s : Service S C) (isOpen : Gate → Bool) (t : Tick S C) :
    Moved ⟨0, [t]⟩ ⟨0, [(t.poll s isOpen).tick]⟩ (t.poll s isOpen).events [] [] [] := by
  obtain ⟨started, ended, hqueued, hrunning, _, hcalls, hended⟩ := t.poll_accounts s isOpen
  obtain ⟨hwork, hinvoked, hfailed, _⟩ := t.tells_poll s isOpen
  obtain ⟨hsubmitted, hshared, hdispatched⟩ := countP_work hwork
  have hlength := hrunning.length_eq
  have hle : ended.countP Answered.failed ≤ ended.length := List.countP_le_length
  have hqueue := congrArg List.length hqueued
  have hgroups : (t.poll s isOpen).tick.groups = t.groups := rfl
  rw [List.length_append] at hqueue
  simp only [List.length_append, List.length_map] at hlength
  rw [hcalls, List.length_map] at hinvoked
  constructor <;>
    simp only [Taken.formed, Returned.ticks, Returned.summaries, Holding.total, List.filter_nil,
      List.filterMap_nil, List.map_nil, List.map_cons, List.sum_nil, List.sum_cons,
      List.length_nil, List.length_cons, hsubmitted, hshared, hdispatched, hinvoked] <;>
    omega

/-- a tick that is done leaves with its summary. -/
theorem moved_done (n number : Nat) {t : Tick S C} (h : t.isDone = true) :
    Moved ⟨0, [t]⟩ ⟨0, []⟩ [] []
      [⟨n, some number, .ok ⟨n, t.keys, t.groups, t.failed⟩⟩] [] := by
  obtain ⟨hqueued, _⟩ := Bool.and_eq_true_iff.mp h
  constructor <;> simp [Taken.formed, Returned.ticks, Returned.summaries, invokedResolvers,
    Holding.total, List.isEmpty_iff.mp hqueued, Except.toOption]

/-- of the calls and ticks of a batcher only some go on. -/
theorem Moved.around {b b' : Batcher S C} {n p p' : Nat} {us vs ts ts' : List (Tick S C)}
    {es : List (Event S C)} {taken : List Taken} {returned : List Returned}
    {dropped : List (Tick S C)} (h : Moved ⟨p, ts⟩ ⟨p', ts'⟩ es taken returned dropped)
    (hpending : b.pending.size = n + p) (hpending' : b'.pending.size = n + p')
    (hrunning : b.running = us ++ ts ++ vs) (hrunning' : b'.running = us ++ ts' ++ vs) :
    Moved (Holding.ofBatcher b) (Holding.ofBatcher b') es taken returned dropped := by
  unfold Holding.ofBatcher
  rw [hpending, hpending', hrunning, hrunning']
  exact h.frame n us vs

namespace Batcher

theorem moved_submit (b : Batcher S C) (source : S) (args : Args) (subfields : List Field)
    (context : C) :
    Moved (.ofBatcher b) (.ofBatcher (b.submit source args subfields context).batcher)
      (b.submit source args subfields context).events [] [] [] := by
  have hrunning : b.running = b.running ++ [] ++ [] := by simp
  cases h : b.pending.find? (b.keyOf source args subfields context) with
  | some p =>
    rw [submit_of_some h]
    exact (moved_shared b.id).around rfl rfl hrunning hrunning
  | none =>
    have hentries := Table.entries_put_of_notMem (t := b.pending)
      (⟨args, b.service.binding.selectionOf subfields, b.results.size⟩ : Pending)
      (Table.find?_eq_none_iff.mp h)
    have hsize := congrArg List.length hentries
    rw [List.length_append] at hsize
    rw [submit_of_none h]
    exact (moved_fresh b.id).around rfl hsize hrunning hrunning

theorem moved_beginTick (b : Batcher S C) :
    Moved (.ofBatcher b) (.ofBatcher b.beginTick.batcher) b.beginTick.events
      (b.takenBy .beginTick) (b.returnedBy .beginTick) [] := by
  have hrunning : b.running = b.running ++ [] ++ [] := by simp
  have hpending : b.pending.size = 0 + b.pending.size := (Nat.zero_add _).symm
  unfold takenBy returnedBy receipt
  cases hcalls : b.pending.entries with
  | nil =>
    have hnone : b.hasPending = false := by
      rw [← Bool.not_eq_true, hasPending_iff, hcalls]
      exact not_not.mpr rfl
    rw [if_neg (Bool.eq_false_iff.mp hnone), beginTick_of_nil hcalls]
    exact (moved_nothing b.id).around rfl rfl hrunning hrunning
  | cons e es =>
    have he : e ∈ b.pending.entries := hcalls ▸ List.mem_cons_self
    have hsome : b.hasPending = true := hasPending_iff.mpr (List.ne_nil_of_mem he)
    rw [if_pos hsome, ← hcalls]
    by_cases hsame : SameContext b.pending.entries
    · rw [beginTick_of_same he hsame, decide_eq_false (not_not.mpr hsame)]
      refine (moved_taken b e.1.context).around hpending rfl hrunning ?_
      rw [List.append_nil]
      rfl
    · rw [beginTick_of_differ hsame, decide_eq_true hsame]
      exact (moved_refused b _ _).around hpending rfl hrunning hrunning

variable {b : Batcher S C}

theorem moved_poll (hb : b.Sound) (isOpen : Gate → Bool) (number : Nat) :
    Moved (.ofBatcher b) (.ofBatcher (b.poll isOpen number).batcher) (b.poll isOpen number).events
      [] (b.returnedBy (.poll isOpen number)) [] := by
  have hreceipt : b.receipt (.poll isOpen number) = .dispatch (b.poll isOpen number).dispatch := rfl
  unfold returnedBy
  rw [hreceipt]
  cases ht : b.tick? number with
  | none =>
    rw [poll_of_none ht]
    exact Moved.refl (Holding.ofBatcher b)
  | some t =>
    obtain ⟨us, vs, hsplit, hrunning⟩ := running_poll hb.numbers isOpen ht
    have hsplit' : b.running = us ++ [t] ++ vs := hsplit.trans (List.append_cons us t vs)
    have hlook := moved_look b.service isOpen t
    cases hdone : (t.poll b.service isOpen).tick.isDone with
    | true =>
      rw [hdone, if_pos rfl, poll_of_done ht hdone] at hrunning
      rw [poll_of_done ht hdone]
      have hdone' := hlook.trans (moved_done b.id number hdone)
      rw [List.append_nil] at hdone'
      dsimp only
      exact hdone'.around rfl rfl hsplit' hrunning
    | false =>
      rw [hdone, if_neg Bool.false_ne_true, poll_of_open ht hdone] at hrunning
      rw [poll_of_open ht hdone]
      dsimp only
      exact hlook.around rfl rfl hsplit' hrunning

theorem moved_drop (hb : b.Sound) (number : Nat) :
    Moved (.ofBatcher b) (.ofBatcher (b.drop number)) [] [] [] (b.droppedBy (.drop number)) := by
  show Moved _ _ _ _ _ (b.tick? number).toList
  cases ht : b.tick? number with
  | none =>
    rw [drop_of_none ht]
    exact Moved.refl (Holding.ofBatcher b)
  | some t =>
    obtain ⟨us, vs, hsplit, hne⟩ := exists_split hb.numbers ht
    rw [drop_of_some ht]
    refine (Batchwise.moved_drop t).around rfl rfl (hsplit.trans (List.append_cons us t vs)) ?_
    rw [List.append_nil]
    exact running_removeTick hsplit (number_of_tick? ht) hne

/-- **One move.** -/
theorem moved_after (hb : b.Sound) (m : Move S C) :
    Moved (.ofBatcher b) (.ofBatcher (b.after m)) (b.eventsBy m) (b.takenBy m) (b.returnedBy m)
      (b.droppedBy m) := by
  cases m with
  | submit source args subfields context => exact moved_submit b source args subfields context
  | beginTick => exact moved_beginTick b
  | wake isOpen =>
    have hall : ∀ ts : List (Tick S C), ts = [] ++ ts ++ [] := fun ts => (List.append_nil ts).symm
    exact (moved_wake isOpen b.running).around rfl rfl (hall _) (hall _)
  | poll isOpen number => exact moved_poll hb isOpen number
  | drop number => exact moved_drop hb number
  | answer run => exact Moved.refl _

end Batcher

/-! ### joint histories -/

namespace Execution

variable {e : Execution S C}

/-- one move of one of many batchers. -/
theorem moved_after (hd : (e.batchers.map Batcher.id).Nodup) (hs : ∀ b ∈ e.batchers, b.Sound)
    (m : Nat × Move S C) :
    Moved (.ofBatchers e.batchers) (.ofBatchers (e.after m).batchers)
      ((e.batcher? m.1).elim [] fun b => b.eventsBy m.2)
      ((e.batcher? m.1).elim [] fun b => b.takenBy m.2)
      ((e.batcher? m.1).elim [] fun b => b.returnedBy m.2)
      ((e.batcher? m.1).elim [] fun b => b.droppedBy m.2) := by
  unfold after
  cases hb : e.batcher? m.1 with
  | none => exact Moved.refl _
  | some b =>
    obtain ⟨us, vs, hsplit, hne⟩ := exists_split_number hd hb
    have hid : (b.after m.2).id = m.1 := (b.id_after m.2).trans (id_of_batcher? hb)
    have hbatchers : (e.replace (b.after m.2)).batchers = us ++ b.after m.2 :: vs := by
      unfold replace
      rw [hsplit]
      refine map_replace_split Batcher.id (b.id_after m.2).symm fun u hu => ?_
      rw [hid]
      exact hne u hu
    have hmoved := Batcher.moved_after (hs b (List.mem_of_find?_eq_some hb)) m.2
    have hframed := hmoved.frame (((us ++ vs).map fun u => u.pending.size).sum)
      (us.flatMap Batcher.running) (vs.flatMap Batcher.running)
    have hholding : ∀ c : Batcher S C, Holding.ofBatchers (us ++ c :: vs)
        = ⟨((us ++ vs).map fun u => u.pending.size).sum + c.pending.size,
          us.flatMap Batcher.running ++ c.running ++ vs.flatMap Batcher.running⟩ := by
      intro c
      unfold Holding.ofBatchers
      simp only [List.map_append, List.map_cons, List.sum_append, List.sum_cons,
        List.flatMap_append, List.flatMap_cons, List.append_assoc, Holding.mk.injEq, and_true]
      omega
    show Moved (.ofBatchers e.batchers) (.ofBatchers (e.replace (b.after m.2)).batchers) _ _ _ _
    rw [hbatchers, hsplit, hholding, hholding]
    exact hframed

/-- **A joint history.** -/
theorem moved_run (hd : (e.batchers.map Batcher.id).Nodup) (hs : ∀ b ∈ e.batchers, b.Sound)
    (ms : List (Nat × Move S C)) :
    Moved (.ofBatchers e.batchers) (.ofBatchers (e.run ms).batchers) (e.trace ms)
      (e.along Batcher.takenBy ms) (e.along Batcher.returnedBy ms)
      (e.along Batcher.droppedBy ms) := by
  induction ms generalizing e with
  | nil => exact Moved.refl _
  | cons m ms ih =>
    exact (moved_after hd hs m).trans (ih ((ids_after e m).symm ▸ hd) (sound_run hs [m]))

/-! ### each tick is taken once -/

theorem taken_along {ms : List (Nat × Move S C)} {t : Taken}
    (h : t ∈ e.along Batcher.takenBy ms) :
    ∃ b, e.batcher? t.resolver = some b ∧ b.ticks ≤ t.number := by
  induction ms generalizing e with
  | nil => cases h
  | cons m ms ih =>
    obtain ⟨n, m⟩ := m
    rcases List.mem_append.mp h with h | h
    · cases hb : e.batcher? n with
      | none =>
        rw [hb] at h
        cases h
      | some b =>
        rw [hb] at h
        obtain ⟨_, _, hresolver, hnumber⟩ := Batcher.mem_takenBy h
        refine ⟨b, ?_, hnumber.ge⟩
        rw [hresolver, id_of_batcher? hb]
        exact hb
    · obtain ⟨b', hb', hle⟩ := ih h
      by_cases hn : n = t.resolver
      · rw [hn, batcher?_after_self, Option.map_eq_some_iff] at hb'
        obtain ⟨b, hb, rfl⟩ := hb'
        exact ⟨b, hb, Nat.le_trans (Batcher.carried_after b m).ticks_le hle⟩
      · rw [batcher?_after_other e hn] at hb'
        exact ⟨b', hb', hle⟩

theorem nodup_taken (e : Execution S C) (ms : List (Nat × Move S C)) :
    ((e.along Batcher.takenBy ms).map Taken.key).Nodup := by
  induction ms generalizing e with
  | nil => exact List.nodup_nil
  | cons m ms ih =>
    obtain ⟨n, m⟩ := m
    rw [along, List.map_append, List.nodup_append]
    refine ⟨?_, ih _, fun k hk k' hk' heq => ?_⟩
    · cases e.batcher? n with
      | none => exact List.nodup_nil
      | some b => exact b.nodup_takenBy m
    · obtain ⟨t, ht, rfl⟩ := List.mem_map.mp hk
      obtain ⟨t', ht', rfl⟩ := List.mem_map.mp hk'
      obtain ⟨hresolver, hnumber⟩ := Prod.mk.inj heq
      cases hb : e.batcher? n with
      | none =>
        rw [hb] at ht
        cases ht
      | some b =>
        rw [hb] at ht
        obtain ⟨_, _, htaken, _⟩ := Batcher.mem_takenBy ht
        obtain ⟨b', hb', hle⟩ := taken_along ht'
        rw [← hresolver, htaken, id_of_batcher? hb, batcher?_after_self, hb, Option.map_some,
          Option.some.injEq] at hb'
        have hlt := Batcher.lt_of_mem_takenBy ht
        rw [hb'] at hlt
        omega

/-! ### the balance -/

theorem mem_invokedResolvers_trace {ms : List (Nat × Move S C)} {n : Nat}
    (h : n ∈ invokedResolvers (e.trace ms)) : n ∈ e.batchers.map Batcher.id := by
  obtain ⟨event, hevent, hinvoked⟩ := List.mem_filterMap.mp h
  obtain ⟨k, hk, hresolver⟩ := resolver_of_trace hevent
  cases event with
  | invoked resolver sources =>
    cases hinvoked
    cases hresolver
    exact hk
  | _ => cases hinvoked

/-- nothing is held at first. -/
theorem holding_ofRegistry (r : Registry S C) :
    Holding.ofBatchers (ofRegistry r).batchers = ⟨0, []⟩ := by
  unfold Holding.ofBatchers ofRegistry
  rw [List.map_map, List.flatMap_map, Holding.mk.injEq]
  exact ⟨List.sum_eq_zero fun n hn => (List.mem_map.mp hn).elim fun _ h => h.2.symm,
    List.flatMap_eq_nil_iff.mpr fun _ _ => rfl⟩

/-- **What an observer was told of.**  Let all batchers of an execution of a built registry tell one
observer, and let them move in any order: calls are submitted, ticks are taken, looked at and given
up, gates open, and functions answer what they like.  At every moment:

* the submissions that were not shared are the keys that were taken and those that are pending;
* a dispatch is counted for every tick that was taken and split into groups;
* the invocations of all resolvers add up, to at most the number of all groups of these ticks;
* no more groups failed than were handed to a resolver;
* and when all these ticks have returned, so that none was given up, the invocations are the groups
  of the ticks, and invocations and failures are those of the summaries that were returned. -/
theorem counts_balance {settings : Settings} {ds : List (Declaration S C)} {r : Registry S C}
    (hr : Registry.build settings ds = .ok r) (ms : List (Nat × Move S C)) :
    let start := ofRegistry r
    let counts := Counts.zero.recordAll (start.trace ms)
    let taken := start.along Batcher.takenBy ms
    let returned := start.along Batcher.returnedBy ms
    let groups := ((Taken.formed taken).map Taken.groups).sum
    (counts.deduplicated ≤ counts.submissions ∧
      counts.submissions - counts.deduplicated = (taken.map Taken.keys).sum
        + ((start.run ms).batchers.map fun b => b.pending.size).sum) ∧
    counts.dispatches = (Taken.formed taken).length ∧
    (counts.invocations = (r.bindings.map fun b => counts.invocationsOf b.id).sum ∧
      counts.invocations ≤ groups) ∧
    counts.failedGroups ≤ counts.invocations ∧
    ((∀ t ∈ Taken.formed taken, t.key ∈ Returned.ticks returned) →
      counts.invocations = groups ∧
      counts.invocations = ((Returned.summaries returned).map Summary.groups).sum ∧
      counts.failedGroups = ((Returned.summaries returned).map Summary.failed).sum) := by
  intro start counts taken returned groups
  have hsound := Registry.sound_build hr
  have hids : start.batchers.map Batcher.id = r.services.map Service.id :=
    (each_ofRegistry hsound).ids
  have hd : (start.batchers.map Batcher.id).Nodup := hids ▸ hsound.nodup_service_ids
  have hmoved := moved_run hd (sound_ofRegistry r) ms
  rw [holding_ofRegistry r] at hmoved
  obtain ⟨hkeys, hdispatches, hle, hfailed, hreturned⟩ := hmoved.of_nothing
  obtain ⟨hsubmissions, hdeduplicated, hdispatched, hinvocations, hfailures, hof⟩ :=
    Counts.recordAll_zero (start.trace ms)
  have hsum : (r.bindings.map fun b => counts.invocationsOf b.id).sum
      = (invokedResolvers (start.trace ms)).length := by
    refine Eq.trans ?_ (sum_count hsound.nodup_ids fun n hn => ?_)
    · rw [List.map_map]
      exact congrArg List.sum (List.map_congr_left fun b _ => hof b.id)
    · have hmem := mem_invokedResolvers_trace hn
      rw [hids] at hmem
      obtain ⟨s, hs, rfl⟩ := List.mem_map.mp hmem
      exact List.mem_map_of_mem (Registry.batched_of_services hs).1
  refine ⟨?_, hdispatched.trans hdispatches, ⟨hinvocations.trans hsum.symm, ?_⟩, ?_, fun hall => ?_⟩
  · rw [hsubmissions, hdeduplicated, hkeys, Nat.add_assoc]
    exact ⟨Nat.le_add_right _ _, Nat.add_sub_cancel_left _ _⟩
  · rw [hinvocations]
    exact hle
  · rw [hfailures, hinvocations]
    exact hfailed
  · have hnodup : ((Taken.formed taken).map Taken.key).Nodup :=
      (nodup_taken start ms).sublist (List.filter_sublist.map Taken.key)
    have hsubset : (Taken.formed taken).map Taken.key ⊆ Returned.ticks returned := by
      intro k hk
      obtain ⟨t, ht, rfl⟩ := List.mem_map.mp hk
      exact hall t ht
    have hlength := (hnodup.subperm hsubset).length_le
    rw [List.length_map] at hlength
    rw [hinvocations, hfailures]
    exact hreturned hlength

/-- a resolver that answers every source, and one that always fails. -/
def tallies : List (Declaration Nat Unit) :=
  [.plain "Post" "likes" (.batched ⟨false, false⟩ fun call =>
      .ready (.ok (Table.ofList (call.input.map fun n => (n, .text "many"))))),
    .plain "Post" "views" (.batched ⟨false, false⟩ fun _ => .ready (.error (.message "offline")))]

/-- of four submissions one is shared, two are taken by a tick of each resolver, and one is pending;
one of the two groups fails. -/
theorem counts_balance_of_tallies :
    let ms : List (Nat × Move Nat Unit) := [(0, .submit 5 .empty [] ()), (1, .submit 5 .empty [] ()),
      (0, .submit 5 .empty [] ()), (0, .beginTick), (1, .beginTick), (0, .submit 5 .empty [] ()),
      (1, .poll (fun _ => false) 0), (0, .poll (fun _ => false) 0)]
    ∃ r, Registry.build Settings.default tallies = .ok r ∧
      let counts := Counts.zero.recordAll ((ofRegistry r).trace ms)
      counts.submissions - counts.deduplicated = 2 + 1 ∧ counts.dispatches = 2 ∧
        counts.invocations = 2 ∧ counts.failedGroups = 1 := by
  intro ms
  have hbuild : ∃ r, Registry.build Settings.default tallies = .ok r ∧
      let taken := (ofRegistry r).along Batcher.takenBy ms
      let returned := (ofRegistry r).along Batcher.returnedBy ms
      (taken.map Taken.keys).sum = 2 ∧
        (((ofRegistry r).run ms).batchers.map fun b => b.pending.size).sum = 1 ∧
        (Taken.formed taken).length = 2 ∧ ((Taken.formed taken).map Taken.groups).sum = 2 ∧
        ((Returned.summaries returned).map Summary.failed).sum = 1 ∧
        ∀ t ∈ Taken.formed taken, t.key ∈ Returned.ticks returned := by
    refine ⟨_, rfl, ?_⟩
    decide +kernel
  obtain ⟨r, hr, hkeys, hpending, hformed, hgroups, hfailed, hall⟩ := hbuild
  obtain ⟨⟨_, hsubmissions⟩, hdispatches, _, _, hreturned⟩ := counts_balance hr ms
  obtain ⟨hinvocations, _, hfailures⟩ := hreturned hall
  rw [hkeys, hpending] at hsubmissions
  exact ⟨r, hr, hsubmissions, hdispatches.trans hformed, hinvocations.trans hgroups,
    hfailures.trans hfailed⟩

end Execution
end Batchwise
