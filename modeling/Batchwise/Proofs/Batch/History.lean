import Batchwise.Batch.Batcher
import Batchwise.Proofs.Batch.Tick

/-!
# Histories of a batcher

A history is any sequence of moves: submissions, ticks that are begun, gates that open, ticks that
are gone on with in any order and however they overlap, and ticks that are given up.  The function
may change its mind: what it answers from some point on is a move, too.

* `Batcher.after`, `Batcher.run`   one move and many;
* `Batcher.Consistent`             the open tickets, pending or taken, are distinct and have no
                                   result;
* `Batcher.Advance`                what every move but a submission does to tickets and results.

A dispatch is the two moves `beginTick` and `poll` one after the other (`dispatch_eq`); between
them, and between any two moves, anything else may happen.
-/

set_option linter.unusedSectionVars false

namespace Batchwise

variable {S C : Type} [DecidableEq S] [DecidableEq C]

/-- one thing that happens to a batcher. -/
inductive Move (S C : Type)
  | submit (source : S) (args : Args) (subfields : List Field) (context : C)
  /-- what is pending is taken as a tick. -/
  | beginTick
  /-- gates open. -/
  | wake (isOpen : Gate → Bool)
  /-- a tick is gone on with. -/
  | poll (isOpen : Gate → Bool) (number : Nat)
  /-- a tick is given up. -/
  | drop (number : Nat)
  /-- from now on the function answers like this. -/
  | answer (run : Call (List S) C → Deferred (BatchOutcome S))

namespace Batcher

/-- a batcher after one move. -/
def after (b : Batcher S C) : Move S C → Batcher S C
  | .submit source args subfields context => (b.submit source args subfields context).batcher
  | .beginTick => b.beginTick.batcher
  | .wake isOpen => b.wake isOpen
  | .poll isOpen number => (b.poll isOpen number).batcher
  | .drop number => b.drop number
  | .answer run => { b with service := { b.service with run := run } }

theorem after_submit (b : Batcher S C) (source : S) (args : Args) (subfields : List Field)
    (context : C) : b.after (.submit source args subfields context) =
      (b.submit source args subfields context).batcher := rfl

theorem after_beginTick (b : Batcher S C) : b.after .beginTick = b.beginTick.batcher := rfl

theorem after_poll (b : Batcher S C) (isOpen : Gate → Bool) (number : Nat) :
    b.after (.poll isOpen number) = (b.poll isOpen number).batcher := rfl

theorem after_drop (b : Batcher S C) (number : Nat) :
    b.after (.drop number) = b.drop number := rfl

/-- a batcher after many moves. -/
def run (b : Batcher S C) (ms : List (Move S C)) : Batcher S C := ms.foldl after b

theorem run_nil (b : Batcher S C) : b.run [] = b := rfl

theorem run_cons (b : Batcher S C) (m : Move S C) (ms : List (Move S C)) :
    b.run (m :: ms) = (b.after m).run ms := rfl

theorem run_append (b : Batcher S C) (ms ns : List (Move S C)) :
    b.run (ms ++ ns) = (b.run ms).run ns :=
  List.foldl_append

/-- a dispatch takes what is pending and goes on with it at once. -/
theorem dispatch_eq (b : Batcher S C) (isOpen : Gate → Bool) {number : Nat}
    (h : b.beginTick.dispatch = .running number) :
    (b.dispatch isOpen).batcher = b.run [.beginTick, .poll isOpen number] ∧
      (b.dispatch isOpen).dispatch = ((b.run [.beginTick]).poll isOpen number).dispatch := by
  unfold dispatch
  dsimp only
  rw [h]
  exact ⟨rfl, rfl⟩

/-! ### entering results -/

theorem getElem?_settle_of_notMem {b : Batcher S C} {es : List (Ticket × CallResult S)} {t : Ticket}
    (h : t ∉ es.map Prod.fst) : (b.settle es).results[t]? = b.results[t]? := by
  show (es.foldl _ b.results)[t]? = _
  generalize b.results = rs
  induction es generalizing rs with
  | nil => rfl
  | cons e es ih =>
    rw [List.map_cons, List.mem_cons, not_or] at h
    rw [List.foldl_cons, ih h.2, Array.getElem?_setIfInBounds_ne (fun he => h.1 he.symm)]

theorem getElem?_settle_of_mem {b : Batcher S C} {es : List (Ticket × CallResult S)} {t : Ticket}
    {r : CallResult S} (hd : (es.map Prod.fst).Nodup) (ht : t < b.results.size) (h : (t, r) ∈ es) :
    (b.settle es).results[t]? = some (some r) := by
  show (es.foldl _ b.results)[t]? = _
  generalize b.results = rs at ht
  induction es generalizing rs with
  | nil => cases h
  | cons e es ih =>
    rw [List.map_cons, List.nodup_cons] at hd
    rw [List.foldl_cons]
    rcases List.mem_cons.mp h with rfl | h
    · have hlast := getElem?_settle_of_notMem (b := { b with results := rs.setIfInBounds t (some r) })
        hd.1
      refine Eq.trans hlast ?_
      show (rs.setIfInBounds t (some r))[t]? = _
      rw [Array.getElem?_setIfInBounds_self_of_lt ht]
    · refine ih hd.2 h (rs.setIfInBounds e.1 (some e.2)) ?_
      rw [Array.size_setIfInBounds]
      exact ht

theorem result?_eq_some {b : Batcher S C} {t : Ticket} {r : CallResult S} :
    b.result? t = some r ↔ b.results[t]? = some (some r) := by
  unfold result?
  cases h : b.results[t]? with
  | none => simp
  | some x => simp

theorem result?_of_none {b : Batcher S C} {t : Ticket} (h : b.results[t]? = some none) :
    b.result? t = none := by
  unfold result?
  rw [h]
  rfl

/-! ### open tickets -/

/-- the tickets of calls that are pending or taken and have no result yet. -/
def openTickets (b : Batcher S C) : List Ticket :=
  b.pending.values.map Pending.ticket ++ b.running.flatMap Tick.unsettled

/-- the results of some open tickets are entered, and the others stay open. -/
structure Advance (b b' : Batcher S C) (settled : List (Ticket × CallResult S)) : Prop where
  results_eq : b'.results = (b.settle settled).results
  tickets : (settled.map Prod.fst ++ b'.openTickets).Perm b.openTickets

/-- the open tickets are distinct and have no result. -/
structure Consistent (b : Batcher S C) : Prop where
  nodup : b.openTickets.Nodup
  unsettled : ∀ t ∈ b.openTickets, b.results[t]? = some none

theorem Consistent.lt_size {b : Batcher S C} (h : b.Consistent) {t : Ticket}
    (ht : t ∈ b.openTickets) : t < b.results.size :=
  (Array.getElem?_eq_some_iff.mp (h.unsettled t ht)).1

namespace Advance

variable {b b' : Batcher S C} {settled : List (Ticket × CallResult S)}

theorem nodup (h : Advance b b' settled) (hb : b.Consistent) :
    (settled.map Prod.fst ++ b'.openTickets).Nodup :=
  h.tickets.nodup_iff.mpr hb.nodup

theorem consistent (h : Advance b b' settled) (hb : b.Consistent) : b'.Consistent := by
  have hn := List.nodup_append.mp (h.nodup hb)
  refine ⟨hn.2.1, fun t ht => ?_⟩
  have hnot : t ∉ settled.map Prod.fst := fun hs => hn.2.2 t hs t ht rfl
  rw [h.results_eq, getElem?_settle_of_notMem hnot]
  exact hb.unsettled t (h.tickets.subset (List.mem_append_right _ ht))

theorem keeps (h : Advance b b' settled) (hb : b.Consistent) {t : Ticket} {r : CallResult S}
    (hr : b.result? t = some r) : b'.result? t = some r := by
  rw [result?_eq_some] at hr ⊢
  have hnot : t ∉ settled.map Prod.fst := fun hs => by
    have hopen := hb.unsettled t (h.tickets.subset (List.mem_append_left _ hs))
    rw [hr] at hopen
    cases hopen
  rw [h.results_eq, getElem?_settle_of_notMem hnot, hr]

theorem reads (h : Advance b b' settled) (hb : b.Consistent) {t : Ticket} {r : CallResult S}
    (hr : (t, r) ∈ settled) : b'.result? t = some r := by
  have hmem : t ∈ settled.map Prod.fst := List.mem_map.mpr ⟨_, hr, rfl⟩
  have hopen := h.tickets.subset (List.mem_append_left b'.openTickets hmem)
  rw [result?_eq_some, h.results_eq]
  exact getElem?_settle_of_mem (List.nodup_append.mp (h.nodup hb)).1 (hb.lt_size hopen) hr

theorem idle (hr : b'.results = b.results) (ht : b'.openTickets.Perm b.openTickets) :
    Advance b b' [] :=
  ⟨hr, ht⟩

end Advance

end Batcher
end Batchwise
