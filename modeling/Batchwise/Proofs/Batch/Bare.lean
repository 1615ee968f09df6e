import Batchwise.Proofs.Batch.Recast
import Batchwise.Proofs.Batch.Trace

/-!
# Batchers without arguments

Arguments that the function of a batched resolver does not take are handed to the batcher all the
same, and are kept with the pending calls and their groups.  Nothing comes of them: moves are the
same when the arguments are left out.

* `Recast.bare`            calls without arguments;
* `Batcher.bare`           a batcher whose calls have none;
* `Batcher.ArgsFree`       neither keys nor calls have arguments;
* `Batcher.bare_after`, `Batcher.close_bare`   every move, and giving everything up.
-/

set_option linter.unusedSectionVars false

namespace Batchwise

variable {S C : Type} [DecidableEq S] [DecidableEq C]

/-- arguments are left out. -/
def Recast.bare : Recast := ⟨fun _ => .empty, fun t => t, fun n => n⟩

namespace Tick

def bare (t : Tick S C) : Tick S C := t.recast .bare

theorem poll_bare {s : Service S C} (h : Recast.bare.Keeps s) (isOpen : Gate → Bool)
    (t : Tick S C) :
    t.bare.poll s isOpen = { t.poll s isOpen with tick := (t.poll s isOpen).tick.bare } := by
  have hsettled : (t.poll s isOpen).settled.map (Recast.result .bare) = (t.poll s isOpen).settled :=
    List.map_id _
  rw [bare, poll_recast h, Polled.recast, hsettled]
  rfl

theorem unsettled_bare (t : Tick S C) : t.bare.unsettled = t.unsettled :=
  (unsettled_recast .bare t).trans (List.map_id _)

end Tick

/-! ### moves without arguments -/

def Move.bare : Move S C → Move S C
  | .submit source _ subfields context => .submit source .empty subfields context
  | m => m

namespace Batcher

def bare (b : Batcher S C) : Batcher S C :=
  { b with
    pending := b.pending.mapValues (Recast.pending .bare)
    running := b.running.map Tick.bare }

def Submission.bare (s : Submission S C) : Submission S C := { s with batcher := s.batcher.bare }

def Step.bare (s : Step S C) : Step S C := { s with batcher := s.batcher.bare }

/-- neither the key of a call nor the call itself has arguments. -/
structure ArgsFree (b : Batcher S C) : Prop where
  shape : b.service.shape.takesArgs = false
  signature : b.service.binding.signature.wantsArgs = false

variable {b : Batcher S C}

theorem ArgsFree.keeps (h : b.ArgsFree) : Recast.bare.Keeps b.service := fun htakes =>
  absurd htakes (Bool.eq_false_iff.mp h.shape)

theorem ArgsFree.after (h : b.ArgsFree) (m : Move S C) : (b.after m).ArgsFree := by
  have hcarried := carried_after b m
  constructor
  · rw [hcarried.shape]
    exact h.shape
  · rw [hcarried.binding]
    exact h.signature

theorem tick?_bare (b : Batcher S C) (number : Nat) :
    b.bare.tick? number = (b.tick? number).map Tick.bare := by
  have hrunning : b.bare.running = b.running.map Tick.bare := rfl
  unfold tick?
  rw [hrunning]
  exact find?_number_map Tick.number (f := Tick.bare) (fun _ => rfl) b.running number

theorem tickets_bare (b : Batcher S C) :
    b.bare.pending.values.map Pending.ticket = b.pending.values.map Pending.ticket := by
  unfold Table.values bare Table.mapValues
  dsimp only
  rw [List.map_map, List.map_map, List.map_map]
  rfl

theorem withCall_bare (b : Batcher S C) (key : Key S C) (args : Args)
    (selection : Option Selection) :
    b.bare.withCall key .empty selection = (b.withCall key args selection).bare :=
  congrArg (fun pending => { b.bare with pending := pending, results := b.results.push none })
    (Table.put_mapValues (Recast.pending .bare) b.pending key ⟨args, selection, b.results.size⟩)

theorem submit_bare (h : b.ArgsFree) (source : S) (args : Args) (subfields : List Field)
    (context : C) :
    b.bare.submit source .empty subfields context
      = (b.submit source args subfields context).bare := by
  have hkey : b.bare.keyOf source .empty subfields context
      = b.keyOf source args subfields context := by
    show Key.ofCall b.service.binding.signature source _ _ _ = Key.ofCall _ source _ _ _
    unfold Key.ofCall
    rw [h.signature]
    rfl
  have hfind := Table.find?_mapValues (Recast.pending .bare) b.pending
    (b.keyOf source args subfields context)
  cases hc : b.pending.find? (b.keyOf source args subfields context) with
  | some p =>
    rw [hc, ← hkey] at hfind
    rw [submit_of_some hfind, submit_of_some hc]
    rfl
  | none =>
    rw [hc, ← hkey] at hfind
    have hcall : b.bare.withCall (b.keyOf source args subfields context) .empty
        (b.bare.service.binding.selectionOf subfields) = _ :=
      withCall_bare b (b.keyOf source args subfields context) args _
    rw [submit_of_none hfind, submit_of_none hc, hkey, hcall]
    rfl

theorem formTick_bare (b : Batcher S C) (context : C) :
    b.bare.formTick context b.bare.pending.entries
      = (b.formTick context b.pending.entries).bare := by
  have hgroups : (groupPending b.bare.pending.entries).values
      = (groupPending b.pending.entries).values.map (Group.recast .bare) :=
    values_groupPending_recast .bare b.pending.entries
  have hlength : b.bare.pending.entries.length = b.pending.entries.length := List.length_map _
  unfold formTick
  dsimp only
  rw [hgroups, hlength, List.length_map]
  rfl

theorem taken_bare (b : Batcher S C) (context : C) :
    b.bare.taken context = (b.taken context).bare := by
  have hrunning : b.running.map Tick.bare ++ [b.bare.formTick context b.bare.pending.entries]
      = (b.running ++ [b.formTick context b.pending.entries]).map Tick.bare := by
    rw [formTick_bare, List.map_append, List.map_singleton]
  exact congrArg (fun rs => { b.bare.take with running := rs }) hrunning

theorem beginTick_bare (b : Batcher S C) :
    b.bare.beginTick = b.beginTick.bare := by
  have hlength : b.bare.pending.entries.length = b.pending.entries.length := List.length_map _
  by_cases hsame : SameContext b.pending.entries
  · cases hentries : b.pending.entries with
    | nil =>
      have hnil : b.bare.pending.entries = [] := List.map_eq_nil_iff.mpr hentries
      rw [beginTick_of_nil hnil, beginTick_of_nil hentries]
      rfl
    | cons e es =>
      have he : e ∈ b.pending.entries := hentries ▸ List.mem_cons_self
      have he' : Recast.bare.call e ∈ b.bare.pending.entries := List.mem_map_of_mem he
      have hgroups : (groupPending b.bare.pending.entries).values.length
          = (groupPending b.pending.entries).values.length :=
        (congrArg List.length (values_groupPending_recast .bare b.pending.entries)).trans
          (List.length_map _)
      rw [beginTick_of_same he' (sameContext_recast.mpr hsame), beginTick_of_same he hsame, hlength,
        hgroups]
      have htaken : b.bare.taken (Recast.bare.call e).1.context = _ := taken_bare b e.1.context
      rw [htaken]
      rfl
  · have hsame' : ¬ SameContext b.bare.pending.entries := fun hs => hsame (sameContext_recast.mp hs)
    rw [beginTick_of_differ hsame', beginTick_of_differ hsame, hlength]
    unfold refused
    rw [tickets_bare]
    rfl

theorem settledPhase_bare (b : Batcher S C) (inFlight : Nat) :
    settledPhase inFlight b.bare.pending = settledPhase inFlight b.pending := by
  have hempty : b.bare.pending.isEmpty = b.pending.isEmpty := List.isEmpty_map
  unfold settledPhase
  rw [hempty]

theorem removeTick_bare (b : Batcher S C) (number : Nat) :
    (b.bare.removeTick number).endTick = (b.removeTick number).endTick.bare := by
  have hrunning : (b.running.map Tick.bare).filter (fun u => u.number != number)
      = (b.running.filter fun u => u.number != number).map Tick.bare := List.filter_map
  show ({ b.bare with
    phase := settledPhase (b.inFlight - 1) b.bare.pending, inFlight := b.inFlight - 1,
    running := (b.running.map Tick.bare).filter _ } : Batcher S C) = _
  rw [hrunning, settledPhase_bare]
  rfl

theorem replaceTick_bare (b : Batcher S C) (t : Tick S C) :
    b.bare.replaceTick t.bare = (b.replaceTick t).bare := by
  have hrunning : ((b.running.map Tick.bare).map fun u => if u.number == t.number then t.bare else u)
      = (b.running.map fun u => if u.number == t.number then t else u).map Tick.bare := by
    rw [List.map_map, List.map_map]
    exact List.map_congr_left fun u _ => (apply_ite Tick.bare _ t u).symm
  unfold replaceTick bare
  exact congrArg (fun rs => { b.bare with running := rs }) hrunning

theorem poll_bare (h : b.ArgsFree) (isOpen : Gate → Bool) (number : Nat) :
    b.bare.poll isOpen number = (b.poll isOpen number).bare := by
  have htick := tick?_bare b number
  cases ht : b.tick? number with
  | none =>
    rw [ht] at htick
    rw [poll_of_none htick, poll_of_none ht]
    rfl
  | some t =>
    rw [ht] at htick
    have hpoll : t.bare.poll b.bare.service isOpen = _ := Tick.poll_bare h.keeps isOpen t
    have hdone : (t.bare.poll b.bare.service isOpen).tick.isDone
        = (t.poll b.service isOpen).tick.isDone := by
      rw [hpoll]
      exact Tick.isDone_recast .bare _
    cases hcase : (t.poll b.service isOpen).tick.isDone with
    | true =>
      have hgone := removeTick_bare (b.settle (t.poll b.service isOpen).settled) number
      rw [poll_of_done htick (hdone.trans hcase), poll_of_done ht hcase, hpoll]
      unfold Step.bare
      rw [← hgone]
      rfl
    | false =>
      have hkept := replaceTick_bare (b.settle (t.poll b.service isOpen).settled)
        (t.poll b.service isOpen).tick
      rw [poll_of_open htick (hdone.trans hcase), poll_of_open ht hcase, hpoll]
      unfold Step.bare
      rw [← hkept]
      rfl

theorem drop_bare (b : Batcher S C) (number : Nat) : b.bare.drop number = (b.drop number).bare := by
  have htick := tick?_bare b number
  cases ht : b.tick? number with
  | none =>
    rw [ht] at htick
    rw [drop_of_none htick, drop_of_none ht]
  | some t =>
    rw [ht] at htick
    rw [drop_of_some htick, drop_of_some ht, Tick.unsettled_bare, ← removeTick_bare]
    rfl

theorem wake_bare (b : Batcher S C) (isOpen : Gate → Bool) :
    b.bare.wake isOpen = (b.wake isOpen).bare := by
  have hrunning : (b.running.map Tick.bare).map (Tick.wake isOpen)
      = (b.running.map (Tick.wake isOpen)).map Tick.bare := by
    rw [List.map_map, List.map_map]
    exact List.map_congr_left fun t _ => Tick.wake_recast .bare isOpen t
  exact congrArg (fun rs => { b.bare with running := rs }) hrunning

/-- **Leaving arguments out** before a move or after it is the same, its caller is given the same,
and the same happens on the way. -/
theorem bare_after (h : b.ArgsFree) (m : Move S C) :
    b.bare.after m.bare = (b.after m).bare ∧ b.bare.receipt m.bare = b.receipt m ∧
      b.bare.eventsBy m.bare = b.eventsBy m := by
  cases m with
  | submit source args subfields context =>
    dsimp only [receipt, eventsBy, Move.bare]
    rw [after_submit, after_submit, submit_bare h source args]
    exact ⟨rfl, rfl, rfl⟩
  | beginTick =>
    dsimp only [receipt, eventsBy, Move.bare]
    rw [after_beginTick, after_beginTick, beginTick_bare]
    exact ⟨rfl, rfl, rfl⟩
  | wake isOpen => exact ⟨wake_bare b isOpen, rfl, rfl⟩
  | poll isOpen number =>
    dsimp only [receipt, eventsBy, Move.bare]
    rw [after_poll, after_poll, poll_bare h]
    exact ⟨rfl, rfl, rfl⟩
  | drop number => exact ⟨drop_bare b number, rfl, rfl⟩
  | answer run => exact ⟨rfl, rfl, rfl⟩

theorem close_bare (b : Batcher S C) : b.bare.close = b.close.bare := by
  have hfold : ∀ (numbers : List Nat) (c : Batcher S C),
      numbers.foldl drop c.bare = (numbers.foldl drop c).bare := by
    intro numbers
    induction numbers with
    | nil => exact fun c => rfl
    | cons n ns ih =>
      intro c
      rw [List.foldl_cons, List.foldl_cons, drop_bare, ih]
  have hnumbers : b.bare.running.map Tick.number = b.running.map Tick.number := by
    show (b.running.map Tick.bare).map Tick.number = _
    rw [List.map_map]
    rfl
  unfold close
  rw [hnumbers, hfold]
  generalize (b.running.map Tick.number).foldl drop b = c
  dsimp only
  rw [tickets_bare]
  rfl

end Batcher
end Batchwise
