import Batchwise.Proofs.Batch.History
import Mathlib.Data.List.Perm.Basic

/-!
# What holds in every history

Each move is written down once in full, and described by what becomes of the pending calls, of the
running ticks, and of the open tickets.  Soundness of a batcher follows move by move, and from it
that a result that was entered stays for good.

* `submit_of_some`, `submit_of_none`   a submission joins a pending call or adds one;
* `beginTick_of_nil`, `beginTick_of_same`, `beginTick_of_differ`   what is pending becomes a tick;
* `poll_of_none`, `poll_of_done`, `poll_of_open`   a look at a tick;
* `submit_cases`, `beginTick_cases`, `poll_cases`   what a move can do;
* `Batcher.Sound`     open tickets are distinct and without result, pending calls stand under their
                      own keys, running ticks have distinct numbers and aligned groups;
* `sound_run`         every history is sound;
* `result?_run`       every result stays.
-/

set_option linter.unusedSectionVars false

namespace Batchwise

variable {S C : Type} [DecidableEq S] [DecidableEq C]

/-- all calls carry one context. -/
def SameContext (es : List (Key S C × Pending)) : Prop :=
  ∀ e ∈ es, ∀ f ∈ es, e.1.context = f.1.context

/-- all calls carry one context where each carries that of the first. -/
theorem sameContext_cons_iff (e : Key S C × Pending) (es : List (Key S C × Pending)) :
    (es.all fun f => decide (f.1.context = e.1.context)) = true ↔ SameContext (e :: es) := by
  rw [List.all_eq_true]
  constructor
  · intro hall
    have heq : ∀ f ∈ e :: es, f.1.context = e.1.context := by
      intro f hf
      rcases List.mem_cons.mp hf with rfl | hf
      · rfl
      · exact of_decide_eq_true (hall f hf)
    exact fun f hf g hg => (heq f hf).trans (heq g hg).symm
  · intro hsame f hf
    exact decide_eq_true (hsame f (List.mem_cons_of_mem _ hf) e List.mem_cons_self)

/-- a pending call stands under the key of its own arguments and selection, and the selection is
as deep as the signature says. -/
structure Service.Calls (s : Service S C) (e : Key S C × Pending) : Prop where
  key_eq : Key.ofCall s.binding.signature e.1.source e.2.args e.2.selection e.1.context = e.1
  depth_eq : e.2.selection.map Selection.depth = s.binding.signature.selection

/-- the phase after a submission: a batcher that had completed collects again. -/
def Phase.resumed (p : Phase) : Phase := if p = .completed then .collecting else p

namespace Batcher

/-! ### submissions -/

/-- the key under which a call is pending. -/
def keyOf (b : Batcher S C) (source : S) (args : Args) (subfields : List Field) (context : C) :
    Key S C :=
  Key.ofCall b.service.binding.signature source args (b.service.binding.selectionOf subfields)
    context

/-- what a submission of a new call leaves behind. -/
def withCall (b : Batcher S C) (key : Key S C) (args : Args) (selection : Option Selection) :
    Batcher S C :=
  { b with
    pending := b.pending.put key ⟨args, selection, b.results.size⟩
    results := b.results.push none }

theorem submit_of_some {b : Batcher S C} {source : S} {args : Args} {subfields : List Field}
    {context : C} {p : Pending}
    (h : b.pending.find? (b.keyOf source args subfields context) = some p) :
    b.submit source args subfields context =
      ⟨{ b with phase := b.phase.resumed }, p.ticket, [.submitted b.id true]⟩ := by
  unfold keyOf at h
  unfold submit
  dsimp only
  rw [h]
  rfl

theorem submit_of_none {b : Batcher S C} {source : S} {args : Args} {subfields : List Field}
    {context : C} (h : b.pending.find? (b.keyOf source args subfields context) = none) :
    b.submit source args subfields context =
      ⟨{ b.withCall (b.keyOf source args subfields context) args
          (b.service.binding.selectionOf subfields) with phase := b.phase.resumed },
        b.results.size, [.submitted b.id false]⟩ := by
  unfold keyOf at h
  unfold submit
  dsimp only
  rw [h]
  rfl

/-- a submission joins the pending call of its key, or adds one with a new ticket. -/
theorem submit_cases (b : Batcher S C) (source : S) (args : Args) (subfields : List Field)
    (context : C) :
    ∃ phase,
      (∃ p, b.pending.find? (b.keyOf source args subfields context) = some p ∧
        (b.submit source args subfields context).ticket = p.ticket ∧
        (b.submit source args subfields context).batcher = { b with phase := phase }) ∨
      (b.pending.find? (b.keyOf source args subfields context) = none ∧
        (b.submit source args subfields context).ticket = b.results.size ∧
        (b.submit source args subfields context).batcher =
          { b.withCall (b.keyOf source args subfields context) args
              (b.service.binding.selectionOf subfields) with phase := phase }) := by
  refine ⟨b.phase.resumed, ?_⟩
  cases h : b.pending.find? (b.keyOf source args subfields context) with
  | some p =>
    rw [submit_of_some h]
    exact Or.inl ⟨p, rfl, rfl, rfl⟩
  | none =>
    rw [submit_of_none h]
    exact Or.inr ⟨rfl, rfl, rfl⟩

theorem events_submit (b : Batcher S C) (source : S) (args : Args) (subfields : List Field)
    (context : C) :
    ∃ shared, (b.submit source args subfields context).events = [.submitted b.id shared] := by
  cases h : b.pending.find? (b.keyOf source args subfields context) with
  | some p =>
    rw [submit_of_some h]
    exact ⟨true, rfl⟩
  | none =>
    rw [submit_of_none h]
    exact ⟨false, rfl⟩

theorem keyOf_calls (b : Batcher S C) (source : S) (args : Args) (subfields : List Field)
    (context : C) (ticket : Ticket) :
    b.service.Calls (b.keyOf source args subfields context,
      ⟨args, b.service.binding.selectionOf subfields, ticket⟩) := by
  refine ⟨rfl, ?_⟩
  show (b.service.binding.signature.selection.map _).map Selection.depth = _
  rw [Option.map_map]
  exact Option.map_id'

/-! ### beginning a tick -/

/-- the pending calls as a tick with all groups in its queue. -/
def taken (b : Batcher S C) (context : C) : Batcher S C :=
  { b.take with running := b.running ++ [b.formTick context b.pending.entries] }

/-- the pending calls refused together. -/
def refused (b : Batcher S C) : Batcher S C :=
  (b.take.settleAll (b.pending.values.map Pending.ticket)
    (.error (.contextDivergence b.service.name))).endTick

theorem beginTick_of_nil {b : Batcher S C} (h : b.pending.entries = []) :
    b.beginTick = ⟨b, .ended (.ok ⟨b.id, 0, 0, 0⟩), [], []⟩ := by
  unfold beginTick
  rw [h]

theorem beginTick_of_same {b : Batcher S C} {e : Key S C × Pending} (he : e ∈ b.pending.entries)
    (hsame : SameContext b.pending.entries) :
    b.beginTick = ⟨b.taken e.1.context, .running b.ticks, [],
      [.dispatched b.id b.pending.entries.length (groupPending b.pending.entries).values.length]⟩ := by
  unfold beginTick taken
  cases h : b.pending.entries with
  | nil =>
    rw [h] at he
    cases he
  | cons f fs =>
    rw [h] at he hsame
    dsimp only
    rw [if_pos ((sameContext_cons_iff f fs).mpr hsame), hsame e he f List.mem_cons_self]
    rfl

theorem beginTick_of_differ {b : Batcher S C} (hdiff : ¬ SameContext b.pending.entries) :
    b.beginTick = ⟨b.refused, .ended (.error (.contextDivergence b.service.name)), [],
      [.diverged b.id b.pending.entries.length]⟩ := by
  unfold beginTick refused Table.values
  cases h : b.pending.entries with
  | nil =>
    rw [h] at hdiff
    exact absurd (fun _ he => by cases he) hdiff
  | cons e es =>
    rw [h] at hdiff
    dsimp only
    rw [if_neg fun hall => hdiff ((sameContext_cons_iff e es).mp hall), List.map_map]
    rfl

/-- a tick is taken unless nothing is pending or contexts differ. -/
theorem beginTick_cases (b : Batcher S C) :
    (b.pending.entries = [] ∧ b.beginTick.batcher = b) ∨
    (SameContext b.pending.entries ∧ b.beginTick.dispatch = .running b.ticks ∧
      ∃ e ∈ b.pending.entries, b.beginTick.batcher = b.taken e.1.context) ∨
    (¬ SameContext b.pending.entries ∧
      b.beginTick.dispatch = .ended (.error (.contextDivergence b.service.name)) ∧
      b.beginTick.batcher = b.refused) := by
  by_cases hnil : b.pending.entries = []
  · rw [beginTick_of_nil hnil]
    exact Or.inl ⟨hnil, rfl⟩
  · right
    by_cases hsame : SameContext b.pending.entries
    · obtain ⟨e, he⟩ := List.exists_mem_of_ne_nil _ hnil
      rw [beginTick_of_same he hsame]
      exact Or.inl ⟨hsame, rfl, e, he, rfl⟩
    · rw [beginTick_of_differ hsame]
      exact Or.inr ⟨hsame, rfl, rfl⟩

/-! ### going on with a tick -/

/-- a tick in the place of the running one of its number. -/
def replaceTick (b : Batcher S C) (t : Tick S C) : Batcher S C :=
  { b with running := b.running.map fun u => if u.number == t.number then t else u }

/-- the running ticks without the one of a number. -/
def removeTick (b : Batcher S C) (number : Nat) : Batcher S C :=
  { b with running := b.running.filter fun u => u.number != number }

theorem number_of_tick? {b : Batcher S C} {number : Nat} {t : Tick S C}
    (h : b.tick? number = some t) : t.number = number :=
  number_of_find? h

theorem mem_of_tick? {b : Batcher S C} {number : Nat} {t : Tick S C}
    (h : b.tick? number = some t) : t ∈ b.running :=
  List.mem_of_find?_eq_some h

theorem poll_of_none {b : Batcher S C} {number : Nat} (h : b.tick? number = none)
    (isOpen : Gate → Bool) : b.poll isOpen number = ⟨b, .running number, [], []⟩ := by
  unfold poll
  rw [h]

theorem poll_of_done {b : Batcher S C} {number : Nat} {t : Tick S C} {isOpen : Gate → Bool}
    (ht : b.tick? number = some t) (hdone : (t.poll b.service isOpen).tick.isDone = true) :
    b.poll isOpen number =
      ⟨((b.settle (t.poll b.service isOpen).settled).removeTick number).endTick,
        .ended (.ok ⟨b.id, t.keys, t.groups, (t.poll b.service isOpen).tick.failed⟩),
        (t.poll b.service isOpen).arrivals, (t.poll b.service isOpen).events⟩ := by
  unfold poll
  rw [ht]
  dsimp only
  rw [if_pos hdone]
  rfl

theorem poll_of_open {b : Batcher S C} {number : Nat} {t : Tick S C} {isOpen : Gate → Bool}
    (ht : b.tick? number = some t) (hopen : (t.poll b.service isOpen).tick.isDone = false) :
    b.poll isOpen number =
      ⟨(b.settle (t.poll b.service isOpen).settled).replaceTick (t.poll b.service isOpen).tick,
        .running number, (t.poll b.service isOpen).arrivals,
        (t.poll b.service isOpen).events⟩ := by
  have hnumber : (t.poll b.service isOpen).tick.number = number :=
    number_of_tick? (b := b) (t := t) ht
  unfold poll replaceTick
  rw [ht, hnumber]
  dsimp only
  rw [hopen, if_neg Bool.false_ne_true]

/-- a look enters the results of the groups that are done; the tick ends when all of them are. -/
theorem poll_cases (b : Batcher S C) (isOpen : Gate → Bool) (number : Nat) :
    (b.tick? number = none ∧ (b.poll isOpen number).batcher = b ∧
      (b.poll isOpen number).dispatch = .running number ∧ (b.poll isOpen number).events = []) ∨
    (∃ t, b.tick? number = some t ∧
      (b.poll isOpen number).events = (t.poll b.service isOpen).events ∧
      (((t.poll b.service isOpen).tick.isDone = true ∧
        (∃ summary, (b.poll isOpen number).dispatch = .ended (.ok summary)) ∧
        (b.poll isOpen number).batcher =
          ((b.settle (t.poll b.service isOpen).settled).removeTick number).endTick) ∨
      ((t.poll b.service isOpen).tick.isDone = false ∧
        (b.poll isOpen number).dispatch = .running number ∧
        (b.poll isOpen number).batcher =
          (b.settle (t.poll b.service isOpen).settled).replaceTick
            (t.poll b.service isOpen).tick))) := by
  cases ht : b.tick? number with
  | none =>
    rw [poll_of_none ht]
    exact Or.inl ⟨rfl, rfl, rfl, rfl⟩
  | some t =>
    refine Or.inr ⟨t, rfl, ?_⟩
    cases hdone : (t.poll b.service isOpen).tick.isDone with
    | true =>
      rw [poll_of_done ht hdone]
      exact ⟨rfl, Or.inl ⟨rfl, ⟨_, rfl⟩, rfl⟩⟩
    | false =>
      rw [poll_of_open ht hdone]
      exact ⟨rfl, Or.inr ⟨rfl, rfl, rfl⟩⟩

theorem exists_split {b : Batcher S C} {number : Nat} {t : Tick S C}
    (hn : (b.running.map Tick.number).Nodup) (h : b.tick? number = some t) :
    ∃ us vs, b.running = us ++ t :: vs ∧ ∀ u ∈ us ++ vs, u.number ≠ number :=
  exists_split_number hn h

theorem running_removeTick {b : Batcher S C} {number : Nat} {t : Tick S C}
    {us vs : List (Tick S C)} (hsplit : b.running = us ++ t :: vs) (ht : t.number = number)
    (hne : ∀ u ∈ us ++ vs, u.number ≠ number) : (b.removeTick number).running = us ++ vs := by
  have hkeep : (us ++ vs).filter (fun u => u.number != number) = us ++ vs := by
    rw [List.filter_eq_self]
    exact fun u hu => bne_iff_ne.mpr (hne u hu)
  rw [List.filter_append] at hkeep
  show b.running.filter _ = _
  rw [hsplit, List.filter_append, List.filter_cons_of_neg (by simp [ht]), hkeep]

theorem running_replaceTick {b : Batcher S C} {t t' : Tick S C} {us vs : List (Tick S C)}
    (hsplit : b.running = us ++ t :: vs) (ht : t.number = t'.number)
    (hne : ∀ u ∈ us ++ vs, u.number ≠ t'.number) :
    (b.replaceTick t').running = us ++ t' :: vs := by
  show b.running.map _ = _
  rw [hsplit]
  exact map_replace_split Tick.number ht hne

/-- of the running ticks a look changes the one that it looks at. -/
theorem running_poll {b : Batcher S C} (hn : (b.running.map Tick.number).Nodup)
    (isOpen : Gate → Bool) {number : Nat} {t : Tick S C} (ht : b.tick? number = some t) :
    ∃ us vs, b.running = us ++ t :: vs ∧ (b.poll isOpen number).batcher.running =
      us ++ (if (t.poll b.service isOpen).tick.isDone then []
        else [(t.poll b.service isOpen).tick]) ++ vs := by
  obtain ⟨us, vs, hsplit, hne⟩ := exists_split hn ht
  refine ⟨us, vs, hsplit, ?_⟩
  cases hdone : (t.poll b.service isOpen).tick.isDone with
  | true =>
    rw [poll_of_done ht hdone, if_pos rfl, List.append_nil]
    exact running_removeTick hsplit (number_of_tick? ht) hne
  | false =>
    rw [poll_of_open ht hdone, if_neg Bool.false_ne_true, List.append_assoc]
    refine running_replaceTick hsplit rfl ?_
    show ∀ u ∈ us ++ vs, u.number ≠ t.number
    rw [number_of_tick? ht]
    exact hne

/-! ### what a move does to open tickets -/

theorem advance_refused (b : Batcher S C) :
    Advance b b.refused ((b.pending.values.map Pending.ticket).map fun t =>
      (t, .error (.contextDivergence b.service.name))) := by
  refine ⟨rfl, ?_⟩
  rw [List.map_map]
  exact List.Perm.of_eq (congrArg (fun ts => ts ++ b.refused.openTickets)
    (List.map_id (b.pending.values.map Pending.ticket)))

theorem openGroups_formTick (b : Batcher S C) (context : C) (es : List (Key S C × Pending)) :
    (b.formTick context es).openGroups = (groupPending es).values := rfl

theorem advance_taken (b : Batcher S C) (context : C) : Advance b (b.taken context) [] := by
  refine ⟨rfl, ?_⟩
  show ((b.running ++ [b.formTick context b.pending.entries]).flatMap Tick.unsettled).Perm
    (b.pending.values.map Pending.ticket ++ b.running.flatMap Tick.unsettled)
  rw [List.flatMap_append, List.flatMap_singleton, Tick.unsettled_eq, openGroups_formTick]
  have htickets : b.pending.values.map Pending.ticket
      = b.pending.entries.map fun e => e.2.ticket := by
    unfold Table.values
    rw [List.map_map]
    rfl
  rw [htickets]
  exact ((perm_tickets_groups b.pending.entries).append_left _).trans List.perm_append_comm

theorem advance_replace {b b' : Batcher S C} {t : Tick S C} {us vs : List (Tick S C)}
    (ts : List (Tick S C)) {settled : List (Ticket × CallResult S)} (hsplit : b.running = us ++ t :: vs)
    (hpending : b'.pending = b.pending) (hrunning : b'.running = us ++ ts ++ vs)
    (hresults : b'.results = (b.settle settled).results)
    (htickets : (settled.map Prod.fst ++ ts.flatMap Tick.unsettled).Perm t.unsettled) :
    Advance b b' settled := by
  refine ⟨hresults, ?_⟩
  unfold openTickets
  rw [hpending, hrunning, hsplit, List.flatMap_append, List.flatMap_append, List.flatMap_append,
    List.flatMap_cons]
  generalize b.pending.values.map Pending.ticket = ps
  generalize us.flatMap Tick.unsettled = xs
  generalize vs.flatMap Tick.unsettled = ys
  have hmid : (settled.map Prod.fst ++ (ps ++ (xs ++ ts.flatMap Tick.unsettled ++ ys))).Perm
      (ps ++ xs ++ (settled.map Prod.fst ++ ts.flatMap Tick.unsettled) ++ ys) := by
    have hswap : (settled.map Prod.fst ++ (ps ++ xs)).Perm (ps ++ xs ++ settled.map Prod.fst) :=
      List.perm_append_comm
    have h := hswap.append_right (ts.flatMap Tick.unsettled ++ ys)
    simp only [List.append_assoc] at h ⊢
    exact h
  refine hmid.trans ?_
  have h := (htickets.append_left (ps ++ xs)).append_right ys
  simp only [List.append_assoc] at h ⊢
  exact h

theorem advance_poll {b : Batcher S C} (hn : (b.running.map Tick.number).Nodup)
    (isOpen : Gate → Bool) {number : Nat} {t : Tick S C} (ht : b.tick? number = some t) :
    Advance b (b.poll isOpen number).batcher (t.poll b.service isOpen).settled := by
  obtain ⟨us, vs, hsplit, hrunning⟩ := running_poll hn isOpen ht
  have htickets := Tick.perm_unsettled_poll b.service isOpen t
  cases hdone : (t.poll b.service isOpen).tick.isDone with
  | true =>
    rw [hdone, if_pos rfl, poll_of_done ht hdone] at hrunning
    rw [poll_of_done ht hdone]
    rw [Tick.unsettled_of_isDone hdone] at htickets
    exact advance_replace [] hsplit rfl hrunning rfl htickets
  | false =>
    rw [hdone, if_neg Bool.false_ne_true, poll_of_open ht hdone] at hrunning
    rw [poll_of_open ht hdone]
    refine advance_replace [(t.poll b.service isOpen).tick] hsplit rfl hrunning rfl ?_
    rw [List.flatMap_singleton]
    exact htickets

theorem drop_of_none {b : Batcher S C} {number : Nat} (h : b.tick? number = none) :
    b.drop number = b := by
  unfold drop
  rw [h]

theorem drop_of_some {b : Batcher S C} {number : Nat} {t : Tick S C}
    (h : b.tick? number = some t) : b.drop number =
      ((b.settleAll t.unsettled (.error (.abandoned b.service.name))).removeTick number).endTick := by
  unfold drop
  rw [h]
  rfl

theorem advance_drop {b : Batcher S C} (hn : (b.running.map Tick.number).Nodup) {number : Nat}
    {t : Tick S C} (ht : b.tick? number = some t) :
    Advance b (b.drop number)
      (t.unsettled.map fun ticket => (ticket, .error (.abandoned b.service.name))) := by
  obtain ⟨us, vs, hsplit, hne⟩ := exists_split hn ht
  rw [drop_of_some ht]
  refine advance_replace [] hsplit rfl ?_ rfl ?_
  · rw [List.append_nil]
    exact running_removeTick hsplit (number_of_tick? ht) hne
  · rw [List.map_map, List.flatMap_nil, List.append_nil]
    exact List.Perm.of_eq (List.map_id _)

theorem advance_wake (b : Batcher S C) (isOpen : Gate → Bool) : Advance b (b.wake isOpen) [] := by
  refine Advance.idle rfl ?_
  show (_ ++ (b.running.map (Tick.wake isOpen)).flatMap Tick.unsettled).Perm _
  rw [List.flatMap_map]
  refine List.Perm.append_left _ ?_
  exact List.Perm.flatMap_left _ fun t _ => Tick.perm_unsettled_wake isOpen t

theorem perm_openTickets_withCall {b : Batcher S C} {key : Key S C} (args : Args)
    (selection : Option Selection) (h : b.pending.find? key = none) :
    (b.withCall key args selection).openTickets.Perm (b.results.size :: b.openTickets) := by
  have hentries := Table.entries_put_of_notMem (t := b.pending)
    (⟨args, selection, b.results.size⟩ : Pending) (Table.find?_eq_none_iff.mp h)
  show ((b.pending.put key _).entries.map Prod.snd |>.map Pending.ticket).append _ |>.Perm _
  rw [hentries, List.map_append, List.map_append]
  have hswap : ((b.pending.entries.map Prod.snd).map Pending.ticket ++ [b.results.size]).Perm
      ([b.results.size] ++ (b.pending.entries.map Prod.snd).map Pending.ticket) :=
    List.perm_append_comm
  exact hswap.append_right _

theorem consistent_withCall {b : Batcher S C} (hb : b.Consistent) {key : Key S C} (args : Args)
    (selection : Option Selection) (h : b.pending.find? key = none) :
    (b.withCall key args selection).Consistent := by
  have hperm := perm_openTickets_withCall args selection h
  constructor
  · rw [hperm.nodup_iff, List.nodup_cons]
    exact ⟨fun hm => absurd (hb.lt_size hm) (Nat.lt_irrefl _), hb.nodup⟩
  · intro t ht
    show (b.results.push none)[t]? = some none
    rcases List.mem_cons.mp (hperm.subset ht) with rfl | ht
    · exact Array.getElem?_push_size
    · rw [Array.getElem?_push_lt (hb.lt_size ht)]
      rw [← Array.getElem?_eq_getElem (hb.lt_size ht)]
      exact hb.unsettled t ht

/-! ### soundness -/

/-- what holds of a batcher in every history. -/
structure Sound (b : Batcher S C) : Prop extends Consistent b where
  calls : ∀ e ∈ b.pending.entries, b.service.Calls e
  numbers : (b.running.map Tick.number).Nodup
  numbers_lt : ∀ t ∈ b.running, t.number < b.ticks
  fit : ∀ t ∈ b.running, t.Fit

theorem sound_new (maxConcurrentGroups : Option Nat) (service : Service S C) :
    (Batcher.new maxConcurrentGroups service).Sound where
  nodup := List.nodup_nil
  unsettled := fun _ h => by cases h
  calls := fun _ h => by cases h
  numbers := List.nodup_nil
  numbers_lt := fun _ h => by cases h
  fit := fun _ h => by cases h

namespace Sound

variable {b b' : Batcher S C}

theorem submit (h : b.Sound) (source : S) (args : Args) (subfields : List Field) (context : C) :
    (b.submit source args subfields context).batcher.Sound := by
  obtain ⟨phase, hcases⟩ := submit_cases b source args subfields context
  rcases hcases with ⟨p, _, _, hb⟩ | ⟨hnone, _, hb⟩
  · rw [hb]
    exact ⟨⟨h.nodup, h.unsettled⟩, h.calls, h.numbers, h.numbers_lt, h.fit⟩
  · rw [hb]
    have hc := consistent_withCall h.toConsistent args (b.service.binding.selectionOf subfields) hnone
    refine ⟨⟨hc.nodup, hc.unsettled⟩, ?_, h.numbers, h.numbers_lt, h.fit⟩
    intro e he
    have hentries := Table.entries_put_of_notMem (t := b.pending)
      (⟨args, b.service.binding.selectionOf subfields, b.results.size⟩ : Pending)
      (Table.find?_eq_none_iff.mp hnone)
    have he' : e ∈ (b.pending.put (b.keyOf source args subfields context) _).entries := he
    rw [hentries] at he'
    rcases List.mem_append.mp he' with he' | he'
    · exact h.calls e he'
    · rw [List.mem_singleton.mp he']
      exact keyOf_calls b source args subfields context _

theorem beginTick (h : b.Sound) : b.beginTick.batcher.Sound := by
  rcases beginTick_cases b with ⟨_, hb⟩ | ⟨hsame, _, e, _, hb⟩ | ⟨_, _, hb⟩
  · rw [hb]
    exact h
  · rw [hb]
    have hc := (advance_taken b e.1.context).consistent h.toConsistent
    refine ⟨hc, fun _ hm => (by cases hm), ?_, ?_, ?_⟩
    · show ((b.running ++ [b.formTick _ _]).map Tick.number).Nodup
      rw [List.map_append, List.nodup_append]
      refine ⟨h.numbers, by simp, ?_⟩
      intro n hn m hm
      obtain ⟨t, ht, rfl⟩ := List.mem_map.mp hn
      have hlt := h.numbers_lt t ht
      have hm' : m = b.ticks := List.mem_singleton.mp hm
      omega
    · intro t ht
      show t.number < b.ticks + 1
      rcases List.mem_append.mp ht with ht | ht
      · exact Nat.lt_succ_of_lt (h.numbers_lt t ht)
      · rw [List.mem_singleton.mp ht]
        exact Nat.lt_succ_self _
    · intro t ht
      rcases List.mem_append.mp ht with ht | ht
      · exact h.fit t ht
      · rw [List.mem_singleton.mp ht]
        refine ⟨Nat.lt_of_lt_of_le Nat.zero_lt_one (Nat.le_max_left 1 _), fun g hg => ?_⟩
        exact aligned_of_mem_groups b.pending.distinct hsame hg
  · rw [hb]
    have hc := (advance_refused b).consistent h.toConsistent
    exact ⟨hc, fun _ hm => (by cases hm), h.numbers,
      fun t ht => Nat.lt_succ_of_lt (h.numbers_lt t ht), h.fit⟩

theorem replace (h : b.Sound) (ts : List (Tick S C)) (hc : b'.Consistent) {t : Tick S C}
    {us vs : List (Tick S C)}
    (hbinding : b'.service.binding = b.service.binding) (hpending : b'.pending = b.pending)
    (hticks : b'.ticks = b.ticks) (hsplit : b.running = us ++ t :: vs)
    (hrunning : b'.running = us ++ ts ++ vs)
    (hts : (ts.map Tick.number).Sublist [t.number] ∧ ∀ t' ∈ ts, t'.Fit) : b'.Sound := by
  have hold : ∀ u, u ∈ us ∨ u ∈ vs → u ∈ b.running := fun u hu => by
    rw [hsplit, List.mem_append, List.mem_cons]
    exact hu.imp (fun hu => hu) Or.inr
  have hmem : ∀ u ∈ b'.running, (u ∈ us ∨ u ∈ vs) ∨ u ∈ ts := fun u hu => by
    rw [hrunning, List.mem_append, List.mem_append] at hu
    tauto
  have ht : t ∈ b.running := by
    rw [hsplit]
    exact List.mem_append_right _ List.mem_cons_self
  refine ⟨hc, ?_, ?_, ?_, ?_⟩
  · rw [hpending]
    intro e he
    obtain ⟨hkey, hdepth⟩ := h.calls e he
    rw [← hbinding] at hkey hdepth
    exact ⟨hkey, hdepth⟩
  · have hn := h.numbers
    rw [hsplit, List.map_append, List.map_cons] at hn
    rw [hrunning, List.map_append, List.map_append]
    refine hn.sublist ?_
    rw [List.append_assoc]
    exact (List.Sublist.refl _).append (hts.1.append (List.Sublist.refl (vs.map Tick.number)))
  · intro u hu
    rw [hticks]
    rcases hmem u hu with hu | hu
    · exact h.numbers_lt u (hold u hu)
    · have hn : u.number = t.number :=
        List.mem_singleton.mp (hts.1.subset (List.mem_map_of_mem hu))
      rw [hn]
      exact h.numbers_lt t ht
  · intro u hu
    rcases hmem u hu with hu | hu
    · exact h.fit u (hold u hu)
    · exact hts.2 u hu

theorem poll (h : b.Sound) (isOpen : Gate → Bool) (number : Nat) :
    (b.poll isOpen number).batcher.Sound := by
  cases ht : b.tick? number with
  | none =>
    rw [poll_of_none ht]
    exact h
  | some t =>
    have hc := (advance_poll h.numbers isOpen ht).consistent h.toConsistent
    obtain ⟨us, vs, hsplit, hrunning⟩ := running_poll h.numbers isOpen ht
    cases hdone : (t.poll b.service isOpen).tick.isDone with
    | true =>
      rw [hdone, if_pos rfl, poll_of_done ht hdone] at hrunning
      rw [poll_of_done ht hdone] at hc ⊢
      exact h.replace [] hc rfl rfl rfl hsplit hrunning
        ⟨List.nil_sublist _, fun _ hm => by cases hm⟩
    | false =>
      rw [hdone, if_neg Bool.false_ne_true, poll_of_open ht hdone] at hrunning
      rw [poll_of_open ht hdone] at hc ⊢
      refine h.replace [(t.poll b.service isOpen).tick] hc rfl rfl rfl hsplit hrunning
        ⟨List.Sublist.refl _, fun t' ht' => ?_⟩
      rw [List.mem_singleton.mp ht']
      exact (h.fit t (mem_of_tick? ht)).poll b.service isOpen

theorem drop (h : b.Sound) (number : Nat) : (b.drop number).Sound := by
  cases ht : b.tick? number with
  | none =>
    rw [drop_of_none ht]
    exact h
  | some t =>
    have hc := (advance_drop h.numbers ht).consistent h.toConsistent
    obtain ⟨us, vs, hsplit, hne⟩ := exists_split h.numbers ht
    rw [drop_of_some ht] at hc ⊢
    refine h.replace [] hc rfl rfl rfl hsplit ?_
      ⟨List.nil_sublist _, fun _ hm => by cases hm⟩
    rw [List.append_nil]
    exact running_removeTick hsplit (number_of_tick? ht) hne

theorem wake (h : b.Sound) (isOpen : Gate → Bool) : (b.wake isOpen).Sound := by
  have hc := (advance_wake b isOpen).consistent h.toConsistent
  refine ⟨hc, h.calls, ?_, ?_, ?_⟩
  · show ((b.running.map (Tick.wake isOpen)).map Tick.number).Nodup
    rw [List.map_map]
    exact h.numbers
  · intro t ht
    obtain ⟨u, hu, rfl⟩ := List.mem_map.mp ht
    exact h.numbers_lt u hu
  · intro t ht
    obtain ⟨u, hu, rfl⟩ := List.mem_map.mp ht
    exact (h.fit u hu).wake isOpen

theorem after (h : b.Sound) (m : Move S C) : (b.after m).Sound := by
  cases m with
  | submit source args subfields context => exact h.submit source args subfields context
  | beginTick => exact h.beginTick
  | wake isOpen => exact h.wake isOpen
  | poll isOpen number => exact h.poll isOpen number
  | drop number => exact h.drop number
  | answer run =>
    exact ⟨⟨h.nodup, h.unsettled⟩, fun e he => ⟨(h.calls e he).key_eq, (h.calls e he).depth_eq⟩,
      h.numbers, h.numbers_lt, h.fit⟩

end Sound

/-- **Every history is sound.** -/
theorem sound_run {b : Batcher S C} (h : b.Sound) (ms : List (Move S C)) : (b.run ms).Sound := by
  induction ms generalizing b with
  | nil => exact h
  | cons m ms ih => exact ih (h.after m)

/-! ### results stay -/

theorem result?_after {b : Batcher S C} (h : b.Sound) (m : Move S C) {t : Ticket}
    {r : CallResult S} (hr : b.result? t = some r) : (b.after m).result? t = some r := by
  cases m with
  | submit source args subfields context =>
    show (b.submit source args subfields context).batcher.result? t = some r
    obtain ⟨phase, hcases⟩ := submit_cases b source args subfields context
    rcases hcases with ⟨p, _, _, hb⟩ | ⟨_, _, hb⟩
    · rw [hb]
      exact hr
    · rw [hb, result?_eq_some]
      rw [result?_eq_some] at hr
      have hlt := (Array.getElem?_eq_some_iff.mp hr).1
      show (b.results.push none)[t]? = _
      rw [Array.getElem?_push_lt hlt, ← Array.getElem?_eq_getElem hlt]
      exact hr
  | beginTick =>
    show b.beginTick.batcher.result? t = some r
    rcases beginTick_cases b with ⟨_, hb⟩ | ⟨_, _, e, _, hb⟩ | ⟨_, _, hb⟩
    · rw [hb]
      exact hr
    · rw [hb]
      exact hr
    · rw [hb]
      exact (advance_refused b).keeps h.toConsistent hr
  | wake isOpen => exact hr
  | poll isOpen number =>
    show (b.poll isOpen number).batcher.result? t = some r
    rcases poll_cases b isOpen number with ⟨_, hb, _⟩ | ⟨u, hu, _⟩
    · rw [hb]
      exact hr
    · exact (advance_poll h.numbers isOpen hu).keeps h.toConsistent hr
  | drop number =>
    show (b.drop number).result? t = some r
    cases hu : b.tick? number with
    | none =>
      rw [drop_of_none hu]
      exact hr
    | some u => exact (advance_drop h.numbers hu).keeps h.toConsistent hr
  | answer run => exact hr

/-- **A result that was entered stays in every history.** -/
theorem result?_run {b : Batcher S C} (h : b.Sound) (ms : List (Move S C)) {t : Ticket}
    {r : CallResult S} (hr : b.result? t = some r) : (b.run ms).result? t = some r := by
  induction ms generalizing b with
  | nil => exact hr
  | cons m ms ih => exact ih (h.after m) (result?_after h m hr)

end Batcher
end Batchwise
