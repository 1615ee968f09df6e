import Batchwise.Proofs.Batch.Recast
import Batchwise.Proofs.Batch.Trace

/-!
# Tickets and ticks under other numbers

Nothing that a batcher does depends on what the numbers of its tickets and ticks are.  A renaming
gives them others, and whole moves go through it unchanged.

* `Renaming`                 other numbers for tickets and ticks, distinct ones for distinct ones;
* `Renaming.recast`          calls that are kept under them;
* `Batcher.Mirrors`          two batchers whose running ticks and results are the same up to a
                             renaming: kept by `wake`, `poll`, `drop`, `answer`;
* `Batcher.Twins`            the same of pending calls and of the numbers to come: kept by every
                             move, as `Twins.after` says.
-/

set_option linter.unusedSectionVars false

namespace Batchwise

variable {S C : Type} [DecidableEq S] [DecidableEq C]

/-- other numbers for tickets and ticks. -/
structure Renaming where
  ticket : Ticket → Ticket
  tick : Nat → Nat
  ticket_inj : Function.Injective ticket
  tick_inj : Function.Injective tick

namespace Renaming

/-- every number stays. -/
def refl : Renaming := ⟨fun t => t, fun n => n, fun _ _ h => h, fun _ _ h => h⟩

/-- numbers from `first` on go up. -/
def shifted (first amount n : Nat) : Nat := if n < first then n else n + amount

theorem shifted_of_lt {first amount n : Nat} (h : n < first) : shifted first amount n = n := if_pos h

theorem shifted_of_le {first amount n : Nat} (h : first ≤ n) :
    shifted first amount n = n + amount := if_neg (Nat.not_lt.mpr h)

theorem shifted_injective (first amount : Nat) : Function.Injective (shifted first amount) := by
  intro m n h
  unfold shifted at h
  split at h <;> split at h <;> omega

/-- tickets from `firstTicket` on go up by `tickets`, ticks from `firstTick` on by one. -/
def shift (firstTicket tickets firstTick : Nat) : Renaming where
  ticket := shifted firstTicket tickets
  tick := shifted firstTick 1
  ticket_inj := shifted_injective firstTicket tickets
  tick_inj := shifted_injective firstTick 1

/-- a ticket and its result. -/
def result (ρ : Renaming) (e : Ticket × CallResult S) : Ticket × CallResult S := (ρ.ticket e.1, e.2)

/-- a member of a group. -/
def member (ρ : Renaming) (m : Key S C × Ticket) : Key S C × Ticket := (m.1, ρ.ticket m.2)

/-- a pending call, -/
def pending (ρ : Renaming) (p : Pending) : Pending := { p with ticket := ρ.ticket p.ticket }

/-- and a pending call under its key. -/
def call (ρ : Renaming) (e : Key S C × Pending) : Key S C × Pending := (e.1, ρ.pending e.2)

end Renaming

/-! ### groups and ticks -/

def Group.rename (ρ : Renaming) (g : Group S C) : Group S C :=
  { g with members := g.members.map ρ.member }

def Running.rename (ρ : Renaming) (r : Running S C) : Running S C :=
  { r with group := r.group.rename ρ }

def Tick.rename (ρ : Renaming) (t : Tick S C) : Tick S C :=
  { t with
    number := ρ.tick t.number
    queued := t.queued.map (Group.rename ρ)
    waiting := t.waiting.map (Running.rename ρ)
    woken := t.woken.map (Running.rename ρ) }

namespace Renaming

/-- calls under other numbers, their arguments as they were: `Tick.recast` is `Tick.rename` then. -/
def recast (ρ : Renaming) : Recast := ⟨fun args => args, ρ.ticket, ρ.tick⟩

theorem keeps (ρ : Renaming) (s : Service S C) : ρ.recast.Keeps s := fun _ _ => rfl

end Renaming

/-! ### numbers that stay -/

theorem Group.rename_self {ρ : Renaming} {g : Group S C} (h : ∀ x ∈ g.tickets, ρ.ticket x = x) :
    g.rename ρ = g := by
  have hmembers : g.members.map ρ.member = g.members := by
    refine (List.map_congr_left fun m hm => ?_).trans (List.map_id _)
    exact Prod.ext rfl (h m.2 (List.mem_map_of_mem hm))
  unfold rename
  rw [hmembers]

theorem Running.rename_self {ρ : Renaming} {r : Running S C}
    (h : ∀ x ∈ r.group.tickets, ρ.ticket x = x) : r.rename ρ = r := by
  unfold rename
  rw [Group.rename_self h]

/-- a tick whose number and tickets stay is the same. -/
theorem Tick.rename_self {ρ : Renaming} {t : Tick S C} (hnumber : ρ.tick t.number = t.number)
    (h : ∀ x ∈ t.unsettled, ρ.ticket x = x) : t.rename ρ = t := by
  have hstays : ∀ g ∈ t.openGroups, ∀ x ∈ g.tickets, ρ.ticket x = x := fun g hg x hx => by
    refine h x ?_
    rw [unsettled_eq]
    exact List.mem_flatMap.mpr ⟨g, hg, hx⟩
  have hrunning : ∀ rs : List (Running S C), (∀ r ∈ rs, r ∈ t.running) →
      rs.map (Running.rename ρ) = rs := fun rs hrs => by
    refine (List.map_congr_left fun r hr => ?_).trans (List.map_id _)
    exact Running.rename_self (hstays r.group
      (List.mem_append_left _ (List.mem_map_of_mem (hrs r hr))))
  have hqueued : t.queued.map (Group.rename ρ) = t.queued := by
    refine (List.map_congr_left fun g hg => ?_).trans (List.map_id _)
    exact Group.rename_self (hstays g (List.mem_append_right _ hg))
  have hwoken := hrunning t.woken fun r hr => List.mem_append_left _ hr
  have hwaiting := hrunning t.waiting fun r hr => List.mem_append_right _ hr
  unfold rename
  rw [hnumber, hqueued, hwoken, hwaiting]

theorem Tick.rename_refl (t : Tick S C) : t.rename .refl = t := rename_self rfl fun _ _ => rfl

/-! ### moves -/

def Dispatch.rename (ρ : Renaming) : Dispatch → Dispatch
  | .running number => .running (ρ.tick number)
  | .ended result => .ended result

def Receipt.rename (ρ : Renaming) : Receipt → Receipt
  | .ticket t => .ticket (ρ.ticket t)
  | .dispatch d => .dispatch (d.rename ρ)
  | .nothing => .nothing

def Move.rename (ρ : Renaming) : Move S C → Move S C
  | .poll isOpen number => .poll isOpen (ρ.tick number)
  | .drop number => .drop (ρ.tick number)
  | m => m

theorem Receipt.rename_refl (r : Receipt) : r.rename .refl = r := by
  obtain _ | ⟨_ | _⟩ | _ := r <;> rfl

theorem Move.rename_refl (m : Move S C) : m.rename .refl = m := by
  cases m <;> rfl

namespace Batcher

/-- the running ticks and the results of two batchers are the same up to a renaming. -/
structure Mirrors (ρ : Renaming) (b c : Batcher S C) : Prop where
  service_eq : b.service = c.service
  limit_eq : b.maxConcurrentGroups = c.maxConcurrentGroups
  inFlight_eq : b.inFlight = c.inFlight
  running_eq : b.running = c.running.map (Tick.rename ρ)
  results_eq : ∀ t, t < c.results.size → b.results[ρ.ticket t]? = c.results[t]?

namespace Mirrors

theorem refl (b : Batcher S C) : Mirrors .refl b b where
  service_eq := rfl
  limit_eq := rfl
  inFlight_eq := rfl
  running_eq := ((List.map_congr_left fun t _ => t.rename_refl).trans (List.map_id _)).symm
  results_eq := fun _ _ => rfl

variable {ρ : Renaming} {b c : Batcher S C}

theorem tick?_eq (h : Mirrors ρ b c) (n : Nat) :
    b.tick? (ρ.tick n) = (c.tick? n).map (Tick.rename ρ) := by
  unfold tick?
  rw [h.running_eq, List.find?_map]
  refine congrArg (fun p => (c.running.find? p).map (Tick.rename ρ)) (funext fun t => ?_)
  show (ρ.tick t.number == ρ.tick n) = (t.number == n)
  by_cases htn : t.number = n
  · rw [htn, beq_self_eq_true, beq_self_eq_true]
  · rw [beq_false_of_ne htn, beq_false_of_ne fun heq => htn (ρ.tick_inj heq)]

/-- the same results are entered under other numbers. -/
theorem settle (h : Mirrors ρ b c) (es : List (Ticket × CallResult S)) :
    Mirrors ρ (b.settle (es.map ρ.result)) (c.settle es) := by
  refine ⟨h.service_eq, h.limit_eq, h.inFlight_eq, h.running_eq, ?_⟩
  have hfold : ∀ (es : List (Ticket × CallResult S)) (rs rs' : Array (Option (CallResult S))),
      (∀ t, t < rs'.size → rs[ρ.ticket t]? = rs'[t]?) → ∀ t,
      t < (es.foldl (fun rs e => rs.setIfInBounds e.1 (some e.2)) rs').size →
      ((es.map ρ.result).foldl (fun rs e => rs.setIfInBounds e.1 (some e.2)) rs)[ρ.ticket t]?
        = (es.foldl (fun rs e => rs.setIfInBounds e.1 (some e.2)) rs')[t]? := by
    intro es
    induction es with
    | nil => exact fun rs rs' hrs => hrs
    | cons e es ih =>
      intro rs rs' hrs
      rw [List.map_cons, List.foldl_cons, List.foldl_cons]
      refine ih _ _ fun t ht => ?_
      rw [Array.size_setIfInBounds] at ht
      show (rs.setIfInBounds (ρ.ticket e.1) (some e.2))[ρ.ticket t]? = _
      by_cases heq : e.1 = t
      · have hin : ρ.ticket t < rs.size := by
          have hsome := hrs t ht
          rw [Array.getElem?_eq_getElem ht] at hsome
          exact (Array.getElem?_eq_some_iff.mp hsome).1
        rw [heq, Array.getElem?_setIfInBounds_self_of_lt hin,
          Array.getElem?_setIfInBounds_self_of_lt ht]
      · rw [Array.getElem?_setIfInBounds_ne fun h => heq (ρ.ticket_inj h),
          Array.getElem?_setIfInBounds_ne heq]
        exact hrs t ht
  exact hfold es b.results c.results h.results_eq

theorem settleAll (h : Mirrors ρ b c) (ts : List Ticket) (result : CallResult S) :
    Mirrors ρ (b.settleAll (ts.map ρ.ticket) result) (c.settleAll ts result) := by
  have hsettle := h.settle (ts.map fun t => (t, result))
  rw [List.map_map] at hsettle
  unfold Batcher.settleAll
  rw [List.map_map]
  exact hsettle

theorem removeTick (h : Mirrors ρ b c) (n : Nat) :
    Mirrors ρ (b.removeTick (ρ.tick n)).endTick (c.removeTick n).endTick := by
  refine ⟨h.service_eq, h.limit_eq, congrArg (fun k => k - 1) h.inFlight_eq, ?_, h.results_eq⟩
  show b.running.filter _ = (c.running.filter _).map _
  rw [h.running_eq, List.filter_map]
  refine congrArg (List.map (Tick.rename ρ)) (List.filter_congr fun t _ => ?_)
  show (ρ.tick t.number != ρ.tick n) = (t.number != n)
  by_cases htn : t.number = n
  · rw [htn, bne_self_eq_false, bne_self_eq_false]
  · rw [bne_iff_ne.mpr htn, bne_iff_ne.mpr fun heq => htn (ρ.tick_inj heq)]

theorem replaceTick (h : Mirrors ρ b c) (t : Tick S C) :
    Mirrors ρ (b.replaceTick (t.rename ρ)) (c.replaceTick t) := by
  refine ⟨h.service_eq, h.limit_eq, h.inFlight_eq, ?_, h.results_eq⟩
  show b.running.map _ = (c.running.map _).map _
  rw [h.running_eq, List.map_map, List.map_map]
  refine List.map_congr_left fun u _ => ?_
  show (if ρ.tick u.number == ρ.tick t.number then t.rename ρ else u.rename ρ)
    = (if u.number == t.number then t else u).rename ρ
  by_cases hut : u.number = t.number
  · rw [hut, beq_self_eq_true, beq_self_eq_true, if_pos rfl, if_pos rfl]
  · rw [beq_false_of_ne hut, beq_false_of_ne fun heq => hut (ρ.tick_inj heq),
      if_neg Bool.false_ne_true, if_neg Bool.false_ne_true]

/-- a look at a tick under another number. -/
theorem poll (h : Mirrors ρ b c) (isOpen : Gate → Bool) (n : Nat) :
    Mirrors ρ (b.poll isOpen (ρ.tick n)).batcher (c.poll isOpen n).batcher ∧
      (b.poll isOpen (ρ.tick n)).dispatch = (c.poll isOpen n).dispatch.rename ρ ∧
      (b.poll isOpen (ρ.tick n)).events = (c.poll isOpen n).events := by
  have htick := h.tick?_eq n
  cases ht : c.tick? n with
  | none =>
    rw [ht] at htick
    rw [poll_of_none htick, poll_of_none ht]
    exact ⟨h, rfl, rfl⟩
  | some t =>
    rw [ht] at htick
    have hpoll : (t.rename ρ).poll b.service isOpen = (t.poll c.service isOpen).recast ρ.recast := by
      rw [h.service_eq]
      exact Tick.poll_recast (ρ.keeps c.service) isOpen t
    have hdone : ((t.rename ρ).poll b.service isOpen).tick.isDone
        = (t.poll c.service isOpen).tick.isDone := by
      rw [hpoll]
      exact Tick.isDone_recast ρ.recast _
    have hsettled := h.settle (t.poll c.service isOpen).settled
    cases hcase : (t.poll c.service isOpen).tick.isDone with
    | true =>
      rw [poll_of_done htick (hdone.trans hcase), poll_of_done ht hcase, hpoll]
      refine ⟨hsettled.removeTick n, ?_, rfl⟩
      show Dispatch.ended (.ok ⟨b.service.id, _, _, _⟩) = .ended (.ok ⟨c.service.id, _, _, _⟩)
      rw [h.service_eq]
      rfl
    | false =>
      rw [poll_of_open htick (hdone.trans hcase), poll_of_open ht hcase, hpoll]
      exact ⟨hsettled.replaceTick _, rfl, rfl⟩

theorem drop (h : Mirrors ρ b c) (n : Nat) : Mirrors ρ (b.drop (ρ.tick n)) (c.drop n) := by
  have htick := h.tick?_eq n
  cases ht : c.tick? n with
  | none =>
    rw [ht] at htick
    rw [drop_of_none htick, drop_of_none ht]
    exact h
  | some t =>
    rw [ht] at htick
    have hunsettled : (t.rename ρ).unsettled = t.unsettled.map ρ.ticket :=
      Tick.unsettled_recast ρ.recast t
    rw [drop_of_some htick, drop_of_some ht, hunsettled, h.service_eq]
    exact (h.settleAll t.unsettled _).removeTick n

theorem wake (h : Mirrors ρ b c) (isOpen : Gate → Bool) :
    Mirrors ρ (b.wake isOpen) (c.wake isOpen) := by
  refine ⟨h.service_eq, h.limit_eq, h.inFlight_eq, ?_, h.results_eq⟩
  show b.running.map _ = (c.running.map _).map _
  rw [h.running_eq, List.map_map, List.map_map]
  exact List.map_congr_left fun t _ => Tick.wake_recast ρ.recast isOpen t

/-- a move that neither submits nor begins a tick. -/
theorem after (h : Mirrors ρ b c) {m : Move S C} (hm : m.fills = false) :
    Mirrors ρ (b.after (m.rename ρ)) (c.after m) ∧
      b.receipt (m.rename ρ) = (c.receipt m).rename ρ ∧
      b.eventsBy (m.rename ρ) = c.eventsBy m := by
  cases m with
  | submit source args subfields context => cases hm
  | beginTick => cases hm
  | wake isOpen => exact ⟨h.wake isOpen, rfl, rfl⟩
  | poll isOpen number =>
    obtain ⟨hbatcher, hdispatch, hevents⟩ := h.poll isOpen number
    exact ⟨hbatcher, congrArg Receipt.dispatch hdispatch, hevents⟩
  | drop number => exact ⟨h.drop number, rfl, rfl⟩
  | answer run =>
    refine ⟨⟨?_, h.limit_eq, h.inFlight_eq, h.running_eq, h.results_eq⟩, rfl, rfl⟩
    exact congrArg (fun s : Service S C => { s with run := run }) h.service_eq

end Mirrors

/-- two batchers are the same up to a renaming: what is pending in them, and the numbers to come,
too. -/
structure Twins (ρ : Renaming) (b c : Batcher S C) : Prop extends Mirrors ρ b c where
  pending_eq : b.pending.entries = c.pending.entries.map ρ.call
  ticks_eq : ∀ n, b.ticks + n = ρ.tick (c.ticks + n)
  tickets_eq : ∀ n, b.results.size + n = ρ.ticket (c.results.size + n)

namespace Twins

variable {ρ : Renaming} {b c : Batcher S C}

theorem of_intake (h : Twins ρ b c) {b' c' : Batcher S C} (hm : Mirrors ρ b' c')
    (hb : b'.intake = b.intake) (hc : c'.intake = c.intake) : Twins ρ b' c' := by
  obtain ⟨hpending, hticks, htickets⟩ := Intake.mk.inj hb
  obtain ⟨hpending', hticks', htickets'⟩ := Intake.mk.inj hc
  refine ⟨hm, ?_, ?_, ?_⟩
  · rw [hpending, hpending']
    exact h.pending_eq
  · rw [hticks, hticks']
    exact h.ticks_eq
  · rw [htickets, htickets']
    exact h.tickets_eq

theorem find?_pending (h : Twins ρ b c) (k : Key S C) :
    b.pending.find? k = (c.pending.find? k).map ρ.pending := by
  show Entries.find? k b.pending.entries = _
  rw [h.pending_eq]
  exact Entries.find?_map_value ρ.pending k c.pending.entries

theorem submit (h : Twins ρ b c) (source : S) (args : Args) (subfields : List Field)
    (context : C) :
    Twins ρ (b.submit source args subfields context).batcher
        (c.submit source args subfields context).batcher ∧
      (b.submit source args subfields context).ticket
        = ρ.ticket (c.submit source args subfields context).ticket ∧
      (b.submit source args subfields context).events
        = (c.submit source args subfields context).events := by
  have hkey : b.keyOf source args subfields context = c.keyOf source args subfields context := by
    unfold keyOf
    rw [h.service_eq]
  have hid : b.id = c.id := congrArg Service.id h.service_eq
  have hfind := h.find?_pending (c.keyOf source args subfields context)
  cases hc : c.pending.find? (c.keyOf source args subfields context) with
  | some p =>
    rw [hc] at hfind
    rw [submit_of_some (hkey ▸ hfind), submit_of_some hc, hid]
    refine ⟨⟨⟨h.service_eq, h.limit_eq, h.inFlight_eq, h.running_eq, h.results_eq⟩,
      h.pending_eq, h.ticks_eq, h.tickets_eq⟩, rfl, rfl⟩
  | none =>
    rw [hc] at hfind
    have hfind' : b.pending.find? (b.keyOf source args subfields context) = none := by
      rw [hkey]
      exact hfind
    rw [submit_of_none hfind', submit_of_none hc, hid, hkey, h.service_eq]
    have hsize : b.results.size = ρ.ticket c.results.size := h.tickets_eq 0
    refine ⟨⟨⟨h.service_eq, h.limit_eq, h.inFlight_eq, h.running_eq, fun t ht => ?_⟩,
      ?_, h.ticks_eq, fun n => ?_⟩, hsize, rfl⟩
    · show (b.results.push none)[ρ.ticket t]? = (c.results.push none)[t]?
      have ht' : t < c.results.size + 1 := by
        rw [← Array.size_push (none : Option (CallResult S))]
        exact ht
      rcases Nat.lt_succ_iff_lt_or_eq.mp ht' with hlt | rfl
      · have hold := h.results_eq t hlt
        rw [Array.getElem?_eq_getElem hlt] at hold
        have hlt' := (Array.getElem?_eq_some_iff.mp hold).1
        rw [Array.getElem?_push_lt hlt', Array.getElem?_push_lt hlt,
          ← Array.getElem?_eq_getElem hlt']
        exact hold
      · rw [← hsize, Array.getElem?_push_size, Array.getElem?_push_size]
    · have hmap : (b.pending.put (c.keyOf source args subfields context)
          ⟨args, c.service.binding.selectionOf subfields, b.results.size⟩).entries = _ :=
        Table.entries_put_of_notMem _ (Table.find?_eq_none_iff.mp hfind)
      have hmap' : (c.pending.put (c.keyOf source args subfields context)
          ⟨args, c.service.binding.selectionOf subfields, c.results.size⟩).entries = _ :=
        Table.entries_put_of_notMem _ (Table.find?_eq_none_iff.mp hc)
      show (b.pending.put _ _).entries = (c.pending.put _ _).entries.map ρ.call
      rw [hmap, hmap', h.pending_eq, List.map_append, List.map_singleton, hsize]
      rfl
    · show (b.results.push none).size + n = ρ.ticket ((c.results.push none).size + n)
      rw [Array.size_push, Array.size_push, Nat.add_assoc, Nat.add_assoc]
      exact h.tickets_eq (1 + n)

theorem sameContext_iff (h : Twins ρ b c) :
    SameContext b.pending.entries ↔ SameContext c.pending.entries := by
  rw [h.pending_eq]
  exact sameContext_recast (m := ρ.recast)

theorem groups_eq (h : Twins ρ b c) : (groupPending b.pending.entries).values
    = (groupPending c.pending.entries).values.map (Group.rename ρ) := by
  rw [h.pending_eq]
  exact values_groupPending_recast ρ.recast c.pending.entries

theorem formTick (h : Twins ρ b c) (context : C) :
    b.formTick context b.pending.entries = (c.formTick context c.pending.entries).rename ρ := by
  have hnumber : b.ticks = ρ.tick c.ticks := h.ticks_eq 0
  unfold Batcher.formTick groupLimit Tick.rename
  dsimp only
  rw [h.groups_eq, h.pending_eq, List.length_map, List.length_map, h.limit_eq, hnumber]
  rfl

theorem beginTick (h : Twins ρ b c) :
    Twins ρ b.beginTick.batcher c.beginTick.batcher ∧
      b.beginTick.dispatch = c.beginTick.dispatch.rename ρ ∧
      b.beginTick.events = c.beginTick.events := by
  have hid : b.id = c.id := congrArg Service.id h.service_eq
  have hlength : b.pending.entries.length = c.pending.entries.length := by
    rw [h.pending_eq, List.length_map]
  have hticks : ∀ n, b.ticks + 1 + n = ρ.tick (c.ticks + 1 + n) := fun n => by
    rw [Nat.add_assoc, Nat.add_assoc]
    exact h.ticks_eq (1 + n)
  by_cases hsame : SameContext c.pending.entries
  · cases hentries : c.pending.entries with
    | nil =>
      have hnil : b.pending.entries = [] := by rw [h.pending_eq, hentries, List.map_nil]
      rw [beginTick_of_nil hnil, beginTick_of_nil hentries, hid]
      exact ⟨h, rfl, rfl⟩
    | cons e es =>
      have he : e ∈ c.pending.entries := hentries ▸ List.mem_cons_self
      have he' : ρ.call e ∈ b.pending.entries := by
        rw [h.pending_eq]
        exact List.mem_map_of_mem he
      have hgroups : (groupPending b.pending.entries).values.length
          = (groupPending c.pending.entries).values.length := by
        rw [h.groups_eq, List.length_map]
      rw [beginTick_of_same he' (h.sameContext_iff.mpr hsame), beginTick_of_same he hsame, hid,
        hlength, hgroups]
      refine ⟨⟨⟨h.service_eq, h.limit_eq, ?_, ?_, h.results_eq⟩, rfl, hticks, h.tickets_eq⟩, ?_,
        rfl⟩
      · exact congrArg (fun n => n + 1) h.inFlight_eq
      · show b.running ++ [b.formTick e.1.context b.pending.entries] = List.map _ (c.running ++ [_])
        rw [h.formTick, h.running_eq, List.map_append]
        rfl
      · exact congrArg Dispatch.running (h.ticks_eq 0)
  · have hsame' : ¬ SameContext b.pending.entries := fun hs => hsame (h.sameContext_iff.mp hs)
    rw [beginTick_of_differ hsame', beginTick_of_differ hsame, hid, hlength, h.service_eq]
    have htickets : b.pending.values.map Pending.ticket
        = (c.pending.values.map Pending.ticket).map ρ.ticket := by
      unfold Table.values
      rw [h.pending_eq, List.map_map, List.map_map, List.map_map, List.map_map]
      rfl
    have htake : Mirrors ρ b.take c.take :=
      ⟨h.service_eq, h.limit_eq, congrArg (fun n => n + 1) h.inFlight_eq, h.running_eq,
        h.results_eq⟩
    have hrefused : Mirrors ρ b.refused c.refused := by
      have hsettled := htake.settleAll (c.pending.values.map Pending.ticket)
        (.error (.contextDivergence c.service.name))
      unfold refused
      rw [htickets, h.service_eq]
      exact ⟨hsettled.service_eq, hsettled.limit_eq,
        congrArg (fun n => n - 1) hsettled.inFlight_eq, hsettled.running_eq, hsettled.results_eq⟩
    refine ⟨⟨hrefused, rfl, hticks, fun n => ?_⟩, rfl, rfl⟩
    show (b.take.settle _).results.size + n = ρ.ticket ((c.take.settle _).results.size + n)
    rw [size_settle, size_settle]
    exact h.tickets_eq n

/-- **A move under other numbers** leads to the same batcher, gives the same to its caller and has
the same events. -/
theorem after (h : Twins ρ b c) (m : Move S C) :
    Twins ρ (b.after (m.rename ρ)) (c.after m) ∧
      b.receipt (m.rename ρ) = (c.receipt m).rename ρ ∧
      b.eventsBy (m.rename ρ) = c.eventsBy m := by
  cases hfills : m.fills with
  | false =>
    have hfills' : (m.rename ρ).fills = false := by
      cases m <;> exact hfills
    obtain ⟨hmirrors, hreceipt, hevents⟩ := h.toMirrors.after hfills
    exact ⟨h.of_intake hmirrors (intake_after b hfills') (intake_after c hfills), hreceipt, hevents⟩
  | true =>
    cases m with
    | submit source args subfields context =>
      obtain ⟨hbatcher, hticket, hevents⟩ := h.submit source args subfields context
      exact ⟨hbatcher, congrArg Receipt.ticket hticket, hevents⟩
    | beginTick =>
      obtain ⟨hbatcher, hdispatch, hevents⟩ := h.beginTick
      exact ⟨hbatcher, congrArg Receipt.dispatch hdispatch, hevents⟩
    | wake isOpen => cases hfills
    | poll isOpen number => cases hfills
    | drop number => cases hfills
    | answer run => cases hfills

end Twins

end Batcher
end Batchwise
