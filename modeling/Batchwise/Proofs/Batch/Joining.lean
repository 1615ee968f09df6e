import Batchwise.Proofs.Batch.Phase
import Batchwise.Proofs.Batch.Timing

/-!
# Which submissions share a ticket

What is pending is what was submitted since the last dispatch that found something, each call once
and in the order of its first submission.  So a submission joins an earlier one if it asks for the
same and no tick was taken in between, and in no other case.

* `Request`                 what a caller asks for, and when two ask for the `Same`;
* `Batcher.requestsSince`   the requests since the last dispatch that found something pending:
                            `mem_requestsSince`, `keys_run`;
* `Batcher.Later`           every pending ticket is one of the later ones: `later_of_taken`;
* `submit_joins_since_last_tick`   what a submission is told.
-/

set_option linter.unusedSectionVars false

namespace Batchwise

open List (mem_eraseDups)

variable {S C : Type} [DecidableEq S] [DecidableEq C]

/-- what is asked for in one submission. -/
structure Request (S C : Type) where
  source : S
  args : Args
  subfields : List Field
  context : C

namespace Request

def move (q : Request S C) : Move S C := .submit q.source q.args q.subfields q.context

theorem move_inj {q q' : Request S C} : q.move = q'.move ↔ q = q' := by
  obtain ⟨source, args, subfields, context⟩ := q
  obtain ⟨source', args', subfields', context'⟩ := q'
  simp only [move, Move.submit.injEq, mk.injEq]

/-- the key under which the call of a request is pending. -/
def key (binding : Binding S C) (q : Request S C) : Key S C :=
  Key.ofCall binding.signature q.source q.args (binding.selectionOf q.subfields) q.context

/-- two requests ask a resolver for the same: of arguments and selection it sees the fingerprints,
and those only where it wants them. -/
structure Same (binding : Binding S C) (q q' : Request S C) : Prop where
  source_eq : q.source = q'.source
  context_eq : q.context = q'.context
  args_eq : binding.signature.wantsArgs = true → q.args.fingerprint = q'.args.fingerprint
  selection_eq : ∀ depth, binding.signature.selection = some depth →
    (Selection.ofFields q.subfields depth).paths = (Selection.ofFields q'.subfields depth).paths

theorem key_eq_iff {binding : Binding S C} {q q' : Request S C} :
    q.key binding = q'.key binding ↔ q.Same binding q' := by
  unfold key Key.ofCall Binding.selectionOf
  rw [Key.mk.injEq, Option.map_map, Option.map_map]
  constructor
  · rintro ⟨hsource, hargs, hselection, hcontext⟩
    refine ⟨hsource, hcontext, fun hwants => ?_, fun depth hdepth => ?_⟩
    · rw [if_pos hwants, if_pos hwants] at hargs
      exact Option.some.inj hargs
    · rw [hdepth] at hselection
      exact Option.some.inj hselection
  · rintro ⟨hsource, hcontext, hargs, hselection⟩
    refine ⟨hsource, ?_, ?_, hcontext⟩
    · split
      · exact congrArg some (hargs ‹_›)
      · rfl
    · cases hdepth : binding.signature.selection with
      | none => rfl
      | some depth => exact congrArg some (hselection depth hdepth)

end Request

/-- what a move asks for, if it does. -/
def Move.request? : Move S C → Option (Request S C)
  | .submit source args subfields context => some ⟨source, args, subfields, context⟩
  | _ => none

theorem Request.request?_move (q : Request S C) : q.move.request? = some q := rfl

theorem Request.request?_of_ne {m : Move S C} (h : ∀ q : Request S C, m ≠ q.move) :
    m.request? = none := by
  cases m with
  | submit source args subfields context => exact absurd rfl (h ⟨source, args, subfields, context⟩)
  | _ => rfl

namespace Batcher

/-- what a move does to what is pending: it asks for something, or takes everything, or nothing. -/
theorem intake_cases (b : Batcher S C) (m : Move S C) :
    (∃ q : Request S C, m = q.move ∧ b.takesTick m = false) ∨
      ((∀ q : Request S C, m ≠ q.move) ∧ b.takesTick m = true ∧
        (b.after m).intake = ⟨.empty, b.ticks + 1, b.results.size⟩) ∨
      ((∀ q : Request S C, m ≠ q.move) ∧ b.takesTick m = false ∧
        (b.after m).intake = b.intake) := by
  cases m with
  | submit source args subfields context =>
    exact Or.inl ⟨⟨source, args, subfields, context⟩, rfl, rfl⟩
  | beginTick =>
    have hintake := intake_beginTick b
    have hmove : ∀ q : Request S C, Move.beginTick ≠ q.move := fun _ h => by cases h
    cases hpending : b.hasPending with
    | true =>
      rw [if_neg (hasPending_iff.mp hpending)] at hintake
      exact Or.inr (Or.inl ⟨hmove, hpending, hintake⟩)
    | false =>
      have hnil : b.pending.entries = [] := by
        by_contra hne
        rw [hasPending_iff.mpr hne] at hpending
        cases hpending
      rw [if_pos hnil] at hintake
      exact Or.inr (Or.inr ⟨hmove, hpending, hintake⟩)
  | wake isOpen => exact Or.inr (Or.inr ⟨(fun _ h => by cases h), rfl, rfl⟩)
  | poll isOpen number =>
    exact Or.inr (Or.inr ⟨(fun _ h => by cases h), rfl, intake_poll b isOpen number⟩)
  | drop number => exact Or.inr (Or.inr ⟨(fun _ h => by cases h), rfl, intake_drop b number⟩)
  | answer run => exact Or.inr (Or.inr ⟨(fun _ h => by cases h), rfl, rfl⟩)

/-! ### what is pending -/

/-- the requests since the last dispatch that found something pending after a move, of those
before it. -/
def requestsAfter (b : Batcher S C) (qs : List (Request S C)) (m : Move S C) :
    List (Request S C) :=
  if b.takesTick m then [] else qs ++ m.request?.toList

/-- the requests of a history since its last dispatch that found something pending, after those
that were there before. -/
def requestsSince : Batcher S C → List (Request S C) → List (Move S C) → List (Request S C)
  | _, qs, [] => qs
  | b, qs, m :: ms => requestsSince (b.after m) (b.requestsAfter qs m) ms

theorem ticksTaken_cons_eq_zero {b : Batcher S C} {m : Move S C} {ms : List (Move S C)} :
    b.ticksTaken (m :: ms) = 0 ↔ b.takesTick m = false ∧ (b.after m).ticksTaken ms = 0 := by
  show (b.takesTick m).toNat + _ = 0 ↔ _
  cases b.takesTick m <;> simp

theorem mem_requestsAfter {b : Batcher S C} {qs : List (Request S C)} {m : Move S C}
    {q : Request S C} :
    q ∈ b.requestsAfter qs m ↔ (q ∈ qs ∧ b.takesTick m = false) ∨ m = q.move := by
  unfold requestsAfter
  rcases intake_cases b m with ⟨q', rfl, htakes⟩ | ⟨hmove, htakes, _⟩ | ⟨hmove, htakes, _⟩
  · rw [htakes, if_neg Bool.false_ne_true, Request.request?_move, Request.move_inj]
    simp [eq_comm]
  · rw [if_pos htakes, htakes]
    simp [hmove q]
  · rw [htakes, if_neg Bool.false_ne_true, Request.request?_of_ne hmove]
    simp [hmove q]

/-- the requests since the last dispatch that found something are those with no such dispatch
after them. -/
theorem mem_requestsSince {b : Batcher S C} {qs : List (Request S C)} {ms : List (Move S C)}
    {q : Request S C} : q ∈ b.requestsSince qs ms ↔
      (q ∈ qs ∧ b.ticksTaken ms = 0) ∨
        ∃ before since, ms = before ++ q.move :: since ∧
          (b.run (before ++ [q.move])).ticksTaken since = 0 := by
  induction ms generalizing b qs with
  | nil => simp [requestsSince, ticksTaken]
  | cons m ms ih =>
    rw [requestsSince, ih, mem_requestsAfter, ticksTaken_cons_eq_zero]
    constructor
    · rintro (⟨⟨hq, htakes⟩ | rfl, hnone⟩ | ⟨before, since, rfl, hnone⟩)
      · exact Or.inl ⟨hq, htakes, hnone⟩
      · exact Or.inr ⟨[], ms, rfl, hnone⟩
      · exact Or.inr ⟨m :: before, since, rfl, hnone⟩
    · rintro (⟨hq, htakes, hnone⟩ | ⟨before, since, hms, hnone⟩)
      · exact Or.inl ⟨Or.inl ⟨hq, htakes⟩, hnone⟩
      · cases before with
        | nil =>
          obtain ⟨rfl, rfl⟩ := List.cons.inj hms
          exact Or.inl ⟨Or.inr rfl, hnone⟩
        | cons n before =>
          obtain ⟨rfl, rfl⟩ := List.cons.inj hms
          exact Or.inr ⟨before, since, rfl, hnone⟩

theorem pending_submit_of_none {b : Batcher S C} {q : Request S C}
    (h : b.pending.find? (q.key b.service.binding) = none) :
    (b.submit q.source q.args q.subfields q.context).batcher.pending.entries =
      b.pending.entries ++ [(q.key b.service.binding,
        ⟨q.args, b.service.binding.selectionOf q.subfields, b.results.size⟩)] := by
  rw [submit_of_none h]
  exact Table.entries_put_of_notMem _ (Table.find?_eq_none_iff.mp h)

theorem keys_submit (b : Batcher S C) (q : Request S C) :
    (b.submit q.source q.args q.subfields q.context).batcher.pending.keys =
      if q.key b.service.binding ∈ b.pending.keys then b.pending.keys
      else b.pending.keys ++ [q.key b.service.binding] := by
  cases hfind : b.pending.find? (q.key b.service.binding) with
  | some p =>
    have hmem : q.key b.service.binding ∈ b.pending.keys :=
      List.mem_map_of_mem (f := Prod.fst) (Table.mem_entries_iff.mpr hfind)
    rw [if_pos hmem, submit_of_some hfind]
  | none =>
    rw [if_neg (Table.find?_eq_none_iff.mp hfind)]
    unfold Table.keys
    rw [pending_submit_of_none hfind, List.map_append]
    rfl

/-- one move keeps pending what was asked for since the last dispatch that found something. -/
theorem keys_after {b : Batcher S C} {binding : Binding S C} (hb : b.service.binding = binding)
    {qs : List (Request S C)} (h : b.pending.keys = (qs.map (Request.key binding)).eraseDups)
    (m : Move S C) :
    (b.after m).pending.keys = ((b.requestsAfter qs m).map (Request.key binding)).eraseDups := by
  unfold requestsAfter
  rcases intake_cases b m with ⟨q, rfl, htakes⟩ | ⟨_, htakes, hintake⟩ | ⟨hmove, htakes, hintake⟩
  · have hkeys := keys_submit b q
    rw [hb, h] at hkeys
    rw [htakes, if_neg Bool.false_ne_true, Request.request?_move, Option.toList_some,
      List.map_append, List.map_singleton, eraseDups_concat]
    simp only [mem_eraseDups] at hkeys
    exact hkeys
  · rw [if_pos htakes, (Intake.mk.inj hintake).1]
    rfl
  · rw [htakes, if_neg Bool.false_ne_true, Request.request?_of_ne hmove, Option.toList_none,
      List.append_nil, (Intake.mk.inj hintake).1]
    exact h

/-- **What is pending** was asked for since the last dispatch that found something. -/
theorem keys_run {b : Batcher S C} {binding : Binding S C} (hb : b.service.binding = binding)
    {qs : List (Request S C)} (h : b.pending.keys = (qs.map (Request.key binding)).eraseDups)
    (ms : List (Move S C)) :
    (b.run ms).pending.keys = ((b.requestsSince qs ms).map (Request.key binding)).eraseDups := by
  induction ms generalizing b qs with
  | nil => exact h
  | cons m ms ih => exact ih ((carried_after b m).binding.trans hb) (keys_after hb h m)

/-! ### tickets of pending calls -/

/-- every ticket to come, and every pending one, is at least `n`. -/
structure Later (n : Nat) (b : Batcher S C) : Prop where
  size : n ≤ b.results.size
  pending : ∀ e ∈ b.pending.entries, n ≤ e.2.ticket

theorem later_of_empty {n : Nat} {b : Batcher S C} {ticks size : Nat}
    (h : b.intake = ⟨.empty, ticks, size⟩) (hn : n ≤ size) : b.Later n := by
  obtain ⟨hpending, _, hsize⟩ := Intake.mk.inj h
  exact ⟨hsize ▸ hn, hpending ▸ fun _ he => by cases he⟩

namespace Later

variable {n : Nat} {b : Batcher S C}

theorem submit (h : b.Later n) (q : Request S C) :
    (b.submit q.source q.args q.subfields q.context).batcher.Later n ∧
      n ≤ (b.submit q.source q.args q.subfields q.context).ticket := by
  cases hfind : b.pending.find? (q.key b.service.binding) with
  | some p =>
    rw [submit_of_some hfind]
    exact ⟨⟨h.size, h.pending⟩, h.pending _ (Table.mem_entries_iff.mpr hfind)⟩
  | none =>
    have hentries := pending_submit_of_none hfind
    rw [submit_of_none hfind] at hentries ⊢
    refine ⟨⟨?_, fun e he => ?_⟩, h.size⟩
    · show n ≤ (b.results.push none).size
      rw [Array.size_push]
      exact Nat.le_succ_of_le h.size
    · rw [hentries] at he
      rcases List.mem_append.mp he with he | he
      · exact h.pending e he
      · rw [List.mem_singleton.mp he]
        exact h.size

theorem after (h : b.Later n) (m : Move S C) : (b.after m).Later n := by
  rcases intake_cases b m with ⟨q, rfl, _⟩ | ⟨_, _, hintake⟩ | ⟨_, _, hintake⟩
  · exact (h.submit q).1
  · exact later_of_empty hintake h.size
  · obtain ⟨hpending, _, hsize⟩ := Intake.mk.inj hintake
    exact ⟨hsize ▸ h.size, hpending ▸ h.pending⟩

theorem run (h : b.Later n) (ms : List (Move S C)) : (b.run ms).Later n := by
  induction ms generalizing b with
  | nil => exact h
  | cons m ms ih => exact ih (h.after m)

end Later

theorem size_le_after (b : Batcher S C) (m : Move S C) :
    b.results.size ≤ (b.after m).results.size := by
  rcases intake_cases b m with ⟨q, rfl, _⟩ | ⟨_, _, hintake⟩ | ⟨_, _, hintake⟩
  · show _ ≤ (b.submit q.source q.args q.subfields q.context).batcher.results.size
    cases hfind : b.pending.find? (q.key b.service.binding) with
    | some p =>
      rw [submit_of_some hfind]
    | none =>
      rw [submit_of_none hfind]
      show b.results.size ≤ (b.results.push none).size
      rw [Array.size_push]
      exact Nat.le_succ _
  · exact le_of_eq (Intake.mk.inj hintake).2.2.symm
  · exact le_of_eq (Intake.mk.inj hintake).2.2.symm

/-- once a tick was taken all pending tickets are later than those that were there before. -/
theorem later_of_taken {n : Nat} {b : Batcher S C} {ms : List (Move S C)}
    (hn : n ≤ b.results.size) (h : b.ticksTaken ms ≠ 0) : (b.run ms).Later n := by
  induction ms generalizing b with
  | nil => exact absurd rfl h
  | cons m ms ih =>
    have hsize := Nat.le_trans hn (size_le_after b m)
    by_cases hrest : (b.after m).ticksTaken ms = 0
    · have htakes : b.takesTick m ≠ false := fun htakes =>
        h (ticksTaken_cons_eq_zero.mpr ⟨htakes, hrest⟩)
      rcases intake_cases b m with ⟨_, _, hno⟩ | ⟨_, _, hintake⟩ | ⟨_, hno, _⟩
      · exact absurd hno htakes
      · exact (later_of_empty hintake hn).run ms
      · exact absurd hno htakes
    · exact ih hsize hrest

/-- a pending call stays pending as long as no tick is taken. -/
theorem find?_pending_of_ticksTaken {b : Batcher S C} {ms : List (Move S C)}
    (h : b.ticksTaken ms = 0) {k : Key S C} {p : Pending} (hp : b.pending.find? k = some p) :
    (b.run ms).pending.find? k = some p := by
  induction ms generalizing b with
  | nil => exact hp
  | cons m ms ih =>
    obtain ⟨htakes, hrest⟩ := ticksTaken_cons_eq_zero.mp h
    refine ih hrest (find?_pending_after ?_ hp)
    rintro rfl
    have hne : b.pending.entries ≠ [] := List.ne_nil_of_mem (Table.mem_entries_iff.mpr hp)
    rw [show b.takesTick .beginTick = b.hasPending from rfl, hasPending_iff.mpr hne] at htakes
    cases htakes

/-! ### what a submission is told -/

/-- pending calls with one ticket have one key. -/
theorem key_eq_of_ticket {b : Batcher S C} (hb : b.Sound) {k k' : Key S C} {p p' : Pending}
    (hp : b.pending.find? k = some p) (hp' : b.pending.find? k' = some p')
    (h : p.ticket = p'.ticket) : k = k' := by
  have hnodup : (b.pending.entries.map fun e => e.2.ticket).Nodup := by
    have hopen := (List.nodup_append.mp hb.nodup).1
    unfold Table.values at hopen
    rw [List.map_map] at hopen
    exact hopen
  have hmem := Table.mem_entries_iff.mpr hp
  have hmem' := Table.mem_entries_iff.mpr hp'
  exact congrArg Prod.fst (List.inj_on_of_nodup_map hnodup hmem hmem' h)

/-- **A submission is given the ticket of an earlier one** just when both ask for the same and no
tick was taken in between. -/
theorem ticket_eq_iff {b : Batcher S C} (hb : b.Sound) (q q' : Request S C)
    (since : List (Move S C)) :
    let earlier := b.submit q'.source q'.args q'.subfields q'.context
    let later := (earlier.batcher.run since).submit q.source q.args q.subfields q.context
    earlier.ticket = later.ticket ↔
      q'.Same b.service.binding q ∧ earlier.batcher.ticksTaken since = 0 := by
  intro earlier later
  have hearlier : earlier.batcher.Sound := hb.after q'.move
  have hsound : (earlier.batcher.run since).Sound := sound_run hearlier since
  have hbinding : (earlier.batcher.run since).service.binding = b.service.binding :=
    (carried_run b (q'.move :: since)).binding
  obtain ⟨p, hp, hticket⟩ :=
    find?_pending_submit b q'.source q'.args q'.subfields q'.context
  have hlt : earlier.ticket < earlier.batcher.results.size :=
    hticket ▸ hearlier.lt_size (ticket_mem_openTickets hp)
  by_cases hnone : earlier.batcher.ticksTaken since = 0
  · have hkept := find?_pending_of_ticksTaken hnone hp
    rw [← Request.key_eq_iff]
    constructor
    · intro heq
      refine ⟨?_, hnone⟩
      cases hfind : (earlier.batcher.run since).pending.find? (q.key b.service.binding) with
      | some p' =>
        have hlater : later.ticket = p'.ticket := by
          show (Batcher.submit _ _ _ _ _).ticket = _
          rw [← hbinding] at hfind
          rw [submit_of_some hfind]
        exact key_eq_of_ticket hsound hkept hfind (hticket.trans (heq.trans hlater))
      | none =>
        have hlater : later.ticket = (earlier.batcher.run since).results.size := by
          show (Batcher.submit _ _ _ _ _).ticket = _
          rw [← hbinding] at hfind
          rw [submit_of_none hfind]
        have hold := hsound.lt_size (ticket_mem_openTickets hkept)
        rw [hticket.trans (heq.trans hlater)] at hold
        exact absurd hold (Nat.lt_irrefl _)
    · rintro ⟨hkey, _⟩
      have hfind : (earlier.batcher.run since).pending.find?
          (q.key (earlier.batcher.run since).service.binding) = some p := by
        rw [hbinding, ← hkey]
        exact hkept
      show _ = (Batcher.submit _ _ _ _ _).ticket
      rw [submit_of_some hfind]
      exact hticket.symm
  · have hlater := ((later_of_taken (n := earlier.ticket + 1) hlt hnone).submit q).2
    constructor
    · intro heq
      have hle : earlier.ticket + 1 ≤ later.ticket := hlater
      rw [heq] at hle
      exact absurd hle (Nat.lt_irrefl _)
    · exact fun h => absurd h.2 hnone

/-- the ticket that a submission is given has no result, and no tick took it. -/
theorem ticket_is_open {b : Batcher S C} (hb : b.Sound) (q : Request S C) :
    let s := b.submit q.source q.args q.subfields q.context
    s.batcher.result? s.ticket = none ∧ ∀ t ∈ b.running, s.ticket ∉ t.unsettled := by
  intro s
  obtain ⟨p, hp, hticket⟩ := find?_pending_submit b q.source q.args q.subfields q.context
  have hsound : s.batcher.Sound := hb.after q.move
  refine ⟨hticket ▸ result?_of_pending hsound hp, fun t ht htaken => ?_⟩
  have hrunning : s.batcher.running = b.running := by
    obtain ⟨_, ⟨_, _, _, hs⟩ | ⟨_, _, hs⟩⟩ := submit_cases b q.source q.args q.subfields q.context
    · exact (congrArg running hs).trans rfl
    · exact (congrArg running hs).trans rfl
  have hvalue : p ∈ s.batcher.pending.values :=
    List.mem_map.mpr ⟨_, Table.mem_entries_iff.mpr hp, rfl⟩
  have hpending : s.ticket ∈ s.batcher.pending.values.map Pending.ticket :=
    hticket ▸ List.mem_map_of_mem hvalue
  have hflight : s.ticket ∈ s.batcher.running.flatMap Tick.unsettled :=
    List.mem_flatMap.mpr ⟨t, hrunning ▸ ht, htaken⟩
  exact (List.nodup_append.mp hsound.nodup).2.2 _ hpending _ hflight rfl

/-- **A submission joins an earlier one since the last tick, or it is new.**  After any history let
something be asked for.
* It is given the ticket of an earlier request just when both ask for the same and no dispatch that
  found something pending was begun in between.
* If there is such a request it is reported as shared, and nothing is added.
* Otherwise one more call is pending, behind the others and under a key of its own, and its ticket
  is a new one.
* The ticket has no result, and is that of no call that a running tick took.
* What is pending is what was asked for since the last dispatch that found something pending: each
  call once, in the order in which they came. -/
theorem submit_joins_since_last_tick (maxConcurrentGroups : Option Nat) (service : Service S C)
    (ms : List (Move S C)) (q : Request S C) :
    let start := Batcher.new maxConcurrentGroups service
    let b := start.run ms
    let s := b.submit q.source q.args q.subfields q.context
    let key := q.key service.binding
    let joins (before : List (Move S C)) (q' : Request S C) (since : List (Move S C)) : Prop :=
      q'.Same service.binding q ∧ (start.run (before ++ [q'.move])).ticksTaken since = 0
    let known := ∃ before q' since, ms = before ++ q'.move :: since ∧ joins before q' since
    let asked := ((start.requestsSince [] ms).map (Request.key service.binding)).eraseDups
    (∀ before q' since, ms = before ++ q'.move :: since →
      ((start.run before).receipt q'.move = .ticket s.ticket ↔ joins before q' since)) ∧
    (known → s.events = [.submitted service.id true] ∧
      s.batcher.pending = b.pending ∧ s.batcher.results = b.results) ∧
    (¬ known → s.events = [.submitted service.id false] ∧ key ∉ b.pending.keys ∧
      s.batcher.pending.entries = b.pending.entries ++
        [(key, ⟨q.args, service.binding.selectionOf q.subfields, s.ticket⟩)] ∧
      s.ticket = b.results.size ∧ s.batcher.results = b.results.push none) ∧
    (s.batcher.result? s.ticket = none ∧ ∀ t ∈ b.running, s.ticket ∉ t.unsettled) ∧
    b.pending.keys = asked ∧ b.pending.size = asked.length := by
  intro start b s key joins known asked
  have hnew := sound_new maxConcurrentGroups service
  have hb : b.Sound := sound_run hnew ms
  have hbinding : b.service.binding = service.binding := (carried_run start ms).binding
  have hkeys : b.pending.keys = asked := keys_run rfl rfl ms
  have hid : b.id = service.id := congrArg Binding.id hbinding
  -- a request is known just when its key is pending
  have hknown : key ∈ b.pending.keys ↔ known := by
    rw [hkeys, mem_eraseDups, List.mem_map]
    constructor
    · rintro ⟨q', hq', hkey⟩
      rcases mem_requestsSince.mp hq' with ⟨hnil, _⟩ | ⟨before, since, hms, hnone⟩
      · cases hnil
      · exact ⟨before, q', since, hms, Request.key_eq_iff.mp hkey, hnone⟩
    · rintro ⟨before, q', since, hms, hsame, hnone⟩
      exact ⟨q', mem_requestsSince.mpr (Or.inr ⟨before, since, hms, hnone⟩),
        Request.key_eq_iff.mpr hsame⟩
  refine ⟨fun before q' since hms => ?_, fun h => ?_, fun h => ?_, ticket_is_open hb q, hkeys, ?_⟩
  · have hbefore : (start.run before).service.binding = service.binding :=
      (carried_run start before).binding
    have hlater : b = ((start.run before).after q'.move).run since := by
      show start.run ms = _
      rw [hms, run_append, run_cons]
    have hjoin := ticket_eq_iff (sound_run hnew before) q q' since
    have hat : start.run (before ++ [q'.move]) = (start.run before).after q'.move :=
      run_concat start before q'.move
    show Receipt.ticket _ = Receipt.ticket s.ticket ↔ q'.Same service.binding q ∧ _
    rw [Receipt.ticket.injEq, show s = b.submit _ _ _ _ from rfl, hlater, hat, ← hbefore]
    exact hjoin
  · obtain ⟨p, hp⟩ := Option.ne_none_iff_exists'.mp fun hnone =>
      Table.find?_eq_none_iff.mp hnone (hknown.mpr h)
    have hfind : b.pending.find? (q.key b.service.binding) = some p := by
      rw [hbinding]
      exact hp
    have hs : s = _ := submit_of_some hfind
    rw [hs, hid]
    exact ⟨rfl, rfl, rfl⟩
  · have hnot : key ∉ b.pending.keys := fun hmem => h (hknown.mp hmem)
    have hfind : b.pending.find? (q.key b.service.binding) = none := by
      rw [hbinding]
      exact Table.find?_eq_none_iff.mpr hnot
    have hentries := pending_submit_of_none hfind
    have hs : s = _ := submit_of_none hfind
    rw [hbinding] at hentries
    refine ⟨?_, hnot, ?_, ?_, ?_⟩
    · rw [hs, hid]
    · refine hentries.trans ?_
      rw [hs]
    · rw [hs]
    · rw [hs]
      rfl
  · rw [← hkeys]
    exact (List.length_map Prod.fst).symm

/-- while a tick with the call for 4 runs another call for 4 is new, and a third one joins it. -/
theorem submit_joins_since_last_tick_of_running_tick :
    let four : Request Nat Unit := ⟨4, .empty, [], ()⟩
    let b := (Batcher.new none halves).run [four.move, .beginTick]
    let s := b.submit 4 .empty [] ()
    let t := s.batcher.submit 4 .empty [] ()
    s.events = [.submitted 0 false] ∧ s.ticket = 1 ∧ b.running.length = 1 ∧
      t.events = [.submitted 0 true] ∧ t.ticket = 1 := by
  intro four b s t
  obtain ⟨_, _, hfresh, _⟩ := submit_joins_since_last_tick none halves [four.move, .beginTick] four
  obtain ⟨hjoins, hshared, _⟩ :=
    submit_joins_since_last_tick none halves [four.move, .beginTick, four.move] four
  have hsame : four.Same halves.binding four := ⟨rfl, rfl, fun _ => rfl, fun _ _ => rfl⟩
  have hgiven := (hjoins [four.move, .beginTick] four [] rfl).mpr ⟨hsame, rfl⟩
  obtain ⟨hevents, _, _, hticket, _⟩ := hfresh fun ⟨before, q', since, hms, _, hnone⟩ => by
    -- the tick was begun after the only earlier request
    cases before with
    | nil =>
      obtain ⟨hmove, rfl⟩ := List.cons.inj hms
      rw [← hmove] at hnone
      cases hnone
    | cons m before =>
      obtain ⟨_, hms⟩ := List.cons.inj hms
      cases before with
      | nil => cases (List.cons.inj hms).1
      | cons n before => cases before <;> cases (List.cons.inj hms).2
  exact ⟨hevents, hticket, rfl,
    (hshared ⟨[four.move, .beginTick], four, [], rfl, hsame, rfl⟩).1,
    (Receipt.ticket.inj hgiven).symm.trans hticket⟩

end Batcher
end Batchwise
