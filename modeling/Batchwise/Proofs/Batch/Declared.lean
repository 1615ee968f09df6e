import Batchwise.Query.Level
import Batchwise.Proofs.Batch.Abandonment
import Batchwise.Proofs.Batch.Joining
import Batchwise.Proofs.Batch.Looks
import Batchwise.Proofs.Batch.Unwanted
import Batchwise.Proofs.Registry.Views

/-!
# Calls carry what is declared

What a function takes is checked against the declared parameters when the registry is built; the
selection is computed when a call is submitted, kept by the group of the call, and handed over when
the group is called.  On all of this way it is the selection of everyone who waits for the call, so
the one that sees nothing is never needed.

* `Call.Declared`         a call has just what is declared, computed from some subfields;
* `Batcher.Granted`       a request of a history was given a ticket;
* `Batcher.Stands`        a ticket stands for the requests of one key;
* `Batcher.Ledger`        so does every ticket that is pending or waits in a group, and the group
                          has the selection of its tickets: `Ledger.after`, `ledger_run`;
* `Registry.calls_carry_what_is_declared`   what simple and batched functions are called with.
-/

set_option linter.unusedSectionVars false

namespace Batchwise

variable {S C : Type}

/-! ### what is declared -/

/-- a call has arguments and a selection just where the parameters list them, and the selection is
as deep as they say and what is seen of these subfields. -/
structure Call.Declared {I : Type} (call : Call I C) (ps : List Parameter)
    (subfields : List Field) : Prop where
  args : call.args.isSome = true ↔ .arguments ∈ ps
  selection : call.selection.isSome = true ↔ ∃ depth, .selection depth ∈ ps
  reaches : ∀ depth, .selection depth ∈ ps → 1 ≤ depth ∧
    ∃ s, call.selection = some s ∧ s.depth = depth ∧ s = Selection.ofFields subfields depth

/-- the parameters of a binding declare its signature, and its function takes just that. -/
structure Binding.Checked (b : Binding S C) : Prop where
  reaches : b.signature.Reaches
  parameters_eq : b.parameters = b.signature.parameters b.isBatched
  args : b.resolver.shape.takesArgs = b.signature.wantsArgs
  selection : b.resolver.shape.takesSelection = b.signature.selection.isSome

theorem Declaration.signature_of_bind {d : Declaration S C} {id : Nat} {b : Binding S C}
    (h : d.bind id = .ok b) :
    Signature.ofParameters d.resolver.isBatched d.parameters = .ok b.signature := by
  unfold bind at h
  split at h
  · cases h
  · split at h
    · cases h
    · rename_i signature hsignature
      split at h
      · cases h
        exact hsignature
      · cases h

theorem Declaration.checked_of_bind {d : Declaration S C} {id : Nat} {b : Binding S C}
    (h : d.bind id = .ok b) : b.Checked := by
  obtain ⟨hreaches, hparameters⟩ := Signature.ofParameters_eq_ok_iff.mp (signature_of_bind h)
  obtain ⟨hargs, hselection⟩ := Bool.and_eq_true_iff.mp (of_bind h).2
  refine ⟨hreaches, ?_, eq_of_beq hargs, eq_of_beq hselection⟩
  have heq := eq_of_bind h
  have hbatched : b.isBatched = d.resolver.isBatched :=
    congrArg (fun b : Binding S C => b.isBatched) heq
  rw [hbatched, ← hparameters]
  exact congrArg Binding.parameters heq

namespace Binding.Checked

variable {b : Binding S C}

theorem isSome_of_takes (h : b.Checked) (htakes : b.resolver.shape.takesSelection = true)
    {selection : Option Selection}
    (hdepth : selection.map Selection.depth = b.signature.selection) : selection.isSome = true := by
  rw [h.selection, ← hdepth, Option.isSome_map] at htakes
  exact htakes

/-- a function that is called with what its binding computes of some subfields is called with what
is declared. -/
theorem declared {I : Type} (h : b.Checked) (input : I) (args : Args) (subfields : List Field)
    (context : C) : (Call.ofShape b.resolver.shape input args (b.selectionOf subfields)
      context).Declared b.parameters subfields := by
  rw [h.parameters_eq]
  refine ⟨?_, ?_, fun depth hdepth => ?_⟩
  · rw [Signature.arguments_mem_parameters, ← h.args]
    unfold Call.ofShape
    cases b.resolver.shape.takesArgs <;> simp
  · simp only [Signature.selection_mem_parameters]
    rw [← Option.isSome_iff_exists, ← h.selection]
    unfold Call.ofShape
    cases b.resolver.shape.takesSelection <;> simp
  · have hselection := Signature.selection_mem_parameters.mp hdepth
    have htakes := h.selection
    rw [hselection, Option.isSome_some] at htakes
    refine ⟨h.reaches depth hselection, _, ?_, rfl, rfl⟩
    unfold Call.ofShape Binding.selectionOf
    rw [hselection, htakes]
    rfl

end Binding.Checked

/-! ### the selection of a group -/

section

variable [DecidableEq S] [DecidableEq C]

/-- the selection of a group is as deep as its signature says and has the paths of all its
members, and there is a member. -/
structure Group.Shares (signature : Signature) (g : Group S C) : Prop where
  nonempty : g.members ≠ []
  depth : g.selection.map Selection.depth = signature.selection
  paths : ∀ m ∈ g.members, g.selection.map Selection.paths = m.1.selection

theorem Group.shares_of_mem_groups {s : Service S C} {calls : List (Key S C × Pending)}
    (hs : ∀ e ∈ calls, s.Calls e) {g : Group S C} (hg : g ∈ (groupPending calls).values) :
    g.Shares s.binding.signature := by
  obtain ⟨first, hmem, rest, hfirst, rfl⟩ := exists_first_of_mem_groups hg
  have hselection : (Group.serving (callsOf calls first.1.groupKey)).selection =
      first.2.selection := by
    rw [hfirst, Group.selection_serving]
  have hpaths : first.2.selection.map Selection.paths = first.1.selection :=
    congrArg Key.selection (hs first hmem).key_eq
  refine ⟨?_, ?_, fun m hm => ?_⟩
  · rw [Group.members_serving, hfirst]
    exact List.cons_ne_nil _ _
  · rw [hselection]
    exact (hs first hmem).depth_eq
  · rw [Group.members_serving] at hm
    obtain ⟨e, he, rfl⟩ := List.mem_map.mp hm
    rw [hselection, hpaths]
    exact (congrArg Prod.snd (mem_callsOf.mp he).2).symm

theorem Group.Shares.selection_eq {binding : Binding S C} {g : Group S C}
    (h : g.Shares binding.signature) {m : Key S C × Ticket} (hm : m ∈ g.members)
    {q : Request S C} (hq : q.key binding = m.1) :
    g.selection = binding.selectionOf q.subfields := by
  apply Selection.eq_of_maps
  · rw [h.depth]
    unfold Binding.selectionOf
    rw [Option.map_map]
    exact Option.map_id'.symm
  · rw [h.paths m hm, ← hq]
    rfl

namespace Batcher

/-! ### tickets and requests -/

/-- in the course of a history the request was given the ticket. -/
def Granted (b : Batcher S C) (ms : List (Move S C)) (q : Request S C) (ticket : Ticket) : Prop :=
  ∃ before later, ms = before ++ q.move :: later ∧
    (b.run before).receipt q.move = .ticket ticket

/-- the ticket was given to a request, and to none of another key. -/
structure Stands (b : Batcher S C) (ms : List (Move S C)) (key : Key S C) (ticket : Ticket) :
    Prop where
  given : ∃ q, Granted b ms q ticket
  only : ∀ q, Granted b ms q ticket → q.key b.service.binding = key

variable {b : Batcher S C} {ms : List (Move S C)} {m : Move S C}

theorem granted_concat {q : Request S C} {ticket : Ticket} : Granted b (ms ++ [m]) q ticket ↔
    Granted b ms q ticket ∨ m = q.move ∧ (b.run ms).receipt q.move = .ticket ticket := by
  constructor
  · rintro ⟨before, later, hms, hreceipt⟩
    rcases List.eq_nil_or_concat later with rfl | ⟨later, n, rfl⟩
    · obtain ⟨rfl, hm⟩ := List.append_inj' hms rfl
      exact Or.inr ⟨(List.cons.inj hm).1, hreceipt⟩
    · rw [List.concat_eq_append, ← List.cons_append, ← List.append_assoc] at hms
      exact Or.inl ⟨before, later, (List.append_inj' hms rfl).1, hreceipt⟩
  · rintro (⟨before, later, rfl, hreceipt⟩ | ⟨rfl, hreceipt⟩)
    · exact ⟨before, later ++ [m], by simp, hreceipt⟩
    · exact ⟨ms, [], rfl, hreceipt⟩

theorem Stands.concat {key : Key S C} {ticket : Ticket} (h : Stands b ms key ticket)
    (hnew : ∀ q : Request S C, m = q.move → (b.run ms).receipt q.move = .ticket ticket →
      q.key b.service.binding = key) : Stands b (ms ++ [m]) key ticket := by
  obtain ⟨⟨q, hq⟩, honly⟩ := h
  refine ⟨⟨q, granted_concat.mpr (Or.inl hq)⟩, fun q hq => ?_⟩
  rcases granted_concat.mp hq with hq | ⟨hm, hreceipt⟩
  · exact honly q hq
  · exact hnew q hm hreceipt

/-- the tickets of a group stand for their keys, and it has the selection of all of them. -/
structure Serving (b : Batcher S C) (ms : List (Move S C)) (g : Group S C) : Prop where
  shares : g.Shares b.service.binding.signature
  stands : ∀ m ∈ g.members, Stands b ms m.1 m.2

/-- what tickets stand for after a history: those of pending calls and of groups that are not
called yet stand for their keys. -/
structure Ledger (b : Batcher S C) (ms : List (Move S C)) : Prop where
  lt_size : ∀ q ticket, Granted b ms q ticket → ticket < (b.run ms).results.size
  pending : ∀ e ∈ (b.run ms).pending.entries, Stands b ms e.1 e.2.ticket
  queued : ∀ t ∈ (b.run ms).running, ∀ g ∈ t.queued, Serving b ms g

theorem binding_run (b : Batcher S C) (ms : List (Move S C)) :
    (b.run ms).service.binding = b.service.binding := (carried_run b ms).binding

namespace Ledger

/-- a ticket that is given to a request is that of the pending call of its key. -/
theorem ticket_of_receipt {b : Batcher S C} {q : Request S C} {ticket : Ticket}
    (h : b.receipt q.move = .ticket ticket) :
    ∃ p, (b.after q.move).pending.find? (q.key b.service.binding) = some p ∧ p.ticket = ticket := by
  obtain ⟨p, hp, hticket⟩ := find?_pending_submit b q.source q.args q.subfields q.context
  exact ⟨p, hp, hticket.trans (Receipt.ticket.inj h)⟩

variable (h : Ledger b ms) (hb : b.Sound)
include h hb

/-- a pending call that stays pending keeps its ticket to itself. -/
theorem stands_pending {e : Key S C × Pending} (he : e ∈ (b.run ms).pending.entries) :
    Stands b (ms ++ [m]) e.1 e.2.ticket := by
  refine (h.pending e he).concat ?_
  rintro q rfl hreceipt
  obtain ⟨p, hp, hticket⟩ := ticket_of_receipt hreceipt
  have hkept : ((b.run ms).after q.move).pending.find? e.1 = some e.2 :=
    find?_pending_after (fun h => by cases h) (Table.mem_entries_iff.mp he)
  rw [binding_run] at hp
  exact key_eq_of_ticket ((sound_run hb ms).after q.move) hp hkept hticket

/-- tickets that a tick took are given to nobody. -/
theorem serving_queued {t : Tick S C} (ht : t ∈ (b.run ms).running) {g : Group S C}
    (hg : g ∈ t.queued) : Serving b (ms ++ [m]) g := by
  obtain ⟨hshares, hstands⟩ := h.queued t ht g hg
  refine ⟨hshares, fun k hk => (hstands k hk).concat ?_⟩
  rintro q rfl hreceipt
  have hfree := (ticket_is_open (sound_run hb ms) q).2 t ht
  have htaken : k.2 ∈ t.unsettled :=
    List.mem_append_right _ (List.mem_flatMap.mpr ⟨g, hg, List.mem_map_of_mem hk⟩)
  rw [← Receipt.ticket.inj hreceipt] at htaken
  exact absurd htaken hfree

theorem serving_groups {g : Group S C}
    (hg : g ∈ (groupPending (b.run ms).pending.entries).values) : Serving b (ms ++ [m]) g := by
  have hcalls : ∀ e ∈ (b.run ms).pending.entries, b.service.Calls e := by
    intro e he
    obtain ⟨hkey, hdepth⟩ := (sound_run hb ms).calls e he
    rw [binding_run] at hkey hdepth
    exact ⟨hkey, hdepth⟩
  refine ⟨Group.shares_of_mem_groups hcalls hg, fun k hk => ?_⟩
  obtain ⟨e, he, rfl⟩ := List.mem_map.mp
    ((perm_members_groups _).subset (List.mem_flatMap.mpr ⟨g, hg, hk⟩))
  exact h.stands_pending hb he

/-- the pending calls after a submission are those before it, and maybe one with a new ticket. -/
theorem stands_submit {q : Request S C} {e : Key S C × Pending}
    (he : e ∈ ((b.run ms).after q.move).pending.entries) :
    Stands b (ms ++ [q.move]) e.1 e.2.ticket := by
  cases hfind : (b.run ms).pending.find? (q.key (b.run ms).service.binding) with
  | some p =>
    have hafter : (b.run ms).after q.move = { b.run ms with phase := (b.run ms).phase.resumed } :=
      congrArg Submission.batcher (submit_of_some hfind)
    rw [hafter] at he
    exact h.stands_pending hb he
  | none =>
    have hentries := pending_submit_of_none hfind
    have hticket : (b.run ms).receipt q.move = .ticket (b.run ms).results.size :=
      congrArg (fun s : Submission S C => Receipt.ticket s.ticket) (submit_of_none hfind)
    have he' : e ∈ (Submission.batcher _).pending.entries := he
    rw [hentries] at he'
    rcases List.mem_append.mp he' with he' | he'
    · exact h.stands_pending hb he'
    · rw [List.mem_singleton.mp he', binding_run]
      refine ⟨⟨q, granted_concat.mpr (Or.inr ⟨rfl, hticket⟩)⟩, fun q' hq' => ?_⟩
      rcases granted_concat.mp hq' with hq' | ⟨hmove, _⟩
      · exact absurd (h.lt_size _ _ hq') (Nat.lt_irrefl _)
      · rw [Request.move_inj.mp hmove]

theorem pending_after {e : Key S C × Pending} (he : e ∈ ((b.run ms).after m).pending.entries) :
    Stands b (ms ++ [m]) e.1 e.2.ticket := by
  rcases intake_cases (b.run ms) m with ⟨q, rfl, _⟩ | ⟨_, _, hintake⟩ | ⟨_, _, hintake⟩
  · exact h.stands_submit hb he
  · rw [(Intake.mk.inj hintake).1] at he
    cases he
  · rw [(Intake.mk.inj hintake).1] at he
    exact h.stands_pending hb he

theorem lt_size_after {q : Request S C} {ticket : Ticket} (hq : Granted b (ms ++ [m]) q ticket) :
    ticket < ((b.run ms).after m).results.size := by
  rcases granted_concat.mp hq with hq | ⟨rfl, hreceipt⟩
  · exact Nat.lt_of_lt_of_le (h.lt_size q ticket hq) (size_le_after _ m)
  · obtain ⟨p, hp, rfl⟩ := ticket_of_receipt hreceipt
    exact ((sound_run hb ms).after q.move).lt_size (ticket_mem_openTickets hp)

/-- **One move keeps what tickets stand for.** -/
theorem after (m : Move S C) : Ledger b (ms ++ [m]) := by
  refine ⟨?_, ?_, ?_⟩
  · rw [run_concat]
    exact fun q ticket hq => h.lt_size_after hb hq
  · rw [run_concat]
    exact fun e he => h.pending_after hb he
  · rw [run_concat]
    refine forall_running_after (P := fun t => ∀ g ∈ t.queued, Serving b (ms ++ [m]) g)
      (fun _ g hg => h.serving_groups hb hg) (fun _ _ ht => ht) (fun t isOpen ht g hg => ?_)
      (fun t ht g hg => h.serving_queued hb ht hg) m
    obtain ⟨started, _, hqueued, _⟩ := Tick.poll_accounts (b.run ms).service isOpen t
    exact ht g (hqueued ▸ List.mem_append_right started hg)

end Ledger

/-- **Every history keeps what tickets stand for.** -/
theorem ledger_run (maxConcurrentGroups : Option Nat) (service : Service S C)
    (ms : List (Move S C)) : Ledger (Batcher.new maxConcurrentGroups service) ms := by
  induction ms using List.reverseRecOn with
  | nil =>
    refine ⟨?_, fun _ he => (by cases he), fun _ ht => (by cases ht)⟩
    rintro q ticket ⟨before, later, hms, _⟩
    exact absurd hms (List.append_ne_nil_of_right_ne_nil before (List.cons_ne_nil _ _)).symm
  | append_singleton ms m ih => exact ih.after (sound_new maxConcurrentGroups service) m

/-! ### calls -/

/-- a call is made for a group in the queue of a tick that is looked at. -/
theorem exists_queued_of_made {b : Batcher S C} {m : Move S C} {call : Call (List S) C}
    (h : call ∈ madeCalls (b.eventsBy m)) :
    ∃ isOpen number t g, m = .poll isOpen number ∧ b.tick? number = some t ∧ g ∈ t.queued ∧
      call = g.call b.service t.context := by
  cases m with
  | submit source args subfields context =>
    obtain ⟨shared, hevents⟩ := b.events_submit source args subfields context
    rw [eventsBy, hevents] at h
    cases h
  | beginTick =>
    rw [eventsBy, (calls_beginTick b).2.1] at h
    cases h
  | poll isOpen number =>
    rcases poll_cases b isOpen number with ⟨_, _, _, hevents⟩ | ⟨t, ht, hevents, _⟩
    · rw [eventsBy, hevents] at h
      cases h
    · obtain ⟨started, _, hqueued, _, _, hcalls, _⟩ := Tick.poll_accounts b.service isOpen t
      rw [eventsBy, hevents, hcalls] at h
      obtain ⟨g, hg, rfl⟩ := List.mem_map.mp h
      exact ⟨isOpen, number, t, g, rfl, ht, hqueued ▸ List.mem_append_left _ hg, rfl⟩
  | wake isOpen => cases h
  | drop number => cases h
  | answer run => cases h

theorem exists_move_of_made {b : Batcher S C} {ms : List (Move S C)} {call : Call (List S) C}
    (h : call ∈ madeCalls (b.trace ms)) : ∃ before m later, ms = before ++ m :: later ∧
      call ∈ madeCalls ((b.run before).eventsBy m) := by
  induction ms generalizing b with
  | nil => cases h
  | cons m ms ih =>
    rw [trace_cons, madeCalls_append] at h
    rcases List.mem_append.mp h with h | h
    · exact ⟨[], m, ms, rfl, h⟩
    · obtain ⟨before, n, later, rfl, hcall⟩ := ih h
      exact ⟨m :: before, n, later, rfl, hcall⟩

/-- the requests that were given the tickets of a group, of which there is one, all have its
selection. -/
theorem Serving.selection_eq {b : Batcher S C} {ms : List (Move S C)} {g : Group S C}
    (h : Serving b ms g) : (∃ q ticket, Granted b ms q ticket ∧ ticket ∈ g.tickets) ∧
      ∀ q ticket, Granted b ms q ticket → ticket ∈ g.tickets →
        g.selection = b.service.binding.selectionOf q.subfields := by
  constructor
  · obtain ⟨m, hm⟩ := List.exists_mem_of_ne_nil _ h.shares.nonempty
    obtain ⟨q, hq⟩ := (h.stands m hm).given
    exact ⟨q, m.2, hq, List.mem_map_of_mem hm⟩
  · intro q ticket hq hticket
    obtain ⟨m, hm, rfl⟩ := List.mem_map.mp hticket
    exact h.shares.selection_eq hm ((h.stands m hm).only q hq)

end Batcher

/-- **Functions are called with what their parameters declare.**  In every registry that was built,
for every declaration:
* a simple function is called with arguments and a selection just where its parameters list them,
  and the selection has the depth that is declared, at least one, and is that of the field;
* so is a batched function, whatever the history of its batcher: each of its calls is that of a
  group in the queue of a tick, whose tickets were given to some requests, and it has the selection
  of each of them;
* where a function takes a selection one was computed. -/
theorem Registry.calls_carry_what_is_declared {settings : Settings} {ds : List (Declaration S C)}
    {r : Registry S C} (hr : build settings ds = .ok r) {i : Nat} {d : Declaration S C}
    (hd : ds[i]? = some d) :
    ∃ b, r.get? i = some b ∧
      (∀ shape run, d.resolver = .simple shape run → ∀ source field context,
        (Level.simpleCall b shape source field context).Declared d.parameters field.subfields ∧
        (shape.takesSelection = true → (b.selectionOf field.subfields).isSome = true)) ∧
      ∀ shape run, d.resolver = .batched shape run →
        Service.ofBinding? b = some ⟨b, shape, run⟩ ∧
        ∀ maxConcurrentGroups ms call,
          let start := Batcher.new maxConcurrentGroups ⟨b, shape, run⟩
          call ∈ madeCalls (start.trace ms) →
          ∃ before isOpen number later t g, ms = before ++ .poll isOpen number :: later ∧
            (start.run before).tick? number = some t ∧ g ∈ t.queued ∧
            call = g.call ⟨b, shape, run⟩ t.context ∧
            (shape.takesSelection = true → g.selection.isSome = true) ∧
            (∃ q ticket, Batcher.Granted start before q ticket ∧ ticket ∈ g.tickets) ∧
            ∀ q ticket, Batcher.Granted start before q ticket → ticket ∈ g.tickets →
              call.Declared d.parameters q.subfields := by
  obtain ⟨b, hget, hbind⟩ := (shows_build hr).get?_of_declared hd
  have hchecked := Declaration.checked_of_bind hbind
  have heq := Declaration.eq_of_bind hbind
  have hparameters : b.parameters = d.parameters := congrArg Binding.parameters heq
  have hresolver : b.resolver = d.resolver := congrArg Binding.resolver heq
  refine ⟨b, hget, fun shape run hsimple source field context => ?_, fun shape run hbatched =>
    ⟨?_, ?_⟩⟩
  · have hshape : b.resolver.shape = shape := by rw [hresolver, hsimple]; rfl
    rw [← hparameters, ← hshape]
    refine ⟨hchecked.declared source field.args field.subfields context, fun htakes =>
      hchecked.isSome_of_takes htakes ?_⟩
    unfold Binding.selectionOf
    rw [Option.map_map]
    exact Option.map_id'
  · unfold Service.ofBinding?
    rw [hresolver, hbatched]
  · intro maxConcurrentGroups ms call start hcall
    have hshape : b.resolver.shape = shape := by rw [hresolver, hbatched]; rfl
    obtain ⟨before, m, later, hms, hmade⟩ := Batcher.exists_move_of_made hcall
    obtain ⟨isOpen, number, t, g, rfl, ht, hg, hgroup⟩ := Batcher.exists_queued_of_made hmade
    have hserving := (Batcher.ledger_run maxConcurrentGroups ⟨b, shape, run⟩ before).queued t
      (Batcher.mem_of_tick? ht) g hg
    obtain ⟨hserved, hselection⟩ := hserving.selection_eq
    rw [Group.call_congr (Batcher.carried_run start before).shape] at hgroup
    refine ⟨before, isOpen, number, later, t, g, hms, ht, hg, hgroup, fun htakes => ?_, hserved,
      fun q ticket hq hticket => ?_⟩
    · rw [← hshape] at htakes
      exact hchecked.isSome_of_takes htakes hserving.shares.depth
    · have hown : g.selection = b.selectionOf q.subfields := hselection q ticket hq hticket
      have hdeclared := hchecked.declared g.sources g.args q.subfields t.context
      rw [hshape, ← hown, hparameters] at hdeclared
      rw [hgroup]
      exact hdeclared

/-- a simple resolver that wants its arguments -/
def slug : Declaration Nat Unit :=
  .withArgs "Post" "slug" (.simple ⟨true, false⟩ fun _ => .ready (.ok .null))

/-- two requests ask in different words for the name of an author; the one call that serves both has
the selection of each. -/
theorem Registry.calls_carry_what_is_declared_of_authors :
    let name : Field := ⟨none, "name", .empty, []⟩
    let title : Field := ⟨some "title", "name", .empty, [name]⟩
    let start := Batcher.new none Batcher.authorsService
    let ms := [.submit 1 .empty [name] (), .submit 2 .empty [title] (), .beginTick,
      .poll (fun _ => true) 0]
    (∃ call ∈ madeCalls (start.trace ms), call.Declared Batcher.authors.parameters [name] ∧
      call.Declared Batcher.authors.parameters [title]) ∧
    ∃ b, (Level.simpleCall b ⟨true, false⟩ 1 name ()).Declared slug.parameters [] := by
  intro name title start ms
  obtain ⟨r, hr, hget⟩ : ∃ r, build .default [Batcher.authors, slug] = .ok r ∧
      r.get? 0 = some Batcher.authorsService.binding := ⟨_, rfl, rfl⟩
  obtain ⟨b, hb, _, hbatched⟩ := calls_carry_what_is_declared hr (i := 0) rfl
  obtain ⟨c, _, hsimple, _⟩ := calls_carry_what_is_declared hr (i := 1) rfl
  obtain rfl := Option.some.inj (hb.symm.trans hget)
  refine ⟨?_, c, (hsimple _ _ rfl 1 name ()).1⟩
  have hlength : (madeCalls (start.trace ms)).length = 1 := by decide +kernel
  obtain ⟨call, hcall⟩ := List.exists_mem_of_length_pos (hlength ▸ Nat.zero_lt_one)
  obtain ⟨before, isOpen, number, later, t, g, hms, ht, hg, _, _, _, hdeclared⟩ :=
    (hbatched _ _ rfl).2 none ms call hcall
  -- the only look is the last move, and both tickets are in the only group
  obtain ⟨rfl, rfl⟩ : before = ms.take 3 ∧ number = 0 := by
    have hparts : before = ms.take 3 ∧ (isOpen = (fun _ => true) ∧ number = 0) ∧ later = [] := by
      simpa [ms, List.cons_eq_append_iff] using hms
    exact ⟨hparts.1, hparts.2.1.2⟩
  have ht : (start.run (ms.take 3)).tick? 0 = some t := ht
  have htickets : ((start.run (ms.take 3)).tick? 0).map (fun t => t.queued.map Group.tickets)
      = some [[0, 1]] := by decide +kernel
  have hgroup : g.tickets = [0, 1] := by
    rw [ht] at htickets
    exact List.mem_singleton.mp (Option.some.inj htickets ▸ List.mem_map_of_mem hg)
  have hfirst : Batcher.Granted start (ms.take 3) ⟨1, .empty, [name], ()⟩ 0 := ⟨[], _, rfl, rfl⟩
  have hsecond : Batcher.Granted start (ms.take 3) ⟨2, .empty, [title], ()⟩ 1 :=
    ⟨[.submit 1 .empty [name] ()], [.beginTick], rfl, show Receipt.ticket _ = _ from
      congrArg Receipt.ticket (by decide +kernel)⟩
  exact ⟨call, hcall, hdeclared _ 0 hfirst (by rw [hgroup]; exact List.mem_cons_self),
    hdeclared _ 1 hsecond (by rw [hgroup]; simp)⟩

end

end Batchwise
