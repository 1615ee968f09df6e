import Batchwise.Proofs.Selection
import Batchwise.Proofs.Batch.Bare
import Batchwise.Proofs.Batch.Grouping

/-!
# What a resolver does not want

Arguments and subfields are handed to a batcher with every submission, whether the function of its
resolver takes them or not.  What it does not take cannot be told from anything that the batcher
does: of arguments nothing but the calls is left, which do not have them, and of subfields only the
wanted selection gets into the batcher at all.

* `Batcher.seen`           all that can be seen of a history, move by move;
* `Move.Alike`             two moves that differ only in what the function does not take;
* `Batcher.unwanted_is_unseen`   histories of such moves look the same.
-/

set_option linter.unusedSectionVars false

namespace Batchwise

variable {S C : Type} [DecidableEq S] [DecidableEq C]

namespace Batcher

variable {b : Batcher S C}

/-! ### what can be seen -/

/-- how a batcher stands, as far as anybody can tell. -/
structure View (S : Type) where
  phase : Phase
  pending : Nat
  ticks : Nat
  inFlight : Nat
  /-- the numbers of the running ticks. -/
  running : List Nat
  result? : Ticket → Option (CallResult S)
  /-- the results that tickets have if everything is given up now. -/
  closed? : Ticket → Option (CallResult S)

def view (b : Batcher S C) : View S where
  phase := b.phase
  pending := b.pending.size
  ticks := b.ticks
  inFlight := b.inFlight
  running := b.running.map Tick.number
  result? := b.result?
  closed? := b.close.result?

/-- all that can be seen of a history: what the caller of each move is given, what happens on the
way, and how the batcher stands then. -/
def seen : Batcher S C → List (Move S C) → List (Receipt × List (Event S C) × View S)
  | _, [] => []
  | b, m :: ms => (b.receipt m, b.eventsBy m, (b.after m).view) :: seen (b.after m) ms

theorem seen_cons (b : Batcher S C) (m : Move S C) (ms : List (Move S C)) :
    b.seen (m :: ms)
      = (b.receipt m, b.eventsBy m, (b.after m).view) :: (b.after m).seen ms := rfl

theorem view_bare (b : Batcher S C) : b.bare.view = b.view := by
  have hnumbers : (b.running.map Tick.bare).map Tick.number = b.running.map Tick.number := by
    rw [List.map_map]
    rfl
  have hsize : b.bare.pending.size = b.pending.size := List.length_map _
  unfold view
  rw [close_bare, hsize]
  exact congrArg (fun ns => { b.view with running := ns }) hnumbers

theorem seen_bare (h : b.ArgsFree) (ms : List (Move S C)) :
    b.bare.seen (ms.map Move.bare) = b.seen ms := by
  induction ms generalizing b with
  | nil => rfl
  | cons m ms ih =>
    obtain ⟨hafter, hreceipt, hevents⟩ := bare_after h m
    rw [List.map_cons, seen_cons, seen_cons, hafter, hreceipt, hevents, view_bare, ih (h.after m)]

end Batcher

/-! ### moves that differ in what is not wanted -/

namespace Move

/-- two moves are the same to every batcher of a binding. -/
def Same (binding : Binding S C) (m m' : Move S C) : Prop :=
  ∀ b : Batcher S C, b.service.binding = binding →
    b.after m = b.after m' ∧ b.receipt m = b.receipt m' ∧ b.eventsBy m = b.eventsBy m'

theorem Same.refl (binding : Binding S C) (m : Move S C) : Same binding m m :=
  fun _ _ => ⟨rfl, rfl, rfl⟩

/-- of subfields only the selection gets into a batcher. -/
theorem same_submit {binding : Binding S C} {subfields subfields' : List Field}
    (h : binding.selectionOf subfields = binding.selectionOf subfields') (source : S)
    (args : Args) (context : C) :
    Same binding (.submit source args subfields context) (.submit source args subfields' context) := by
  intro b hb
  have hsubmit : b.submit source args subfields context
      = b.submit source args subfields' context := by
    unfold Batcher.submit
    rw [hb, h]
  dsimp only [Batcher.receipt, Batcher.eventsBy]
  rw [Batcher.after_submit, Batcher.after_submit, hsubmit]
  exact ⟨rfl, rfl, rfl⟩

/-- two moves differ only in what the function does not take: in arguments if it takes none, and in
subfields without bounds if it takes no selection, else in all but the chains of names that lead
down to the depth of its selection. -/
inductive Alike (s : Service S C) : Move S C → Move S C → Prop
  | submit {source : S} {args args' : Args} {subfields subfields' : List Field} {context : C}
      (hargs : s.shape.takesArgs = true → args = args')
      (hchains : s.shape.takesSelection = true → ∀ names,
        names.length ≤ s.binding.selectionDepth →
          (Field.HasChain subfields names ↔ Field.HasChain subfields' names)) :
      Alike s (.submit source args subfields context) (.submit source args' subfields' context)
  | other (m : Move S C) : Alike s m m

theorem selectionOf_congr {s : Service S C} (hfits : s.Fits) {subfields subfields' : List Field}
    (h : s.shape.takesSelection = true → ∀ names, names.length ≤ s.binding.selectionDepth →
      (Field.HasChain subfields names ↔ Field.HasChain subfields' names)) :
    s.binding.selectionOf subfields = s.binding.selectionOf subfields' := by
  have htakes := hfits.selection
  unfold Binding.selectionDepth at h
  unfold Binding.selectionOf
  cases hdepth : s.binding.signature.selection with
  | none => rfl
  | some depth =>
    rw [hdepth] at htakes h
    exact congrArg some (Selection.ofFields_congr (h htakes))

namespace Alike

variable {s : Service S C} {m m' : Move S C}

theorem same (hfits : s.Fits) (htakes : s.shape.takesArgs = true) (h : Alike s m m') :
    Same s.binding m m' := by
  cases h with
  | submit hargs hchains =>
    rw [hargs htakes]
    exact same_submit (selectionOf_congr hfits hchains) _ _ _
  | other => exact Same.refl s.binding m

theorem same_bare (hfits : s.Fits) (h : Alike s m m') : Same s.binding m.bare m'.bare := by
  cases h with
  | submit hargs hchains => exact same_submit (selectionOf_congr hfits hchains) _ _ _
  | other => exact Same.refl s.binding m.bare

end Alike
end Move

namespace Batcher

/-- histories of the same moves look the same. -/
theorem seen_congr {b : Batcher S C} {binding : Binding S C} (hb : b.service.binding = binding)
    {ms ms' : List (Move S C)} (h : List.Forall₂ (Move.Same binding) ms ms') :
    b.seen ms = b.seen ms' := by
  induction h generalizing b with
  | nil => rfl
  | @cons m m' ms ms' hm _ ih =>
    obtain ⟨hafter, hreceipt, hevents⟩ := hm b hb
    have hb' : (b.after m').service.binding = binding := (carried_after b m').binding.trans hb
    rw [seen_cons, seen_cons, hafter, hreceipt, hevents, ih hb']

/-- **What a resolver does not want is not seen.**  Take any two histories of a batched resolver of
a built registry that differ, submission by submission, only in what its function does not take:
in the arguments if it takes none, in the subfields if it takes no selection, and if it takes one
of some depth in anything but the chains of names that lead down to that depth.  Then callers are
given the same tickets, summaries and errors; the same submissions are joined and the same calls
made, with the same sources and selection; and after every move the phase, the number of pending
calls and the result of every ticket are the same. -/
theorem unwanted_is_unseen {settings : Settings} {ds : List (Declaration S C)} {r : Registry S C}
    {binding : Binding S C} {service : Service S C} (hr : Registry.build settings ds = .ok r)
    (hbinding : binding ∈ r.bindings) (hservice : Service.ofBinding? binding = some service)
    (maxConcurrentGroups : Option Nat) {ms ms' : List (Move S C)}
    (h : List.Forall₂ (Move.Alike service) ms ms') :
    (Batcher.new maxConcurrentGroups service).seen ms
      = (Batcher.new maxConcurrentGroups service).seen ms' := by
  have hfits := Service.fits_of_mem (Registry.sound_build hr) hbinding hservice
  let start := Batcher.new maxConcurrentGroups service
  cases htakes : service.shape.takesArgs with
  | true => exact seen_congr rfl (h.imp fun _ _ hm => hm.same hfits htakes)
  | false =>
    have hfree : start.ArgsFree := ⟨htakes, hfits.args.symm.trans htakes⟩
    have hbare : List.Forall₂ (Move.Same service.binding) (ms.map Move.bare) (ms'.map Move.bare) := by
      rw [List.forall₂_map_left_iff, List.forall₂_map_right_iff]
      exact h.imp fun _ _ hm => hm.same_bare hfits
    calc start.seen ms
        = start.bare.seen (ms.map Move.bare) := (seen_bare hfree ms).symm
      _ = start.bare.seen (ms'.map Move.bare) := seen_congr rfl hbare
      _ = start.seen ms' := seen_bare hfree ms'

/-- a batched resolver that wants the names of the fields below it. -/
def authors : Declaration Nat Unit :=
  .withSelection "Post" "author" 1 (.batched ⟨false, true⟩ fun call =>
    .ready (.ok (Table.ofList (call.input.map fun n => (n, .text "nobody")))))

/-- the service of `authors` as the only resolver. -/
def authorsService : Service Nat Unit where
  binding := ⟨0, authors.typeName, authors.fieldName, authors.parameters, ⟨false, some 1⟩,
    authors.resolver⟩
  shape := ⟨false, true⟩
  run call := .ready (.ok (Table.ofList (call.input.map fun n => (n, .text "nobody"))))

/-- no argument, alias, repetition or field further down is seen by a resolver that wants names one
level deep: the second of two submissions joins the first, whichever way they are put. -/
theorem unwanted_is_unseen_of_authors :
    let long := Args.empty.insert "form" (.enum "LONG")
    let name : Field := ⟨none, "name", .empty, []⟩
    let title : Field := ⟨some "title", "name", long, [name]⟩
    let start := Batcher.new none authorsService
    let ms := [.submit 1 .empty [name] (), .submit 1 .empty [name] (), .beginTick]
    let ms' := [.submit 1 long [title] (), .submit 1 .empty [name, title] (), .beginTick]
    start.seen ms = start.seen ms' ∧ (start.seen ms').map (fun e => e.2.2.pending) = [1, 1, 0] := by
  intro long name title start ms ms'
  have hbuild : ∃ r, Registry.build Settings.default [authors] = .ok r ∧
      authorsService.binding ∈ r.bindings := ⟨_, rfl, List.mem_cons_self⟩
  obtain ⟨r, hr, hbinding⟩ := hbuild
  have hservice : Service.ofBinding? authorsService.binding = some authorsService := rfl
  have hchain : ∀ fs : List Field, fs ≠ [] → (∀ f ∈ fs, f.name = "name") → ∀ names : List String,
      names.length ≤ 1 → (Field.HasChain fs names ↔ names = ["name"]) := by
    intro fs hfs hname names hlength
    constructor
    · intro h
      cases h with
      | one hf => rw [hname _ hf]
      | deeper _ h =>
        have hnil : _ = [] := List.eq_nil_of_length_eq_zero (Nat.le_zero.mp
          (Nat.le_of_succ_le_succ hlength))
        exact absurd hnil h.ne_nil.2
    · rintro rfl
      obtain ⟨f, hf⟩ := List.exists_mem_of_ne_nil fs hfs
      rw [← hname f hf]
      exact .one hf
  have hsubmit : ∀ (args args' : Args) (fs fs' : List Field), fs ≠ [] → fs' ≠ [] →
      (∀ f ∈ fs ++ fs', f.name = "name") →
      Move.Alike authorsService (.submit 1 args fs ()) (.submit 1 args' fs' ()) := by
    intro args args' fs fs' hfs hfs' hnames
    refine .submit (fun htakes => by cases htakes) fun _ names hlength => ?_
    rw [hchain fs hfs (fun f hf => hnames f (List.mem_append_left _ hf)) names hlength,
      hchain fs' hfs' (fun f hf => hnames f (List.mem_append_right _ hf)) names hlength]
  have halike : List.Forall₂ (Move.Alike authorsService) ms ms' := by
    refine .cons (hsubmit _ _ _ _ ?_ ?_ ?_) (.cons (hsubmit _ _ _ _ ?_ ?_ ?_)
      (.cons (.other _) .nil))
    all_goals simp [name, title]
  have hseen := unwanted_is_unseen hr hbinding hservice none halike
  refine ⟨hseen, ?_⟩
  rw [← hseen]
  decide +kernel

end Batcher
end Batchwise
