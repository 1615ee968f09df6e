import Batchwise.Proofs.Batch.Settlement
import Batchwise.Proofs.Registry

/-!
# Groups are classes of calls, and each is called once

The groups that a dispatch forms are the classes of the taken calls under equal fingerprints, and
the function is called once for each of them, with what each member would have been called with.

* `Service.fingerprints`   the fingerprints of what the resolver wants of a call;
* `Classes`                the groups as classes: a partition, in the order of first submission;
* `Serves`                 the call of a group as the call of each of its members;
* `Batcher.callsMade`      the calls that were made for one tick in the course of a history;
* `Batcher.callsMade_append_queuedCalls`   each group of the queue is called once, in order.
-/

set_option linter.unusedSectionVars false

namespace Batchwise

variable {S C : Type} [DecidableEq S] [DecidableEq C]

/-! ### what a group is -/

/-- the fingerprints by which calls of the resolver are grouped: of the arguments and of the
selection, each if it is wanted. -/
def Service.fingerprints (s : Service S C) (p : Pending) : GroupKey :=
  (if s.binding.signature.wantsArgs then some p.args.fingerprint else none,
    if s.binding.wantsSelection then p.selection.map Selection.paths else none)

theorem Service.Calls.groupKey_eq {s : Service S C} {e : Key S C × Pending} (h : s.Calls e) :
    e.1.groupKey = s.fingerprints e.2 := by
  unfold Key.groupKey Service.fingerprints Binding.wantsSelection
  rw [← h.key_eq]
  refine Prod.ext rfl ?_
  show e.2.selection.map Selection.paths =
    if s.binding.signature.selection.isSome then e.2.selection.map Selection.paths else none
  have hdepth := h.depth_eq
  cases hsel : e.2.selection with
  | none =>
    split
    · rfl
    · rfl
  | some selection =>
    rw [hsel] at hdepth
    rw [← hdepth]
    rfl

/-- a pending call as a member of a group. -/
def asMember (e : Key S C × Pending) : Key S C × Ticket := (e.1, e.2.ticket)

/-- the groups of some calls are the classes of equal fingerprints. -/
structure Classes (s : Service S C) (calls : List (Key S C × Pending))
    (groups : List (Group S C)) : Prop where
  /-- no call is lost, and none is there twice. -/
  members_perm : (groups.flatMap Group.members).Perm (calls.map asMember)
  /-- every call is in exactly one group. -/
  once : ∀ e ∈ calls, ∃! g, g ∈ groups ∧ asMember e ∈ g.members
  /-- a group has all calls with the fingerprints of one of its members, and no other. -/
  classes : ∀ g ∈ groups, ∀ e ∈ calls, asMember e ∈ g.members →
    ∀ f ∈ calls, asMember f ∈ g.members ↔ s.fingerprints f.2 = s.fingerprints e.2
  /-- no two groups share both fingerprints. -/
  apart : groups.Pairwise fun g h => ∀ e ∈ calls, ∀ f ∈ calls,
    asMember e ∈ g.members → asMember f ∈ h.members → s.fingerprints e.2 ≠ s.fingerprints f.2
  /-- groups come in the order of their first members, -/
  heads : (groups.filterMap fun g => g.members.head?).Sublist (calls.map asMember)
  /-- none of them is empty, -/
  nonempty : ∀ g ∈ groups, g.members ≠ []
  /-- and members come in the order of submission. -/
  inOrder : ∀ g ∈ groups, g.members.Sublist (calls.map asMember)

/-- the call of a group is the call of each of its members. -/
structure Serves (s : Service S C) (context : C) (calls : List (Key S C × Pending))
    (g : Group S C) : Prop where
  input_eq : (g.call s context).input = g.members.map fun m => m.1.source
  input_nodup : (g.call s context).input.Nodup
  input_length : (g.call s context).input.length = g.members.length
  context_eq : (g.call s context).context = context
  /-- the arguments of the first member, and those of every member up to the fingerprint. -/
  args_eq : ∃ first ∈ calls, g.members.head? = some (asMember first) ∧
    (g.call s context).args
      = (if s.binding.signature.wantsArgs then some first.2.args else none) ∧
    (s.binding.signature.wantsArgs = true → ∀ e ∈ calls, asMember e ∈ g.members →
      e.2.args.fingerprint = first.2.args.fingerprint)
  /-- the selection of every member. -/
  selection_eq : ∀ e ∈ calls, asMember e ∈ g.members →
    (g.call s context).selection = e.2.selection

section

variable {calls : List (Key S C × Pending)}

theorem eq_of_asMember (hd : (calls.map Prod.fst).Nodup) {e f : Key S C × Pending}
    (he : e ∈ calls) (hf : f ∈ calls) (h : asMember e = asMember f) : e = f :=
  have hkey : e.1 = f.1 := congrArg (fun m : Key S C × Ticket => m.1) h
  List.inj_on_of_nodup_map hd he hf hkey

theorem asMember_mem_serving (hd : (calls.map Prod.fst).Nodup) {k : GroupKey}
    {e : Key S C × Pending} (he : e ∈ calls) :
    asMember e ∈ (Group.serving (callsOf calls k)).members ↔ e.1.groupKey = k := by
  rw [Group.members_serving]
  constructor
  · intro h
    obtain ⟨f, hf, hfe⟩ := List.mem_map.mp h
    obtain ⟨hf, hk⟩ := mem_callsOf.mp hf
    rw [← eq_of_asMember hd hf he hfe]
    exact hk
  · intro hk
    exact List.mem_map.mpr ⟨e, mem_callsOf.mpr ⟨he, hk⟩, rfl⟩

theorem classes_groupPending {s : Service S C} (hd : (calls.map Prod.fst).Nodup)
    (hs : ∀ e ∈ calls, s.Calls e) : Classes s calls (groupPending calls).values := by
  refine ⟨perm_members_groups calls, ?_, ?_, ?_, heads_sublist calls, ?_, ?_⟩
  · intro e he
    obtain ⟨g, hg, rfl, hm⟩ := exists_mem_members he
    refine ⟨_, ⟨hg, hm⟩, ?_⟩
    rintro h ⟨hh, hmh⟩
    obtain ⟨k, _, rfl⟩ := mem_groups.mp hh
    rw [(asMember_mem_serving hd he).mp hmh]
  · intro g hg e he hm f hf
    obtain ⟨k, _, rfl⟩ := mem_groups.mp hg
    rw [asMember_mem_serving hd hf, ← (asMember_mem_serving hd he).mp hm,
      (hs f hf).groupKey_eq, (hs e he).groupKey_eq]
  · rw [values_groupPending, List.pairwise_map]
    have hkeys : (groupKeys calls).Nodup := nodup_eraseDups _
    refine List.Pairwise.imp ?_ hkeys
    intro k l hkl e he f hf hme hmf heq
    rw [← (hs e he).groupKey_eq, ← (hs f hf).groupKey_eq, (asMember_mem_serving hd he).mp hme,
      (asMember_mem_serving hd hf).mp hmf] at heq
    exact hkl heq
  · intro g hg
    obtain ⟨k, hk, rfl⟩ := mem_groups.mp hg
    rw [Group.members_serving]
    exact fun h => callsOf_ne_nil.mpr hk (List.map_eq_nil_iff.mp h)
  · intro g hg
    obtain ⟨k, _, rfl⟩ := mem_groups.mp hg
    rw [Group.members_serving]
    exact List.Sublist.map _ List.filter_sublist

theorem Selection.eq_of_maps {x y : Option Selection}
    (hdepth : x.map Selection.depth = y.map Selection.depth)
    (hpaths : x.map Selection.paths = y.map Selection.paths) : x = y := by
  cases x with
  | none =>
    cases y with
    | none => rfl
    | some y => cases hdepth
  | some x =>
    cases y with
    | none => cases hdepth
    | some y =>
      obtain ⟨_, _⟩ := x
      obtain ⟨_, _⟩ := y
      cases Option.some.inj hdepth
      cases Option.some.inj hpaths
      rfl

theorem selection_eq_of_paths {s : Service S C} {e f : Key S C × Pending} (he : s.Calls e)
    (hf : s.Calls f) (h : e.1.groupKey = f.1.groupKey) : e.2.selection = f.2.selection := by
  apply Selection.eq_of_maps (he.depth_eq.trans hf.depth_eq.symm)
  have hsel : e.1.selection = f.1.selection := congrArg Prod.snd h
  rw [← he.key_eq, ← hf.key_eq] at hsel
  exact hsel

/-- a function that takes what its binding declares is called with the selection as it is. -/
theorem selection_ofShape {s : Service S C} (hfits : s.Fits) {e : Key S C × Pending}
    (he : s.Calls e) (input : List S) (args : Args) (context : C) :
    (Call.ofShape s.shape input args e.2.selection context).selection = e.2.selection := by
  show (if s.shape.takesSelection = true then some (e.2.selection.getD Selection.empty) else none)
    = _
  rw [hfits.selection, ← he.depth_eq]
  cases e.2.selection with
  | none => rfl
  | some x => rfl

/-- a group serves the calls of one key, and there is a first one. -/
theorem exists_first_of_mem_groups {g : Group S C} (hg : g ∈ (groupPending calls).values) :
    ∃ first ∈ calls, ∃ rest, callsOf calls first.1.groupKey = first :: rest ∧
      g = Group.serving (callsOf calls first.1.groupKey) := by
  obtain ⟨k, hk, rfl⟩ := mem_groups.mp hg
  obtain ⟨first, rest, hfirst⟩ := List.exists_cons_of_ne_nil (callsOf_ne_nil.mpr hk)
  obtain ⟨hmem, rfl⟩ := mem_callsOf.mp (hfirst ▸ List.mem_cons_self : first ∈ callsOf calls k)
  exact ⟨first, hmem, rest, hfirst, rfl⟩

theorem serves_of_mem_groups {s : Service S C} (hfits : s.Fits)
    (hd : (calls.map Prod.fst).Nodup) (hs : ∀ e ∈ calls, s.Calls e) (hc : SameContext calls)
    (context : C) {g : Group S C} (hg : g ∈ (groupPending calls).values) :
    Serves s context calls g := by
  have haligned := aligned_of_mem_groups hd hc hg
  obtain ⟨first, hmem, rest, hfirst, rfl⟩ := exists_first_of_mem_groups hg
  have hsame : ∀ e ∈ calls,
      asMember e ∈ (Group.serving (callsOf calls first.1.groupKey)).members →
      e.1.groupKey = first.1.groupKey :=
    fun e he hm => (asMember_mem_serving hd he).mp hm
  refine ⟨haligned.sources_eq, haligned.nodup, ?_, rfl, ⟨first, hmem, ?_, ?_, ?_⟩, ?_⟩
  · exact (congrArg List.length haligned.sources_eq).trans (List.length_map _)
  · rw [Group.members_serving, hfirst]
    rfl
  · show (if s.shape.takesArgs = true then
        some (Group.serving (callsOf calls first.1.groupKey)).args else none) = _
    rw [hfirst, Group.args_serving, hfits.args]
  · intro hwants e he hm
    have hargs := congrArg Prod.fst (hsame e he hm)
    rw [(hs e he).groupKey_eq, (hs first hmem).groupKey_eq] at hargs
    have hargs' : (if s.binding.signature.wantsArgs then some e.2.args.fingerprint else none)
        = if s.binding.signature.wantsArgs then some first.2.args.fingerprint else none := hargs
    rw [if_pos hwants, if_pos hwants] at hargs'
    exact Option.some.inj hargs'
  · intro e he hm
    have heq := selection_eq_of_paths (hs e he) (hs first hmem) (hsame e he hm)
    rw [heq]
    show (Call.ofShape s.shape _ _
      (Group.serving (callsOf calls first.1.groupKey)).selection context).selection = _
    rw [hfirst, Group.selection_serving]
    exact selection_ofShape hfits (hs first hmem) _ _ context

end

/-! ### one call for each group -/

theorem Group.call_congr {s s' : Service S C} (h : s.shape = s'.shape) (context : C)
    (g : Group S C) : g.call s context = g.call s' context :=
  congrArg (fun shape => Call.ofShape shape g.sources g.args g.selection context) h

namespace Batcher

/-- the calls that a move makes for one tick. -/
def callsBy (b : Batcher S C) (number : Nat) : Move S C → List (Call (List S) C)
  | .poll isOpen n => if n = number then madeCalls (b.poll isOpen n).events else []
  | _ => []

/-- the calls that were made for one tick in the course of a history, in order. -/
def callsMade (number : Nat) : Batcher S C → List (Move S C) → List (Call (List S) C)
  | _, [] => []
  | b, m :: ms => b.callsBy number m ++ callsMade number (b.after m) ms

theorem callsMade_cons (number : Nat) (b : Batcher S C) (m : Move S C) (ms : List (Move S C)) :
    b.callsMade number (m :: ms) = b.callsBy number m ++ (b.after m).callsMade number ms := rfl

theorem callsBy_poll (b : Batcher S C) (number : Nat) (isOpen : Gate → Bool) :
    b.callsBy number (.poll isOpen number) = madeCalls (b.poll isOpen number).events :=
  if_pos rfl

theorem callsBy_other (b : Batcher S C) {number : Nat} {m : Move S C}
    (h : ∀ isOpen, m ≠ .poll isOpen number) : b.callsBy number m = [] := by
  cases m with
  | poll isOpen n =>
    have hne : n ≠ number := fun hn => h isOpen (congrArg (Move.poll isOpen) hn)
    exact if_neg hne
  | _ => rfl

/-- the calls that a running tick has yet to make. -/
def queuedCalls (b : Batcher S C) (number : Nat) : List (Call (List S) C) :=
  ((b.tick? number).map fun t => t.queued.map fun g => g.call b.service t.context).getD []

theorem queuedCalls_of_some {b : Batcher S C} {number : Nat} {t : Tick S C}
    (h : b.tick? number = some t) :
    b.queuedCalls number = t.queued.map fun g => g.call b.service t.context := by
  unfold queuedCalls
  rw [h]
  rfl

theorem queuedCalls_of_none {b : Batcher S C} {number : Nat} (h : b.tick? number = none) :
    b.queuedCalls number = [] := by
  unfold queuedCalls
  rw [h]
  rfl

theorem queuedCalls_poll (b : Batcher S C) (isOpen : Gate → Bool) (number : Nat) :
    madeCalls (b.poll isOpen number).events ++ (b.poll isOpen number).batcher.queuedCalls number
      = b.queuedCalls number := by
  have hshape := (carried_after b (.poll isOpen number)).shape
  rcases poll_cases b isOpen number with ⟨hnone, hb', _, hevents⟩ | ⟨t, ht, hevents, _⟩
  · rw [hb', hevents]
    rfl
  · obtain ⟨started, _, hqueued, _, _, hcalls, _⟩ := Tick.poll_accounts b.service isOpen t
    have htick := tick?_poll isOpen ht
    have hleft : (b.poll isOpen number).batcher.queuedCalls number
        = (t.poll b.service isOpen).tick.queued.map fun g => g.call b.service t.context := by
      cases hdone : (t.poll b.service isOpen).tick.isDone with
      | true =>
        rw [hdone, if_pos rfl] at htick
        rw [queuedCalls_of_none htick, List.isEmpty_iff.mp (Bool.and_eq_true_iff.mp hdone).1]
        rfl
      | false =>
        rw [hdone, if_neg Bool.false_ne_true] at htick
        rw [queuedCalls_of_some htick]
        exact List.map_congr_left fun g _ => Group.call_congr hshape t.context g
    rw [hleft, hevents, hcalls, queuedCalls_of_some ht, hqueued, List.map_append]

theorem queuedCalls_other {b : Batcher S C} {number : Nat} (hlt : number < b.ticks) {m : Move S C}
    (hpoll : ∀ isOpen, m ≠ .poll isOpen number) (hdrop : m ≠ .drop number) :
    (b.after m).queuedCalls number = b.queuedCalls number := by
  have hshape := (carried_after b m).shape
  have hcall : ∀ (context : C) (gs : List (Group S C)),
      (gs.map fun g => g.call (b.after m).service context)
        = gs.map fun g => g.call b.service context :=
    fun context gs => List.map_congr_left fun g _ => Group.call_congr hshape context g
  unfold queuedCalls
  rcases tick?_after hlt hpoll hdrop with htick | ⟨isOpen, htick⟩
  · rw [htick]
    cases b.tick? number with
    | none => rfl
    | some t => exact hcall t.context t.queued
  · rw [htick]
    cases b.tick? number with
    | none => rfl
    | some t => exact hcall t.context t.queued

/-- **Each group of the queue is called once, in order.** -/
theorem callsMade_append_queuedCalls {b : Batcher S C} {number : Nat}
    (hlt : number < b.ticks) (ms : List (Move S C)) (hms : .drop number ∉ ms) :
    b.callsMade number ms ++ (b.run ms).queuedCalls number = b.queuedCalls number := by
  induction ms generalizing b with
  | nil => rfl
  | cons m ms ih =>
    rw [List.mem_cons, not_or] at hms
    have hlt' : number < (b.after m).ticks := Nat.lt_of_lt_of_le hlt (carried_after b m).ticks_le
    have hrest := ih hlt' hms.2
    rw [run_cons]
    by_cases hpoll : ∃ isOpen, m = .poll isOpen number
    · obtain ⟨isOpen, rfl⟩ := hpoll
      rw [callsMade_cons, callsBy_poll, List.append_assoc, hrest]
      exact queuedCalls_poll b isOpen number
    · have hpoll' : ∀ isOpen, m ≠ .poll isOpen number := fun isOpen h => hpoll ⟨isOpen, h⟩
      rw [callsMade_cons, callsBy_other b hpoll', List.nil_append, hrest]
      exact queuedCalls_other hlt hpoll' fun h => hms.1 h.symm

/-! ### the groups of a dispatch -/

/-- **The groups of a dispatch are the classes of its calls, and each is called once.**  For a
batched resolver of a built registry, after any history, let the pending calls carry one context.
Then the dispatch that takes them forms their classes under equal fingerprints; whatever happens
next, unless the dispatch is given up, the function is called for these groups in order, for each
at most once, and for each just once by the time the dispatch returns; and the call of a group
is given the sources of its members, the arguments of its first member and the selection of all
its members. -/
theorem groups_are_classes_called_once {settings : Settings} {ds : List (Declaration S C)}
    {r : Registry S C} {binding : Binding S C} {service : Service S C}
    (hr : Registry.build settings ds = .ok r) (hbinding : binding ∈ r.bindings)
    (hservice : Service.ofBinding? binding = some service) (maxConcurrentGroups : Option Nat)
    (ms : List (Move S C)) :
    let b := (Batcher.new maxConcurrentGroups service).run ms
    let calls := b.pending.entries
    let groups := (groupPending calls).values
    calls ≠ [] → SameContext calls →
    b.beginTick.dispatch = .running b.ticks ∧
    (b.beginTick.batcher.tick? b.ticks).map Tick.queued = some groups ∧
    Classes service calls groups ∧
    ∃ context, (∀ e ∈ calls, e.1.context = context) ∧
      (∀ g ∈ groups, Serves service context calls g) ∧
      ∀ ns, .drop b.ticks ∉ ns →
        b.beginTick.batcher.callsMade b.ticks ns <+: groups.map (Group.call service context) ∧
        ∀ isOpen result,
          ((b.beginTick.batcher.run ns).poll isOpen b.ticks).dispatch = .ended result →
          b.beginTick.batcher.callsMade b.ticks (ns ++ [.poll isOpen b.ticks])
            = groups.map (Group.call service context) := by
  intro b calls groups hne hsame
  have hfits := Service.fits_of_mem (Registry.sound_build hr) hbinding hservice
  have hb : b.Sound := sound_run (sound_new maxConcurrentGroups service) ms
  have hcarried : Carried (Batcher.new maxConcurrentGroups service) b := carried_run _ ms
  have hcalls : ∀ e ∈ calls, service.Calls e := by
    intro e he
    obtain ⟨hkey, hdepth⟩ := hb.calls e he
    rw [hcarried.binding] at hkey hdepth
    exact ⟨hkey, hdepth⟩
  obtain ⟨e, he⟩ := List.exists_mem_of_ne_nil calls hne
  obtain ⟨hdispatch, htick⟩ := tick?_beginTick hb he hsame
  have hdistinct : (calls.map Prod.fst).Nodup := b.pending.distinct
  have hlt : b.ticks < b.beginTick.batcher.ticks := by
    have hnumber := hb.beginTick.numbers_lt _ (mem_of_tick? htick)
    exact hnumber
  have hqueued : b.beginTick.batcher.queuedCalls b.ticks
      = groups.map (Group.call service e.1.context) := by
    have hshape : b.beginTick.batcher.service.shape = service.shape :=
      (carried_after b .beginTick).shape.trans hcarried.shape
    rw [queuedCalls_of_some htick]
    exact List.map_congr_left fun g _ => Group.call_congr hshape _ g
  refine ⟨hdispatch, ?_, classes_groupPending hdistinct hcalls, e.1.context,
    fun f hf => hsame f hf e he,
    fun g hg => serves_of_mem_groups hfits hdistinct hcalls hsame e.1.context hg,
    fun ns hns => ⟨?_, fun isOpen result hended => ?_⟩⟩
  · rw [htick]
    rfl
  · rw [← hqueued, ← callsMade_append_queuedCalls hlt ns hns]
    exact List.prefix_append _ _
  · have hns' : .drop b.ticks ∉ ns ++ [Move.poll isOpen b.ticks] := by
      rw [List.mem_append, List.mem_singleton]
      exact fun h => h.elim hns (fun h => by cases h)
    have hall := callsMade_append_queuedCalls hlt _ hns'
    have hnil : (b.beginTick.batcher.run (ns ++ [.poll isOpen b.ticks])).queuedCalls b.ticks
        = [] := by
      rw [run_concat]
      exact queuedCalls_of_none (tick?_of_ended hended)
    rw [hnil, List.append_nil, hqueued] at hall
    exact hall

/-- a batched resolver that wants its arguments. -/
def titles : Declaration Nat Unit :=
  .withArgs "Post" "title" (.batched ⟨true, false⟩ fun call =>
    .ready (.ok (Table.ofList (call.input.map fun n => (n, .text "untitled")))))

/-- the service of `titles` as the only resolver. -/
def titlesService : Service Nat Unit where
  binding := ⟨0, titles.typeName, titles.fieldName, titles.parameters, ⟨true, none⟩, titles.resolver⟩
  shape := ⟨true, false⟩
  run call := .ready (.ok (Table.ofList (call.input.map fun n => (n, .text "untitled"))))

/-- calls with two argument sets are two groups, and two calls are made. -/
theorem groups_are_classes_called_once_of_titles :
    let long := Args.empty.insert "form" (.enum "LONG")
    let short := Args.empty.insert "form" (.enum "SHORT")
    let b := (Batcher.new none titlesService).run
      [.submit 1 long [] (), .submit 2 short [] (), .submit 3 long [] ()]
    let groups := (groupPending b.pending.entries).values
    groups.length = 2 ∧ Classes titlesService b.pending.entries groups ∧
      b.beginTick.batcher.callsMade b.ticks [.poll (fun _ => true) b.ticks]
        = groups.map (Group.call titlesService ()) := by
  intro long short b groups
  have hlength : groups.length = 2 := by decide +kernel
  have hcalls : b.pending.entries ≠ [] := fun h => by
    have hnil : groups.length = 0 := congrArg (fun es => (groupPending es).values.length) h
    rw [hnil] at hlength
    cases hlength
  have hbuild : ∃ r, Registry.build Settings.default [titles] = .ok r ∧
      titlesService.binding ∈ r.bindings := ⟨_, rfl, List.mem_cons_self⟩
  obtain ⟨r, hr, hbinding⟩ := hbuild
  have hservice : Service.ofBinding? titlesService.binding = some titlesService := rfl
  obtain ⟨_, htick, hclasses, _, _, _, hcalled⟩ :=
    groups_are_classes_called_once hr hbinding hservice none
      [.submit 1 long [] (), .submit 2 short [] (), .submit 3 long [] ()] hcalls
      fun _ _ _ _ => rfl
  refine ⟨hlength, hclasses, ?_⟩
  have hsound : b.beginTick.batcher.Sound :=
    (sound_run (sound_new none titlesService) _).beginTick
  obtain ⟨t, ht, _⟩ := Option.map_eq_some_iff.mp htick
  obtain ⟨summary, hended⟩ := ended_of_allOpen hsound ht
  exact (hcalled [] List.not_mem_nil).2 (fun _ => true) (.ok summary) hended

end Batcher
end Batchwise
