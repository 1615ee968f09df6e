import Batchwise.Proofs.Batch.Calls

/-!
# Joint histories

The batchers of an execution move independently of each other and in any order.  A joint history
says in which order; each of its moves is tagged with the resolver whose batcher moves.  What
happens to one batcher depends on its own moves alone, and the operations of an execution are
joint histories.

* `Execution.after`, `Execution.run`   one move and many;
* `Execution.along`        what the moves of a joint history give, in order, and
                           `Execution.trace`, their events;
* `Execution.own`          the moves of one batcher: `batcher?_run`, `about_trace`;
* `dispatchAll_moves`, `resume_moves`   a dispatch of all batchers, and going on with it.
-/

set_option linter.unusedSectionVars false

namespace Batchwise

variable {S C : Type} [DecidableEq S] [DecidableEq C]

/-! ### events about one resolver -/

/-- the events about one resolver, in order. -/
def about (n : Nat) (events : List (Event S C)) : List (Event S C) :=
  events.filter fun e => decide (e.resolver? = some n)

theorem about_append (n : Nat) (es fs : List (Event S C)) :
    about n (es ++ fs) = about n es ++ about n fs := List.filter_append ..

theorem about_of_allAbout {m : Nat} {es : List (Event S C)} (h : AllAbout m es) (n : Nat) :
    about n es = if m = n then es else [] := by
  unfold about
  by_cases hmn : m = n
  · rw [if_pos hmn, List.filter_eq_self]
    exact fun e he => decide_eq_true (hmn ▸ h e he)
  · rw [if_neg hmn, List.filter_eq_nil_iff]
    intro e he hn
    rw [decide_eq_true_eq, h e he] at hn
    exact hmn (Option.some.inj hn)

namespace Batcher

theorem id_after (b : Batcher S C) (m : Move S C) : (b.after m).id = b.id :=
  congrArg Binding.id (carried_after b m).binding

theorem id_run (b : Batcher S C) (ms : List (Move S C)) : (b.run ms).id = b.id :=
  congrArg Binding.id (carried_run b ms).binding

theorem allAbout_submit (b : Batcher S C) (source : S) (args : Args) (subfields : List Field)
    (context : C) : AllAbout b.id (b.submit source args subfields context).events := by
  obtain ⟨shared, hevents⟩ := b.events_submit source args subfields context
  rw [hevents]
  exact AllAbout.nil.cons rfl

/-- a move tells of nobody but the batcher's own resolver. -/
theorem allAbout_eventsBy (b : Batcher S C) (m : Move S C) : AllAbout b.id (b.eventsBy m) := by
  cases m with
  | submit source args subfields context => exact allAbout_submit b source args subfields context
  | beginTick => exact allAbout_beginTick b
  | poll isOpen number => exact allAbout_poll b isOpen number
  | _ => exact AllAbout.nil

/-- the moves of a dispatch that is gone on with at once. -/
def dispatchMoves (b : Batcher S C) (isOpen : Gate → Bool) : List (Move S C) :=
  match b.beginTick.dispatch with
  | .running number => [.beginTick, .poll isOpen number]
  | .ended _ => [.beginTick]

theorem dispatch_moves (b : Batcher S C) (isOpen : Gate → Bool) :
    (b.dispatch isOpen).batcher = b.run (b.dispatchMoves isOpen) ∧
      (b.dispatch isOpen).events = b.trace (b.dispatchMoves isOpen) := by
  unfold dispatch dispatchMoves
  dsimp only
  cases b.beginTick.dispatch with
  | ended result => exact ⟨rfl, (List.append_nil _).symm⟩
  | running number => exact ⟨rfl, congrArg (b.beginTick.events ++ ·) (List.append_nil _).symm⟩

end Batcher

namespace Execution

/-! ### moves of single batchers -/

/-- an execution after a move of the batcher of one resolver, if it has one. -/
def after (e : Execution S C) (m : Nat × Move S C) : Execution S C :=
  match e.batcher? m.1 with
  | some b => e.replace (b.after m.2)
  | none => e

/-- an execution after many moves. -/
def run (e : Execution S C) (ms : List (Nat × Move S C)) : Execution S C := ms.foldl after e

/-- the moves of one batcher. -/
def own (n : Nat) (ms : List (Nat × Move S C)) : List (Move S C) :=
  ms.filterMap fun m => if m.1 = n then some m.2 else none

/-- what the moves of a joint history give, in order, each with the batcher that it moves. -/
def along {A : Type} (f : Batcher S C → Move S C → List A) :
    Execution S C → List (Nat × Move S C) → List A
  | _, [] => []
  | e, m :: ms => ((e.batcher? m.1).elim [] fun b => f b m.2) ++ along f (e.after m) ms

/-- the events of a joint history, in order. -/
def trace (e : Execution S C) (ms : List (Nat × Move S C)) : List (Event S C) :=
  e.along Batcher.eventsBy ms

theorem run_cons (e : Execution S C) (m : Nat × Move S C) (ms : List (Nat × Move S C)) :
    e.run (m :: ms) = (e.after m).run ms := rfl

theorem run_append (e : Execution S C) (ms ns : List (Nat × Move S C)) :
    e.run (ms ++ ns) = (e.run ms).run ns := List.foldl_append

theorem along_append {A : Type} (f : Batcher S C → Move S C → List A) (e : Execution S C)
    (ms ns : List (Nat × Move S C)) :
    e.along f (ms ++ ns) = e.along f ms ++ (e.run ms).along f ns := by
  induction ms generalizing e with
  | nil => rfl
  | cons m ms ih =>
    rw [List.cons_append, along, along, ih, List.append_assoc]
    rfl

theorem trace_append (e : Execution S C) (ms ns : List (Nat × Move S C)) :
    e.trace (ms ++ ns) = e.trace ms ++ (e.run ms).trace ns :=
  along_append Batcher.eventsBy e ms ns

theorem own_cons_self (n : Nat) (m : Move S C) (ms : List (Nat × Move S C)) :
    own n ((n, m) :: ms) = m :: own n ms :=
  List.filterMap_cons_some (if_pos rfl)

theorem own_cons_other {n k : Nat} (h : k ≠ n) (m : Move S C) (ms : List (Nat × Move S C)) :
    own n ((k, m) :: ms) = own n ms :=
  List.filterMap_cons_none (if_neg h)

theorem own_append (n : Nat) (ms ns : List (Nat × Move S C)) :
    own n (ms ++ ns) = own n ms ++ own n ns := List.filterMap_append

theorem own_tagged (n k : Nat) (ms : List (Move S C)) :
    own n (ms.map (Prod.mk k)) = if k = n then ms else [] := by
  unfold own
  rw [List.filterMap_map]
  by_cases h : k = n
  · subst h
    simp
  · simp [h]

theorem ids_after (e : Execution S C) (m : Nat × Move S C) :
    (e.after m).batchers.map Batcher.id = e.batchers.map Batcher.id := by
  unfold after
  split
  · exact ids_replace e _
  · rfl

theorem ids_run (e : Execution S C) (ms : List (Nat × Move S C)) :
    (e.run ms).batchers.map Batcher.id = e.batchers.map Batcher.id := by
  induction ms generalizing e with
  | nil => rfl
  | cons m ms ih => exact (ih (e.after m)).trans (ids_after e m)

theorem batcher?_after_self (e : Execution S C) (n : Nat) (m : Move S C) :
    (e.after (n, m)).batcher? n = (e.batcher? n).map fun b => b.after m := by
  unfold after
  cases hb : e.batcher? n with
  | none => exact hb
  | some b => exact batcher?_replace_self hb ((b.id_after m).trans (id_of_batcher? hb))

theorem batcher?_after_other (e : Execution S C) {n k : Nat} (h : k ≠ n) (m : Move S C) :
    (e.after (k, m)).batcher? n = e.batcher? n := by
  unfold after
  cases hb : e.batcher? k with
  | none => rfl
  | some b =>
    refine batcher?_replace_other fun hn => h ?_
    rw [hn, b.id_after, id_of_batcher? hb]

/-! ### soundness -/

theorem sound_ofRegistry (r : Registry S C) : ∀ b ∈ (ofRegistry r).batchers, b.Sound := by
  intro b hb
  obtain ⟨s, _, rfl⟩ := List.mem_map.mp hb
  exact Batcher.sound_new _ s

/-- what every move of a batcher keeps, every move of one of many keeps of all. -/
theorem forall_after {P : Batcher S C → Prop} (hP : ∀ b m, P b → P (b.after m))
    {e : Execution S C} (h : ∀ b ∈ e.batchers, P b) (m : Nat × Move S C) :
    ∀ b ∈ (e.after m).batchers, P b := by
  unfold after
  cases hb : e.batcher? m.1 with
  | none => exact h
  | some c =>
    intro b hmem
    obtain ⟨d, hd, rfl⟩ := List.mem_map.mp hmem
    split
    · exact hP c m.2 (h c (List.mem_of_find?_eq_some hb))
    · exact h d hd

theorem forall_run {P : Batcher S C → Prop} (hP : ∀ b m, P b → P (b.after m))
    {e : Execution S C} (h : ∀ b ∈ e.batchers, P b) (ms : List (Nat × Move S C)) :
    ∀ b ∈ (e.run ms).batchers, P b := by
  induction ms generalizing e with
  | nil => exact h
  | cons m ms ih => exact ih (forall_after hP h m)

theorem sound_run {e : Execution S C} (hs : ∀ b ∈ e.batchers, b.Sound)
    (ms : List (Nat × Move S C)) : ∀ b ∈ (e.run ms).batchers, b.Sound :=
  forall_run (fun _ m h => h.after m) hs ms

/-! ### projections -/

/-- **What becomes of one batcher** depends on its own moves alone. -/
theorem batcher?_run (e : Execution S C) (ms : List (Nat × Move S C)) (n : Nat) :
    (e.run ms).batcher? n = (e.batcher? n).map fun b => b.run (own n ms) := by
  induction ms generalizing e with
  | nil => exact Option.map_id'.symm
  | cons m ms ih =>
    obtain ⟨k, m⟩ := m
    rw [run_cons, ih]
    by_cases hk : k = n
    · subst hk
      rw [batcher?_after_self, own_cons_self, Option.map_map]
      rfl
    · rw [batcher?_after_other e hk, own_cons_other hk]

/-- **What is told of one resolver** are the events of its batcher's own moves. -/
theorem about_trace (e : Execution S C) (ms : List (Nat × Move S C)) (n : Nat) :
    about n (e.trace ms) = (e.batcher? n).elim [] fun b => b.trace (own n ms) := by
  induction ms generalizing e with
  | nil => cases e.batcher? n <;> rfl
  | cons m ms ih =>
    obtain ⟨k, m⟩ := m
    show about n (((e.batcher? k).elim [] fun b => b.eventsBy m) ++ (e.after (k, m)).trace ms) = _
    have hfirst : about n ((e.batcher? k).elim [] fun b => b.eventsBy m) =
        if k = n then (e.batcher? k).elim [] fun b => b.eventsBy m else [] := by
      cases hb : e.batcher? k with
      | none => exact (ite_self _).symm
      | some b => exact id_of_batcher? hb ▸ about_of_allAbout (b.allAbout_eventsBy m) n
    rw [about_append, ih, hfirst]
    by_cases hk : k = n
    · subst hk
      rw [if_pos rfl, batcher?_after_self, own_cons_self]
      cases e.batcher? k <;> rfl
    · rw [if_neg hk, batcher?_after_other e hk, own_cons_other hk]
      rfl

/-- an execution tells of its own batchers alone. -/
theorem resolver_of_trace {e : Execution S C} {ms : List (Nat × Move S C)} {event : Event S C}
    (h : event ∈ e.trace ms) : ∃ n ∈ e.batchers.map Batcher.id, event.resolver? = some n := by
  induction ms generalizing e with
  | nil => cases h
  | cons m ms ih =>
    rcases List.mem_append.mp h with h | h
    · cases hb : e.batcher? m.1 with
      | none =>
        rw [hb] at h
        cases h
      | some b =>
        rw [hb] at h
        exact ⟨b.id, List.mem_map_of_mem (List.mem_of_find?_eq_some hb),
          b.allAbout_eventsBy m.2 event h⟩
    · obtain ⟨n, hn, hevent⟩ := ih h
      exact ⟨n, ids_after e m ▸ hn, hevent⟩

/-- what all events of its moves are, all events of a joint history are. -/
theorem forall_trace {P : Event S C → Prop} {ms : List (Nat × Move S C)}
    (h : ∀ m ∈ ms, ∀ (b : Batcher S C), ∀ event ∈ b.eventsBy m.2, P event) (e : Execution S C) :
    ∀ event ∈ e.trace ms, P event := by
  induction ms generalizing e with
  | nil => exact fun _ hevent => by cases hevent
  | cons m ms ih =>
    intro event hevent
    rcases List.mem_append.mp hevent with hevent | hevent
    · cases hb : e.batcher? m.1 with
      | none =>
        rw [hb] at hevent
        cases hevent
      | some b =>
        rw [hb] at hevent
        exact h m List.mem_cons_self b event hevent
    · exact ih (fun m' hm' => h m' (List.mem_cons_of_mem m hm')) (e.after m) event hevent

/-! ### operations of an execution -/

theorem replace_self {e : Execution S C} (hd : (e.batchers.map Batcher.id).Nodup) {n : Nat}
    {b : Batcher S C} (hb : e.batcher? n = some b) : e.replace b = e := by
  obtain ⟨us, vs, hsplit, hne⟩ := exists_split_number hd hb
  unfold replace
  have hmap := map_replace_split Batcher.id (Eq.refl b.id) fun u hu => by
    rw [id_of_batcher? hb]
    exact hne u hu
  rw [hsplit, hmap, ← hsplit]

theorem replace_replace (e : Execution S C) {b b' : Batcher S C} (hid : b'.id = b.id) :
    (e.replace b).replace b' = e.replace b' := by
  unfold replace
  rw [List.map_map]
  refine congrArg Execution.mk (List.map_congr_left fun c _ => ?_)
  show (if (if c.id == b.id then b else c).id == b'.id then b' else _) = _
  rw [hid]
  by_cases hc : c.id = b.id
  · simp [hc]
  · simp [hc]

/-- moves of one batcher. -/
theorem run_tagged {e : Execution S C} (hd : (e.batchers.map Batcher.id).Nodup) {n : Nat}
    {b : Batcher S C} (hb : e.batcher? n = some b) (ms : List (Move S C)) :
    e.run (ms.map (Prod.mk n)) = e.replace (b.run ms) ∧
      e.trace (ms.map (Prod.mk n)) = b.trace ms := by
  induction ms generalizing e b with
  | nil => exact ⟨(replace_self hd hb).symm, rfl⟩
  | cons m ms ih =>
    have hafter : e.after (n, m) = e.replace (b.after m) := by
      unfold after
      rw [hb]
    have hb' : (e.after (n, m)).batcher? n = some (b.after m) := by
      rw [batcher?_after_self, hb]
      rfl
    obtain ⟨hrun, htrace⟩ := ih ((ids_after e (n, m)).symm ▸ hd) hb'
    constructor
    · rw [List.map_cons, run_cons, hrun, hafter]
      exact replace_replace e (Batcher.id_run _ ms)
    · show ((e.batcher? n).elim [] fun b => b.eventsBy m) ++ (e.after (n, m)).trace _ = _
      rw [htrace, hb]
      rfl

/-- a submission is one move. -/
theorem submit?_move {e e' : Execution S C} {n : Nat} {source : S} {args : Args}
    {subfields : List Field} {context : C} {ticket : Ticket} {events : List (Event S C)}
    (h : e.submit? n source args subfields context = some (e', ticket, events)) :
    e' = e.run [(n, .submit source args subfields context)] ∧
      events = e.trace [(n, .submit source args subfields context)] := by
  obtain ⟨b, hb, heq⟩ := Option.map_eq_some_iff.mp h
  cases heq
  have hafter : e.after (n, .submit source args subfields context)
      = e.replace (b.submit source args subfields context).batcher := by
    unfold after
    rw [hb]
    rfl
  refine ⟨hafter.symm, ?_⟩
  show _ = ((e.batcher? n).elim [] fun b => b.eventsBy _) ++ []
  rw [hb, List.append_nil]
  rfl

/-- the moves of a dispatch of all batchers in a list that have pending calls. -/
def dispatchMoves (isOpen : Gate → Bool) (bs : List (Batcher S C)) : List (Nat × Move S C) :=
  bs.flatMap fun b => if b.hasPending then (b.dispatchMoves isOpen).map (Prod.mk b.id) else []

theorem dispatchList_moves (isOpen : Gate → Bool) (bs done : List (Batcher S C))
    (hd : ((done ++ bs).map Batcher.id).Nodup) :
    (⟨done ++ bs⟩ : Execution S C).run (dispatchMoves isOpen bs)
        = ⟨done ++ (dispatchList isOpen bs).1⟩ ∧
      (⟨done ++ bs⟩ : Execution S C).trace (dispatchMoves isOpen bs)
        = (dispatchList isOpen bs).2.2 := by
  induction bs generalizing done with
  | nil => exact ⟨rfl, rfl⟩
  | cons b bs ih =>
    rw [dispatchMoves, List.flatMap_cons, dispatchList]
    dsimp only
    by_cases hpending : b.hasPending = true
    · rw [if_pos hpending, if_pos hpending, run_append, trace_append]
      obtain ⟨hbatcher, hevents⟩ := b.dispatch_moves isOpen
      have hid : (b.dispatch isOpen).batcher.id = b.id := by
        rw [hbatcher]
        exact b.id_run _
      have hne : ∀ u ∈ done ++ bs, u.id ≠ b.id := by
        rw [List.map_append, List.map_cons, List.nodup_middle, List.nodup_cons,
          ← List.map_append] at hd
        exact fun u hu heq => hd.1 (heq ▸ List.mem_map_of_mem hu)
      have hb : (⟨done ++ b :: bs⟩ : Execution S C).batcher? b.id = some b :=
        find?_number_of_mem hd (List.mem_append_right done List.mem_cons_self)
      obtain ⟨hrun, htrace⟩ := run_tagged hd hb (b.dispatchMoves isOpen)
      have hreplace : (⟨done ++ b :: bs⟩ : Execution S C).replace (b.run (b.dispatchMoves isOpen))
          = ⟨done ++ [(b.dispatch isOpen).batcher] ++ bs⟩ := by
        unfold replace
        rw [← hbatcher, List.append_assoc]
        exact congrArg Execution.mk (map_replace_split Batcher.id hid.symm (hid ▸ hne))
      have hd' : ((done ++ [(b.dispatch isOpen).batcher] ++ bs).map Batcher.id).Nodup := by
        rw [List.append_assoc, List.map_append, List.singleton_append, List.map_cons, hid,
          ← List.map_cons, ← List.map_append]
        exact hd
      obtain ⟨hrest, hrest'⟩ := ih _ hd'
      rw [hrun, htrace, hreplace, ← hevents]
      refine ⟨hrest.trans ?_, congrArg ((b.dispatch isOpen).events ++ ·) hrest'⟩
      rw [List.append_assoc]
      rfl
    · rw [if_neg hpending, if_neg hpending, List.nil_append]
      have hshift : done ++ b :: bs = (done ++ [b]) ++ bs := by simp
      rw [hshift] at hd ⊢
      obtain ⟨hrest, hrest'⟩ := ih _ hd
      refine ⟨hrest.trans ?_, hrest'⟩
      rw [List.append_assoc]
      rfl

/-- **A dispatch of all batchers** is a joint history. -/
theorem dispatchAll_moves {e : Execution S C} (hd : (e.batchers.map Batcher.id).Nodup)
    (isOpen : Gate → Bool) :
    (e.dispatchAll isOpen).execution = e.run (dispatchMoves isOpen e.batchers) ∧
      (e.dispatchAll isOpen).events = e.trace (dispatchMoves isOpen e.batchers) := by
  obtain ⟨hrun, htrace⟩ := dispatchList_moves isOpen e.batchers [] hd
  exact ⟨hrun.symm, htrace.symm⟩

/-- the moves of one batcher in a dispatch of all of them. -/
theorem own_dispatchMoves (isOpen : Gate → Bool) {bs : List (Batcher S C)}
    (hd : (bs.map Batcher.id).Nodup) {n : Nat} {b : Batcher S C}
    (hb : bs.find? (fun b => b.id == n) = some b) :
    own n (dispatchMoves isOpen bs)
      = if b.hasPending then b.dispatchMoves isOpen else [] := by
  have hother : ∀ cs : List (Batcher S C), (∀ c ∈ cs, c.id ≠ n) →
      own n (dispatchMoves isOpen cs) = [] := by
    intro cs hcs
    unfold own dispatchMoves
    rw [List.filterMap_eq_nil_iff]
    intro m hm
    obtain ⟨c, hc, hm⟩ := List.mem_flatMap.mp hm
    split at hm
    · obtain ⟨_, _, rfl⟩ := List.mem_map.mp hm
      exact if_neg (hcs c hc)
    · cases hm
  obtain ⟨us, vs, hsplit, hne⟩ := exists_split_number hd hb
  have hown : own n (dispatchMoves isOpen [b])
      = if b.hasPending then b.dispatchMoves isOpen else [] := by
    have hid : b.id = n := number_of_find? hb
    unfold dispatchMoves
    rw [List.flatMap_singleton, hid]
    split
    · exact (own_tagged n n _).trans (if_pos rfl)
    · rfl
  have hall : dispatchMoves isOpen bs
      = dispatchMoves isOpen us ++ (dispatchMoves isOpen [b] ++ dispatchMoves isOpen vs) := by
    unfold dispatchMoves
    rw [hsplit, List.flatMap_append, List.flatMap_cons, List.flatMap_singleton]
  rw [hall, own_append, own_append, hother us fun c hc => hne c (List.mem_append_left vs hc),
    hother vs fun c hc => hne c (List.mem_append_right us hc), hown, List.nil_append,
    List.append_nil]

/-! ### going on with a dispatch -/

/-- a move that looks at the tick of the part of its resolver. -/
def Resumes (isOpen : Gate → Bool) (run : Run) (m : Nat × Move S C) : Prop :=
  ∃ number, m.2 = .poll isOpen number ∧ run.part? m.1 = some ⟨m.1, .running number⟩

theorem part?_resolver {run : Run} {n : Nat} {p : RunPart} (h : run.part? n = some p) :
    p = ⟨n, p.dispatch⟩ := by
  have hn : p.resolver = n := number_of_find? h
  exact hn ▸ rfl

/-- a part that runs after it was gone on with looks at the tick that it looked at before. -/
theorem part?_of_resumePart {isOpen : Gate → Bool} {st : Step S C} {n k : Nat} {number : Nat}
    (h : (resumePart isOpen st n).run.part? k = some ⟨k, .running number⟩) :
    st.run.part? k = some ⟨k, .running number⟩ := by
  unfold resumePart at h
  split at h
  · rename_i resolver old b hpart hb
    dsimp only at h
    rw [Run.part?_update] at h
    split at h
    · rename_i hk
      subst hk
      rw [hpart, Option.map_some, Option.some.injEq, RunPart.mk.injEq] at h
      have hpart' := part?_resolver hpart
      rcases Batcher.poll_cases b isOpen old with ⟨_, _, hrun, _⟩ |
        ⟨_, _, _, ⟨_, ⟨_, hend⟩, _⟩ | ⟨_, hrun, _⟩⟩
      · rw [hpart, hpart', ← h.2, hrun]
      · rw [hend] at h
        cases h.2
      · rw [hpart, hpart', ← h.2, hrun]
    · exact h
  · exact h

/-- going on with one part is at most one look. -/
theorem resumePart_moves (isOpen : Gate → Bool) (st : Step S C) (n : Nat) :
    ∃ ms : List (Nat × Move S C), (∀ m ∈ ms, Resumes isOpen st.run m) ∧
      (resumePart isOpen st n).execution = st.execution.run ms ∧
      (resumePart isOpen st n).events = st.events ++ st.execution.trace ms := by
  unfold resumePart
  split
  · rename_i _ number b hpart hb
    refine ⟨[(n, .poll isOpen number)], fun m hm => ?_, ?_, ?_⟩
    · rw [List.mem_singleton.mp hm]
      exact ⟨number, rfl, hpart.trans (congrArg some (part?_resolver hpart))⟩
    · show _ = st.execution.after (n, .poll isOpen number)
      unfold after
      rw [hb]
      rfl
    · show _ = _ ++ (((st.execution.batcher? n).elim [] fun b => b.eventsBy _) ++ [])
      rw [hb, List.append_nil]
      rfl
  · exact ⟨[], fun _ hm => (by cases hm), rfl, (List.append_nil _).symm⟩

theorem fold_moves (isOpen : Gate → Bool) (order : List Nat) (st : Step S C) :
    ∃ ms : List (Nat × Move S C), (∀ m ∈ ms, Resumes isOpen st.run m) ∧
      (order.foldl (resumePart isOpen) st).execution = st.execution.run ms ∧
      (order.foldl (resumePart isOpen) st).events = st.events ++ st.execution.trace ms := by
  induction order generalizing st with
  | nil => exact ⟨[], fun _ hm => (by cases hm), rfl, (List.append_nil _).symm⟩
  | cons n order ih =>
    obtain ⟨ms, hms, hrun, htrace⟩ := resumePart_moves isOpen st n
    obtain ⟨ns, hns, hrun', htrace'⟩ := ih (resumePart isOpen st n)
    refine ⟨ms ++ ns, fun m hm => ?_, ?_, ?_⟩
    · rcases List.mem_append.mp hm with hm | hm
      · exact hms m hm
      · obtain ⟨number, hmove, hpart⟩ := hns m hm
        exact ⟨number, hmove, part?_of_resumePart hpart⟩
    · rw [run_append, ← hrun]
      exact hrun'
    · rw [trace_append, ← List.append_assoc, ← htrace, ← hrun]
      exact htrace'

/-- **Going on with a dispatch of all batchers** is a joint history of looks at its ticks. -/
theorem resume_moves (isOpen : Gate → Bool) (e : Execution S C) (run : Run) :
    ∃ ms : List (Nat × Move S C), (∀ m ∈ ms, Resumes isOpen run m) ∧
      (Execution.resume isOpen e run).execution = e.run ms ∧
      (Execution.resume isOpen e run).events = e.trace ms :=
  fold_moves isOpen _ ⟨e, { run.wake isOpen with woken := [] }, []⟩

end Execution
end Batchwise
