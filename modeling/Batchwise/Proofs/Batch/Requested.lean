import Batchwise.Proofs.Batch.Settlement

/-!
# The answers that were asked for

A function may answer for sources that it was not given and leave others out.  How many there are
of both is told from the sizes of what it returned and of what is kept of it; here both numbers are
counted source by source.

* `Group.unrequested`, `Group.missing`   the two numbers;
* `Group.unrequested_restrict`, `Group.missing_restrict`   are those that are reported;
* `Group.distribute_rest`     what nobody took is left over;
* `Batcher.answers_match_sources`   so nothing is left over, and just the missing sources have no
                              answer.
-/

set_option linter.unusedSectionVars false

namespace Batchwise

variable {S C : Type} [DecidableEq S] [DecidableEq C]

/-- the result of a call that came back without an answer for its source. -/
def isUnanswered : CallResult S → Bool
  | .ok none => true
  | _ => false

namespace Group

variable {sources : List S} {answers : Table S (Answer S)}

/-- the number of answers for other sources than these. -/
def unrequested (sources : List S) (answers : Table S (Answer S)) : Nat :=
  answers.keys.countP fun s => decide (s ∉ sources)

/-- the number of sources without an answer. -/
def missing (sources : List S) (answers : Table S (Answer S)) : Nat :=
  sources.countP fun s => decide (s ∉ answers.keys)

/-! ### what is kept of some answers -/

theorem mem_restrict {s : S} {a : Answer S} : (s, a) ∈ (restrict sources answers).answers.entries ↔
    (s, a) ∈ answers.entries ∧ s ∈ sources := by
  show (s, a) ∈ answers.entries.filter _ ↔ _
  rw [List.mem_filter, decide_eq_true_iff]

theorem keys_restrict : (restrict sources answers).answers.keys =
    answers.keys.filter fun s => decide (s ∈ sources) := by
  show (answers.entries.filter _).map Prod.fst = (answers.entries.map Prod.fst).filter _
  rw [List.filter_map]
  rfl

theorem size_eq_keys (t : Table S (Answer S)) : t.size = t.keys.length :=
  (List.length_map _).symm

/-- as keys and sources are distinct, both sides see the same number of matches. -/
theorem size_restrict (h : sources.Nodup) : (restrict sources answers).answers.size =
    sources.countP fun s => decide (s ∈ answers.keys) := by
  have hperm : (answers.keys.filter fun s => decide (s ∈ sources)).Perm
      (sources.filter fun s => decide (s ∈ answers.keys)) := by
    apply (List.perm_ext_iff_of_nodup (answers.keys_nodup.filter _) (h.filter _)).mpr
    intro s
    rw [List.mem_filter, List.mem_filter, decide_eq_true_iff, decide_eq_true_iff, and_comm]
  rw [size_eq_keys, keys_restrict, hperm.length_eq, List.countP_eq_length_filter]

theorem countP_mem_add (as bs : List S) :
    (as.countP fun s => decide (s ∈ bs)) + (as.countP fun s => decide (s ∉ bs)) = as.length := by
  rw [List.length_eq_countP_add_countP fun s => decide (s ∈ bs)]
  simp only [decide_eq_true_eq]

theorem size_add_unrequested :
    (restrict sources answers).answers.size + unrequested sources answers = answers.size := by
  rw [size_eq_keys, size_eq_keys, keys_restrict, ← List.countP_eq_length_filter]
  exact countP_mem_add answers.keys sources

theorem size_add_missing (h : sources.Nodup) :
    (restrict sources answers).answers.size + missing sources answers = sources.length := by
  rw [size_restrict h]
  exact countP_mem_add sources answers.keys

theorem unrequested_restrict :
    (restrict sources answers).unrequested = unrequested sources answers :=
  Nat.sub_eq_of_eq_add' size_add_unrequested.symm

theorem missing_restrict (h : sources.Nodup) :
    (restrict sources answers).missing = missing sources answers :=
  Nat.sub_eq_of_eq_add' (size_add_missing h).symm

/-! ### handing out -/

theorem countEvent_eq (event : Nat → Event S C) (n : Nat) :
    countEvent event n = if 0 < n then [event n] else [] := by
  cases n <;> rfl

/-- what is left over are the answers for sources of no member. -/
theorem distribute_rest (ms : List (Key S C × Ticket)) (answers : Table S (Answer S)) :
    (distribute ms answers).2.entries =
      answers.entries.filter fun e => decide (e.1 ∉ ms.map fun m => m.1.source) := by
  induction ms generalizing answers with
  | nil => simp [distribute]
  | cons m ms ih =>
    show (distribute ms (answers.erase m.1.source)).2.entries = _
    rw [ih]
    show (answers.entries.filter _).filter _ = _
    rw [List.filter_filter]
    refine List.filter_congr fun e _ => ?_
    rw [List.map_cons]
    by_cases h : e.1 = m.1.source <;> simp [h]

variable {g : Group S C}

theorem distribute_rest_of_aligned (h : g.Aligned) (answers : Table S (Answer S)) :
    (distribute g.members (restrict g.sources answers).answers).2.entries = [] := by
  rw [distribute_rest, ← h.sources_eq, List.filter_eq_nil_iff]
  intro e he
  simp [(mem_restrict.mp he).2]

theorem isUnanswered_handed (s : Service S C) (answers : Table S (Answer S)) (source : S) :
    isUnanswered (s.handed (.ok answers) source) = decide (source ∉ answers.keys) := by
  show isUnanswered (.ok (answers.find? source)) = _
  cases hfind : answers.find? source with
  | none => simp [isUnanswered, Table.find?_eq_none_iff.mp hfind]
  | some a =>
    have hmem : source ∈ answers.keys :=
      List.mem_map_of_mem (f := Prod.fst) (Table.mem_entries_iff.mpr hfind)
    simp [isUnanswered, hmem]

/-- just as many members get no answer as sources have none. -/
theorem countP_handed (h : g.Aligned) (s : Service S C) (answers : Table S (Answer S)) :
    (g.members.countP fun m => isUnanswered (s.handed (.ok answers) m.1.source)) =
      missing g.sources answers := by
  unfold missing
  rw [h.sources_eq, List.countP_map]
  exact List.countP_congr fun m _ => by rw [isUnanswered_handed, Function.comp_apply]

theorem countP_settled (h : g.Aligned) (s : Service S C) (answers : Table S (Answer S)) :
    ((g.finish s (.ok answers)).settled.countP fun e => isUnanswered e.2) =
      missing g.sources answers := by
  rw [settled_finish s h, List.countP_map, ← countP_handed h s]
  rfl

theorem events_finish (h : g.sources.Nodup) (s : Service S C) (answers : Table S (Answer S)) :
    (g.finish s (.ok answers)).events =
      (if 0 < unrequested g.sources answers then
          [.unrequested s.id (unrequested g.sources answers)] else []) ++
        if 0 < missing g.sources answers then
          [.missing s.id (missing g.sources answers)] else [] := by
  show countEvent _ _ ++ countEvent _ _ = _
  rw [unrequested_restrict, missing_restrict h, countEvent_eq, countEvent_eq]

end Group

namespace Batcher

/-- just the members whose sources have no answer have no answer, once their group has any. -/
theorem countP_answered {b : Batcher S C} {g : Group S C} (h : g.Aligned) {s : Service S C}
    {answers : Table S (Answer S)}
    (hhanded : ∀ m ∈ g.members, b.result? m.2 = some (s.handed (.ok answers) m.1.source)) :
    (g.tickets.countP fun t => (b.result? t).any isUnanswered) =
      Group.missing g.sources answers := by
  unfold Group.tickets
  rw [List.countP_map, ← Group.countP_handed h s]
  refine List.countP_congr fun m hm => ?_
  rw [Function.comp_apply, hhanded m hm]
  rfl

/-- **Just the answers that were asked for are handed out, and both numbers are right.**

Of any answers for any sources those are kept whose source was asked for, as they are; what is
subtracted for the two numbers is never too much, and they are the number of answers for other
sources and the number of sources without an answer.

For the groups of any tick, after any history: each number is reported if it is positive, all kept
answers are taken, and just as many members get no answer as sources have none.  Whatever comes
later, unless the tick is given up, a group has no results at all or is answered by its own call,
and then just so many of its tickets have no answer. -/
theorem answers_match_sources (maxConcurrentGroups : Option Nat) (service : Service S C)
    (ms : List (Move S C)) :
    let b := (Batcher.new maxConcurrentGroups service).run ms
    (∀ (sources : List S) (answers : Table S (Answer S)), sources.Nodup →
      let r := Group.restrict sources answers
      (∀ s a, (s, a) ∈ r.answers.entries ↔ (s, a) ∈ answers.entries ∧ s ∈ sources) ∧
      r.answers.size ≤ answers.size ∧ r.answers.size ≤ sources.length ∧
      r.unrequested = Group.unrequested sources answers ∧
      r.missing = Group.missing sources answers) ∧
    (∀ e ∈ b.pending.entries, SameContext b.pending.entries →
      ∀ g ∈ (groupPending b.pending.entries).values,
      let sources := (g.call b.service e.1.context).input
      sources.Nodup ∧
      (∀ answers,
        let unrequested := Group.unrequested sources answers
        let missing := Group.missing sources answers
        (g.finish b.service (.ok answers)).events =
          (if 0 < unrequested then [.unrequested b.id unrequested] else []) ++
            (if 0 < missing then [.missing b.id missing] else []) ∧
        (Group.distribute g.members (Group.restrict sources answers).answers).2.entries = [] ∧
        (g.finish b.service (.ok answers)).settled.countP (fun r => isUnanswered r.2) = missing) ∧
      ∀ ns, .drop b.ticks ∉ ns →
        let later := b.beginTick.batcher.run ns
        (g ∈ later.openGroups b.ticks ∧ ∀ t ∈ g.tickets, later.result? t = none) ∨
        ∃ outcome, CallMade b.beginTick.batcher ns b.ticks e.1.context (g, outcome) ∧
          ∀ answers, outcome = .ok answers →
            (g.tickets.countP fun t => (later.result? t).any isUnanswered) =
              Group.missing sources answers) := by
  intro b
  have hb : b.Sound := sound_run (sound_new maxConcurrentGroups service) ms
  constructor
  · intro sources answers hsources
    have hsize : (Group.restrict sources answers).answers.size +
        Group.unrequested sources answers = answers.size := Group.size_add_unrequested
    have hlength : (Group.restrict sources answers).answers.size +
        Group.missing sources answers = sources.length := Group.size_add_missing hsources
    exact ⟨fun s a => Group.mem_restrict, by omega, by omega, Group.unrequested_restrict,
      Group.missing_restrict hsources⟩
  · intro e he hsame g hg
    have haligned : g.Aligned := aligned_of_mem_groups b.pending.distinct hsame hg
    refine ⟨haligned.nodup, fun answers => ⟨Group.events_finish haligned.nodup b.service answers,
      Group.distribute_rest_of_aligned haligned answers,
      Group.countP_settled haligned b.service answers⟩, fun ns hns => ?_⟩
    obtain ⟨_, htick⟩ := tick?_beginTick hb he hsame
    obtain ⟨ended, h⟩ := followed_run hb.beginTick htick rfl ns hns
    rcases h.group_cases hb.beginTick hg with ⟨hopen, hnone⟩ | ⟨outcome, hmade, hhanded⟩
    · refine Or.inl ⟨hopen, fun t ht => ?_⟩
      obtain ⟨m, hm, rfl⟩ := List.mem_map.mp ht
      exact hnone m hm
    · refine Or.inr ⟨outcome, hmade, ?_⟩
      rintro answers rfl
      exact countP_answered haligned hhanded

/-- answers for 4 and for 5 -/
def strayAnswers : Table Nat (Answer Nat) :=
  Table.ofList [(4, .scalar (.text "four")), (5, .scalar (.text "five"))]

/-- a function that gives these answers whatever it is asked for -/
def strays : Service Nat Unit :=
  let shape : Shape := ⟨false, false⟩
  let run (_ : Call (List Nat) Unit) : Deferred (BatchOutcome Nat) := .ready (.ok strayAnswers)
  ⟨⟨0, "Int", "word", [.sources], ⟨false, none⟩, .batched shape run⟩, shape, run⟩

/-- asked for 4 and 3 it answers one source too many and one too few. -/
theorem answers_match_sources_of_strays :
    let b := (Batcher.new none strays).run [.submit 4 .empty [] (), .submit 3 .empty [] ()]
    let later := b.beginTick.batcher.run [.poll (fun _ => true) b.ticks]
    ∃ g ∈ (groupPending b.pending.entries).values,
      (g.finish b.service (.ok strayAnswers)).events = [.unrequested 0 1, .missing 0 1] ∧
      (g.tickets.countP fun t => (later.result? t).any isUnanswered) = 1 := by
  intro b later
  obtain ⟨_, hgroups⟩ := answers_match_sources none strays
    [.submit 4 .empty [] (), .submit 3 .empty [] ()]
  let first : Key Nat Unit := ⟨4, none, none, ()⟩
  let second : Key Nat Unit := ⟨3, none, none, ()⟩
  let g : Group Nat Unit := ⟨.empty, none, [4, 3], [(first, 0), (second, 1)]⟩
  have hg : g ∈ (groupPending b.pending.entries).values := List.mem_singleton.mpr rfl
  have hmem : (first, ⟨.empty, none, 0⟩) ∈ b.pending.entries := List.mem_cons_self
  have hkept : Move.drop b.ticks ∉ [(.poll (fun _ => true) b.ticks : Move Nat Unit)] := fun h => by
    cases List.mem_singleton.mp h
  obtain ⟨_, hnumbers, hruns⟩ := hgroups _ hmem (fun _ _ _ _ => rfl) g hg
  refine ⟨g, hg, (hnumbers strayAnswers).1, ?_⟩
  rcases hruns _ hkept with ⟨hopen, _⟩ | ⟨outcome, hmade, hcount⟩
  · cases hopen
  · obtain ⟨before, isOpen, rest, hms, _, hanswered⟩ := hmade
    have hservice : (b.beginTick.batcher.run before).service = strays := by
      refine service_run _ fun m hm run h => ?_
      have hpoll := List.mem_singleton.mp (hms.symm ▸ List.mem_append_left _ hm)
      rw [h] at hpoll
      cases hpoll
    rw [hservice] at hanswered
    exact hcount strayAnswers (congrArg Prod.snd hanswered)

end Batcher
end Batchwise
