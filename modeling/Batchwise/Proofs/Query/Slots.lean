import Batchwise.Proofs.Query.Accounts
import Batchwise.Proofs.Query.Depth
import Batchwise.Proofs.Query.Edits

/-!
# No slot of a response is forgotten

While a query is resolved, slots are reserved, filled and handed on with the fields that wait for
them, by two functions that call each other, over any number of levels.  Between two levels the
slots that are pending are those of the fields that wait, one for each, and when no field waits any
more there is a reason for all that is null.

* `Query.Visited`           the states between two levels, with the levels and the edits before;
* `Visited.tidy`, `Visited.fitAll`, `Visited.routed`   what holds in each of them;
* `Visited.resolveLevels`   the state in which no field waits is one of them;
* `Query.no_slot_forgotten` what holds in each of them, and in the end.
-/

set_option linter.unusedSectionVars false

namespace Batchwise

namespace Query

variable {S C : Type} [DecidableEq S] [DecidableEq C]

/-- the fields of a level, each with what it came to. -/
def ResolvedLevel.results (l : ResolvedLevel S C) : List (FieldTask S × FieldOutcome S) :=
  l.tasks.zip l.outcomes

theorem ResolvedLevel.mem_failures {l : ResolvedLevel S C} {t : FieldTask S}
    {failure : FieldFailure} (h : (t, .error failure) ∈ l.results) :
    ⟨failure, t.path⟩ ∈ l.failures :=
  List.mem_filterMap.mpr ⟨_, h, rfl⟩

section

variable (world : World S) (registry : Registry S C) (context : C) (schedule : Schedule)

/-- the level that is resolved next. -/
def levelAt (number : Nat) (s : State S C) : ResolvedLevel S C :=
  let done := Level.run world registry context (schedule number) s.execution s.placement.tasks
  ⟨number, s.placement.tasks, done.outcomes, done.events⟩

/-- the edits that the next level makes. -/
def editsAt (number : Nat) (s : State S C) : List Draft.Edit :=
  Placement.levelEdits s.placement.tasks
    (levelAt world registry context schedule number s).outcomes s.placement.draft

/-- the states of a query between two levels, with the levels that were resolved before and with all
edits of the draft. -/
inductive Visited (root : S) (fields : List Field) : List (ResolvedLevel S C) → List Draft.Edit →
    State S C → Prop
  | first : Visited root fields [] (Placement.scheduleEdits Draft.root fields)
      (begin registry root fields)
  | next {ls : List (ResolvedLevel S C)} {edits : List Draft.Edit} {s : State S C}
      (h : Visited root fields ls edits s) (hwaiting : s.placement.tasks ≠ []) :
      Visited root fields (ls ++ [levelAt world registry context schedule (ls.length + 1) s])
        (edits ++ editsAt world registry context schedule (ls.length + 1) s)
        (resolveLevel world registry context (schedule (ls.length + 1)) (ls.length + 1) s)

end

/-! ### the first state -/

/-- every slot of the first level is found below the root. -/
theorem tidy_begin (registry : Registry S C) (root : S) (fields : List Field) :
    (begin registry root fields : State S C).placement.Tidy
      (begin registry root fields : State S C).placement.tasks [] := by
  let p : Placement S := ⟨Draft.empty, [], []⟩
  have hroot : p.draft.slots[Draft.root]? = some (.object []) := rfl
  have hclosed : p.draft.Closed := Draft.closed_empty
  obtain ⟨hplaced, _, _⟩ := Placement.schedule_spec Draft.root root [] fields p hclosed hroot
  have htasks : (begin registry root fields : State S C).placement.tasks
      = Placement.fieldTasks root [] p.draft.slots.size fields := hplaced.tasks_eq
  rw [htasks]
  refine ⟨hplaced.grows.closed, hplaced.waiting.mono (Nat.zero_le _), fun i hi => ?_⟩
  have hbelow : i = Draft.root ∨ p.draft.slots.size ≤ i := by
    cases i with
    | zero => exact Or.inl rfl
    | succ i => exact Or.inr (Nat.succ_le_succ (Nat.zero_le i))
  obtain ⟨route, rest, s, hspells, hs, hstands⟩ :=
    Placement.accounted_schedule [] root hclosed hroot hbelow hi
  refine ⟨route, rest, s, hspells, hs, ?_⟩
  cases hstands with
  | waiting ht hslot hpath => exact .waiting ht hslot hpath
  | part hat hfills =>
    obtain ⟨rfl, rfl⟩ := Answer.at?_leaf (fun _ h => by cases h) hat
    cases hspells
    cases hfills
    exact .root _ rfl

/-! ### every state -/

section

variable {world : World S} {registry : Registry S C} {context : C} {schedule : Schedule} {root : S}
  {fields : List Field} {ls : List (ResolvedLevel S C)} {edits : List Draft.Edit}
  {s : State S C}

namespace Visited

theorem idle (hr : registry.Sound)
    (h : Visited world registry context schedule root fields ls edits s) :
    s.execution.Each registry fun service b => b.Idle service := by
  induction h with
  | first => exact (between_begin hr root fields).idle
  | next _ _ ih => exact (Level.outcomes_run world context hr ih _ _).1

/-- the draft was made by the edits. -/
theorem draft_eq (h : Visited world registry context schedule root fields ls edits s) :
    s.placement.draft = Draft.empty.editAll edits := by
  induction h with
  | first => exact Placement.draft_schedule Draft.root root [] fields ⟨Draft.empty, [], []⟩
  | @next ls edits s _ _ ih =>
    rw [Draft.editAll_append, ← ih]
    exact Placement.draft_placeAll _ _ { s.placement with tasks := [] }

/-- every slot has its reason, in what was resolved so far. -/
theorem tidy (hr : registry.Sound)
    (h : Visited world registry context schedule root fields ls edits s) :
    s.placement.Tidy s.placement.tasks (ls.flatMap ResolvedLevel.results) := by
  induction h with
  | first => exact tidy_begin registry root fields
  | @next ls edits s h _ ih =>
    have houtcomes := (Level.outcomes_run world context hr (h.idle hr)
      (schedule (ls.length + 1)) s.placement.tasks).2
    rw [List.flatMap_append, List.flatMap_singleton]
    refine Placement.Tidy.placeAll s.placement.tasks _ ?_ (p := { s.placement with tasks := [] }) ?_
    · rw [houtcomes, List.length_map]
    · rw [List.append_nil]
      exact ⟨ih.closed, ih.waiting, ih.told⟩

/-- every edit found its slot, and every entry its object. -/
theorem fitAll (hr : registry.Sound)
    (h : Visited world registry context schedule root fields ls edits s) :
    Draft.empty.FitAll edits := by
  induction h with
  | first => exact Placement.fitAll_scheduleEdits fields Draft.sound_empty rfl
  | @next ls edits s h _ ih =>
    have hsound := ih.sound Draft.sound_empty
    rw [← h.draft_eq] at hsound
    refine Draft.fitAll_append.mpr ⟨ih, ?_⟩
    rw [← h.draft_eq]
    exact Placement.fitAll_levelEdits _ _ hsound fun t ht => (h.tidy hr).waiting.lt_size ht

theorem sound (hr : registry.Sound)
    (h : Visited world registry context schedule root fields ls edits s) :
    s.placement.draft.Sound :=
  h.draft_eq ▸ (h.fitAll hr).sound Draft.sound_empty

theorem root_lt (hr : registry.Sound)
    (h : Visited world registry context schedule root fields ls edits s) :
    Draft.root < s.placement.draft.slots.size := by
  have hle := (h.fitAll hr).size_le Draft.sound_empty
  rw [h.draft_eq]
  exact hle

/-- the paths of fields that wait lead to their slots. -/
theorem routed (hd : Field.Distinct fields)
    (h : Visited world registry context schedule root fields ls edits s) :
    s.placement.Routed s.placement.tasks := by
  induction h with
  | first => exact routed_begin registry hd root
  | @next ls edits s _ _ ih =>
    refine Placement.Routed.placeAll _ _ (p := { s.placement with tasks := [] }) ?_
    rw [List.append_nil]
    exact ⟨ih.closed, ih.waiting, ih.leads, ih.distinct, ih.errors⟩

theorem errors_eq (h : Visited world registry context schedule root fields ls edits s) :
    s.placement.errors = ls.flatMap ResolvedLevel.failures := by
  induction h with
  | first => exact Placement.errors_schedule Draft.root root [] fields ⟨Draft.empty, [], []⟩
  | @next ls edits s _ _ ih =>
    rw [List.flatMap_append, List.flatMap_singleton, ← ih]
    exact Placement.errors_placeAll _ _ { s.placement with tasks := [] }

/-- **The state that the last level leaves** is one of those between two levels, and no field waits
in it. -/
theorem resolveLevels (hr : registry.Sound) (left : Nat)
    (h : Visited world registry context schedule root fields ls edits s)
    (hbetween : Between registry left s) :
    let last := Query.resolveLevels world registry context schedule left (ls.length + 1) s
    last.placement.tasks = [] ∧ ∃ edits', Visited world registry context schedule root fields
      (ls ++ levelsFrom world registry context schedule left (ls.length + 1) s)
      edits' last := by
  induction left generalizing ls edits s with
  | zero =>
    refine ⟨hbetween.tasks_eq_nil, edits, ?_⟩
    rw [levelsFrom, List.append_nil]
    exact h
  | succ left ih =>
    rw [Query.resolveLevels, levelsFrom]
    by_cases hempty : s.placement.tasks.isEmpty
    · rw [if_pos hempty, if_pos hempty, List.append_nil]
      exact ⟨List.isEmpty_iff.mp hempty, edits, h⟩
    · rw [if_neg hempty, if_neg hempty]
      have hnext := ih (h.next (mt List.isEmpty_iff.mpr hempty))
        (hbetween.resolveLevel world context hr (schedule (ls.length + 1)) (ls.length + 1))
      rw [List.length_append, List.append_assoc] at hnext
      exact hnext

end Visited

end

/-- **No slot is forgotten.**  Whatever is asked for, and whatever resolvers answer and when, in
every state between two levels:
* the draft was made by edits of slots that were there, and what was to take an entry was an object;
* each field that waits has a slot of its own, and the slots that are pending are just these;
* each slot is reached from the root, and by one route;
* the route to the slot of a field that waits spells the path of the field;
* and where siblings have distinct names the path leads to no other slot.
A query that is not refused comes to such a state in which no field waits, and nothing is pending;
the response is the document that is there then, and null anywhere in it stands below a field that
failed, and then is among the errors, or that was given no value, or where there is null in what it
was given. -/
theorem no_slot_forgotten {settings : Settings} {ds : List (Declaration S C)}
    {registry : Registry S C} (hr : Registry.build settings ds = .ok registry) (world : World S)
    (schedule : Schedule) (root : S) (fields : List Field) (context : C) :
    (∀ ls edits s, Visited world registry context schedule root fields ls edits s →
      let d := s.placement.draft
      let tasks := s.placement.tasks
      d = Draft.empty.editAll edits ∧
      (∀ us e vs, edits = us ++ e :: vs → (Draft.empty.editAll us).Fits e) ∧
      (tasks.map FieldTask.slot).Nodup ∧
      (∀ i, d.slots[i]? = some .pending ↔ i ∈ tasks.map FieldTask.slot) ∧
      (∀ i < d.slots.size, ∃! route, d.Reaches Draft.root route i) ∧
      (∀ t ∈ tasks, ∀ route, d.Reaches Draft.root route t.slot →
        d.Spells Draft.root route t.path t.slot) ∧
      (Field.Distinct fields → ∀ t ∈ tasks, ∀ i, d.Leads Draft.root t.path i ↔ i = t.slot)) ∧
    ∀ resolved, execute world registry schedule root fields context = .ok resolved →
      let ls := levels world registry context schedule root fields
      let data := resolved.response.data
      let errors := resolved.response.errors
      ∃ edits last, Visited world registry context schedule root fields ls edits last ∧
        last.placement.tasks = [] ∧
        (∀ i : Nat, last.placement.draft.slots[i]? ≠ some .pending) ∧
        data = last.placement.draft.document Draft.root ∧
        ∀ path, data.Part path .null → ∃ l ∈ ls, ∃ t outcome rest, (t, outcome) ∈ l.results ∧
          path = t.path ++ rest ∧ Placement.NullIn outcome rest ∧
          ∀ failure, outcome = .error failure → ⟨failure, t.path⟩ ∈ errors := by
  have hsound := Registry.sound_build hr
  refine ⟨fun ls edits s h => ?_, fun resolved hresolved => ?_⟩
  · intro d tasks
    have htidy := h.tidy hsound
    have hroutes : ∀ i < d.slots.size, ∃! route, d.Reaches Draft.root route i := fun i hi => by
      obtain ⟨route, _, _, hspells, _⟩ := htidy.told i hi
      exact ⟨route, hspells.reaches, fun route' h' => h'.route_eq hspells.reaches (h.sound hsound)⟩
    refine ⟨h.draft_eq, fun us e vs hsplit => ?_, htidy.waiting.nodup, htidy.pending_iff, hroutes,
      fun t ht route hreach => ?_, fun hd t ht i => ?_⟩
    · have hfits : Draft.empty.FitAll (us ++ e :: vs) := hsplit ▸ h.fitAll hsound
      exact hfits.fits
    · obtain ⟨route', hspells⟩ := htidy.spells ht
      obtain rfl := hspells.reaches.route_eq hreach (h.sound hsound)
      exact hspells
    · have hleads := (h.routed hd).leads t ht
      exact ⟨fun h' => h'.unique hleads, fun heq => heq ▸ hleads⟩
  · intro ls data errors
    have hfirst : Visited world registry context schedule root fields [] _ _ := .first
    obtain ⟨hnone, edits, hlast⟩ := hfirst.resolveLevels hsound (Field.levels fields)
      (between_begin hsound root fields)
    unfold execute at hresolved
    dsimp only at hresolved
    split at hresolved
    · cases hresolved
    · cases hresolved
      refine ⟨edits, _, hlast, hnone, fun i hpending => ?_, rfl, fun path hpath => ?_⟩
      · rw [(hlast.tidy hsound).pending_iff, hnone] at hpending
        cases hpending
      · rcases (hlast.tidy hsound).null (hlast.sound hsound) (hlast.root_lt hsound) hpath with
          ⟨t, ht, _⟩ | ⟨t, outcome, rest, hmem, heq, hnull⟩
        · rw [hnone] at ht
          cases ht
        · obtain ⟨l, hl, hresult⟩ := List.mem_flatMap.mp hmem
          refine ⟨l, hl, t, outcome, rest, hresult, heq, hnull, ?_⟩
          rintro failure rfl
          have herrors : errors = ls.flatMap ResolvedLevel.failures := hlast.errors_eq
          rw [herrors]
          exact List.mem_flatMap.mpr ⟨l, hl, ResolvedLevel.mem_failures hresult⟩

/-- nothing is pending in the end, and the author of the second post is null because of what a field
came to. -/
theorem no_slot_forgotten_of_shelf :
    ∃ registry resolved, Registry.build Settings.default [.plain "Post" "author" lostAuthor]
        = .ok registry ∧
      execute shelf registry Schedule.immediate 0 shelfFields () = .ok resolved ∧
      (∃ edits last, Visited shelf registry () Schedule.immediate 0 shelfFields
        (levels shelf registry () Schedule.immediate 0 shelfFields) edits last ∧
        last.placement.tasks = [] ∧
        (∀ i : Nat, last.placement.draft.slots[i]? ≠ some Slot.pending) ∧
        ∀ i < last.placement.draft.slots.size,
          ∃! route, last.placement.draft.Reaches Draft.root route i) ∧
      let lost := [.field "posts", .index 1, .field "author"]
      resolved.response.data.Part lost .null ∧
      ∃ l ∈ levels shelf registry () Schedule.immediate 0 shelfFields, ∃ t outcome rest,
        (t, outcome) ∈ l.results ∧ lost = t.path ++ rest ∧ Placement.NullIn outcome rest := by
  have hbuild : ∃ registry : Registry Nat Unit,
      Registry.build Settings.default [.plain "Post" "author" lostAuthor] = .ok registry := ⟨_, rfl⟩
  obtain ⟨registry, hr⟩ := hbuild
  have hexecute : ∃ resolved,
      execute shelf registry Schedule.immediate 0 shelfFields () = .ok resolved ∧
      resolved.response.data.Part [.field "posts", .index 1, .field "author"] .null := by
    cases hr
    refine ⟨_, rfl, .member List.mem_cons_self (.item rfl (.member List.mem_cons_self (.whole _)))⟩
  obtain ⟨resolved, hresolved, hnull⟩ := hexecute
  obtain ⟨hstates, hend⟩ := no_slot_forgotten hr shelf Schedule.immediate 0 shelfFields ()
  obtain ⟨edits, last, hlast, hnone, hpending, _, hnulls⟩ := hend resolved hresolved
  obtain ⟨_, _, _, _, hroutes, _⟩ := hstates _ edits last hlast
  obtain ⟨l, hl, t, outcome, rest, hmem, hpath, hin, _⟩ := hnulls _ hnull
  exact ⟨registry, resolved, hr, hresolved, ⟨edits, last, hlast, hnone, hpending, hroutes⟩, hnull, l,
    hl, t, outcome, rest, hmem, hpath, hin⟩

end Query
end Batchwise
