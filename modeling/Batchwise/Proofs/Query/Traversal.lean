import Batchwise.Proofs.Query.Calls
import Batchwise.Proofs.Query.Execute

/-!
# The levels of a query, one by one

A query is resolved in levels.  The occurrences of the first are the fields of the root; those of
any later one are found in the answers of the one before, in order: answer by answer, and in each
object by object, from whatever list or parent it comes.  Every level calls each resolver as often
as its occurrences have pairs for it.

* `Occurrence`, `Occurrence.below`   one field of one object, and the occurrences in its answer;
* `Placement.occurrences_placeAll`   placing the outcomes of a level finds the next one;
* `Query.levels`, `Query.Follow`     the levels of a query, each following from the one before;
* `Query.calls_once_per_pair`        the calls of every level of a query.
-/

set_option linter.unusedSectionVars false

namespace Batchwise

/-- one field of one object, and where its value stands in the response. -/
structure Occurrence (S : Type) where
  source : S
  field : Field
  path : List PathSegment

def FieldTask.occurrence {S : Type} (t : FieldTask S) : Occurrence S := ⟨t.source, t.field, t.path⟩

/-! ### occurrences in answers -/

namespace Occurrence

variable {S : Type}

def ofObject (fields : List Field) (source : S) (path : List PathSegment) : List (Occurrence S) :=
  fields.map fun f => ⟨source, f, path ++ [.field f.outputName]⟩

mutual

/-- the fields of the objects in an answer. -/
def inAnswer (fields : List Field) (path : List PathSegment) : Answer S → List (Occurrence S)
  | .null => []
  | .scalar _ => []
  | .object source => ofObject fields source path
  | .list as => inItems fields path 0 as

def inItems (fields : List Field) (path : List PathSegment) (index : Nat) :
    List (Answer S) → List (Occurrence S)
  | [] => []
  | a :: as => inAnswer fields (path ++ [.index index]) a ++ inItems fields path (index + 1) as

end

/-- the occurrences in the outcome of an occurrence. -/
def below (o : Occurrence S) : FieldOutcome S → List (Occurrence S)
  | .ok a => inAnswer o.field.subfields o.path (a.getD .null)
  | .error _ => []

theorem field_of_ofObject {fields : List Field} {source : S} {path : List PathSegment}
    {o : Occurrence S} (h : o ∈ ofObject fields source path) : o.field ∈ fields := by
  obtain ⟨f, hf, rfl⟩ := List.mem_map.mp h
  exact hf

mutual

theorem field_of_inAnswer {fields : List Field} {o : Occurrence S} (path : List PathSegment) :
    (a : Answer S) → o ∈ inAnswer fields path a → o.field ∈ fields
  | .null, h => by cases h
  | .scalar _, h => by cases h
  | .object _, h => field_of_ofObject h
  | .list as, h => field_of_inItems path 0 as h

theorem field_of_inItems {fields : List Field} {o : Occurrence S} (path : List PathSegment)
    (index : Nat) : (as : List (Answer S)) → o ∈ inItems fields path index as → o.field ∈ fields
  | [], h => by cases h
  | a :: as, h => (List.mem_append.mp h).elim (field_of_inAnswer _ a) (field_of_inItems _ _ as)

end

theorem field_of_below {o u : Occurrence S} {outcome : FieldOutcome S} (h : u ∈ o.below outcome) :
    u.field ∈ o.field.subfields := by
  cases outcome with
  | ok a => exact field_of_inAnswer o.path (a.getD .null) h
  | error failure => cases h

/-- the occurrences in the outcomes of a level, in order. -/
def next (ts : List (FieldTask S)) (outcomes : List (FieldOutcome S)) : List (Occurrence S) :=
  (ts.zip outcomes).flatMap fun x => x.1.occurrence.below x.2

end Occurrence

/-! ### placing finds the occurrences -/

namespace Placement

variable {S : Type}

/-- what waits in a placement. -/
def occurrences (p : Placement S) : List (Occurrence S) := p.tasks.map FieldTask.occurrence

theorem occurrences_schedule (parent : Nat) (source : S) (path : List PathSegment)
    (fs : List Field) (p : Placement S) :
    (schedule parent source path fs p).occurrences
      = p.occurrences ++ Occurrence.ofObject fs source path := by
  induction fs generalizing p with
  | nil => exact (List.append_nil _).symm
  | cons f fs ih =>
    rw [schedule, ih]
    unfold occurrences
    rw [List.map_append, List.append_assoc]
    rfl

mutual

theorem occurrences_place (fields : List Field) (slot : Nat) (path : List PathSegment) :
    (a : Answer S) → (p : Placement S) → (place fields slot path a p).occurrences
      = p.occurrences ++ Occurrence.inAnswer fields path a
  | .null, _ => (List.append_nil _).symm
  | .scalar _, _ => (List.append_nil _).symm
  | .object source, _ => occurrences_schedule slot source path fields _
  | .list as, _ => occurrences_placeItems fields _ path 0 as _

theorem occurrences_placeItems (fields : List Field) (slot : Nat) (path : List PathSegment)
    (index : Nat) : (as : List (Answer S)) → (p : Placement S) →
    (placeItems fields slot path index as p).occurrences
      = p.occurrences ++ Occurrence.inItems fields path index as
  | [], _ => (List.append_nil _).symm
  | a :: as, p => by
    rw [placeItems, occurrences_placeItems fields _ path _ as,
      occurrences_place fields slot _ a p, List.append_assoc]
    rfl

end

theorem occurrences_placeOutcome (t : FieldTask S) (outcome : FieldOutcome S) (p : Placement S) :
    (placeOutcome t outcome p).occurrences = p.occurrences ++ t.occurrence.below outcome := by
  cases outcome with
  | ok a => exact occurrences_place t.field.subfields t.slot t.path (a.getD .null) p
  | error failure => exact (List.append_nil _).symm

/-- **Placing the outcomes of a level** finds the occurrences in them, in order. -/
theorem occurrences_placeAll (ts : List (FieldTask S)) (outcomes : List (FieldOutcome S))
    (p : Placement S) :
    (placeAll ts outcomes p).occurrences = p.occurrences ++ Occurrence.next ts outcomes := by
  induction ts generalizing outcomes p with
  | nil => exact (List.append_nil _).symm
  | cons t ts ih =>
    cases outcomes with
    | nil => exact (List.append_nil _).symm
    | cons outcome outcomes =>
      rw [placeAll, ih, occurrences_placeOutcome, List.append_assoc]
      rfl

end Placement

/-! ### levels -/

namespace Query

variable {S C : Type} [DecidableEq S] [DecidableEq C]

/-- a level of a query: its fields, what became of them, and what happened meanwhile. -/
structure ResolvedLevel (S C : Type) where
  number : Nat
  tasks : List (FieldTask S)
  outcomes : List (FieldOutcome S)
  events : List (Event S C)

section

variable (world : World S) (registry : Registry S C) (context : C) (schedule : Schedule)

/-- the levels that are resolved from a state on. -/
def levelsFrom : (left number : Nat) → State S C → List (ResolvedLevel S C)
  | 0, _, _ => []
  | left + 1, number, s =>
    if s.placement.tasks.isEmpty then []
    else
      let done := Level.run world registry context (schedule number) s.execution s.placement.tasks
      ⟨number, s.placement.tasks, done.outcomes, done.events⟩ ::
        levelsFrom left (number + 1)
          (resolveLevel world registry context (schedule number) number s)

def levels (root : S) (fields : List Field) : List (ResolvedLevel S C) :=
  levelsFrom world registry context schedule (Field.levels fields) 1 (begin registry root fields)

end

/-- the occurrences of the first level are the given ones, those of any other are found in the
outcomes of the level before, and in those of the last level there are none. -/
def Follow : List (Occurrence S) → List (ResolvedLevel S C) → Prop
  | occurrences, [] => occurrences = []
  | occurrences, l :: ls => l.tasks.map FieldTask.occurrence = occurrences ∧
      Follow (Occurrence.next l.tasks l.outcomes) ls

variable {world : World S} {registry : Registry S C} {context : C} {schedule : Schedule}

/-- between two levels, when at most `left` are left. -/
structure Between (registry : Registry S C) (left : Nat) (s : State S C) : Prop where
  idle : s.execution.Each registry fun service b => b.Idle service
  low : ∀ o ∈ s.placement.occurrences, o.field.height ≤ left

theorem between_begin (hr : registry.Sound) (root : S) (fields : List Field) :
    Between registry (Field.levels fields) (begin registry root fields) := by
  refine ⟨Execution.each_ofRegistry hr, fun o ho => ?_⟩
  have ho' : o ∈ (Placement.schedule Draft.root root [] fields ⟨Draft.empty, [], []⟩).occurrences :=
    ho
  rw [Placement.occurrences_schedule] at ho'
  exact Field.height_le_levels (Occurrence.field_of_ofObject ho')

theorem occurrences_resolveLevel (rounds : List Round) (number : Nat) (s : State S C) :
    (resolveLevel world registry context rounds number s).placement.occurrences
      = Occurrence.next s.placement.tasks
        (Level.run world registry context rounds s.execution s.placement.tasks).outcomes :=
  Placement.occurrences_placeAll _ _ { s.placement with tasks := [] }

theorem Between.resolveLevel (world : World S) (context : C) (hr : registry.Sound) {left : Nat}
    {s : State S C} (h : Between registry (left + 1) s) (rounds : List Round) (number : Nat) :
    Between registry left (Query.resolveLevel world registry context rounds number s) := by
  refine ⟨(Level.outcomes_run world context hr h.idle rounds s.placement.tasks).1, fun o ho => ?_⟩
  rw [occurrences_resolveLevel] at ho
  obtain ⟨⟨t, outcome⟩, hmem, ho⟩ := List.mem_flatMap.mp ho
  have hlow := h.low t.occurrence (List.mem_map_of_mem (List.of_mem_zip hmem).1)
  have hlt : o.field.height < t.occurrence.field.height :=
    Field.height_lt (Occurrence.field_of_below ho)
  omega

/-- the calls of a level are those of its occurrences. -/
structure CalledOnce (world : World S) (registry : Registry S C) (context : C)
    (l : ResolvedLevel S C) : Prop where
  /-- each resolver is called for the occurrences that are bound to it, -/
  calls : ∀ b ∈ registry.bindings,
    callsTo b.id l.events = b.levelCalls context (Level.boundTo world registry b.id l.tasks)
  /-- and nobody else is called. -/
  others : ∀ n, (∀ b ∈ registry.bindings, b.id ≠ n) → callsTo n l.events = []
  /-- what becomes of an occurrence is what its call came back with. -/
  outcomes : l.outcomes = l.tasks.map (Level.sharedOutcome world registry context l.tasks)

theorem levelsFrom_spec (world : World S) (context : C) (schedule : Schedule)
    (hr : registry.Sound) (left number : Nat) {s : State S C} (h : Between registry left s) :
    (resolveLevels world registry context schedule left number s).events = s.events ++
        (levelsFrom world registry context schedule left number s).flatMap
          (fun l => .level l.number l.tasks.length :: l.events) ∧
      Follow s.placement.occurrences (levelsFrom world registry context schedule left number s) ∧
      ∀ l ∈ levelsFrom world registry context schedule left number s,
        CalledOnce world registry context l := by
  induction left generalizing number s with
  | zero =>
    refine ⟨(List.append_nil _).symm, ?_, fun l hl => by cases hl⟩
    refine List.eq_nil_iff_forall_not_mem.mpr fun o ho => ?_
    have hlow := h.low o ho
    have hpos := Field.height_pos o.field
    omega
  | succ left ih =>
    rw [resolveLevels, levelsFrom]
    split
    · rename_i hempty
      refine ⟨(List.append_nil _).symm, ?_, fun l hl => by cases hl⟩
      exact congrArg (List.map FieldTask.occurrence) (List.isEmpty_iff.mp hempty)
    · obtain ⟨hevents, hfollow, hcalled⟩ := ih (number + 1)
        (h.resolveLevel world context hr (schedule number) number)
      refine ⟨?_, ⟨rfl, ?_⟩, fun l hl => ?_⟩
      · rw [hevents, List.flatMap_cons]
        exact List.append_assoc _ _ _
      · rw [occurrences_resolveLevel] at hfollow
        exact hfollow
      · rcases List.mem_cons.mp hl with rfl | hl
        · obtain ⟨hcalls, hothers⟩ := Level.callsTo_run world context hr h.idle
            (schedule number) s.placement.tasks
          exact ⟨hcalls, hothers, (Level.outcomes_run world context hr h.idle _ _).2⟩
        · exact hcalled l hl

/-- **A level calls a batched resolver once for each pair, and for nothing else.**  In every query
that is resolved, in whatever rounds:
* the events are those of the levels, one after the other;
* the occurrences of the first level are the fields of the root, those of any other are found in
  the answers of the level before, in order, and the last level leaves none;
* in a level a batched resolver is called once for each pair among the occurrences bound to it, with
  their distinct sources in order; a simple one once for each occurrence bound to it; and nobody
  else is called;
* so the number of calls of a batched resolver is the number of pairs. -/
theorem calls_once_per_pair {settings : Settings} {ds : List (Declaration S C)}
    {registry : Registry S C} (hr : Registry.build settings ds = .ok registry) (world : World S)
    (schedule : Schedule) (root : S) (fields : List Field) (context : C) {resolved : Resolved S C}
    (hresolved : execute world registry schedule root fields context = .ok resolved) :
    let levels := levels world registry context schedule root fields
    resolved.events = levels.flatMap (fun l => .level l.number l.tasks.length :: l.events) ∧
    Follow (Occurrence.ofObject fields root []) levels ∧
    ∀ l ∈ levels, CalledOnce world registry context l ∧
      ∀ b ∈ registry.bindings, b.isBatched = true →
        (callsTo b.id l.events).length = (((Level.boundTo world registry b.id l.tasks).map
          fun t => b.pairOf t.field).eraseDups).length := by
  intro levels
  have hsound := Registry.sound_build hr
  obtain ⟨hevents, hfollow, hcalled⟩ := levelsFrom_spec world context schedule hsound
    (Field.levels fields) 1 (between_begin hsound root fields)
  unfold execute at hresolved
  dsimp only at hresolved
  split at hresolved
  · cases hresolved
  · cases hresolved
    refine ⟨hevents, ?_, fun l hl => ⟨hcalled l hl, fun b hb hbatched => ?_⟩⟩
    · have hfirst : (begin registry root fields : State S C).placement.occurrences
          = Occurrence.ofObject fields root [] :=
        Placement.occurrences_schedule Draft.root root [] fields ⟨Draft.empty, [], []⟩
      rw [hfirst] at hfollow
      exact hfollow
    · rw [(hcalled l hl).calls b hb]
      unfold Binding.isBatched at hbatched
      unfold Binding.levelCalls Binding.sharedCalls
      cases hresolver : b.resolver with
      | batched shape run => exact List.length_map _
      | simple shape run =>
        rw [hresolver] at hbatched
        cases hbatched

/-- a shelf of three posts; the first two are by one author. -/
def shelf : World Nat where
  typeName n := if n = 0 then "Shelf" else if n < 10 then "Author" else "Post"
  property n _ := if n = 0 then some (.objects [10, 11, 20]) else none

/-- the posts of a shelf and their authors, asked for under two names. -/
def shelfFields : List Field :=
  [⟨none, "posts", .empty, [⟨none, "author", .empty, Field.chain ["name"] []⟩,
    ⟨some "by", "author", .empty, []⟩]⟩]

/-- six occurrences in the second level are one call for three posts. -/
theorem calls_once_per_pair_of_shelf :
    ∃ registry resolved, Registry.build Settings.default [.plain "Post" "author" authors]
        = .ok registry ∧
      execute shelf registry Schedule.immediate 0 shelfFields () = .ok resolved ∧
      ∃ l ∈ levels shelf registry () Schedule.immediate 0 shelfFields,
        l.tasks.map (fun t => t.source) = [10, 10, 11, 11, 20, 20] ∧
        callsTo 0 l.events = [⟨[10, 11, 20], none, none, ()⟩] := by
  have hbuild : ∃ registry : Registry Nat Unit,
      Registry.build Settings.default [.plain "Post" "author" authors] = .ok registry :=
    ⟨_, rfl⟩
  obtain ⟨registry, hr⟩ := hbuild
  have hexecute : ∃ resolved,
      execute shelf registry Schedule.immediate 0 shelfFields () = .ok resolved := by
    cases hr
    exact ⟨_, rfl⟩
  obtain ⟨resolved, hresolved⟩ := hexecute
  obtain ⟨_, _, hlevels⟩ :=
    calls_once_per_pair hr shelf Schedule.immediate 0 shelfFields () hresolved
  cases hr
  refine ⟨_, resolved, rfl, hresolved, _, List.mem_cons_of_mem _ List.mem_cons_self, rfl, ?_⟩
  exact ((hlevels _ (List.mem_cons_of_mem _ List.mem_cons_self)).1.calls _
    List.mem_cons_self).trans rfl

end Query
end Batchwise
