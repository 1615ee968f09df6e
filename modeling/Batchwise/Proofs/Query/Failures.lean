import Batchwise.Proofs.Query.Traversal
import Batchwise.Proofs.Response.Path

/-!
# Failures and where they stand

A field that could not be resolved leaves null in the response, and an error that says where.  The
path of a field is put together apart from the slot of its value; that the one leads to the other
holds of every field that waits, and is carried from level to level.

* `Field.Distinct`             siblings have distinct names in the response, on every level;
* `ResolvedLevel.failures`     the failures of a level, in order: `errors_resolveLevels`;
* `Placement.Routed`           paths of waiting fields lead to their slots, paths of errors to null;
* `Routed.placeAll`            which stays so when the outcomes of a level are placed;
* `Query.errors_lead_to_null`  the errors of a response.
-/

set_option linter.unusedSectionVars false

namespace Batchwise

/-- siblings have distinct names in the response, here and in all subfields. -/
inductive Field.Distinct : List Field → Prop
  | intro {fs : List Field} (siblings : (fs.map Field.outputName).Nodup)
      (deeper : ∀ f ∈ fs, Field.Distinct f.subfields) : Field.Distinct fs

theorem Field.Distinct.siblings {fs : List Field} (h : Distinct fs) :
    (fs.map Field.outputName).Nodup := by
  cases h with
  | intro siblings _ => exact siblings

theorem Field.Distinct.deeper {fs : List Field} (h : Distinct fs) {f : Field} (hf : f ∈ fs) :
    Distinct f.subfields := by
  cases h with
  | intro _ deeper => exact deeper f hf

/-- the error of a field at `path`, if it failed. -/
def FieldError.ofOutcome? {S : Type} (path : List PathSegment) : FieldOutcome S → Option FieldError
  | .ok _ => none
  | .error failure => some ⟨failure, path⟩

namespace Placement

variable {S : Type}

/-! ### errors in order -/

/-- the errors of fields that failed, in order. -/
def failures (ts : List (FieldTask S)) (outcomes : List (FieldOutcome S)) : List FieldError :=
  (ts.zip outcomes).filterMap fun x => FieldError.ofOutcome? x.1.path x.2

theorem errors_schedule (parent : Nat) (source : S) (path : List PathSegment) (fs : List Field)
    (p : Placement S) : (schedule parent source path fs p).errors = p.errors := by
  induction fs generalizing p with
  | nil => rfl
  | cons f fs ih => exact ih _

mutual

theorem errors_place (fields : List Field) (slot : Nat) (path : List PathSegment) :
    (a : Answer S) → (p : Placement S) → (place fields slot path a p).errors = p.errors
  | .null, _ => rfl
  | .scalar _, _ => rfl
  | .object source, _ => errors_schedule slot source path fields _
  | .list as, _ => errors_placeItems fields _ path 0 as _

theorem errors_placeItems (fields : List Field) (slot : Nat) (path : List PathSegment)
    (index : Nat) : (as : List (Answer S)) → (p : Placement S) →
    (placeItems fields slot path index as p).errors = p.errors
  | [], _ => rfl
  | a :: as, p => by
    rw [placeItems, errors_placeItems fields _ path _ as, errors_place fields slot _ a p]

end

theorem errors_placeAll (ts : List (FieldTask S)) (outcomes : List (FieldOutcome S))
    (p : Placement S) : (placeAll ts outcomes p).errors = p.errors ++ failures ts outcomes := by
  induction ts generalizing outcomes p with
  | nil => simp [placeAll, failures]
  | cons t ts ih =>
    cases outcomes with
    | nil => simp [placeAll, failures]
    | cons outcome outcomes =>
      rw [placeAll, ih]
      cases outcome with
      | ok a =>
        show (place _ _ _ _ p).errors ++ _ = _
        rw [errors_place]
        rfl
      | error failure =>
        show p.errors ++ [⟨failure, t.path⟩] ++ failures ts outcomes = _
        rw [List.append_assoc]
        rfl

/-! ### paths of new fields -/

theorem path_of_fieldTasks {source : S} {path : List PathSegment} {first : Nat} {fs : List Field}
    {t : FieldTask S} (h : t ∈ fieldTasks source path first fs) :
    t.path = path ++ [.field t.field.outputName] := by
  induction fs generalizing first with
  | nil => cases h
  | cons f fs ih =>
    rcases List.mem_cons.mp h with rfl | h
    · rfl
    · exact ih h

/-- each field of an object is found under its name. -/
theorem leads_schedule {fields : List Field} (hnames : (fields.map Field.outputName).Nodup)
    (parent : Nat) (source : S) (path : List PathSegment) (p : Placement S) (hp : p.draft.Closed)
    (hparent : p.draft.slots[parent]? = some (.object [])) {t : FieldTask S}
    (ht : t ∈ fieldTasks source path p.draft.slots.size fields) :
    (schedule parent source path fields p).draft.Leads parent [.field t.field.outputName]
      t.slot := by
  obtain ⟨_, _, hmembers⟩ := schedule_spec parent source path fields p hp hparent
  refine ⟨_, t.slot, hmembers, ?_, List.mem_map_of_mem ht, rfl⟩
  rw [List.nil_append, List.map_map]
  have hkeys := map_fieldTasks (fun f (_ : S) (_ : List PathSegment) => f.outputName) source path
    p.draft.slots.size fields
  exact hkeys ▸ hnames

/-- an answer is placed in its slot, and what waits then are fields of its objects. -/
theorem placed_place (fields : List Field) (slot : Nat) (path : List PathSegment) (a : Answer S)
    (p : Placement S) (hp : p.draft.Closed) (hslot : p.draft.slots[slot]? = some .pending) :
    ∃ new, Placed p (place fields slot path a p) [slot] new ∧ ∀ t ∈ new, t.field ∈ fields := by
  obtain ⟨new, h⟩ : ∃ new, Shows (fun _ _ _ => (.null, [])) fields p (place fields slot path a p)
      [slot] _ new := place_spec fields slot path a p hp hslot
  exact ⟨new, h.toPlaced, h.fields_new⟩

theorem placed_placeItems (fields : List Field) (slot : Nat) (path : List PathSegment)
    (index : Nat) (as : List (Answer S)) (p : Placement S) (hp : p.draft.Closed)
    (hslots : ∀ i ∈ List.range' slot as.length, p.draft.slots[i]? = some .pending) :
    ∃ new, Placed p (placeItems fields slot path index as p) (List.range' slot as.length) new := by
  obtain ⟨new, h⟩ : ∃ new, Shows (fun _ _ _ => (.null, [])) fields p
      (placeItems fields slot path index as p) (List.range' slot as.length) _ new :=
    placeItems_spec fields slot path index as p hp hslots
  exact ⟨new, h.toPlaced⟩

/-- answers are placed one after the other: what waits then is what the first left, and after it what
the others left. -/
theorem placed_placeItems_cons (fields : List Field) (slot : Nat) (path : List PathSegment)
    (index : Nat) (a : Answer S) (as : List (Answer S)) (p : Placement S) (hp : p.draft.Closed)
    (hslots : ∀ i ∈ List.range' slot (as.length + 1), p.draft.slots[i]? = some .pending)
    {new : List (FieldTask S)}
    (hnew : (placeItems fields slot path index (a :: as) p).tasks = p.tasks ++ new) :
    let p₁ := place fields slot (path ++ [.index index]) a p
    ∃ new₁ new₂, new = new₁ ++ new₂ ∧ Placed p p₁ [slot] new₁ ∧
      (∀ i ∈ List.range' (slot + 1) as.length, p₁.draft.slots[i]? = some .pending) ∧
      Placed p₁ (placeItems fields (slot + 1) path (index + 1) as p₁)
        (List.range' (slot + 1) as.length) new₂ := by
  intro p₁
  obtain ⟨new₁, hfirst, _⟩ := placed_place fields slot (path ++ [.index index]) a p hp
    (hslots slot List.mem_cons_self)
  have hpending := hfirst.pending_behind hslots
  obtain ⟨new₂, hrest⟩ := placed_placeItems fields (slot + 1) path (index + 1) as p₁
    hfirst.grows.closed hpending
  refine ⟨new₁, new₂, List.append_cancel_left (hnew.symm.trans ?_), hfirst, hpending, hrest⟩
  rw [placeItems, hrest.tasks_eq, hfirst.tasks_eq, List.append_assoc]

mutual

/-- what waits after an answer was placed is found below the slot of the answer. -/
theorem leads_place {fields : List Field} (hnames : (fields.map Field.outputName).Nodup)
    (slot : Nat) (path : List PathSegment) : (a : Answer S) → (p : Placement S) →
    p.draft.Closed → p.draft.slots[slot]? = some .pending → (new : List (FieldTask S)) →
    (place fields slot path a p).tasks = p.tasks ++ new → ∀ t ∈ new, ∃ rest,
      t.path = path ++ rest ∧ (place fields slot path a p).draft.Leads slot rest t.slot
  | .null, p, _, _, new, hnew => by
    have hnil : new = [] := List.self_eq_append_right.mp hnew
    rw [hnil]
    exact fun t ht => by cases ht
  | .scalar _, p, _, _, new, hnew => by
    have hnil : new = [] := List.self_eq_append_right.mp hnew
    rw [hnil]
    exact fun t ht => by cases ht
  | .object source, p, hp, hslot, new, hnew => by
    have hlt := (Array.getElem?_eq_some_iff.mp hslot).1
    let p₁ : Placement S := { p with draft := p.draft.setObject slot }
    obtain ⟨hclosed, hobject, _⟩ : p₁.draft.Closed ∧ _ := Draft.setObject_spec hp hlt
    obtain ⟨hplaced, _⟩ := schedule_spec slot source path fields p₁ hclosed hobject
    obtain rfl : new = fieldTasks source path p₁.draft.slots.size fields :=
      List.append_cancel_left (hnew.symm.trans hplaced.tasks_eq)
    intro t ht
    exact ⟨_, path_of_fieldTasks ht, leads_schedule hnames slot source path p₁ hclosed hobject ht⟩
  | .list as, p, hp, hslot, new, hnew => by
    have hlt := (Array.getElem?_eq_some_iff.mp hslot).1
    obtain ⟨hgrows, hlist, hitems⟩ := Draft.grows_setList hp hlt as.length
    let first := p.draft.slots.size
    let p₁ : Placement S := { p with draft := (p.draft.setList slot as.length).draft }
    obtain ⟨_, hplaced⟩ := placed_placeItems fields first path 0 as p₁ hgrows.closed hitems
    have hkept := Draft.Leads.kept hplaced.grows (fun i hi _ => hitems i hi) (by simp) hlist
    intro t ht
    obtain ⟨n, rest, hn, hpath, hleads⟩ :=
      leads_placeItems hnames first path 0 as p₁ hgrows.closed hitems new hnew t ht
    rw [Nat.zero_add] at hpath
    refine ⟨.index n :: rest, hpath, _, first + n, hkept, ?_, hleads⟩
    rw [List.getElem?_range' hn, Nat.one_mul]

theorem leads_placeItems {fields : List Field} (hnames : (fields.map Field.outputName).Nodup)
    (slot : Nat) (path : List PathSegment) (index : Nat) : (as : List (Answer S)) →
    (p : Placement S) → p.draft.Closed →
    (∀ i ∈ List.range' slot as.length, p.draft.slots[i]? = some .pending) →
    (new : List (FieldTask S)) →
    (placeItems fields slot path index as p).tasks = p.tasks ++ new → ∀ t ∈ new, ∃ n rest,
      n < as.length ∧ t.path = path ++ .index (index + n) :: rest ∧
      (placeItems fields slot path index as p).draft.Leads (slot + n) rest t.slot
  | [], p, _, _, new, hnew => by
    have hnil : new = [] := List.self_eq_append_right.mp hnew
    rw [hnil]
    exact fun t ht => by cases ht
  | a :: as, p, hp, hslots, new, hnew => by
    have hslot := hslots slot List.mem_cons_self
    let p₁ := place fields slot (path ++ [.index index]) a p
    obtain ⟨new₁, new₂, rfl, hfirst, hpending, hrest⟩ :=
      placed_placeItems_cons fields slot path index a as p hp hslots hnew
    intro t ht
    rcases List.mem_append.mp ht with ht | ht
    · obtain ⟨rest, hpath, hleads⟩ :=
        leads_place hnames slot (path ++ [.index index]) a p hp hslot new₁ hfirst.tasks_eq t ht
      refine ⟨0, rest, Nat.succ_pos _, ?_, hleads.grows hrest.grows fun i hi _ => hpending i hi⟩
      rw [hpath, List.append_assoc]
      rfl
    · obtain ⟨n, rest, hn, hpath, hleads⟩ := leads_placeItems hnames (slot + 1) path (index + 1) as
        p₁ hfirst.grows.closed hpending new₂ hrest.tasks_eq t ht
      refine ⟨n + 1, rest, Nat.succ_lt_succ hn, ?_, ?_⟩
      · rw [hpath, Nat.add_assoc, Nat.add_comm 1 n]
      · rw [Nat.add_assoc, Nat.add_comm 1 n] at hleads
        exact hleads

end

/-! ### what waits, and what failed -/

/-- the path of an error leads to a slot with null in it. -/
structure Addresses (d : Draft) (e : FieldError) (slot : Nat) : Prop where
  leads : d.Leads Draft.root e.path slot
  null : d.slots[slot]? = some .null

/-- the paths of waiting fields lead to their slots, and those of errors to slots of their own. -/
structure Routed (p : Placement S) (tasks : List (FieldTask S)) : Prop where
  closed : p.draft.Closed
  waiting : Waiting p.draft 0 tasks
  leads : ∀ t ∈ tasks, p.draft.Leads Draft.root t.path t.slot
  distinct : ∀ t ∈ tasks, Field.Distinct t.field.subfields
  errors : ∃ marks : List (FieldError × Nat), p.errors = marks.map Prod.fst ∧
    (marks.map Prod.snd).Nodup ∧ ∀ m ∈ marks, Addresses p.draft m.1 m.2

namespace Routed

variable {p p' : Placement S} {t : FieldTask S} {ts new : List (FieldTask S)}

theorem sublist {us : List (FieldTask S)} (h : Routed p ts) (hs : us.Sublist ts) : Routed p us :=
  ⟨h.closed, ⟨fun t ht => h.waiting.pending t (hs.subset ht), fun _ _ => Nat.zero_le _,
    h.waiting.nodup.sublist (hs.map _)⟩, fun t ht => h.leads t (hs.subset ht),
    fun t ht => h.distinct t (hs.subset ht), h.errors⟩

/-- one outcome is placed: new fields lie below the placed one, and paths that were there stay. -/
theorem placed (h : Routed p (t :: ts ++ p.tasks)) (hplaced : Placed p p' [t.slot] new)
    (hnew : ∀ u ∈ new, (∃ rest, u.path = t.path ++ rest ∧ p'.draft.Leads t.slot rest u.slot) ∧
      u.field ∈ t.field.subfields)
    (herrors : p'.errors = p.errors ∨ ∃ failure, p'.errors = p.errors ++ [⟨failure, t.path⟩] ∧
      p'.draft.slots[t.slot]? = some .null) : Routed p' (ts ++ p'.tasks) := by
  have hpending := h.waiting.pending t List.mem_cons_self
  have hfilled : ∀ i ∈ [t.slot], i < p.draft.slots.size → p.draft.slots[i]? = some .pending := by
    intro i hi _
    rw [List.mem_singleton.mp hi]
    exact hpending
  have hleads : ∀ {path j}, p.draft.Leads Draft.root path j → p'.draft.Leads Draft.root path j :=
    fun hpath => hpath.grows hplaced.grows hfilled
  have hsplit : ∀ u ∈ ts ++ p'.tasks, u ∈ t :: ts ++ p.tasks ∨ u ∈ new := by
    intro u hu
    rw [hplaced.tasks_eq, ← List.append_assoc] at hu
    exact (List.mem_append.mp hu).imp (List.mem_cons_of_mem t) (fun hu => hu)
  have htask := h.leads t List.mem_cons_self
  refine ⟨hplaced.grows.closed, hplaced.waiting_rest h.waiting, fun u hu => ?_, fun u hu => ?_, ?_⟩
  · rcases hsplit u hu with hu | hu
    · exact hleads (h.leads u hu)
    · obtain ⟨⟨rest, hpath, hrest⟩, _⟩ := hnew u hu
      rw [hpath]
      exact (hleads htask).append hrest
  · rcases hsplit u hu with hu | hu
    · exact h.distinct u hu
    · exact (h.distinct t List.mem_cons_self).deeper (hnew u hu).2
  · obtain ⟨marks, hmarks, hnodup, haddresses⟩ := h.errors
    have hold : ∀ m ∈ marks, Addresses p'.draft m.1 m.2 := by
      intro m hm
      obtain ⟨hlead, hnull⟩ := haddresses m hm
      exact ⟨hleads hlead, Draft.Leads.kept hplaced.grows hfilled (by simp) hnull⟩
    rcases herrors with herrors | ⟨failure, herrors, hnull⟩
    · exact ⟨marks, herrors.trans hmarks, hnodup, hold⟩
    · refine ⟨marks ++ [(⟨failure, t.path⟩, t.slot)], ?_, ?_, fun m hm => ?_⟩
      · rw [herrors, hmarks, List.map_append]
        rfl
      · -- the slot of the field was pending, so no error had it
        rw [List.map_append, List.nodup_append]
        refine ⟨hnodup, List.nodup_singleton _, fun i hi j hj heq => ?_⟩
        obtain ⟨m, hm, rfl⟩ := List.mem_map.mp hi
        have hnone := (haddresses m hm).null
        rw [heq, List.mem_singleton.mp hj, hpending] at hnone
        cases hnone
      · rcases List.mem_append.mp hm with hm | hm
        · exact hold m hm
        · rw [List.mem_singleton.mp hm]
          exact ⟨hleads htask, hnull⟩

theorem placeOutcome (h : Routed p (t :: ts ++ p.tasks)) (outcome : FieldOutcome S) :
    Routed (Placement.placeOutcome t outcome p)
      (ts ++ (Placement.placeOutcome t outcome p).tasks) := by
  have hpending := h.waiting.pending t List.mem_cons_self
  have hdistinct := h.distinct t List.mem_cons_self
  cases outcome with
  | ok a =>
    obtain ⟨new, hplaced, hfields⟩ := placed_place t.field.subfields t.slot t.path (a.getD .null) p
      h.closed hpending
    refine h.placed hplaced (fun u hu => ⟨?_, hfields u hu⟩) (Or.inl ?_)
    · exact leads_place hdistinct.siblings t.slot t.path (a.getD .null) p h.closed hpending new
        hplaced.tasks_eq u hu
    · exact errors_place t.field.subfields t.slot t.path (a.getD .null) p
  | error failure =>
    have hlt := (Array.getElem?_eq_some_iff.mp hpending).1
    have hplaced : Placed p (Placement.placeOutcome t (.error failure) p) [t.slot] [] := by
      obtain ⟨htasks, hgrows, hwaiting⟩ := Placed.fill p h.closed .null hlt fun j hj => by cases hj
      exact ⟨htasks, hgrows, hwaiting⟩
    refine h.placed hplaced (fun u hu => by cases hu) (Or.inr ⟨failure, rfl, ?_⟩)
    exact Draft.getElem?_fill_self hlt _

/-- **The outcomes of a level are placed**, and every path still leads where it should. -/
theorem placeAll (ts : List (FieldTask S)) (outcomes : List (FieldOutcome S)) {p : Placement S}
    (h : Routed p (ts ++ p.tasks)) :
    Routed (Placement.placeAll ts outcomes p) (Placement.placeAll ts outcomes p).tasks := by
  induction ts generalizing outcomes p with
  | nil => exact h
  | cons t ts ih =>
    cases outcomes with
    | nil => exact h.sublist (List.sublist_append_right _ _)
    | cons outcome outcomes => exact ih outcomes (h.placeOutcome outcome)

/-- the errors of a finished placement: distinct paths, and null at the end of each. -/
theorem errors_spec (h : Routed p ts) :
    (p.errors.map FieldError.path).Nodup ∧
      ∀ e ∈ p.errors, (p.draft.document Draft.root).follow? e.path = some .null := by
  obtain ⟨marks, hmarks, hnodup, haddresses⟩ := h.errors
  rw [hmarks]
  constructor
  · rw [List.map_map]
    refine (List.Nodup.of_map _ hnodup).map_on fun m hm n hn hpath => ?_
    have hleads := (haddresses m hm).leads
    have hpath' : m.1.path = n.1.path := hpath
    rw [hpath'] at hleads
    exact List.inj_on_of_nodup_map hnodup hm hn (hleads.unique (haddresses n hn).leads)
  · intro e he
    obtain ⟨m, hm, rfl⟩ := List.mem_map.mp he
    obtain ⟨hleads, hnull⟩ := haddresses m hm
    rw [hleads.follow h.closed, Draft.document_eq, hnull]
    rfl

end Routed
end Placement

namespace Query

variable {S C : Type} [DecidableEq S] [DecidableEq C]

/-- the fields of a level that failed, in order, each with its path. -/
def ResolvedLevel.failures (l : ResolvedLevel S C) : List FieldError :=
  Placement.failures l.tasks l.outcomes

section

variable (world : World S) (registry : Registry S C) (context : C)

theorem routed_begin {fields : List Field} (hd : Field.Distinct fields) (root : S) :
    (begin registry root fields : State S C).placement.Routed
      (begin registry root fields : State S C).placement.tasks := by
  let p : Placement S := ⟨Draft.empty, [], []⟩
  have hroot : p.draft.slots[Draft.root]? = some (.object []) := rfl
  have hclosed : p.draft.Closed := Draft.closed_empty
  obtain ⟨hplaced, herrors, _⟩ := Placement.schedule_spec Draft.root root [] fields p hclosed hroot
  have htasks : (begin registry root fields : State S C).placement.tasks
      = Placement.fieldTasks root [] p.draft.slots.size fields := hplaced.tasks_eq
  rw [htasks]
  refine ⟨hplaced.grows.closed, hplaced.waiting.mono (Nat.zero_le _), fun t ht => ?_,
    fun t ht => hd.deeper (Placement.mem_fields_of_fieldTasks ht), [], herrors, List.nodup_nil,
    fun m hm => by cases hm⟩
  rw [Placement.path_of_fieldTasks ht]
  exact Placement.leads_schedule hd.siblings Draft.root root [] p hclosed hroot ht

theorem routed_resolveLevels (schedule : Schedule) (left number : Nat) {s : State S C}
    (h : s.placement.Routed s.placement.tasks) :
    ∃ tasks, (resolveLevels world registry context schedule left number s).placement.Routed
      tasks := by
  induction left generalizing number s with
  | zero => exact ⟨_, h⟩
  | succ left ih =>
    rw [resolveLevels]
    split
    · exact ⟨_, h⟩
    · refine ih (number + 1) (Placement.Routed.placeAll _ _ (p := { s.placement with tasks := [] }) ?_)
      rw [List.append_nil]
      exact ⟨h.closed, h.waiting, h.leads, h.distinct, h.errors⟩

/-- the errors come level by level. -/
theorem errors_resolveLevels (schedule : Schedule) (left number : Nat) (s : State S C) :
    (resolveLevels world registry context schedule left number s).placement.errors
      = s.placement.errors ++ (levelsFrom world registry context schedule left number s).flatMap
          ResolvedLevel.failures := by
  induction left generalizing number s with
  | zero => simp [resolveLevels, levelsFrom]
  | succ left ih =>
    rw [resolveLevels, levelsFrom]
    split
    · simp
    · rw [ih, List.flatMap_cons, ← List.append_assoc]
      refine congrArg (fun es => es ++ _) ?_
      exact Placement.errors_placeAll _ _ { s.placement with tasks := [] }

end

/-- **Errors lead to null.**  In every query that is resolved, in whatever rounds, where siblings
have distinct names:
* the levels follow each other: the first are the fields of the root, any other the fields found in
  the answers of the one before, in order of the fields and of the lists;
* what becomes of a field is what its resolver came back with;
* the errors are those of the fields that failed, each with the path of its field, level by level
  and in order within a level;
* no two of them have one path;
* and each path can be followed through the response, and ends at null. -/
theorem errors_lead_to_null {settings : Settings} {ds : List (Declaration S C)}
    {registry : Registry S C} (hr : Registry.build settings ds = .ok registry) (world : World S)
    (schedule : Schedule) (root : S) {fields : List Field} (hd : Field.Distinct fields)
    (context : C) {resolved : Resolved S C}
    (hresolved : execute world registry schedule root fields context = .ok resolved) :
    let levels := levels world registry context schedule root fields
    let errors := resolved.response.errors
    Follow (Occurrence.ofObject fields root []) levels ∧
    (∀ l ∈ levels,
      l.outcomes = l.tasks.map (Level.sharedOutcome world registry context l.tasks)) ∧
    errors = levels.flatMap ResolvedLevel.failures ∧
    (errors.map FieldError.path).Nodup ∧
    ∀ e ∈ errors, resolved.response.data.follow? e.path = some .null := by
  intro levels errors
  have hsound := Registry.sound_build hr
  obtain ⟨_, hfollow, hcalled⟩ := levelsFrom_spec world context schedule hsound
    (Field.levels fields) 1 (between_begin hsound root fields)
  have hfirst : (begin registry root fields : State S C).placement.occurrences
      = Occurrence.ofObject fields root [] :=
    Placement.occurrences_schedule Draft.root root [] fields ⟨Draft.empty, [], []⟩
  rw [hfirst] at hfollow
  have hbegin : (begin registry root fields : State S C).placement.errors = [] :=
    Placement.errors_schedule Draft.root root [] fields ⟨Draft.empty, [], []⟩
  have herrors := errors_resolveLevels world registry context schedule (Field.levels fields) 1
    (begin registry root fields)
  rw [hbegin, List.nil_append] at herrors
  obtain ⟨tasks, hrouted⟩ := routed_resolveLevels world registry context schedule
    (Field.levels fields) 1 (routed_begin registry hd root)
  obtain ⟨hpaths, hnull⟩ := hrouted.errors_spec
  unfold execute at hresolved
  dsimp only at hresolved
  split at hresolved
  · cases hresolved
  · cases hresolved
    exact ⟨hfollow, fun l hl => (hcalled l hl).outcomes, herrors, hpaths, hnull⟩

/-- a function that gives the author of a post, one post at a time, and has lost that of one. -/
def lostAuthor : Resolver Nat Unit :=
  .simple ⟨false, false⟩ fun call =>
    .ready (if call.input = 11 then .error (.message "lost") else .ok (.object (call.input / 10)))

/-- the author that was lost is missed under both names, in the second item of the list. -/
theorem errors_lead_to_null_of_shelf :
    ∃ registry resolved, Registry.build Settings.default [.plain "Post" "author" lostAuthor]
        = .ok registry ∧
      execute shelf registry Schedule.immediate 0 shelfFields () = .ok resolved ∧
      resolved.response.errors.map FieldError.path =
        [[.field "posts", .index 1, .field "author"], [.field "posts", .index 1, .field "by"]] ∧
      ∀ e ∈ resolved.response.errors, resolved.response.data.follow? e.path = some .null := by
  have hbuild : ∃ registry : Registry Nat Unit,
      Registry.build Settings.default [.plain "Post" "author" lostAuthor] = .ok registry := ⟨_, rfl⟩
  obtain ⟨registry, hr⟩ := hbuild
  have hexecute : ∃ resolved,
      execute shelf registry Schedule.immediate 0 shelfFields () = .ok resolved ∧
      resolved.response.errors.map FieldError.path =
        [[.field "posts", .index 1, .field "author"], [.field "posts", .index 1, .field "by"]] := by
    cases hr
    exact ⟨_, rfl, rfl⟩
  obtain ⟨resolved, hresolved, hpaths⟩ := hexecute
  have hleaf : Field.Distinct [] := .intro List.nodup_nil fun f hf => by cases hf
  have hname : Field.Distinct (Field.chain ["name"] []) :=
    .intro (by decide) fun f hf => by
      rw [List.mem_singleton.mp hf]
      exact hleaf
  have hdistinct : Field.Distinct shelfFields := by
    refine .intro (by decide) fun f hf => ?_
    rw [List.mem_singleton.mp hf]
    refine .intro (by decide) fun g hg => ?_
    rcases List.mem_cons.mp hg with rfl | hg
    · exact hname
    · rw [List.mem_singleton.mp hg]
      exact hleaf
  obtain ⟨_, _, _, _, hnull⟩ :=
    errors_lead_to_null hr shelf Schedule.immediate 0 hdistinct () hresolved
  exact ⟨registry, resolved, hr, hresolved, hpaths, hnull⟩

end Query
end Batchwise
