import Batchwise.Proofs.Query.DepthFirst
import Batchwise.Proofs.Response.Draft

/-!
# What placing does to a draft

Placing an answer fills one pending slot.  Objects in it leave holes for their fields, and the
fields become tasks; with the documents of the new tasks in the holes, the slot shows the document
of the answer.

* `Placement.Covers`    the holes of tasks show what the tasks will come to;
* `Placement.Placed`    slots were filled, and new tasks wait at new holes;
* `Placement.schedule_spec`, `place_spec`, `placeOutcome_spec`   one function at a time;
* `Placement.Drafted`   the draft shows the expected document wherever holes are covered;
* `Placement.drafted_placeAll`   which stays true when all tasks of a level are placed.

The document of a field is a parameter `value` here: all that matters is that an object is the
object of its fields' values.
-/

namespace Batchwise

namespace Placement

variable {S : Type}

/-! ### tasks at holes -/

/-- tasks wait at pending slots of their own, from number `first` on. -/
structure Waiting (d : Draft) (first : Nat) (tasks : List (FieldTask S)) : Prop where
  pending : ∀ t ∈ tasks, d.slots[t.slot]? = some .pending
  first_le : ∀ t ∈ tasks, first ≤ t.slot
  nodup : (tasks.map FieldTask.slot).Nodup

namespace Waiting

variable {d d' : Draft} {first first' : Nat} {tasks tasks' : List (FieldTask S)}

theorem nil (d : Draft) (first : Nat) : Waiting d first ([] : List (FieldTask S)) :=
  ⟨fun _ h => (by cases h), fun _ h => (by cases h), List.nodup_nil⟩

theorem lt_size (h : Waiting d first tasks) {t : FieldTask S} (ht : t ∈ tasks) :
    t.slot < d.slots.size :=
  (Array.getElem?_eq_some_iff.mp (h.pending t ht)).1

theorem mono (h : Waiting d first tasks) (hle : first' ≤ first) : Waiting d first' tasks :=
  ⟨h.pending, fun t ht => Nat.le_trans hle (h.first_le t ht), h.nodup⟩

theorem grows {filled : List Nat} (h : Waiting d first tasks) (hg : d.Grows d' filled)
    (hnot : ∀ t ∈ tasks, t.slot ∉ filled) : Waiting d' first tasks :=
  ⟨fun t ht => hg.pending (h.pending t ht) (hnot t ht), h.first_le, h.nodup⟩

theorem append (h : Waiting d first tasks) (h' : Waiting d first' tasks')
    (hlt : ∀ t ∈ tasks, t.slot < first') (hle : first ≤ first') :
    Waiting d first (tasks ++ tasks') := by
  refine ⟨fun t ht => ?_, fun t ht => ?_, ?_⟩
  · exact (List.mem_append.mp ht).elim (h.pending t) (h'.pending t)
  · exact (List.mem_append.mp ht).elim (h.first_le t) (h'.mono hle |>.first_le t)
  · rw [List.map_append, List.nodup_append]
    refine ⟨h.nodup, h'.nodup, fun a ha b hb hab => ?_⟩
    obtain ⟨t, ht, rfl⟩ := List.mem_map.mp ha
    obtain ⟨t', ht', rfl⟩ := List.mem_map.mp hb
    have hlt' := hlt t ht
    have hle' := h'.first_le t' ht'
    omega

/-- the first of some tasks has a slot of its own. -/
theorem of_cons {t : FieldTask S} (h : Waiting d first (t :: tasks)) :
    (∀ u ∈ tasks, u.slot ≠ t.slot) ∧ Waiting d first tasks := by
  obtain ⟨hnot, hnodup⟩ : t.slot ∉ tasks.map FieldTask.slot ∧ (tasks.map FieldTask.slot).Nodup :=
    List.nodup_cons.mp h.nodup
  refine ⟨fun u hu heq => hnot (heq ▸ List.mem_map_of_mem hu), ?_, ?_, hnodup⟩
  · exact fun u hu => h.pending u (List.mem_cons_of_mem t hu)
  · exact fun u hu => h.first_le u (List.mem_cons_of_mem t hu)

end Waiting

/-- slots were filled, and new tasks wait at new slots. -/
structure Placed (p p' : Placement S) (filled : List Nat) (new : List (FieldTask S)) : Prop where
  tasks_eq : p'.tasks = p.tasks ++ new
  grows : p.draft.Grows p'.draft filled
  waiting : Waiting p'.draft p.draft.slots.size new

namespace Placed

variable {p p' p'' : Placement S} {filled filled' : List Nat} {new new' : List (FieldTask S)}

theorem trans (h : Placed p p' filled new) (h' : Placed p' p'' filled' new')
    (hnot : ∀ t ∈ new, t.slot ∉ filled') :
    Placed p p'' (filled ++ filled') (new ++ new') := by
  refine ⟨?_, h.grows.trans h'.grows, ?_⟩
  · rw [h'.tasks_eq, h.tasks_eq, List.append_assoc]
  · exact (h.waiting.grows h'.grows hnot).append h'.waiting (fun t ht => h.waiting.lt_size ht)
      h.grows.size_le

/-- one task is placed: the others wait as before, and the new ones with them. -/
theorem waiting_rest {t : FieldTask S} {ts : List (FieldTask S)}
    (h : Waiting p.draft 0 (t :: ts ++ p.tasks)) (hplaced : Placed p p' [t.slot] new) :
    Waiting p'.draft 0 (ts ++ p'.tasks) := by
  obtain ⟨hnot, hold⟩ := h.of_cons
  rw [hplaced.tasks_eq, ← List.append_assoc]
  refine (hold.grows hplaced.grows fun u hu hm => hnot u hu ?_).append hplaced.waiting
    (fun u hu => hold.lt_size hu) (Nat.zero_le _)
  exact List.mem_singleton.mp hm

/-- a slot is filled, and those behind it wait as before. -/
theorem pending_behind {slot n : Nat} (h : Placed p p' [slot] new)
    (hslots : ∀ i ∈ List.range' slot (n + 1), p.draft.slots[i]? = some .pending) :
    ∀ i ∈ List.range' (slot + 1) n, p'.draft.slots[i]? = some .pending := by
  intro i hi
  refine h.grows.pending (hslots i (List.mem_cons_of_mem _ hi)) fun hm => ?_
  have heq := List.mem_singleton.mp hm
  have hle := (List.mem_range'_1.mp hi).1
  omega

theorem restrict (h : Placed p p' filled new)
    (hnew : ∀ i ∈ filled, i < p.draft.slots.size → i ∈ filled') : Placed p p' filled' new :=
  ⟨h.tasks_eq, h.grows.restrict hnew, h.waiting⟩

theorem fill (p : Placement S) (hp : p.draft.Closed) {slot : Nat} (value : Slot)
    (h : slot < p.draft.slots.size)
    (hrefs : ∀ j ∈ value.refs, slot < j ∧ j < p.draft.slots.size) :
    Placed p { p with draft := p.draft.fill slot value } [slot] [] :=
  ⟨(List.append_nil _).symm, Draft.grows_fill hp h hrefs, Waiting.nil _ _⟩

end Placed

/-! ### what stands in the holes -/

section

variable (value : Field → S → List PathSegment → Rendered)

/-- what a task will come to. -/
def valueOf (t : FieldTask S) : Rendered := value t.field t.source t.path

/-- the holes of tasks show what the tasks will come to. -/
def Covers (hole : Nat → Document) (tasks : List (FieldTask S)) : Prop :=
  ∀ t ∈ tasks, hole t.slot = (valueOf value t).1

/-- the fields of an object with their values, each under its output name. -/
def membersOf (fields : List Field) (source : S) (path : List PathSegment) :
    List (String × Rendered) :=
  fields.map fun f => (f.outputName, value f source (path ++ [.field f.outputName]))

/-- the object of some fields. -/
def objectWith (fields : List Field) (source : S) (path : List PathSegment) : Rendered :=
  DepthFirst.objectOf (membersOf value fields source path)

end

variable {value : Field → S → List PathSegment → Rendered}

theorem covers_refill {d : Draft} {filled : List Nat} {hole : Nat → Document}
    {tasks : List (FieldTask S)} (h : Covers value hole tasks)
    (hnot : ∀ t ∈ tasks, t.slot ∉ filled) : Covers value (d.refill filled hole) tasks :=
  fun t ht => (Draft.refill_of_notMem (hnot t ht)).trans (h t ht)

theorem Covers.of_append {hole : Nat → Document} {ts us : List (FieldTask S)}
    (h : Covers value hole (ts ++ us)) : Covers value hole ts ∧ Covers value hole us :=
  ⟨fun t ht => h t (List.mem_append_left us ht), fun t ht => h t (List.mem_append_right ts ht)⟩

/-! ### fields of an object -/

/-- the tasks of the fields of an object, at slots from `first` on. -/
def fieldTasks (source : S) (path : List PathSegment) : (first : Nat) → List Field →
    List (FieldTask S)
  | _, [] => []
  | first, f :: fs => ⟨first, source, f, path ++ [.field f.outputName]⟩ ::
      fieldTasks source path (first + 1) fs

/-- the member of an object that a task is for. -/
def memberSlot (t : FieldTask S) : String × Nat := (t.field.outputName, t.slot)

theorem mem_fields_of_fieldTasks {source : S} {path : List PathSegment} {first : Nat}
    {fs : List Field} {t : FieldTask S} (h : t ∈ fieldTasks source path first fs) :
    t.field ∈ fs := by
  induction fs generalizing first with
  | nil => cases h
  | cons f fs ih =>
    rcases List.mem_cons.mp h with rfl | h
    · exact List.mem_cons_self
    · exact List.mem_cons_of_mem _ (ih h)

theorem map_fieldTasks {A : Type} (g : Field → S → List PathSegment → A) (source : S)
    (path : List PathSegment) (first : Nat) (fs : List Field) :
    (fieldTasks source path first fs).map (fun t => g t.field t.source t.path)
      = fs.map fun f => g f source (path ++ [.field f.outputName]) := by
  induction fs generalizing first with
  | nil => rfl
  | cons f fs ih => exact congrArg (List.cons _) (ih (first + 1))

/-- each field gets a slot of its own behind all others, as a member of the object. -/
theorem schedule_spec (parent : Nat) (source : S) (path : List PathSegment) (fs : List Field)
    (p : Placement S) (hp : p.draft.Closed) {members : List (String × Nat)}
    (hparent : p.draft.slots[parent]? = some (.object members)) :
    Placed p (schedule parent source path fs p) [parent]
        (fieldTasks source path p.draft.slots.size fs) ∧
      (schedule parent source path fs p).errors = p.errors ∧
      (schedule parent source path fs p).draft.slots[parent]? = some (.object
        (members ++ (fieldTasks source path p.draft.slots.size fs).map memberSlot)) := by
  induction fs generalizing p members with
  | nil =>
    refine ⟨⟨(List.append_nil _).symm, ?_, Waiting.nil _ _⟩, rfl, ?_⟩
    · exact (Draft.Grows.refl hp).restrict fun _ h => by cases h
    · show p.draft.slots[parent]? = some (.object (members ++ []))
      rw [List.append_nil]
      exact hparent
  | cons f fs ih =>
    have hlt := (Array.getElem?_eq_some_iff.mp hparent).1
    let size := p.draft.slots.size
    let task : FieldTask S := ⟨size, source, f, path ++ [.field f.outputName]⟩
    let entry : Slot := .object (members ++ [(f.outputName, size)])
    let p₁ : Placement S := ⟨p.draft.reserve.fill parent entry, p.tasks ++ [task], p.errors⟩
    have hunfold : schedule parent source path (f :: fs) p = schedule parent source path fs p₁ := by
      rw [schedule, Draft.addEntry_eq parent f.outputName hparent]
    have hreserve := Draft.grows_reserve hp
    have hlt' : parent < p.draft.reserve.slots.size := by
      rw [Draft.size_reserve]
      omega
    have hrefs : ∀ j ∈ entry.refs, parent < j ∧ j < p.draft.reserve.slots.size := by
      intro j hj
      have hj' : j ∈ (members ++ [(f.outputName, size)]).map Prod.snd := hj
      rw [List.map_append, List.mem_append, List.map_singleton, List.mem_singleton] at hj'
      rw [Draft.size_reserve]
      rcases hj' with hj' | rfl
      · obtain ⟨hpj, hjlt⟩ := hp parent _ hparent j hj'
        exact ⟨hpj, Nat.lt_succ_of_lt hjlt⟩
      · exact ⟨hlt, Nat.lt_succ_self _⟩
    have hfill := Draft.grows_fill hreserve.closed hlt' hrefs
    have hpending : p₁.draft.slots[size]? = some .pending :=
      hfill.pending (Draft.getElem?_reserve_new p.draft) fun h => by
        have heq := List.mem_singleton.mp h
        omega
    have hsize₁ : p₁.draft.slots.size = size + 1 :=
      (Draft.size_fill _ parent entry).trans (Draft.size_reserve p.draft)
    have hplaced : Placed p p₁ [parent] [task] := by
      refine ⟨rfl, hreserve.trans hfill, ?_, ?_, List.pairwise_singleton _ _⟩
      · intro t ht
        rw [List.mem_singleton.mp ht]
        exact hpending
      · intro t ht
        apply Nat.le_of_eq
        rw [List.mem_singleton.mp ht]
    have hparent₁ : p₁.draft.slots[parent]? = some entry := Draft.getElem?_fill_self hlt' entry
    obtain ⟨hrest, herrors, hmembers⟩ := ih p₁ hplaced.grows.closed hparent₁
    rw [hsize₁] at hrest hmembers
    rw [hunfold]
    refine ⟨?_, herrors, ?_⟩
    · refine (hplaced.trans hrest ?_).restrict ?_
      · intro t ht h
        rw [List.mem_singleton.mp ht] at h
        have heq : size = parent := List.mem_singleton.mp h
        omega
      · intro i hi _
        exact (List.mem_append.mp hi).elim id id
    · rw [hmembers, List.append_assoc]
      rfl

/-! ### answers -/

/-- what a task of a field adds to the errors. -/
def errorsOf (value : Field → S → List PathSegment → Rendered) (tasks : List (FieldTask S)) :
    List FieldError :=
  tasks.flatMap fun t => (valueOf value t).2

theorem errorsOf_append (value : Field → S → List PathSegment → Rendered)
    (ts us : List (FieldTask S)) :
    errorsOf value (ts ++ us) = errorsOf value ts ++ errorsOf value us :=
  List.flatMap_append

/-- slots were filled with documents: with the new holes covered the slots show the documents, and
the new tasks account for the errors in them. -/
structure Shows (value : Field → S → List PathSegment → Rendered) (fields : List Field)
    (p p' : Placement S) (slots : List Nat) (rs : List Rendered) (new : List (FieldTask S)) :
    Prop extends Placed p p' slots new where
  errors_eq : p'.errors = p.errors
  shows : ∀ hole, Covers value hole new → slots.map (p'.draft.render hole) = rs.map Prod.fst
  errors_new : errorsOf value new = rs.flatMap Prod.snd
  fields_new : ∀ t ∈ new, t.field ∈ fields

theorem shows_constant (fields : List Field) (p : Placement S) (hp : p.draft.Closed) {slot : Nat}
    (h : slot < p.draft.slots.size) (constant : Slot) (hpending : constant ≠ .pending)
    (hrefs : constant.refs = []) :
    Shows value fields p { p with draft := p.draft.fill slot constant } [slot]
      [(Draft.slotDocument (fun _ => .null) constant, [])] [] := by
  have hplaced := Placed.fill p hp constant h fun j hj => by
    rw [hrefs] at hj
    cases hj
  refine ⟨hplaced, rfl, fun hole _ => ?_, rfl, fun _ ht => by cases ht⟩
  show [(p.draft.fill slot constant).render hole slot] = _
  rw [Draft.render_of_some hplaced.grows.closed hpending (Draft.getElem?_fill_self h constant)]
  have hdoc : Draft.slotDocument ((p.draft.fill slot constant).render hole) constant
      = Draft.slotDocument (fun _ => .null) constant := Draft.slotDocument_congr fun j hj => by
    rw [hrefs] at hj
    cases hj
  exact congrArg (fun j => [j]) hdoc

theorem shows_schedule (fields : List Field) (source : S) (slot : Nat) (path : List PathSegment)
    (p : Placement S) (hp : p.draft.Closed) (h : p.draft.slots[slot]? = some (.object [])) :
    Shows value fields p (schedule slot source path fields p) [slot]
      [objectWith value fields source path]
      (fieldTasks source path p.draft.slots.size fields) := by
  obtain ⟨hplaced, herrors, hmembers⟩ := schedule_spec slot source path fields p hp h
  refine ⟨hplaced, herrors, fun hole hcovers => ?_, ?_, fun t ht => mem_fields_of_fieldTasks ht⟩
  · refine congrArg (fun j => [j]) ?_
    rw [Draft.render_of_some hplaced.grows.closed (by simp) hmembers, List.nil_append, objectWith,
      DepthFirst.objectOf_eq]
    refine congrArg (fun es => Document.object (Entries.ofList es)) ?_
    rw [List.map_map]
    have hholes : ((fieldTasks source path p.draft.slots.size fields).map
        fun t => (t.field.outputName, (schedule slot source path fields p).draft.render hole t.slot))
        = (fieldTasks source path p.draft.slots.size fields).map
            fun t => (t.field.outputName, (valueOf value t).1) :=
      List.map_congr_left fun t ht => by
        rw [Draft.render_of_pending (hplaced.waiting.pending t ht), hcovers t ht]
    refine hholes.trans ?_
    rw [membersOf, List.map_map]
    exact map_fieldTasks (fun f s q => (f.outputName, (value f s q).1)) source path _ fields
  · show (fieldTasks source path p.draft.slots.size fields).flatMap _ = _
    rw [List.flatMap_singleton]
    show _ = (membersOf value fields source path).flatMap _
    rw [membersOf, List.flatMap_def, List.flatMap_def, List.map_map]
    exact congrArg List.flatten
      (map_fieldTasks (fun f s q => (value f s q).2) source path _ fields)

theorem shows_object (fields : List Field) (source : S) (slot : Nat) (path : List PathSegment)
    (p : Placement S) (hp : p.draft.Closed) (h : slot < p.draft.slots.size) :
    Shows value fields p
      (schedule slot source path fields { p with draft := p.draft.setObject slot }) [slot]
      [objectWith value fields source path]
      (fieldTasks source path p.draft.slots.size fields) := by
  let p₁ : Placement S := { p with draft := p.draft.setObject slot }
  have hfill : Placed p p₁ [slot] [] :=
    Placed.fill p hp (.object []) h fun _ hj => by cases hj
  have hsize : p₁.draft.slots.size = p.draft.slots.size := Draft.size_fill _ _ _
  have hobject : Shows value fields p₁ (schedule slot source path fields p₁) [slot] _ _ :=
    shows_schedule fields source slot path p₁ hfill.grows.closed (Draft.getElem?_fill_self h _)
  rw [hsize] at hobject
  refine ⟨(hfill.trans hobject.toPlaced fun _ ht => by cases ht).restrict ?_, hobject.errors_eq,
    hobject.shows, hobject.errors_new, hobject.fields_new⟩
  exact fun i hi _ => (List.mem_append.mp hi).elim id id

theorem Shows.append {fields : List Field} {p p' p'' : Placement S} {slots slots' : List Nat}
    {rs rs' : List Rendered} {new new' : List (FieldTask S)}
    (h : Shows value fields p p' slots rs new) (h' : Shows value fields p' p'' slots' rs' new')
    (hslots : ∀ i ∈ slots, i < p.draft.slots.size)
    (hslots' : ∀ i ∈ slots', i < p.draft.slots.size ∧ p'.draft.slots[i]? = some .pending) :
    Shows value fields p p'' (slots ++ slots') (rs ++ rs') (new ++ new') := by
  have hnot : ∀ t ∈ new, t.slot ∉ slots' := fun t ht hm => by
    have hle := h.waiting.first_le t ht
    have hlt := (hslots' t.slot hm).1
    omega
  refine ⟨h.toPlaced.trans h'.toPlaced hnot, h'.errors_eq.trans h.errors_eq, ?_, ?_, ?_⟩
  · intro hole hcovers
    obtain ⟨hnew, hnew'⟩ := hcovers.of_append
    have hfirst : slots.map (p''.draft.render hole)
        = slots.map (p'.draft.render (p''.draft.refill slots' hole)) := by
      refine List.map_congr_left fun i hi => ?_
      exact h'.grows.render h.grows.closed (fun j hj _ => (hslots' j hj).2) hole
        (Nat.lt_of_lt_of_le (hslots i hi) h.grows.size_le)
    rw [List.map_append, List.map_append, hfirst, h.shows _ (covers_refill hnew hnot),
      h'.shows hole hnew']
  · rw [errorsOf_append, h.errors_new, h'.errors_new, List.flatMap_append]
  · exact fun t ht => (List.mem_append.mp ht).elim (h.fields_new t) (h'.fields_new t)

theorem shows_nil (fields : List Field) (p : Placement S) (hp : p.draft.Closed) :
    Shows value fields p p [] [] [] :=
  ⟨⟨(List.append_nil _).symm, Draft.Grows.refl hp, Waiting.nil _ _⟩, rfl, fun _ _ => rfl, rfl,
    fun _ ht => by cases ht⟩

/-- a list is placed: slots for its items are reserved behind all others, and filled. -/
theorem shows_list {fields : List Field} {p p' : Placement S} (hp : p.draft.Closed) {slot n : Nat}
    (h : slot < p.draft.slots.size) {rs : List Rendered} {new : List (FieldTask S)}
    (hitems : Shows value fields { p with draft := (p.draft.setList slot n).draft } p'
      (List.range' p.draft.slots.size n) rs new) :
    Shows value fields p p' [slot] [(.list (rs.map Prod.fst), rs.flatMap Prod.snd)] new := by
  let first := p.draft.slots.size
  let p₁ : Placement S := { p with draft := (p.draft.setList slot n).draft }
  obtain ⟨hgrows, hlist, _⟩ := Draft.grows_setList hp h n
  have hplaced : Placed p p₁ [slot] [] := ⟨(List.append_nil _).symm, hgrows, Waiting.nil _ _⟩
  have hnot : slot ∉ List.range' first n := fun hm => by
    have hle := (List.mem_range'_1.mp hm).1
    omega
  have hslot : p'.draft.slots[slot]? = some (.list (List.range' first n)) := by
    rw [hitems.grows.kept slot (Nat.lt_of_lt_of_le h hgrows.size_le) hnot]
    exact hlist
  refine ⟨(hplaced.trans hitems.toPlaced fun _ ht => by cases ht).restrict ?_, hitems.errors_eq,
    fun hole hcovers => ?_, ?_, hitems.fields_new⟩
  · intro i hi hold
    rcases List.mem_append.mp hi with hi | hi
    · exact hi
    · have hle := (List.mem_range'_1.mp hi).1
      omega
  · refine congrArg (fun j => [j]) ?_
    rw [Draft.render_of_some hitems.grows.closed (by simp) hslot]
    exact congrArg Document.list (hitems.shows hole hcovers)
  · rw [hitems.errors_new, List.flatMap_singleton]

mutual

theorem place_spec (fields : List Field) (slot : Nat) (path : List PathSegment) :
    (a : Answer S) → (p : Placement S) → p.draft.Closed → p.draft.slots[slot]? = some .pending →
    ∃ new, Shows value fields p (place fields slot path a p) [slot]
      [DepthFirst.answer (objectWith value fields) path a] new
  | .null, p, hp, hslot =>
    ⟨[], shows_constant fields p hp (Array.getElem?_eq_some_iff.mp hslot).1 .null
      (fun h => by cases h) rfl⟩
  | .scalar d, p, hp, hslot =>
    ⟨[], shows_constant fields p hp (Array.getElem?_eq_some_iff.mp hslot).1
      (.scalar (Document.ofDatum d)) (fun h => by cases h) rfl⟩
  | .object source, p, hp, hslot =>
    ⟨_, shows_object fields source slot path p hp (Array.getElem?_eq_some_iff.mp hslot).1⟩
  | .list as, p, hp, hslot => by
    have hlt := (Array.getElem?_eq_some_iff.mp hslot).1
    let p₁ : Placement S := { p with draft := (p.draft.setList slot as.length).draft }
    obtain ⟨hgrows, _, hpending⟩ := Draft.grows_setList hp hlt as.length
    obtain ⟨new, hitems⟩ :=
      placeItems_spec fields p.draft.slots.size path 0 as p₁ hgrows.closed hpending
    exact ⟨new, shows_list hp hlt hitems⟩

theorem placeItems_spec (fields : List Field) (slot : Nat) (path : List PathSegment)
    (index : Nat) : (as : List (Answer S)) → (p : Placement S) → p.draft.Closed →
    (∀ i ∈ List.range' slot as.length, p.draft.slots[i]? = some .pending) →
    ∃ new, Shows value fields p (placeItems fields slot path index as p)
      (List.range' slot as.length)
      (DepthFirst.items (objectWith value fields) path index as) new
  | [], p, hp, _ => ⟨[], shows_nil fields p hp⟩
  | a :: as, p, hp, hslots => by
    have hslot := hslots slot List.mem_cons_self
    obtain ⟨new, hfirst⟩ := place_spec fields slot (path ++ [.index index]) a p hp hslot
    have hpending := hfirst.pending_behind hslots
    obtain ⟨new', hrest⟩ := placeItems_spec fields (slot + 1) path (index + 1) as _
      hfirst.grows.closed hpending
    refine ⟨new ++ new', hfirst.append hrest (fun i hi => ?_) fun i hi => ⟨?_, hpending i hi⟩⟩
    · rw [List.mem_singleton.mp hi]
      exact (Array.getElem?_eq_some_iff.mp hslot).1
    · exact (Array.getElem?_eq_some_iff.mp (hslots i (List.mem_cons_of_mem _ hi))).1

end

/-! ### outcomes -/

/-- the values of fields come from their outcomes, and objects from the values of their fields. -/
def FromOutcomes (value : Field → S → List PathSegment → Rendered)
    (outcome : S → Field → FieldOutcome S) : Prop :=
  ∀ f source path, value f source path =
    DepthFirst.rendered (objectWith value f.subfields) path (outcome source f)

/-- the outcome of a task is placed: with the new holes covered its slot shows the value of the
task, whose errors are there or with the new tasks. -/
theorem placeOutcome_spec {outcome : S → Field → FieldOutcome S}
    (hvalue : FromOutcomes value outcome) (t : FieldTask S) (p : Placement S)
    (hp : p.draft.Closed) (ht : p.draft.slots[t.slot]? = some .pending) :
    ∃ new, let p' := placeOutcome t (outcome t.source t.field) p
      Placed p p' [t.slot] new ∧
      (∀ hole, Covers value hole new → p'.draft.render hole t.slot = (valueOf value t).1) ∧
      p'.errors ++ errorsOf value new = p.errors ++ (valueOf value t).2 ∧
      ∀ u ∈ new, u.field ∈ t.field.subfields := by
  have hval : valueOf value t = _ := hvalue t.field t.source t.path
  cases houtcome : outcome t.source t.field with
  | ok a =>
    rw [houtcome] at hval
    obtain ⟨new, h⟩ : ∃ new, Shows value t.field.subfields p _ [t.slot] _ new :=
      place_spec t.field.subfields t.slot t.path (a.getD .null) p hp ht
    refine ⟨new, h.toPlaced, fun hole hcovers => ?_, ?_, h.fields_new⟩
    · rw [hval]
      exact List.singleton_inj.mp (h.shows hole hcovers)
    · show (place t.field.subfields t.slot t.path (a.getD .null) p).errors ++ _ = _
      rw [h.errors_eq, h.errors_new, hval, List.flatMap_singleton]
      rfl
  | error failure =>
    rw [houtcome] at hval
    have h : Shows value t.field.subfields p _ [t.slot] _ [] :=
      shows_constant t.field.subfields p hp (Array.getElem?_eq_some_iff.mp ht).1 .null
        (fun h => by cases h) rfl
    refine ⟨[], ⟨h.tasks_eq, h.grows, h.waiting⟩, fun hole hcovers => ?_, ?_, h.fields_new⟩
    · rw [hval]
      exact List.singleton_inj.mp (h.shows hole hcovers)
    · rw [hval]
      exact List.append_nil _

/-! ### a level -/

/-- wherever the holes of the tasks are covered the draft shows the expected document; the errors
so far and those of the tasks are the expected ones. -/
structure Drafted (value : Field → S → List PathSegment → Rendered) (expected : Rendered)
    (p : Placement S) (tasks : List (FieldTask S)) : Prop where
  closed : p.draft.Closed
  root_lt : Draft.root < p.draft.slots.size
  waiting : Waiting p.draft 0 tasks
  shows : ∀ hole, Covers value hole tasks → p.draft.render hole Draft.root = expected.1
  errors_perm : (p.errors ++ errorsOf value tasks).Perm expected.2

theorem Drafted.finished {expected : Rendered} {p : Placement S} (h : Drafted value expected p []) :
    p.draft.document Draft.root = expected.1 ∧ p.errors.Perm expected.2 := by
  refine ⟨?_, ?_⟩
  · rw [Draft.document_eq_render]
    exact h.shows _ fun _ ht => by cases ht
  · have herrors := h.errors_perm
    rw [show errorsOf value ([] : List (FieldTask S)) = [] from rfl, List.append_nil] at herrors
    exact herrors

theorem Drafted.placeOutcome {outcome : S → Field → FieldOutcome S}
    (hvalue : FromOutcomes value outcome) {expected : Rendered} {p : Placement S}
    {t : FieldTask S} {ts : List (FieldTask S)} (h : Drafted value expected p (t :: ts ++ p.tasks)) :
    ∃ new, (placeOutcome t (outcome t.source t.field) p).tasks = p.tasks ++ new ∧
      Drafted value expected (placeOutcome t (outcome t.source t.field) p)
        (ts ++ (p.tasks ++ new)) ∧
      ∀ u ∈ new, u.field ∈ t.field.subfields := by
  have ht := h.waiting.pending t List.mem_cons_self
  obtain ⟨new, hplaced, hshows, herrors, hfields⟩ := placeOutcome_spec hvalue t p h.closed ht
  have hnot : ∀ u ∈ ts ++ p.tasks, u.slot ∉ [t.slot] := fun u hu hm =>
    h.waiting.of_cons.1 u hu (List.mem_singleton.mp hm)
  have hwaiting := hplaced.waiting_rest h.waiting
  rw [hplaced.tasks_eq] at hwaiting
  refine ⟨new, hplaced.tasks_eq, ⟨hplaced.grows.closed, ?_, hwaiting, fun hole hcovers => ?_, ?_⟩,
    hfields⟩
  · exact Nat.lt_of_lt_of_le h.root_lt hplaced.grows.size_le
  · rw [← List.append_assoc] at hcovers
    obtain ⟨hrest, hnew⟩ := hcovers.of_append
    rw [hplaced.grows.render h.closed (fun i hi _ => List.mem_singleton.mp hi ▸ ht) hole h.root_lt]
    refine h.shows _ fun u hu => ?_
    rcases List.mem_cons.mp hu with rfl | hu
    · rw [Draft.refill_of_mem (List.mem_singleton_self _)]
      exact hshows hole hnew
    · exact covers_refill hrest hnot u hu
  · refine List.Perm.trans ?_ h.errors_perm
    show (_ ++ errorsOf value (ts ++ (p.tasks ++ new))).Perm
      (p.errors ++ ((valueOf value t).2 ++ errorsOf value (ts ++ p.tasks)))
    rw [← List.append_assoc ts, errorsOf_append value (ts ++ p.tasks), ← List.append_assoc p.errors,
      ← herrors, List.append_assoc]
    exact List.Perm.append_left _ List.perm_append_comm

/-- **All tasks of a level are placed**, and their subfields are the tasks of the next one. -/
theorem drafted_placeAll {outcome : S → Field → FieldOutcome S}
    (hvalue : FromOutcomes value outcome) {expected : Rendered} (tasks : List (FieldTask S))
    {p : Placement S} (h : Drafted value expected p (tasks ++ p.tasks)) :
    ∃ new, let p' := placeAll tasks (tasks.map fun t => outcome t.source t.field) p
      p'.tasks = p.tasks ++ new ∧ Drafted value expected p' p'.tasks ∧
      ∀ u ∈ new, ∃ t ∈ tasks, u.field ∈ t.field.subfields := by
  induction tasks generalizing p with
  | nil => exact ⟨[], (List.append_nil _).symm, h, fun _ hu => by cases hu⟩
  | cons t ts ih =>
    obtain ⟨new, htasks, hdrafted, hnew⟩ := h.placeOutcome hvalue
    rw [← htasks] at hdrafted
    obtain ⟨new', htasks', hdrafted', hnew'⟩ := ih hdrafted
    refine ⟨new ++ new', ?_, hdrafted', fun u hu => ?_⟩
    · refine htasks'.trans ?_
      rw [htasks, List.append_assoc]
    · rcases List.mem_append.mp hu with hu | hu
      · exact ⟨t, List.mem_cons_self, hnew u hu⟩
      · obtain ⟨t', ht', hfield⟩ := hnew' u hu
        exact ⟨t', List.mem_cons_of_mem t ht', hfield⟩

end Placement
end Batchwise
