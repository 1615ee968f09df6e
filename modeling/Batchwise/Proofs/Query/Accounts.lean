import Batchwise.Proofs.Query.Failures
import Batchwise.Proofs.Response.Parts

/-!
# Why there is what there is in a slot

Placing an answer makes new slots, and every one of them is found below the slot of the answer: it
waits for a field of an object in the answer, or has a part of the answer in it.  So each slot of a
response has an account, from the first level to the last: it is the root, or a field waits for it,
or it has a part of what a field came to.

* `Answer.at?`            the part of an answer at a path, item by item;
* `Answer.Fills`          what is in a slot that an answer was written into;
* `Placement.Accounted`   the account of a slot below that of an answer: `accounted_place`;
* `Placement.Told`        the account of a slot of the whole response;
* `Placement.Tidy`        each slot has one, and a field that waits has a slot of its own:
                          `Tidy.placeAll`;
* `Placement.NullIn`      null comes of what a field came to;
* `Tidy.null`             and of nothing else but of fields that wait.
-/

namespace Batchwise

/-! ### answers in slots -/

namespace Answer

variable {S : Type}

/-- the part of an answer at a path of items. -/
def at? : List PathSegment → Answer S → Option (Answer S)
  | [], a => some a
  | .index n :: path, .list as => as[n]?.bind (at? path)
  | _, _ => none

/-- an answer that is no list has no part but itself. -/
theorem at?_leaf {a b : Answer S} {path : List PathSegment} (ha : ∀ as, a ≠ .list as)
    (h : a.at? path = some b) : path = [] ∧ b = a := by
  cases path with
  | nil => exact ⟨rfl, (Option.some.inj h).symm⟩
  | cons segment path =>
    cases a with
    | list as => exact absurd rfl (ha as)
    | _ => cases segment <;> cases h

/-- what is in a slot that the answer was written into. -/
inductive Fills : Answer S → Slot → Prop
  | null : Fills .null .null
  | scalar (v : Datum) : Fills (.scalar v) (.scalar (Document.ofDatum v))
  | object (source : S) (members : List (String × Nat)) : Fills (.object source) (.object members)
  | list (as : List (Answer S)) (items : List Nat) : Fills (.list as) (.list items)

theorem Fills.ne_pending {a : Answer S} {s : Slot} (h : a.Fills s) : s ≠ .pending := by
  cases h with
  | _ => simp

end Answer

namespace Placement

variable {S : Type}

theorem size_schedule (parent : Nat) (source : S) (path : List PathSegment) (fs : List Field)
    (p : Placement S) : (schedule parent source path fs p).draft.slots.size
      = p.draft.slots.size + fs.length := by
  induction fs generalizing p with
  | nil => rfl
  | cons f fs ih =>
    rw [schedule, ih, List.length_cons, Draft.size_addEntry]
    omega

/-- the slots of the fields of an object stand one behind the other. -/
theorem slots_fieldTasks (source : S) (path : List PathSegment) (first : Nat) (fs : List Field) :
    (fieldTasks source path first fs).map FieldTask.slot = List.range' first fs.length := by
  induction fs generalizing first with
  | nil => rfl
  | cons f fs ih => exact congrArg (List.cons first) (ih (first + 1))

/-! ### below the slot of an answer -/

/-- what is in slot `i`, at the end of a path below an answer that stands at `path`: it waits for a
field, or has a part of the answer. -/
inductive Stands (new : List (FieldTask S)) (path : List PathSegment) (a : Answer S)
    (rest : List PathSegment) (i : Nat) : Slot → Prop
  | waiting {t : FieldTask S} (ht : t ∈ new) (hslot : t.slot = i) (hpath : t.path = path ++ rest) :
      Stands new path a rest i .pending
  | part {b : Answer S} {s : Slot} (hat : a.at? rest = some b) (hs : b.Fills s) :
      Stands new path a rest i s

/-- slot `i` is found below the slot of an answer, and there is a reason for what is in it. -/
def Accounted (d : Draft) (new : List (FieldTask S)) (slot : Nat) (path : List PathSegment)
    (a : Answer S) (i : Nat) : Prop :=
  ∃ route rest s, d.Spells slot route rest i ∧ d.slots[i]? = some s ∧ Stands new path a rest i s

namespace Accounted

variable {d d' : Draft} {new new' : List (FieldTask S)} {slot i : Nat} {path : List PathSegment}
  {a : Answer S}

theorem self {s : Slot} (h : d.slots[slot]? = some s) (hs : a.Fills s) :
    Accounted d new slot path a slot := ⟨[], [], s, .here slot, h, .part rfl hs⟩

theorem mono (h : Accounted d new slot path a i) (hnew : ∀ t ∈ new, t ∈ new') :
    Accounted d new' slot path a i := by
  obtain ⟨route, rest, s, hspells, hs, hstands⟩ := h
  refine ⟨route, rest, s, hspells, hs, ?_⟩
  cases hstands with
  | waiting ht hslot hpath => exact .waiting (hnew _ ht) hslot hpath
  | part hat hfills => exact .part hat hfills

/-- an account stays while other slots are filled. -/
theorem grows {filled : List Nat} (h : Accounted d new slot path a i) (hg : d.Grows d' filled)
    (hfilled : ∀ i ∈ filled, i < d.slots.size → d.slots[i]? = some .pending)
    (hnot : ∀ t ∈ new, t.slot ∉ filled) : Accounted d' new slot path a i := by
  obtain ⟨route, rest, s, hspells, hs, hstands⟩ := h
  refine ⟨route, rest, s, hspells.grows hg hfilled, ?_, hstands⟩
  cases hstands with
  | waiting ht hslot _ => exact hg.pending hs (hslot ▸ hnot _ ht)
  | part _ hfills => exact Draft.Leads.kept hg hfilled hfills.ne_pending hs

/-- what is found below an item is found below the list. -/
theorem item {as : List (Answer S)} {items : List Nat} {n m : Nat}
    (h : Accounted d new m (path ++ [.index n]) a i) (hlist : d.slots[slot]? = some (.list items))
    (hm : items[n]? = some m) (ha : as[n]? = some a) :
    Accounted d new slot path (.list as) i := by
  obtain ⟨route, rest, s, hspells, hs, hstands⟩ := h
  refine ⟨n :: route, .index n :: rest, s, .step hlist ?_ hspells, hs, ?_⟩
  · rw [Slot.steps, List.getElem?_mapIdx, hm, Option.map_some]
  · cases hstands with
    | waiting ht hslot hpath =>
      rw [List.append_assoc] at hpath
      exact .waiting ht hslot hpath
    | part hat hfills =>
      refine .part ?_ hfills
      rw [Answer.at?, ha]
      exact hat

end Accounted

/-- a constant fills its slot, and there are no new ones. -/
theorem accounted_fill {d : Draft} {slot : Nat} (hslot : d.slots[slot]? = some .pending)
    {a : Answer S} {value : Slot} (hfills : a.Fills value) {new : List (FieldTask S)}
    {path : List PathSegment} {i : Nat} (hi : i = slot ∨ d.slots.size ≤ i)
    (hlt : i < (d.fill slot value).slots.size) :
    Accounted (d.fill slot value) new slot path a i := by
  have hself := Draft.getElem?_fill_self (Array.getElem?_eq_some_iff.mp hslot).1 value
  rw [Draft.size_fill] at hlt
  obtain rfl : i = slot := by omega
  exact .self hself hfills

/-- the slots of the fields of an object wait. -/
theorem accounted_schedule {fields : List Field} {slot : Nat} (path : List PathSegment) (source : S)
    {p : Placement S} (hp : p.draft.Closed) (hobject : p.draft.slots[slot]? = some (.object []))
    {i : Nat} (hi : i = slot ∨ p.draft.slots.size ≤ i)
    (hlt : i < (schedule slot source path fields p).draft.slots.size) :
    Accounted (schedule slot source path fields p).draft
      (fieldTasks source path p.draft.slots.size fields) slot path (.object source) i := by
  obtain ⟨hplaced, _, hmembers⟩ := schedule_spec slot source path fields p hp hobject
  rcases hi with rfl | hi
  · exact .self hmembers (.object source _)
  · rw [size_schedule] at hlt
    have hmem : i ∈ (fieldTasks source path p.draft.slots.size fields).map FieldTask.slot := by
      rw [slots_fieldTasks, List.mem_range'_1]
      exact ⟨hi, hlt⟩
    obtain ⟨t, ht, rfl⟩ := List.mem_map.mp hmem
    obtain ⟨k, hk⟩ := List.mem_iff_getElem?.mp ht
    refine ⟨[k], [.field t.field.outputName], .pending, .step hmembers ?_ (.here _),
      hplaced.waiting.pending t ht, .waiting ht rfl (path_of_fieldTasks ht)⟩
    rw [Slot.steps, List.nil_append, List.map_map, List.getElem?_map, hk]
    rfl

mutual

/-- **Every new slot is found below that of the answer.** -/
theorem accounted_place (fields : List Field) (slot : Nat) (path : List PathSegment) :
    (a : Answer S) → (p : Placement S) → p.draft.Closed → p.draft.slots[slot]? = some .pending →
    (new : List (FieldTask S)) → (place fields slot path a p).tasks = p.tasks ++ new →
    ∀ i, i = slot ∨ p.draft.slots.size ≤ i → i < (place fields slot path a p).draft.slots.size →
    Accounted (place fields slot path a p).draft new slot path a i
  | .null, _, _, hslot, _, _ => fun _ hi hlt => accounted_fill hslot .null hi hlt
  | .scalar v, _, _, hslot, _, _ => fun _ hi hlt => accounted_fill hslot (.scalar v) hi hlt
  | .object source, p, hp, hslot, new, hnew => by
    have hlt := (Array.getElem?_eq_some_iff.mp hslot).1
    let p₁ : Placement S := { p with draft := p.draft.setObject slot }
    obtain ⟨hclosed, hobject, hsize⟩ : p₁.draft.Closed ∧ _ := Draft.setObject_spec hp hlt
    obtain ⟨hplaced, _⟩ := schedule_spec slot source path fields p₁ hclosed hobject
    obtain rfl : new = fieldTasks source path p₁.draft.slots.size fields :=
      List.append_cancel_left (hnew.symm.trans hplaced.tasks_eq)
    intro i hi hlt
    rw [← hsize] at hi
    exact accounted_schedule path source hclosed hobject hi hlt
  | .list as, p, hp, hslot, new, hnew => by
    have hlt := (Array.getElem?_eq_some_iff.mp hslot).1
    obtain ⟨hgrows, hlist, hitems⟩ := Draft.grows_setList hp hlt as.length
    let first := p.draft.slots.size
    let p₁ : Placement S := { p with draft := (p.draft.setList slot as.length).draft }
    have hsize : p₁.draft.slots.size = first + as.length :=
      (Draft.size_fill _ _ _).trans (Draft.size_reserveMany _ _)
    obtain ⟨_, hplaced⟩ := placed_placeItems fields first path 0 as p₁ hgrows.closed hitems
    have hkept : (place fields slot path (.list as) p).draft.slots[slot]?
        = some (.list (List.range' first as.length)) :=
      Draft.Leads.kept hplaced.grows (fun i hi _ => hitems i hi) (by simp) hlist
    intro i hi hlt'
    rcases hi with rfl | hi
    · exact .self hkept (.list as _)
    · have hbelow : i ∈ List.range' first as.length ∨ p₁.draft.slots.size ≤ i := by
        rw [List.mem_range'_1, hsize]
        omega
      obtain ⟨n, a, ha, haccount⟩ := accounted_placeItems fields first path 0 as p₁ hgrows.closed
        hitems new hnew i hbelow hlt'
      rw [Nat.zero_add] at haccount
      have hn : n < as.length := (List.getElem?_eq_some_iff.mp ha).1
      refine haccount.item hkept ?_ ha
      rw [List.getElem?_range' hn, Nat.one_mul]

theorem accounted_placeItems (fields : List Field) (slot : Nat) (path : List PathSegment)
    (index : Nat) : (as : List (Answer S)) → (p : Placement S) → p.draft.Closed →
    (∀ i ∈ List.range' slot as.length, p.draft.slots[i]? = some .pending) →
    (new : List (FieldTask S)) → (placeItems fields slot path index as p).tasks = p.tasks ++ new →
    ∀ i, i ∈ List.range' slot as.length ∨ p.draft.slots.size ≤ i →
    i < (placeItems fields slot path index as p).draft.slots.size →
    ∃ n a, as[n]? = some a ∧ Accounted (placeItems fields slot path index as p).draft new (slot + n)
      (path ++ [.index (index + n)]) a i
  | [], p, _, _, new, _ => by
    intro i hi hlt
    rcases hi with hi | hi
    · cases hi
    · exact absurd hlt (Nat.not_lt.mpr hi)
  | a :: as, p, hp, hslots, new, hnew => by
    have hslot := hslots slot List.mem_cons_self
    let p₁ := place fields slot (path ++ [.index index]) a p
    obtain ⟨new₁, new₂, rfl, hfirst, hpending, hrest⟩ :=
      placed_placeItems_cons fields slot path index a as p hp hslots hnew
    intro i hi hlt
    by_cases hhere : (i = slot ∨ p.draft.slots.size ≤ i) ∧ i < p₁.draft.slots.size
    · -- what the first item made stays as the others are placed
      have haccount := accounted_place fields slot (path ++ [.index index]) a p hp hslot new₁
        hfirst.tasks_eq i hhere.1 hhere.2
      refine ⟨0, a, rfl, ?_⟩
      refine (haccount.grows hrest.grows (fun i hi _ => hpending i hi) fun t ht hm => ?_).mono
        fun t ht => List.mem_append_left new₂ ht
      have hle := hfirst.waiting.first_le t ht
      have hold := (Array.getElem?_eq_some_iff.mp (hslots t.slot (List.mem_cons_of_mem _ hm))).1
      omega
    · have hsize := hfirst.grows.size_le
      have hother : i ∈ List.range' (slot + 1) as.length ∨ p₁.draft.slots.size ≤ i := by
        rcases hi with hi | hi
        · rcases List.mem_cons.mp hi with rfl | hi
          · have hold := (Array.getElem?_eq_some_iff.mp hslot).1
            omega
          · exact Or.inl hi
        · exact Or.inr (by omega)
      obtain ⟨n, b, hb, haccount⟩ := accounted_placeItems fields (slot + 1) path (index + 1) as p₁
        hfirst.grows.closed hpending new₂ hrest.tasks_eq i hother hlt
      rw [Nat.add_assoc, Nat.add_assoc, Nat.add_comm 1 n] at haccount
      exact ⟨n + 1, b, hb, haccount.mono fun t ht => List.mem_append_right new₁ ht⟩

end

/-! ### outcomes -/

/-- the answer that an outcome puts into the response: a field without a value is null there. -/
def shown : FieldOutcome S → Answer S
  | .ok a => a.getD .null
  | .error _ => .null

/-- an outcome is placed in the slot of its task, and every new slot has an account. -/
theorem accounted_placeOutcome (t : FieldTask S) (outcome : FieldOutcome S) (p : Placement S)
    (hp : p.draft.Closed) (ht : p.draft.slots[t.slot]? = some .pending) :
    ∃ new, Placed p (placeOutcome t outcome p) [t.slot] new ∧
      ∀ i, i = t.slot ∨ p.draft.slots.size ≤ i →
        i < (placeOutcome t outcome p).draft.slots.size →
        Accounted (placeOutcome t outcome p).draft new t.slot t.path (shown outcome) i := by
  cases outcome with
  | ok a =>
    obtain ⟨new, hplaced, _⟩ :=
      placed_place t.field.subfields t.slot t.path (a.getD .null) p hp ht
    exact ⟨new, hplaced, accounted_place t.field.subfields t.slot t.path (a.getD .null) p hp ht new
      hplaced.tasks_eq⟩
  | error failure =>
    have hlt := (Array.getElem?_eq_some_iff.mp ht).1
    obtain ⟨htasks, hgrows, hwaiting⟩ := Placed.fill p hp .null hlt fun j hj => by cases hj
    -- a failure leaves in the draft what null does
    exact ⟨[], ⟨htasks, hgrows, hwaiting⟩,
      accounted_place t.field.subfields t.slot t.path .null p hp ht [] (List.append_nil _).symm⟩

/-! ### the whole response -/

/-- the reason for what is in slot `i` at the end of a path: it is the object of the whole response,
or it waits for a field, or it has a part of what a field came to. -/
inductive Told (tasks : List (FieldTask S)) (done : List (FieldTask S × FieldOutcome S)) (i : Nat)
    (path : List PathSegment) : Slot → Prop
  | root (members : List (String × Nat)) (hi : i = Draft.root) : Told tasks done i path
      (.object members)
  | waiting {t : FieldTask S} (ht : t ∈ tasks) (hslot : t.slot = i) (hpath : t.path = path) :
      Told tasks done i path .pending
  | part {t : FieldTask S} {outcome : FieldOutcome S} {rest : List PathSegment} {b : Answer S}
      {s : Slot} (hdone : (t, outcome) ∈ done) (hpath : path = t.path ++ rest)
      (hat : (shown outcome).at? rest = some b) (hs : b.Fills s) : Told tasks done i path s

/-- a field that waits has a slot of its own, and every slot is found below the root and has a
reason for what is in it. -/
structure Tidy (p : Placement S) (tasks : List (FieldTask S))
    (done : List (FieldTask S × FieldOutcome S)) : Prop where
  closed : p.draft.Closed
  waiting : Waiting p.draft 0 tasks
  told : ∀ i < p.draft.slots.size, ∃ route path s, p.draft.Spells Draft.root route path i ∧
    p.draft.slots[i]? = some s ∧ Told tasks done i path s

namespace Tidy

variable {p : Placement S} {t : FieldTask S} {ts tasks : List (FieldTask S)}
  {done : List (FieldTask S × FieldOutcome S)}

/-- the slot of a field that waits is found at the path of the field. -/
theorem spells (h : Tidy p tasks done) (ht : t ∈ tasks) :
    ∃ route, p.draft.Spells Draft.root route t.path t.slot := by
  have hpending := h.waiting.pending t ht
  obtain ⟨route, path, s, hspells, hs, htold⟩ := h.told t.slot (h.waiting.lt_size ht)
  rw [hpending] at hs
  cases hs
  cases htold with
  | waiting ht' hslot hpath =>
    obtain rfl := List.inj_on_of_nodup_map h.waiting.nodup ht' ht hslot
    exact ⟨route, hpath ▸ hspells⟩
  | part _ _ _ hfills => exact absurd rfl hfills.ne_pending

/-- **The slots that are pending are those of the fields that wait.** -/
theorem pending_iff (h : Tidy p tasks done) (i : Nat) :
    p.draft.slots[i]? = some .pending ↔ i ∈ tasks.map FieldTask.slot := by
  constructor
  · intro hpending
    obtain ⟨_, _, s, _, hs, htold⟩ := h.told i (Array.getElem?_eq_some_iff.mp hpending).1
    rw [hpending] at hs
    cases hs
    cases htold with
    | waiting ht hslot _ => exact hslot ▸ List.mem_map_of_mem ht
    | part _ _ _ hfills => exact absurd rfl hfills.ne_pending
  · intro hmem
    obtain ⟨t, ht, rfl⟩ := List.mem_map.mp hmem
    exact h.waiting.pending t ht

/-- one outcome is placed: the slots below that of the task have their reasons in the outcome, and
the others keep theirs. -/
theorem placeOutcome (h : Tidy p (t :: ts ++ p.tasks) done) (outcome : FieldOutcome S) :
    Tidy (Placement.placeOutcome t outcome p) (ts ++ (Placement.placeOutcome t outcome p).tasks)
      (done ++ [(t, outcome)]) := by
  have hpending := h.waiting.pending t List.mem_cons_self
  obtain ⟨new, hplaced, haccounted⟩ := accounted_placeOutcome t outcome p h.closed hpending
  have hfilled : ∀ i ∈ [t.slot], i < p.draft.slots.size → p.draft.slots[i]? = some .pending := by
    intro i hi _
    rw [List.mem_singleton.mp hi]
    exact hpending
  refine ⟨hplaced.grows.closed, hplaced.waiting_rest h.waiting, fun i hi => ?_⟩
  by_cases hbelow : i = t.slot ∨ p.draft.slots.size ≤ i
  · obtain ⟨before, hbefore⟩ := h.spells List.mem_cons_self
    obtain ⟨route, rest, s, hspells, hs, hstands⟩ := haccounted i hbelow hi
    refine ⟨before ++ route, t.path ++ rest, s,
      (hbefore.grows hplaced.grows hfilled).append hspells, hs, ?_⟩
    cases hstands with
    | waiting hu hslot hpath =>
      refine .waiting (List.mem_append_right ts ?_) hslot hpath
      rw [hplaced.tasks_eq]
      exact List.mem_append_right p.tasks hu
    | part hat hfills =>
      exact .part (List.mem_append_right done (List.mem_singleton_self _)) rfl hat hfills
  · rw [not_or, Nat.not_le] at hbelow
    obtain ⟨route, path, s, hspells, hs, htold⟩ := h.told i hbelow.2
    refine ⟨route, path, s, hspells.grows hplaced.grows hfilled, ?_, ?_⟩
    · rw [hplaced.grows.kept i hbelow.2 fun hm => hbelow.1 (List.mem_singleton.mp hm), hs]
    · cases htold with
      | root members hroot => exact .root members hroot
      | waiting hu hslot hpath =>
        refine .waiting ?_ hslot hpath
        rcases List.mem_cons.mp hu with rfl | hu
        · exact absurd hslot.symm hbelow.1
        · rw [hplaced.tasks_eq, ← List.append_assoc]
          exact List.mem_append_left new hu
      | part hdone hpath hat hfills =>
        exact .part (List.mem_append_left _ hdone) hpath hat hfills

/-- **The outcomes of a level are placed**, and every slot has its reason. -/
theorem placeAll (ts : List (FieldTask S)) (outcomes : List (FieldOutcome S))
    (hlength : outcomes.length = ts.length) (h : Tidy p (ts ++ p.tasks) done) :
    Tidy (Placement.placeAll ts outcomes p) (Placement.placeAll ts outcomes p).tasks
      (done ++ ts.zip outcomes) := by
  induction ts generalizing outcomes p done with
  | nil =>
    rw [List.zip_nil_left, List.append_nil]
    exact h
  | cons t ts ih =>
    cases outcomes with
    | nil => cases hlength
    | cons outcome outcomes =>
      have hrest := ih outcomes (Nat.succ.inj hlength) (h.placeOutcome outcome)
      rw [List.append_assoc] at hrest
      exact hrest

end Tidy

/-! ### null -/

/-- null at a path below a field comes of what the field came to: the field failed, or nothing was
given for its object, or there is null in the answer, or in a constant value in the answer. -/
inductive NullIn : FieldOutcome S → List PathSegment → Prop
  | failed (failure : FieldFailure) : NullIn (.error failure) []
  | missing : NullIn (.ok none) []
  | answer {a : Answer S} {path : List PathSegment} (h : a.at? path = some .null) :
      NullIn (.ok (some a)) path
  | value {a : Answer S} {v : Datum} {path rest : List PathSegment}
      (h : a.at? path = some (.scalar v)) (hnull : v.Part rest .null) :
      NullIn (.ok (some a)) (path ++ rest)

/-- null that is read in a slot with a part of what a field came to. -/
theorem nullIn_of_fills {outcome : FieldOutcome S} {path rest : List PathSegment} {b : Answer S}
    {s : Slot} (hat : (shown outcome).at? path = some b) (hfills : b.Fills s) (hnull : s.Null rest) :
    NullIn outcome (path ++ rest) := by
  have hnone : (Answer.null : Answer S).at? path = some b → path ++ rest = [] := fun h => by
    obtain ⟨rfl, rfl⟩ := Answer.at?_leaf (fun _ h => by cases h) h
    cases hfills
    cases hnull
    rfl
  match outcome, hat with
  | .error failure, hat => exact hnone hat ▸ .failed failure
  | .ok none, hat => exact hnone hat ▸ .missing
  | .ok (some a), hat =>
    cases hfills with
    | null =>
      cases hnull
      rw [List.append_nil]
      exact .answer hat
    | scalar v =>
      cases hnull with
      | scalar hpart => exact .value hat (Datum.part_of_document hpart)
    | _ => cases hnull

/-- **Null in the response** is where a field waits, or comes of what a field came to. -/
theorem Tidy.null {p : Placement S} {tasks : List (FieldTask S)}
    {done : List (FieldTask S × FieldOutcome S)} (h : Tidy p tasks done) (hsound : p.draft.Sound)
    (hroot : Draft.root < p.draft.slots.size) {path : List PathSegment}
    (hnull : (p.draft.document Draft.root).Part path .null) :
    (∃ t ∈ tasks, t.path = path) ∨ ∃ t outcome rest, (t, outcome) ∈ done ∧ path = t.path ++ rest ∧
      NullIn outcome rest := by
  obtain ⟨route, way, rest, j, s, rfl, hspells, hs, hrest⟩ :=
    Draft.spells_of_null h.closed hroot hnull
  obtain ⟨route', way', s', hspells', hs', htold⟩ :=
    h.told j (Array.getElem?_eq_some_iff.mp hs).1
  obtain rfl := hspells.reaches.route_eq hspells'.reaches hsound
  obtain rfl := hspells.path_eq hspells'
  rw [hs] at hs'
  cases hs'
  cases htold with
  | root members _ => cases hrest
  | waiting ht _ hpath =>
    cases hrest
    rw [List.append_nil]
    exact Or.inl ⟨_, ht, hpath⟩
  | part hdone hpath hat hfills =>
    refine Or.inr ⟨_, _, _, hdone, ?_, nullIn_of_fills hat hfills hrest⟩
    rw [hpath, List.append_assoc]

end Placement
end Batchwise
