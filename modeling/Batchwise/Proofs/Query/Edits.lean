import Batchwise.Proofs.Query.Placement
import Batchwise.Proofs.Response.Edit

/-!
# Placing as edits

All that placing does to a draft is a list of edits, which is told by the fields and the answers
alone.  Each of the edits finds what it needs: its slot is there, and a member is only ever reserved
in an object.

* `Draft.Fits`, `Draft.FitAll`   the slots of edits are there, and entries are taken by objects;
* `Placement.placeEdits`, `outcomeEdits`, `levelEdits`   the edits of an answer, an outcome and a
                                 level;
* `Placement.draft_placeAll`     placing makes these edits and no others;
* `Placement.fitAll_levelEdits`  and they fit.
-/

namespace Batchwise

/-! ### edits that fit -/

namespace Draft

/-- the slot of an edit is there, and if it is to take an entry there is an object in it. -/
structure Fits (d : Draft) (e : Edit) : Prop where
  known : e.slot < d.slots.size
  taken : ∀ key, e.change = .entry key → ∃ members, d.slots[e.slot]? = some (.object members)

/-- every edit fits the draft that those before it have made. -/
def FitAll (d : Draft) : List Edit → Prop
  | [] => True
  | e :: es => d.Fits e ∧ (d.edit e).FitAll es

variable {d : Draft} {e : Edit} {es fs : List Edit}

theorem fits_of_keeps (h : e.slot < d.slots.size) (hkeeps : e.change.keeps = false) :
    d.Fits e :=
  ⟨h, fun key hkey => by rw [hkey] at hkeeps; cases hkeeps⟩

theorem fitAll_append : d.FitAll (es ++ fs) ↔ d.FitAll es ∧ (d.editAll es).FitAll fs := by
  induction es generalizing d with
  | nil => exact (and_iff_right trivial).symm
  | cons e es ih =>
    show (d.Fits e ∧ (d.edit e).FitAll (es ++ fs)) ↔ (d.Fits e ∧ (d.edit e).FitAll es) ∧ _
    rw [ih, and_assoc]
    rfl

namespace FitAll

theorem fits {us vs : List Edit} (h : d.FitAll (us ++ e :: vs)) : (d.editAll us).Fits e :=
  (fitAll_append.mp h).2.1

theorem sound (h : d.FitAll es) (hd : d.Sound) : (d.editAll es).Sound := by
  induction es generalizing d with
  | nil => exact hd
  | cons e es ih => exact ih h.2 (hd.edit h.1.known)

theorem size_le (h : d.FitAll es) (hd : d.Sound) : d.slots.size ≤ (d.editAll es).slots.size := by
  induction es generalizing d with
  | nil => exact Nat.le_refl _
  | cons e es ih =>
    refine Nat.le_trans ?_ (ih h.2 (hd.edit h.1.known))
    rw [(edited hd.closed h.1.known).size_eq]
    exact Nat.le_add_right _ _

end FitAll

end Draft

namespace Placement

open Draft (Edit)

variable {S : Type}

/-! ### the edits -/

/-- a member of the object at `parent` for each field. -/
def scheduleEdits (parent : Nat) (fields : List Field) : List Edit :=
  fields.map fun f => ⟨parent, .entry f.outputName⟩

mutual

/-- the edits that write an answer into a slot of a draft. -/
def placeEdits (fields : List Field) (slot : Nat) : Answer S → Draft → List Edit
  | .null, _ => [⟨slot, .null⟩]
  | .scalar v, _ => [⟨slot, .scalar (Document.ofDatum v)⟩]
  | .object _, _ => ⟨slot, .object⟩ :: scheduleEdits slot fields
  | .list items, d =>
    ⟨slot, .list items.length⟩ ::
      itemEdits fields d.slots.size items (d.edit ⟨slot, .list items.length⟩)

/-- the edits that write answers into neighbouring slots. -/
def itemEdits (fields : List Field) (slot : Nat) : List (Answer S) → Draft → List Edit
  | [], _ => []
  | a :: as, d =>
    placeEdits fields slot a d ++
      itemEdits fields (slot + 1) as (d.editAll (placeEdits fields slot a d))

end

/-- the edits that write the outcome of a task. -/
def outcomeEdits (task : FieldTask S) (outcome : FieldOutcome S) (d : Draft) : List Edit :=
  match outcome with
  | .ok answer => placeEdits task.field.subfields task.slot (answer.getD .null) d
  | .error _ => [⟨task.slot, .null⟩]

/-- the edits that write the outcomes of a level. -/
def levelEdits : List (FieldTask S) → List (FieldOutcome S) → Draft → List Edit
  | task :: tasks, outcome :: outcomes, d =>
    outcomeEdits task outcome d ++
      levelEdits tasks outcomes (d.editAll (outcomeEdits task outcome d))
  | _, _, _ => []

/-! ### what placing does is these edits -/

theorem draft_schedule (parent : Nat) (source : S) (path : List PathSegment) (fs : List Field)
    (p : Placement S) : (schedule parent source path fs p).draft
      = p.draft.editAll (scheduleEdits parent fs) := by
  induction fs generalizing p with
  | nil => rfl
  | cons f fs ih => exact ih _

mutual

theorem draft_place (fields : List Field) (slot : Nat) (path : List PathSegment) :
    (a : Answer S) → (p : Placement S) → (place fields slot path a p).draft
      = p.draft.editAll (placeEdits fields slot a p.draft)
  | .null, _ => rfl
  | .scalar _, _ => rfl
  | .object source, _ => draft_schedule slot source path fields _
  | .list as, _ => draft_placeItems fields _ path 0 as _

theorem draft_placeItems (fields : List Field) (slot : Nat) (path : List PathSegment)
    (index : Nat) : (as : List (Answer S)) → (p : Placement S) →
    (placeItems fields slot path index as p).draft
      = p.draft.editAll (itemEdits fields slot as p.draft)
  | [], _ => rfl
  | a :: as, p => by
    rw [placeItems, draft_placeItems fields _ path _ as, draft_place fields slot _ a p, itemEdits,
      Draft.editAll_append]

end

theorem draft_placeOutcome (t : FieldTask S) (outcome : FieldOutcome S) (p : Placement S) :
    (placeOutcome t outcome p).draft = p.draft.editAll (outcomeEdits t outcome p.draft) := by
  cases outcome with
  | ok a => exact draft_place t.field.subfields t.slot t.path (a.getD .null) p
  | error failure => rfl

/-- **All that placing the outcomes of a level does to the draft** are its edits. -/
theorem draft_placeAll (ts : List (FieldTask S)) (outcomes : List (FieldOutcome S))
    (p : Placement S) :
    (placeAll ts outcomes p).draft = p.draft.editAll (levelEdits ts outcomes p.draft) := by
  induction ts generalizing outcomes p with
  | nil => rfl
  | cons t ts ih =>
    cases outcomes with
    | nil => rfl
    | cons outcome outcomes =>
      rw [placeAll, ih, draft_placeOutcome, levelEdits, Draft.editAll_append]

/-! ### and they fit -/

/-- each field finds the object that the ones before it are in. -/
theorem fitAll_scheduleEdits {parent : Nat} (fs : List Field) {d : Draft} (hd : d.Sound)
    {members : List (String × Nat)} (hparent : d.slots[parent]? = some (.object members)) :
    d.FitAll (scheduleEdits parent fs) := by
  induction fs generalizing d members with
  | nil => trivial
  | cons f fs ih =>
    have hlt := (Array.getElem?_eq_some_iff.mp hparent).1
    let e : Edit := ⟨parent, .entry f.outputName⟩
    have hself : (d.edit e).slots[parent]?
        = some (.object (members ++ [(f.outputName, d.slots.size)])) := by
      rw [(Draft.edited hd.closed (e := e) hlt).self, hparent]
      rfl
    exact ⟨⟨hlt, fun _ _ => ⟨members, hparent⟩⟩, ih (hd.edit (e := e) hlt) hself⟩

mutual

theorem fitAll_placeEdits (fields : List Field) {slot : Nat} : (a : Answer S) → {d : Draft} →
    d.Sound → slot < d.slots.size → d.FitAll (placeEdits fields slot a d)
  | .null, _, _, h => ⟨Draft.fits_of_keeps h rfl, trivial⟩
  | .scalar _, _, _, h => ⟨Draft.fits_of_keeps h rfl, trivial⟩
  | .object _, d, hd, h => by
    let e : Edit := ⟨slot, .object⟩
    have hself : (d.edit e).slots[slot]? = some (.object []) := Draft.getElem?_fill_self h _
    exact ⟨Draft.fits_of_keeps h rfl, fitAll_scheduleEdits fields (hd.edit (e := e) h) hself⟩
  | .list as, d, hd, h => by
    let e : Edit := ⟨slot, .list as.length⟩
    have hsize := (Draft.edited hd.closed (e := e) h).size_eq
    exact ⟨Draft.fits_of_keeps h rfl,
      fitAll_itemEdits fields as (hd.edit (e := e) h) (Nat.le_of_eq hsize.symm)⟩

theorem fitAll_itemEdits (fields : List Field) {slot : Nat} : (as : List (Answer S)) →
    {d : Draft} → d.Sound → slot + as.length ≤ d.slots.size →
    d.FitAll (itemEdits fields slot as d)
  | [], _, _, _ => trivial
  | a :: as, d, hd, h => by
    rw [List.length_cons] at h
    have hslot : slot < d.slots.size := by omega
    have hfirst := fitAll_placeEdits fields a hd hslot
    have hsize := hfirst.size_le hd
    exact Draft.fitAll_append.mpr
      ⟨hfirst, fitAll_itemEdits fields as (hfirst.sound hd) (by omega)⟩

end

theorem fitAll_outcomeEdits {t : FieldTask S} (outcome : FieldOutcome S) {d : Draft}
    (hd : d.Sound) (h : t.slot < d.slots.size) : d.FitAll (outcomeEdits t outcome d) := by
  cases outcome with
  | ok a => exact fitAll_placeEdits t.field.subfields (a.getD .null) hd h
  | error failure => exact ⟨Draft.fits_of_keeps h rfl, trivial⟩

/-- **The edits of a level fit** if the slots of its tasks are there. -/
theorem fitAll_levelEdits (ts : List (FieldTask S)) (outcomes : List (FieldOutcome S)) {d : Draft}
    (hd : d.Sound) (h : ∀ t ∈ ts, t.slot < d.slots.size) : d.FitAll (levelEdits ts outcomes d) := by
  induction ts generalizing outcomes d with
  | nil => trivial
  | cons t ts ih =>
    cases outcomes with
    | nil => trivial
    | cons outcome outcomes =>
      have hfirst := fitAll_outcomeEdits outcome hd (h t List.mem_cons_self)
      refine Draft.fitAll_append.mpr ⟨hfirst, ih outcomes (hfirst.sound hd) fun u hu => ?_⟩
      exact Nat.lt_of_lt_of_le (h u (List.mem_cons_of_mem t hu)) (hfirst.size_le hd)

end Placement
end Batchwise
