import Batchwise.Response.Draft
import Mathlib.Data.List.Basic

/-!
# Drafts with holes

A draft is looked at while some of its slots are still pending: a pending slot is a hole, and the
document is read as if something had been put there.  Filling a slot changes what is read at that
slot and nothing else.

* `Draft.document_eq`   the document at a slot from the documents at the slots it refers to;
* `Draft.render`        the document at a slot, given what stands in the holes;
* `Draft.Closed`        slots refer to slots behind them;
* `Draft.Grows`         some slots were filled and new ones added, the others are as they were;
* `Draft.Grows.render`  then the document reads as before with the filled slots as holes.
-/

namespace Batchwise

/-- the slots that a slot refers to. -/
def Slot.refs : Slot → List Nat
  | .object members => members.map Prod.snd
  | .list items => items
  | _ => []

namespace Draft

/-! ### documents slot by slot -/

theorem slotDocument_congr {f g : Nat → Document} {s : Slot} (h : ∀ j ∈ s.refs, f j = g j) :
    slotDocument f s = slotDocument g s := by
  cases s with
  | object members =>
    have hm : (members.map fun m => (m.1, f m.2)) = members.map fun m => (m.1, g m.2) :=
      List.map_congr_left fun m hm => by rw [h m.2 (List.mem_map_of_mem hm)]
    exact congrArg (fun es => Document.object (Entries.ofList es)) hm
  | list items => exact congrArg Document.list (List.map_congr_left h)
  | _ => rfl

theorem getD_documentsFrom (ss : List Slot) (first k : Nat) :
    (documentsFrom first ss).getD k .null =
      (ss[k]?.map (slotDocument fun j =>
        if first + k < j then (documentsFrom first ss).getD (j - first) .null else .null)).getD
          .null := by
  induction ss generalizing first k with
  | nil => rfl
  | cons s ss ih =>
    have hbehind : ∀ j, first < j → (documentsFrom first (s :: ss)).getD (j - first) .null
        = (documentsFrom (first + 1) ss).getD (j - (first + 1)) .null := by
      intro j hj
      have hsub : j - first = j - (first + 1) + 1 := by omega
      rw [hsub]
      rfl
    cases k with
    | zero =>
      rw [List.getElem?_cons_zero, Option.map_some, Option.getD_some, documentsFrom,
        List.getD_cons_zero]
      refine slotDocument_congr fun j _ => ?_
      by_cases hj : first < j
      · exact (if_pos hj).trans ((hbehind j hj).symm.trans (if_pos hj).symm)
      · exact (if_neg hj).trans (if_neg hj).symm
    | succ k =>
      show (documentsFrom (first + 1) ss).getD k .null = _
      rw [ih (first + 1) k, List.getElem?_cons_succ]
      refine congrArg (fun f => (ss[k]?.map (slotDocument f)).getD .null) (funext fun j => ?_)
      have hiff : first + 1 + k < j ↔ first + (k + 1) < j := by omega
      by_cases hj : first + 1 + k < j
      · rw [if_pos hj, if_pos (hiff.mp hj), hbehind j (by omega)]
      · rw [if_neg hj, if_neg (fun h => hj (hiff.mpr h))]

theorem document_eq (d : Draft) (i : Nat) :
    d.document i = (d.slots[i]?.map (slotDocument fun j =>
      if i < j then d.document j else .null)).getD .null := by
  have h := getD_documentsFrom d.slots.toList 0 i
  rw [Array.getElem?_toList] at h
  simp only [Nat.zero_add, Nat.sub_zero] at h
  exact h

/-! ### holes -/

/-- what is read at a slot whose number is `i`. -/
def plugged (hole : Nat → Document) (i : Nat) : Slot → Slot
  | .pending => .scalar (hole i)
  | s => s

/-- the draft with something in place of every pending slot. -/
def plug (d : Draft) (hole : Nat → Document) : Draft := ⟨d.slots.mapIdx (plugged hole)⟩

/-- the document at a slot, where `hole` says what stands at pending slots. -/
def render (d : Draft) (hole : Nat → Document) (i : Nat) : Document := (d.plug hole).document i

theorem getElem?_plug (d : Draft) (hole : Nat → Document) (i : Nat) :
    (d.plug hole).slots[i]? = d.slots[i]?.map (plugged hole i) :=
  Array.getElem?_mapIdx

/-- a pending slot reads as null. -/
theorem document_eq_render (d : Draft) (i : Nat) : d.document i = d.render (fun _ => .null) i := by
  show (documentsFrom 0 d.slots.toList).getD i .null = (documentsFrom 0 _).getD i .null
  have hlist : (d.plug fun _ => .null).slots.toList
      = d.slots.toList.mapIdx (plugged fun _ => .null) := by
    show (d.slots.mapIdx _).toList = _
    rw [Array.toList_mapIdx]
  have hall : ∀ (ss : List Slot) (first : Nat) (shift : Nat → Nat),
      documentsFrom first (ss.mapIdx fun k => plugged (fun _ => .null) (shift k))
        = documentsFrom first ss := by
    intro ss
    induction ss with
    | nil => exact fun _ _ => rfl
    | cons s ss ih =>
      intro first shift
      rw [List.mapIdx_cons]
      show _ :: documentsFrom (first + 1) _ = _ :: documentsFrom (first + 1) ss
      rw [ih (first + 1) fun k => shift (k + 1)]
      cases s with
      | _ => rfl
  rw [hlist]
  exact congrArg (fun js => js.getD i .null) (hall d.slots.toList 0 id).symm

theorem render_of_pending {d : Draft} {hole : Nat → Document} {i : Nat}
    (h : d.slots[i]? = some .pending) : d.render hole i = hole i := by
  unfold render
  rw [document_eq, getElem?_plug, h]
  rfl

/-- slots refer to slots behind them. -/
def Closed (d : Draft) : Prop :=
  ∀ i s, d.slots[i]? = some s → ∀ j ∈ s.refs, i < j ∧ j < d.slots.size

theorem closed_empty : Draft.empty.Closed := by
  intro i s hs j hj
  have hlt : i < 1 := (Array.getElem?_eq_some_iff.mp hs).1
  have hi : i = 0 := by omega
  subst hi
  cases hs
  cases hj

theorem render_of_some {d : Draft} (hd : d.Closed) {hole : Nat → Document} {i : Nat} {s : Slot}
    (hs : s ≠ .pending) (h : d.slots[i]? = some s) :
    d.render hole i = slotDocument (d.render hole) s := by
  have hplugged : plugged hole i s = s := by
    cases s with
    | pending => exact absurd rfl hs
    | _ => rfl
  unfold render
  rw [document_eq, getElem?_plug, h]
  rw [Option.map_some, Option.map_some, Option.getD_some, hplugged]
  exact slotDocument_congr fun j hj => if_pos (hd i s h j hj).1

/-! ### growing -/

/-- some slots were filled and new ones added; the other slots are as they were. -/
structure Grows (d d' : Draft) (filled : List Nat) : Prop where
  size_le : d.slots.size ≤ d'.slots.size
  kept : ∀ i, i < d.slots.size → i ∉ filled → d'.slots[i]? = d.slots[i]?
  closed : d'.Closed

/-- the holes of a draft that has grown since: a slot that was filled shows what is there now. -/
def refill (d' : Draft) (filled : List Nat) (hole : Nat → Document) (i : Nat) : Document :=
  if i ∈ filled then d'.render hole i else hole i

theorem refill_of_mem {d' : Draft} {filled : List Nat} {hole : Nat → Document} {i : Nat}
    (h : i ∈ filled) : refill d' filled hole i = d'.render hole i := if_pos h

theorem refill_of_notMem {d' : Draft} {filled : List Nat} {hole : Nat → Document} {i : Nat}
    (h : i ∉ filled) : refill d' filled hole i = hole i := if_neg h

namespace Grows

variable {d d' d'' : Draft} {filled filled' : List Nat}

theorem refl (h : d.Closed) : Grows d d [] := ⟨Nat.le_refl _, fun _ _ _ => rfl, h⟩

theorem trans (h : Grows d d' filled) (h' : Grows d' d'' filled') :
    Grows d d'' (filled ++ filled') := by
  refine ⟨Nat.le_trans h.size_le h'.size_le, fun i hi hnot => ?_, h'.closed⟩
  rw [List.mem_append, not_or] at hnot
  exact (h'.kept i (Nat.lt_of_lt_of_le hi h.size_le) hnot.2).trans (h.kept i hi hnot.1)

theorem restrict (h : Grows d d' filled)
    (hnew : ∀ i ∈ filled, i < d.slots.size → i ∈ filled') : Grows d d' filled' :=
  ⟨h.size_le, fun i hi hnot => h.kept i hi fun hm => hnot (hnew i hm hi), h.closed⟩

theorem pending (h : Grows d d' filled) {i : Nat} (hi : d.slots[i]? = some .pending)
    (hnot : i ∉ filled) : d'.slots[i]? = some .pending :=
  (h.kept i (Array.getElem?_eq_some_iff.mp hi).1 hnot).trans hi

/-- **A draft that has grown reads as before**, with what was filled in as holes. -/
theorem render (h : Grows d d' filled) (hd : d.Closed)
    (hfilled : ∀ i ∈ filled, i < d.slots.size → d.slots[i]? = some .pending)
    (hole : Nat → Document) {i : Nat} (hi : i < d.slots.size) :
    d'.render hole i = d.render (refill d' filled hole) i := by
  -- from the last slot to the first, as slots refer to slots behind them
  induction hn : d.slots.size - i using Nat.strongRecOn generalizing i with
  | ind n ih =>
    by_cases hmem : i ∈ filled
    · rw [render_of_pending (hfilled i hmem hi), refill_of_mem hmem]
    · have hkept := h.kept i hi hmem
      obtain ⟨s, hs⟩ : ∃ s, d.slots[i]? = some s := ⟨_, Array.getElem?_eq_getElem hi⟩
      by_cases hpending : s = .pending
      · subst hpending
        rw [render_of_pending (hkept.trans hs), render_of_pending hs, refill_of_notMem hmem]
      · rw [render_of_some h.closed hpending (hkept.trans hs), render_of_some hd hpending hs]
        refine slotDocument_congr fun j hj => ?_
        obtain ⟨hij, hjsize⟩ := hd i s hs j hj
        exact ih (d.slots.size - j) (by omega) hjsize rfl

end Grows

/-! ### filling and reserving -/

theorem size_fill (d : Draft) (slot : Nat) (value : Slot) :
    (d.fill slot value).slots.size = d.slots.size := Array.size_setIfInBounds

theorem getElem?_fill_self {d : Draft} {slot : Nat} (h : slot < d.slots.size) (value : Slot) :
    (d.fill slot value).slots[slot]? = some value := Array.getElem?_setIfInBounds_self_of_lt h

theorem getElem?_fill_other (d : Draft) {slot i : Nat} (h : i ≠ slot) (value : Slot) :
    (d.fill slot value).slots[i]? = d.slots[i]? := Array.getElem?_setIfInBounds_ne h.symm

theorem grows_fill {d : Draft} (hd : d.Closed) {slot : Nat} {value : Slot}
    (h : slot < d.slots.size) (hrefs : ∀ j ∈ value.refs, slot < j ∧ j < d.slots.size) :
    Grows d (d.fill slot value) [slot] := by
  refine ⟨Nat.le_of_eq (size_fill d slot value).symm, fun i _ hi => ?_, fun i s hs j hj => ?_⟩
  · exact getElem?_fill_other d (fun h => hi (List.mem_singleton.mpr h)) value
  · rw [size_fill]
    by_cases hi : i = slot
    · subst hi
      rw [getElem?_fill_self h] at hs
      cases hs
      exact hrefs j hj
    · rw [getElem?_fill_other d hi] at hs
      exact hd i s hs j hj

/-- an object without members fills its slot. -/
theorem setObject_spec {d : Draft} (hd : d.Closed) {slot : Nat} (h : slot < d.slots.size) :
    (d.setObject slot).Closed ∧ (d.setObject slot).slots[slot]? = some (.object []) ∧
      (d.setObject slot).slots.size = d.slots.size :=
  ⟨(grows_fill hd h fun _ hj => by cases hj).closed, getElem?_fill_self h _, size_fill _ _ _⟩

theorem size_reserve (d : Draft) : d.reserve.slots.size = d.slots.size + 1 := Array.size_push _

theorem getElem?_reserve_old (d : Draft) {i : Nat} (h : i < d.slots.size) :
    d.reserve.slots[i]? = d.slots[i]? :=
  (Array.getElem?_push_lt h).trans (Array.getElem?_eq_getElem h).symm

theorem getElem?_reserve_new (d : Draft) : d.reserve.slots[d.slots.size]? = some .pending :=
  Array.getElem?_push_size

theorem grows_reserve {d : Draft} (hd : d.Closed) : Grows d d.reserve [] := by
  refine ⟨?_, fun i hi _ => getElem?_reserve_old d hi, fun i s hs j hj => ?_⟩
  · rw [size_reserve]
    exact Nat.le_succ _
  · rw [size_reserve]
    by_cases hi : i < d.slots.size
    · rw [getElem?_reserve_old d hi] at hs
      obtain ⟨hij, hjsize⟩ := hd i s hs j hj
      omega
    · have hlt := (Array.getElem?_eq_some_iff.mp hs).1
      rw [size_reserve] at hlt
      have heq : i = d.slots.size := by omega
      subst heq
      rw [getElem?_reserve_new] at hs
      cases hs
      cases hj

theorem size_reserveMany (n : Nat) (d : Draft) :
    (reserveMany n d).slots.size = d.slots.size + n := by
  induction n generalizing d with
  | zero => rfl
  | succ n ih =>
    rw [reserveMany, ih, size_reserve]
    omega

theorem grows_reserveMany (n : Nat) {d : Draft} (hd : d.Closed) : Grows d (reserveMany n d) [] := by
  induction n generalizing d with
  | zero => exact Grows.refl hd
  | succ n ih => exact (grows_reserve hd).trans (ih (grows_reserve hd).closed)

theorem getElem?_reserveMany (n : Nat) {d : Draft} (hd : d.Closed) {i : Nat}
    (hi : d.slots.size ≤ i) (hn : i < d.slots.size + n) :
    (reserveMany n d).slots[i]? = some .pending := by
  induction n generalizing d with
  | zero => omega
  | succ n ih =>
    rw [reserveMany]
    by_cases heq : i = d.slots.size
    · have hgrows := grows_reserveMany n (grows_reserve hd).closed
      subst heq
      exact hgrows.pending (getElem?_reserve_new d) List.not_mem_nil
    · refine ih (grows_reserve hd).closed ?_ ?_
      · rw [size_reserve]
        omega
      · rw [size_reserve]
        omega

theorem addEntry_eq {d : Draft} (parent : Nat) (key : String) {members : List (String × Nat)}
    (h : d.slots[parent]? = some (.object members)) :
    d.addEntry parent key =
      ⟨d.reserve.fill parent (.object (members ++ [(key, d.slots.size)])), d.slots.size⟩ := by
  have hlt := (Array.getElem?_eq_some_iff.mp h).1
  unfold addEntry
  dsimp only
  rw [getElem?_reserve_old d hlt, h]

theorem size_addEntry (d : Draft) (parent : Nat) (key : String) :
    (d.addEntry parent key).draft.slots.size = d.slots.size + 1 := by
  unfold addEntry
  dsimp only
  split
  · rw [size_fill, size_reserve]
  · exact size_reserve d

/-- a list fills its slot, and its items wait in slots of their own. -/
theorem grows_setList {d : Draft} (hd : d.Closed) {slot : Nat} (h : slot < d.slots.size) (n : Nat) :
    Grows d (d.setList slot n).draft [slot] ∧
      (d.setList slot n).draft.slots[slot]? = some (.list (List.range' d.slots.size n)) ∧
      ∀ i ∈ List.range' d.slots.size n, (d.setList slot n).draft.slots[i]? = some .pending := by
  have hreserve := grows_reserveMany n hd
  have hlt : slot < (reserveMany n d).slots.size := by
    rw [size_reserveMany]
    omega
  refine ⟨hreserve.trans (grows_fill hreserve.closed hlt fun j hj => ?_),
    getElem?_fill_self hlt _, fun i hi => ?_⟩
  · have hj' := List.mem_range'_1.mp hj
    rw [size_reserveMany]
    omega
  · have hi' := List.mem_range'_1.mp hi
    have hne : i ≠ slot := by omega
    refine (getElem?_fill_other _ hne _).trans ?_
    exact getElem?_reserveMany n hd hi'.1 hi'.2

end Draft
end Batchwise
