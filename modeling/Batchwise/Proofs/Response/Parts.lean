import Batchwise.Proofs.Response.Path
import Batchwise.Proofs.Response.Route
import Batchwise.Proofs.Response.Unfolding

/-!
# Parts of documents

A part of a document stands at a path: a member below its name, an item below its number.  In a
draft the path is spelled by a route, name by name and number by number, and what stands at the end
of it is what the last slot has.

* `Document.Part`, `Datum.Part`   what stands at a path of a document, or of a constant value;
* `Datum.part_of_document`  null in the document of a value is null in the value;
* `Draft.Spells`            a route leads from one slot to another, and spells a path;
* `Slot.Null`               null is read in a slot: it is pending, or null, or a value with null in
                            it;
* `Draft.spells_of_null`    null in the document of a draft is read in a slot on the way there.
-/

namespace Batchwise

theorem Entries.mem_of_mem_ofList {K V : Type} [DecidableEq K] {e : K × V} {es : List (K × V)}
    (h : e ∈ Entries.ofList es) : e ∈ es := by
  induction es using List.reverseRecOn with
  | nil => cases h
  | append_singleton es f ih =>
    rw [Entries.ofList, List.foldl_concat] at h
    rcases Entries.mem_put h with rfl | h
    · exact List.mem_append_right es List.mem_cons_self
    · exact List.mem_append_left [f] (ih h)

/-! ### parts -/

/-- what stands at a path of a document. -/
inductive Document.Part : Document → List PathSegment → Document → Prop
  | whole (d : Document) : Part d [] d
  | member {members : List (String × Document)} {name : String} {m e : Document}
      {path : List PathSegment} (hm : (name, m) ∈ members) (h : Part m path e) :
      Part (.object members) (.field name :: path) e
  | item {items : List Document} {n : Nat} {m e : Document} {path : List PathSegment}
      (hm : items[n]? = some m) (h : Part m path e) : Part (.list items) (.index n :: path) e

/-- what stands at a path of a constant value. -/
inductive Datum.Part : Datum → List PathSegment → Datum → Prop
  | whole (d : Datum) : Part d [] d
  | entry {entries : List (String × Datum)} {name : String} {m e : Datum} {path : List PathSegment}
      (hm : (name, m) ∈ entries) (h : Part m path e) :
      Part (.record entries) (.field name :: path) e
  | item {items : List Datum} {n : Nat} {m e : Datum} {path : List PathSegment}
      (hm : items[n]? = some m) (h : Part m path e) : Part (.list items) (.index n :: path) e

namespace Document

theorem ofItems_eq (ds : List Datum) : ofItems ds = ds.map ofDatum := by
  induction ds with
  | nil => rfl
  | cons d ds ih => rw [ofItems, ih, List.map_cons]

theorem ofEntries_eq (es : List (String × Datum)) :
    ofEntries es = es.map fun e => (e.1, ofDatum e.2) := by
  induction es with
  | nil => rfl
  | cons e es ih => rw [ofEntries, ih, List.map_cons]

theorem ofDatum_eq_null {d : Datum} (h : ofDatum d = .null) : d = .null := by
  cases d with
  | null => rfl
  | _ => cases h

end Document

/-- **Null in the document of a constant value** is null in the value. -/
theorem Datum.part_of_document {d : Datum} {path : List PathSegment}
    (h : (Document.ofDatum d).Part path .null) : d.Part path .null := by
  induction path generalizing d with
  | nil =>
    generalize hd : Document.ofDatum d = o at h
    cases h
    rw [Document.ofDatum_eq_null hd]
    exact .whole .null
  | cons s path ih =>
    cases d with
    | list ds =>
      have hlist : (Document.list (Document.ofItems ds)).Part (s :: path) .null := h
      cases hlist with
      | item hm hrest =>
        rw [Document.ofItems_eq, List.getElem?_map, Option.map_eq_some_iff] at hm
        obtain ⟨d, hd, rfl⟩ := hm
        exact .item hd (ih hrest)
    | record es =>
      have hobject : (Document.object (Document.ofEntries es)).Part (s :: path) .null := h
      cases hobject with
      | member hm hrest =>
        rw [Document.ofEntries_eq] at hm
        obtain ⟨e, he, heq⟩ := List.mem_map.mp hm
        cases heq
        exact .entry he (ih hrest)
    | bytes bs =>
      have hlist : (Document.list
        (bs.map fun b => .number (.int b.toNat))).Part (s :: path) .null := h
      cases hlist with
      | item hm hrest =>
        rw [List.getElem?_map, Option.map_eq_some_iff] at hm
        obtain ⟨b, _, rfl⟩ := hm
        cases hrest
    | _ => cases h

/-! ### routes that spell a path -/

/-- the slots that a slot refers to, each with the step of a path that leads there. -/
def Slot.steps : Slot → List (PathSegment × Nat)
  | .object members => members.map fun m => (.field m.1, m.2)
  | .list items => items.mapIdx fun n j => (.index n, j)
  | _ => []

theorem Slot.map_steps (s : Slot) : s.steps.map Prod.snd = s.refs := by
  cases s with
  | object members => exact List.map_map
  | list items =>
    refine List.ext_getElem? fun k => ?_
    rw [Slot.steps, List.getElem?_map, List.getElem?_mapIdx, Option.map_map]
    exact Option.map_id'
  | _ => rfl

namespace Draft

/-- the route leads from slot to slot, and spells the path. -/
inductive Spells (d : Draft) : Nat → List Nat → List PathSegment → Nat → Prop
  | here (i : Nat) : Spells d i [] [] i
  | step {i k m j : Nat} {s : Slot} {segment : PathSegment} {route : List Nat}
      {path : List PathSegment} (hs : d.slots[i]? = some s) (hk : s.steps[k]? = some (segment, m))
      (h : Spells d m route path j) : Spells d i (k :: route) (segment :: path) j

namespace Spells

variable {d d' : Draft} {i j k : Nat} {route route' : List Nat} {path path' : List PathSegment}

theorem append (h : d.Spells i route path j) (h' : d.Spells j route' path' k) :
    d.Spells i (route ++ route') (path ++ path') k := by
  induction h with
  | here i => exact h'
  | step hs hk _ ih => exact .step hs hk (ih h')

theorem reaches (h : d.Spells i route path j) : d.Reaches i route j := by
  induction h with
  | here i => exact rfl
  | step hs hk _ ih =>
    refine ⟨_, ⟨_, hs, ?_⟩, ih⟩
    rw [← Slot.map_steps, List.getElem?_map, hk, Option.map_some]

/-- a route spells one path only. -/
theorem path_eq (h : d.Spells i route path j) (h' : d.Spells i route path' k) : path = path' := by
  induction h generalizing path' with
  | here i =>
    cases h'
    rfl
  | step hs hk _ ih =>
    cases h' with
    | step hs' hk' hrest =>
      rw [hs] at hs'
      cases hs'
      rw [hk] at hk'
      cases hk'
      rw [ih hrest]

/-- a route that was there stays, and spells what it did, when pending slots are filled. -/
theorem grows {filled : List Nat} (h : d.Spells i route path j) (hg : d.Grows d' filled)
    (hfilled : ∀ i ∈ filled, i < d.slots.size → d.slots[i]? = some .pending) :
    d'.Spells i route path j := by
  induction h with
  | here i => exact .here i
  | step hs hk _ ih => exact .step (Leads.kept hg hfilled (fun hs => by subst hs; cases hk) hs) hk ih

end Spells

end Draft

/-! ### null -/

/-- null is read at a path in a slot. -/
inductive Slot.Null : List PathSegment → Slot → Prop
  | pending : Null [] .pending
  | null : Null [] .null
  | scalar {value : Document} {path : List PathSegment} (h : value.Part path .null) :
    Null path (.scalar value)

namespace Draft

/-- **Null in the document of a draft** is read in a slot to which the way there leads. -/
theorem spells_of_null {d : Draft} (hd : d.Closed) {i : Nat} (hi : i < d.slots.size)
    {path : List PathSegment} (h : (d.document i).Part path .null) :
    ∃ route way rest j s, path = way ++ rest ∧ d.Spells i route way j ∧ d.slots[j]? = some s ∧
      s.Null rest := by
  induction path generalizing i with
  | nil =>
    obtain ⟨s, hs⟩ : ∃ s, d.slots[i]? = some s := ⟨_, Array.getElem?_eq_getElem hi⟩
    rw [document_of_some hd hs] at h
    refine ⟨[], [], [], i, s, rfl, .here i, hs, ?_⟩
    cases s with
    | pending => exact .pending
    | null => exact .null
    | scalar value => exact .scalar h
    | _ => cases h
  | cons segment path ih =>
    obtain ⟨s, hs⟩ : ∃ s, d.slots[i]? = some s := ⟨_, Array.getElem?_eq_getElem hi⟩
    rw [document_of_some hd hs] at h
    -- one step to a slot behind, and what is found from there
    have hstep : ∀ (k : Nat) {m : Nat}, s.steps[k]? = some (segment, m) →
        (d.document m).Part path .null → ∃ route way rest j s, segment :: path = way ++ rest ∧
          d.Spells i route way j ∧ d.slots[j]? = some s ∧ s.Null rest := by
      intro k m hk hm
      have hlt : m < d.slots.size := by
        refine (hd i s hs m ?_).2
        rw [← Slot.map_steps]
        exact List.mem_map.mpr ⟨_, List.mem_of_getElem? hk, rfl⟩
      obtain ⟨route, way, rest, j, s', rfl, hspells, hs', hnull⟩ := ih hlt hm
      exact ⟨k :: route, segment :: way, rest, j, s', rfl, .step hs hk hspells, hs', hnull⟩
    cases s with
    | scalar value => exact ⟨[], [], _, i, _, rfl, .here i, hs, .scalar h⟩
    | object members =>
      have hobject : (Document.object (Entries.ofList
        (members.map fun m => (m.1, d.document m.2)))).Part (segment :: path) .null := h
      cases hobject with
      | member hm hrest =>
        obtain ⟨m, hmember, heq⟩ := List.mem_map.mp (Entries.mem_of_mem_ofList hm)
        cases heq
        obtain ⟨k, hk⟩ := List.mem_iff_getElem?.mp hmember
        refine hstep k ?_ hrest
        rw [Slot.steps, List.getElem?_map, hk, Option.map_some]
    | list items =>
      have hlist : (Document.list (items.map d.document)).Part (segment :: path) .null := h
      cases hlist with
      | @item _ n _ _ _ hm hrest =>
        rw [List.getElem?_map, Option.map_eq_some_iff] at hm
        obtain ⟨m, hm, rfl⟩ := hm
        refine hstep n ?_ hrest
        rw [Slot.steps, List.getElem?_mapIdx, hm, Option.map_some]
    | _ => cases h

end Draft
end Batchwise
