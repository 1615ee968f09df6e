import Batchwise.Query.Level
import Batchwise.Proofs.Response.Draft
import Batchwise.Proofs.Table

/-!
# Following paths

A path says how to come from a document to a part of it: into a member of an object, or to an item
of a list.  In a draft the same path leads from slot to slot.

* `Document.follow?`     the part of a document at the end of a path;
* `Draft.Leads`          the slot at the end of a path: `Leads.append`, `Leads.unique`;
* `Draft.Leads.grows`    a path that was there stays when pending slots are filled;
* `Draft.Leads.follow`   what is at the slot is at the end of the path in the document.
-/

namespace Batchwise

namespace Document

/-- the member or the item that one step leads to. -/
def step? : PathSegment → Document → Option Document
  | .field name, .object members => Entries.find? name members
  | .index n, .list items => items[n]?
  | _, _ => none

def follow? : List PathSegment → Document → Option Document
  | [], d => some d
  | s :: path, d => (d.step? s).bind (follow? path)

end Document

namespace Draft

/-- the path leads from slot `i` to slot `j`; objects on the way have distinct names. -/
def Leads (d : Draft) (i : Nat) : List PathSegment → Nat → Prop
  | [], j => i = j
  | .field name :: path, j => ∃ members m, d.slots[i]? = some (.object members) ∧
      (members.map Prod.fst).Nodup ∧ (name, m) ∈ members ∧ Leads d m path j
  | .index n :: path, j => ∃ items m, d.slots[i]? = some (.list items) ∧ items[n]? = some m ∧
      Leads d m path j

namespace Leads

variable {d d' : Draft} {i j k : Nat} {p q : List PathSegment}

theorem append (h : d.Leads i p j) (h' : d.Leads j q k) : d.Leads i (p ++ q) k := by
  induction p generalizing i with
  | nil =>
    obtain rfl : i = j := h
    exact h'
  | cons s p ih =>
    cases s with
    | field name =>
      obtain ⟨members, m, hslot, hnames, hm, hrest⟩ := h
      exact ⟨members, m, hslot, hnames, hm, ih hrest⟩
    | index n =>
      obtain ⟨items, m, hslot, hm, hrest⟩ := h
      exact ⟨items, m, hslot, hm, ih hrest⟩

/-- a path leads to one slot only. -/
theorem unique (h : d.Leads i p j) (h' : d.Leads i p k) : j = k := by
  induction p generalizing i with
  | nil => exact Eq.trans (Eq.symm h) h'
  | cons s p ih =>
    cases s with
    | field name =>
      obtain ⟨members, m, hslot, hnames, hm, hrest⟩ := h
      obtain ⟨members', m', hslot', _, hm', hrest'⟩ := h'
      obtain rfl : members = members' := by
        rw [hslot] at hslot'
        injection hslot' with h
        injection h
      have hfind := Entries.find?_of_mem hnames hm
      rw [Entries.find?_of_mem hnames hm'] at hfind
      obtain rfl : m' = m := Option.some.inj hfind
      exact ih hrest hrest'
    | index n =>
      obtain ⟨items, m, hslot, hm, hrest⟩ := h
      obtain ⟨items', m', hslot', hm', hrest'⟩ := h'
      obtain rfl : items = items' := by
        rw [hslot] at hslot'
        injection hslot' with h
        injection h
      rw [hm] at hm'
      obtain rfl : m = m' := Option.some.inj hm'
      exact ih hrest hrest'

/-- a slot with something in it stays as it is when only pending slots are filled. -/
theorem kept {filled : List Nat} (hg : d.Grows d' filled)
    (hfilled : ∀ i ∈ filled, i < d.slots.size → d.slots[i]? = some .pending) {s : Slot}
    (hs : s ≠ .pending) (h : d.slots[i]? = some s) : d'.slots[i]? = some s := by
  have hlt := (Array.getElem?_eq_some_iff.mp h).1
  rw [hg.kept i hlt, h]
  intro hmem
  have hpending := hfilled i hmem hlt
  rw [h] at hpending
  exact hs (Option.some.inj hpending)

theorem grows {filled : List Nat} (h : d.Leads i p j) (hg : d.Grows d' filled)
    (hfilled : ∀ i ∈ filled, i < d.slots.size → d.slots[i]? = some .pending) :
    d'.Leads i p j := by
  induction p generalizing i with
  | nil => exact h
  | cons s p ih =>
    cases s with
    | field name =>
      obtain ⟨members, m, hslot, hnames, hm, hrest⟩ := h
      exact ⟨members, m, kept hg hfilled (by simp) hslot, hnames, hm, ih hrest⟩
    | index n =>
      obtain ⟨items, m, hslot, hm, hrest⟩ := h
      exact ⟨items, m, kept hg hfilled (by simp) hslot, hm, ih hrest⟩

/-- **A path in a draft is a path in its document.** -/
theorem follow (h : d.Leads i p j) (hd : d.Closed) :
    (d.document i).follow? p = some (d.document j) := by
  induction p generalizing i with
  | nil =>
    obtain rfl : i = j := h
    rfl
  | cons s p ih =>
    cases s with
    | field name =>
      obtain ⟨members, m, hslot, hnames, hm, hrest⟩ := h
      have hlt : i < m := (hd i _ hslot m (List.mem_map_of_mem hm)).1
      have hdoc : d.document i = .object (members.map fun e =>
          (e.1, if i < e.2 then d.document e.2 else .null)) := by
        rw [document_eq, hslot]
        refine congrArg Document.object (Entries.ofList_of_nodup ?_)
        rw [List.map_map]
        exact hnames
      have hstep : (d.document i).step? (.field name) = some (d.document m) := by
        rw [hdoc]
        refine (Entries.find?_map_value (fun e => if i < e then d.document e else .null) name
          members).trans ?_
        rw [Entries.find?_of_mem hnames hm, Option.map_some, if_pos hlt]
      rw [Document.follow?, hstep]
      exact ih hrest
    | index n =>
      obtain ⟨items, m, hslot, hm, hrest⟩ := h
      have hlt : i < m := (hd i _ hslot m (List.mem_of_getElem? hm)).1
      have hstep : (d.document i).step? (.index n) = some (d.document m) := by
        rw [document_eq, hslot]
        show (items.map fun j => if i < j then d.document j else .null)[n]? = _
        rw [List.getElem?_map, hm, Option.map_some, if_pos hlt]
      rw [Document.follow?, hstep]
      exact ih hrest

end Leads

end Draft
end Batchwise
