import Batchwise.Proofs.Response.Route
import Batchwise.Proofs.Response.Tree

/-!
# A draft unfolded

As references lead to slots behind, what is at a slot can be read by going from slot to slot: this
comes to an end, and never to a slot that is not there.  Unfolded in the same way a draft is a plain
tree, and an edit of a slot is a change of the tree at the place that leads to the slot.

* `Draft.Renders`         the document at a slot, read reference by reference: `renders_iff`;
* `Draft.tree`            the tree at a slot: `document_eq_tree`, `at?_tree`;
* `Draft.tree_edit_apart`, `Draft.tree_edit`   an edit changes the trees that lead to its slot, each
                          at one place, and no others;
* `Draft.document_edit`   an edit does to the document of a slot what its new document does.
-/

namespace Batchwise
namespace Draft

/-! ### reading reference by reference -/

/-- the document at a slot, when those of all slots that it refers to are read first; a slot that is
not there has none. -/
inductive Renders (d : Draft) : Nat → Document → Prop
  | intro {i : Nat} {s : Slot} {documentAt : Nat → Document} (h : d.slots[i]? = some s)
      (hrefs : ∀ j ∈ s.refs, Renders d j (documentAt j)) : Renders d i (slotDocument documentAt s)

theorem document_of_some {d : Draft} (hd : d.Closed) {i : Nat} {s : Slot}
    (h : d.slots[i]? = some s) : d.document i = slotDocument d.document s := by
  rw [document_eq, h]
  exact slotDocument_congr fun j hj => if_pos (hd i s h j hj).1

/-- **Reading reference by reference ends** with the document of the slot, and with no other. -/
theorem renders_iff {d : Draft} (hd : d.Closed) {i : Nat} (hi : i < d.slots.size) (j : Document) :
    d.Renders i j ↔ j = d.document i := by
  -- from the last slot to the first, as slots refer to slots behind them
  induction hn : d.slots.size - i using Nat.strongRecOn generalizing i j with
  | ind n ih =>
    have hrefs : ∀ {s}, d.slots[i]? = some s → ∀ m ∈ s.refs, ∀ j',
        d.Renders m j' ↔ j' = d.document m := fun hs m hm j' => by
      obtain ⟨him, hmsize⟩ := hd i _ hs m hm
      exact ih (d.slots.size - m) (by omega) hmsize j' rfl
    constructor
    · rintro ⟨hs, hread⟩
      rw [document_of_some hd hs]
      exact slotDocument_congr fun m hm => (hrefs hs m hm _).mp (hread m hm)
    · rintro rfl
      have hs := Array.getElem?_eq_getElem hi
      rw [document_of_some hd hs]
      exact .intro hs fun m hm => (hrefs hs m hm _).mpr rfl

/-! ### unfolding -/

/-- the tree of a slot, given the trees of others. -/
def slotTree (treeAt : Nat → Tree) : Slot → Tree
  | .pending => .pending
  | .null => .null
  | .scalar value => .scalar value
  | .object members => .object (members.map fun m => (m.1, treeAt m.2))
  | .list items => .list (items.map treeAt)

/-- the tree at a slot. -/
def tree (d : Draft) (i : Nat) : Tree :=
  match d.slots[i]? with
  | some s => slotTree (fun j => if _h : i < j ∧ j < d.slots.size then tree d j else .pending) s
  | none => .pending
termination_by d.slots.size - i

theorem children_slotTree (treeAt : Nat → Tree) (s : Slot) :
    (slotTree treeAt s).children = s.refs.map treeAt := by
  cases s with
  | object members =>
    show (members.map _).map Prod.snd = (members.map Prod.snd).map treeAt
    rw [List.map_map, List.map_map]
    rfl
  | _ => rfl

theorem slotTree_congr {f g : Nat → Tree} {s : Slot} (h : ∀ j ∈ s.refs, f j = g j) :
    slotTree f s = slotTree g s := by
  cases s with
  | object members =>
    refine congrArg Tree.object (List.map_congr_left fun m hm => ?_)
    rw [h m.2 (List.mem_map_of_mem hm)]
  | list items => exact congrArg Tree.list (List.map_congr_left h)
  | _ => rfl

/-- where one reference has another tree, one child of the tree is another. -/
theorem slotTree_modifyChild {f f' : Nat → Tree} {g : Tree → Tree} {s : Slot} {k : Nat}
    (h : ∀ k' j, s.refs[k']? = some j → f' j = if k = k' then g (f j) else f j) :
    slotTree f' s = (slotTree f s).modifyChild k g := by
  cases s with
  | object members =>
    refine congrArg Tree.object (List.ext_getElem? fun i => ?_)
    rw [List.getElem?_map, List.getElem?_modify, List.getElem?_map]
    cases hm : members[i]? with
    | none => rfl
    | some m =>
      have hj : (members.map Prod.snd)[i]? = some m.2 := by
        rw [List.getElem?_map, hm, Option.map_some]
      have hf : f' m.2 = _ := h i m.2 hj
      rw [Option.map_some, Option.map_some, hf]
      split
      · rfl
      · rfl
  | list items =>
    refine congrArg Tree.list (List.ext_getElem? fun i => ?_)
    rw [List.getElem?_map, List.getElem?_modify, List.getElem?_map]
    cases hm : items[i]? with
    | none => rfl
    | some j =>
      have hf : f' j = _ := h i j hm
      rw [Option.map_some, Option.map_some, hf]
      split
      · rfl
      · rfl
  | _ => rfl

theorem tree_of_some {d : Draft} (hd : d.Closed) {i : Nat} {s : Slot} (h : d.slots[i]? = some s) :
    d.tree i = slotTree d.tree s := by
  rw [tree, h]
  exact slotTree_congr fun j hj => dif_pos (hd i s h j hj)

theorem document_slotTree (treeAt : Nat → Tree) (s : Slot) :
    (slotTree treeAt s).document = slotDocument (fun j => (treeAt j).document) s := by
  cases s with
  | object members =>
    show Document.object (Entries.ofList (Tree.documentMembers _)) = _
    rw [Tree.documentMembers_eq, List.map_map]
    rfl
  | list items =>
    show Document.list (Tree.documentItems _) = _
    rw [Tree.documentItems_eq, List.map_map]
    rfl
  | _ => rfl

/-- **The document at a slot is that of its tree.** -/
theorem document_eq_tree {d : Draft} (hd : d.Closed) {i : Nat} (hi : i < d.slots.size) :
    d.document i = (d.tree i).document := by
  induction hn : d.slots.size - i using Nat.strongRecOn generalizing i with
  | ind n ih =>
    have hs := Array.getElem?_eq_getElem hi
    rw [document_of_some hd hs, tree_of_some hd hs, document_slotTree]
    refine slotDocument_congr fun j hj => ?_
    obtain ⟨hij, hjsize⟩ := hd i _ hs j hj
    exact ih (d.slots.size - j) (by omega) hjsize rfl

/-- a route through the draft is a place in the tree. -/
theorem at?_tree {d : Draft} (hd : d.Closed) {i j : Nat} {p : List Nat} (h : d.Reaches i p j) :
    (d.tree i).at? p = some (d.tree j) := by
  induction p generalizing i with
  | nil => exact congrArg (fun i => some (d.tree i)) h
  | cons k p ih =>
    obtain ⟨m, ⟨s, hs, hk⟩, hrest⟩ := h
    rw [Tree.at?, tree_of_some hd hs, children_slotTree, List.getElem?_map, hk]
    exact ih hrest

/-! ### edits of the tree -/

section

variable {d : Draft} {e : Edit} (hd : d.Sound) (he : e.slot < d.slots.size)

include hd he

/-- **A tree from which no route leads to the edited slot** stays as it is. -/
theorem tree_edit_apart {i : Nat} (hi : i < d.slots.size) (h : ∀ p, ¬ d.Reaches i p e.slot) :
    (d.edit e).tree i = d.tree i := by
  induction hn : d.slots.size - i using Nat.strongRecOn generalizing i with
  | ind n ih =>
    have hs := Array.getElem?_eq_getElem hi
    have hs' := ((edited hd.closed he).other i hi fun heq => h [] heq).trans hs
    rw [tree_of_some (hd.edit he).closed hs', tree_of_some hd.closed hs]
    refine slotTree_congr fun j hj => ?_
    obtain ⟨hij, hjsize⟩ := hd.closed i _ hs j hj
    obtain ⟨k, hk⟩ := List.mem_iff_getElem?.mp hj
    exact ih (d.slots.size - j) (by omega) hjsize
      (fun p hp => h (k :: p) ⟨j, ⟨_, hs, hk⟩, hp⟩) rfl

theorem tree_edit_new {i : Nat} (hi : d.slots.size ≤ i) (hlt : i < (d.edit e).slots.size) :
    (d.edit e).tree i = .pending := by
  rw [tree_of_some (hd.edit he).closed ((edited hd.closed he).new i hi hlt)]
  rfl

/-- the tree of the edited slot. -/
theorem tree_edit_self : (d.edit e).tree e.slot = e.change.apply (d.tree e.slot) := by
  have hedited := edited hd.closed he
  obtain ⟨s, hs⟩ : ∃ s, d.slots[e.slot]? = some s := ⟨_, Array.getElem?_eq_getElem he⟩
  have hself : (d.edit e).slots[e.slot]? = some (e.change.rewrite d.slots.size s) := by
    rw [hedited.self, hs, Option.map_some]
  have hnew : ∀ n < e.change.reserves, (d.edit e).tree (d.slots.size + n) = .pending := by
    intro n hn
    refine tree_edit_new hd he (Nat.le_add_right _ _) ?_
    rw [hedited.size_eq]
    omega
  -- what the slot refers to lies behind it, so no route leads back
  have hkept : ∀ j ∈ s.refs, (d.edit e).tree j = d.tree j := fun j hj => by
    obtain ⟨hlt, hjsize⟩ := hd.closed _ _ hs j hj
    refine tree_edit_apart hd he hjsize fun p hp => ?_
    have hle := hp.le hd.closed
    omega
  rw [tree_of_some (hd.edit he).closed hself, tree_of_some hd.closed hs]
  cases hc : e.change with
  | entry key =>
    rw [hc] at hnew
    cases s with
    | object members =>
      refine congrArg Tree.object ?_
      show (members ++ [(key, d.slots.size)]).map _ = members.map _ ++ [(key, Tree.pending)]
      rw [List.map_append, List.map_singleton]
      have hpending : (d.edit e).tree d.slots.size = .pending := hnew 0 Nat.one_pos
      rw [hpending]
      refine congrArg (· ++ [(key, Tree.pending)]) (List.map_congr_left fun m hm => ?_)
      rw [hkept m.2 (List.mem_map_of_mem hm)]
    | list items => exact slotTree_congr hkept
    | _ => rfl
  | list size =>
    rw [hc] at hnew
    refine congrArg Tree.list (List.eq_replicate_iff.mpr ⟨?_, fun t ht => ?_⟩)
    · rw [List.length_map, List.length_range']
    · obtain ⟨j, hj, rfl⟩ := List.mem_map.mp ht
      obtain ⟨n, hn, rfl⟩ := List.mem_range'.mp hj
      rw [Nat.one_mul]
      exact hnew n hn
  | _ => rfl

/-- **A tree from which a route leads to the edited slot** is changed at that place. -/
theorem tree_edit {i : Nat} {p : List Nat} (h : d.Reaches i p e.slot) :
    (d.edit e).tree i = (d.tree i).update e.change.apply p := by
  induction p generalizing i with
  | nil =>
    obtain rfl : i = e.slot := h
    exact tree_edit_self hd he
  | cons k p ih =>
    obtain ⟨m, hheld, hrest⟩ := h
    obtain ⟨s, hs, hk⟩ := hheld
    have hlt := (hd.closed i s hs m (List.mem_of_getElem? hk)).1
    have hle := hrest.le hd.closed
    have hs' := ((edited hd.closed he).other i (by omega) (by omega)).trans hs
    rw [tree_of_some (hd.edit he).closed hs', tree_of_some hd.closed hs]
    refine slotTree_modifyChild fun k' j hj => ?_
    by_cases hkk : k = k'
    · subst hkk
      rw [if_pos rfl]
      rw [hk] at hj
      cases hj
      exact ih hrest
    · -- no route goes through another child, as there is only one
      rw [if_neg hkk]
      obtain ⟨_, hjsize⟩ := hd.closed i s hs j (List.mem_of_getElem? hj)
      refine tree_edit_apart hd he hjsize fun q hq => hkk ?_
      have hroute : d.Reaches i (k :: p) e.slot := ⟨m, ⟨s, hs, hk⟩, hrest⟩
      have hroute' : d.Reaches i (k' :: q) e.slot := ⟨j, ⟨s, hs, hj⟩, hq⟩
      exact (List.cons.inj (hroute.route_eq hroute' hd)).1

/-! ### edits of documents -/

theorem document_edit_apart {i : Nat} (hi : i < d.slots.size) (h : ∀ p, ¬ d.Reaches i p e.slot) :
    (d.edit e).document i = d.document i := by
  have hlt : i < (d.edit e).slots.size := by
    rw [(edited hd.closed he).size_eq]
    omega
  rw [document_eq_tree (hd.edit he).closed hlt, document_eq_tree hd.closed hi,
    tree_edit_apart hd he hi h]

/-- **An edit does to a document what the new document of the edited slot does**: it is as if that
had been put into the slot as a constant. -/
theorem document_edit {i : Nat} (hi : i < d.slots.size) :
    (d.edit e).document i = (d.setScalar e.slot ((d.edit e).document e.slot)).document i := by
  let e' : Edit := ⟨e.slot, .scalar ((d.edit e).document e.slot)⟩
  show _ = (d.edit e').document i
  have hsize : ∀ f : Edit, f.slot < d.slots.size → ∀ j < d.slots.size,
      (d.edit f).document j = ((d.edit f).tree j).document := fun f hf j hj => by
    refine document_eq_tree (hd.edit hf).closed ?_
    rw [(edited hd.closed hf).size_eq]
    omega
  by_cases h : ∃ p, d.Reaches i p e.slot
  · obtain ⟨p, hp⟩ := h
    rw [hsize e he i hi, hsize e' he i hi, tree_edit hd he hp, tree_edit (e := e') hd he hp]
    refine Tree.document_update_congr fun part hpart => ?_
    rw [at?_tree hd.closed hp] at hpart
    cases hpart
    show _ = (d.edit e).document e.slot
    rw [hsize e he e.slot he, tree_edit_self hd he]
  · have hnone : ∀ p, ¬ d.Reaches i p e.slot := fun p hp => h ⟨p, hp⟩
    rw [document_edit_apart hd he hi hnone, document_edit_apart (e := e') hd he hi hnone]

omit he in
/-- what is at a slot may be put there as a constant. -/
theorem document_setScalar_self {slot : Nat} (hslot : slot < d.slots.size) {i : Nat}
    (hi : i < d.slots.size) : (d.setScalar slot (d.document slot)).document i = d.document i := by
  let e' : Edit := ⟨slot, .scalar (d.document slot)⟩
  show (d.edit e').document i = _
  by_cases h : ∃ p, d.Reaches i p slot
  · obtain ⟨p, hp⟩ := h
    have hlt : i < (d.edit e').slots.size := by
      rw [(edited (e := e') hd.closed hslot).size_eq]
      omega
    rw [document_eq_tree (hd.edit (e := e') hslot).closed hlt, document_eq_tree hd.closed hi,
      tree_edit (e := e') hd hslot hp]
    have hat := at?_tree hd.closed hp
    conv_rhs => rw [← Tree.update_at hat]
    refine Tree.document_update_congr fun part _ => ?_
    exact document_eq_tree hd.closed hslot
  · exact document_edit_apart (e := e') hd hslot hi fun p hp => h ⟨p, hp⟩

end

end Draft
end Batchwise
