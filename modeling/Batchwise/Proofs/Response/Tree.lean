import Batchwise.Proofs.Response.Edit

/-!
# Responses as plain trees

A response in the making without slots: a tree of objects and lists, some of whose parts are
pending.  A place in it is a list of numbers, each saying which child to go to.  A change is made at
a place, and places that lie apart are changed in any order.

* `Tree.document`        the document of a tree;
* `Tree.at?`, `Tree.update`   the part at a place, and the tree with that part changed;
* `Tree.update_comm`     changes at places that lie apart commute;
* `Tree.document_update_congr`   what a change does to the document it does to that of the part;
* `Change.apply`         the change of a part by an edit.
-/

namespace Batchwise

/-- a response in the making. -/
inductive Tree
  | pending
  | null
  | scalar (value : Document)
  | object (members : List (String × Tree))
  | list (items : List Tree)

namespace Tree

/-! ### documents -/

mutual

/-- the document of a tree, where pending parts are null. -/
def document : Tree → Document
  | pending => .null
  | null => .null
  | scalar value => value
  | object members => .object (Entries.ofList (documentMembers members))
  | list items => .list (documentItems items)

def documentMembers : List (String × Tree) → List (String × Document)
  | [] => []
  | (name, t) :: ms => (name, document t) :: documentMembers ms

def documentItems : List Tree → List Document
  | [] => []
  | t :: ts => document t :: documentItems ts

end

theorem documentMembers_eq (members : List (String × Tree)) :
    documentMembers members = members.map fun m => (m.1, m.2.document) := by
  induction members with
  | nil => rfl
  | cons m ms ih => rw [documentMembers, ih, List.map_cons]

theorem documentItems_eq (items : List Tree) : documentItems items = items.map document := by
  induction items with
  | nil => rfl
  | cons t ts ih => rw [documentItems, ih, List.map_cons]

/-! ### children -/

def children : Tree → List Tree
  | object members => members.map Prod.snd
  | list items => items
  | _ => []

/-- the tree with child number `k` changed. -/
def modifyChild (k : Nat) (f : Tree → Tree) : Tree → Tree
  | object members => object (members.modify k fun m => (m.1, f m.2))
  | list items => list (items.modify k f)
  | t => t

theorem modifyChild_modifyChild_self (k : Nat) (f g : Tree → Tree) (t : Tree) :
    (t.modifyChild k f).modifyChild k g = t.modifyChild k (g ∘ f) := by
  cases t with
  | object members => exact congrArg object (List.modify_modify_eq _ _ k members)
  | list items => exact congrArg list (List.modify_modify_eq f g k items)
  | _ => rfl

theorem modifyChild_comm {k k' : Nat} (h : k ≠ k') (f g : Tree → Tree) (t : Tree) :
    (t.modifyChild k f).modifyChild k' g = (t.modifyChild k' g).modifyChild k f := by
  cases t with
  | object members => exact congrArg object (List.modify_modify_ne _ _ members h)
  | list items => exact congrArg list (List.modify_modify_ne f g items h)
  | _ => rfl

theorem map_modify_congr {A B : Type} {l : List A} {k : Nat} {f g : A → A} (h : A → B)
    (hfg : ∀ a, l[k]? = some a → h (f a) = h (g a)) :
    (l.modify k f).map h = (l.modify k g).map h := by
  refine List.ext_getElem? fun i => ?_
  rw [List.getElem?_map, List.getElem?_map, List.getElem?_modify, List.getElem?_modify]
  cases hi : l[i]? with
  | none => rfl
  | some a =>
    by_cases hk : k = i
    · subst hk
      simpa using hfg a hi
    · simp [hk]

theorem getElem?_children_object (members : List (String × Tree)) (k : Nat) :
    (object members).children[k]? = members[k]?.map Prod.snd := List.getElem?_map

/-- two changes of a child are one if they do the same to it. -/
theorem modifyChild_congr {k : Nat} {f g : Tree → Tree} {t : Tree}
    (h : ∀ c, t.children[k]? = some c → f c = g c) : t.modifyChild k f = t.modifyChild k g := by
  cases t with
  | object members =>
    have hmap := map_modify_congr (l := members) (k := k) (f := fun m => (m.1, f m.2))
      (g := fun m => (m.1, g m.2)) id fun m hm => by
        have hc := h m.2 (by rw [getElem?_children_object, hm, Option.map_some])
        exact congrArg (Prod.mk m.1) hc
    rw [List.map_id, List.map_id] at hmap
    exact congrArg object hmap
  | list items =>
    have hmap := map_modify_congr (l := items) (k := k) (f := f) (g := g) id h
    rw [List.map_id, List.map_id] at hmap
    exact congrArg list hmap
  | _ => rfl

theorem modifyChild_id (k : Nat) (t : Tree) : t.modifyChild k (fun c => c) = t := by
  cases t with
  | object members => exact congrArg object (List.modify_id k members)
  | list items => exact congrArg list (List.modify_id k items)
  | _ => rfl

theorem document_modifyChild_congr {k : Nat} {f g : Tree → Tree} {t : Tree}
    (h : ∀ c, t.children[k]? = some c → (f c).document = (g c).document) :
    (t.modifyChild k f).document = (t.modifyChild k g).document := by
  cases t with
  | object members =>
    show Document.object (Entries.ofList (documentMembers _))
      = Document.object (Entries.ofList (documentMembers _))
    rw [documentMembers_eq, documentMembers_eq]
    refine congrArg (fun ms => Document.object (Entries.ofList ms)) ?_
    refine map_modify_congr _ fun m hm => ?_
    have hc := h m.2 (by rw [getElem?_children_object, hm, Option.map_some])
    exact congrArg (Prod.mk m.1) hc
  | list items =>
    show Document.list (documentItems _) = Document.list (documentItems _)
    rw [documentItems_eq, documentItems_eq]
    exact congrArg Document.list (map_modify_congr document h)
  | _ => rfl

/-! ### places -/

/-- the part at a place. -/
def at? : List Nat → Tree → Option Tree
  | [], t => some t
  | k :: place, t => t.children[k]?.bind (at? place)

/-- the tree with the part at a place changed. -/
def update (f : Tree → Tree) : List Nat → Tree → Tree
  | [], t => f t
  | k :: place, t => t.modifyChild k (update f place)

/-- two places lie apart: none of them lies in the other. -/
def Apart (p q : List Nat) : Prop := ¬ p <+: q ∧ ¬ q <+: p

/-- **Changes at places that lie apart commute.** -/
theorem update_comm (f g : Tree → Tree) {p q : List Nat} (h : Apart p q) (t : Tree) :
    (t.update f p).update g q = (t.update g q).update f p := by
  induction p generalizing q t with
  | nil => exact absurd (List.nil_prefix) h.1
  | cons k p ih =>
    cases q with
    | nil => exact absurd (List.nil_prefix) h.2
    | cons k' q =>
      show (t.modifyChild k _).modifyChild k' _ = (t.modifyChild k' _).modifyChild k _
      by_cases hk : k = k'
      · subst hk
        have hapart : Apart p q :=
          ⟨fun hp => h.1 (List.cons_prefix_cons.mpr ⟨rfl, hp⟩),
            fun hq => h.2 (List.cons_prefix_cons.mpr ⟨rfl, hq⟩)⟩
        rw [modifyChild_modifyChild_self, modifyChild_modifyChild_self]
        exact modifyChild_congr fun c _ => ih hapart c
      · exact modifyChild_comm hk _ _ t

/-- to put the part at a place there once more changes nothing. -/
theorem update_at {p : List Nat} {t part : Tree} (h : t.at? p = some part) :
    t.update (fun _ => part) p = t := by
  induction p generalizing t with
  | nil => exact (Option.some.inj h).symm
  | cons k p ih =>
    obtain ⟨c, hc, hpart⟩ := Option.bind_eq_some_iff.mp h
    refine (modifyChild_congr fun c' hc' => ?_).trans (modifyChild_id k t)
    rw [hc] at hc'
    cases hc'
    exact ih hpart

theorem document_update_congr {f g : Tree → Tree} {p : List Nat} {t : Tree}
    (h : ∀ part, t.at? p = some part → (f part).document = (g part).document) :
    (t.update f p).document = (t.update g p).document := by
  induction p generalizing t with
  | nil => exact h t rfl
  | cons k p ih =>
    refine document_modifyChild_congr fun c hc => ih fun part hpart => h part ?_
    exact Option.bind_eq_some_iff.mpr ⟨c, hc, hpart⟩

end Tree

/-! ### changes of a part -/

namespace Change

/-- a part of a tree after a change of it. -/
def apply : Change → Tree → Tree
  | entry key, .object members => .object (members ++ [(key, .pending)])
  | entry _, t => t
  | object, _ => .object []
  | list size, _ => .list (List.replicate size .pending)
  | null, _ => .null
  | scalar value, _ => .scalar value

/-- the numbers of the children that a change adds to a part. -/
def added : Change → Tree → List Nat
  | entry _, .object members => [members.length]
  | list size, _ => List.range size
  | _, _ => []

end Change
end Batchwise
