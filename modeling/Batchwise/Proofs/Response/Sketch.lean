import Batchwise.Proofs.Response.Unfolding

/-!
# Drafts and sketches

A sketch is made by the same edits as a draft, and knows nothing of slots that refer to others: it
is a plain tree, with a note of the place at which each slot stands.  An edit changes the tree at
the place of its slot.  The draft shows the same response as the sketch, whatever the edits are, so
that edits of slots that lie apart may come in any order.

* `Sketch.edit`, `Sketch.editAll`   a plain tree under edits;
* `Sketch.Shows`         the tree of a sketch is that of a draft, and places are routes:
                         `shows_edit`, `shows_editAll`;
* `Sketch.marks`         the changes of the tree, each with its place: `redraw_marks`;
* `Sketch.Reordered`     neighbours that lie apart were exchanged: `redraw_reordered`;
* `Draft.drawn_as_plain_tree`   what holds of every draft.
-/

namespace Batchwise

namespace Change

/-- what becomes of a place when a change is made at `p`: it stays, unless it lies in `p` and what was
there is gone. -/
def leaves (c : Change) (p q : List Nat) : Bool := c.keeps || decide (p <+: q → p = q)

end Change

/-- a tree, and the places of slots: none for a slot that is not in the tree, as no object took it or
as what it was in is gone. -/
structure Sketch where
  tree : Tree
  places : List (Option (List Nat))

namespace Sketch

open Draft (Edit root)

def empty : Sketch := ⟨.object [], [some []]⟩

/-- the place of a slot. -/
def place? (s : Sketch) (slot : Nat) : Option (List Nat) := s.places[slot]?.join

/-- a sketch after an edit. -/
def edit (s : Sketch) (e : Edit) : Sketch :=
  match s.place? e.slot with
  | none => { s with places := s.places ++ List.replicate e.change.reserves none }
  | some p => {
      tree := s.tree.update e.change.apply p
      places := s.places.map (fun q => q.filter (e.change.leaves p)) ++
        (List.range e.change.reserves).map fun n =>
          ((s.tree.at? p).bind fun t => (e.change.added t)[n]?).map fun k => p ++ [k] }

/-- a sketch after edits. -/
def editAll (s : Sketch) (es : List Edit) : Sketch := es.foldl edit s

theorem editAll_append (s : Sketch) (es fs : List Edit) :
    s.editAll (es ++ fs) = (s.editAll es).editAll fs := List.foldl_append

/-! ### one edit of a sketch -/

section

variable {s : Sketch} {e : Edit}

theorem tree_edit_none (h : s.place? e.slot = none) : (s.edit e).tree = s.tree := by
  unfold edit
  rw [h]

theorem tree_edit_some {p : List Nat} (h : s.place? e.slot = some p) :
    (s.edit e).tree = s.tree.update e.change.apply p := by
  unfold edit
  rw [h]

theorem length_places_edit : (s.edit e).places.length = s.places.length + e.change.reserves := by
  unfold edit
  cases s.place? e.slot with
  | none => rw [List.length_append, List.length_replicate]
  | some p => rw [List.length_append, List.length_map, List.length_map, List.length_range]

theorem place?_edit_none (h : s.place? e.slot = none) {i : Nat} :
    (s.edit e).place? i = s.place? i := by
  have hplaces : (s.edit e).places = s.places ++ List.replicate e.change.reserves none := by
    unfold edit
    rw [h]
  unfold place?
  rw [hplaces, List.getElem?_append]
  split
  · rfl
  · rename_i hge
    rw [List.getElem?_replicate, List.getElem?_eq_none (Nat.not_lt.mp hge)]
    split
    · rfl
    · rfl

theorem places_edit_some {p : List Nat} (h : s.place? e.slot = some p) :
    (s.edit e).places = s.places.map (fun q => q.filter (e.change.leaves p)) ++
      (List.range e.change.reserves).map fun n =>
        ((s.tree.at? p).bind fun t => (e.change.added t)[n]?).map fun k => p ++ [k] := by
  unfold edit
  rw [h]

theorem place?_edit_old {p : List Nat} (h : s.place? e.slot = some p) {i : Nat}
    (hi : i < s.places.length) :
    (s.edit e).place? i = (s.place? i).filter (e.change.leaves p) := by
  unfold place?
  rw [places_edit_some h, List.getElem?_append_left (by rw [List.length_map]; exact hi),
    List.getElem?_map, List.getElem?_eq_getElem hi]
  rfl

theorem place?_edit_new {p : List Nat} (h : s.place? e.slot = some p) {n : Nat}
    (hn : n < e.change.reserves) : (s.edit e).place? (s.places.length + n)
      = ((s.tree.at? p).bind fun t => (e.change.added t)[n]?).map fun k => p ++ [k] := by
  unfold place?
  rw [places_edit_some h, List.getElem?_append_right (by rw [List.length_map]; omega),
    List.length_map, Nat.add_sub_cancel_left, List.getElem?_map, List.getElem?_range hn]
  rfl

end

/-! ### sketches of drafts -/

/-- the tree of the sketch is that of the draft, and the places of slots are the routes to them. -/
structure Shows (s : Sketch) (d : Draft) : Prop where
  tree_eq : s.tree = d.tree root
  size_eq : s.places.length = d.slots.size
  place_iff : ∀ i < d.slots.size, ∀ p, s.place? i = some p ↔ d.Reaches root p i

theorem shows_empty : empty.Shows Draft.empty := by
  refine ⟨?_, rfl, fun i hi p => ?_⟩
  · rw [Draft.tree_of_some (d := Draft.empty) (s := .object []) Draft.closed_empty rfl]
    rfl
  · obtain rfl : i = 0 := Nat.lt_one_iff.mp hi
    constructor
    · intro h
      cases h
      exact rfl
    · intro h
      have hnil : Draft.empty.Reaches root [] 0 := rfl
      rw [h.route_eq hnil Draft.sound_empty]
      rfl

/-- what a change adds to the tree of a slot is what the slot will refer to. -/
theorem getElem?_added (c : Change) (treeAt : Nat → Tree) (s : Slot) (n k : Nat) :
    (c.added (Draft.slotTree treeAt s))[n]? = some k ↔ n < c.links s ∧ k = c.base s + n := by
  have hrange : ∀ size, (List.range size)[n]? = some k ↔ n < size ∧ k = 0 + n := fun size => by
    rw [List.getElem?_eq_some_iff, Nat.zero_add]
    simp only [List.length_range, List.getElem_range, exists_prop]
    exact and_congr_right fun _ => eq_comm
  have hnone : ([] : List Nat)[n]? = some k ↔ n < 0 ∧ k = 0 + n := hrange 0
  cases c with
  | entry key =>
    cases s with
    | object members =>
      show [(members.map _).length][n]? = some k ↔ n < 1 ∧ k = (members.map Prod.snd).length + n
      rw [List.length_map, List.length_map]
      cases n with
      | zero => exact Option.some_inj.trans (eq_comm.trans (by simp))
      | succ n => exact iff_of_false (by simp) (by omega)
    | _ => exact iff_of_false (by rintro ⟨⟩) (fun h => Nat.not_lt_zero n h.1)
  | list size => exact hrange size
  | _ => exact hnone

/-- **An edit does to the sketch what it does to the draft.** -/
theorem shows_edit {s : Sketch} {d : Draft} (h : s.Shows d) (hd : d.Sound)
    (hroot : root < d.slots.size) {e : Edit} (he : e.slot < d.slots.size) :
    (s.edit e).Shows (d.edit e) := by
  have hsize := (Draft.edited hd.closed he).size_eq
  have hplace := h.place_iff e.slot he
  obtain ⟨sl, hsl⟩ : ∃ sl, d.slots[e.slot]? = some sl := ⟨_, Array.getElem?_eq_getElem he⟩
  cases hp : s.place? e.slot with
  | none =>
    have hnone : ∀ p, ¬ d.Reaches root p e.slot := fun p hreach => by
      rw [(hplace p).mpr hreach] at hp
      cases hp
    refine ⟨?_, ?_, fun i hi p => ?_⟩
    · rw [tree_edit_none hp, h.tree_eq, Draft.tree_edit_apart hd he hroot hnone]
    · rw [length_places_edit, h.size_eq, hsize]
    · rw [place?_edit_none hp]
      by_cases hold : i < d.slots.size
      · rw [h.place_iff i hold, Draft.reaches_edit_old hd he hold]
        exact (and_iff_left (Or.inr fun q hq => absurd hq (hnone q))).symm
      · obtain ⟨n, rfl⟩ := Nat.exists_eq_add_of_le (Nat.not_lt.mp hold)
        rw [Draft.reaches_edit_new hd he hroot hsl]
        have houtside : s.place? (d.slots.size + n) = none := by
          unfold place?
          rw [List.getElem?_eq_none (by rw [h.size_eq]; omega)]
          rfl
        rw [houtside]
        exact iff_of_false (by rintro ⟨⟩) fun ⟨_, q, hq, _⟩ => hnone q hq
  | some p =>
    have hreach := (hplace p).mp hp
    refine ⟨?_, ?_, fun i hi q => ?_⟩
    · rw [tree_edit_some hp, h.tree_eq, Draft.tree_edit hd he hreach]
    · rw [length_places_edit, h.size_eq, hsize]
    · by_cases hold : i < d.slots.size
      · rw [place?_edit_old hp (h.size_eq ▸ hold), Option.filter_eq_some_iff, h.place_iff i hold,
          Draft.reaches_edit_old hd he hold, Change.leaves, Bool.or_eq_true, decide_eq_true_iff]
        refine and_congr_right fun _ => or_congr_right ?_
        exact ⟨fun hcut q' hq' hle => hq'.route_eq hreach hd ▸ hcut (hq'.route_eq hreach hd ▸ hle),
          fun hcut => hcut p hreach⟩
      · obtain ⟨n, rfl⟩ := Nat.exists_eq_add_of_le (Nat.not_lt.mp hold)
        have hn : n < e.change.reserves := by omega
        have hnew := place?_edit_new hp hn
        rw [h.size_eq, h.tree_eq, Draft.at?_tree hd.closed hreach, Option.bind_some,
          Draft.tree_of_some hd.closed hsl] at hnew
        rw [hnew, Draft.reaches_edit_new hd he hroot hsl, Option.map_eq_some_iff]
        constructor
        · rintro ⟨k, hk, rfl⟩
          obtain ⟨hlinks, rfl⟩ := (getElem?_added _ _ _ _ _).mp hk
          exact ⟨hlinks, p, hreach, rfl⟩
        · rintro ⟨hlinks, q', hq', rfl⟩
          rw [hq'.route_eq hreach hd]
          exact ⟨_, (getElem?_added _ _ _ _ _).mpr ⟨hlinks, rfl⟩, rfl⟩

theorem shows_editAll {es : List Edit} (h : Draft.empty.Known [root] es) :
    (empty.editAll es).Shows (Draft.empty.editAll es) := by
  induction es using List.reverseRecOn with
  | nil => exact shows_empty
  | append_singleton es e ih =>
    obtain ⟨hknown, he⟩ := Draft.known_concat.mp h
    obtain ⟨hsound, hhanded⟩ := Draft.sound_editAll hknown
    rw [editAll_append, Draft.editAll_append]
    exact shows_edit (ih hknown) hsound ((hhanded root).mp List.mem_cons_self)
      ((hhanded e.slot).mp he)

/-! ### the changes of the tree -/

/-- the changes that edits make to the tree, each at its place. -/
def marks (s : Sketch) : List Edit → List (List Nat × Change)
  | [] => []
  | e :: es => ((s.place? e.slot).map fun p => (p, e.change)).toList ++ marks (s.edit e) es

/-- a tree with changes made one after the other. -/
def redraw (t : Tree) (ms : List (List Nat × Change)) : Tree :=
  ms.foldl (fun t m => t.update m.2.apply m.1) t

theorem redraw_append (t : Tree) (ms ns : List (List Nat × Change)) :
    redraw t (ms ++ ns) = redraw (redraw t ms) ns := List.foldl_append

/-- the tree of a sketch is drawn by the changes alone. -/
theorem redraw_marks (s : Sketch) (es : List Edit) :
    (s.editAll es).tree = redraw s.tree (s.marks es) := by
  induction es generalizing s with
  | nil => rfl
  | cons e es ih =>
    show ((s.edit e).editAll es).tree = redraw s.tree (_ ++ (s.edit e).marks es)
    rw [ih, redraw_append]
    cases hp : s.place? e.slot with
    | none => rw [tree_edit_none hp]; rfl
    | some p => rw [tree_edit_some hp]; rfl

theorem marks_append (s : Sketch) (es fs : List Edit) :
    s.marks (es ++ fs) = s.marks es ++ (s.editAll es).marks fs := by
  induction es generalizing s with
  | nil => rfl
  | cons e es ih =>
    rw [List.cons_append, marks, ih, ← List.append_assoc]
    rfl

/-- changes in another order, in which changes of one place, or of places in each other, stay in
order. -/
inductive Reordered : List (List Nat × Change) → List (List Nat × Change) → Prop
  | refl (ms : List (List Nat × Change)) : Reordered ms ms
  | swap (us vs : List (List Nat × Change)) {m n : List Nat × Change} (h : Tree.Apart m.1 n.1) :
    Reordered (us ++ m :: n :: vs) (us ++ n :: m :: vs)
  | trans {ls ms ns : List (List Nat × Change)} : Reordered ls ms → Reordered ms ns →
    Reordered ls ns

/-- **Changes in another order draw the same tree.** -/
theorem redraw_reordered {ms ns : List (List Nat × Change)} (h : Reordered ms ns) (t : Tree) :
    redraw t ms = redraw t ns := by
  induction h with
  | refl ms => rfl
  | swap us vs hapart =>
    rw [redraw_append, redraw_append]
    exact congrArg (fun t => redraw t vs) (Tree.update_comm _ _ hapart _)
  | trans _ _ ih ih' => exact ih.trans ih'

theorem Reordered.append_left (us : List (List Nat × Change)) {ms ns : List (List Nat × Change)}
    (h : Reordered ms ns) : Reordered (us ++ ms) (us ++ ns) := by
  induction h with
  | refl ms => exact .refl _
  | swap ws vs hapart =>
    rw [← List.append_assoc, ← List.append_assoc]
    exact .swap (us ++ ws) vs hapart
  | trans _ _ ih ih' => exact ih.trans ih'

/-- an edit does not move what lies apart from its slot. -/
theorem place?_edit_apart {s : Sketch} {e : Edit} {i : Nat} (hi : i < s.places.length)
    (h : ∀ p q, s.place? e.slot = some p → s.place? i = some q → Tree.Apart p q) :
    (s.edit e).place? i = s.place? i := by
  cases hp : s.place? e.slot with
  | none => exact place?_edit_none hp
  | some p =>
    rw [place?_edit_old hp hi]
    cases hq : s.place? i with
    | none => rfl
    | some q =>
      have hleaves : e.change.leaves p q = true := by
        rw [Change.leaves, Bool.or_eq_true, decide_eq_true_iff]
        exact Or.inr fun hle => absurd hle (h p q hp hq).1
      rw [Option.filter_some, if_pos hleaves]

/-- two edits of slots that lie apart, in both orders. -/
theorem reordered_marks_pair {s : Sketch} {e f : Edit} (he : e.slot < s.places.length)
    (hf : f.slot < s.places.length)
    (h : ∀ p q, s.place? e.slot = some p → s.place? f.slot = some q → Tree.Apart p q) :
    Reordered (s.marks [e, f]) (s.marks [f, e]) := by
  have hplacef := place?_edit_apart hf h
  have hplacee := place?_edit_apart (e := f) he fun q p hq hp => (h p q hp hq).symm
  rw [marks, marks, marks, hplacef, marks, marks, marks, hplacee, List.append_nil, List.append_nil]
  cases hp : s.place? e.slot with
  | none =>
    rw [Option.map_none, Option.toList_none, List.nil_append, List.append_nil]
    exact .refl _
  | some p =>
    cases hq : s.place? f.slot with
    | none => exact .refl _
    | some q => exact .swap [] [] (h p q hp hq)

end Sketch

/-! ### drafts -/

namespace Draft

/-- the document of a draft is drawn by the changes that its edits make to a plain tree. -/
theorem document_eq_redraw {es : List Edit} (h : empty.Known [root] es) :
    (empty.editAll es).document root
      = (Sketch.redraw (.object []) (Sketch.empty.marks es)).document := by
  obtain ⟨hsound, hhanded⟩ := sound_editAll h
  rw [document_eq_tree hsound.closed ((hhanded root).mp List.mem_cons_self),
    ← (Sketch.shows_editAll h).tree_eq, Sketch.redraw_marks]
  rfl

theorem document_reordered {es es' : List Edit} (h : empty.Known [root] es)
    (h' : empty.Known [root] es')
    (hmarks : Sketch.Reordered (Sketch.empty.marks es) (Sketch.empty.marks es')) :
    (empty.editAll es').document root = (empty.editAll es).document root := by
  rw [document_eq_redraw h, document_eq_redraw h', Sketch.redraw_reordered hmarks]

/-- two edits of slots none of which lies below the other, in both orders. -/
theorem document_exchanged {es : List Edit} (h : empty.Known [root] es) {e f : Edit}
    (he : e.slot < (empty.editAll es).slots.size) (hf : f.slot < (empty.editAll es).slots.size)
    (hef : ∀ p, ¬ (empty.editAll es).Reaches e.slot p f.slot)
    (hfe : ∀ p, ¬ (empty.editAll es).Reaches f.slot p e.slot) :
    (((empty.editAll es).edit e).edit f).document root
      = (((empty.editAll es).edit f).edit e).document root := by
  obtain ⟨_, hhanded⟩ := sound_editAll h
  have hshows := Sketch.shows_editAll h
  have hknown : ∀ e f : Edit, e.slot < (empty.editAll es).slots.size →
      f.slot < (empty.editAll es).slots.size → empty.Known [root] (es ++ [e] ++ [f]) := by
    intro e f he hf
    refine known_concat.mpr ⟨known_concat.mpr ⟨h, (hhanded e.slot).mpr he⟩, ?_⟩
    rcases List.mem_cons.mp ((hhanded f.slot).mpr hf) with hroot | hmem
    · exact List.mem_cons.mpr (Or.inl hroot)
    · exact List.mem_cons.mpr (Or.inr (mem_handedAll_concat.mpr (Or.inl hmem)))
  -- a place that lies in another is that of a slot below the other
  have hapart : ∀ {e f : Edit} {p q : List Nat}, (∀ r, ¬ (empty.editAll es).Reaches e.slot r f.slot) →
      (empty.editAll es).Reaches root p e.slot → (empty.editAll es).Reaches root q f.slot →
      ¬ p <+: q := by
    rintro e f p q hnone hp hq ⟨r, rfl⟩
    obtain ⟨m, hm, hrest⟩ := reaches_append.mp hq
    exact hnone r (hm.slot_eq hp ▸ hrest)
  have hmarks : Sketch.Reordered (Sketch.empty.marks (es ++ [f] ++ [e]))
      (Sketch.empty.marks (es ++ [e] ++ [f])) := by
    rw [List.append_assoc, List.append_assoc, Sketch.marks_append _ es, Sketch.marks_append _ es]
    refine Sketch.Reordered.append_left _ (Sketch.reordered_marks_pair ?_ ?_ fun q p hq hp => ?_)
    · rw [hshows.size_eq]
      exact hf
    · rw [hshows.size_eq]
      exact he
    · have hq' := (hshows.place_iff f.slot hf q).mp hq
      have hp' := (hshows.place_iff e.slot he p).mp hp
      exact ⟨hapart hfe hq' hp', hapart hef hp' hq'⟩
  have hdocument := document_reordered (hknown f e hf he) (hknown e f he hf) hmarks
  rw [editAll_concat, editAll_concat, editAll_concat, editAll_concat] at hdocument
  exact hdocument

/-- **A draft is drawn as a plain tree.**  For all edits, each of a slot that was handed out before:
* the slots that were handed out are those that there are;
* what a slot refers to is a slot behind it, and no slot is referred to at two places;
* so reading reference by reference comes to an end at every slot, with its document;
* an edit changes what is read at the place of its slot and nowhere else: a document reads as if the
  document of the edited slot stood there as a constant, before and after the edit, and from where no
  route leads to the slot it stays as it was;
* the document is that of a plain tree that was changed at the places of the slots, and the place of
  a slot is the route to it;
* the members of an object stand in the order in which they were reserved;
* and changes in another order give the same document, if those of one place or of places in each
  other stay in order: so do two edits of slots none of which is below the other. -/
theorem drawn_as_plain_tree {es : List Edit} (h : empty.Known [root] es) :
    let d := empty.editAll es
    let sketch := Sketch.empty.editAll es
    (∀ i, i ∈ root :: empty.handedAll es ↔ i < d.slots.size) ∧
    (∀ i k j, d.Holds i k j → i < j ∧ j < d.slots.size) ∧
    (∀ i k i' k' j, d.Holds i k j → d.Holds i' k' j → i = i' ∧ k = k') ∧
    (∀ i < d.slots.size, ∀ j, d.Renders i j ↔ j = d.document i) ∧
    (∀ e : Edit, e.slot < d.slots.size → ∀ i < d.slots.size,
      (d.setScalar e.slot (d.document e.slot)).document i = d.document i ∧
      (d.setScalar e.slot ((d.edit e).document e.slot)).document i = (d.edit e).document i ∧
      ((∀ p, ¬ d.Reaches i p e.slot) → (d.edit e).document i = d.document i)) ∧
    d.document root = sketch.tree.document ∧
    (∀ i < d.slots.size, ∀ p, sketch.place? i = some p ↔ d.Reaches root p i) ∧
    (∀ i members, d.slots[i]? = some (.object members) →
      (members.map Prod.snd).Pairwise (· < ·) ∧
      d.document i = .object (Entries.ofList (members.map fun m => (m.1, d.document m.2)))) ∧
    (∀ es', empty.Known [root] es' →
      Sketch.Reordered (Sketch.empty.marks es) (Sketch.empty.marks es') →
      (empty.editAll es').document root = d.document root) ∧
    ∀ e f : Edit, e.slot < d.slots.size → f.slot < d.slots.size →
      (∀ p, ¬ d.Reaches e.slot p f.slot) → (∀ p, ¬ d.Reaches f.slot p e.slot) →
      ((d.edit e).edit f).document root = ((d.edit f).edit e).document root := by
  intro d sketch
  obtain ⟨hsound, hhanded⟩ := sound_editAll h
  have hshows := Sketch.shows_editAll h
  have hroot := (hhanded root).mp List.mem_cons_self
  refine ⟨hhanded, fun i k j hheld => hheld.bounds hsound.closed,
    fun i k i' k' j => hsound.apart, fun i hi => renders_iff hsound.closed hi,
    fun e he i hi => ⟨?_, ?_, document_edit_apart hsound he hi⟩, ?_, hshows.place_iff,
    fun i members hi => ⟨?_, document_of_some hsound.closed hi⟩, fun es' h' => document_reordered h h',
    fun e f he hf hef hfe => document_exchanged h he hf hef hfe⟩
  · exact document_setScalar_self hsound he hi
  · exact (document_edit hsound he hi).symm
  · rw [document_eq_tree hsound.closed hroot, ← hshows.tree_eq]
  · refine List.pairwise_iff_getElem.mpr fun k k' hk hk' hlt => ?_
    exact hsound.ordered ⟨_, hi, List.getElem?_eq_getElem hk⟩
      ⟨_, hi, List.getElem?_eq_getElem hk'⟩ hlt

/-- three members of the root, of which the second is a list of two items. -/
def reserved : List Edit :=
  [⟨0, .entry "first"⟩, ⟨0, .entry "second"⟩, ⟨0, .entry "pending"⟩, ⟨2, .list 2⟩]

/-- the items are filled last first, and then the first member, whose own member is behind them. -/
def filledLate : List Edit :=
  reserved ++ [⟨5, .scalar (.text "b")⟩, ⟨4, .scalar (.text "a")⟩, ⟨1, .object⟩, ⟨1, .entry "inner"⟩,
    ⟨6, .null⟩]

/-- what is filled late stands where it was reserved, and the items may come in the other order. -/
theorem drawn_as_plain_tree_of_late_items :
    empty.Known [root] reserved ∧ empty.Known [root] filledLate ∧
    (empty.editAll filledLate).document root = .object [("first", .object [("inner", .null)]),
      ("second", .list [.text "a", .text "b"]), ("pending", .null)] ∧
    (((empty.editAll reserved).edit ⟨5, .scalar (.text "b")⟩).edit
        ⟨4, .scalar (.text "a")⟩).document root
      = (((empty.editAll reserved).edit ⟨4, .scalar (.text "a")⟩).edit
        ⟨5, .scalar (.text "b")⟩).document root := by
  have hreserved : empty.Known [root] reserved :=
    ⟨by decide, by decide, by decide, by decide, trivial⟩
  have hfilled : empty.Known [root] filledLate :=
    ⟨by decide, by decide, by decide, by decide, by decide, by decide, by decide, by decide,
      by decide, trivial⟩
  obtain ⟨_, _, _, _, _, hdocument, _⟩ := drawn_as_plain_tree hfilled
  obtain ⟨_, _, _, _, _, _, _, _, _, hexchanged⟩ := drawn_as_plain_tree hreserved
  obtain ⟨hsound, _⟩ := sound_editAll hreserved
  refine ⟨hreserved, hfilled, hdocument.trans rfl, hexchanged _ _ (by decide) (by decide) ?_ ?_⟩
  · intro p hp
    exact absurd (hp.le hsound.closed) (by decide)
  · -- the item that comes first is pending, so that nothing is below it
    intro p hp
    cases p with
    | nil => cases hp
    | cons k p =>
      obtain ⟨m, hm, _⟩ := hp
      have hpending : (empty.editAll reserved).slots[4]? = some .pending := rfl
      cases (holds_iff hpending).mp hm

end Draft
end Batchwise
