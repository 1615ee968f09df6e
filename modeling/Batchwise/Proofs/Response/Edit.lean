import Batchwise.Proofs.Response.Draft
import Mathlib.Data.List.Induction

/-!
# Editing a draft

A draft is made by edits, one after the other, each of a slot that was handed out before: the root,
or a slot that an earlier edit reserved.  One spec says what an edit does to each slot; what holds
of every draft that is made in this way follows from it.

* `Draft.Edit`, `Draft.edit`, `Draft.editAll`   edits, and what comes of them;
* `Draft.Known`          every edit is of a slot that was handed out before;
* `Draft.edited`         what one edit does to each slot: one slot changes, new ones are pending;
* `Draft.Holds`          slot `i` refers to slot `j` as its number `k`: `holds_edit`;
* `Draft.Sound`          references lead behind, each slot has one place, and places are in order:
                         `Sound.edit`, `sound_editAll`.
-/

namespace Batchwise

/-! ### changes of a slot -/

/-- what an edit does to a slot. -/
inductive Change
  /-- one more member of the object that is there. -/
  | entry (key : String)
  | object
  | list (size : Nat)
  | null
  | scalar (value : Document)

namespace Change

/-- the number of slots that are reserved. -/
def reserves : Change → Nat
  | entry _ => 1
  | list size => size
  | _ => 0

/-- what was in the slot stays there. -/
def keeps : Change → Bool
  | entry _ => true
  | _ => false

/-- what is in a slot afterwards, when the slots from `first` on are reserved. -/
def rewrite (first : Nat) : Change → Slot → Slot
  | entry key, .object members => .object (members ++ [(key, first)])
  | entry _, s => s
  | object, _ => .object []
  | list size, _ => .list (List.range' first size)
  | null, _ => .null
  | scalar value, _ => .scalar value

/-- the number of reserved slots that the slot refers to: only an object takes an entry. -/
def links : Change → Slot → Nat
  | entry _, .object _ => 1
  | list size, _ => size
  | _, _ => 0

theorem links_le_reserves (c : Change) (s : Slot) : c.links s ≤ c.reserves := by
  cases c with
  | entry key =>
    cases s with
    | object members => exact Nat.le_refl 1
    | _ => exact Nat.zero_le 1
  | list size => exact Nat.le_refl size
  | _ => exact Nat.le_refl 0

/-- the number of references that stay. -/
def base (c : Change) (s : Slot) : Nat := if c.keeps then s.refs.length else 0

theorem refs_rewrite (c : Change) (first : Nat) (s : Slot) :
    (c.rewrite first s).refs
      = (if c.keeps then s.refs else []) ++ List.range' first (c.links s) := by
  cases c with
  | entry key =>
    cases s with
    | object members => exact List.map_append
    | _ => exact (List.append_nil _).symm
  | _ => rfl

end Change

namespace Draft

/-! ### edits -/

/-- a change of one slot. -/
structure Edit where
  slot : Nat
  change : Change

/-- a draft after an edit. -/
def edit (d : Draft) (e : Edit) : Draft :=
  match e.change with
  | .entry key => (d.addEntry e.slot key).draft
  | .object => d.setObject e.slot
  | .list size => (d.setList e.slot size).draft
  | .null => d.setNull e.slot
  | .scalar value => d.setScalar e.slot value

/-- the slots that an edit hands out. -/
def handed (d : Draft) (e : Edit) : List Nat :=
  match e.change with
  | .entry key => [(d.addEntry e.slot key).slot]
  | .list size => List.range' (d.setList e.slot size).slot size
  | _ => []

/-- a draft after edits. -/
def editAll (d : Draft) (es : List Edit) : Draft := es.foldl edit d

theorem editAll_append (d : Draft) (es fs : List Edit) :
    d.editAll (es ++ fs) = (d.editAll es).editAll fs := List.foldl_append

theorem editAll_concat (d : Draft) (es : List Edit) (e : Edit) :
    d.editAll (es ++ [e]) = (d.editAll es).edit e := List.foldl_concat _ _ _ _

/-- the slots that edits hand out. -/
def handedAll (d : Draft) : List Edit → List Nat
  | [] => []
  | e :: es => d.handed e ++ handedAll (d.edit e) es

/-- every edit is of a slot that is known at first, or that was handed out before. -/
def Known (d : Draft) (known : List Nat) : List Edit → Prop
  | [] => True
  | e :: es => e.slot ∈ known ∧ Known (d.edit e) (known ++ d.handed e) es

/-! ### what one edit does -/

/-- one slot is changed, new ones are pending, and the others stay as they are. -/
structure Edited (d : Draft) (e : Edit) (d' : Draft) : Prop where
  size_eq : d'.slots.size = d.slots.size + e.change.reserves
  self : d'.slots[e.slot]? = d.slots[e.slot]?.map (e.change.rewrite d.slots.size)
  other : ∀ i < d.slots.size, i ≠ e.slot → d'.slots[i]? = d.slots[i]?
  new : ∀ i, d.slots.size ≤ i → i < d'.slots.size → d'.slots[i]? = some .pending

theorem edited_fill {d : Draft} {slot : Nat} {value : Slot} (h : slot < d.slots.size)
    {c : Change} (hreserves : c.reserves = 0) (hvalue : ∀ s, c.rewrite d.slots.size s = value) :
    Edited d ⟨slot, c⟩ (d.fill slot value) := by
  refine ⟨?_, ?_, fun i _ hi => getElem?_fill_other d hi value, fun i hi hlt => ?_⟩
  · rw [size_fill, hreserves, Nat.add_zero]
  · rw [getElem?_fill_self h, Array.getElem?_eq_getElem h, Option.map_some, hvalue]
  · rw [size_fill] at hlt
    omega

theorem edited_addEntry {d : Draft} {parent : Nat} (h : parent < d.slots.size) (key : String) :
    Edited d ⟨parent, .entry key⟩ (d.addEntry parent key).draft := by
  have hne : ∀ {i}, d.slots.size ≤ i → i ≠ parent := fun hi heq => by omega
  obtain ⟨s, hs⟩ : ∃ s, d.slots[parent]? = some s := ⟨_, Array.getElem?_eq_getElem h⟩
  have hlt : parent < d.reserve.slots.size := by
    rw [size_reserve]
    omega
  have hnew : ∀ i, d.slots.size ≤ i → i < d.slots.size + 1 →
      d.reserve.slots[i]? = some .pending := fun i hi hi' => by
    obtain rfl : i = d.slots.size := by omega
    exact getElem?_reserve_new d
  cases s with
  | object members =>
    rw [addEntry_eq parent key hs]
    refine ⟨?_, ?_, fun i hi hip => ?_, fun i hi hi' => ?_⟩
    · rw [size_fill, size_reserve]
      rfl
    · rw [getElem?_fill_self hlt, hs]
      rfl
    · rw [getElem?_fill_other _ hip, getElem?_reserve_old d hi]
    · rw [size_fill, size_reserve] at hi'
      rw [getElem?_fill_other _ (hne hi)]
      exact hnew i hi hi'
  | _ =>
    have heq : (d.addEntry parent key).draft = d.reserve := by
      unfold addEntry
      dsimp only
      rw [getElem?_reserve_old d h, hs]
    rw [heq]
    refine ⟨size_reserve d, ?_, fun i hi _ => getElem?_reserve_old d hi, fun i hi hi' => ?_⟩
    · rw [getElem?_reserve_old d h, hs]
      rfl
    · rw [size_reserve] at hi'
      exact hnew i hi hi'

theorem edited_setList {d : Draft} (hd : d.Closed) {slot : Nat} (h : slot < d.slots.size)
    (size : Nat) : Edited d ⟨slot, .list size⟩ (d.setList slot size).draft := by
  have hsize : (d.setList slot size).draft.slots.size = d.slots.size + size :=
    (size_fill _ _ _).trans (size_reserveMany size d)
  obtain ⟨hgrows, hself, hpending⟩ := grows_setList hd h size
  refine ⟨hsize, ?_, fun i hi hne => ?_, fun i hi hi' => ?_⟩
  · rw [hself, Array.getElem?_eq_getElem h]
    rfl
  · exact hgrows.kept i hi fun hm => hne (List.mem_singleton.mp hm)
  · rw [hsize] at hi'
    exact hpending i (List.mem_range'_1.mpr ⟨hi, hi'⟩)

/-- **What an edit does.** -/
theorem edited {d : Draft} (hd : d.Closed) {e : Edit} (he : e.slot < d.slots.size) :
    Edited d e (d.edit e) := by
  obtain ⟨slot, change⟩ := e
  cases change with
  | entry key => exact edited_addEntry he key
  | list size => exact edited_setList hd he size
  | object => exact edited_fill he rfl fun _ => rfl
  | null => exact edited_fill he rfl fun _ => rfl
  | scalar value => exact edited_fill he rfl fun _ => rfl

/-! ### references -/

/-- slot `i` refers to slot `j`, as the number `k` of what it refers to. -/
def Holds (d : Draft) (i k j : Nat) : Prop := ∃ s, d.slots[i]? = some s ∧ s.refs[k]? = some j

theorem holds_iff {d : Draft} {i k j : Nat} {s : Slot} (h : d.slots[i]? = some s) :
    d.Holds i k j ↔ s.refs[k]? = some j := by
  constructor
  · rintro ⟨s', hs', hk⟩
    rw [h] at hs'
    cases hs'
    exact hk
  · exact fun hk => ⟨s, h, hk⟩

theorem Holds.lt_size {d : Draft} {i k j : Nat} (h : d.Holds i k j) : i < d.slots.size := by
  obtain ⟨s, hs, _⟩ := h
  exact (Array.getElem?_eq_some_iff.mp hs).1

theorem Holds.bounds {d : Draft} {i k j : Nat} (h : d.Holds i k j) (hd : d.Closed) :
    i < j ∧ j < d.slots.size := by
  obtain ⟨s, hs, hk⟩ := h
  exact hd i s hs j (List.mem_of_getElem? hk)

theorem Holds.unique {d : Draft} {i k j j' : Nat} (h : d.Holds i k j) (h' : d.Holds i k j') :
    j = j' := by
  obtain ⟨s, hs, hk⟩ := h
  rw [holds_iff hs, hk] at h'
  exact Option.some.inj h'

/-- the edited slot refers to what it referred to if that stays, and to reserved slots behind. -/
theorem holds_edit_self {d d' : Draft} {e : Edit} (h : Edited d e d') {s : Slot}
    (hs : d.slots[e.slot]? = some s) {k j : Nat} :
    d'.Holds e.slot k j ↔ e.change.keeps = true ∧ d.Holds e.slot k j ∨
      ∃ n < e.change.links s, k = e.change.base s + n ∧ j = d.slots.size + n := by
  have hself : d'.slots[e.slot]? = some (e.change.rewrite d.slots.size s) := by
    rw [h.self, hs, Option.map_some]
  have hrange : ∀ k, (List.range' d.slots.size (e.change.links s))[k]? = some j ↔
      k < e.change.links s ∧ j = d.slots.size + k := fun k => by
    rw [List.getElem?_eq_some_iff]
    simp only [List.length_range', List.getElem_range', Nat.one_mul, exists_prop]
    exact and_congr_right fun _ => eq_comm
  rw [holds_iff hself, holds_iff hs, Change.refs_rewrite, Change.base]
  by_cases hkeeps : e.change.keeps = true
  · rw [if_pos hkeeps, if_pos hkeeps, List.getElem?_append]
    split
    · rename_i hlt
      refine ⟨fun hk => Or.inl ⟨hkeeps, hk⟩, ?_⟩
      rintro (⟨_, hk⟩ | ⟨n, _, rfl, _⟩)
      · exact hk
      · omega
    · rename_i hge
      rw [hrange]
      constructor
      · rintro ⟨hlt, hj⟩
        exact Or.inr ⟨k - s.refs.length, hlt, by omega, hj⟩
      · rintro (⟨_, hk⟩ | ⟨n, hn, rfl, hj⟩)
        · exact absurd (List.getElem?_eq_some_iff.mp hk).1 hge
        · rw [Nat.add_sub_cancel_left]
          exact ⟨hn, hj⟩
  · rw [if_neg hkeeps, if_neg hkeeps, List.nil_append, hrange]
    constructor
    · rintro ⟨hlt, hj⟩
      exact Or.inr ⟨k, hlt, (Nat.zero_add k).symm, hj⟩
    · rintro (⟨hkeeps', _⟩ | ⟨n, hn, rfl, hj⟩)
      · exact absurd hkeeps' hkeeps
      · rw [Nat.zero_add]
        exact ⟨hn, hj⟩

/-- the other slots refer to what they referred to. -/
theorem holds_edit_other {d d' : Draft} {e : Edit} (h : Edited d e d') {i k j : Nat}
    (hi : i ≠ e.slot) : d'.Holds i k j ↔ d.Holds i k j := by
  by_cases hlt : i < d.slots.size
  · unfold Holds
    rw [h.other i hlt hi]
  · refine iff_of_false (fun hnew => ?_) fun hold => hlt hold.lt_size
    rw [holds_iff (h.new i (Nat.not_lt.mp hlt) hnew.lt_size)] at hnew
    cases hnew

/-- **What is referred to after an edit** was referred to before at the same place, or it is a
reserved slot that the edited slot refers to. -/
theorem holds_edit_cases {d d' : Draft} {e : Edit} (h : Edited d e d') {i k j : Nat}
    (hheld : d'.Holds i k j) : (d.Holds i k j ∧ (i = e.slot → e.change.keeps = true)) ∨
      i = e.slot ∧ ∃ s n, d.slots[e.slot]? = some s ∧ n < e.change.links s ∧
        k = e.change.base s + n ∧ j = d.slots.size + n := by
  by_cases hi : i = e.slot
  · subst hi
    obtain ⟨s, hs⟩ : ∃ s, d.slots[e.slot]? = some s := by
      obtain ⟨s', hs', _⟩ := hheld
      rw [h.self] at hs'
      obtain ⟨s, hs, _⟩ := Option.map_eq_some_iff.mp hs'
      exact ⟨s, hs⟩
    rcases (holds_edit_self h hs).mp hheld with ⟨hkeeps, hold⟩ | ⟨n, hn, hk, hj⟩
    · exact Or.inl ⟨hold, fun _ => hkeeps⟩
    · exact Or.inr ⟨rfl, s, n, hs, hn, hk, hj⟩
  · exact Or.inl ⟨(holds_edit_other h hi).mp hheld, fun heq => absurd heq hi⟩

/-! ### what holds of every draft -/

/-- references lead to slots behind; a slot is referred to at one place; and what a slot refers to
stands in the order of reservation. -/
structure Sound (d : Draft) : Prop where
  closed : d.Closed
  apart : ∀ {i k i' k' j}, d.Holds i k j → d.Holds i' k' j → i = i' ∧ k = k'
  ordered : ∀ {i k k' j j'}, d.Holds i k j → d.Holds i k' j' → k < k' → j < j'

theorem closed_of_holds {d : Draft} (h : ∀ i k j, d.Holds i k j → i < j ∧ j < d.slots.size) :
    d.Closed := fun i s hs j hj => by
  obtain ⟨k, hk⟩ := List.mem_iff_getElem?.mp hj
  exact h i k j ⟨s, hs, hk⟩

theorem sound_empty : empty.Sound := by
  have hnone : ∀ {i k j}, ¬ empty.Holds i k j := fun {i k j} h => by
    have hlt := (h.bounds closed_empty).1
    have hle : j < 1 := (h.bounds closed_empty).2
    omega
  exact ⟨closed_empty, fun h _ => absurd h hnone, fun h _ _ => absurd h hnone⟩

/-- **An edit keeps a draft sound.** -/
theorem Sound.edit {d : Draft} (hd : d.Sound) {e : Edit} (he : e.slot < d.slots.size) :
    (d.edit e).Sound := by
  have h := edited hd.closed he
  refine ⟨closed_of_holds fun i k j hheld => ?_, fun {i k i' k' j} hheld hheld' => ?_,
    fun {i k k' j j'} hheld hheld' hlt => ?_⟩
  · rw [h.size_eq]
    rcases holds_edit_cases h hheld with ⟨hold, _⟩ | ⟨rfl, s, n, _, hn, _, rfl⟩
    · have hbounds := hold.bounds hd.closed
      omega
    · have hle := e.change.links_le_reserves s
      omega
  · rcases holds_edit_cases h hheld with ⟨hold, _⟩ | ⟨rfl, s, n, hs, _, rfl, rfl⟩
    · have hbounds := hold.bounds hd.closed
      rcases holds_edit_cases h hheld' with ⟨hold', _⟩ | ⟨_, _, n, _, _, _, hj⟩
      · exact hd.apart hold hold'
      · omega
    · rcases holds_edit_cases h hheld' with ⟨hold', _⟩ | ⟨rfl, s', n', hs', _, rfl, hj⟩
      · have hbounds := hold'.bounds hd.closed
        omega
      · rw [hs] at hs'
        cases hs'
        exact ⟨rfl, congrArg _ (Nat.add_left_cancel hj)⟩
  · rcases holds_edit_cases h hheld' with ⟨hold', hkeeps⟩ | ⟨rfl, s', n', hs', _, rfl, rfl⟩
    · rcases holds_edit_cases h hheld with ⟨hold, _⟩ | ⟨rfl, s, n, hs, _, rfl, rfl⟩
      · exact hd.ordered hold hold' hlt
      · -- what was reserved stands behind all that was there
        obtain ⟨hk', _⟩ := List.getElem?_eq_some_iff.mp ((holds_iff hs).mp hold')
        rw [Change.base, if_pos (hkeeps rfl)] at hlt
        omega
    · rcases holds_edit_cases h hheld with ⟨hold, _⟩ | ⟨_, s, n, hs, _, rfl, rfl⟩
      · have hbounds := hold.bounds hd.closed
        omega
      · rw [hs] at hs'
        cases hs'
        omega

/-! ### known slots -/

theorem handed_eq (d : Draft) (e : Edit) :
    d.handed e = List.range' d.slots.size e.change.reserves := by
  obtain ⟨slot, change⟩ := e
  cases change with
  | entry key =>
    show [(d.addEntry slot key).slot] = [d.slots.size]
    unfold addEntry
    dsimp only
    split
    · rfl
    · rfl
  | _ => rfl

theorem mem_handedAll_concat {d : Draft} {es : List Edit} {e : Edit} {i : Nat} :
    i ∈ d.handedAll (es ++ [e]) ↔ i ∈ d.handedAll es ∨ i ∈ (d.editAll es).handed e := by
  induction es generalizing d with
  | nil =>
    show i ∈ d.handed e ++ [] ↔ _
    rw [List.append_nil]
    exact (or_iff_right (by rintro ⟨⟩)).symm
  | cons f es ih =>
    show i ∈ d.handed f ++ (d.edit f).handedAll (es ++ [e]) ↔ i ∈ d.handed f ++ _ ∨ _
    rw [List.mem_append, ih, List.mem_append, or_assoc]
    rfl

theorem known_concat {d : Draft} {known : List Nat} {es : List Edit} {e : Edit} :
    d.Known known (es ++ [e]) ↔
      d.Known known es ∧ e.slot ∈ known ++ d.handedAll es := by
  induction es generalizing d known with
  | nil =>
    show (e.slot ∈ known ∧ True) ↔ True ∧ e.slot ∈ known ++ []
    rw [List.append_nil, and_comm]
  | cons f es ih =>
    show (f.slot ∈ known ∧ (d.edit f).Known (known ++ d.handed f) (es ++ [e])) ↔
      (f.slot ∈ known ∧ (d.edit f).Known (known ++ d.handed f) es) ∧
        e.slot ∈ known ++ (d.handed f ++ (d.edit f).handedAll es)
    rw [ih, List.append_assoc, and_assoc]

/-- **Every draft that is made by edits of known slots is sound**, and the slots that were handed
out are just those that it has. -/
theorem sound_editAll {es : List Edit} (h : empty.Known [root] es) :
    (empty.editAll es).Sound ∧
      ∀ i, i ∈ root :: empty.handedAll es ↔ i < (empty.editAll es).slots.size := by
  induction es using List.reverseRecOn with
  | nil =>
    refine ⟨sound_empty, fun i => ?_⟩
    rw [handedAll, List.mem_singleton]
    exact Nat.lt_one_iff.symm
  | append_singleton es e ih =>
    obtain ⟨hknown, he⟩ := known_concat.mp h
    obtain ⟨hsound, hhanded⟩ := ih hknown
    have hlt := (hhanded e.slot).mp he
    rw [editAll_concat]
    refine ⟨hsound.edit hlt, fun i => ?_⟩
    rw [(edited hsound.closed hlt).size_eq, List.mem_cons, mem_handedAll_concat, ← or_assoc,
      ← List.mem_cons, hhanded, handed_eq, List.mem_range'_1]
    omega

end Draft
end Batchwise
