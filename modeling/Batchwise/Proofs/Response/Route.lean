import Batchwise.Proofs.Response.Edit

/-!
# Routes through a draft

A route says which reference to follow from slot to slot.  In a sound draft there is at most one
route from one slot to another, and an edit leaves the routes to a slot as they are, but for those
that went on from the edited slot.

* `Draft.Reaches`             a route leads from one slot to another: `reaches_append`;
* `Draft.Reaches.route_eq`    by one route only;
* `Draft.reaches_edit_old`    the routes to a slot that was there before an edit;
* `Draft.reaches_edit_new`    the routes to a slot that the edit reserved.
-/

namespace Batchwise
namespace Draft

/-- the route leads from slot `i` to slot `j`. -/
def Reaches (d : Draft) (i : Nat) : List Nat → Nat → Prop
  | [], j => i = j
  | k :: route, j => ∃ m, d.Holds i k m ∧ Reaches d m route j

theorem reaches_append {d : Draft} {i j : Nat} {p q : List Nat} :
    d.Reaches i (p ++ q) j ↔ ∃ m, d.Reaches i p m ∧ d.Reaches m q j := by
  induction p generalizing i with
  | nil => exact ⟨fun h => ⟨i, rfl, h⟩, fun ⟨m, hm, h⟩ => (show i = m from hm) ▸ h⟩
  | cons k p ih =>
    constructor
    · rintro ⟨x, hx, h⟩
      obtain ⟨m, hm, hrest⟩ := ih.mp h
      exact ⟨m, ⟨x, hx, hm⟩, hrest⟩
    · rintro ⟨m, ⟨x, hx, hm⟩, hrest⟩
      exact ⟨x, hx, ih.mpr ⟨m, hm, hrest⟩⟩

theorem reaches_concat {d : Draft} {i j k : Nat} {p : List Nat} :
    d.Reaches i (p ++ [k]) j ↔ ∃ m, d.Reaches i p m ∧ d.Holds m k j := by
  rw [reaches_append]
  refine exists_congr fun m => and_congr_right fun _ => ?_
  exact ⟨fun ⟨x, hx, hj⟩ => (show x = j from hj) ▸ hx, fun h => ⟨j, h, rfl⟩⟩

namespace Reaches

variable {d d' : Draft} {i j j' : Nat} {p q : List Nat}

/-- a route leads to one slot only. -/
theorem slot_eq (h : d.Reaches i p j) (h' : d.Reaches i p j') : j = j' := by
  induction p generalizing i with
  | nil => exact Eq.trans (Eq.symm h) h'
  | cons k p ih =>
    obtain ⟨m, hm, hrest⟩ := h
    obtain ⟨m', hm', hrest'⟩ := h'
    obtain rfl := hm.unique hm'
    exact ih hrest hrest'

theorem le (h : d.Reaches i p j) (hd : d.Closed) : i ≤ j := by
  induction p generalizing i with
  | nil => exact Nat.le_of_eq h
  | cons k p ih =>
    obtain ⟨m, hm, hrest⟩ := h
    exact Nat.le_trans (Nat.le_of_lt (hm.bounds hd).1) (ih hrest)

theorem lt {k : Nat} (h : d.Reaches i (p ++ [k]) j) (hd : d.Closed) : i < j := by
  obtain ⟨m, hm, hheld⟩ := reaches_concat.mp h
  exact Nat.lt_of_le_of_lt (hm.le hd) (hheld.bounds hd).1

/-- **There is one route from one slot to another**, as each slot has one place. -/
theorem route_eq (h : d.Reaches i p j) (h' : d.Reaches i q j) (hd : d.Sound) : p = q := by
  -- from the end of the routes: what refers to the last slot is one slot, at one number
  induction p using List.reverseRecOn generalizing q j with
  | nil =>
    obtain rfl : i = j := h
    cases q using List.reverseRecOn with
    | nil => rfl
    | append_singleton q k => exact absurd (h'.lt hd.closed) (Nat.lt_irrefl _)
  | append_singleton p k ih =>
    cases q using List.reverseRecOn with
    | nil =>
      obtain rfl : i = j := h'
      exact absurd (h.lt hd.closed) (Nat.lt_irrefl _)
    | append_singleton q k' =>
      obtain ⟨m, hm, hheld⟩ := reaches_concat.mp h
      obtain ⟨m', hm', hheld'⟩ := reaches_concat.mp h'
      obtain ⟨rfl, rfl⟩ := hd.apart hheld hheld'
      rw [ih hm hm']

/-- a route leads the same way in another draft where its steps are the same. -/
theorem transfer (h : d.Reaches i p j) (hd : d.Closed)
    (hstep : ∀ us k vs x m, p = us ++ k :: vs → d.Reaches i us x → d.Holds x k m → m ≤ j →
      d'.Holds x k m) : d'.Reaches i p j := by
  induction p generalizing i with
  | nil => exact h
  | cons k p ih =>
    obtain ⟨m, hm, hrest⟩ := h
    refine ⟨m, hstep [] k p i m rfl rfl hm (hrest.le hd), ih hrest ?_⟩
    intro us k' vs x m' hsplit hx hheld hle
    exact hstep (k :: us) k' vs x m' (congrArg (List.cons k) hsplit) ⟨m, hm, hx⟩ hheld hle

end Reaches

/-! ### routes after an edit -/

section

variable {d : Draft} {e : Edit} {r i : Nat} {p : List Nat}

/-- a route to an old slot was there before. -/
theorem reaches_of_edit (hd : d.Sound) (he : e.slot < d.slots.size) (hi : i < d.slots.size)
    (h : (d.edit e).Reaches r p i) : d.Reaches r p i := by
  have hedited := edited hd.closed he
  refine h.transfer (hd.edit he).closed fun us k vs x m _ _ hheld hle => ?_
  rcases holds_edit_cases hedited hheld with ⟨hold, _⟩ | ⟨_, _, n, _, _, _, hm⟩
  · exact hold
  · omega

/-- **The routes to a slot that was there** stay; but if what was in the edited slot is gone, none
goes on from it. -/
theorem reaches_edit_old (hd : d.Sound) (he : e.slot < d.slots.size) (hi : i < d.slots.size) :
    (d.edit e).Reaches r p i ↔ d.Reaches r p i ∧
      (e.change.keeps = true ∨ ∀ q, d.Reaches r q e.slot → q <+: p → q = p) := by
  have hedited := edited hd.closed he
  constructor
  · intro h
    refine ⟨reaches_of_edit hd he hi h, ?_⟩
    by_cases hkeeps : e.change.keeps = true
    · exact Or.inl hkeeps
    · refine Or.inr fun q hq ⟨vs, hvs⟩ => ?_
      subst hvs
      obtain ⟨m, hm, hrest⟩ := reaches_append.mp h
      cases vs with
      | nil => exact (List.append_nil q).symm
      | cons k vs =>
        obtain ⟨x, hheld, hx⟩ := hrest
        have hxi := hx.le (hd.edit he).closed
        have hmx := (hheld.bounds (hd.edit he).closed).1
        have hslot : m = e.slot := (reaches_of_edit hd he (by omega) hm).slot_eq hq
        rcases holds_edit_cases hedited hheld with ⟨_, hkeeps'⟩ | ⟨_, _, n, _, _, _, hn⟩
        · exact absurd (hkeeps' hslot) hkeeps
        · omega
  · rintro ⟨h, hcut⟩
    refine h.transfer hd.closed fun us k vs x m hsplit hx hheld _ => ?_
    by_cases hxe : x = e.slot
    · subst hxe
      obtain ⟨s, hs, hk⟩ := hheld
      refine (holds_edit_self hedited hs).mpr (Or.inl ⟨?_, s, hs, hk⟩)
      rcases hcut with hkeeps | hcut
      · exact hkeeps
      · have heq := hcut us hx ⟨k :: vs, hsplit.symm⟩
        rw [heq] at hsplit
        exact absurd (List.self_eq_append_right.mp hsplit) (List.cons_ne_nil _ _)
    · exact (holds_edit_other hedited hxe).mpr hheld

/-- **The route to a reserved slot** is the one to the edited slot and one step more, if the slot
took it. -/
theorem reaches_edit_new (hd : d.Sound) (he : e.slot < d.slots.size) (hr : r < d.slots.size)
    {s : Slot} (hs : d.slots[e.slot]? = some s) (n : Nat) :
    (d.edit e).Reaches r p (d.slots.size + n) ↔ n < e.change.links s ∧
      ∃ q, d.Reaches r q e.slot ∧ p = q ++ [e.change.base s + n] := by
  have hedited := edited hd.closed he
  constructor
  · intro h
    cases p using List.reverseRecOn with
    | nil =>
      have heq : r = d.slots.size + n := h
      omega
    | append_singleton q k =>
      obtain ⟨m, hm, hheld⟩ := reaches_concat.mp h
      rcases holds_edit_cases hedited hheld with ⟨hold, _⟩ | ⟨rfl, s', n', hs', hn, rfl, heq⟩
      · have hlt := (hold.bounds hd.closed).2
        omega
      · rw [hs] at hs'
        cases hs'
        obtain rfl := Nat.add_left_cancel heq
        exact ⟨hn, q, reaches_of_edit hd he he hm, rfl⟩
  · rintro ⟨hn, q, hq, rfl⟩
    refine reaches_concat.mpr ⟨e.slot, (reaches_edit_old hd he he).mpr ⟨hq, Or.inr ?_⟩, ?_⟩
    · exact fun q' hq' _ => hq'.route_eq hq hd
    · exact (holds_edit_self hedited hs).mpr (Or.inr ⟨n, hn, rfl, rfl⟩)

end

end Draft
end Batchwise
