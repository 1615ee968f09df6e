import Batchwise.Batch.Execution
import Mathlib.Data.List.Nodup
import Mathlib.Data.List.Range

/-!
# Built registries

What `Registry.build` makes sure of, declaration by declaration.

* `Registry.number?`       the number that the index has for a field of a type;
* `Registry.add_cases`     all that one more declaration changes;
* `Registry.Sound`         bindings are numbered by their places, and every function takes just what
                           its binding declares;
* `Registry.sound_build`   which holds of every registry that was built;
* `Service.ofBinding?_eq_some`   the service of a batched binding.
-/

namespace Batchwise

variable {S C : Type}

theorem Declaration.of_bind {d : Declaration S C} {id : Nat} {b : Binding S C}
    (h : d.bind id = .ok b) : b.id = id ∧ b.signature.fits b.resolver.shape = true := by
  unfold bind at h
  split at h
  · cases h
  · split at h
    · cases h
    · split at h
      · rename_i hfits
        cases h
        exact ⟨rfl, hfits⟩
      · cases h

namespace Registry

/-- bindings are numbered by their places, and every function takes just what is declared. -/
structure Sound (r : Registry S C) : Prop where
  ids : r.bindings.map Binding.id = List.range r.bindings.length
  fits : ∀ b ∈ r.bindings, b.signature.fits b.resolver.shape = true

theorem sound_empty (settings : Settings) : (empty settings : Registry S C).Sound :=
  ⟨rfl, fun _ hb => by cases hb⟩

/-- the number that the index has for a field of a type. -/
def number? (r : Registry S C) (typeName fieldName : String) : Option Nat :=
  (r.index.find? typeName).bind fun fields => fields.find? fieldName

theorem lookup?_eq (r : Registry S C) (typeName fieldName : String) :
    r.lookup? typeName fieldName = (r.number? typeName fieldName).bind r.get? := by
  unfold lookup? number?
  rw [Option.bind_eq_bind, Option.bind_assoc]
  rfl

theorem find?_fields (r : Registry S C) (typeName fieldName : String) :
    ((r.index.find? typeName).getD .empty).find? fieldName = r.number? typeName fieldName := by
  unfold number?
  cases r.index.find? typeName with
  | none => rfl
  | some fields => rfl

/-- a declaration that is in order adds its binding at the end, under names that were free, and
keeps everything else. -/
theorem add_cases {r r' : Registry S C} {d : Declaration S C} (h : r.add d = .ok r') :
    ∃ b, d.bind r.bindings.length = .ok b ∧ r'.bindings = r.bindings ++ [b] ∧
      r'.settings = r.settings ∧ r.number? b.typeName b.fieldName = none ∧
      ∀ typeName fieldName, r'.number? typeName fieldName =
        if b.typeName = typeName ∧ b.fieldName = fieldName then some b.id
        else r.number? typeName fieldName := by
  unfold add at h
  split at h
  · cases h
  · rename_i b hb
    dsimp only at h
    split at h
    · cases h
    · rename_i hfree
      cases h
      refine ⟨b, hb, rfl, rfl, ?_, fun typeName fieldName => ?_⟩
      · rw [← find?_fields]
        exact Option.not_isSome_iff_eq_none.mp hfree
      · unfold number?
        rw [Table.find?_put]
        by_cases htype : b.typeName = typeName
        · subst htype
          rw [if_pos rfl, Option.bind_some, Table.find?_put, find?_fields]
          simp only [true_and, number?]
        · rw [if_neg htype, if_neg fun h => htype h.1]

theorem Sound.add {r r' : Registry S C} {d : Declaration S C} (hr : r.Sound)
    (h : r.add d = .ok r') : r'.Sound := by
  obtain ⟨b, hb, hbindings, _⟩ := add_cases h
  obtain ⟨hid, hfits⟩ := Declaration.of_bind hb
  constructor
  · rw [hbindings, List.map_append, List.map_singleton, hr.ids, hid, List.length_append,
      List.length_singleton, List.range_succ]
  · intro c hc
    rw [hbindings] at hc
    rcases List.mem_append.mp hc with hc | hc
    · exact hr.fits c hc
    · rw [List.mem_singleton.mp hc]
      exact hfits

theorem Sound.addAll {r r' : Registry S C} {ds : List (Declaration S C)} (hr : r.Sound)
    (h : addAll r ds = .ok r') : r'.Sound := by
  induction ds generalizing r with
  | nil =>
    cases h
    exact hr
  | cons d ds ih =>
    rw [Registry.addAll] at h
    split at h
    · cases h
    · rename_i r'' hd
      exact ih (hr.add hd) h

/-- **Every registry that was built is sound.** -/
theorem sound_build {settings : Settings} {ds : List (Declaration S C)} {r : Registry S C}
    (h : build settings ds = .ok r) : r.Sound :=
  (sound_empty settings).addAll h

variable {r : Registry S C}

theorem Sound.nodup_ids (h : r.Sound) : (r.bindings.map Binding.id).Nodup := by
  rw [h.ids]
  exact List.nodup_range

theorem Sound.eq_of_id {b c : Binding S C} (h : r.Sound) (hb : b ∈ r.bindings)
    (hc : c ∈ r.bindings) (hid : b.id = c.id) : b = c :=
  List.inj_on_of_nodup_map h.nodup_ids hb hc hid

/-- a binding is found at its number. -/
theorem Sound.get?_eq_some_iff (h : r.Sound) {id : Nat} {b : Binding S C} :
    r.get? id = some b ↔ b ∈ r.bindings ∧ b.id = id := by
  have hid : ∀ {n : Nat} {c : Binding S C}, r.get? n = some c → c.id = n := fun {n c} hc => by
    have hplace : (r.bindings.map Binding.id)[n]? = some c.id := by
      rw [List.getElem?_map]
      exact congrArg _ hc
    rw [h.ids] at hplace
    obtain ⟨hn, hget⟩ := List.getElem?_eq_some_iff.mp hplace
    exact hget.symm.trans (List.getElem_range hn)
  constructor
  · exact fun hb => ⟨List.mem_of_getElem? hb, hid hb⟩
  · rintro ⟨hb, rfl⟩
    obtain ⟨n, hn⟩ := List.mem_iff_getElem?.mp hb
    rw [hid hn]
    exact hn

theorem mem_of_lookup? {typeName fieldName : String} {b : Binding S C}
    (h : r.lookup? typeName fieldName = some b) : b ∈ r.bindings := by
  rw [lookup?_eq, Option.bind_eq_some_iff] at h
  obtain ⟨id, _, h⟩ := h
  exact List.mem_of_getElem? h

end Registry

/-! ### services -/

namespace Service

theorem ofBinding?_eq_some {b : Binding S C} {s : Service S C} (h : ofBinding? b = some s) :
    s.binding = b ∧ b.resolver = .batched s.shape s.run := by
  unfold ofBinding? at h
  split at h
  · rename_i shape run hres
    cases h
    exact ⟨rfl, hres⟩
  · cases h

/-- the function of a service takes just what its binding declares. -/
structure Fits (s : Service S C) : Prop where
  args : s.shape.takesArgs = s.binding.signature.wantsArgs
  selection : s.shape.takesSelection = s.binding.signature.selection.isSome

theorem fits_of_mem {r : Registry S C} (hr : r.Sound) {b : Binding S C} (hb : b ∈ r.bindings)
    {s : Service S C} (hs : ofBinding? b = some s) : s.Fits := by
  obtain ⟨rfl, hres⟩ := ofBinding?_eq_some hs
  have hfits := hr.fits s.binding hb
  rw [hres] at hfits
  obtain ⟨hargs, hselection⟩ := Bool.and_eq_true_iff.mp hfits
  exact ⟨eq_of_beq hargs, eq_of_beq hselection⟩

end Service
end Batchwise
