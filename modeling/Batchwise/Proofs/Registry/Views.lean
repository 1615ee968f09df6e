import Batchwise.Proofs.Batch.Execution
import Batchwise.Proofs.Gather
import Batchwise.Proofs.Resolver.Build

/-!
# One registry, seen four ways

A registry keeps its bindings in a list and indexes their places by name; the wirings and the
batchers of an execution are made from that list each time.  All four show the same bindings.

* `Registry.Shows`            the binding of each declaration is at its place, and the index has
                              that place under the names: kept by `Shows.add`;
* `Shows.lookup?_eq_some_iff` what is found under two names;
* `entries_wirings`           the wirings without the fold;
* `Execution.batcher?_ofRegistry`   the batcher of a number in a fresh execution;
* `Registry.views_agree`      what the four say of every registry that was built.
-/

namespace Batchwise

variable {S C : Type}

/-- a binding says what its declaration says, under a number. -/
theorem Declaration.eq_of_bind {d : Declaration S C} {id : Nat} {b : Binding S C}
    (h : d.bind id = .ok b) :
    b = ⟨id, d.typeName, d.fieldName, d.parameters, b.signature, d.resolver⟩ := by
  unfold bind at h
  split at h
  · cases h
  · split at h
    · cases h
    · split at h
      · cases h
        rfl
      · cases h

/-- the row of a binding among the wirings of its type. -/
def Binding.wiring (b : Binding S C) : Wiring := ⟨b.fieldName, b.id, b.isBatched⟩

theorem Service.isSome_ofBinding? (b : Binding S C) :
    (ofBinding? b).isSome = b.isBatched := by
  unfold ofBinding? Binding.isBatched Resolver.isBatched
  cases b.resolver <;> rfl

namespace Registry

/-! ### places and names -/

/-- the binding of each declaration is at its place, and the index has that place under the names
of the binding. -/
structure Shows (settings : Settings) (ds : List (Declaration S C)) (r : Registry S C) : Prop where
  settings : r.settings = settings
  bound : ds.mapIdx (fun i d => d.bind i) = r.bindings.map .ok
  named : ∀ {typeName fieldName id}, r.number? typeName fieldName = some id ↔
    ∃ b ∈ r.bindings, b.typeName = typeName ∧ b.fieldName = fieldName ∧ b.id = id

variable {settings : Settings} {ds : List (Declaration S C)} {d : Declaration S C}
  {r r' : Registry S C}

theorem shows_empty (settings : Settings) : Shows settings [] (empty settings : Registry S C) where
  settings := rfl
  bound := rfl
  named := by simp [empty, number?]

theorem Shows.length (h : Shows settings ds r) : r.bindings.length = ds.length := by
  have hlengths := congrArg List.length h.bound
  rw [List.length_mapIdx, List.length_map] at hlengths
  exact hlengths.symm

theorem Shows.add (h : Shows settings ds r) (hadd : r.add d = .ok r') :
    Shows settings (ds ++ [d]) r' := by
  obtain ⟨b, hb, hbindings, hsettings, hfree, hnumber⟩ := add_cases hadd
  refine ⟨hsettings.trans h.settings, ?_, fun {typeName fieldName id} => ?_⟩
  · rw [List.mapIdx_concat, h.bound, hbindings, List.map_append, List.map_singleton, ← h.length, hb]
  · have hmem : (∃ c ∈ r'.bindings, c.typeName = typeName ∧ c.fieldName = fieldName ∧ c.id = id) ↔
        (∃ c ∈ r.bindings, c.typeName = typeName ∧ c.fieldName = fieldName ∧ c.id = id) ∨
          b.typeName = typeName ∧ b.fieldName = fieldName ∧ b.id = id := by
      simp only [hbindings, List.mem_append, List.mem_singleton, or_and_right, exists_or,
        exists_eq_left]
    rw [hmem, ← h.named, hnumber]
    by_cases hnames : b.typeName = typeName ∧ b.fieldName = fieldName
    · -- the names were free, so there is nothing else under them
      obtain ⟨rfl, rfl⟩ := hnames
      simp [hfree]
    · rw [if_neg hnames]
      refine ⟨Or.inl, fun hor => hor.resolve_right fun hb => hnames ⟨hb.1, hb.2.1⟩⟩

/-- **Every registry that was built shows its declarations.** -/
theorem shows_build (h : build settings ds = .ok r) : Shows settings ds r := by
  induction ds using List.reverseRecOn generalizing r with
  | nil =>
    cases h
    exact shows_empty settings
  | append_singleton ds d ih =>
    rw [build_concat] at h
    cases hbuild : build settings ds with
    | error e =>
      rw [hbuild] at h
      cases h
    | ok r₀ =>
      rw [hbuild] at h
      exact (ih hbuild).add h

/-- at each place is the binding of the declaration there. -/
theorem Shows.bind_eq (h : Shows settings ds r) (i : Nat) :
    (ds[i]?).map (fun d => d.bind i) = (r.get? i).map .ok := by
  have hplace := congrArg (·[i]?) h.bound
  rw [List.getElem?_mapIdx, List.getElem?_map] at hplace
  exact hplace

theorem Shows.get?_of_declared (h : Shows settings ds r) {i : Nat} (hd : ds[i]? = some d) :
    ∃ b, r.get? i = some b ∧ d.bind i = .ok b := by
  have hplace := h.bind_eq i
  rw [hd, Option.map_some] at hplace
  obtain ⟨b, hb, heq⟩ := Option.map_eq_some_iff.mp hplace.symm
  exact ⟨b, hb, heq.symm⟩

theorem Shows.declared_of_get? (h : Shows settings ds r) {i : Nat} {b : Binding S C}
    (hb : r.get? i = some b) : ∃ d, ds[i]? = some d ∧ d.bind i = .ok b := by
  have hplace := h.bind_eq i
  rw [hb, Option.map_some] at hplace
  exact Option.map_eq_some_iff.mp hplace

theorem Shows.lookup?_eq_some_iff (h : Shows settings ds r) (hr : r.Sound)
    {typeName fieldName : String} {b : Binding S C} : r.lookup? typeName fieldName = some b ↔
      b ∈ r.bindings ∧ b.typeName = typeName ∧ b.fieldName = fieldName := by
  rw [lookup?_eq, Option.bind_eq_some_iff]
  constructor
  · rintro ⟨id, hid, hb⟩
    obtain ⟨c, hc, htype, hfield, rfl⟩ := h.named.mp hid
    obtain ⟨hb, hbc⟩ := hr.get?_eq_some_iff.mp hb
    rw [hr.eq_of_id hb hc hbc]
    exact ⟨hc, htype, hfield⟩
  · rintro ⟨hb, htype, hfield⟩
    exact ⟨b.id, h.named.mpr ⟨b, hb, htype, hfield, rfl⟩, hr.get?_eq_some_iff.mpr ⟨hb, rfl⟩⟩

/-- under two names is the binding of the declaration that has just these names. -/
theorem Shows.lookup?_iff_declared (h : Shows settings ds r) (hr : r.Sound)
    {typeName fieldName : String} {b : Binding S C} : r.lookup? typeName fieldName = some b ↔
      ∃ i d, ds[i]? = some d ∧ d.typeName = typeName ∧ d.fieldName = fieldName ∧
        r.get? i = some b := by
  rw [h.lookup?_eq_some_iff hr]
  constructor
  · rintro ⟨hb, htype, hfield⟩
    have hget : r.get? b.id = some b := hr.get?_eq_some_iff.mpr ⟨hb, rfl⟩
    obtain ⟨d, hd, hbind⟩ := h.declared_of_get? hget
    have heq := Declaration.eq_of_bind hbind
    exact ⟨b.id, d, hd, (congrArg Binding.typeName heq).symm.trans htype,
      (congrArg Binding.fieldName heq).symm.trans hfield, hget⟩
  · rintro ⟨i, d, hd, htype, hfield, hget⟩
    obtain ⟨c, hc, hbind⟩ := h.get?_of_declared hd
    obtain rfl : b = c := Option.some.inj (hget.symm.trans hc)
    have heq := Declaration.eq_of_bind hbind
    exact ⟨(hr.get?_eq_some_iff.mp hget).1, (congrArg Binding.typeName heq).trans htype,
      (congrArg Binding.fieldName heq).trans hfield⟩

theorem Shows.lookup?_eq_none_iff (h : Shows settings ds r) (hr : r.Sound)
    {typeName fieldName : String} : r.lookup? typeName fieldName = none ↔
      ∀ d ∈ ds, ¬ (d.typeName = typeName ∧ d.fieldName = fieldName) := by
  rw [Option.eq_none_iff_forall_ne_some]
  constructor
  · rintro hnone d hd ⟨htype, hfield⟩
    obtain ⟨i, hi⟩ := List.mem_iff_getElem?.mp hd
    obtain ⟨b, hb, _⟩ := h.get?_of_declared hi
    exact hnone b ((h.lookup?_iff_declared hr).mpr ⟨i, d, hi, htype, hfield, hb⟩)
  · intro hall b hb
    obtain ⟨i, d, hd, htype, hfield, _⟩ := (h.lookup?_iff_declared hr).mp hb
    exact hall d (List.mem_of_getElem? hd) ⟨htype, hfield⟩

/-! ### wirings -/

theorem wirings_eq_gather (r : Registry S C) : r.wirings =
    Table.gather Binding.typeName (fun ws? b => ws?.getD [] ++ [b.wiring]) r.bindings := rfl

/-- types by their first binding, and under each the rows of its bindings in order. -/
theorem entries_wirings (r : Registry S C) :
    r.wirings.entries = (r.bindings.map Binding.typeName).eraseDups.map fun typeName =>
      (typeName, (r.bindings.filter fun b => decide (b.typeName = typeName)).map
        Binding.wiring) := by
  rw [wirings_eq_gather]
  exact Table.entries_gather _ (fun _ => rfl) (fun _ _ => List.map_append) r.bindings

/-- type by type, there is one row for every binding. -/
theorem perm_wirings (r : Registry S C) :
    (r.wirings.entries.flatMap fun e => e.2.map (Prod.mk e.1)).Perm
      (r.bindings.map fun b => (b.typeName, b.wiring)) := by
  have hrows : r.wirings.entries.flatMap (fun e => e.2.map (Prod.mk e.1)) =
      ((r.bindings.map Binding.typeName).eraseDups.flatMap fun typeName =>
        r.bindings.filter fun b => decide (b.typeName = typeName)).map
          fun b => (b.typeName, b.wiring) := by
    rw [entries_wirings, List.flatMap_map, List.map_flatMap]
    refine List.flatMap_congr fun typeName _ => ?_
    dsimp only
    rw [List.map_map]
    refine List.map_congr_left fun b hb => ?_
    rw [of_decide_eq_true (List.mem_filter.mp hb).2]
    rfl
  rw [hrows]
  refine (perm_flatMap_filter Binding.typeName _ r.bindings (nodup_eraseDups _) ?_).map _
  exact fun b hb => List.mem_eraseDups.mpr (List.mem_map_of_mem hb)

theorem Shows.typeNames (h : Shows settings ds r) :
    r.bindings.map Binding.typeName = ds.map Declaration.typeName := by
  refine List.ext_getElem? fun i => ?_
  rw [List.getElem?_map, List.getElem?_map]
  cases hd : ds[i]? with
  | none =>
    have hplace := h.bind_eq i
    rw [hd, Option.map_none] at hplace
    rw [show r.bindings[i]? = none from Option.map_eq_none_iff.mp hplace.symm]
    rfl
  | some d =>
    obtain ⟨b, hb, hbind⟩ := h.get?_of_declared hd
    rw [show r.bindings[i]? = some b from hb]
    exact congrArg some (congrArg Binding.typeName (Declaration.eq_of_bind hbind))

end Registry

/-! ### batchers -/

/-- a fresh execution has a new batcher for the number of each batched binding, and no other. -/
theorem Execution.batcher?_ofRegistry {r : Registry S C} (hr : r.Sound) (id : Nat) :
    (ofRegistry r).batcher? id =
      ((r.get? id).bind Service.ofBinding?).map (Batcher.new r.settings.maxConcurrentGroups) := by
  refine Option.ext fun c => ?_
  rw [Option.map_eq_some_iff]
  constructor
  · intro hc
    obtain ⟨s, hs, rfl⟩ := List.mem_map.mp (List.mem_of_find?_eq_some hc)
    have hid : s.id = id := @number_of_find? _ Batcher.id _ _ _ hc
    obtain ⟨b, hb, hof⟩ := Registry.mem_services.mp hs
    obtain ⟨rfl, _⟩ := Service.ofBinding?_eq_some hof
    refine ⟨s, ?_, rfl⟩
    rw [hr.get?_eq_some_iff.mpr ⟨hb, hid⟩]
    exact hof
  · rintro ⟨s, hs, rfl⟩
    obtain ⟨b, hb, hof⟩ := Option.bind_eq_some_iff.mp hs
    obtain ⟨hmem, rfl⟩ := hr.get?_eq_some_iff.mp hb
    obtain ⟨rfl, _⟩ := Service.ofBinding?_eq_some hof
    exact batcher?_ofRegistry_of_mem hr (Registry.mem_services.mpr ⟨_, hmem, hof⟩)

/-! ### all views -/

/-- **The views of a registry agree.**  Of every registry that was built from a list of
declarations:

* each declaration has its binding at its own place, with that place for a number, and there are no
  other bindings;
* under the names of a type and a field is the binding of the declaration that has just these two
  names, and nothing if there is none; its number leads to it again;
* the wirings have the types in the order of their first declarations and under each of them one
  row for each of its bindings, in order: taken together just one row for every binding;
* a fresh execution has a batcher for a number if and only if the binding there is batched, and it
  is a new one with that binding and that binding's function. -/
theorem Registry.views_agree {settings : Settings} {ds : List (Declaration S C)}
    {r : Registry S C} (h : build settings ds = .ok r) :
    (r.size = ds.length ∧ ∀ i d, ds[i]? = some d → ∃ b, r.get? i = some b ∧
      b.id = i ∧ b.typeName = d.typeName ∧ b.fieldName = d.fieldName ∧
      b.parameters = d.parameters ∧ b.resolver = d.resolver) ∧
    (∀ typeName fieldName,
      (∀ b, r.lookup? typeName fieldName = some b ↔ ∃ i d, ds[i]? = some d ∧
        d.typeName = typeName ∧ d.fieldName = fieldName ∧ r.get? i = some b) ∧
      (r.lookup? typeName fieldName = none ↔
        ∀ d ∈ ds, ¬ (d.typeName = typeName ∧ d.fieldName = fieldName)) ∧
      ∀ b, r.lookup? typeName fieldName = some b → r.get? b.id = some b) ∧
    (r.wirings.entries = (ds.map Declaration.typeName).eraseDups.map (fun typeName =>
        (typeName, (r.bindings.filter fun b => decide (b.typeName = typeName)).map
          Binding.wiring)) ∧
      (r.wirings.entries.flatMap fun e => e.2.map (Prod.mk e.1)).Perm
        (r.bindings.map fun b => (b.typeName, b.wiring)) ∧
      (r.bindings.map Binding.id).Nodup) ∧
    ∀ id, (((Execution.ofRegistry r).batcher? id).isSome = true ↔
        ∃ b, r.get? id = some b ∧ b.isBatched = true) ∧
      ∀ c, (Execution.ofRegistry r).batcher? id = some c →
        r.get? id = some c.service.binding ∧
        c.service.binding.resolver = .batched c.service.shape c.service.run ∧
        c = Batcher.new settings.maxConcurrentGroups c.service := by
  have hr := sound_build h
  have hshows := shows_build h
  refine ⟨⟨hshows.length, fun i d hd => ?_⟩, fun typeName fieldName =>
    ⟨fun b => hshows.lookup?_iff_declared hr, hshows.lookup?_eq_none_iff hr, fun b hb => ?_⟩,
    ⟨hshows.typeNames ▸ entries_wirings r, perm_wirings r, hr.nodup_ids⟩,
    fun id => ⟨?_, fun c hc => ?_⟩⟩
  · obtain ⟨b, hb, hbind⟩ := hshows.get?_of_declared hd
    have heq := Declaration.eq_of_bind hbind
    exact ⟨b, hb, congrArg Binding.id heq, congrArg Binding.typeName heq,
      congrArg Binding.fieldName heq, congrArg Binding.parameters heq,
      congrArg Binding.resolver heq⟩
  · exact hr.get?_eq_some_iff.mpr ⟨mem_of_lookup? hb, rfl⟩
  · rw [Execution.batcher?_ofRegistry hr, Option.isSome_map]
    cases r.get? id with
    | none => simp
    | some b => simp [Service.isSome_ofBinding?]
  · rw [Execution.batcher?_ofRegistry hr, hshows.settings] at hc
    obtain ⟨s, hs, rfl⟩ := Option.map_eq_some_iff.mp hc
    obtain ⟨b, hb, hof⟩ := Option.bind_eq_some_iff.mp hs
    obtain ⟨hbinding, hresolver⟩ := Service.ofBinding?_eq_some hof
    subst hbinding
    exact ⟨hb, hresolver, rfl⟩

/-- types take turns and have points in their names: each field keeps its own place, the rows of a
type come together, and there are batchers for the batched ones alone. -/
theorem Registry.views_agree_of_turns :
    let simple : Resolver Nat Unit := .simple ⟨false, false⟩ fun _ => .ready (.ok .null)
    let batched : Resolver Nat Unit := .batched ⟨false, false⟩ fun _ => .ready (.ok .empty)
    let ds : List (Declaration Nat Unit) := [.plain "Post.author" "name" batched,
      .plain "Post" "author.name" simple, .plain "Post.author" "posts" simple,
      .plain "Post" "title" batched]
    ∃ r, build .default ds = .ok r ∧
      (∃ b, r.lookup? "Post.author" "name" = some b ∧ r.get? 0 = some b) ∧
      (∃ b, r.lookup? "Post" "author.name" = some b ∧ r.get? 1 = some b) ∧
      r.lookup? "Post" "name" = none ∧
      r.wirings.entries = [("Post.author", [⟨"name", 0, true⟩, ⟨"posts", 2, false⟩]),
        ("Post", [⟨"author.name", 1, false⟩, ⟨"title", 3, true⟩])] ∧
      ((Execution.ofRegistry r).batcher? 3).isSome = true ∧
      ((Execution.ofRegistry r).batcher? 2).isSome ≠ true := by
  intro simple batched ds
  obtain ⟨r, hr, hbindings⟩ : ∃ r, build .default ds = .ok r ∧ r.bindings =
      [⟨0, "Post.author", "name", [.sources], ⟨false, none⟩, batched⟩,
        ⟨1, "Post", "author.name", [.source], ⟨false, none⟩, simple⟩,
        ⟨2, "Post.author", "posts", [.source], ⟨false, none⟩, simple⟩,
        ⟨3, "Post", "title", [.sources], ⟨false, none⟩, batched⟩] := ⟨_, rfl, rfl⟩
  have hget := fun id => show r.get? id = _ from congrArg (·[id]?) hbindings
  obtain ⟨⟨_, hplaces⟩, hnames, ⟨hwirings, _⟩, hbatchers⟩ := views_agree hr
  rw [hbindings] at hwirings
  refine ⟨r, hr, ?_, ?_, ?_, hwirings, (hbatchers 3).1.mpr ⟨_, hget 3, rfl⟩, fun hsome => ?_⟩
  · obtain ⟨b, hb, _⟩ := hplaces 0 _ rfl
    exact ⟨b, ((hnames _ _).1 b).mpr ⟨0, _, rfl, rfl, rfl, hb⟩, hb⟩
  · obtain ⟨b, hb, _⟩ := hplaces 1 _ rfl
    exact ⟨b, ((hnames _ _).1 b).mpr ⟨1, _, rfl, rfl, rfl, hb⟩, hb⟩
  · exact (hnames _ _).2.1.mpr (by simp [ds, Declaration.plain])
  · obtain ⟨b, hb, hbatched⟩ := (hbatchers 2).1.mp hsome
    rw [hget] at hb
    cases hb
    cases hbatched

end Batchwise
