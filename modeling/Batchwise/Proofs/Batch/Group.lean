import Batchwise.Batch.Group
import Batchwise.Proofs.Gather

/-!
# The groups of pending calls

`groupPending` folds over the pending calls and updates groups, sources and members at once.
Here its result is written down without the fold.

* `Group.serving`           the group that serves a list of calls;
* `entries_groupPending`    one group for each group key in the order of first occurrence, and it
                            serves just the calls of that key;
* `Group.Aligned`           the sources of a group are those of its members, one for each;
* `aligned_of_mem_groups`   which holds where the keys are distinct and carry one context.
-/

set_option linter.unusedSectionVars false

namespace Batchwise

variable {S C : Type} [DecidableEq S] [DecidableEq C]

/-! ### the group of a list of calls -/

namespace Group

/-- the group that serves some calls: with the arguments and the selection of the first one. -/
def serving : List (Key S C × Pending) → Group S C
  | [] => ⟨.empty, none, [], []⟩
  | e :: es => (e :: es).foldl (fun g f => g.add f.1 f.2.ticket) (start e.2)

theorem serving_concat {es : List (Key S C × Pending)} (e : Key S C × Pending) (h : es ≠ []) :
    serving (es ++ [e]) = (serving es).add e.1 e.2.ticket := by
  cases es with
  | nil => exact absurd rfl h
  | cons f fs =>
    show (f :: fs ++ [e]).foldl _ (start f.2) = _
    rw [List.foldl_append]
    rfl

theorem serving_singleton (e : Key S C × Pending) :
    serving [e] = (start e.2).add e.1 e.2.ticket := rfl

theorem members_serving (es : List (Key S C × Pending)) :
    (serving es).members = es.map fun e => (e.1, e.2.ticket) := by
  induction es using List.reverseRecOn with
  | nil => rfl
  | append_singleton es e ih =>
    by_cases h : es = []
    · subst h
      rfl
    · rw [serving_concat e h, List.map_append]
      show (serving es).members ++ _ = _
      rw [ih]
      rfl

theorem sources_serving (es : List (Key S C × Pending)) :
    (serving es).sources = (es.map fun e => e.1.source).eraseDups := by
  induction es using List.reverseRecOn with
  | nil => rfl
  | append_singleton es e ih =>
    by_cases h : es = []
    · subst h
      rfl
    · rw [serving_concat e h, List.map_append, List.map_cons, List.map_nil, eraseDups_concat, ← ih]
      have hm : e.1.source ∈ (es.map fun e => e.1.source) ↔ e.1.source ∈ (serving es).sources := by
        rw [ih, List.mem_eraseDups]
      show (if e.1.source ∈ (serving es).sources then _ else _) = _
      by_cases hs : e.1.source ∈ (serving es).sources
      · rw [if_pos hs, if_pos (hm.mpr hs)]
      · rw [if_neg hs, if_neg (fun hes => hs (hm.mp hes))]

theorem args_serving (e : Key S C × Pending) (es : List (Key S C × Pending)) :
    (serving (e :: es)).args = e.2.args := by
  induction es using List.reverseRecOn with
  | nil => rfl
  | append_singleton es f ih =>
    rw [← List.cons_append, serving_concat f (List.cons_ne_nil e es)]
    exact ih

theorem selection_serving (e : Key S C × Pending) (es : List (Key S C × Pending)) :
    (serving (e :: es)).selection = e.2.selection := by
  induction es using List.reverseRecOn with
  | nil => rfl
  | append_singleton es f ih =>
    rw [← List.cons_append, serving_concat f (List.cons_ne_nil e es)]
    exact ih

/-- the sources of a group are those of its members, each once. -/
structure Aligned (g : Group S C) : Prop where
  sources_eq : g.sources = g.members.map fun m => m.1.source
  nodup : g.sources.Nodup

end Group

/-! ### all groups -/

/-- the calls of one group key. -/
def callsOf (es : List (Key S C × Pending)) (k : GroupKey) : List (Key S C × Pending) :=
  es.filter fun e => decide (e.1.groupKey = k)

theorem mem_callsOf {es : List (Key S C × Pending)} {k : GroupKey} {e : Key S C × Pending} :
    e ∈ callsOf es k ↔ e ∈ es ∧ e.1.groupKey = k := by
  simp [callsOf]

theorem callsOf_concat (es : List (Key S C × Pending)) (e : Key S C × Pending) (k : GroupKey) :
    callsOf (es ++ [e]) k = if e.1.groupKey = k then callsOf es k ++ [e] else callsOf es k := by
  unfold callsOf
  rw [List.filter_append]
  by_cases h : e.1.groupKey = k
  · simp [h]
  · simp [h]

/-- the group keys of some calls in the order of first occurrence. -/
def groupKeys (es : List (Key S C × Pending)) : List GroupKey :=
  (es.map fun e => e.1.groupKey).eraseDups

theorem mem_groupKeys {es : List (Key S C × Pending)} {k : GroupKey} :
    k ∈ groupKeys es ↔ ∃ e ∈ es, e.1.groupKey = k := by
  rw [groupKeys, List.mem_eraseDups, List.mem_map]

theorem callsOf_ne_nil {es : List (Key S C × Pending)} {k : GroupKey} :
    callsOf es k ≠ [] ↔ k ∈ groupKeys es := by
  rw [mem_groupKeys]
  constructor
  · intro h
    obtain ⟨e, he⟩ := List.exists_mem_of_ne_nil _ h
    exact ⟨e, mem_callsOf.mp he⟩
  · rintro ⟨e, he⟩
    exact List.ne_nil_of_mem (mem_callsOf.mpr he)

theorem groupPending_eq_gather (es : List (Key S C × Pending)) :
    groupPending es = Table.gather (fun e => e.1.groupKey)
      (fun g? e => (g?.getD (Group.start e.2)).add e.1 e.2.ticket) es := rfl

/-- one group for each group key, in the order of first occurrence, that serves its calls. -/
theorem entries_groupPending (es : List (Key S C × Pending)) :
    (groupPending es).entries = (groupKeys es).map fun k => (k, Group.serving (callsOf es k)) := by
  rw [groupPending_eq_gather]
  exact Table.entries_gather _ Group.serving_singleton Group.serving_concat es

theorem values_groupPending (es : List (Key S C × Pending)) :
    (groupPending es).values = (groupKeys es).map fun k => Group.serving (callsOf es k) := by
  unfold Table.values
  rw [entries_groupPending, List.map_map]
  rfl

theorem mem_groups {es : List (Key S C × Pending)} {g : Group S C} :
    g ∈ (groupPending es).values ↔ ∃ k ∈ groupKeys es, g = Group.serving (callsOf es k) := by
  rw [values_groupPending, List.mem_map]
  exact exists_congr fun k => and_congr_right fun _ => eq_comm

theorem exists_mem_members {es : List (Key S C × Pending)} {e : Key S C × Pending} (h : e ∈ es) :
    ∃ g ∈ (groupPending es).values, g = Group.serving (callsOf es e.1.groupKey) ∧
      (e.1, e.2.ticket) ∈ g.members := by
  refine ⟨_, mem_groups.mpr ⟨_, mem_groupKeys.mpr ⟨e, h, rfl⟩, rfl⟩, rfl, ?_⟩
  rw [Group.members_serving]
  exact List.mem_map.mpr ⟨e, mem_callsOf.mpr ⟨h, rfl⟩, rfl⟩

/-- a key is its source, its group key and its context. -/
theorem Key.eq_of_parts {k l : Key S C} (hsource : k.source = l.source)
    (hgroup : k.groupKey = l.groupKey) (hcontext : k.context = l.context) : k = l := by
  have hargs : k.args = l.args := congrArg Prod.fst hgroup
  have hselection : k.selection = l.selection := congrArg Prod.snd hgroup
  calc k = ⟨k.source, k.args, k.selection, k.context⟩ := rfl
    _ = ⟨l.source, l.args, l.selection, l.context⟩ := by
      rw [hsource, hargs, hselection, hcontext]
    _ = l := rfl

/-- calls of one key that carry one context have distinct sources where their keys are distinct. -/
theorem nodup_sources_callsOf {es : List (Key S C × Pending)} (hd : (es.map Prod.fst).Nodup)
    (hc : ∀ e ∈ es, ∀ f ∈ es, e.1.context = f.1.context) (k : GroupKey) :
    ((callsOf es k).map fun e => e.1.source).Nodup := by
  have hs : ((callsOf es k).map Prod.fst).Nodup := hd.sublist (List.filter_sublist.map Prod.fst)
  unfold List.Nodup at hs ⊢
  rw [List.pairwise_map] at hs ⊢
  refine hs.imp_of_mem ?_
  intro e f he hf hne heq
  obtain ⟨he, hek⟩ := mem_callsOf.mp he
  obtain ⟨hf, hfk⟩ := mem_callsOf.mp hf
  exact hne (Key.eq_of_parts heq (hek.trans hfk.symm) (hc e he f hf))

theorem aligned_of_mem_groups {es : List (Key S C × Pending)} (hd : (es.map Prod.fst).Nodup)
    (hc : ∀ e ∈ es, ∀ f ∈ es, e.1.context = f.1.context) {g : Group S C}
    (hg : g ∈ (groupPending es).values) : g.Aligned := by
  obtain ⟨k, _, rfl⟩ := mem_groups.mp hg
  have hn := nodup_sources_callsOf hd hc k
  have hs : (Group.serving (callsOf es k)).sources = (callsOf es k).map fun e => e.1.source := by
    rw [Group.sources_serving, eraseDups_of_nodup hn]
  refine ⟨?_, hs ▸ hn⟩
  rw [hs, Group.members_serving, List.map_map]
  rfl

/-! ### the groups as a partition -/

theorem perm_flatMap_callsOf (es : List (Key S C × Pending)) :
    ((groupKeys es).flatMap (callsOf es)).Perm es :=
  perm_flatMap_filter (fun e : Key S C × Pending => e.1.groupKey) (groupKeys es) es
    (nodup_eraseDups _) fun e he => mem_groupKeys.mpr ⟨e, he, rfl⟩

theorem perm_members_groups (es : List (Key S C × Pending)) :
    ((groupPending es).values.flatMap Group.members).Perm (es.map fun e => (e.1, e.2.ticket)) := by
  have h : (groupPending es).values.flatMap Group.members
      = ((groupKeys es).flatMap (callsOf es)).map fun e => (e.1, e.2.ticket) := by
    rw [values_groupPending, List.flatMap_map, List.map_flatMap]
    exact congrArg (fun f => (groupKeys es).flatMap f)
      (funext fun k => Group.members_serving (callsOf es k))
  rw [h]
  exact (perm_flatMap_callsOf es).map _

theorem perm_tickets_groups (es : List (Key S C × Pending)) :
    ((groupPending es).values.flatMap Group.tickets).Perm (es.map fun e => e.2.ticket) := by
  have h := (perm_members_groups es).map Prod.snd
  rw [List.map_flatMap, List.map_map] at h
  exact h

theorem heads_sublist (es : List (Key S C × Pending)) :
    ((groupPending es).values.filterMap fun g => g.members.head?).Sublist
      (es.map fun e => (e.1, e.2.ticket)) := by
  have hhead : ∀ es : List (Key S C × Pending),
      ((groupPending es).values.filterMap fun g => g.members.head?)
        = ((groupKeys es).filterMap fun k => (callsOf es k).head?).map
            fun e => (e.1, e.2.ticket) := fun es => by
    rw [values_groupPending, List.filterMap_map, List.map_filterMap]
    refine List.filterMap_congr fun k _ => ?_
    show (Group.serving (callsOf es k)).members.head? = _
    rw [Group.members_serving, List.head?_map]
  rw [hhead]
  refine List.Sublist.map _ ?_
  induction es using List.reverseRecOn with
  | nil => exact List.Sublist.slnil
  | append_singleton es e ih =>
    have hsame : ∀ k ∈ groupKeys es, (callsOf (es ++ [e]) k).head? = (callsOf es k).head? := by
      intro k hk
      obtain ⟨f, fs, hf⟩ := List.exists_cons_of_ne_nil (callsOf_ne_nil.mpr hk)
      rw [callsOf_concat, hf]
      split <;> rfl
    have hold : ((groupKeys es).filterMap fun k => (callsOf (es ++ [e]) k).head?)
        = (groupKeys es).filterMap fun k => (callsOf es k).head? :=
      List.filterMap_congr hsame
    unfold groupKeys at hold ih ⊢
    rw [List.map_append, List.map_cons, List.map_nil, eraseDups_concat]
    split
    · rw [hold]
      exact ih.trans (List.sublist_append_left es [e])
    · rename_i hnew
      have hnil : callsOf es e.1.groupKey = [] := by
        by_contra hne
        exact hnew (List.mem_eraseDups.mp (callsOf_ne_nil.mp hne))
      have hself : callsOf (es ++ [e]) e.1.groupKey = [e] := by
        rw [callsOf_concat, if_pos rfl, hnil, List.nil_append]
      rw [List.filterMap_append, hold, List.filterMap_cons, hself]
      exact ih.append (List.Sublist.refl [e])

end Batchwise
