import Batchwise.Proofs.Batch.Trace
import Batchwise.Proofs.Query.Level

/-!
# Occurrences that share a call

The fields that a level starts are occurrences of bound fields.  Those that are bound to one
batched resolver and agree in the arguments and the selection it wants share one call, whatever
objects they are of: the call is given their sources, each once and in their order.

* `Binding.pairOf`       what occurrences must agree in to share a call;
* `Binding.sharedCall`, `Binding.sharedCalls`   the call that occurrences share, and the calls for
                         any occurrences of one binding;
* `Level.boundTo`        the occurrences that are bound to one resolver;
* `Batcher.Gathered`     what is pending was submitted for these occurrences: `Gathered.submit`,
                         `Gathered.calls_groups`, `Gathered.call_of_group`;
* `Level.gathering_start`   so it is for every resolver when a level was started.
-/

set_option linter.unusedSectionVars false

namespace Batchwise

variable {S C : Type} [DecidableEq S] [DecidableEq C]

/-! ### shared calls -/

namespace Binding

/-- what occurrences of a batched field must agree in to share a call: the fingerprints of
arguments and selection, each if it is wanted. -/
def pairOf (b : Binding S C) (f : Field) : GroupKey :=
  (if b.signature.wantsArgs then some f.args.fingerprint else none,
    (b.selectionOf f.subfields).map Selection.paths)

/-- of some occurrences those with one pair. -/
def alike (b : Binding S C) (ts : List (FieldTask S)) (pair : GroupKey) : List (FieldTask S) :=
  ts.filter fun t => decide (b.pairOf t.field = pair)

/-- the call that occurrences share: it is given their distinct sources in order, and what is
wanted of the first of them. -/
def sharedCall (b : Binding S C) (context : C) : List (FieldTask S) → Call (List S) C
  | [] => ⟨[], none, none, context⟩
  | t :: ts => {
      input := ((t :: ts).map FieldTask.source).eraseDups
      args := if b.signature.wantsArgs then some t.field.args else none
      selection := b.selectionOf t.field.subfields
      context := context }

/-- one call for each pair, in the order of first occurrence. -/
def sharedCalls (b : Binding S C) (context : C) (ts : List (FieldTask S)) :
    List (Call (List S) C) :=
  ((ts.map fun t => b.pairOf t.field).eraseDups).map fun pair =>
    b.sharedCall context (b.alike ts pair)

theorem alike_concat (b : Binding S C) (ts : List (FieldTask S)) (t : FieldTask S)
    (pair : GroupKey) : b.alike (ts ++ [t]) pair =
      if b.pairOf t.field = pair then b.alike ts pair ++ [t] else b.alike ts pair := by
  unfold alike
  rw [List.filter_append]
  by_cases h : b.pairOf t.field = pair
  · simp [h]
  · simp [h]

end Binding

/-! ### pending calls of occurrences -/

namespace Batcher

/-- what is pending was submitted for some occurrences, in order. -/
structure Gathered (b : Batcher S C) (ts : List (FieldTask S)) : Prop where
  pairs : groupKeys b.pending.entries
    = (ts.map fun t => b.service.binding.pairOf t.field).eraseDups
  sources : ∀ pair, ((callsOf b.pending.entries pair).map fun e => e.1.source)
    = ((b.service.binding.alike ts pair).map FieldTask.source).eraseDups
  first : ∀ pair, (callsOf b.pending.entries pair).head?.map (fun e => (e.2.args, e.2.selection))
    = (b.service.binding.alike ts pair).head?.map fun t =>
        (t.field.args, b.service.binding.selectionOf t.field.subfields)

theorem gathered_of_nil {b : Batcher S C} (h : b.pending.entries = []) : b.Gathered [] := by
  refine ⟨?_, fun pair => ?_, fun pair => ?_⟩
  · rw [h]
    rfl
  · rw [h]
    rfl
  · rw [h]
    rfl

namespace Gathered

variable {s : Service S C} {context : C} {b : Batcher S C} {ts : List (FieldTask S)}

theorem congr {b' : Batcher S C} (h : b.Gathered ts) (hservice : b'.service = b.service)
    (hpending : b'.pending = b.pending) : b'.Gathered ts := by
  obtain ⟨hpairs, hsources, hfirst⟩ := h
  rw [← hservice, ← hpending] at hpairs hsources hfirst
  exact ⟨hpairs, hsources, hfirst⟩

theorem mem_pairs (h : b.Gathered ts) {pair : GroupKey} :
    pair ∈ (b.pending.entries.map fun e => e.1.groupKey) ↔
      pair ∈ ts.map fun t => b.service.binding.pairOf t.field := by
  refine List.mem_eraseDups.symm.trans (Iff.trans ?_ List.mem_eraseDups)
  rw [← h.pairs]
  rfl

/-- something is pending if there is an occurrence. -/
theorem hasPending_iff (h : b.Gathered ts) : b.hasPending = true ↔ ts ≠ [] := by
  have hiff : b.pending.entries = [] ↔ ts = [] := by
    rw [← List.map_eq_nil_iff (f := fun e => e.1.groupKey), List.eq_nil_iff_forall_not_mem]
    refine (forall_congr' fun pair => not_congr h.mem_pairs).trans ?_
    rw [← List.eq_nil_iff_forall_not_mem, List.map_eq_nil_iff]
  rw [Batcher.hasPending_iff, Ne, hiff]

/-- an occurrence whose call is pending already changes nothing. -/
theorem join (h : b.Gathered ts) (t : FieldTask S) {p : Pending}
    (hp : b.pending.find? (b.keyOf t.source t.field.args t.field.subfields context) = some p) :
    b.Gathered (ts ++ [t]) := by
  have hentry := Table.mem_entries_iff.mpr hp
  have hpair : b.service.binding.pairOf t.field
      ∈ b.pending.entries.map fun e => e.1.groupKey := List.mem_map_of_mem hentry
  have hcall : _ ∈ callsOf b.pending.entries (b.service.binding.pairOf t.field) :=
    mem_callsOf.mpr ⟨hentry, rfl⟩
  refine ⟨?_, fun pair => ?_, fun pair => ?_⟩
  · rw [List.map_append, List.map_singleton, eraseDups_concat, if_pos (h.mem_pairs.mp hpair)]
    exact h.pairs
  · rw [Binding.alike_concat]
    split
    · rename_i heq
      subst heq
      have hsource : t.source ∈ (b.service.binding.alike ts
          (b.service.binding.pairOf t.field)).map FieldTask.source := by
        rw [← List.mem_eraseDups, ← h.sources]
        exact List.mem_map_of_mem hcall
      rw [List.map_append, List.map_singleton, eraseDups_concat, if_pos hsource]
      exact h.sources _
    · exact h.sources pair
  · rw [Binding.alike_concat]
    split
    · rename_i heq
      subst heq
      obtain ⟨e, es, hes⟩ := List.exists_cons_of_ne_nil (List.ne_nil_of_mem hcall)
      have hfirst := h.first (b.service.binding.pairOf t.field)
      rw [hes] at hfirst ⊢
      obtain ⟨u, hu, _⟩ := Option.map_eq_some_iff.mp hfirst.symm
      rw [List.head?_append, hu, Option.some_or, ← hu]
      exact hfirst
    · exact h.first pair

/-- an occurrence whose call is not pending is added behind all others. -/
theorem add (h : b.Gathered ts) (hcontexts : ∀ e ∈ b.pending.entries, e.1.context = context)
    (t : FieldTask S) {b' : Batcher S C} (hservice : b'.service = b.service)
    (hnone : b.pending.find? (b.keyOf t.source t.field.args t.field.subfields context) = none)
    {ticket : Ticket} (hentries : b'.pending.entries = b.pending.entries ++
      [(b.keyOf t.source t.field.args t.field.subfields context,
        ⟨t.field.args, b.service.binding.selectionOf t.field.subfields, ticket⟩)]) :
    b'.Gathered (ts ++ [t]) := by
  have hkey : (b.keyOf t.source t.field.args t.field.subfields context).groupKey
      = b.service.binding.pairOf t.field := rfl
  refine ⟨?_, fun pair => ?_, fun pair => ?_⟩
  · rw [hservice, hentries]
    have hpairs := h.pairs
    unfold groupKeys at hpairs ⊢
    rw [List.map_append, List.map_singleton, List.map_append, List.map_singleton,
      eraseDups_concat, eraseDups_concat, hkey, hpairs]
    by_cases hmem : b.service.binding.pairOf t.field
        ∈ ts.map fun t => b.service.binding.pairOf t.field
    · rw [if_pos hmem, if_pos (h.mem_pairs.mpr hmem)]
    · rw [if_neg hmem, if_neg fun hm => hmem (h.mem_pairs.mp hm)]
  · rw [hservice, hentries, callsOf_concat, Binding.alike_concat, hkey]
    split
    · rename_i heq
      -- a pending call of this pair and source would be the same call
      have hnew : t.source ∉ (b.service.binding.alike ts pair).map FieldTask.source := by
        rw [← List.mem_eraseDups, ← h.sources]
        intro hmem
        obtain ⟨e, he, hsource⟩ := List.mem_map.mp hmem
        obtain ⟨he, hpair⟩ := mem_callsOf.mp he
        have hsame : e.1 = b.keyOf t.source t.field.args t.field.subfields context :=
          Key.eq_of_parts hsource (hpair.trans heq.symm) (hcontexts e he)
        exact Table.find?_eq_none_iff.mp hnone (hsame ▸ List.mem_map_of_mem he)
      rw [List.map_append, List.map_singleton, List.map_append, List.map_singleton,
        eraseDups_concat, if_neg hnew, h.sources]
      rfl
    · exact h.sources pair
  · rw [hservice, hentries, callsOf_concat, Binding.alike_concat, hkey]
    split
    · rw [List.head?_append, List.head?_append, Option.map_or, Option.map_or, h.first]
      rfl
    · exact h.first pair

/-- **A submission for one more occurrence.** -/
theorem submit (h : b.Gathered ts) (hb : b.Collecting s context) (t : FieldTask S) :
    (b.submit t.source t.field.args t.field.subfields context).batcher.Gathered (ts ++ [t]) := by
  cases hfind : b.pending.find? (b.keyOf t.source t.field.args t.field.subfields context) with
  | some p =>
    rw [submit_of_some hfind]
    exact (h.join t hfind).congr rfl rfl
  | none =>
    have hentries := Table.entries_put_of_notMem
      (⟨t.field.args, b.service.binding.selectionOf t.field.subfields, b.results.size⟩ : Pending)
      (Table.find?_eq_none_iff.mp hfind)
    rw [submit_of_none hfind]
    refine h.add hb.contexts t ?_ hfind hentries
    rfl

/-- the call of a group is the one that its occurrences share. -/
theorem call_serving (h : b.Gathered ts) (hb : b.service = s) (hfits : s.Fits) {pair : GroupKey}
    (hpair : pair ∈ groupKeys b.pending.entries) :
    (Group.serving (callsOf b.pending.entries pair)).call s context
      = s.binding.sharedCall context (s.binding.alike ts pair) := by
  obtain ⟨e, es, hes⟩ := List.exists_cons_of_ne_nil (callsOf_ne_nil.mpr hpair)
  have hsources := h.sources pair
  have hfirst := h.first pair
  rw [hb, hes] at hfirst hsources
  obtain ⟨t, ht, hargs⟩ := Option.map_eq_some_iff.mp hfirst.symm
  obtain ⟨us, hus⟩ := List.head?_eq_some_iff.mp ht
  obtain ⟨hargs, hselection⟩ := Prod.mk.inj hargs
  unfold Group.call Call.ofShape
  rw [hes, Group.sources_serving, Group.args_serving, Group.selection_serving, hsources, hus,
    eraseDups_of_nodup (nodup_eraseDups _), hfits.args, hfits.selection, ← hargs, ← hselection]
  unfold Binding.sharedCall Binding.selectionOf
  cases s.binding.signature.selection <;> rfl

/-- **The calls of the groups** are those that the occurrences share. -/
theorem calls_groups (h : b.Gathered ts) (hb : b.service = s) (hfits : s.Fits) (context : C) :
    (groupPending b.pending.entries).values.map (Group.call s context)
      = s.binding.sharedCalls context ts := by
  have hpairs := h.pairs
  rw [hb] at hpairs
  unfold Binding.sharedCalls
  rw [values_groupPending, List.map_map, ← hpairs]
  exact List.map_congr_left fun pair hpair => h.call_serving hb hfits hpair

theorem call_of_group (h : b.Gathered ts) (hb : b.service = s) (hfits : s.Fits)
    {e : Key S C × Pending} (he : e ∈ b.pending.entries) {g : Group S C}
    (hg : g ∈ (groupPending b.pending.entries).values) (hmember : asMember e ∈ g.members) :
    g.call s context = s.binding.sharedCall context (s.binding.alike ts e.1.groupKey) := by
  obtain ⟨pair, hpair, rfl⟩ := mem_groups.mp hg
  rw [(asMember_mem_serving b.pending.distinct he).mp hmember]
  exact h.call_serving hb hfits hpair

end Gathered
end Batcher

/-! ### the occurrences of a level -/

namespace Level

variable (world : World S) (registry : Registry S C) (context : C)

/-- the binding of a task's field, if it has one. -/
def bindingOf (t : FieldTask S) : Option (Binding S C) :=
  registry.lookup? (world.typeName t.source) t.field.name

/-- the occurrences that are bound to one resolver. -/
def boundTo (n : Nat) (ts : List (FieldTask S)) : List (FieldTask S) :=
  ts.filter fun t => decide ((bindingOf world registry t).map Binding.id = some n)

/-- every batcher has gathered the calls of the occurrences that are bound to its resolver. -/
abbrev Gathering (ts : List (FieldTask S)) (e : Execution S C) : Prop :=
  e.Each registry fun s b => b.Collecting s context ∧ b.Gathered (boundTo world registry s.id ts)

variable {world registry context}

theorem boundTo_concat_of_bound {ts : List (FieldTask S)} {t : FieldTask S} {b : Binding S C}
    (h : bindingOf world registry t = some b) :
    boundTo world registry b.id (ts ++ [t]) = boundTo world registry b.id ts ++ [t] := by
  unfold boundTo
  rw [List.filter_append]
  simp [h]

theorem boundTo_concat_of_not {n : Nat} {ts : List (FieldTask S)} {t : FieldTask S}
    (h : ∀ b, bindingOf world registry t = some b → b.id ≠ n) :
    boundTo world registry n (ts ++ [t]) = boundTo world registry n ts := by
  unfold boundTo
  rw [List.filter_append, List.append_right_eq_self]
  simpa using h

theorem gathering_of_idle {e : Execution S C} (he : e.Each registry fun s b => b.Idle s) :
    Gathering world registry context [] e :=
  he.mono fun _ _ hb => ⟨hb.collecting context, Batcher.gathered_of_nil hb.pending_eq⟩

/-- an occurrence that is not bound to a batched resolver is gathered by no batcher. -/
theorem Gathering.skip (hr : registry.Sound) {ts : List (FieldTask S)} {e : Execution S C}
    (he : Gathering world registry context ts e) (t : FieldTask S)
    (h : ∀ b, bindingOf world registry t = some b → ∃ shape run, b.resolver = .simple shape run) :
    Gathering world registry context (ts ++ [t]) e := by
  refine ⟨he.ids, fun s hs => ?_⟩
  obtain ⟨hbinding, hbatched⟩ := Registry.batched_of_services hs
  have hother : ∀ b, bindingOf world registry t = some b → b.id ≠ s.id := fun b hb hid => by
    have heq : b = s.binding := hr.eq_of_id (Registry.mem_of_lookup? hb) hbinding hid
    obtain ⟨shape, run, hsimple⟩ := h b hb
    rw [heq, hbatched] at hsimple
    cases hsimple
  rw [boundTo_concat_of_not hother]
  exact he.holds s hs

theorem Gathering.startTask (hr : registry.Sound) {ts : List (FieldTask S)} {e : Execution S C}
    (he : Gathering world registry context ts e) (t : FieldTask S) :
    Gathering world registry context (ts ++ [t]) (startTask world registry context e t).1 := by
  cases hlookup : bindingOf world registry t with
  | none =>
    rw [startTask_of_none hlookup]
    refine he.skip hr t fun b hb => ?_
    rw [hlookup] at hb
    cases hb
  | some b =>
    cases hresolver : b.resolver with
    | simple shape run =>
      rw [startTask_of_simple hlookup hresolver]
      refine he.skip hr t fun b' hb' => ⟨shape, run, ?_⟩
      rw [hlookup] at hb'
      cases hb'
      exact hresolver
    | batched shape run =>
      let s : Service S C := ⟨b, shape, run⟩
      have hs : s ∈ registry.services :=
        Registry.mem_services_of_batched (Registry.mem_of_lookup? hlookup) hresolver
      obtain ⟨c, hc, hcollecting, hgathered⟩ := he.holds s hs
      have hservice : (c.submit t.source t.field.args t.field.subfields context).batcher.service
          = c.service := Batcher.service_after c (m := .submit t.source t.field.args
            t.field.subfields context) fun _ h => by cases h
      have hid := (congrArg Service.id hservice).trans (Execution.id_of_batcher? hc)
      rw [startTask_of_batched (s := s) hlookup hresolver hc]
      refine ⟨(Execution.ids_replace e _).trans he.ids, fun s' hs' => ?_⟩
      by_cases h : s'.id = s.id
      · have heq := hr.service_eq_of_id hs' hs h
        subst heq
        refine ⟨_, Execution.batcher?_replace_self hc hid, hcollecting.submit _ _ _, ?_⟩
        have hbound : boundTo world registry s.id (ts ++ [t])
            = boundTo world registry s.id ts ++ [t] := boundTo_concat_of_bound hlookup
        rw [hbound]
        exact hgathered.submit hcollecting t
      · obtain ⟨c', hc', hholds⟩ := he.holds s' hs'
        refine ⟨c', (Execution.batcher?_replace_other fun h' => h (h'.trans hid)).trans hc', ?_⟩
        rw [boundTo_concat_of_not fun b' hb' hid' => ?_]
        · exact hholds
        · rw [hlookup] at hb'
          cases hb'
          exact h hid'.symm

/-- **When a level was started** every batcher has gathered the calls of its occurrences. -/
theorem gathering_start (hr : registry.Sound) {before : List (FieldTask S)} {e : Execution S C}
    (he : Gathering world registry context before e) (ts : List (FieldTask S)) :
    Gathering world registry context (before ++ ts)
      (start world registry context e ts).execution := by
  induction ts generalizing before e with
  | nil =>
    rw [List.append_nil]
    exact he
  | cons t ts ih =>
    have hrest := ih (he.startTask hr t)
    rw [List.append_assoc] at hrest
    exact hrest

theorem gathering_start_of_idle (world : World S) (context : C) (hr : registry.Sound)
    {e : Execution S C} (he : e.Each registry fun s b => b.Idle s) (ts : List (FieldTask S)) :
    Gathering world registry context ts (start world registry context e ts).execution :=
  gathering_start hr (gathering_of_idle he) ts

end Level
end Batchwise
