import Batchwise.Proofs.Field
import Batchwise.Proofs.Selection
import Mathlib.Data.Set.Card

/-!
# Going through the queue finds the chains, and nothing else

The paths of a selection are found by going through a queue of lists of fields.  The queue runs dry
after no more turns than there are fields, and what was found are the names of each chain of fields,
joined by slashes: the empty path that marks the top is never mistaken for a field's, as long as no
field at the top has an empty name.  Where no name contains a slash, a path is read back into its
chain, so that the paths tell which chains there are, and how many.

* `Selection.Walks`                  going through a queue to the end, turn by turn;
* `Selection.walks_walk`             the queue runs dry;
* `Selection.foldl_join`             the path of a chain is its names joined by slashes;
* `Selection.eq_of_intercalate_eq`   names without slashes are read back from the path;
* `Selection.paths_iff_chains`       what a selection sees, and what its paths tell.
-/

namespace Batchwise

/-! ### chains -/

namespace Field

theorem HasChain.of_append {names more : List String} (hnames : names ≠ []) {fs : List Field}
    (h : HasChain fs (names ++ more)) : HasChain fs names := by
  induction names generalizing fs with
  | nil => exact absurd rfl hnames
  | cons n names ih =>
    cases names with
    | nil =>
      cases h with
      | one hf => exact .one hf
      | deeper hf _ => exact .one hf
    | cons m names =>
      cases h with
      | deeper hf h => exact .deeper hf (ih (List.cons_ne_nil m names) h)

theorem HasChain.length_le_levels {fs : List Field} {names : List String} (h : HasChain fs names) :
    names.length ≤ levels fs := by
  induction h with
  | one hf => exact Nat.le_trans (Nat.succ_le_of_lt (height_pos _)) (height_le_levels hf)
  | deeper hf _ ih => exact Nat.le_trans (Nat.succ_le_succ ih) (height_le_levels hf)

/-- no name of the fields, however far down, contains a slash. -/
def Slashless (fs : List Field) : Prop :=
  ∀ names, HasChain fs names → ∀ n ∈ names, '/' ∉ n.toList

theorem slashless_nil : Slashless [] := fun _ h => absurd rfl h.ne_nil.1

theorem slashless_cons {f : Field} {fs : List Field} : Slashless (f :: fs) ↔
    ('/' ∉ f.name.toList ∧ Slashless f.subfields) ∧ Slashless fs := by
  constructor
  · refine fun h => ⟨⟨h _ (.one List.mem_cons_self) _ (List.mem_singleton_self _), ?_⟩, ?_⟩
    · exact fun names hchain n hn =>
        h _ (.deeper List.mem_cons_self hchain) n (List.mem_cons_of_mem _ hn)
    · intro names hchain
      cases hchain with
      | one hg => exact h _ (.one (List.mem_cons_of_mem f hg))
      | deeper hg hchain => exact h _ (.deeper (List.mem_cons_of_mem f hg) hchain)
  · rintro ⟨⟨hname, hbelow⟩, hbeside⟩ names hchain n hn
    cases hchain with
    | one hg =>
      rcases List.mem_cons.mp hg with rfl | hg
      · rw [List.mem_singleton.mp hn]
        exact hname
      · exact hbeside _ (.one hg) n hn
    | deeper hg hchain =>
      rcases List.mem_cons.mp hg with rfl | hg
      · rcases List.mem_cons.mp hn with rfl | hn
        · exact hname
        · exact hbelow _ hchain n hn
      · exact hbeside _ (.deeper hg hchain) n hn

end Field

namespace Selection

open Batchwise.Field (HasChain Slashless)

/-! ### the queue runs dry -/

/-- going through a queue turn by turn until nothing waits: the paths found, and the turns taken. -/
inductive Walks (depth : Nat) : List Waiting → List String → Nat → Prop
  | done : Walks depth [] [] 0
  | turn {w : Waiting} {queue : List Waiting} {found : List String} {n : Nat}
      (h : Walks depth (queue ++ w.below depth) found n) :
      Walks depth (w :: queue) (w.paths ++ found) (n + 1)

theorem walks_walk (depth : Nat) (queue : List Waiting) :
    ∃ n ≤ Waiting.total queue, Walks depth queue (walk depth queue) n := by
  induction queue using walk.induct depth with
  | case1 => exact ⟨0, Nat.le_refl 0, .done⟩
  | case2 w queue ih =>
    obtain ⟨n, hn, hwalks⟩ := ih
    have hturns := w.total_below depth
    rw [Waiting.total_append] at hn
    refine ⟨n + 1, ?_, ?_⟩
    · rw [Waiting.total]
      omega
    · rw [walk]
      exact .turn hwalks

theorem total_start_le (fields : List Field) (depth : Nat) :
    Waiting.total (start fields depth) ≤ Field.total fields + 1 := by
  unfold start
  split
  · exact Nat.le_refl _
  · exact Nat.zero_le _

/-! ### paths and chains -/

/-- the chains of names that lead downwards from the fields, up to `depth` names long. -/
def chains (fields : List Field) (depth : Nat) : Set (List String) :=
  {names | HasChain fields names ∧ names.length ≤ depth}

theorem chains_mono (fields : List Field) {depth deeper : Nat} (h : depth ≤ deeper) :
    chains fields depth ⊆ chains fields deeper :=
  fun _ hchain => ⟨hchain.1, Nat.le_trans hchain.2 h⟩

theorem chains_of_levels_le {fields : List Field} {depth : Nat} (h : Field.levels fields ≤ depth) :
    chains fields depth = chains fields (Field.levels fields) :=
  Set.Subset.antisymm (fun _ hchain => ⟨hchain.1, hchain.1.length_le_levels⟩) (chains_mono fields h)

theorem paths_of_chains_eq {fields fields' : List Field} {depth depth' : Nat}
    (h : chains fields depth = chains fields' depth') :
    (ofFields fields depth).paths = (ofFields fields' depth').paths := by
  refine (pairwise_ascending _).eq_of_mem_iff (pairwise_ascending _) fun path => ?_
  show path ∈ (ofFields fields depth).paths ↔ path ∈ (ofFields fields' depth').paths
  simp only [mem_paths_ofFields, ← and_assoc]
  exact exists_congr fun names => and_congr_left fun _ => Set.ext_iff.mp h names

theorem foldl_join {above : String} (habove : above ≠ "") (names : List String) :
    names.foldl join above = "/".intercalate (above :: names) := by
  induction names generalizing above with
  | nil => exact String.intercalate_singleton.symm
  | cons n names ih =>
    have hjoin : join above n = above ++ ("/" ++ n) :=
      (if_neg habove).trans String.append_assoc
    rw [List.foldl_cons, hjoin, ih (by simp [habove]), String.intercalate_cons_append,
      String.intercalate_cons_append, String.intercalate_cons_of_ne_nil (List.cons_ne_nil n names),
      String.append_assoc]

/-- a chain that starts with a name that is not empty leads to its names, joined by slashes. -/
theorem foldl_join_of_chain {fields : List Field} (hnamed : ∀ f ∈ fields, f.name ≠ "")
    {names : List String} (h : HasChain fields names) :
    names.foldl join "" = "/".intercalate names := by
  cases h with
  | one hf => exact foldl_join (hnamed _ hf) []
  | deeper hf h => exact foldl_join (hnamed _ hf) _

theorem mem_paths_iff {fields : List Field} (hnamed : ∀ f ∈ fields, f.name ≠ "") {depth : Nat}
    {path : String} : path ∈ (ofFields fields depth).paths ↔
      ∃ names ∈ chains fields depth, "/".intercalate names = path := by
  rw [mem_paths_ofFields]
  refine exists_congr fun names => and_assoc.symm.trans (and_congr_right fun hchain => ?_)
  rw [foldl_join_of_chain hnamed hchain.1]

/-! ### paths without slashes in the names -/

theorem eq_of_intercalate_eq {names names' : List String} (hne : names ≠ []) (hne' : names' ≠ [])
    (h : ∀ n ∈ names, '/' ∉ n.toList) (h' : ∀ n ∈ names', '/' ∉ n.toList)
    (heq : "/".intercalate names = "/".intercalate names') : names = names' := by
  have hsplit : ∀ {ns : List String}, ns ≠ [] → (∀ n ∈ ns, '/' ∉ n.toList) →
      ("/".intercalate ns).toList.splitOn '/' = ns.map String.toList := by
    intro ns hns hslash
    rw [String.toList_intercalate]
    refine List.splitOn_intercalate '/' (fun l hl => ?_) (mt List.map_eq_nil_iff.mp hns)
    obtain ⟨n, hn, rfl⟩ := List.mem_map.mp hl
    exact hslash n hn
  have hmap : names.map String.toList = names'.map String.toList := by
    rw [← hsplit hne h, heq, hsplit hne' h']
  exact List.map_injective_iff.mpr (fun _ _ => String.toList_inj.mp) hmap

/-- what stands before a slash of a path is the path of fewer names. -/
theorem exists_of_intercalate_eq {names : List String} (hne : names ≠ [])
    (h : ∀ n ∈ names, '/' ∉ n.toList) {path rest : String}
    (heq : "/".intercalate names = path ++ "/" ++ rest) :
    ∃ ns more, names = ns ++ more ∧ ns ≠ [] ∧ "/".intercalate ns = path := by
  induction names generalizing path with
  | nil => exact absurd rfl hne
  | cons n names ih =>
    have hn : '/' ∉ n.toList := h n List.mem_cons_self
    cases names with
    | nil =>
      rw [String.intercalate_singleton] at heq
      rw [heq] at hn
      exact absurd (by simp) hn
    | cons m names =>
      rw [String.intercalate_cons_cons] at heq
      have hlist : n.toList ++ '/' :: ("/".intercalate (m :: names)).toList
          = path.toList ++ '/' :: rest.toList := by
        have htoList := congrArg String.toList heq
        rwa [String.toList_append, String.toList_append, String.toList_append, String.toList_append,
          List.append_assoc, List.append_assoc] at htoList
      -- the path ends with the first name, or goes on behind its slash
      rcases List.append_eq_append_iff.mp hlist with ⟨as, has, hrest⟩ | ⟨bs, hbs, hrest⟩
      · cases as with
        | nil =>
          rw [List.append_nil] at has
          refine ⟨[n], m :: names, rfl, List.cons_ne_nil n [], ?_⟩
          rw [String.intercalate_singleton]
          exact (String.toList_inj.mp has).symm
        | cons c as =>
          obtain ⟨rfl, hrest⟩ := List.cons.inj hrest
          obtain ⟨ns, more, hnames, hns, hpath⟩ := ih (List.cons_ne_nil m names)
            (fun k hk => h k (List.mem_cons_of_mem n hk))
            (show _ = String.ofList as ++ "/" ++ rest from
              String.toList_inj.mp (by simpa using hrest))
          refine ⟨n :: ns, more, congrArg (n :: ·) hnames, List.cons_ne_nil n ns, ?_⟩
          rw [String.intercalate_cons_of_ne_nil hns, hpath]
          exact String.toList_inj.mp (by simpa using has.symm)
      · cases bs with
        | nil =>
          rw [List.append_nil] at hbs
          refine ⟨[n], m :: names, rfl, List.cons_ne_nil n [], ?_⟩
          rw [String.intercalate_singleton]
          exact String.toList_inj.mp hbs
        | cons c bs =>
          obtain ⟨rfl, _⟩ := List.cons.inj hrest
          rw [hbs] at hn
          exact absurd (List.mem_append_right _ List.mem_cons_self) hn

theorem injOn_intercalate {fields : List Field} (hslash : Slashless fields) (depth : Nat) :
    Set.InjOn "/".intercalate (chains fields depth) :=
  fun names h names' h' heq => eq_of_intercalate_eq h.1.ne_nil.2 h'.1.ne_nil.2 (hslash names h.1)
    (hslash names' h'.1) heq

theorem image_chains {fields : List Field} (hnamed : ∀ f ∈ fields, f.name ≠ "") (depth : Nat) :
    "/".intercalate '' chains fields depth =
      ((ofFields fields depth).paths.toFinset : Set String) := by
  ext path
  rw [Set.mem_image, List.coe_toFinset]
  exact (mem_paths_iff hnamed).symm

theorem size_eq_ncard {fields : List Field} (hnamed : ∀ f ∈ fields, f.name ≠ "")
    (hslash : Slashless fields) (depth : Nat) :
    (ofFields fields depth).size = (chains fields depth).ncard := by
  have hnodup : (ofFields fields depth).paths.Nodup := (pairwise_ascending _).imp ne_of_lt
  rw [← (injOn_intercalate hslash depth).ncard_image, image_chains hnamed, Set.ncard_coe_finset,
    List.toFinset_card_of_nodup hnodup]
  rfl

theorem finite_chains {fields : List Field} (hnamed : ∀ f ∈ fields, f.name ≠ "")
    (hslash : Slashless fields) (depth : Nat) : (chains fields depth).Finite := by
  refine Set.Finite.of_finite_image ?_ (injOn_intercalate hslash depth)
  rw [image_chains hnamed]
  exact Finset.finite_toSet _

/-- the paths tell the chains: no two chains have one path, neither here nor there. -/
theorem chains_subset_of_paths_eq {fields fields' : List Field}
    (hnamed : ∀ f ∈ fields, f.name ≠ "") (hnamed' : ∀ f ∈ fields', f.name ≠ "")
    (hslash : Slashless fields) (hslash' : Slashless fields') {depth : Nat}
    (h : (ofFields fields depth).paths = (ofFields fields' depth).paths) :
    chains fields depth ⊆ chains fields' depth := by
  intro names hnames
  have hpath : "/".intercalate names ∈ (ofFields fields' depth).paths :=
    h ▸ (mem_paths_iff hnamed).mpr ⟨names, hnames, rfl⟩
  obtain ⟨names', hnames', heq⟩ := (mem_paths_iff hnamed').mp hpath
  have hsame : names' = names := eq_of_intercalate_eq hnames'.1.ne_nil.2 hnames.1.ne_nil.2
    (hslash' names' hnames'.1) (hslash names hnames.1) heq
  exact hsame ▸ hnames'

/-! ### what a selection sees -/

/-- **A selection sees the chains of names, and its paths tell which there are.**  Whatever fields
are wanted, if none of them at the top has an empty name, and however deep is looked:
* the queue runs dry, after no more turns than there are fields, and one more;
* what was found, in ascending order and each once, are the names of each chain up to that depth,
  joined by slashes;
* what a chain goes through is found as well;
* deeper selections see no less, and no more once they are as deep as the fields have levels.

If no name contains a slash, moreover:
* what stands before a slash of a path is a path itself;
* there are as many paths as chains up to that depth;
* other such fields have the same paths if and only if they have the same chains. -/
theorem paths_iff_chains {fields : List Field} (hnamed : ∀ f ∈ fields, f.name ≠ "")
    (depth : Nat) :
    let paths := (ofFields fields depth).paths
    (∃ found n, Walks depth (start fields depth) found n ∧ n ≤ Field.total fields + 1 ∧
      paths = ascending found) ∧
    paths.Pairwise (· < ·) ∧
    (∀ path, path ∈ paths ↔ ∃ names ∈ chains fields depth, "/".intercalate names = path) ∧
    (∀ names more, names ≠ [] → names ++ more ∈ chains fields depth →
      "/".intercalate names ∈ paths) ∧
    (∀ deeper, depth ≤ deeper → paths ⊆ (ofFields fields deeper).paths) ∧
    (Field.levels fields ≤ depth → paths = (ofFields fields (Field.levels fields)).paths) ∧
    (Slashless fields →
      (∀ path rest, path ++ "/" ++ rest ∈ paths → path ∈ paths) ∧
      (chains fields depth).Finite ∧ (ofFields fields depth).size = (chains fields depth).ncard ∧
      ∀ fields', (∀ f ∈ fields', f.name ≠ "") → Slashless fields' →
        (paths = (ofFields fields' depth).paths ↔ chains fields depth = chains fields' depth)) := by
  intro paths
  have hmem : ∀ {path : String}, path ∈ paths ↔
      ∃ names ∈ chains fields depth, "/".intercalate names = path := mem_paths_iff hnamed
  have hprefix : ∀ names more, names ≠ [] → names ++ more ∈ chains fields depth →
      "/".intercalate names ∈ paths := by
    intro names more hne hchain
    refine hmem.mpr ⟨names, ⟨hchain.1.of_append hne, ?_⟩, rfl⟩
    exact Nat.le_trans (List.sublist_append_left names more).length_le hchain.2
  refine ⟨?_, pairwise_ascending _, fun path => hmem, hprefix, ?_, ?_,
    fun hslash => ⟨?_, ?_, ?_, ?_⟩⟩
  · obtain ⟨n, hn, hwalks⟩ := walks_walk depth (start fields depth)
    exact ⟨_, n, hwalks, Nat.le_trans hn (total_start_le fields depth), rfl⟩
  · intro deeper hle path hpath
    obtain ⟨names, hchain, hnames⟩ := hmem.mp hpath
    exact (mem_paths_iff hnamed).mpr ⟨names, chains_mono fields hle hchain, hnames⟩
  · exact fun hlevels => paths_of_chains_eq (chains_of_levels_le hlevels)
  · intro path rest hpath
    obtain ⟨names, hchain, hnames⟩ := hmem.mp hpath
    obtain ⟨ns, more, rfl, hns, rfl⟩ :=
      exists_of_intercalate_eq hchain.1.ne_nil.2 (hslash names hchain.1) hnames
    exact hprefix ns more hns hchain
  · exact finite_chains hnamed hslash depth
  · exact size_eq_ncard hnamed hslash depth
  · intro fields' hnamed' hslash'
    constructor
    · exact fun h => Set.Subset.antisymm
        (chains_subset_of_paths_eq hnamed hnamed' hslash hslash' h)
        (chains_subset_of_paths_eq hnamed' hnamed hslash' hslash h.symm)
    · exact paths_of_chains_eq

/-- a node asked for itself twice, once under another name, and for its value. -/
def node : List Field :=
  [⟨none, "self", .empty, Field.chain ["self", "value"] []⟩,
    ⟨some "me", "self", .empty, Field.chain ["value"] []⟩, ⟨none, "value", .empty, []⟩]

/-- two levels deep a node has four paths, and four chains. -/
theorem paths_iff_chains_of_node :
    (∀ f ∈ node, f.name ≠ "") ∧ Slashless node ∧
      (ofFields node 2).paths = ["self", "self/self", "self/value", "value"] ∧
      (∀ path rest, path ++ "/" ++ rest ∈ (ofFields node 2).paths →
        path ∈ (ofFields node 2).paths) ∧
      (chains node 2).ncard = 4 ∧
      (ofFields node 5).paths = (ofFields node 3).paths := by
  have hnamed : ∀ f ∈ node, f.name ≠ "" := by simp [node]
  have hslash : Slashless node := by
    simp [node, Field.chain, Field.slashless_cons, Field.slashless_nil]
  have hwalk : walk 2 (start node 2) = ["self", "self", "value", "self/self", "self/value"] := by
    decide
  have hpaths : (ofFields node 2).paths = ["self", "self/self", "self/value", "value"] := by
    refine (pairwise_ascending _).eq_of_mem_iff (by decide) fun path => ?_
    show path ∈ ascending (walk 2 (start node 2)) ↔ _
    rw [hwalk, mem_ascending]
    simp only [List.mem_cons, List.not_mem_nil]
    tauto
  obtain ⟨_, _, _, _, _, _, hslashless⟩ := paths_iff_chains hnamed 2
  obtain ⟨hclosed, _, hsize, _⟩ := hslashless hslash
  obtain ⟨_, _, _, _, _, hlevels, _⟩ := paths_iff_chains hnamed 5
  refine ⟨hnamed, hslash, hpaths, hclosed, ?_, hlevels (by decide)⟩
  rw [← hsize]
  exact congrArg List.length hpaths

end Selection
end Batchwise
