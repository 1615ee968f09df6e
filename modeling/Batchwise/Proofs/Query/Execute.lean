import Batchwise.Query
import Batchwise.Proofs.Field
import Batchwise.Proofs.Query.Level
import Batchwise.Proofs.Query.Placement

/-!
# Resolution level by level gives what depth-first evaluation gives

Between two levels the execution is idle, and the draft shows the expected response wherever the
documents of the waiting fields are put into their holes.  A level keeps this up, and every field
of the next level is lower than one of this.

* `Query.Ready`                  what holds between two levels;
* `Query.Ready.resolveLevel`     a level keeps it up;
* `Query.finished_resolveLevels` after as many levels as the query has nothing waits;
* `Query.execute_eq_depthFirst`  the response of a query.
-/

set_option linter.unusedSectionVars false

namespace Batchwise

namespace Query

variable {S C : Type} [DecidableEq S] [DecidableEq C]

section

variable (world : World S) (registry : Registry S C) (context : C)

theorem fromOutcomes_field : Placement.FromOutcomes (DepthFirst.field world registry context)
    (DepthFirst.outcome world registry context) := by
  intro f source path
  rw [DepthFirst.field_eq]
  refine congrArg (fun o => DepthFirst.rendered o path _) (funext fun s => funext fun p => ?_)
  rw [DepthFirst.members_eq]
  rfl

/-- what holds between two levels, when at most `left` levels are left. -/
structure Ready (expected : Rendered) (left : Nat) (s : State S C) : Prop where
  idle : s.execution.Each registry fun service b => b.Idle service
  drafted : Placement.Drafted (DepthFirst.field world registry context) expected s.placement
    s.placement.tasks
  low : ∀ t ∈ s.placement.tasks, t.field.height ≤ left

end

variable {world : World S} {registry : Registry S C} {context : C} {expected : Rendered}

theorem ready_begin (world : World S) (hr : registry.Sound) (context : C) (root : S)
    (fields : List Field) :
    Ready world registry context
      (DepthFirst.objectOf (DepthFirst.members world registry context fields root []))
      (Field.levels fields) (begin registry root fields) := by
  let p : Placement S := ⟨Draft.empty, [], []⟩
  have hroot : p.draft.slots[Draft.root]? = some (.object []) := rfl
  have hclosed : p.draft.Closed := Draft.closed_empty
  have hshows : Placement.Shows (DepthFirst.field world registry context) fields p _
      [Draft.root] _ _ := Placement.shows_schedule fields root Draft.root [] p hclosed hroot
  have hobject : Placement.objectWith (DepthFirst.field world registry context) fields root []
      = DepthFirst.objectOf (DepthFirst.members world registry context fields root []) := by
    rw [DepthFirst.members_eq]
    rfl
  rw [hobject] at hshows
  have htasks : (begin registry root fields : State S C).placement.tasks
      = Placement.fieldTasks root [] p.draft.slots.size fields := hshows.tasks_eq
  refine ⟨Execution.each_ofRegistry hr, ⟨hshows.grows.closed, ?_, ?_, ?_, ?_⟩, ?_⟩
  · exact Nat.lt_of_lt_of_le Nat.zero_lt_one hshows.grows.size_le
  · rw [htasks]
    exact hshows.waiting.mono (Nat.zero_le _)
  · rw [htasks]
    exact fun hole hcovers => List.singleton_inj.mp (hshows.shows hole hcovers)
  · have herrors : (begin registry root fields : State S C).placement.errors = [] :=
      hshows.errors_eq
    rw [htasks, herrors, hshows.errors_new, List.flatMap_singleton]
    exact List.Perm.refl _
  · rw [htasks]
    exact fun t ht => Field.height_le_levels (Placement.mem_fields_of_fieldTasks ht)

/-- **A level keeps everything ready for the next one.** -/
theorem Ready.resolveLevel (hr : registry.Sound) (hsources : registry.BySource) {left : Nat}
    {s : State S C} (h : Ready world registry context expected (left + 1) s)
    (rounds : List Round) (number : Nat) :
    Ready world registry context expected left
      (Query.resolveLevel world registry context rounds number s) := by
  obtain ⟨hidle, houtcomes⟩ :=
    Level.run_spec world context hr hsources h.idle rounds s.placement.tasks
  have hdrafted : Placement.Drafted (DepthFirst.field world registry context) expected
      { s.placement with tasks := [] } (s.placement.tasks ++ []) := by
    rw [List.append_nil]
    exact ⟨h.drafted.closed, h.drafted.root_lt, h.drafted.waiting, h.drafted.shows,
      h.drafted.errors_perm⟩
  obtain ⟨new, htasks, hdrafted', hnew⟩ :=
    Placement.drafted_placeAll (fromOutcomes_field world registry context) s.placement.tasks hdrafted
  rw [← houtcomes] at htasks hdrafted'
  refine ⟨hidle, hdrafted', fun u hu => ?_⟩
  have hu' : u ∈ new := by
    have htasks' : (Query.resolveLevel world registry context rounds number s).placement.tasks
        = [] ++ new := htasks
    rw [htasks'] at hu
    exact hu
  obtain ⟨t, ht, hfield⟩ := hnew u hu'
  have hlow := h.low t ht
  have hlt := Field.height_lt hfield
  omega

/-- **After as many levels as the query has nothing waits.** -/
theorem finished_resolveLevels (hr : registry.Sound) (hsources : registry.BySource)
    (schedule : Schedule) (left number : Nat) {s : State S C}
    (h : Ready world registry context expected left s) :
    let p := (resolveLevels world registry context schedule left number s).placement
    p.draft.document Draft.root = expected.1 ∧ p.errors.Perm expected.2 := by
  have hdone : ∀ {left : Nat} {s : State S C}, Ready world registry context expected left s →
      s.placement.tasks = [] → s.placement.draft.document Draft.root = expected.1 ∧
        s.placement.errors.Perm expected.2 := by
    intro left s h hnil
    have hdrafted := h.drafted
    rw [hnil] at hdrafted
    exact hdrafted.finished
  induction left generalizing number s with
  | zero =>
    refine hdone h (List.eq_nil_iff_forall_not_mem.mpr fun t ht => ?_)
    have hlow := h.low t ht
    have hpos := Field.height_pos t.field
    omega
  | succ left ih =>
    rw [resolveLevels]
    split
    · rename_i hempty
      exact hdone h (List.isEmpty_iff.mp hempty)
    · exact ih (number + 1) (h.resolveLevel hr hsources (schedule number) number)

/-- **Resolution level by level gives what depth-first evaluation gives.**  For a built registry
whose batched functions act source by source, and a query that is not too deep: however long the
calls take, the query has a response, its data are those of the depth-first evaluation, and its
errors are the same up to their order. -/
theorem execute_eq_depthFirst {settings : Settings} {ds : List (Declaration S C)}
    {registry : Registry S C} (hr : Registry.build settings ds = .ok registry)
    (hsources : registry.BySource) (world : World S) (schedule : Schedule) (root : S)
    (fields : List Field) (context : C)
    (hdepth : Field.levels fields ≤ registry.settings.queryDepthLimit) :
    ∃ resolved, execute world registry schedule root fields context = .ok resolved ∧
      resolved.response.data = DepthFirst.document world registry context root fields ∧
      resolved.response.errors.Perm (DepthFirst.errors world registry context root fields) := by
  have hsound := Registry.sound_build hr
  have hfinished := finished_resolveLevels hsound hsources schedule (Field.levels fields) 1
    (ready_begin world hsound context root fields)
  have hexecute : execute world registry schedule root fields context = .ok _ :=
    if_neg (Nat.not_lt.mpr hdepth)
  exact ⟨_, hexecute, hfinished⟩

/-- posts are written by authors: objects below 10 are authors, the others are posts. -/
def blog : World Nat where
  typeName n := if n < 10 then "Author" else "Post"
  property n name := if name = "name" then some (.text (if n = 1 then "Ada" else "Grace")) else none

/-- a batched function that gives the author of each post. -/
def authors : Resolver Nat Unit :=
  .batched ⟨false, false⟩ fun call =>
    .ready (.ok (Table.ofList (call.input.map fun n => (n, .object (n / 10)))))

/-- a simple function that gives the title of a post in the language it is asked for, after a
while. -/
def titles : Resolver Nat Unit :=
  .simple ⟨true, false⟩ fun call =>
    ⟨["title"], .ok (.scalar ((call.args.bind fun args => args.get? "in").getD .null))⟩

/-- a simple function that has nothing to count. -/
def votes : Resolver Nat Unit :=
  .simple ⟨false, false⟩ fun _ => .ready (.error (.message "no votes"))

def inLanguage (l : String) : Args := ⟨[("in", .text l)], List.pairwise_singleton _ _⟩

/-- the name of a post's author, the same under another name, its votes, and its title in two
languages under one name. -/
def postFields : List Field :=
  [⟨none, "title", inLanguage "en", []⟩, ⟨none, "author", .empty, Field.chain ["name"] []⟩,
    ⟨none, "votes", .empty, []⟩, ⟨some "by", "author", .empty, Field.chain ["name"] []⟩,
    ⟨some "title", "title", inLanguage "de", []⟩]

/-- the title, which is late by one round, stands where it was asked for first, in the language it
was asked for last, and the votes are missed. -/
theorem execute_eq_depthFirst_of_blog :
    ∃ registry resolved, Registry.build Settings.default [.plain "Post" "author" authors,
        .withArgs "Post" "title" titles, .plain "Post" "votes" votes] = .ok registry ∧
      execute blog registry (fun _ => [fun _ => false]) 10 postFields () = .ok resolved ∧
      resolved.response.data = .object
        [("title", .text "de"), ("author", .object [("name", .text "Ada")]), ("votes", .null),
          ("by", .object [("name", .text "Ada")])] ∧
      resolved.response.errors = [⟨.resolver (.message "no votes"), [.field "votes"]⟩] := by
  have hbuild : ∃ registry : Registry Nat Unit,
      Registry.build Settings.default [.plain "Post" "author" authors,
        .withArgs "Post" "title" titles, .plain "Post" "votes" votes] = .ok registry ∧
      registry.bindings = [⟨0, "Post", "author", [.sources], ⟨false, none⟩, authors⟩,
        ⟨1, "Post", "title", [.source, .arguments], ⟨true, none⟩, titles⟩,
        ⟨2, "Post", "votes", [.source], ⟨false, none⟩, votes⟩] ∧
      registry.settings = Settings.default := ⟨_, rfl, rfl, rfl⟩
  obtain ⟨registry, hr, hbindings, hsettings⟩ := hbuild
  have hsources : registry.BySource := by
    intro b hb shape run hresolver
    rw [hbindings] at hb
    rcases List.mem_cons.mp hb with rfl | hb
    · cases hresolver
      exact bySource_of_graph fun n => .object (n / 10)
    · -- the other two are simple
      rcases List.mem_cons.mp hb with rfl | hb
      · cases hresolver
      · rw [List.mem_singleton.mp hb] at hresolver
        cases hresolver
  have hdepth : Field.levels postFields ≤ registry.settings.queryDepthLimit := by
    rw [hsettings]
    decide
  obtain ⟨resolved, hexecute, hdata, herrors⟩ := execute_eq_depthFirst hr hsources blog
    (fun _ => [fun _ => false]) 10 postFields () hdepth
  refine ⟨registry, resolved, hr, hexecute, hdata.trans ?_, ?_⟩
  · cases hr
    rfl
  · refine List.perm_singleton.mp (herrors.trans ?_)
    cases hr
    exact List.Perm.refl _

end Query
end Batchwise
