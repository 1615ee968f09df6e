import Batchwise.Query.Placement

/-!
# Queries

A query is a list of fields wanted of a root object.  It is resolved level by level; the fields
of a level are all submitted before the level dispatches, so that siblings across the whole level
share calls.

* `Query.execute`        refuses a query with too many levels, and else gives the response and what
                         happened on the way;
* `Query.observe`        the same in sight of an observer, who has seen other things before;
* `Query.resolveLevels`  resolves at most as many levels as the query has: an object's fields are
                         always one level less than the field it was found under;
* `Response.text`        the response as a compact document.

How long calls take is up to a `Schedule`: for each level the rounds in which the level is looked
at before every gate is open.
-/

namespace Batchwise

/-! ### responses -/

structure Response where
  data : Document
  errors : List FieldError

def PathSegment.toDocument : PathSegment → Document
  | field name => .text name
  | index n => .number (.int n)

def FieldError.toDocument (e : FieldError) : Document :=
  .object [("message", .text e.failure.message), ("path", .list (e.path.map PathSegment.toDocument))]

namespace Response

/-- the response as a document; errors are left out if there are none. -/
def toDocument (r : Response) : Document :=
  if r.errors.isEmpty then .object [("data", r.data)]
  else .object [("data", r.data), ("errors", .list (r.errors.map FieldError.toDocument))]

def text (r : Response) : String := String.ofList r.toDocument.compact

end Response

/-! ### execution -/

/-- for each level the rounds before the last one. -/
abbrev Schedule := Nat → List Round

namespace Schedule

def immediate : Schedule := fun _ => []

end Schedule

/-- why a query is refused: nothing but its depth, as no dispatch of a level is refused. -/
inductive QueryError
  | depthLimitExceeded (depth limit : Nat)
deriving DecidableEq

namespace QueryError

def message : QueryError → String
  | depthLimitExceeded depth limit =>
    "Selection depth " ++ Nat.repr depth ++ " exceeds the limit of " ++ Nat.repr limit

end QueryError

namespace Query

variable {S C : Type} [DecidableEq S] [DecidableEq C]

structure State (S C : Type) where
  execution : Execution S C
  placement : Placement S
  events : List (Event S C)

/-- resolve the level number `number`.  A refused dispatch would end the query here, but the calls of
a query all carry its one context: `Level.dispatched_finished` says that there is none. -/
def resolveLevel (world : World S) (registry : Registry S C) (context : C) (rounds : List Round)
    (number : Nat) (s : State S C) : State S C :=
  let tasks := s.placement.tasks
  let done := Level.run world registry context rounds s.execution tasks
  { execution := done.execution
    placement := Placement.placeAll tasks done.outcomes { s.placement with tasks := [] }
    events := s.events ++ .level number tasks.length :: done.events }

/-- resolve levels while there are fields to resolve, at most `left` of them; `number` is the
number of the next one. -/
def resolveLevels (world : World S) (registry : Registry S C) (context : C)
    (schedule : Schedule) : (left number : Nat) → State S C → State S C
  | 0, _, s => s
  | left + 1, number, s =>
    if s.placement.tasks.isEmpty then s
    else
      resolveLevels world registry context schedule left (number + 1)
        (resolveLevel world registry context (schedule number) number s)

def begin (registry : Registry S C) (root : S) (fields : List Field) : State S C where
  execution := Execution.ofRegistry registry
  placement := Placement.schedule Draft.root root [] fields ⟨Draft.empty, [], []⟩
  events := []

structure Resolved (S C : Type) where
  response : Response
  events : List (Event S C)

/-- resolve `fields` of `root`, unless they are nested deeper than the settings allow. -/
def execute (world : World S) (registry : Registry S C) (schedule : Schedule) (root : S)
    (fields : List Field) (context : C) : Except QueryError (Resolved S C) :=
  let depth := Field.levels fields
  let limit := registry.settings.queryDepthLimit
  if limit < depth then .error (.depthLimitExceeded depth limit)
  else
    let s := resolveLevels world registry context schedule depth 1 (begin registry root fields)
    .ok ⟨⟨s.placement.draft.document Draft.root, s.placement.errors⟩, s.events⟩

/-- resolve `fields` of `root` while somebody looks on: what happens is written down behind what was
seen before, and stays there whatever comes out. -/
def observe (world : World S) (registry : Registry S C) (schedule : Schedule) (root : S)
    (fields : List Field) (context : C) :
    ExceptT QueryError (StateM (List (Event S C))) Response := do
  let depth := Field.levels fields
  let limit := registry.settings.queryDepthLimit
  if limit < depth then throw (.depthLimitExceeded depth limit)
  let s := resolveLevels world registry context schedule depth 1 (begin registry root fields)
  modify fun seen => seen ++ s.events
  return ⟨s.placement.draft.document Draft.root, s.placement.errors⟩

end Query
end Batchwise
