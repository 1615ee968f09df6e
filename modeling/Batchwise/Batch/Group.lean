import Batchwise.Resolver.Declaration

/-!
# Pending calls and their groups

A submitted call is known by its key: its source, its context, and the fingerprints of its
arguments and selection where the resolver wants them.  The calls that a tick takes are split
into groups of equal fingerprints, in the order in which each group's first call was submitted;
one call of the resolver serves a whole group.

* `Key.ofCall`           the key of a call;
* `groupPending`         the groups of the calls that a tick takes;
* `Group.restrict`       of a resolver's answers those for sources it was given;
* `Group.distribute`     the answers handed to the members of a group, each to its source.
-/

namespace Batchwise

/-- a handle to the result of a submitted call. -/
abbrev Ticket := Nat

inductive BatchError
  | resolverFailed (resolver : String) (failure : ResolverFailure)
  | contextDivergence (resolver : String)
  | abandoned (resolver : String)

def divergenceMessage (resolver : String) : String :=
  "Pending calls for '" ++ resolver ++ "' carry different execution contexts"

namespace BatchError

def message : BatchError → String
  | resolverFailed resolver failure => "Resolver '" ++ resolver ++ "' failed: " ++ failure.text
  | contextDivergence resolver => divergenceMessage resolver
  | abandoned resolver => "Pending call for '" ++ resolver ++ "' was dropped before it was resolved"

end BatchError

/-- the result of a submitted call: no answer if the resolver gave none for its source. -/
abbrev CallResult (S : Type) := Except BatchError (Option (Answer S))

/-! ### keys -/

/-- what tells submitted calls apart. -/
structure Key (S C : Type) where
  source : S
  args : Option String
  selection : Option (List String)
  context : C
deriving DecidableEq

/-- what tells groups apart: the fingerprints of arguments and selection. -/
abbrev GroupKey := Option String × Option (List String)

structure Pending where
  args : Args
  selection : Option Selection
  ticket : Ticket

namespace Key

variable {S C : Type}

def ofCall (signature : Signature) (source : S) (args : Args) (selection : Option Selection)
    (context : C) : Key S C where
  source := source
  args := if signature.wantsArgs then some args.fingerprint else none
  selection := selection.map Selection.paths
  context := context

def groupKey (k : Key S C) : GroupKey := (k.args, k.selection)

end Key

/-! ### groups -/

/-- calls of one tick that are served together. -/
structure Group (S C : Type) where
  /-- the arguments of the first call. -/
  args : Args
  /-- the selection of the first call. -/
  selection : Option Selection
  /-- the distinct sources in order of submission. -/
  sources : List S
  members : List (Key S C × Ticket)

namespace Group

variable {S C : Type} [DecidableEq S] [DecidableEq C]

def start (p : Pending) : Group S C := ⟨p.args, p.selection, [], []⟩

def add (g : Group S C) (key : Key S C) (ticket : Ticket) : Group S C where
  args := g.args
  selection := g.selection
  sources := if key.source ∈ g.sources then g.sources else g.sources ++ [key.source]
  members := g.members ++ [(key, ticket)]

def tickets (g : Group S C) : List Ticket := g.members.map Prod.snd

/-! ### answers -/

structure Restricted (S : Type) where
  answers : Table S (Answer S)
  /-- the number of answers for sources that were not asked for. -/
  unrequested : Nat
  /-- the number of sources without an answer. -/
  missing : Nat

def restrict (sources : List S) (answers : Table S (Answer S)) : Restricted S :=
  let kept := answers.filterKeys fun s => decide (s ∈ sources)
  { answers := kept
    unrequested := answers.size - kept.size
    missing := sources.length - kept.size }

/-- hand each member the answer for its source and take the answer away; what nobody took is left
over. -/
def distribute : List (Key S C × Ticket) → Table S (Answer S) →
    List (Ticket × CallResult S) × Table S (Answer S)
  | [], answers => ([], answers)
  | m :: ms, answers =>
    let rest := distribute ms (answers.erase m.1.source)
    ((m.2, .ok (answers.find? m.1.source)) :: rest.1, rest.2)

end Group

section

variable {S C : Type} [DecidableEq S] [DecidableEq C]

def addToGroup (groups : Table GroupKey (Group S C)) (e : Key S C × Pending) :
    Table GroupKey (Group S C) :=
  let g := (groups.find? e.1.groupKey).getD (Group.start e.2)
  groups.put e.1.groupKey (g.add e.1 e.2.ticket)

def groupPending (pending : List (Key S C × Pending)) : Table GroupKey (Group S C) :=
  pending.foldl addToGroup .empty

end

end Batchwise
