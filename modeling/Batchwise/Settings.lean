import Batchwise.Environment

/-!
# Settings

How many groups of a tick may run at once, how deep a selection reaches where a resolver does not
say, and how deep a query may be.  `Settings.ofEnvironment` reads them in this order and stops at
the first that is no positive number.
-/

namespace Batchwise

structure Settings where
  /-- the number of groups of one tick that may run at once; without it all of them may. -/
  maxConcurrentGroups : Option Nat
  /-- the depth of the selection of a resolver that wants one and declares none. -/
  defaultSelectionDepth : Nat
  /-- the number of nested levels that a query may have. -/
  queryDepthLimit : Nat
deriving DecidableEq

namespace Settings

/-- no bound on groups, selections one level deep, queries up to 64 levels deep. -/
def default : Settings := ⟨none, 1, 64⟩

instance : Inhabited Settings := ⟨default⟩

def maxConcurrentGroupsKey : String := "FIELDBATCH_MAX_CONCURRENT_GROUPS"

def defaultSelectionDepthKey : String := "FIELDBATCH_DEFAULT_SELECTION_DEPTH"

def queryDepthLimitKey : String := "FIELDBATCH_QUERY_DEPTH_LIMIT"

/-- the settings that an environment gives, the defaults where it gives none. -/
def ofEnvironment (env : Environment) : Except EnvironmentError Settings := do
  let groups ← env.positive? maxConcurrentGroupsKey
  let selectionDepth ← env.positive? defaultSelectionDepthKey
  let queryDepth ← env.positive? queryDepthLimitKey
  return {
    maxConcurrentGroups := groups
    defaultSelectionDepth := selectionDepth.getD default.defaultSelectionDepth
    queryDepthLimit := queryDepth.getD default.queryDepthLimit }

end Settings
end Batchwise
