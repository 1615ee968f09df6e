import Batchwise.Resolver.Call
import Batchwise.World

/-!
# Scripted answers

What a scripted resolver answers for one source, as an expression over the source, the call it
is part of and the world.  An expression may give no answer, and it may fail.
-/

namespace Batchwise.Scenario

inductive Expr
  | const (value : Answer String)
  /-- the source's key with something behind it. -/
  | key (suffix : String)
  | self
  | nothing
  /-- the source's key with the text of an argument behind it. -/
  | argText (name : String)
  | arg (name : String)
  /-- the paths of the selection with commas between them. -/
  | paths
  | pathCount
  | selected (path : String)
  | context
  /-- the keys of all sources of the call. -/
  | batch
  | property (name : String)
  | fail (failure : ResolverFailure)
  /-- the expression of the first row for the source, or another one. -/
  | table (rows : List (String × Expr)) (other : Expr)
  | ifArg (name : String) (value : Datum) (yes no : Expr)
  | ifSelected (path : String) (yes no : Expr)
  | list (items : List Expr)

abbrev ScriptCall := Call (List String) String

/-- an answer, or none, or a failure. -/
abbrev ScriptOutcome := Except ResolverFailure (Option (Answer String))

def argIs (call : ScriptCall) (name : String) (value : Datum) : Bool :=
  match call.args.bind fun as => as.get? name with
  | some d => d.same value
  | none => false

def callPaths (call : ScriptCall) : List String :=
  (call.selection.map Selection.paths).getD []

namespace Expr

def evalLeaf (world : World String) (call : ScriptCall) (source : String) : Expr → ScriptOutcome
  | const value => .ok (some value)
  | key suffix => .ok (some (.text (source ++ suffix)))
  | self => .ok (some (.object source))
  | argText name =>
    .ok (some (.text (source ++ ((call.args.bind fun as => as.getText? name).getD ""))))
  | arg name =>
    .ok (some (((call.args.bind fun as => as.get? name).map Answer.scalar).getD .null))
  | paths => .ok (some (.text (String.intercalate "," (callPaths call))))
  | pathCount => .ok (some (.scalar (.number (.int (callPaths call).length))))
  | selected path => .ok (some (.scalar (.bool ((callPaths call).contains path))))
  | context => .ok (some (.text call.context))
  | batch => .ok (some (.scalar (.list (call.input.map Datum.text))))
  | property name => .ok (world.property source name)
  | fail failure => .error failure
  | _ => .ok none

mutual

def eval (world : World String) (call : ScriptCall) (source : String) : Expr → ScriptOutcome
  | table rows other =>
    match evalRows world call source rows with
    | some outcome => outcome
    | none => eval world call source other
  | ifArg name value yes no =>
    if argIs call name value then eval world call source yes else eval world call source no
  | ifSelected path yes no =>
    if (callPaths call).contains path then eval world call source yes
    else eval world call source no
  | list items =>
    match evalItems world call source items with
    | .ok answers => .ok (some (.list answers))
    | .error failure => .error failure
  | e => evalLeaf world call source e

/-- the answer of the first row for the source, if there is one. -/
def evalRows (world : World String) (call : ScriptCall) (source : String) :
    List (String × Expr) → Option ScriptOutcome
  | [] => none
  | (k, e) :: rows =>
    if k = source then some (eval world call source e) else evalRows world call source rows

/-- the answers of items, null where there is none. -/
def evalItems (world : World String) (call : ScriptCall) (source : String) :
    List Expr → Except ResolverFailure (List (Answer String))
  | [] => .ok []
  | e :: es =>
    match eval world call source e with
    | .error failure => .error failure
    | .ok answer =>
      match evalItems world call source es with
      | .error failure => .error failure
      | .ok answers => .ok (answer.getD .null :: answers)

end

/-- the answers for the sources of a call, in order; the first failure is that of the call. -/
def evalSources (world : World String) (call : ScriptCall) (e : Expr) :
    List String → Except ResolverFailure (List (String × Answer String))
  | [] => .ok []
  | source :: sources =>
    match e.eval world call source with
    | .error failure => .error failure
    | .ok answer =>
      match evalSources world call e sources with
      | .error failure => .error failure
      | .ok rest => .ok ((answer.map fun a => (source, a)).toList ++ rest)

end Expr
end Batchwise.Scenario
