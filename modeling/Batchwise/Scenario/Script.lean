import Batchwise.Resolver.Declaration
import Batchwise.Scenario.Expr
import Batchwise.Settings

/-!
# Scripted resolvers

A scripted resolver answers by an expression, and waits at gates before it does.  A gate may be
for calls with a certain source or a certain argument only.

* `Script.declaration`   the declaration of a scripted resolver.
-/

namespace Batchwise.Scenario

/-- a gate, and the calls that it is for. -/
structure GateRule where
  gate : Gate
  /-- only calls with this source. -/
  source? : Option String
  /-- only calls with this argument. -/
  arg? : Option (String × Datum)

def GateRule.applies (rule : GateRule) (call : ScriptCall) : Bool :=
  (match rule.source? with
    | some source => call.input.contains source
    | none => true) &&
  (match rule.arg? with
    | some arg => argIs call arg.1 arg.2
    | none => true)

inductive ParameterSource
  | listed (parameters : List Parameter)
  /-- derived from what the function takes, with the depth of its selection if there is one. -/
  | derived (depth? : Option Nat)

structure Script where
  typeName : String
  fieldName : String
  batched : Bool
  shape : Shape
  parameters : ParameterSource
  answer : Expr
  /-- answers that a batched resolver gives whatever it is asked for. -/
  extra : List (String × Answer String)
  gates : List GateRule

namespace Script

def gatesOf (s : Script) (call : ScriptCall) : List Gate :=
  (s.gates.filter fun rule => rule.applies call).map GateRule.gate

def batchOutcome (world : World String) (s : Script) (call : ScriptCall) : BatchOutcome String :=
  match Expr.evalSources world call s.answer call.input with
  | .error failure => .error failure
  | .ok answers => .ok (Table.ofList (answers ++ s.extra))

/-- what a simple call comes back with: null where there is no answer. -/
def simpleOutcome (world : World String) (s : Script) (call : Call String String) :
    SimpleOutcome String :=
  match s.answer.eval world (call.withInput [call.input]) call.input with
  | .error failure => .error failure
  | .ok answer => .ok (answer.getD .null)

def resolver (world : World String) (s : Script) : Resolver String String :=
  if s.batched then
    .batched s.shape fun call => ⟨s.gatesOf call, s.batchOutcome world call⟩
  else
    .simple s.shape fun call =>
      ⟨s.gatesOf (call.withInput [call.input]), s.simpleOutcome world call⟩

def declaration (world : World String) (settings : Settings) (s : Script) :
    Declaration String String :=
  let r := s.resolver world
  match s.parameters with
  | .listed ps => ⟨s.typeName, s.fieldName, ps, r⟩
  | .derived depth? =>
    match s.shape with
    | ⟨false, false⟩ => .plain s.typeName s.fieldName r
    | ⟨true, false⟩ => .withArgs s.typeName s.fieldName r
    | ⟨false, true⟩ =>
      .withSelection s.typeName s.fieldName (depth?.getD settings.defaultSelectionDepth) r
    | ⟨true, true⟩ => .withArgsAndSelection s.typeName s.fieldName (depth?.getD 1) r

end Script
end Batchwise.Scenario
