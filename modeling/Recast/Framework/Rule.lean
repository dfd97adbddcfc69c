-- SUMMARY: What the rules of all source frameworks share: recognising a framework's markers and calls, objections, markers of the target, and the imports that a plan needs.
import Recast.Strategy
import Recast.View.Basic

/-! # Rules of test frameworks

All source frameworks have attributes as markers and static methods as assertions. A marker is
taken for the framework's when it resolves into its namespace; one that does not resolve at all
is taken by its name, since the import may be in another file. A call has to resolve. -/

namespace Recast.Framework

/-! ## Objections -/

/-- Why a rule of a framework proposes nothing where it should. -/
inductive Objection where
  | tooFewArguments (assertion : String) (wanted found : Nat)
  /-- The target framework has nothing like it. -/
  | noCounterpart (what : String)
  /-- Only the form with a type argument is understood. -/
  | genericFormOnly (assertion : String)
  /-- Something is not named that has to be. -/
  | namesNo (what missing : String)
  /-- Something is left out that is needed. -/
  | without (what missing : String)
  | noDeclaratorName
  | noLambdaBody
  | expectedException
  deriving DecidableEq, Repr

namespace Objection

def message : Objection → String
  | .tooFewArguments assertion wanted found =>
    s!"{assertion} expects at least {wanted} argument(s), found {found}"
  | .noCounterpart what => s!"{what} has no TUnit counterpart"
  | .genericFormOnly assertion => s!"only the generic form of Assert.{assertion} is converted"
  | .namesNo what missing => s!"{what} names no {missing}"
  | .without what missing => s!"{what} without {missing}"
  | .noDeclaratorName => "declarator has no name"
  | .noLambdaBody => "lambda has no body"
  | .expectedException => "ExpectedException needs an Assert.ThrowsAsync around the test body"

end Objection

/-- The answer of a rule that objects. -/
def object {α : Type} (objection : Objection) : Except Complaint α :=
  .error (.ofText objection.message)

/-- A value that has to be there. -/
def require {α : Type} (objection : Objection) : Option α → Except Complaint α
  | some a => .ok a
  | none => object objection

/-! ## Recognition -/

/-- The short name of an attribute that is a marker of the framework with a namespace. -/
def markerName? (cx : Context) (space : String) (s : Site) : Except Complaint (Option String) :=
  match (View.Attribute.of? s.node).bind View.Attribute.shortName? with
  | none => .ok none
  | some name => do
    match ← cx.resolveType s with
    | some symbol => return if symbol.isIn space then some name else none
    | none => return some name

/-- The marker at a site with its name, when it is one of the framework with a namespace. -/
def marker? (cx : Context) (space : String) (s : Site) :
    Except Complaint (Option (String × View.Attribute)) := do
  match ← markerName? cx space s, View.Attribute.of? s.node with
  | some name, some view => return some (name, view)
  | _, _ => return none

/-- The method that a call binds to, when it is one of certain types. -/
def frameworkCall? (cx : Context) (owners : List String) (s : Site) :
    Except Complaint (Option MethodSymbol) := do
  return (← cx.resolveCall s).filter fun method => owners.any method.owner.is

/-- The rightmost name of what a method is called on. -/
def receiverName? (call : View.Invocation) : Option String :=
  call.receiver?.bind fun receiver =>
    match receiver.kind with
    | .identifierName => receiver.identifier?
    | .memberAccessExpression => receiver.childNodes[1]?.bind Node.identifier?
    | _ => none

/-- The short names of the markers of a declaration. -/
def markerNames (declaration : Node) : List String :=
  declaration.attributes.filterMap fun a =>
    (View.Attribute.of? a).bind View.Attribute.shortName?

/-- True for a method with one of the markers that is not public. -/
def lacksPublic (markers : List String) (s : Site) : Bool :=
  (View.Method.of? s.node).isSome && (markerNames s.node).any markers.contains
    && !s.node.hasModifier "public"

/-! ## Markers -/

/-- The value of a named argument of a marker. -/
def namedValue? (marker : View.Attribute) (name : String) : Option String :=
  (marker.named? name).map View.AttributeArgument.valueText

/-- The values of the arguments without a name. -/
def positionalValues (marker : View.Attribute) : List String :=
  marker.positional.map View.AttributeArgument.valueText

/-- A single argument as an argument list. -/
def inParentheses (value : String) : String :=
  s!"({value})"

/-- The argument list of a hook that runs around each test, class or assembly. -/
def hookScope (scope : String) : String :=
  s!"(HookType.{scope})"

/-- The argument list of a property with a name. -/
def property (name value : String) : String :=
  s!"(\"{name}\", {value})"

/-- A marker with another name and without arguments. -/
def bareMarker (name : String) : MarkerChange :=
  { name, arguments := .remove }

/-- A marker with another name and these arguments. -/
def markerWith (name arguments : String) : MarkerChange :=
  { name, arguments := .replace arguments }

/-- The change with one more marker beside it. -/
def beside (change : MarkerChange) (name : String) (arguments : Option String) : MarkerChange :=
  { change with additional := change.additional ++ [⟨name, arguments⟩] }

/-- The change with one more marker beside it when there is a value to give it. -/
def besideWhen (change : MarkerChange) (name : String) (arguments : Option String) : MarkerChange :=
  if arguments.isSome then beside change name arguments else change

/-! ## Imports -/

/-- The namespaces of the target framework and of the system that the records of a plan rely on. -/
def neededImports (plan : Plan) : List String :=
  let whenever (needed : Bool) (spaces : List String) : List String := if needed then spaces else []
  let marks := plan.hasRecord [.marker, .parameterMarker, .classMarker, .methodMarker]
  let asserts := plan.assertions.any fun a => Text.contains a.replacement "Assert.That("
  let prints := plan.records.any fun r =>
    match r.change with
    | .callReplacement text => Text.startsWith text "Console."
    | .exceptionCapture .. => true
    | _ => false
  let wraps := plan.records.any fun r =>
    match r.change with
    | .signature change => change.returnType != .keep
    | .methodMarker _ returnType => returnType.isSome
    | _ => false
  whenever marks ["TUnit.Core"]
    ++ whenever asserts ["TUnit.Assertions", "TUnit.Assertions.Extensions"]
    ++ whenever prints ["System"]
    ++ whenever wraps ["System.Threading.Tasks"]

/-- The imports of a migrated file: those below a namespace go, and what the plan needs comes. -/
def importsFor (root : String) (plan : Plan) : ImportDelta :=
  (({} : ImportDelta).removeUnder root).addAll (neededImports plan)

end Recast.Framework
