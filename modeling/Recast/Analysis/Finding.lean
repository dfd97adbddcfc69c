-- SUMMARY: Findings: what the rules of a strategy come to on a tree, topic by topic, before anything is recorded.
import Recast.Analysis.Await
import Recast.Strategy

/-! # Findings

A finding is a request to record something: a change for a node, a change of a method header that
may have to be merged with others, or a failure. All findings but those about method headers are
read off the tree alone, so they are listed first and recorded afterwards. -/

namespace Recast

/-- A request to record something. -/
inductive Finding where
  | failure (failure : Failure)
  /-- A change of the node at a site. -/
  | change (topic : Topic) (target : Site) (written : String) (change : Change)
  /-- A marker for the method at a span; `owner` is the type that asked for it. -/
  | methodMarker (owner : Site) (method : Span) (proposal : Proposal MarkedMethod)
  /-- A change of a method header. -/
  | signature (topic : Topic) (method : Site) (proposal : Proposal SignatureChange)
  /-- A change of a container with its declared type and creation. -/
  | container (target : Site) (proposal : ContainerProposal)

namespace Finding

/-- A failure about a site. -/
def ofFailure (topic : Topic) (s : Site) (description : String) : Finding :=
  .failure ⟨.analysis topic, description, s.text⟩

/-- The findings that an answer gives rise to; a complaint is a failure. -/
def ofAnswer {α : Type} (topic : Topic) (s : Site) (answer : Except Complaint α)
    (findings : α → List Finding) : List Finding :=
  match answer with
  | .ok a => findings a
  | .error complaint => [ofFailure topic s complaint.message]

/-- The findings of a rule that may propose something for each candidate. -/
def ofProposals {α : Type} (topic : Topic) (cx : Context) (rule : Rule (Option α))
    (finding : Site → α → Finding) (candidates : List Site) : List Finding :=
  candidates.flatMap fun s =>
    ofAnswer topic s (rule cx s) fun proposal => (proposal.map (finding s)).toList

/-- The findings of a rule that may remove each candidate. -/
def ofRemovals (topic : Topic) (cx : Context) (rule : Rule Bool) (removal : Site → Change)
    (candidates : List Site) : List Finding :=
  candidates.flatMap fun s =>
    ofAnswer topic s (rule cx s) fun removes =>
      if removes then [.change topic s s.text (removal s)] else []

end Finding

namespace Strategy

open Finding

variable (strategy : Strategy) (cx : Context)

/-! ## Assertions -/

/-- An assertion that waits instead of awaiting. -/
def blocking (settings : Settings) (change : AssertionChange) : AssertionChange :=
  let replacement :=
    match Text.after? settings.awaitPrefix change.replacement with
    | some rest => rest ++ settings.blockingWait
    | none => change.replacement
  { change with replacement, awaits := false }

/-- An assertion as it can stand at a site: one that awaits only where code can. -/
def fitAssertion (fixed : InterfaceMethods) (s : Site) (change : AssertionChange) :
    AssertionChange :=
  if change.awaits && !canAwait cx.settings fixed s then blocking cx.settings change else change

def assertionFindings (fixed : InterfaceMethods) (t : Tree) : List Finding :=
  ofProposals .assertion cx strategy.assertion
    (fun s p => .change .assertion s p.written (.assertion (fitAssertion cx fixed s p.change)))
    (strategy.findAssertions t)

/-! ## Markers -/

/-- What becomes of one marker: it goes, or else it may change. -/
def markerFinding (s : Site) : List Finding :=
  ofAnswer .marker s (strategy.removesMarker cx s) fun removes =>
    if removes then [.change .marker s s.text .markerRemoval]
    else
      ofProposals .marker cx strategy.marker
        (fun s p => .change .marker s p.written (.marker p.change)) [s]

def markerFindings (t : Tree) : List Finding :=
  (strategy.findMarkers t).flatMap (strategy.markerFinding cx)

def parameterMarkerFindings (t : Tree) : List Finding :=
  ofProposals .parameterMarker cx strategy.parameterMarker
    (fun s p => .change .parameterMarker s p.written (.parameterMarker p.change.1 p.change.2))
    (strategy.findParameterMarkers t)

def missingMarkerFindings (t : Tree) : List Finding :=
  ofProposals .missingMarker cx strategy.missingMarker
    (fun s p => .change .missingMarker s p.written
      (.methodMarker p.change.marker p.change.returnType))
    (strategy.findMethods t)

/-! ## Types -/

/-- The base types of a type declaration. -/
def baseTypesOf (declaration : Site) : List Site :=
  ((declaration.child? .baseList).map fun list =>
    list.children.filter fun b => b.kind == .baseType).getD []

/-- The name of a base type. -/
def baseTypeName (base : Site) : String :=
  (((View.BaseType.of? base.node).bind View.BaseType.type?).map Node.text).getD base.text

/-- The finding that a proposal for a type amounts to. -/
def classFinding (t : Tree) (declaration : Site) : ClassProposal → Finding
  | .baseType written type => .change .baseType declaration written (.baseTypeAddition type)
  | .marker written marker => .change .baseType declaration written (.classMarker marker)
  | .methodMarker method proposal => .methodMarker declaration method proposal
  | .signature method proposal =>
    match t.findSpan? .methodDeclaration method with
    | some target => .signature .baseType target proposal
    | none =>
      let owner := declaration.identifier?.getD "class"
      ofFailure .baseType declaration s!"no method at {method.render} in {owner}"

/-- What becomes of a type: some of its base types go, then there may be proposals for it. -/
def classFindingsAt (t : Tree) (declaration : Site) : List Finding :=
  ofRemovals .baseType cx strategy.removesBaseType
      (fun base => .baseTypeRemoval (baseTypeName base)) (baseTypesOf declaration)
    ++ ofAnswer .baseType declaration (strategy.classes cx declaration)
      (·.map (classFinding t declaration))

def classFindings (t : Tree) : List Finding :=
  (strategy.findClasses t).flatMap (strategy.classFindingsAt cx t)

/-- The names that a member declares. -/
def memberName (member : Site) : String :=
  match View.DataMember.of? member.node with
  | some data => Text.joinWith ", " data.names
  | none => member.identifier?.getD ""

def memberFindings (t : Tree) : List Finding :=
  ofRemovals .member cx strategy.removesMember (fun s => .memberRemoval (memberName s))
    (strategy.findMembers t)

/-- The removal of a parameter. -/
def parameterRemoval (s : Site) : Change :=
  let parameter := View.Parameter.of? s.node
  .parameterRemoval ((parameter.bind View.Parameter.name?).getD "")
    (((parameter.bind View.Parameter.type?).map Node.text).getD "")

def constructorParameterFindings (t : Tree) : List Finding :=
  ofRemovals .constructorParameter cx strategy.removesConstructorParameter parameterRemoval
    (strategy.findConstructorParameters t)

/-! ## Calls and containers -/

/-- The finding that a proposal for a call amounts to. An exception is captured by the local
    declaration around the call. -/
def callFinding (s : Site) : CallProposal → Finding
  | .replacement written text => .change .call s written (.callReplacement text)
  | .capture written captured body =>
    match s.ancestor? .localDeclarationStatement with
    | some statement => .change .call statement written (.exceptionCapture captured body)
    | none => ofFailure .call s "exception capture is only supported in a local declaration"

def callFindings (t : Tree) : List Finding :=
  ofProposals .call cx strategy.call callFinding (strategy.findCalls t)

def containerFindings (t : Tree) : List Finding :=
  ofProposals .container cx strategy.container .container (strategy.findContainers t)

/-! ## All -/

/-- The findings that do not depend on other findings, in the order in which they are recorded. -/
def findings (fixed : InterfaceMethods) (t : Tree) : List Finding :=
  strategy.assertionFindings cx fixed t ++ strategy.markerFindings cx t
    ++ strategy.parameterMarkerFindings cx t ++ strategy.missingMarkerFindings cx t
    ++ strategy.classFindings cx t ++ strategy.memberFindings cx t
    ++ strategy.constructorParameterFindings cx t ++ strategy.callFindings cx t
    ++ strategy.containerFindings cx t

/-- The methods that the target framework needs to be public. -/
def visibilityFindings (t : Tree) : List Finding :=
  (strategy.findMethods t).flatMap fun s =>
    ofAnswer .visibility s (strategy.makesPublic cx s) fun needed =>
      if needed then [.signature .visibility s ⟨s.header, { makePublic := true }⟩] else []

end Strategy

end Recast
