-- SUMMARY: Strategies: what a source framework's rules propose for each candidate node, with the default choice of candidates.
import Recast.Plan.Basic
import Recast.Settings
import Recast.Types.Symbol

/-! # Strategies

A strategy holds the rules of one source framework. For each topic it picks candidates in the
tree and says what is to become of a candidate: nothing, or a proposal. A rule may also refuse to
answer; it then gives a complaint, and the migration goes on with the next candidate.

A strategy never sees tags. It proposes changes, and analysis makes records of them. -/

namespace Recast

/-! ## Rules -/

/-- What a rule may consult besides its candidate. -/
structure Context where
  model : SemanticModel
  settings : Settings

/-- Why a rule gives no answer. -/
inductive Complaint where
  /-- The semantic model refuses. -/
  | semantic (cause : SemanticError)
  /-- The reasons, from the outermost to the root. -/
  | reasons (chain : List String)
  deriving DecidableEq, Repr

namespace Complaint

def message : Complaint → String
  | .semantic cause => cause.message
  | .reasons chain => Text.joinWith ": " chain

/-- A complaint with a single reason. -/
def ofText (reason : String) : Complaint :=
  .reasons [reason]

end Complaint

/-- A rule that answers about a candidate. -/
abbrev Rule (α : Type) := Context → Site → Except Complaint α

namespace Context

/-- The type that a site stands for. -/
def resolveType (cx : Context) (s : Site) : Except Complaint (Option TypeSymbol) :=
  (cx.model.resolveType s).mapError .semantic

/-- The method that a call binds to. -/
def resolveCall (cx : Context) (s : Site) : Except Complaint (Option MethodSymbol) :=
  (cx.model.resolveCall s).mapError .semantic

/-- The type of an expression. -/
def typeOf (cx : Context) (s : Site) : Except Complaint (Option TypeSymbol) :=
  (cx.model.typeOf s).mapError .semantic

end Context

/-! ## Proposals -/

/-- A proposed change together with the text that it is for. -/
structure Proposal (α : Type) where
  written : String
  change : α

/-- The header of a method that gets a marker. -/
structure MarkedMethod where
  /-- The marker without brackets. -/
  marker : String
  returnType : Option String := none
  deriving DecidableEq, Repr

/-- What is proposed for a type declaration and its methods. Methods are named by their spans. -/
inductive ClassProposal where
  | baseType (written type : String)
  | marker (written marker : String)
  | methodMarker (method : Span) (proposal : Proposal MarkedMethod)
  | signature (method : Span) (proposal : Proposal SignatureChange)

/-- What is proposed for a call that is no assertion. -/
inductive CallProposal where
  /-- The declaration around the call captures an exception. -/
  | capture (written captured body : String)
  | replacement (written text : String)

/-- What is proposed for a container of rows. -/
structure ContainerProposal where
  element : String
  container : String
  deriving DecidableEq, Repr

/-! ## Candidates -/

namespace Tree

/-- The sites of a tree that are wanted, in document order. -/
def sitesWhere (wanted : Site → Bool) (t : Tree) : List Site :=
  t.sites.filter wanted

/-- The sites of certain kinds, in document order. -/
def sitesOf (kinds : List Kind) (t : Tree) : List Site :=
  t.sitesWhere fun s => kinds.contains s.kind

end Tree

namespace Site

/-- The parent of the parent. -/
def grandparent? (s : Site) : Option Site :=
  s.parent?.bind parent?

/-- True when the parent of the parent has a kind, as an attribute has that is in the list of what
    it marks. -/
def isListedUnder (s : Site) (kind : Kind) : Bool :=
  (s.grandparent?.map fun owner => owner.kind == kind).getD false

/-- True for a field or property of a type. -/
def isDataMember (s : Site) : Bool :=
  (s.kind == .fieldDeclaration || s.kind == .propertyDeclaration)
    && (s.parent?.map fun p => p.kind.isTypeDeclaration).getD false

/-- True for a parameter of a constructor, of a primary one too. -/
def isConstructorParameter (s : Site) : Bool :=
  s.kind == .parameter
    && (((s.parent?.filter fun list => list.kind == .parameterList).bind parent?).map fun owner =>
      owner.kind == .constructorDeclaration || owner.kind.isTypeDeclaration).getD false

end Site

/-! ## Strategies -/

/-- The rules of a source framework. What is not given proposes nothing. -/
structure Strategy where
  /-- The name of the framework that files are written for. -/
  source : String
  /-- The name of the framework that they are to be written for. -/
  target : String
  findAssertions : Tree → List Site := Tree.sitesOf [.invocationExpression]
  /-- The attributes of declarations other than parameters. -/
  findMarkers : Tree → List Site :=
    Tree.sitesWhere fun s => s.kind == .attribute && !s.isListedUnder .parameter
  findParameterMarkers : Tree → List Site :=
    Tree.sitesWhere fun s => s.kind == .attribute && s.isListedUnder .parameter
  findMethods : Tree → List Site := Tree.sitesOf [.methodDeclaration]
  findClasses : Tree → List Site :=
    Tree.sitesOf [.classDeclaration, .recordDeclaration, .structDeclaration]
  findMembers : Tree → List Site := Tree.sitesWhere Site.isDataMember
  findConstructorParameters : Tree → List Site := Tree.sitesWhere Site.isConstructorParameter
  findCalls : Tree → List Site := Tree.sitesOf [.invocationExpression]
  findContainers : Tree → List Site := Tree.sitesOf [.genericName]
  assertion : Rule (Option (Proposal AssertionChange)) := fun _ _ => .ok none
  removesMarker : Rule Bool := fun _ _ => .ok false
  marker : Rule (Option (Proposal MarkerChange)) := fun _ _ => .ok none
  /-- The marker of a parameter gets another name and perhaps other arguments. -/
  parameterMarker : Rule (Option (Proposal (String × ArgumentEdit))) := fun _ _ => .ok none
  /-- The marker that a method needs and lacks. -/
  missingMarker : Rule (Option (Proposal MarkedMethod)) := fun _ _ => .ok none
  removesBaseType : Rule Bool := fun _ _ => .ok false
  /-- What is proposed for a type once its base types were looked at. -/
  classes : Rule (List ClassProposal) := fun _ _ => .ok []
  removesMember : Rule Bool := fun _ _ => .ok false
  removesConstructorParameter : Rule Bool := fun _ _ => .ok false
  call : Rule (Option CallProposal) := fun _ _ => .ok none
  container : Rule (Option ContainerProposal) := fun _ _ => .ok none
  /-- Whether the target framework needs a method to be public. -/
  makesPublic : Rule Bool := fun _ _ => .ok false
  /-- The imports that a plan needs and no longer needs. -/
  imports : Plan → Except Complaint ImportDelta := fun _ => .ok {}

end Recast
