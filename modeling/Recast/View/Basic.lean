-- SUMMARY: Typed views of nodes: types, methods, parameters, attributes, calls and names, with their parts by role.
import Recast.Tree.Node

/-! # Views

A view is a node that is known to have a certain kind, and gives its parts by their role instead
of by their index. `of?` makes a view of a node of the right kind. -/

namespace Recast

namespace Node

/-- True when the node's modifier list holds a modifier. -/
def hasModifier (n : Node) (modifier : String) : Bool :=
  ((n.child? .modifiers).map (·.hasToken modifier)).getD false

/-- The attributes in the attribute lists of a declaration. -/
def attributes (n : Node) : List Node :=
  (n.childrenOf .attributeList).flatMap (·.childrenOf .attribute)

/-- The name in the first place of a part such as `name: value`. -/
def label? (n : Node) : Option String :=
  match n.children.head? with
  | some (.token t) => if t.kind == .identifier then some t.text else none
  | _ => none

/-- The rightmost identifier of a name, looked for at most `bound` names down. -/
def rightmostWithin : (bound : Nat) → Node → Option String
  | 0, _ => none
  | bound + 1, n =>
    match n.kind with
    | .qualifiedName | .aliasQualifiedName => n.childNodes.getLast?.bind (rightmostWithin bound)
    | .nullableType => n.childNodes.head?.bind (rightmostWithin bound)
    | .predefinedType => n.firstToken?.map Token.text
    | _ => n.identifier?

/-- The rightmost identifier of a name, without qualification and type arguments. -/
def rightmost? (n : Node) : Option String :=
  rightmostWithin n.size n

end Node

namespace View

/-! ## Parameters and methods -/

/-- A parameter of a method, constructor or lambda. -/
structure Parameter where
  node : Node

namespace Parameter

def of? (n : Node) : Option Parameter :=
  if n.kind == .parameter then some ⟨n⟩ else none

def name? (p : Parameter) : Option String :=
  p.node.identifier?

def type? (p : Parameter) : Option Node :=
  p.node.typeChild?

end Parameter

/-- The parameters in the parameter list of a node. -/
def parametersOf (n : Node) : List Parameter :=
  ((n.child? .parameterList).map fun list => list.childNodes.filterMap Parameter.of?).getD []

/-- A method, a local function included. -/
structure Method where
  node : Node

namespace Method

def of? (n : Node) : Option Method :=
  if n.kind == .methodDeclaration then some ⟨n⟩ else none

def name? (m : Method) : Option String :=
  m.node.identifier?

def returnType? (m : Method) : Option Node :=
  m.node.typeChild?

def parameters (m : Method) : List Parameter :=
  parametersOf m.node

/-- True when a parameter is passed by reference and can be written to. -/
def hasByReference (m : Method) : Bool :=
  m.parameters.any fun p => p.node.hasModifier "ref" || p.node.hasModifier "out"

/-- True when the method names the interface that it implements. -/
def isExplicit (m : Method) : Bool :=
  m.node.hasChild .explicitInterfaceSpecifier

end Method

/-- A constructor or finalizer. -/
structure Constructor where
  node : Node

namespace Constructor

def of? (n : Node) : Option Constructor :=
  if n.kind == .constructorDeclaration then some ⟨n⟩ else none

def parameters (k : Constructor) : List Parameter :=
  parametersOf k.node

end Constructor

/-! ## Types -/

/-- A class, struct, record or interface. -/
structure TypeDeclaration where
  node : Node

namespace TypeDeclaration

def of? (n : Node) : Option TypeDeclaration :=
  if n.kind.isTypeDeclaration then some ⟨n⟩ else none

def name? (d : TypeDeclaration) : Option String :=
  d.node.identifier?

def keyword? (d : TypeDeclaration) : Option Token :=
  d.node.childTokens.find? fun t => t.is "class" || t.is "struct" || t.is "interface" || t.is "record"

def baseList? (d : TypeDeclaration) : Option Node :=
  d.node.child? .baseList

def baseTypes (d : TypeDeclaration) : List Node :=
  (d.baseList?.map (·.childrenOf .baseType)).getD []

def members (d : TypeDeclaration) : List Node :=
  d.node.childNodes.filter fun n => n.kind.isMember

def methods (d : TypeDeclaration) : List Method :=
  d.node.childNodes.filterMap Method.of?

end TypeDeclaration

/-- A field or property: a member that holds a value. -/
structure DataMember where
  node : Node

namespace DataMember

def of? (n : Node) : Option DataMember :=
  match n.kind with
  | .fieldDeclaration | .propertyDeclaration => some ⟨n⟩
  | _ => none

def type? (m : DataMember) : Option Node :=
  match m.node.kind with
  | .fieldDeclaration => (m.node.child? .variableDeclaration).bind Node.typeChild?
  | _ => m.node.typeChild?

def names (m : DataMember) : List String :=
  match m.node.kind with
  | .fieldDeclaration =>
    ((m.node.child? .variableDeclaration).map fun d =>
      (d.childrenOf .variableDeclarator).filterMap Node.identifier?).getD []
  | _ => m.node.identifier?.toList

end DataMember

/-- A type that a type derives from. -/
structure BaseType where
  node : Node

namespace BaseType

def of? (n : Node) : Option BaseType :=
  if n.kind == .baseType then some ⟨n⟩ else none

def type? (b : BaseType) : Option Node :=
  b.node.typeChild?

def shortName? (b : BaseType) : Option String :=
  b.type?.bind Node.rightmost?

end BaseType

/-- A name with type arguments. -/
structure GenericName where
  node : Node

namespace GenericName

def of? (n : Node) : Option GenericName :=
  if n.kind == .genericName then some ⟨n⟩ else none

def name? (n : GenericName) : Option String :=
  n.node.identifier?

def argumentList? (n : GenericName) : Option Node :=
  n.node.child? .typeArgumentList

/-- The type arguments that are written. -/
def arguments (n : GenericName) : List Node :=
  (n.argumentList?.map Node.childNodes).getD []

/-- The number of type arguments, those left out as in `<,>` included. -/
def arity (n : GenericName) : Nat :=
  (n.argumentList?.map fun list =>
    (list.childTokens.filter fun t => t.is ",").length + 1).getD 0

end GenericName

/-! ## Attributes -/

/-- An argument of an attribute. -/
structure AttributeArgument where
  node : Node

namespace AttributeArgument

def of? (n : Node) : Option AttributeArgument :=
  if n.kind == .attributeArgument then some ⟨n⟩ else none

/-- The name of `Name = value` or `name: value`. -/
def name? (a : AttributeArgument) : Option String :=
  a.node.label?

def expression? (a : AttributeArgument) : Option Node :=
  a.node.childNodes.head?

def valueText (a : AttributeArgument) : String :=
  (a.expression?.map Node.text).getD ""

end AttributeArgument

/-- An attribute. -/
structure Attribute where
  node : Node

namespace Attribute

def of? (n : Node) : Option Attribute :=
  if n.kind == .attribute then some ⟨n⟩ else none

def nameNode? (a : Attribute) : Option Node :=
  a.node.childNodes.head?

/-- The name as written. -/
def name (a : Attribute) : String :=
  (a.nameNode?.map Node.text).getD ""

/-- A class name without the ending that attribute classes have. -/
def shorten (name : String) : String :=
  match Text.before? "Attribute" name with
  | some short => if short.isEmpty then name else short
  | none => name

/-- The rightmost identifier of the name, shortened. -/
def shortName? (a : Attribute) : Option String :=
  (a.nameNode?.bind Node.rightmost?).map shorten

def argumentList? (a : Attribute) : Option Node :=
  a.node.child? .attributeArgumentList

def arguments (a : Attribute) : List AttributeArgument :=
  (a.argumentList?.map fun list => list.childNodes.filterMap AttributeArgument.of?).getD []

/-- The arguments without a name. -/
def positional (a : Attribute) : List AttributeArgument :=
  a.arguments.filter fun x => x.name?.isNone

/-- The first argument with a name. -/
def named? (a : Attribute) (name : String) : Option AttributeArgument :=
  a.arguments.find? fun x => x.name? == some name

end Attribute

/-! ## Calls -/

/-- An argument of a call. -/
structure Argument where
  node : Node

namespace Argument

def of? (n : Node) : Option Argument :=
  if n.kind == .argument then some ⟨n⟩ else none

/-- The name of `name: value`. -/
def name? (a : Argument) : Option String :=
  a.node.label?

/-- How the argument is passed, when not by value. -/
def mode? (a : Argument) : Option String :=
  (a.node.childTokens.find? fun t => t.is "ref" || t.is "out" || t.is "in").map Token.text

def expression? (a : Argument) : Option Node :=
  a.node.childNodes.head?

def valueText (a : Argument) : String :=
  (a.expression?.map Node.text).getD ""

end Argument

/-- A member of an expression. -/
structure MemberAccess where
  node : Node

namespace MemberAccess

def of? (n : Node) : Option MemberAccess :=
  if n.kind == .memberAccessExpression then some ⟨n⟩ else none

def expression? (m : MemberAccess) : Option Node :=
  m.node.childNodes.head?

def nameNode? (m : MemberAccess) : Option Node :=
  m.node.childNodes[1]?

def name? (m : MemberAccess) : Option String :=
  m.nameNode?.bind Node.identifier?

/-- True for the form that stops at a missing value. -/
def isConditional (m : MemberAccess) : Bool :=
  m.node.hasToken "?."

end MemberAccess

/-- A call. -/
structure Invocation where
  node : Node

namespace Invocation

def of? (n : Node) : Option Invocation :=
  if n.kind == .invocationExpression then some ⟨n⟩ else none

def callee? (i : Invocation) : Option Node :=
  i.node.childNodes.head?

def argumentList? (i : Invocation) : Option Node :=
  i.node.child? .argumentList

def arguments (i : Invocation) : List Argument :=
  (i.argumentList?.map fun list => list.childNodes.filterMap Argument.of?).getD []

def argumentTexts (i : Invocation) : List String :=
  i.arguments.map Argument.valueText

/-- The node of the called name, without the receiver. -/
def nameNode? (i : Invocation) : Option Node :=
  i.callee?.bind fun callee =>
    match MemberAccess.of? callee with
    | some access => access.nameNode?
    | none => some callee

/-- The simple name of the called method. -/
def methodName? (i : Invocation) : Option String :=
  i.callee?.bind fun callee =>
    match callee.kind with
    | .memberAccessExpression => (MemberAccess.of? callee).bind MemberAccess.name?
    | .identifierName | .genericName => callee.identifier?
    | _ => none

/-- The type arguments written on the called name, as texts. -/
def typeArguments (i : Invocation) : List String :=
  ((i.nameNode?.bind GenericName.of?).map fun n => n.arguments.map Node.text).getD []

/-- What the method is called on. -/
def receiver? (i : Invocation) : Option Node :=
  (i.callee?.bind MemberAccess.of?).bind MemberAccess.expression?

end Invocation

end View

end Recast
