-- SUMMARY: Where code can await: the function around a site, methods bound by an interface, and the return type that an asynchronous method needs.
import Recast.Plan.Failure
import Recast.Settings
import Recast.Types.Symbol
import Recast.View.Basic

/-! # Where code can await

An assertion that awaits has to stand in asynchronous code. A method of a type can be made
asynchronous, unless a parameter of it is passed by reference or an interface fixes its header.
Nothing else is changed for the sake of an assertion: in a lambda, a local function, a
constructor or a property that is not asynchronous, the assertion has to wait instead. -/

namespace Recast

namespace Site

/-- The function around a site: a method, lambda, constructor or accessor. -/
def function? (s : Site) : Option Site :=
  s.ancestorWhere? Kind.isFunctionLike

/-- True for a method that is declared in a body and not in a type. -/
def isLocalFunction (s : Site) : Bool :=
  (s.parent?.map fun owner => !owner.kind.isTypeDeclaration).getD false

/-- The text of a method before its body. -/
def header (method : Site) : String :=
  let isBodyStart (c : Char) : Bool := c == '\x7b' || c == '='
  Text.trimEnd (String.ofList (method.text.toList.takeWhile fun c => !isBodyStart c))

end Site

/-! ## Methods bound by an interface -/

/-- The methods of a file that implement members of interfaces. -/
structure InterfaceMethods where
  spans : List Span := []
  /-- The methods of which it could not be told. -/
  failures : List Failure := []

namespace InterfaceMethods

/-- True for a method that may implement a member of an interface: it names the interface, or its
    type lists base types. -/
def isCandidate (s : Site) : Bool :=
  let inDerivedType := (s.parent?.map fun owner =>
    owner.kind.isTypeDeclaration && owner.node.hasChild .baseList).getD false
  match View.Method.of? s.node with
  | some method => inDerivedType || method.isExplicit
  | none => false

/-- What the model says of one method. -/
def addMethod (model : SemanticModel) (found : InterfaceMethods) (s : Site) : InterfaceMethods :=
  match model.implementsInterface s with
  | .ok true => { found with spans := found.spans ++ s.span.toList }
  | .ok false => found
  | .error e =>
    { found with failures := found.failures ++ [⟨.analysis .signature, e.message, s.text⟩] }

/-- The methods of a tree that implement members of interfaces. -/
def ofTree (model : SemanticModel) (t : Tree) : InterfaceMethods :=
  (t.sites.filter isCandidate).foldl (addMethod model) {}

/-- True when the site is one of them. -/
def hasSite (found : InterfaceMethods) (s : Site) : Bool :=
  (s.span.map found.spans.contains).getD false

end InterfaceMethods

/-! ## Functions that can await -/

/-- True when a method can await: it is asynchronous, or it can be made so. -/
def canAwaitIn (settings : Settings) (fixed : InterfaceMethods) (s : Site) (method : View.Method) :
    Bool :=
  let isAsync := method.node.hasModifier settings.asyncKeyword
  if s.isLocalFunction then isAsync
  else !method.hasByReference && (isAsync || !fixed.hasSite s)

/-- True when the code at a site can await, perhaps after its method was made asynchronous. -/
def canAwait (settings : Settings) (fixed : InterfaceMethods) (s : Site) : Bool :=
  match s.function? with
  | none => false
  | some function =>
    match View.Method.of? function.node with
    | some method => canAwaitIn settings fixed function method
    | none => function.kind.isLambda && function.node.hasToken settings.asyncKeyword

/-! ## Return types -/

/-- Why a method cannot be made asynchronous. -/
inductive AsyncError where
  | noReturnType
  /-- The return type is a wrapper of several types. -/
  | severalArguments (type : String) (count : Nat)
  deriving DecidableEq, Repr

def AsyncError.message : AsyncError → String
  | .noReturnType => "method has no return type"
  | .severalArguments type count =>
    s!"return type {type} has {count} type arguments; review the async conversion manually"

/-- The generic name that a type is, perhaps after a qualification. -/
def genericName? (type : Node) : Option View.GenericName :=
  match type.kind with
  | .genericName => View.GenericName.of? type
  | .qualifiedName => type.childNodes.getLast?.bind View.GenericName.of?
  | _ => none

/-- True for a type that is a wrapper of several types. -/
def wrapsSeveral (settings : Settings) (name : View.GenericName) : Bool :=
  (name.name? == some settings.wrapper || name.name? == some settings.valueWrapper)
    && 1 < name.arity

/-- What becomes of the return type of a method that is made asynchronous. -/
def asyncReturn (settings : Settings) (method : View.Method) : Except AsyncError ReturnEdit :=
  match method.returnType? with
  | none => .error .noReturnType
  | some type =>
    let text := type.text
    let several := (genericName? type).filter (wrapsSeveral settings)
    match text == "void", several with
    | true, _ => .ok .voidToWrapper
    | false, some name => .error (.severalArguments text name.arity)
    | false, none => .ok (if settings.isWrapped text then .keep else .wrap text)

end Recast
