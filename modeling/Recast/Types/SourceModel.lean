-- SUMMARY: The semantic model of one file: names resolved against the types that the file declares and a catalog, variables typed from their declarations, and interfaces reached from base lists.
import Recast.Types.Scope

/-! # The model of a file

Names are resolved in the order of the language: an alias, the enclosing namespaces from the
inside out, then the imported namespaces; in each the file's own types come before those of the
catalog. A variable has the type that its declaration names; one declared with `var` has the type
of its initializer. -/

namespace Recast

/-- A type that the file declares. -/
structure DeclaredType where
  symbol : TypeSymbol
  path : Path
  deriving DecidableEq, Repr

/-- What a file declares and may refer to. -/
structure SourceModel where
  tree : Tree
  catalog : Catalog
  declared : List DeclaredType

/-- How a variable was declared. -/
inductive Binding where
  /-- With a type. -/
  | typed (type : Site)
  /-- With `var`, and so with the type of its initializer. -/
  | inferred (initializer : Site)
  /-- Without anything that tells its type. -/
  | untyped

/-- True when one path comes before another in document order; a node comes before its parts. -/
def Path.precedes : Path → Path → Bool
  | [], [] => false
  | [], _ :: _ => true
  | _ :: _, [] => false
  | i :: p, j :: q => if i = j then Path.precedes p q else decide (i < j)

namespace Binding

/-- The variable of a name in a declaration of variables. -/
def inDeclaration? (declaration : Site) (name : String) : Option Binding := do
  let declarator ← declaration.children.find? fun c =>
    c.kind == .variableDeclarator && c.identifier? == some name
  let type ← declaration.typeChild?
  if type.kind == .identifierName && type.identifier? == some "var" then
    match (declarator.child? .equalsValueClause).bind Site.firstChild? with
    | some initializer => return .inferred initializer
    | none => return .untyped
  else return .typed type

/-- The parameter of a name among the parts of a list. -/
def inParameters? (list : Site) (name : String) : Option Binding := do
  let parameter ← list.children.find? fun c => c.kind == .parameter && c.identifier? == some name
  match parameter.typeChild? with
  | some type => return .typed type
  | none => return .untyped

/-- The parameter of a name in the parameter list of a declaration. -/
def inParameterList? (owner : Site) (name : String) : Option Binding :=
  (owner.child? .parameterList).bind (inParameters? · name)

/-- The field or property of a name among the members of a type. -/
def amongMembers? (name : String) : List Site → Option Binding
  | [] => none
  | member :: members =>
    match member.kind with
    | .fieldDeclaration =>
      (member.child? .variableDeclaration).bind (inDeclaration? · name) <|> amongMembers? name members
    | .propertyDeclaration =>
      if member.identifier? == some name then member.typeChild?.map .typed
      else amongMembers? name members
    | _ => amongMembers? name members

/-- The field or property of a name in a type declaration. -/
def inType? (declaration : Site) (name : String) : Option Binding :=
  amongMembers? name declaration.children

/-- The variable of a name that a construct around `use` declares for it. In a block only the
    declarations before `use` count. -/
def inScope? (use : Site) (name : String) (scope : Site) : Option Binding :=
  match scope.kind with
  | .block | .switchSection =>
    (scope.children.filter fun c =>
      c.kind == .localDeclarationStatement && c.path.precedes use.path).findSome? fun statement =>
        (statement.child? .variableDeclaration).bind (inDeclaration? · name)
  | .methodDeclaration | .constructorDeclaration | .parenthesizedLambdaExpression
  | .anonymousMethodExpression => inParameterList? scope name
  | .simpleLambdaExpression => inParameters? scope name
  | .catchClause =>
    (scope.child? .catchDeclaration).bind fun declaration =>
      if declaration.identifier? == some name then declaration.typeChild?.map .typed else none
  | _ => none

/-- The variable of a name that the constructs around `use` declare, nearest first. The search
    ends at the type that `use` stands in. -/
def among? (use : Site) (name : String) : List Site → Option Binding
  | [] => none
  | scope :: scopes =>
    if scope.kind.isTypeDeclaration then inType? scope name <|> inParameterList? scope name
    else inScope? use name scope <|> among? use name scopes

/-- The variable of a name that is visible at a site. -/
def visible? (use : Site) (name : String) : Option Binding :=
  among? use name use.ancestors

end Binding

namespace SourceModel

/-! ## Declared types -/

/-- The kind of type that a declaration declares. -/
def declaredKind : Kind → TypeKind
  | .structDeclaration => .struct
  | .interfaceDeclaration => .interface
  | .recordDeclaration => .record
  | .enumDeclaration => .enum
  | _ => .classType

/-- The type that a site declares. -/
def declaredAt? (s : Site) : Option DeclaredType :=
  if s.kind.isTypeDeclaration || s.kind == .enumDeclaration then
    s.identifier?.map fun name =>
      let arity := ((s.node.child? .typeParameterList).map fun list =>
        (list.childrenOf .typeParameter).length).getD 0
      ⟨⟨s.enclosingNamespace, name, arity, declaredKind s.kind, .source⟩, s.path⟩
  else none

/-- The model of a tree with a catalog of other types. -/
def build (tree : Tree) (catalog : Catalog) : SourceModel :=
  ⟨tree, catalog, tree.sites.filterMap declaredAt?⟩

variable (m : SourceModel)

/-- The catalog entry behind a symbol. -/
def info? (symbol : TypeSymbol) : Option TypeInfo :=
  match symbol.origin with
  | .catalog => m.catalog.lookup? symbol.space symbol.name symbol.arity
  | _ => none

/-- The declaration in the file behind a symbol. -/
def declaration? (symbol : TypeSymbol) : Option Site :=
  if symbol.origin == .source then
    (m.declared.find? fun d => d.symbol == symbol).bind fun d => m.tree.get? d.path
  else none

/-- The declared type around a site, with its declaration. -/
def enclosingType? (s : Site) : Option (DeclaredType × Site) := do
  let declaration ← s.ancestorWhere? Kind.isTypeDeclaration
  let declared ← m.declared.find? fun d => d.path == declaration.path
  return (declared, declaration)

/-! ## Names -/

/-- The type with a namespace, name and arity; the file comes before the catalog. -/
def lookup? (space name : String) (arity : Nat) : Option TypeSymbol :=
  ((m.declared.find? fun d =>
      d.symbol.space == space && d.symbol.name == name && d.symbol.arity == arity).map
    DeclaredType.symbol)
    <|> (m.catalog.lookup? space name arity).map TypeSymbol.ofInfo

/-- The type with a full name. -/
def symbolOf? (fullName : String) : Option TypeSymbol :=
  let fullName := NameParts.stripGlobal fullName
  let (space, name) := Text.splitName fullName
  Builtin.ofKeyword? fullName <|> Builtin.ofFullName? fullName <|> m.lookup? space name 0
    <|> (m.catalog.lookupFullName? fullName).map TypeSymbol.ofInfo

/-- The type of a name with a given last part. -/
def resolveCandidate? (chain : List String) (scope : ImportScope) (parts : NameParts)
    (candidate : String) : Option TypeSymbol :=
  let inSpace (space : String) := m.lookup? space candidate parts.arity
  match parts.qualifier with
  | some qualifier =>
    if qualifier.isEmpty then inSpace ""
    else
      let qualifier := (scope.alias? qualifier).getD qualifier
      (qualifier :: (chain.filter fun space => !space.isEmpty).map (· ++ "." ++ qualifier)).findSome?
        inSpace
  | none =>
    let aliased := if parts.arity = 0 then (scope.alias? candidate).bind m.symbolOf? else none
    aliased <|> chain.findSome? inSpace <|> scope.namespaces.findSome? inSpace

/-- The type of a name at a site. The name of an attribute may leave out its ending. -/
def resolveParts? (context : Site) (parts : NameParts) (isAttribute : Bool) : Option TypeSymbol :=
  let candidates :=
    if isAttribute && !Text.endsWith parts.name "Attribute" then
      [parts.name, parts.name ++ "Attribute"]
    else [parts.name]
  candidates.findSome?
    (m.resolveCandidate? (namespaceChain context.enclosingNamespace) context.imports parts)

/-- The type that a name node stands for at a site, looked into at most `bound` deep. -/
def resolveNameWithin? : (bound : Nat) → (context : Site) → Node → Bool → Option TypeSymbol
  | 0, _, _, _ => none
  | bound + 1, context, name, isAttribute =>
    match name.kind with
    | .predefinedType => name.firstToken?.bind fun t => Builtin.ofKeyword? t.text
    | .nullableType =>
      name.childNodes.head?.bind fun inner => resolveNameWithin? bound context inner isAttribute
    | _ => (NameParts.of? name).bind fun parts => m.resolveParts? context parts isAttribute

/-- The type that the name at a site stands for. -/
def resolveName? (s : Site) (isAttribute : Bool := false) : Option TypeSymbol :=
  m.resolveNameWithin? s.node.size s s.node isAttribute

/-! ## Expressions -/

/-- The type that the left side of a member access names, unless a variable hides it. -/
def receiverType? (receiver : Site) : Option TypeSymbol :=
  if receiver.kind == .predefinedType then m.resolveName? receiver
  else if !NameParts.isDotted receiver.node && receiver.kind != .genericName then none
  else if receiver.kind == .identifierName then
    receiver.identifier?.bind fun name =>
      if (Binding.visible? receiver name).isSome then none else m.resolveName? receiver
  else m.resolveName? receiver

/-- The method that a call of a plain name binds to: one of the enclosing type, or one that a
    static import brings in. -/
def plainCall? (call : Site) (name : String) : Option MethodSymbol :=
  let own := (m.enclosingType? call).bind fun (declared, declaration) =>
    ((View.TypeDeclaration.of? declaration.node).bind fun d =>
      d.methods.find? fun method => method.name? == some name).map fun method =>
        (⟨declared.symbol, name, method.node.hasModifier "static"⟩ : MethodSymbol)
  let imported := call.imports.statics.findSome? fun target =>
    (m.symbolOf? target).bind fun owner =>
      ((m.info? owner).bind (·.member? name)).map fun _ => (⟨owner, name, true⟩ : MethodSymbol)
  own <|> imported

/-- The method that a call binds to, given the types of expressions. -/
def callWith? (typeOf : Site → Option TypeSymbol) (call : Site) : Option MethodSymbol :=
  call.firstChild?.bind fun callee =>
    match callee.kind with
    | .memberAccessExpression =>
      match callee.firstChild?, (View.MemberAccess.of? callee.node).bind View.MemberAccess.name? with
      | some receiver, some name =>
        match m.receiverType? receiver with
        | some owner =>
          if ((m.info? owner).map (·.accepts name)).getD true then some ⟨owner, name, true⟩ else none
        | none => (typeOf receiver).map fun owner => ⟨owner, name, false⟩
      | _, _ => none
    | .identifierName | .genericName => callee.identifier?.bind (m.plainCall? call)
    | _ => none

/-- The type of a variable, given the types of expressions. -/
def bindingType? (typeOf : Site → Option TypeSymbol) : Binding → Option TypeSymbol
  | .typed type => m.resolveName? type
  | .inferred initializer => typeOf initializer
  | .untyped => none

/-- The type of a catalog member. -/
def catalogMemberType? (owner : TypeSymbol) (member : String) : Option TypeSymbol :=
  (((m.info? owner).bind (·.member? member)).bind MemberInfo.typeName).bind m.symbolOf?

/-- The type of a member of a type, given the types of expressions. -/
def memberType? (typeOf : Site → Option TypeSymbol) (owner : TypeSymbol) (member : String) :
    Option TypeSymbol :=
  match m.declaration? owner with
  | some declaration => (Binding.inType? declaration member).bind (m.bindingType? typeOf)
  | none => m.catalogMemberType? owner member

/-- The type of an expression, given the types of those that it goes on to. -/
def typeWith? (typeOf : Site → Option TypeSymbol) (s : Site) : Option TypeSymbol :=
  match s.kind with
  | .literalExpression => Builtin.ofLiteral? s.node
  | .objectCreationExpression | .castExpression => s.typeChild?.bind (m.resolveName? ·)
  | .parenthesizedExpression => s.firstChild?.bind typeOf
  | .thisExpression => (m.enclosingType? s).map fun (declared, _) => declared.symbol
  | .identifierName =>
    s.identifier?.bind fun name => (Binding.visible? s name).bind (m.bindingType? typeOf)
  | .memberAccessExpression =>
    match s.firstChild?, (View.MemberAccess.of? s.node).bind View.MemberAccess.name? with
    | some receiver, some name =>
      (m.receiverType? receiver <|> typeOf receiver).bind fun owner =>
        m.memberType? typeOf owner name
    | _, _ => none
  | .invocationExpression =>
    (m.callWith? typeOf s).bind fun method => m.catalogMemberType? method.owner method.name
  | _ => none

/-- The type of an expression, found in at most `bound` steps from use to declaration. -/
def typeWithin? : (bound : Nat) → Site → Option TypeSymbol
  | 0, _ => none
  | bound + 1, s => m.typeWith? (typeWithin? bound) s

/-- The number of steps that typing an expression can take: no node is asked about twice. -/
def steps : Nat :=
  m.tree.root.size + 1

/-- The type of an expression. -/
def typeOf? (s : Site) : Option TypeSymbol :=
  m.typeWithin? m.steps s

/-- The method that a call binds to. -/
def call? (s : Site) : Option MethodSymbol :=
  m.callWith? (m.typeWithin? m.steps) s

/-! ## Interfaces -/

/-- The interfaces that the catalog entry of a type lists. -/
def listedInterfaces (symbol : TypeSymbol) : List TypeSymbol :=
  ((m.info? symbol).map fun info => info.interfaces.filterMap m.symbolOf?).getD []

/-- True when an interface has a member, in the file or in the catalog. -/
def declaresMember (symbol : TypeSymbol) (name : String) : Bool :=
  let inFile := ((m.declaration? symbol).bind fun d => View.TypeDeclaration.of? d.node).map fun d =>
    d.methods.any fun method => method.name? == some name
  let inCatalog := ((m.info? symbol).bind (·.member? name)).isSome
  symbol.kind == .interface && (inFile.getD false || inCatalog)

/-- True when an interface on the stack, or reached from there, has the member. A type is
    expanded once. -/
def interfaceWalk (name : String) : (bound : Nat) → (stack seen : List TypeSymbol) → Bool
  | 0, _, _ => false
  | _ + 1, [], _ => false
  | bound + 1, symbol :: stack, seen =>
    if seen.contains symbol then interfaceWalk name bound stack seen
    else if m.declaresMember symbol name then true
    else interfaceWalk name bound ((m.listedInterfaces symbol).reverse ++ stack) (symbol :: seen)

/-- How many types can come onto the stack: every entry of the catalog puts its interfaces there
    once. -/
def interfaceBound (start : List TypeSymbol) : Nat :=
  start.length + (m.catalog.types.flatMap fun t => t.interfaces).length + 1

/-- The type that a base type, creation, parameter, attribute or name stands for. -/
def resolve? (s : Site) : Except SemanticError (Option TypeSymbol) :=
  match s.kind with
  | .attribute => .ok (s.firstChild?.bind (m.resolveName? · true))
  | .baseType | .objectCreationExpression | .arrayCreationExpression | .parameter =>
    .ok (s.typeChild?.bind (m.resolveName? ·))
  | .memberAccessExpression => .ok (m.resolveName? s)
  | .arrayType | .tupleType => .ok none
  | kind =>
    if kind.isTypeName then .ok (m.resolveName? s) else .error (.unsupported kind "type")

/-- True when a method implements a member of an interface that its type reaches. -/
def implementsMember (s : Site) (method : View.Method) : Bool :=
  if method.isExplicit then true
  else
    let owner := s.parent?.filter fun p => p.kind.isTypeDeclaration
    match method.name?, owner.bind (·.child? .baseList) with
    | some name, some baseList =>
      let bases := baseList.children.filterMap fun base => ((m.resolve? base).toOption).join
      m.interfaceWalk name (m.interfaceBound bases) bases.reverse []
    | _, _ => false

/-! ## The model -/

/-- An answer about a site of the model's own tree. -/
def guarded {α : Type} (s : Site) (answer : Except SemanticError α) : Except SemanticError α :=
  if s.tree.revision == m.tree.revision then answer else .error .foreignTree

/-- The model as the answers it gives. -/
def toSemanticModel : SemanticModel where
  resolveType s := m.guarded s (m.resolve? s)
  resolveCall s := m.guarded s <|
    if s.kind == .invocationExpression then .ok (m.call? s)
    else .error (.unsupported s.kind "invocation")
  typeOf s := m.guarded s (.ok (m.typeOf? s))
  implementsInterface s := m.guarded s <|
    match View.Method.of? s.node with
    | some method => .ok (m.implementsMember s method)
    | none => .error (.unsupported s.kind "method declaration")
  isBoundTo tree := tree.revision == m.tree.revision

end SourceModel

end Recast
