-- SUMMARY: What a name means at a place: names in parts, enclosing namespaces, imports in scope, built-in types and the types of literals.
import Recast.Types.Symbol
import Recast.View.Basic

/-! # Scope

A name is looked up in the namespaces around it, innermost first, and then in the namespaces that
the file imports there. This module says what those are at a site; the look-up itself is in
`Recast.Types.SourceModel`. -/

namespace Recast

/-! ## Built-in types -/

namespace Builtin

/-- The keywords that name a type, with the name and kind of the type. -/
def types : List (String × String × TypeKind) :=
  [("bool", "Boolean", .struct), ("byte", "Byte", .struct), ("sbyte", "SByte", .struct),
    ("char", "Char", .struct), ("decimal", "Decimal", .struct), ("double", "Double", .struct),
    ("float", "Single", .struct), ("int", "Int32", .struct), ("uint", "UInt32", .struct),
    ("long", "Int64", .struct), ("ulong", "UInt64", .struct), ("short", "Int16", .struct),
    ("ushort", "UInt16", .struct), ("nint", "IntPtr", .struct), ("nuint", "UIntPtr", .struct),
    ("object", "Object", .classType), ("string", "String", .classType), ("void", "Void", .struct)]

def symbol (name : String) (kind : TypeKind) : TypeSymbol :=
  ⟨"System", name, 0, kind, .builtin⟩

/-- The type of a keyword. -/
def ofKeyword? (keyword : String) : Option TypeSymbol :=
  (types.find? fun (k, _, _) => k == keyword).map fun (_, name, kind) => symbol name kind

/-- The built-in type with a name in `System`. -/
def ofName? (name : String) : Option TypeSymbol :=
  (types.find? fun (_, n, _) => n == name).map fun (_, name, kind) => symbol name kind

/-- The built-in type with a full name. -/
def ofFullName? (fullName : String) : Option TypeSymbol :=
  (Text.after? "System." fullName).bind ofName?

/-- The name of the type of a numeric literal, by its suffix or else by its form. Letters of a
    hexadecimal number are digits, except for a final `l`. -/
def ofNumber (text : String) : String :=
  let lower := Text.lower text
  if Text.startsWith lower "0x" || Text.startsWith lower "0b" then
    if Text.endsWith lower "l" then "Int64" else "Int32"
  else if Text.endsWith lower "ul" || Text.endsWith lower "lu" then "UInt64"
  else if Text.endsWith lower "l" then "Int64"
  else if Text.endsWith lower "u" then "UInt32"
  else if Text.endsWith lower "f" then "Single"
  else if Text.endsWith lower "m" then "Decimal"
  else if Text.endsWith lower "d" || Text.contains lower "." || Text.contains lower "e" then "Double"
  else "Int32"

/-- The type of a literal. -/
def ofLiteral? (n : Node) : Option TypeSymbol :=
  n.firstToken?.bind fun t =>
    match t.kind with
    | .string | .interpolated => ofName? "String"
    | .character => ofName? "Char"
    | .number => ofName? (ofNumber t.text)
    | _ => if t.is "true" || t.is "false" then ofName? "Boolean" else none

end Builtin

/-! ## Names -/

/-- A name in parts. -/
structure NameParts where
  /-- What stands before the last dot. The empty qualifier is the global namespace. -/
  qualifier : Option String
  name : String
  arity : Nat
  deriving DecidableEq, Repr

namespace NameParts

/-- A name without the marker of the global namespace. -/
def stripGlobal (name : String) : String :=
  (Text.after? "global::" name).getD name

/-- True for names joined by dots, looked into at most `bound` deep. -/
def isDottedWithin : (bound : Nat) → Node → Bool
  | 0, _ => false
  | bound + 1, n =>
    match n.kind with
    | .identifierName | .qualifiedName | .aliasQualifiedName => true
    | .memberAccessExpression =>
      ((View.MemberAccess.of? n).map fun access =>
        !access.isConditional && (access.expression?.map (isDottedWithin bound)).getD false).getD false
    | _ => false

/-- True for names joined by dots. -/
def isDotted (n : Node) : Bool :=
  isDottedWithin n.size n

/-- The parts of a name, looked into at most `bound` deep. -/
def within? : (bound : Nat) → Node → Option NameParts
  | 0, _ => none
  | bound + 1, n =>
    let qualified (left : Node) (right : Option Node) : Option NameParts :=
      (right.bind (within? bound)).map fun parts =>
        { parts with qualifier := some (stripGlobal left.bareText) }
    match n.kind with
    | .identifierName => n.identifier?.map fun name => ⟨none, name, 0⟩
    | .genericName =>
      (View.GenericName.of? n).bind fun generic =>
        generic.name?.map fun name => ⟨none, name, generic.arity⟩
    | .qualifiedName => n.childNodes.head?.bind fun left => qualified left n.childNodes[1]?
    | .aliasQualifiedName =>
      (n.childNodes.head?.bind (within? bound)).map fun parts => { parts with qualifier := some "" }
    | .memberAccessExpression =>
      (View.MemberAccess.of? n).bind fun access =>
        access.expression?.bind fun left =>
          if isDotted left then qualified left access.nameNode? else none
    | _ => none

/-- The parts of a name, when the node is one. -/
def of? (n : Node) : Option NameParts :=
  within? n.size n

end NameParts

/-! ## Namespaces and imports around a site -/

/-- A namespace and those around it, at most `bound`. -/
def namespacesWithin : (bound : Nat) → String → List String
  | 0, _ => [""]
  | bound + 1, space =>
    if space.isEmpty then [""] else space :: namespacesWithin bound (Text.splitName space).1

/-- A namespace and those around it, innermost first, the global one last. -/
def namespaceChain (space : String) : List String :=
  namespacesWithin space.length space

/-- What the using directives in scope import. -/
structure ImportScope where
  namespaces : List String := []
  /-- Names with what they stand for. -/
  aliases : List (String × String) := []
  /-- Types whose static members are in scope. -/
  statics : List String := []
  deriving DecidableEq, Repr

namespace ImportScope

/-- What a name is an alias for. -/
def alias? (scope : ImportScope) (name : String) : Option String :=
  scope.aliases.lookup name

/-- The scope with one more directive. -/
def addDirective (scope : ImportScope) (directive : Node) : ImportScope :=
  match directive.childNodes.head? with
  | none => scope
  | some target =>
    let target := NameParts.stripGlobal target.bareText
    if directive.hasToken "static" then { scope with statics := scope.statics ++ [target] }
    else if directive.hasToken "=" then
      match directive.identifier? with
      | some name => { scope with aliases := scope.aliases ++ [(name, target)] }
      | none => scope
    else { scope with namespaces := scope.namespaces ++ [target] }

end ImportScope

namespace Site

/-- The namespace that a site lies in. -/
def enclosingNamespace (s : Site) : String :=
  let isNamespace (k : Kind) := k == .namespaceDeclaration || k == .fileScopedNamespaceDeclaration
  let names := (s.ancestors.filter fun a => isNamespace a.kind).filterMap fun a =>
    a.node.childNodes.head?.map Node.bareText
  Text.joinWith "." names.reverse

/-- The imports that are in scope at a site, nearest first. -/
def imports (s : Site) : ImportScope :=
  ((s :: s.ancestors).flatMap fun a => a.node.childrenOf .usingDirective).foldl
    ImportScope.addDirective {}

end Site

end Recast
