-- SUMMARY: Type and method symbols, and the questions that a semantic model answers about a tree.
import Recast.Tree.Site
import Recast.Types.Catalog

/-! # Symbols

A semantic model knows what the names in one tree stand for. It answers for that revision of the
tree only; about a site of any other tree it refuses. -/

namespace Recast

/-- Where a type was declared. -/
inductive SymbolOrigin where
  /-- In the file itself. -/
  | source
  /-- In a catalog. -/
  | catalog
  /-- By a keyword of the language. -/
  | builtin
  deriving DecidableEq, Repr

/-- A type that a name stands for. -/
structure TypeSymbol where
  /-- The namespace of the type, empty for none. -/
  space : String
  name : String
  arity : Nat
  kind : TypeKind
  origin : SymbolOrigin
  deriving DecidableEq, Repr

namespace TypeSymbol

/-- The name with its namespace and without arity. -/
def fullName (s : TypeSymbol) : String :=
  Text.qualify s.space s.name

/-- True for the type with this full name. -/
def is (s : TypeSymbol) (fullName : String) : Bool :=
  s.fullName == fullName

/-- True when the type lies in the namespace or below it. -/
def isIn (s : TypeSymbol) (root : String) : Bool :=
  Text.isUnder root s.space

/-- The full name, with the arity of a generic type after a backtick. -/
def render (s : TypeSymbol) : String :=
  if s.arity = 0 then s.fullName else s!"{s.fullName}`{s.arity}"

/-- The symbol of a catalog entry. -/
def ofInfo (info : TypeInfo) : TypeSymbol :=
  ⟨info.space, info.name, info.arity, info.kind, .catalog⟩

end TypeSymbol

/-- A method that a call binds to. -/
structure MethodSymbol where
  owner : TypeSymbol
  name : String
  isStatic : Bool
  deriving DecidableEq, Repr

namespace MethodSymbol

/-- True for the method of this name in the type with this full name. -/
def is (m : MethodSymbol) (owner name : String) : Bool :=
  m.name == name && m.owner.is owner

end MethodSymbol

/-- Why a model gives no answer. -/
inductive SemanticError where
  /-- The site belongs to another tree. -/
  | foreignTree
  /-- The model cannot say. -/
  | unavailable (reason : String)
  /-- The question makes no sense for this kind of node. -/
  | unsupported (kind : Kind) (wanted : String)
  deriving DecidableEq, Repr

/-- The wording of a refused question. -/
def SemanticError.message : SemanticError → String
  | .foreignTree => "node does not belong to the tree this model was built for"
  | .unavailable reason => s!"semantic information unavailable: {reason}"
  | .unsupported kind wanted => s!"{kind.name} node cannot be resolved as {wanted}"

/-- The answers about one tree. -/
structure SemanticModel where
  /-- The type that a type name, attribute, base type or creation names. -/
  resolveType : Site → Except SemanticError (Option TypeSymbol)
  /-- The method that a call binds to. -/
  resolveCall : Site → Except SemanticError (Option MethodSymbol)
  /-- The type of an expression. -/
  typeOf : Site → Except SemanticError (Option TypeSymbol)
  /-- Whether a method implements a member of an interface. -/
  implementsInterface : Site → Except SemanticError Bool
  /-- Whether the model answers about a tree. -/
  isBoundTo : Tree → Bool

end Recast
