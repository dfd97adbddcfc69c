-- SUMMARY: Edits that add a base type to a type declaration.
import Recast.Edit.Error
import Recast.Grammar.Fragment

/-! # Base types

A new base type goes to the end of the base list. A declaration without one gets a base list
after its name, type parameters and primary constructor. -/

namespace Recast.Edit

/-- A base list with one more base type. The trivia at its end stays at its end. -/
def extendBaseList (base list : Node) : Node :=
  let comma := Token.ofMark "," [Trivia.space]
  let closed := list.withTrailing []
  closed.withChildren (closed.children ++ [.token comma, .node (base.withTrailing list.trailing)])

/-- True for the parts that stand between the name of a type and its base list. -/
def isHeaderList (e : Element) : Bool :=
  e.isNode .typeParameterList || e.isNode .parameterList

/-- The index of the part after which a base list belongs: the name of the type, or the last of
    the lists that follow it. -/
def baseListAnchor? (declaration : Node) : Option Nat :=
  let isName : Element → Bool
    | .token t => t.kind == .identifier
    | .node _ => false
  (declaration.children.findIdx? isName).map fun index =>
    index + ((declaration.children.drop (index + 1)).takeWhile isHeaderList).length

/-- A type declaration with a base list of one base type. -/
def insertBaseList (base declaration : Node) : Except EditError Node := do
  let some index := baseListAnchor? declaration | throw .noTypeName
  let some anchor := declaration.children[index]? | throw .noTypeName
  if !anchor.hasTokens then throw .emptyPart
  let colon := Token.ofMark ":" [Trivia.space]
  let list := (Node.ofChildren .baseList [.token colon, .node base]).withTrailing anchor.trailing
  let closed := anchor.mapLast fun t => { t with trailing := [Trivia.space] }
  return declaration.withChildren <| declaration.children.take index
    ++ closed :: .node list :: declaration.children.drop (index + 1)

/-- A type gets a base type, unless its base list has one with that text. -/
def addBaseType (type : String) (s : Site) : Except EditError Tree := do
  requireKind s Kind.isTypeDeclaration "a type declaration"
  let read ← reading "parsing base type" type (Fragment.readType type)
  let base := Node.ofChildren .baseType [.node read]
  match s.child? .baseList with
  | some list =>
    if (list.node.childrenOf .baseType).any (·.text == type) then return s.tree
    else onTree (s.tree.update list.path (extendBaseList base))
  | none => s.tree.tryUpdate .tree s.path (insertBaseList base)

end Recast.Edit
