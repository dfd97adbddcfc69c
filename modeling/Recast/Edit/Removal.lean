-- SUMMARY: Edits that remove markers, base types, members and constructor parameters.
import Recast.Edit.Error

/-! # Removals

An item of a list goes with its comma. When it is the only one, the whole list goes, and the
trivia around the list is handed to its neighbours where the layout needs it. -/

namespace Recast.Edit

/-- A marker goes, with its list when it is the only one there. A list that shares its line with
    the declaration leaves its indentation behind. -/
def removeMarker (s : Site) : Except EditError Tree := do
  requireKind s (· == .attribute) "a marker"
  let list ← parentOf s .attributeList
  if 1 < (list.node.childrenOf .attribute).length then onTree (s.tree.removeItem s.path)
  else
    let option := if Trivia.hasLineEnd list.node.trailing then RemoveOption.dropTrivia else .keepLeading
    onTree (s.tree.remove list.path option)

/-- A base type goes, with the base list when it is the only one there. What stood after the list
    then stands after the token before it. -/
def removeBaseType (s : Site) : Except EditError Tree := do
  requireKind s (· == .baseType) "a base type"
  let list ← parentOf s .baseList
  if 1 < (list.node.childrenOf .baseType).length then onTree (s.tree.removeItem s.path)
  else
    let trailing := list.node.trailing
    let tree ← onTree (s.tree.updateTokenBefore list.path fun t => { t with trailing })
    onTree (tree.remove list.path .dropTrivia)

/-- A member goes. -/
def removeMember (s : Site) : Except EditError Tree := do
  requireKind s Kind.isMember "a member"
  onTree (s.tree.remove s.path .keepTrailing)

/-- A parameter goes from its list. -/
def removeParameter (s : Site) : Except EditError Tree := do
  requireKind s (· == .parameter) "a parameter"
  let _ ← parentOf s .parameterList
  onTree (s.tree.removeItem s.path)

end Recast.Edit
