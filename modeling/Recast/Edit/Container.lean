-- SUMMARY: Edits of containers of rows: the declared type becomes a sequence type, and the creation an array of tuples.
import Recast.Edit.Error
import Recast.Grammar.Fragment
import Recast.Plan.Record
import Recast.Settings

/-! # Containers

A container of rows is declared with a type and often created with the rows in braces. The type
becomes a sequence of the row type; the creation becomes an array, in which rows that were
written in braces are tuples. -/

namespace Recast.Edit

/-- The indentation of the line of the member, statement or type that a site stands in. -/
def lineIndentation (settings : Settings) (s : Site) : List Trivia :=
  let owner := s.ancestorWhere? fun k => k.isMember || k.isStatement || k.isTypeDeclaration
  let indent := (owner.map fun o => Trivia.indentation o.node.leading).getD []
  if indent.isEmpty then [.whitespace settings.indent] else indent

/-- A row in braces as a tuple; anything else as it is. -/
def tupleRow : Element → Except EditError Element
  | .node row =>
    if row.kind == .initializerExpression then do
      let items := Text.joinWith ", " (row.childNodes.map Node.text)
      let tuple ← reading "converting row" row.text (Fragment.readExpression s!"({items})")
      return .node (tuple.withTriviaOf row)
    else return .node row
  | .token t => return .token t

/-- The rows of a creation as tuples. -/
def tupleRows (rows : Node) : Except EditError Node := do
  return rows.withChildren (← rows.children.mapM tupleRow)

/-- The array that takes the place of a creation. Its rows start on a line of their own. -/
def arrayOf (settings : Settings) (element : String) (creation : Site) : Except EditError Node := do
  let some initializer := creation.node.child? .initializerExpression | throw .noInitializer
  let rows ← tupleRows initializer
  let array ← reading "building an array of" element
    (Fragment.readExpression s!"new {element}[] \x7b \x7d")
  let some index := array.indexOf? .initializerExpression | throw .noArrayInitializer
  let onOwnLine := Trivia.hasLineEnd rows.leading
  let rows :=
    if onOwnLine then rows
    else rows.withLeading (Trivia.newline :: lineIndentation settings creation)
  let before := array.children.take index
  let before :=
    if onOwnLine then before
    else before.modify (index - 1) (·.mapLast fun t => { t with trailing := [] })
  return (array.withChildren (before ++ .node rows :: array.children.drop (index + 1))).withTriviaOf
    creation.node

/-- The node with a tag, when the tag is there, replaced by what a reader makes of its site. -/
def replaceTagged (tag : Option Tag) (make : Site → Except EditError Node) (t : Tree) :
    Except EditError Tree :=
  match tag.bind t.findTagged? with
  | none => .ok t
  | some s => do onTree (t.replace s.path (← make s))

/-- A container becomes a sequence, its creation first and then its declared type. -/
def reshapeContainer (settings : Settings) (change : ContainerChange) (s : Site) :
    Except EditError Tree := do
  let tree ← replaceTagged change.creationTag (arrayOf settings change.element) s.tree
  let type := s!"{change.container}<{change.element}>"
  replaceTagged change.typeTag (fun declared => do
    let read ← reading "parsing container type" type (Fragment.readType type)
    return read.withTriviaOf declared.node) tree

end Recast.Edit
