-- SUMMARY: Edits of calls: an assertion or another call becomes a new expression, and a captured exception becomes a variable and a `try` statement.
import Recast.Edit.Error
import Recast.Grammar.Fragment
import Recast.Plan.Record
import Recast.Settings

/-! # Calls

The new expression is read from text and takes over the trivia around the old one. An assertion
may leave a remark on a line of its own above the statement that it stands in. -/

namespace Recast.Edit

/-- The expression that a text stands for. -/
def replacementOf (text : String) : Except EditError Node :=
  reading "parsing replacement" text (Fragment.readExpression (Text.trim text))

/-- A call becomes another expression. -/
def replaceCall (text : String) (s : Site) : Except EditError Tree := do
  replaceAt s (← replacementOf text)

/-! ## Assertions -/

/-- A remark as a line comment. -/
def lineComment (remark : String) : String :=
  if Text.startsWith remark "//" then remark else "// " ++ remark

/-- The node with a remark on a line of its own above it, indented as the node is. -/
def withRemark (remark : String) (n : Node) : Node :=
  n.withLeading <|
    Trivia.indentation n.leading ++ [.comment (lineComment remark), Trivia.newline] ++ n.leading

/-- The statement or member that a site stands in. -/
def statementOf? (s : Site) : Option Site :=
  s.ancestorWhere? fun k => k.isStatement || k.isMember

/-- An assertion becomes another expression. -/
def replaceAssertion (change : AssertionChange) (s : Site) : Except EditError Tree := do
  let tree ← replaceCall change.replacement s
  match change.remark, statementOf? s with
  | some remark, some statement => onTree (tree.update statement.path (withRemark remark))
  | _, _ => return tree

/-! ## Captured exceptions -/

/-- The block that runs the body of a capture. A body in braces is a block already; any other one
    stands on a line of its own and ends as a statement does. -/
def tryBlock (indent inner body : String) : String :=
  if Text.startsWith body Token.openBrace then body
  else
    let stop := if Text.endsWith body ";" || Text.endsWith body Token.closeBrace then "" else ";"
    Text.joinWith "\n" [Token.openBrace, inner ++ body ++ stop, indent ++ Token.closeBrace]

/-- The statements that capture an exception: a variable without a value, and a `try` statement
    that assigns what it catches. -/
def captureSource (settings : Settings) (indent captured body : String) : String :=
  let inner := indent ++ settings.indent
  let type := settings.exceptionType
  let caught := settings.catchVariable
  Text.joinWith "\n" [
    s!"{type}? {captured} = null;",
    s!"{indent}try",
    indent ++ tryBlock indent inner (Text.trim body),
    s!"{indent}catch ({type} {caught})",
    indent ++ Token.openBrace,
    s!"{inner}{captured} = {caught};",
    indent ++ Token.closeBrace]

/-- A run of nodes with the trivia that stands around a node. -/
def runWithTriviaOf (n : Node) : List Node → List Node
  | [] => []
  | first :: rest =>
    match (first :: rest).modify rest.length (·.withTrailing n.trailing) with
    | [] => []
    | first :: rest => first.withLeading n.leading :: rest

/-- A local declaration becomes the capture of an exception. -/
def captureException (settings : Settings) (captured body : String) (s : Site) :
    Except EditError Tree := do
  requireKind s (· == .localDeclarationStatement) "a local declaration"
  let indent := Trivia.indentationText s.node.leading
  let statements ← reading "building the capture of" captured
    (Fragment.readStatements (captureSource settings indent captured body))
  if statements.isEmpty then throw .noStatements
  onTree (s.tree.replaceMany s.path (runWithTriviaOf s.node statements))

end Recast.Edit
