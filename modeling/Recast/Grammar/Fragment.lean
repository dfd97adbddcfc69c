-- SUMMARY: The grammar with its recursion tied, and the readers for whole files and for fragments of them.
import Recast.Grammar.Declaration
import Recast.Source.Lexer
import Recast.Tree.Site

/-! # Reading

`Grammar.nesting n` reads constructs nested up to `n` deep. A production enters another construct
only after it has taken a token, so a grammar one level deeper than there are tokens never comes
to its bound. -/

namespace Recast

namespace Grammar

open Recast.Parser

/-- The grammar that reads nothing. -/
def nothing : Grammar where
  type := fail "less nesting"
  expression := fail "less nesting"
  operand := fail "less nesting"
  binary _ := fail "less nesting"
  initializer := fail "less nesting"
  statement := fail "less nesting"
  member := fail "less nesting"
  scopeMember := fail "less nesting"

/-- The grammar whose constructs contain those of another. -/
def deepen (g : Grammar) : Grammar where
  type := typeOf g
  expression := expressionOf g
  operand := unary g
  binary := binaryOf g
  initializer := initializerOf g
  statement := statementOf g
  member := memberOf g
  scopeMember := scopeMemberOf g

/-- The grammar of constructs nested up to `n` deep. -/
def nesting : Nat → Grammar
  | 0 => nothing
  | n + 1 => deepen (nesting n)

/-- What a parser reads at the start of a text, and the cursor after it. -/
def readWith {α : Type} (p : Grammar → Parser α) (source : String) :
    Except ParseError (α × Cursor) := do
  let ts ← Token.scan source
  p (nesting (ts.length + 1)) (.ofTokens ts)

/-- What a parser reads from a text, which it has to read to the end. -/
def readAll {α : Type} (p : Grammar → Parser α) (source : String) : Except ParseError α := do
  let (result, c) ← readWith p source
  if c.atEnd then return result
  else throw (.trailingInput c.current.offset c.current.text)

end Grammar

/-! ## Readers -/

open Grammar

/-- A whole file. -/
def Node.parse (source : String) : Except ParseError Node := do
  return (← readWith compilationUnit source).1

/-- A whole file as a tree. Trees of different readings differ, whatever the text. -/
def Tree.parse (source : String) (reading : Nat := 0) : Except ParseError Tree := do
  return { root := ← Node.parse source, revision := { reading } }

/-- The parts of a file that can be read on their own. -/
inductive Fragment where
  | expression
  | statements
  | type
  | name
  /-- An attribute without its brackets. -/
  | attribute
  /-- Attributes in brackets. -/
  | attributeList
  /-- The arguments of an attribute with their parentheses. -/
  | attributeArgumentList
  | member
  deriving DecidableEq, Repr

namespace Fragment

def readExpression (source : String) : Except ParseError Node :=
  readAll Grammar.expression source

/-- Any number of statements. -/
def readStatements (source : String) : Except ParseError (List Node) := do
  let parts ← readAll (fun g => Parser.repeatWhile (fun c => !c.atEnd) (Parser.one g.statement)) source
  return parts.filterMap Element.node?

def readType (source : String) : Except ParseError Node :=
  readAll Grammar.type source

def readName (source : String) : Except ParseError Node :=
  readAll typeName source

def readAttribute (source : String) : Except ParseError Node :=
  readAll Grammar.attributeOf source

def readAttributeList (source : String) : Except ParseError Node :=
  readAll Grammar.attributeList source

def readAttributeArguments (source : String) : Except ParseError Node :=
  readAll Grammar.attributeArguments source

def readMember (source : String) : Except ParseError Node :=
  readAll Grammar.member source

/-- The nodes of a fragment: any number of statements, and one of anything else. -/
def read : Fragment → String → Except ParseError (List Node)
  | .expression, source => return [← readExpression source]
  | .statements, source => readStatements source
  | .type, source => return [← readType source]
  | .name, source => return [← readName source]
  | .attribute, source => return [← readAttribute source]
  | .attributeList, source => return [← readAttributeList source]
  | .attributeArgumentList, source => return [← readAttributeArguments source]
  | .member, source => return [← readMember source]

end Fragment

end Recast
