-- SUMMARY: Trivia, the formatting around tokens, and what is read off a run of it: the indentation and whether a line ends in it.
import Recast.Text.Basic

/-! # Trivia

Blanks, line ends, comments and preprocessor directives carry no grammar, but a printed file has
to give them back. Each piece hangs on a token, before or after its text. -/

namespace Recast

/-- A piece of formatting, with its text as written. -/
inductive Trivia where
  | whitespace (text : String)
  | lineEnd (text : String)
  | comment (text : String)
  | directive (text : String)
  deriving DecidableEq, Repr

namespace Trivia

/-- A single space. -/
def space : Trivia :=
  .whitespace " "

/-- A line feed. -/
def newline : Trivia :=
  .lineEnd "\n"

/-- The text as written. -/
def text : Trivia → String
  | .whitespace text | .lineEnd text | .comment text | .directive text => text

def isWhitespace : Trivia → Bool
  | .whitespace _ => true
  | _ => false

def isLineEnd : Trivia → Bool
  | .lineEnd _ => true
  | _ => false

def isDirective : Trivia → Bool
  | .directive _ => true
  | _ => false

/-- A comment or a directive: trivia that a reader would miss. -/
def isRemark : Trivia → Bool
  | .comment _ | .directive _ => true
  | _ => false

/-! ## Runs -/

/-- The text of a run of trivia. -/
def textOf (run : List Trivia) : String :=
  Text.concat (run.map text)

@[simp] theorem textOf_nil : textOf [] = "" := rfl

@[simp] theorem textOf_cons (piece : Trivia) (run : List Trivia) :
    textOf (piece :: run) = piece.text ++ textOf run := rfl

@[simp] theorem textOf_append (xs ys : List Trivia) :
    textOf (xs ++ ys) = textOf xs ++ textOf ys := by
  simp [textOf]

/-- What stands after the last line end of a run, the whole run when no line ends in it. -/
def lastLine (run : List Trivia) : List Trivia :=
  (run.reverse.takeWhile fun piece => !piece.isLineEnd).reverse

/-- The blanks of the last line. -/
def indentation (run : List Trivia) : List Trivia :=
  (lastLine run).filter isWhitespace

/-- The text of the indentation. -/
def indentationText (run : List Trivia) : String :=
  textOf (indentation run)

/-- True when the last piece ends a line. -/
def endsLine (run : List Trivia) : Bool :=
  (run.getLast?.map isLineEnd).getD false

/-- True when a line ends somewhere in the run. -/
def hasLineEnd (run : List Trivia) : Bool :=
  run.any isLineEnd

/-- True when the run holds a comment or a directive. -/
def hasRemark (run : List Trivia) : Bool :=
  run.any isRemark

end Trivia

end Recast
