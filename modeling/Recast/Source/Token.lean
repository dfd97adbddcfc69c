-- SUMMARY: Tokens with the trivia that hangs on them, and the reasons why a text is refused.
import Recast.Source.Span
import Recast.Source.Trivia

/-! # Tokens

A token is a lexeme together with the trivia before and after it. Its `source` is what it
contributes to a printed file. A token read from a text knows where it stood; a token made by an
edit has no span. -/

namespace Recast

/-- The class of a lexeme. -/
inductive TokenKind where
  | identifier
  | keyword
  | number
  | string
  | interpolated
  | character
  | punctuation
  | endOfFile
  deriving DecidableEq, Repr

/-- A lexeme with its trivia. -/
structure Token where
  kind : TokenKind
  text : String
  leading : List Trivia := []
  trailing : List Trivia := []
  span : Option Span := none
  deriving DecidableEq, Repr

namespace Token

/-- The opening brace. -/
def openBrace : String := "\x7b"

/-- The closing brace. -/
def closeBrace : String := "\x7d"

/-- A keyword followed by `trailing`. -/
def ofKeyword (text : String) (trailing : List Trivia := []) : Token :=
  { kind := .keyword, text, trailing }

/-- A punctuation mark followed by `trailing`. -/
def ofMark (text : String) (trailing : List Trivia := []) : Token :=
  { kind := .punctuation, text, trailing }

/-- A name, reserved or not. -/
def isWord (t : Token) : Bool :=
  match t.kind with
  | .identifier | .keyword => true
  | _ => false

/-- A number, a character or a string of any form. -/
def isLiteral (t : Token) : Bool :=
  match t.kind with
  | .number | .string | .interpolated | .character => true
  | _ => false

/-- A word or a punctuation mark with exactly this text. A literal is never one, so the string
    `"async"` is not the word `async`. -/
def is (t : Token) (text : String) : Bool :=
  t.text == text && (t.isWord || t.kind == .punctuation)

/-- An identifier with exactly this text. -/
def isName (t : Token) (text : String) : Bool :=
  t.kind == .identifier && t.text == text

/-- What the token contributes to a printed file. -/
def source (t : Token) : String :=
  Trivia.textOf t.leading ++ t.text ++ Trivia.textOf t.trailing

/-- What a run of tokens contributes to a printed file. -/
def sourceOf (ts : List Token) : String :=
  Text.concat (ts.map source)

@[simp] theorem sourceOf_nil : sourceOf [] = "" := rfl

@[simp] theorem sourceOf_cons (t : Token) (ts : List Token) :
    sourceOf (t :: ts) = t.source ++ sourceOf ts := rfl

@[simp] theorem sourceOf_append (ts us : List Token) :
    sourceOf (ts ++ us) = sourceOf ts ++ sourceOf us := by
  simp [sourceOf]

/-- The source of a run without the trivia at its two ends. -/
def textOf : List Token → String
  | [] => ""
  | [t] => t.text
  | t :: u :: ts => t.text ++ Trivia.textOf t.trailing ++ inner u ts
where
  /-- The source of the tokens from the second on, without the trivia at the end. -/
  inner (t : Token) : List Token → String
    | [] => Trivia.textOf t.leading ++ t.text
    | u :: ts => t.source ++ inner u ts

/-- No trivia stands between the two tokens. -/
def adjacent (t u : Token) : Bool :=
  t.trailing.isEmpty && u.leading.isEmpty

/-- The offset where the token started, zero for a token that was not read. -/
def offset (t : Token) : Nat :=
  (t.span.map Span.start).getD 0

end Token

/-! ## Refusals -/

/-- Why a text could not be read. Offsets count bytes. -/
inductive ParseError where
  /-- No lexeme starts with the character. -/
  | unexpectedCharacter (offset : Nat) (found : Char)
  /-- Another token was needed. -/
  | expected (what found : String) (offset : Nat)
  /-- The text goes on after what was to be read. -/
  | trailingInput (offset : Nat) (found : String)
  deriving DecidableEq, Repr

/-- The wording of a refusal. -/
def ParseError.message : ParseError → String
  | .unexpectedCharacter offset found => s!"unexpected character '{found}' at offset {offset}"
  | .expected what found offset => s!"expected {what}, found '{found}' at offset {offset}"
  | .trailingInput offset found => s!"unexpected trailing input '{found}' at offset {offset}"

end Recast
