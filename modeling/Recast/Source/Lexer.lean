-- SUMMARY: The lexer: lexemes and trivia as scanners on lists of characters, and `Token.scan`, which reads a whole text into tokens.
import Recast.Source.Token

/-! # Lexer

A scanner splits its input into a lexeme and the rest. The lexemes of the language and the pieces
of trivia are scanners built from a few combinators, all of which give back their input: the
lexeme followed by the rest is what was read.

Trivia is attributed in one way. After a token, blanks and comments up to and including the first
line end hang on that token; everything else up to the next token hangs on the next one. A
directive always hangs on the token after it. The last token is empty and carries what stands at
the end of the text. -/

namespace Recast

/-- A scanner: the lexeme and the rest, or nothing when the input does not start with one. -/
abbrev Scan := List Char → Option (List Char × List Char)

namespace Scan

/-! ## Combinators -/

/-- Exactly these characters. -/
def literal (text : String) : Scan := fun cs =>
  (Text.dropHead? text.toList cs).map fun rest => (text.toList, rest)

/-- One character of a class. -/
def one (p : Char → Bool) : Scan
  | [] => none
  | c :: cs => if p c then some ([c], cs) else none

/-- The longest run of characters of a class, possibly empty. -/
def run (p : Char → Bool) : Scan := fun cs =>
  some (cs.takeWhile p, cs.dropWhile p)

/-- First `s`, then `t` on the rest. -/
def seq (s t : Scan) : Scan := fun cs =>
  match s cs with
  | none => none
  | some (l, mid) =>
    match t mid with
    | none => none
    | some (m, rest) => some (l ++ m, rest)

/-- The longest run of characters of a class, at least one. -/
def run1 (p : Char → Bool) : Scan :=
  seq (one p) (run p)

/-- `s`, or nothing read when `s` does not apply. -/
def opt (s : Scan) : Scan := fun cs =>
  match s cs with
  | none => some ([], cs)
  | some split => some split

/-- `s`, or `t` when `s` does not apply. -/
def or (s t : Scan) : Scan := fun cs =>
  match s cs with
  | none => t cs
  | some split => some split

/-- The first of several scanners that applies. -/
def choice : List Scan → Scan
  | [] => fun _ => none
  | s :: rest => or s (choice rest)

/-! ## Trivia -/

/-- Space, tab, byte order mark, form feed. -/
def isSpacing (c : Char) : Bool :=
  c == ' ' || c == '\t' || c == '\ufeff' || c == '\x0c'

def whitespace : Scan :=
  run1 isSpacing

/-- A line feed, a carriage return, or both. -/
def lineEnd : Scan :=
  choice [literal "\n", literal "\r\n", literal "\r"]

/-- The characters up to the end of the line. A carriage return ends a line only together with a
    line feed; one that stands alone makes the scanner fail. -/
def restOfLine : Scan := fun cs =>
  let line := cs.takeWhile fun c => c ≠ '\r' && c ≠ '\n'
  match cs.dropWhile fun c => c ≠ '\r' && c ≠ '\n' with
  | '\r' :: '\n' :: rest => some (line, '\r' :: '\n' :: rest)
  | '\r' :: _ => none
  | rest => some (line, rest)

/-- The characters up to and including the end of a block comment. -/
def blockEnd : Scan
  | [] => none
  | '*' :: '/' :: rest => some (['*', '/'], rest)
  | c :: cs =>
    match blockEnd cs with
    | none => none
    | some (l, rest) => some (c :: l, rest)

def lineComment : Scan :=
  seq (literal "//") restOfLine

def blockComment : Scan :=
  seq (literal "/*") blockEnd

def directive : Scan :=
  seq (literal "#") restOfLine

/-! ## Words and numbers -/

/-- A name, written with `@` in front when it would read as a keyword. -/
def identifier : Scan :=
  seq (opt (literal "@"))
    (seq (one fun c => Text.isLetter c || c == '_') (run fun c => Text.isLetterOrDigit c || c == '_'))

def isHexDigit (c : Char) : Bool :=
  Text.isAsciiDigit c || ('a' ≤ c && c ≤ 'f') || ('A' ≤ c && c ≤ 'F')

/-- A number in base sixteen or two, with its suffix. -/
def basedNumber : Scan :=
  seq (literal "0") (seq (one fun c => c == 'x' || c == 'X' || c == 'b' || c == 'B')
    (seq (run1 fun c => isHexDigit c || c == '_') (run Text.isAsciiLetter)))

/-- A number in base ten: digits, a fraction, an exponent and a suffix. -/
def decimalNumber : Scan :=
  seq (run1 Text.isAsciiDigit) (seq (run fun c => Text.isAsciiDigit c || c == '_')
    (seq (opt (seq (literal ".") (run1 Text.isAsciiDigit)))
      (seq (opt (seq (one fun c => c == 'e' || c == 'E')
          (seq (opt (one fun c => c == '+' || c == '-')) (run1 Text.isAsciiDigit))))
        (run Text.isAsciiLetter))))

def number : Scan :=
  or basedNumber decimalNumber

/-! ## Quoted literals -/

/-- How a quoted literal is written: which quote closes it, whether a backslash is plain text, and
    whether braces open holes. -/
structure QuoteStyle where
  quote : Char
  verbatim : Bool
  interpolated : Bool
  deriving DecidableEq, Repr

/-- Where the scanner stands in a quoted literal. -/
inductive QuoteState where
  /-- In the text of the literal. -/
  | text
  /-- In the text, where the next character is taken as it is. -/
  | taken
  /-- In a hole, with `depth` more braces open. -/
  | hole (depth : Nat)
  /-- In a plain string inside a hole. -/
  | nested (depth : Nat)
  /-- In a plain string inside a hole, where the next character is taken as it is. -/
  | nestedTaken (depth : Nat)
  deriving DecidableEq, Repr

/-- A character in front of what a scanner reads. -/
def push (c : Char) : Option (List Char × List Char) → Option (List Char × List Char)
  | none => none
  | some (l, rest) => some (c :: l, rest)

/-- The body of a quoted literal with its closing quote, from right after the opening one.

    In plain text a backslash takes the next character with it and a line may not end. In verbatim
    text a doubled quote stands for one. In an interpolated literal a brace opens a hole, a
    doubled brace does not; braces nest in a hole, and a quote there starts a plain string, which
    is read by the rules for plain text. -/
def quoted (style : QuoteStyle) : QuoteState → Scan
  | _, [] => none
  | .text, c :: cs =>
    if c == '\\' && !style.verbatim then push c (quoted style .taken cs)
    else if c == '\x7b' && style.interpolated then
      push c (quoted style (if cs.head? == some '\x7b' then .taken else .hole 0) cs)
    else if c == style.quote then
      if style.verbatim && cs.head? == some style.quote then push c (quoted style .taken cs)
      else some ([c], cs)
    else if c == '\n' && !style.verbatim then none
    else push c (quoted style .text cs)
  | .taken, c :: cs => push c (quoted style .text cs)
  | .hole depth, c :: cs =>
    if c == '\x7b' then push c (quoted style (.hole (depth + 1)) cs)
    else if c == '\x7d' then push c (quoted style (if depth = 0 then .text else .hole (depth - 1)) cs)
    else if c == '"' then push c (quoted style (.nested depth) cs)
    else push c (quoted style (.hole depth) cs)
  | .nested depth, c :: cs =>
    if c == '\\' then push c (quoted style (.nestedTaken depth) cs)
    else if c == '"' then push c (quoted style (.hole depth) cs)
    else if c == '\n' then none
    else push c (quoted style (.nested depth) cs)
  | .nestedTaken depth, c :: cs => push c (quoted style (.nested depth) cs)

/-- A quoted literal: how it opens, and its body. -/
def quotedLiteral (opening : String) (style : QuoteStyle) : Scan :=
  seq (literal opening) (quoted style .text)

def charLiteral : Scan :=
  quotedLiteral "'" ⟨'\'', false, false⟩

def stringLiteral : Scan :=
  or (quotedLiteral "@\"" ⟨'"', true, false⟩) (quotedLiteral "\"" ⟨'"', false, false⟩)

def interpolatedString : Scan :=
  choice [quotedLiteral "$@\"" ⟨'"', true, true⟩, quotedLiteral "@$\"" ⟨'"', true, true⟩,
    quotedLiteral "$\"" ⟨'"', false, true⟩]

/-! ## Punctuation -/

/-- The marks of several characters, longer ones first. Two closing angle brackets are two marks,
    since they may close two lists. -/
def longMarks : List String :=
  ["??=", "<<=", "=>", "==", "!=", "<=", ">=", "&&", "||", "??", "?.", "++", "--", "+=", "-=",
    "*=", "/=", "%=", "&=", "|=", "^=", "::", "->", "<<", ".."]

/-- The marks of one character. -/
def shortMarks : List Char :=
  "\x7b\x7d()[];,.:?+-*/%&|^!~=<>".toList

def punctuation : Scan :=
  or (choice (longMarks.map literal)) (one fun c => shortMarks.contains c)

end Scan

/-! ## Tokens -/

namespace Token

/-- The reserved words. -/
def keywords : List String :=
  ["abstract", "as", "base", "bool", "break", "byte", "case", "catch", "char", "checked",
    "class", "const", "continue", "decimal", "default", "delegate", "do", "double", "else",
    "enum", "event", "explicit", "extern", "false", "finally", "fixed", "float", "for",
    "foreach", "goto", "if", "implicit", "in", "int", "interface", "internal", "is", "lock",
    "long", "namespace", "new", "null", "object", "operator", "out", "override", "params",
    "private", "protected", "public", "readonly", "ref", "return", "sbyte", "sealed", "short",
    "sizeof", "stackalloc", "static", "string", "struct", "switch", "this", "throw", "true",
    "try", "typeof", "uint", "ulong", "unchecked", "unsafe", "ushort", "using", "virtual",
    "void", "volatile", "while"]

/-- A lexeme of a class, its text and the rest. -/
abbrev Lexeme := TokenKind × String × List Char

/-- The lexeme that a scanner reads, as one of class `kind`. -/
def lexemeBy (kind : TokenKind) (scan : Scan) (cs : List Char) : Option Lexeme :=
  (scan cs).map fun (l, rest) => (kind, String.ofList l, rest)

/-- A word: reserved, or a name. -/
def word (cs : List Char) : Option Lexeme :=
  (Scan.identifier cs).map fun (l, rest) =>
    let text := String.ofList l
    (if keywords.contains text then .keyword else .identifier, text, rest)

/-- The lexeme at the start of a non-empty input. -/
def lexeme? (cs : List Char) : Option Lexeme :=
  lexemeBy .character Scan.charLiteral cs
    <|> lexemeBy .interpolated Scan.interpolatedString cs
    <|> lexemeBy .string Scan.stringLiteral cs
    <|> lexemeBy .number Scan.number cs
    <|> word cs
    <|> lexemeBy .punctuation Scan.punctuation cs

end Token

namespace Trivia

/-- The piece that a scanner reads. -/
def pieceBy (make : String → Trivia) (scan : Scan) (cs : List Char) : Option (Trivia × List Char) :=
  (scan cs).map fun (l, rest) => (make (String.ofList l), rest)

/-- A piece of trivia before a token. -/
def leadingPiece (cs : List Char) : Option (Trivia × List Char) :=
  pieceBy .whitespace Scan.whitespace cs
    <|> pieceBy .lineEnd Scan.lineEnd cs
    <|> pieceBy .comment Scan.lineComment cs
    <|> pieceBy .comment Scan.blockComment cs
    <|> pieceBy .directive Scan.directive cs

/-- A piece of trivia after a token, on its line. -/
def trailingPiece (cs : List Char) : Option (Trivia × List Char) :=
  pieceBy .whitespace Scan.whitespace cs
    <|> pieceBy .comment Scan.lineComment cs
    <|> pieceBy .comment Scan.blockComment cs
    <|> pieceBy .lineEnd Scan.lineEnd cs

/-- All trivia before a token, and the rest. Every piece takes a character, so the length of the
    input bounds the number of pieces. -/
def leadingRun : (bound : Nat) → List Char → List Trivia × List Char
  | 0, cs => ([], cs)
  | bound + 1, cs =>
    match leadingPiece cs with
    | none => ([], cs)
    | some (piece, rest) =>
      let (pieces, rest) := leadingRun bound rest
      (piece :: pieces, rest)

/-- The trivia after a token up to and including the first line end, and the rest. -/
def trailingRun : (bound : Nat) → List Char → List Trivia × List Char
  | 0, cs => ([], cs)
  | bound + 1, cs =>
    match trailingPiece cs with
    | none => ([], cs)
    | some (piece, rest) =>
      if piece.isLineEnd then ([piece], rest)
      else
        let (pieces, rest) := trailingRun bound rest
        (piece :: pieces, rest)

/-- The trivia at the start of a text, and the rest. -/
def readLeading (cs : List Char) : List Trivia × List Char :=
  leadingRun cs.length cs

/-- The trivia that hangs on the token just read, and the rest. -/
def readTrailing (cs : List Char) : List Trivia × List Char :=
  trailingRun cs.length cs

end Trivia

namespace Token

/-- The empty token at the end of a text. -/
def endOfText (leading : List Trivia) (offset : Nat) : Token :=
  { kind := .endOfFile, text := "", leading, span := some ⟨offset, offset⟩ }

/-- The tokens of the rest of a text, whose first token starts at `offset` after the trivia
    `leading`. Every token takes a character, so the length of the input bounds their number. -/
def scanFrom : (bound offset : Nat) → (leading : List Trivia) → List Char →
    Except ParseError (List Token)
  | _, offset, leading, [] => .ok [endOfText leading offset]
  | 0, offset, _, c :: _ => .error (.unexpectedCharacter offset c)
  | bound + 1, offset, leading, c :: cs =>
    match lexeme? (c :: cs) with
    | none => .error (.unexpectedCharacter offset c)
    | some (kind, text, rest) =>
      let stop := offset + text.utf8ByteSize
      let (trailing, rest) := Trivia.readTrailing rest
      let (following, rest) := Trivia.readLeading rest
      let next := stop + (Trivia.textOf trailing).utf8ByteSize + (Trivia.textOf following).utf8ByteSize
      match scanFrom bound next following rest with
      | .error e => .error e
      | .ok ts => .ok ({ kind, text, leading, trailing, span := some ⟨offset, stop⟩ } :: ts)

/-- The tokens of a text, the empty token at its end last. -/
def scan (source : String) : Except ParseError (List Token) :=
  let cs := source.toList
  let (leading, rest) := Trivia.readLeading cs
  scanFrom rest.length (Trivia.textOf leading).utf8ByteSize leading rest

end Token

end Recast
