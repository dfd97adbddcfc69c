-- SUMMARY: The cursor over the tokens of a text, parsers, and the combinators that the grammar is written in.
import Recast.Source.Lexer
import Recast.Tree.Node

/-! # Cursors and parsers

A parser reads tokens ahead of a cursor. Most of the grammar is written in *pieces*: parsers whose
result is the list of parts they read, so that `p ++ q` reads the parts of `p` and then those of
`q`, and `build` makes a node of them. Since a piece returns exactly what it takes from the cursor,
no token is lost or doubled.

Loops are bounded by the number of tokens ahead: a round that does not take a token is the last. -/

namespace Recast

/-- The tokens still to be read, and the empty token that ends the text. -/
structure Cursor where
  ahead : List Token
  finish : Token

namespace Cursor

/-- The cursor at the start of the tokens of a text, the last of which ends it. -/
def ofTokens (ts : List Token) : Cursor :=
  ⟨ts.dropLast, ts.getLast?.getD (.endOfText [] 0)⟩

/-- The token `n` places ahead; past the end it is the one that ends the text. -/
def nth (c : Cursor) (n : Nat) : Token :=
  c.ahead.getD n c.finish

/-- The next token. -/
def current (c : Cursor) : Token :=
  c.nth 0

def atEnd (c : Cursor) : Bool :=
  c.ahead.isEmpty

/-- True when the next token is this word or mark. -/
def sees (text : String) (c : Cursor) : Bool :=
  c.current.is text

/-- True when the next token is one of these words or marks. -/
def seesAny (texts : List String) (c : Cursor) : Bool :=
  texts.any c.current.is

/-- True when the token `n` places ahead is this word or mark. -/
def seesAt (n : Nat) (text : String) (c : Cursor) : Bool :=
  (c.nth n).is text

/-- True when the next token is an identifier. -/
def atName (c : Cursor) : Bool :=
  c.current.kind == .identifier

/-- True when the next token is an identifier followed by this mark. -/
def atNameThen (text : String) (c : Cursor) : Bool :=
  c.atName && c.seesAt 1 text

/-- True when the next token opens a bracket. -/
def atBracket (c : Cursor) : Bool :=
  c.seesAny ["(", "[", Token.openBrace]

/-- True before a closing brace and at the end of the text. -/
def atBodyEnd (c : Cursor) : Bool :=
  c.sees Token.closeBrace || c.atEnd

/-- The refusal at the cursor when something else was needed. -/
def refusal (c : Cursor) (what : String) : ParseError :=
  .expected what (if c.current.kind == .endOfFile then "end of input" else c.current.text)
    c.current.offset

end Cursor

/-- A parser: what it reads and the cursor after it, or a refusal. -/
abbrev Parser := StateT Cursor (Except ParseError)

/-- A parser for parts of a node. -/
abbrev Piece := Parser (List Element)

/-- The parts of one piece, then those of another. -/
instance : Append Piece where
  append p q := do
    let first ← p
    let second ← q
    return first ++ second

namespace Parser

variable {α : Type}

/-! ## Tokens -/

/-- Refuse: something else was needed here. -/
def fail (what : String) : Parser α := fun c =>
  .error (c.refusal what)

/-- The next token, whatever it is. At the end of the text it is the empty token, and the cursor
    stays. -/
def bump : Parser Token := fun c =>
  match c.ahead with
  | [] => .ok (c.finish, c)
  | t :: ts => .ok (t, { c with ahead := ts })

/-- Parts that were read before. -/
def given (parts : List Element) : Piece :=
  pure parts

/-- The next token, as the only part. -/
def token : Piece := do
  return [.token (← bump)]

/-- The next `n` tokens. -/
def take : Nat → Piece
  | 0 => given []
  | n + 1 => token ++ take n

/-- The word or mark `text`, which has to come next. -/
def mark (text : String) : Piece := fun c =>
  if c.sees text then token c else .error (c.refusal s!"'{text}'")

/-- An identifier, which has to come next. -/
def name : Piece := fun c =>
  if c.atName then token c else .error (c.refusal "identifier")

/-- Nothing read, and a refusal unless the test holds. -/
def check (test : Cursor → Bool) (what : String) : Piece := fun c =>
  if test c then .ok ([], c) else .error (c.refusal what)

/-! ## Nodes -/

/-- The node that a parser reads, as the only part. -/
def one (p : Parser Node) : Piece := do
  return [.node (← p)]

/-- A node over the parts of a piece. -/
def build (kind : Kind) (p : Piece) : Parser Node := do
  return .ofChildren kind (← p)

/-! ## Choice -/

/-- One parser or another, as the cursor decides. -/
def ifAt (test : Cursor → Bool) (p q : Parser α) : Parser α := fun c =>
  if test c then p c else q c

/-- A piece that is read only where the test holds. -/
def whenAt (test : Cursor → Bool) (p : Piece) : Piece :=
  ifAt test p (given [])

/-- One parser, or another from the same place when the first refuses. -/
def orElse (p q : Parser α) : Parser α := fun c =>
  match p c with
  | .ok result => .ok result
  | .error _ => q c

/-- One parser, or another from the same place when the first refuses; the first refusal stands
    when both do. -/
def recover (p q : Parser α) : Parser α := fun c =>
  match p c with
  | .ok result => .ok result
  | .error e =>
    match q c with
    | .ok result => .ok result
    | .error _ => .error e

/-- What a parser reads, when it is followed by what the test asks for. -/
def followedBy (p : Parser α) (test : Cursor → Bool) (what : String) : Parser α := do
  let result ← p
  let _ ← check test what
  return result

/-- True when a parser accepts and the cursor after it passes a test. -/
def leadsTo (p : Parser α) (test : Cursor → Bool) (c : Cursor) : Bool :=
  match p c with
  | .ok (_, c) => test c
  | .error _ => false

/-! ## Repetition -/

/-- At most `bound` rounds of a piece, while the test holds. -/
def rounds (test : Cursor → Bool) (p : Piece) : (bound : Nat) → Piece
  | 0 => given []
  | bound + 1 => fun c => if test c then (p ++ rounds test p bound) c else .ok ([], c)

/-- A piece again and again while the test holds. -/
def repeatWhile (test : Cursor → Bool) (p : Piece) : Piece := fun c =>
  rounds test p (c.ahead.length + 1) c

/-- Items with commas between them, at least one. -/
def commaList (item : Piece) : Piece :=
  item ++ repeatWhile (Cursor.sees ",") (token ++ item)

/-- At most `bound` items with commas after them. -/
def itemsBefore (close : String) (item : Piece) : (bound : Nat) → Piece
  | 0 => given []
  | bound + 1 => fun c =>
    if c.sees close then .ok ([], c)
    else (item ++ whenAt (Cursor.sees ",") (token ++ itemsBefore close item bound)) c

/-- Items with commas between them up to a closing mark, possibly none; a comma may stand after
    the last. -/
def openList (close : String) (item : Piece) : Piece := fun c =>
  itemsBefore close item (c.ahead.length + 1) c

/-- Items with commas between them in brackets, possibly none. -/
def bracketed (opening close : String) (item : Piece) : Piece :=
  mark opening ++ whenAt (fun c => !c.sees close) (commaList item) ++ mark close

/-- A construct that goes on after a first part: the kind of the whole and what follows. -/
abbrev Extension := Cursor → Option (Kind × Piece)

/-- A node that is the first part of a larger one, if the cursor says so. -/
def extend (next : Extension) (left : Node) : Parser (Option Node) := fun c =>
  match next c with
  | none => .ok (none, c)
  | some (kind, rest) => (do return some (← build kind (given [.node left] ++ rest))) c

/-- A node extended at most `bound` times. -/
def growths (next : Extension) : (bound : Nat) → Node → Parser Node
  | 0, left => pure left
  | bound + 1, left => do
    match ← extend next left with
    | none => return left
    | some whole => growths next bound whole

/-- A construct that is extended on its right as long as the cursor says so. -/
def grow (next : Extension) (first : Parser Node) : Parser Node := do
  let left ← first
  growths next ((← get).ahead.length + 1) left

/-- A construct that may be extended on its right once. -/
def growOnce (next : Extension) (first : Parser Node) : Parser Node := do
  let left ← first
  return (← extend next left).getD left

/-! ## Bracket groups -/

def opens (t : Token) : Bool :=
  t.is "(" || t.is "[" || t.is Token.openBrace

def closes (t : Token) : Bool :=
  t.is ")" || t.is "]" || t.is Token.closeBrace

/-- The tokens through the bracket that brings the depth back to zero, and the rest. -/
def splitGroup : (depth : Nat) → List Token → Option (List Token × List Token)
  | _, [] => none
  | depth, t :: ts =>
    let onward (depth : Nat) := (splitGroup depth ts).map fun (group, rest) => (t :: group, rest)
    if opens t then onward (depth + 1)
    else if closes t then
      match depth with
      | 0 => none
      | 1 => some ([t], ts)
      | depth + 2 => onward (depth + 1)
    else onward depth

/-- The tokens from the bracket at the cursor through the one that closes it. -/
def group : Piece := fun c =>
  match splitGroup 0 c.ahead with
  | none => .error (c.refusal "closing bracket")
  | some (ts, rest) => .ok (ts.map .token, { c with ahead := rest })

/-- A bracket group that the grammar does not look into. -/
def rawGroup : Parser Node :=
  build .rawTokens group

/-- True when the bracket group at the start of the tokens is followed by an arrow and holds no
    semicolon. -/
def arrowAfter : (depth : Nat) → List Token → Bool
  | _, [] => false
  | depth, t :: ts =>
    if opens t then arrowAfter (depth + 1) ts
    else if closes t then
      match depth with
      | 0 => false
      | 1 => (ts.head?.map (·.is "=>")).getD false
      | depth + 2 => arrowAfter (depth + 1) ts
    else if t.is ";" then false
    else arrowAfter depth ts

/-- At most `bound` tokens or groups of a raw run. `fresh` says that nothing has been read yet. -/
def rawRounds : (bound : Nat) → (fresh : Bool) → Piece
  | 0, _ => given []
  | bound + 1, fresh => fun c =>
    if c.atEnd then .ok ([], c)
    else if c.sees Token.closeBrace then
      if fresh then .error (c.refusal "member") else .ok ([], c)
    else if c.sees Token.openBrace then (group ++ whenAt (Cursor.sees ";") token) c
    else if c.atBracket then (group ++ rawRounds bound false) c
    else if c.sees ";" then token c
    else (token ++ rawRounds bound false) c

/-- A run of tokens up to and including a semicolon outside brackets, or through a group in
    braces: a member or statement that the grammar does not know. -/
def rawRun (kind : Kind) : Parser Node :=
  build kind fun c =>
    if c.atEnd then .error (c.refusal "member") else rawRounds (c.ahead.length + 1) true c

end Parser

end Recast
