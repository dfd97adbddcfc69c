-- SUMMARY: JSON values and their reader.
import Recast.Source.Lexer

/-! # JSON

Settings and catalogs are written in JSON. The reader is strict about the format: no comments, no
comma after the last item, no control characters in strings, nothing but blanks after the value.
An object keeps its entries in the order of the text, with repeated keys, and a number keeps its
digits: what they mean is for the decoder to say. -/

namespace Recast

/-- A JSON value. -/
inductive JsonValue where
  | null
  | bool (value : Bool)
  /-- A number, as written. -/
  | number (digits : String)
  /-- A string. It has no text when an escape in it names half of a surrogate pair. -/
  | text (value : Option String)
  | array (items : List JsonValue)
  /-- An object. Its keys are strings, so they may have no text either. -/
  | object (entries : List (Option String × JsonValue))

namespace JsonValue

/-- Space, line feed, carriage return and tab. -/
def isBlank (c : Char) : Bool :=
  c == ' ' || c == '\n' || c == '\t' || c == '\r'

def skipBlanks (cs : List Char) : List Char :=
  cs.dropWhile isBlank

/-! ## Strings -/

/-- A character of a string, or a code unit given by an escape. -/
inductive StringUnit where
  | char (c : Char)
  | code (n : Nat)

/-- The body of a string up to its closing quote, escapes as written, and the rest. -/
def stringBody : List Char → Option (List Char × List Char)
  | [] => none
  | '"' :: cs => some ([], cs)
  | '\\' :: c :: cs => (stringBody cs).map fun (body, rest) => ('\\' :: c :: body, rest)
  | c :: cs =>
    if c.toNat < 0x20 then none
    else (stringBody cs).map fun (body, rest) => (c :: body, rest)

def hexDigit? (c : Char) : Option Nat :=
  if Text.isAsciiDigit c then some (c.toNat - '0'.toNat)
  else if 'a' ≤ c && c ≤ 'f' then some (c.toNat - 'a'.toNat + 10)
  else if 'A' ≤ c && c ≤ 'F' then some (c.toNat - 'A'.toNat + 10)
  else none

/-- Escapes of one letter. -/
def plainEscape? (c : Char) : Option Char :=
  match c with
  | '"' => some '"'
  | '\\' => some '\\'
  | '/' => some '/'
  | 'b' => some '\x08'
  | 'f' => some '\x0c'
  | 'n' => some '\n'
  | 'r' => some '\r'
  | 't' => some '\t'
  | _ => none

/-- The units of a string body, nothing when an escape is malformed. -/
def unitsOf : List Char → Option (List StringUnit)
  | [] => some []
  | '\\' :: 'u' :: a :: b :: c :: d :: cs => do
    let code := ((← hexDigit? a) * 16 + (← hexDigit? b)) * 256 + (← hexDigit? c) * 16 + (← hexDigit? d)
    return .code code :: (← unitsOf cs)
  | '\\' :: c :: cs => do
    let plain ← plainEscape? c
    return .char plain :: (← unitsOf cs)
  | ['\\'] => none
  | c :: cs => do return .char c :: (← unitsOf cs)

def isHighHalf (n : Nat) : Bool :=
  0xd800 ≤ n && n < 0xdc00

def isLowHalf (n : Nat) : Bool :=
  0xdc00 ≤ n && n < 0xe000

/-- The characters of a string, with the halves of surrogate pairs joined; nothing when a half
    stands alone. -/
def joinHalves : List StringUnit → Option (List Char)
  | [] => some []
  | .char c :: us => (joinHalves us).map (c :: ·)
  | .code n :: .code m :: us =>
    if isHighHalf n then
      if isLowHalf m then
        (joinHalves us).map (Char.ofNat (0x10000 + (n - 0xd800) * 0x400 + (m - 0xdc00)) :: ·)
      else none
    else if isLowHalf n then none
    else (joinHalves (.code m :: us)).map (Char.ofNat n :: ·)
  | .code n :: us =>
    if isHighHalf n || isLowHalf n then none else (joinHalves us).map (Char.ofNat n :: ·)

/-- A string after its opening quote, and the rest. -/
def readText (cs : List Char) : Option (Option String × List Char) := do
  let (body, rest) ← stringBody cs
  let units ← unitsOf body
  return ((joinHalves units).map String.ofList, rest)

/-! ## Values -/

/-- A number: a sign, digits without a leading zero, a fraction and an exponent. -/
def numberScan : Scan :=
  Scan.seq (Scan.opt (Scan.literal "-"))
    (Scan.seq (Scan.or (Scan.literal "0")
        (Scan.seq (Scan.one fun c => '1' ≤ c && c ≤ '9') (Scan.run Text.isAsciiDigit)))
      (Scan.seq (Scan.opt (Scan.seq (Scan.literal ".") (Scan.run1 Text.isAsciiDigit)))
        (Scan.opt (Scan.seq (Scan.one fun c => c == 'e' || c == 'E')
          (Scan.seq (Scan.opt (Scan.one fun c => c == '+' || c == '-'))
            (Scan.run1 Text.isAsciiDigit))))))

/-- A value without parts, and the rest. -/
def readPlain (cs : List Char) : Option (JsonValue × List Char) :=
  let word (text : String) (value : JsonValue) :=
    (Text.dropHead? text.toList cs).map fun rest => (value, rest)
  word "null" .null <|> word "true" (.bool true) <|> word "false" (.bool false)
    <|> (numberScan cs).map fun (l, rest) => (.number (String.ofList l), rest)

mutual

/-- A value nested at most `bound` deep, and the rest. -/
def readValue : (bound : Nat) → List Char → Option (JsonValue × List Char)
  | 0, _ => none
  | bound + 1, cs =>
    match skipBlanks cs with
    | '"' :: cs => (readText cs).map fun (value, rest) => (.text value, rest)
    | '[' :: cs =>
      match skipBlanks cs with
      | ']' :: rest => some (.array [], rest)
      | cs => (readItems bound cs).map fun (items, rest) => (.array items, rest)
    | '\x7b' :: cs =>
      match skipBlanks cs with
      | '\x7d' :: rest => some (.object [], rest)
      | cs => (readEntries bound cs).map fun (entries, rest) => (.object entries, rest)
    | cs => readPlain cs

/-- The items of an array through its closing bracket, and the rest. -/
def readItems : (bound : Nat) → List Char → Option (List JsonValue × List Char)
  | 0, _ => none
  | bound + 1, cs =>
    match readValue bound cs with
    | none => none
    | some (item, rest) =>
      match skipBlanks rest with
      | ',' :: rest => (readItems bound rest).map fun (items, rest) => (item :: items, rest)
      | ']' :: rest => some ([item], rest)
      | _ => none

/-- The entries of an object through its closing brace, and the rest. -/
def readEntries : (bound : Nat) → List Char → Option (List (Option String × JsonValue) × List Char)
  | 0, _ => none
  | bound + 1, cs =>
    match skipBlanks cs with
    | '"' :: cs =>
      match readText cs with
      | some (key, rest) =>
        match skipBlanks rest with
        | ':' :: rest =>
          match readValue bound rest with
          | none => none
          | some (value, rest) =>
            match skipBlanks rest with
            | ',' :: rest =>
              (readEntries bound rest).map fun (entries, rest) => ((key, value) :: entries, rest)
            | '\x7d' :: rest => some ([(key, value)], rest)
            | _ => none
        | _ => none
      | _ => none
    | _ => none

end

/-- The value that a text holds. Every step into a value takes a character or comes right after
    one that did, so twice the length bounds the steps. -/
def parse? (source : String) : Option JsonValue :=
  match readValue (2 * source.length + 2) source.toList with
  | some (value, rest) => if (skipBlanks rest).isEmpty then some value else none
  | none => none

end JsonValue

end Recast
