-- SUMMARY: The grammar of expressions, and the lists of arguments, parameters and attributes that occur in them.
import Recast.Grammar.Name

/-! # Expressions

An expression is a lambda, or a conditional that may be assigned to. Below that come the binary
operators, each with its precedence, then the unary ones, and the primary expressions with what
may follow them: member access, calls, indexing. -/

namespace Recast.Grammar

open Recast.Parser Recast.Cursor

variable (g : Grammar)

/-! ## Blocks, arguments, values -/

/-- Statements in braces. -/
def block : Parser Node :=
  build .block (mark Token.openBrace ++ repeatWhile (fun c => !c.atBodyEnd) (one g.statement)
    ++ mark Token.closeBrace)

/-- Values, assignments or further initializers in braces. -/
def initializerOf : Parser Node :=
  let item := ifAt (sees Token.openBrace) (one g.initializer) (one g.expression)
  build .initializerExpression (mark Token.openBrace ++ openList Token.closeBrace item
    ++ mark Token.closeBrace)

/-- An initializer in braces, or an expression. -/
def value : Piece :=
  ifAt (sees Token.openBrace) (one (initializerOf g)) (one g.expression)

def equalsValue : Parser Node :=
  build .equalsValueClause (mark "=" ++ value g)

/-- A variable declared in an argument, as in `out var x`. -/
def declarationArgument : Parser Node :=
  build .declarationExpression (one g.type ++ name
    ++ check (seesAny [",", ")", "]"]) "',' or ')'")

/-- An argument: a name before a colon, a passing mode, and a value. -/
def argument : Parser Node :=
  let plain := one g.expression
  build .argument (whenAt (atNameThen ":") (token ++ token)
    ++ ifAt (seesAny ["ref", "out", "in"])
      (token ++ orElse (one (declarationArgument g)) plain) plain)

def argumentList : Parser Node :=
  build .argumentList (bracketed "(" ")" (one (argument g)))

def bracketedArguments : Parser Node :=
  build .bracketedArgumentList (bracketed "[" "]" (one (argument g)))

/-! ## Attributes and parameters -/

def attributeArgument : Parser Node :=
  build .attributeArgument (whenAt (fun c => c.atNameThen "=" || c.atNameThen ":") (token ++ token)
    ++ one g.expression)

def attributeArguments : Parser Node :=
  build .attributeArgumentList (bracketed "(" ")" (one (attributeArgument g)))

/-- An attribute without its brackets. -/
def attributeOf : Parser Node :=
  build .attribute (one (typeName g) ++ whenAt (sees "(") (one (attributeArguments g)))

/-- Attributes in brackets, with a target before a colon and perhaps a comma after the last. -/
def attributeList : Parser Node :=
  let target := build .attributeTargetSpecifier (token ++ token)
  let item := one (attributeOf g)
  build .attributeList (mark "["
    ++ whenAt (fun c => c.current.isWord && c.seesAt 1 ":") (one target)
    ++ item ++ whenAt (sees ",") (token ++ openList "]" item) ++ mark "]")

def attributeLists : Piece :=
  repeatWhile (sees "[") (one (attributeList g))

/-- True before a modifier. A contextual one is a modifier only before another word. -/
def atModifier (reserved contextual : List String) (c : Cursor) : Bool :=
  match c.current.kind with
  | .keyword => reserved.contains c.current.text
  | .identifier => contextual.contains c.current.text && (c.nth 1).isWord
  | _ => false

/-- The modifiers in front of a declaration, possibly none. -/
def modifiers (reserved contextual : List String) : Parser Node :=
  build .modifiers (repeatWhile (atModifier reserved contextual) token)

def parameterModifiers : List String :=
  ["ref", "out", "in", "params", "this", "scoped", "readonly"]

def parameter : Parser Node :=
  build .parameter (attributeLists g ++ one (modifiers parameterModifiers ["scoped"])
    ++ one g.type ++ name ++ whenAt (sees "=") (one (equalsValue g)))

def parameterList : Parser Node :=
  build .parameterList (bracketed "(" ")" (one (parameter g)))

/-! ## Lambdas -/

/-- How a lambda starts: with `async` or not, with one bare name or with a list. -/
structure LambdaHead where
  isAsync : Bool
  isSimple : Bool

/-- The start of a lambda at the cursor. -/
def lambdaHead? (c : Cursor) : Option LambdaHead :=
  let simpleAt (n : Nat) := (c.nth n).kind == .identifier && c.seesAt (n + 1) "=>"
  let listAt (n : Nat) := c.seesAt n "(" && arrowAfter 0 (c.ahead.drop n)
  let isAsync := c.current.isName "async" && (simpleAt 1 || listAt 1)
  let start := if isAsync then 1 else 0
  if simpleAt start then some ⟨isAsync, true⟩
  else if listAt start then some ⟨isAsync, false⟩
  else none

/-- The parameters of a lambda; their types may be left out. -/
def lambdaParameters : Parser Node :=
  let modes := build .modifiers (repeatWhile (seesAny ["ref", "out", "in", "params"]) token)
  let untyped (c : Cursor) := c.atNameThen "," || c.atNameThen ")"
  let item := build .parameter (one modes ++ whenAt (fun c => !untyped c) (one g.type) ++ name)
  build .parameterList (mark "(" ++ openList ")" (one item) ++ mark ")")

def lambda (head : LambdaHead) : Parser Node :=
  let bare := build .parameter (one (build .modifiers (given [])) ++ token)
  build (if head.isSimple then .simpleLambdaExpression else .parenthesizedLambdaExpression)
    (take (if head.isAsync then 1 else 0)
      ++ one (if head.isSimple then bare else lambdaParameters g)
      ++ mark "=>" ++ ifAt (sees Token.openBrace) (one (block g)) (one g.expression))

/-! ## Primary expressions -/

/-- A keyword applied to a type in parentheses. -/
def keywordOperand (kind : Kind) : Parser Node :=
  build kind (token ++ mark "(" ++ one g.type ++ mark ")")

/-- An expression in parentheses, or a tuple. -/
def parenthesized : Parser Node := do
  let opening ← mark "("
  let first ← argument g
  if (← get).sees "," then
    build .tupleExpression (given (opening ++ [.node first])
      ++ repeatWhile (sees ",") (token ++ one (argument g)) ++ mark ")")
  else
    match first.children with
    | [inner] => build .parenthesizedExpression (given (opening ++ [inner]) ++ mark ")")
    | _ => fail "','"

/-- Values in square brackets, any of which may be spread. -/
def collection : Parser Node :=
  let spread := build .prefixUnaryExpression (token ++ one g.expression)
  build .collectionExpression (mark "["
    ++ openList "]" (ifAt (sees "..") (one spread) (one g.expression)) ++ mark "]")

/-- The sizes of an array in brackets. -/
def sizes : Parser Node :=
  build .arrayRankSpecifier (token
    ++ openList "]" (whenAt (fun c => !c.sees ",") (one g.expression)) ++ mark "]")

/-- An array creation after `new` and the element type. -/
def arrayCreation (head : List Element) : Parser Node :=
  build .arrayCreationExpression (given head ++ repeatWhile (sees "[") (one (sizes g))
    ++ whenAt (sees Token.openBrace) (one (initializerOf g)))

/-- True when a type was read whose creation is that of an array. -/
def isArrayHead (type : Node) (c : Cursor) : Bool :=
  type.kind == .arrayType || c.sees "["

/-- The type of an array of tuples, as in `new (int, string)[] …`. -/
def tupleArrayType : Parser Node := do
  let type ← g.type
  if isArrayHead type (← get) then return type else fail "array type"

/-- What may follow the type of a created object. -/
def creationTail : Piece :=
  let initializer := one (initializerOf g)
  ifAt (sees "(") (one (argumentList g) ++ whenAt (sees Token.openBrace) initializer)
    (ifAt (sees Token.openBrace) initializer (fail "'(' or '\x7b'"))

/-- An object or array creation. -/
def creation : Parser Node := do
  let head ← mark "new"
  let c ← get
  if c.sees "(" then
    orElse (some <$> tupleArrayType g) (pure none) >>= fun
      | some type => arrayCreation g (head ++ [.node type])
      | none => build .implicitObjectCreationExpression (given head ++ one (argumentList g)
          ++ whenAt (sees Token.openBrace) (one (initializerOf g)))
  else if c.sees "[" then
    build .implicitArrayCreationExpression (given head ++ token ++ repeatWhile (sees ",") token
      ++ mark "]" ++ one (initializerOf g))
  else if c.sees Token.openBrace then
    build .anonymousObjectCreationExpression (given head ++ one (initializerOf g))
  else
    let type ← g.type
    if isArrayHead type (← get) then arrayCreation g (head ++ [.node type])
    else build .objectCreationExpression (given (head ++ [.node type]) ++ creationTail g)

/-- A primary expression that starts with a keyword or a mark. -/
def keywordPrimary : Parser Node := fun c =>
  if c.seesAny ["true", "false", "null"] then build .literalExpression token c
  else if c.sees "default" then
    if c.seesAt 1 "(" then keywordOperand g .defaultExpression c else build .literalExpression token c
  else if c.seesAny ["typeof", "sizeof"] then keywordOperand g .typeOfExpression c
  else if c.seesAny ["checked", "unchecked"] then
    build .checkedExpression (token ++ mark "(" ++ one g.expression ++ mark ")") c
  else if c.sees "this" then build .thisExpression token c
  else if c.sees "base" then build .baseExpression token c
  else if c.sees "(" then parenthesized g c
  else if c.sees "[" then collection g c
  else if c.sees Token.openBrace then initializerOf g c
  else if c.sees "new" then creation g c
  else if c.sees "delegate" then
    build .anonymousMethodExpression
      (token ++ whenAt (sees "(") (one (parameterList g)) ++ one (block g)) c
  else if isPredefinedType c.current then build .predefinedType token c
  else fail "expression" c

def primary : Parser Node := fun c =>
  if c.current.isLiteral then build .literalExpression token c
  else if c.atName then simpleName g c
  else keywordPrimary g c

/-- What may follow an exclamation mark that only asserts a value. -/
def assertionFollowers : List String :=
  [".", "?.", ")", ";", ",", "]", Token.closeBrace, "[", "?", "??", ":"]

/-- What may follow a primary expression and is part of it. -/
def primarySuffix : Extension := fun c =>
  if c.seesAny [".", "?."] then some (.memberAccessExpression, token ++ one (simpleName g))
  else if c.sees "(" then some (.invocationExpression, one (argumentList g))
  else if c.sees "[" then some (.elementAccessExpression, one (bracketedArguments g))
  else if c.sees "?" && c.seesAt 1 "[" && c.current.adjacent (c.nth 1) then
    some (.elementAccessExpression, token ++ one (bracketedArguments g))
  else if c.seesAny ["++", "--"] then some (.postfixUnaryExpression, token)
  else if c.sees "!" && ((c.nth 1).kind == .endOfFile || assertionFollowers.any (c.nth 1).is) then
    some (.postfixUnaryExpression, token)
  else if c.sees "switch" && c.seesAt 1 Token.openBrace then
    some (.switchExpression, token ++ one rawGroup)
  else if c.current.isName "with" && c.seesAt 1 Token.openBrace then
    some (.binaryExpression, token ++ one (initializerOf g))
  else none

/-! ## Operators -/

/-- True before `await` used as an operator rather than as a name. -/
def atAwait (c : Cursor) : Bool :=
  c.current.isName "await" &&
    let next := c.nth 1
    match next.kind with
    | .keyword => !(next.is "is" || next.is "as")
    | .punctuation => next.is "(" || next.is "!" || next.is "~"
    | .endOfFile => false
    | _ => true

/-- True when an operand of a cast may start here. After a predefined type a sign is one. -/
def castOperandFollows (predefined : Bool) (c : Cursor) : Bool :=
  match c.current.kind with
  | .keyword => !c.seesAny ["is", "as", "switch"]
  | .punctuation => c.seesAny ["(", "!", "~"] || (predefined && c.seesAny ["-", "+"])
  | .endOfFile => false
  | _ => true

def cast : Parser Node := fun c =>
  let predefined := isPredefinedType (c.nth 1) && c.seesAt 2 ")"
  build .castExpression (mark "(" ++ one g.type ++ mark ")"
    ++ check (castOperandFollows predefined) "cast operand" ++ one g.operand) c

/-- A unary expression. -/
def unary : Parser Node := fun c =>
  let plain := grow (primarySuffix g) (primary g)
  if c.seesAny ["!", "-", "+", "~", "++", "--", "^", "&", "*"] then
    build .prefixUnaryExpression (token ++ one g.operand) c
  else if atAwait c then build .awaitExpression (token ++ one g.operand) c
  else if c.sees "throw" then build .throwExpression (token ++ one g.expression) c
  else if c.sees "(" then orElse (cast g) plain c
  else plain c

/-- The precedence of `??`, the loosest operator and the one that groups to the right. -/
def coalescing : Nat := 1

/-- The precedence of the comparisons, and of `is` and `as`. -/
def relational : Nat := 8

/-- The precedence of the binary operator at the cursor, and how many tokens it takes. Two closing
    angle brackets without anything between them are a shift; before an equals sign they assign. -/
def binaryOperator? (c : Cursor) : Option (Nat × Nat) :=
  let table : List (List String × Nat) :=
    [(["??"], coalescing), (["||"], 2), (["&&"], 3), (["|"], 4), (["^"], 5), (["&"], 6),
      (["==", "!="], 7), (["<", "<=", ">="], relational), (["<<"], 9), (["+", "-"], 10),
      (["*", "/", "%"], 11), ([".."], 12), (["is", "as"], relational)]
  if c.sees ">" then
    if c.current.adjacent (c.nth 1) && c.seesAt 1 ">=" then none
    else if c.current.adjacent (c.nth 1) && c.seesAt 1 ">" then some (9, 2)
    else some (relational, 1)
  else (table.find? fun (texts, _) => c.seesAny texts).map fun (_, precedence) => (precedence, 1)

/-- True before a word that joins two patterns. -/
def atPatternJoin (c : Cursor) : Bool :=
  c.current.isName "and" || c.current.isName "or"

/-- A pattern without joining words, as its parts. -/
def simplePattern : Piece :=
  let typePattern := (typeOf g).followedBy (fun c => !c.seesAny ["(", "."]) "type pattern"
  let core : Piece := fun c =>
    if c.atBracket then one rawGroup c
    else if c.seesAny ["<", "<=", ">", ">="] then (token ++ one g.operand) c
    else orElse (one typePattern) (one g.operand) c
  repeatWhile (fun c => c.current.isName "not") token ++ core
    ++ whenAt (sees Token.openBrace) (one rawGroup)
    ++ whenAt (fun c => c.atName && !atPatternJoin c && !c.sees "when") token

/-- At most `bound` joined patterns after the first. -/
def morePatterns : (bound : Nat) → Piece
  | 0 => given []
  | bound + 1 => whenAt atPatternJoin (token ++ simplePattern g ++ morePatterns bound)

/-- The pattern after `is`, as its parts. -/
def pattern : Piece := fun c =>
  (simplePattern g ++ morePatterns g (c.ahead.length + 1)) c

/-- What follows the left operand of an operator with this text and precedence. -/
def rightOperand (operator : String) (precedence : Nat) : Piece :=
  if operator == "is" then pattern g
  else if operator == "as" then one (typeOf g)
  else one (g.binary (if precedence = coalescing then precedence else precedence + 1))

/-- A chain of binary operators of at least the given precedence. -/
def binaryOf (least : Nat) : Parser Node :=
  grow (fun c =>
    match binaryOperator? c with
    | none => none
    | some (precedence, width) =>
      if precedence < least then none
      else some (.binaryExpression, take width ++ rightOperand g c.current.text precedence))
    (unary g)

def conditional : Parser Node :=
  growOnce (fun c =>
    if c.sees "?" then
      some (.conditionalExpression, token ++ one g.expression ++ mark ":" ++ one g.expression)
    else none) (binaryOf g coalescing)

/-- How many tokens the assignment operator at the cursor takes. -/
def assignmentWidth? (c : Cursor) : Option Nat :=
  if c.seesAny ["=", "+=", "-=", "*=", "/=", "%=", "&=", "|=", "^=", "<<=", "??="] then some 1
  else if c.sees ">" && c.seesAt 1 ">=" && c.current.adjacent (c.nth 1) then some 2
  else none

def assignment : Parser Node :=
  growOnce (fun c => (assignmentWidth? c).map fun width =>
    (.assignmentExpression, take width ++ value g)) (conditional g)

/-- An expression. -/
def expressionOf : Parser Node := fun c =>
  match lambdaHead? c with
  | some head => lambda g head c
  | none => assignment g c

end Recast.Grammar
