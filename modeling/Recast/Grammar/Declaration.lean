-- SUMMARY: The grammar of members, type declarations and statements; each falls back to a raw run of tokens when it is not understood.
import Recast.Grammar.Expression

/-! # Declarations and statements

A member is a type, a constructor, a method, a property or a field, after its attributes and
modifiers. A local function is a member in the place of a statement. A member or statement of any
other shape is kept as a raw run of tokens, so that one odd line does not spoil a file. -/

namespace Recast.Grammar

open Recast.Parser Recast.Cursor

variable (g : Grammar)

/-! ## Parts of declarations -/

def memberModifiers : List String :=
  ["public", "private", "protected", "internal", "static", "readonly", "sealed", "abstract",
    "virtual", "override", "extern", "unsafe", "new", "const", "volatile"]

/-- Modifiers that are ordinary names elsewhere. -/
def contextualModifiers : List String :=
  ["async", "partial", "required", "file"]

def typeParameters : Parser Node :=
  let item := build .typeParameter (attributeLists g ++ whenAt (seesAny ["in", "out"]) token ++ name)
  build .typeParameterList (mark "<" ++ commaList (one item) ++ mark ">")

/-- The types that a type derives from, after a colon. -/
def baseList : Parser Node :=
  let item := build .baseType (one g.type ++ whenAt (sees "(") (one (argumentList g)))
  build .baseList (mark ":" ++ commaList (one item))

/-- The constraints on type parameters, which the grammar does not look into. -/
def constraints : Parser Node :=
  build .constraintClauses (repeatWhile (fun c => !(c.seesAny [Token.openBrace, ";", "=>"] || c.atEnd))
    (ifAt (sees "(") (orElse group token) token))

def arrowClause : Parser Node :=
  build .arrowExpressionClause (mark "=>" ++ one g.expression)

/-- The body of a method: a block, an expression after an arrow, or nothing but a semicolon. -/
def memberBody : Piece :=
  ifAt (sees Token.openBrace) (one (block g))
    (ifAt (sees "=>") (one (arrowClause g) ++ mark ";") (mark ";"))

/-- A declared variable after its name. -/
def declaratorAfter (head : List Element) : Parser Node :=
  build .variableDeclarator (given head ++ whenAt (sees "[") (one (bracketedArguments g))
    ++ whenAt (sees "=") (one (equalsValue g)))

/-- A declared variable: its name, and what it starts as. -/
def declarator : Parser Node := do
  declaratorAfter g (← name)

/-- Variables of one type. -/
def variableDeclaration : Parser Node :=
  build .variableDeclaration (one (typeOf g) ++ commaList (one (declarator g)))

/-- The interface that a member explicitly implements, in front of the member's name. -/
def explicitInterface : Piece :=
  whenAt (atNameThen ".")
    (one (build .explicitInterfaceSpecifier (repeatWhile (atNameThen ".") (token ++ token))))

/-! ## Members -/

/-- True before `record` used as a keyword. -/
def atRecord (c : Cursor) : Bool :=
  c.sees "record" && ((c.nth 1).kind == .identifier || c.seesAt 1 "class" || c.seesAt 1 "struct")

/-- The kind of type declaration that the cursor stands at. -/
def typeDeclarationKind? (c : Cursor) : Option Kind :=
  if c.sees "class" then some .classDeclaration
  else if c.sees "struct" then some .structDeclaration
  else if c.sees "interface" then some .interfaceDeclaration
  else if atRecord c then some .recordDeclaration
  else none

/-- The body of a type, or a semicolon in its place. -/
def typeBody : Piece :=
  ifAt (sees ";") token (mark Token.openBrace ++ repeatWhile (fun c => !c.atBodyEnd) (one g.member)
    ++ mark Token.closeBrace ++ whenAt (sees ";") token)

/-- A type declaration after its attributes and modifiers. -/
def typeDeclaration (kind : Kind) (head : List Element) : Parser Node :=
  let isRecord := kind == .recordDeclaration
  build kind (given head ++ token
    ++ whenAt (fun c => isRecord && c.seesAny ["class", "struct"]) token
    ++ name ++ whenAt (sees "<") (one (typeParameters g))
    ++ whenAt (sees "(") (one (parameterList g)) ++ whenAt (sees ":") (one (baseList g))
    ++ whenAt (sees "where") (one constraints) ++ typeBody g)

def enumDeclaration (head : List Element) : Parser Node :=
  build .enumDeclaration (given head ++ mark "enum" ++ name
    ++ whenAt (sees ":") (one (baseList g))
    ++ check (sees Token.openBrace) "'\x7b'" ++ one rawGroup ++ whenAt (sees ";") token)

/-- The call of another constructor. -/
def constructorInitializer : Parser Node :=
  build .constructorInitializer (token ++ check (seesAny ["base", "this"]) "'base' or 'this'"
    ++ token ++ one (argumentList g))

/-- A constructor or finalizer after its attributes and modifiers. -/
def constructorDeclaration (head : List Element) : Parser Node :=
  build .constructorDeclaration (given head ++ whenAt (sees "~") token ++ name
    ++ one (parameterList g) ++ whenAt (sees ":") (one (constructorInitializer g)) ++ memberBody g)

/-- A method after its name. -/
def methodDeclaration (head : List Element) : Parser Node :=
  build .methodDeclaration (given head ++ whenAt (sees "<") (one (typeParameters g))
    ++ one (parameterList g) ++ whenAt (sees "where") (one constraints) ++ memberBody g)

/-- A property after its name. -/
def propertyDeclaration (head : List Element) : Parser Node :=
  build .propertyDeclaration (given head
    ++ ifAt (sees "=>") (one (arrowClause g) ++ mark ";")
      (one (build .accessorList group) ++ whenAt (sees "=") (one (equalsValue g) ++ mark ";")))

/-- Fields of one type, after the name of the first. -/
def fieldDeclaration (head : List Element) (type : Node) (first : List Element) : Parser Node :=
  let declaration := build .variableDeclaration (given [.node type] ++ one (declaratorAfter g first)
    ++ repeatWhile (sees ",") (token ++ one (declarator g)))
  build .fieldDeclaration (given head ++ one declaration ++ mark ";")

/-- A member that starts with a type, after its attributes and modifiers. -/
def typedMember (head : List Element) : Parser Node := do
  let type ← typeOf g
  let qualifier ← explicitInterface
  if (← get).seesAny ["this", "operator"] then fail "member name"
  else
    let own ← name
    let c ← get
    let whole := head ++ [.node type] ++ qualifier ++ own
    if c.seesAny ["(", "<"] then methodDeclaration g whole
    else if c.seesAny [Token.openBrace, "=>"] then propertyDeclaration g whole
    else if !qualifier.isEmpty then fail "method or property"
    else fieldDeclaration g head type own

/-- A member of a known shape. -/
def knownMember : Parser Node := do
  let head ← attributeLists g ++ one (modifiers memberModifiers contextualModifiers)
  let c ← get
  match typeDeclarationKind? c with
  | some kind => typeDeclaration g kind head
  | none =>
    if c.sees "enum" then enumDeclaration g head
    else if c.seesAny ["delegate", "event", "implicit", "explicit", "operator"] then fail "member"
    else if c.sees "~" || c.atNameThen "(" then constructorDeclaration g head
    else typedMember g head

/-- A member, raw when its shape is not known. -/
def memberOf : Parser Node :=
  recover (knownMember g) (rawRun .rawMember)

/-! ## Statements -/

/-- The modifiers of local functions. -/
def localModifiers : List String :=
  ["async", "static", "unsafe", "extern"]

/-- The tokens after the modifiers of a local function. -/
def dropLocalModifiers : List Token → List Token
  | t :: u :: ts =>
    if t.isWord && localModifiers.contains t.text && u.isWord then dropLocalModifiers (u :: ts)
    else t :: u :: ts
  | ts => ts

/-- True before a local function. -/
def atLocalFunction (c : Cursor) : Bool :=
  let start := { c with ahead := dropLocalModifiers c.ahead }
  !atAwait c && !start.sees "await" && (typeOf g).leadsTo (atNameThen "(") start

/-- True before a declaration of local variables. -/
def atLocalDeclaration (c : Cursor) : Bool :=
  !atAwait c && (typeOf g).leadsTo (fun d =>
    d.atName && (d.seesAt 1 "=" || d.seesAt 1 ";" || d.seesAt 1 "," || d.seesAt 1 ")")) c

/-- A condition in parentheses. -/
def condition : Piece :=
  mark "(" ++ one g.expression ++ mark ")"

/-- A group in parentheses that the grammar does not look into. -/
def rawParentheses : Piece :=
  check (sees "(") "'('" ++ one rawGroup

def ifStatement : Parser Node :=
  let otherwise := build .elseClause (token ++ one g.statement)
  build .ifStatement (mark "if" ++ condition g ++ one g.statement
    ++ whenAt (sees "else") (one otherwise))

def whileStatement : Parser Node :=
  build .whileStatement (token ++ condition g ++ one g.statement)

def doStatement : Parser Node :=
  build .doStatement (token ++ one g.statement ++ mark "while" ++ condition g ++ mark ";")

def forStatement : Parser Node :=
  build .forStatement (token ++ rawParentheses ++ one g.statement)

/-- A loop over a sequence, after `lead` tokens in front of its keyword. -/
def forEachStatement (lead : Nat) : Parser Node :=
  let header := mark "(" ++ one g.type ++ name ++ mark "in" ++ one g.expression ++ mark ")"
  build .forEachStatement (take lead ++ mark "foreach" ++ orElse header rawParentheses
    ++ one g.statement)

def catchClause : Parser Node :=
  let declaration := build .catchDeclaration
    (token ++ one g.type ++ whenAt atName token ++ mark ")")
  let filter := build .catchFilter (token ++ condition g)
  build .catchClause (token ++ whenAt (sees "(") (one declaration)
    ++ whenAt (fun c => c.current.isName "when") (one filter) ++ one (block g))

def tryStatement : Parser Node :=
  build .tryStatement (mark "try" ++ one (block g) ++ repeatWhile (sees "catch") (one (catchClause g))
    ++ whenAt (sees "finally") (one (build .finallyClause (token ++ one (block g)))))

/-- True before a label of a switch statement. -/
def atSwitchLabel (c : Cursor) : Bool :=
  c.sees "case" || (c.sees "default" && c.seesAt 1 ":")

/-- A label of a switch statement; its pattern is not looked into. -/
def switchLabel : Parser Node :=
  let part := ifAt atBodyEnd (fail "':'") (ifAt atBracket group token)
  build .rawTokens (token ++ repeatWhile (fun c => !c.sees ":") part ++ token)

def switchSection : Parser Node :=
  build .switchSection (check atSwitchLabel "'case' or 'default'"
    ++ repeatWhile atSwitchLabel (one switchLabel)
    ++ repeatWhile (fun c => !c.atBodyEnd && !atSwitchLabel c) (one g.statement))

def switchStatement : Parser Node :=
  build .switchStatement (mark "switch" ++ condition g ++ mark Token.openBrace
    ++ repeatWhile (fun c => !c.atBodyEnd) (one (switchSection g)) ++ mark Token.closeBrace)

/-- A statement that leaves the method, perhaps with a value. -/
def exitStatement (kind : Kind) : Parser Node :=
  build kind (token ++ whenAt (fun c => !c.sees ";") (one g.expression) ++ mark ";")

def jumpStatement : Parser Node :=
  build .jumpStatement (repeatWhile (fun c => !(c.sees ";" || c.atEnd)) token ++ mark ";")

def yieldStatement : Parser Node :=
  build .yieldStatement (token ++ ifAt (sees "return") (token ++ one g.expression) token ++ mark ";")

/-- A local declaration after `lead` tokens in front of its type. -/
def localDeclaration (lead : Nat) : Parser Node :=
  build .localDeclarationStatement (take lead ++ one (variableDeclaration g) ++ mark ";")

/-- A `using` statement with a group in parentheses, or a `using` declaration; `lead` tokens stand
    in front of the keyword. -/
def usingStatement (lead : Nat) : Parser Node :=
  let resource := ifAt (atLocalDeclaration g) (one (variableDeclaration g)) (one g.expression)
  ifAt (seesAt (lead + 1) "(")
    (build .parenthesizedStatement (take (lead + 2) ++ resource ++ mark ")" ++ one g.statement))
    (localDeclaration g (lead + 1))

/-- A declaration or an expression. -/
def plainStatement : Parser Node := fun c =>
  if atLocalFunction g c then memberOf g c
  else if atLocalDeclaration g c then localDeclaration g 0 c
  else build .expressionStatement (one (expressionOf g) ++ mark ";") c

/-- A statement of a known shape. -/
def knownStatement : Parser Node := fun c =>
  if c.sees Token.openBrace then block g c
  else if c.sees ";" then build .emptyStatement token c
  else if c.sees "if" then ifStatement g c
  else if c.sees "while" then whileStatement g c
  else if c.sees "do" then doStatement g c
  else if c.sees "for" then forStatement g c
  else if c.sees "foreach" then forEachStatement g 0 c
  else if c.sees "try" then tryStatement g c
  else if c.sees "switch" then switchStatement g c
  else if c.sees "return" then exitStatement g .returnStatement c
  else if c.sees "throw" then exitStatement g .throwStatement c
  else if c.seesAny ["break", "continue", "goto"] then jumpStatement c
  else if c.sees "yield" && (c.seesAt 1 "return" || c.seesAt 1 "break") then yieldStatement g c
  else if c.seesAny ["lock", "fixed"] then
    build .parenthesizedStatement (token ++ rawParentheses ++ one g.statement) c
  else if c.sees "using" then usingStatement g 0 c
  else if c.sees "await" && c.seesAt 1 "using" then usingStatement g 1 c
  else if c.sees "await" && c.seesAt 1 "foreach" then forEachStatement g 1 c
  else if c.seesAny ["checked", "unchecked", "unsafe"] && c.seesAt 1 Token.openBrace then
    build .checkedStatement (token ++ one (block g)) c
  else if c.sees "const" then localDeclaration g 1 c
  else plainStatement g c

/-- A statement, raw when its shape is not known. -/
def statementOf : Parser Node :=
  recover (knownStatement g) (rawRun .rawStatement)

/-! ## Files and namespaces -/

def usingDirective : Parser Node :=
  build .usingDirective (whenAt (sees "global") token ++ mark "using"
    ++ whenAt (sees "static") token ++ whenAt (atNameThen "=") (token ++ token)
    ++ one (typeOf g) ++ mark ";")

/-- A namespace in braces, or one that lasts to the end of the file. -/
def namespaceDeclaration : Parser Node := do
  let head ← mark "namespace" ++ one (typeName g)
  if (← get).sees ";" then
    build .fileScopedNamespaceDeclaration (given head ++ token
      ++ repeatWhile (fun c => !c.atEnd) (one g.scopeMember))
  else
    build .namespaceDeclaration (given head ++ mark Token.openBrace
      ++ repeatWhile (fun c => !c.atBodyEnd) (one g.scopeMember) ++ mark Token.closeBrace
      ++ whenAt (sees ";") token)

/-- True before an attribute list of the whole assembly or module. -/
def atGlobalAttribute (c : Cursor) : Bool :=
  c.sees "[" && (c.nth 1).isWord && c.seesAt 2 ":" &&
    ((c.nth 1).text == "assembly" || (c.nth 1).text == "module")

/-- What may stand in a file or a namespace. -/
def scopeMemberOf : Parser Node := fun c =>
  if c.sees "using" || (c.sees "global" && c.seesAt 1 "using") then usingDirective g c
  else if c.sees "namespace" then namespaceDeclaration g c
  else if atGlobalAttribute c then attributeList g c
  else memberOf g c

/-- A whole file; its last part is the token that ends the text. -/
def compilationUnit : Parser Node :=
  build .compilationUnit (repeatWhile (fun c => !c.atEnd) (one g.scopeMember) ++ token)

end Recast.Grammar
