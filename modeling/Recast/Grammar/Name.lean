-- SUMMARY: The record of recursive entry points of the grammar, and the grammar of names and types.
import Recast.Grammar.Cursor

/-! # Names and types

The constructs of the language nest in each other. A production gets the entry points that it
needs again from a `Grammar`, and uses them only after it has taken a token. So a grammar whose
own nesting is bounded by the number of tokens reads as much as one without a bound. -/

namespace Recast

/-- The constructs that occur inside themselves. -/
structure Grammar where
  type : Parser Node
  expression : Parser Node
  /-- An operand of a binary operator: a unary expression. -/
  operand : Parser Node
  /-- A chain of binary operators that bind at least as tightly as the given precedence. -/
  binary : Nat → Parser Node
  initializer : Parser Node
  statement : Parser Node
  member : Parser Node
  /-- What may stand in a file or a namespace. -/
  scopeMember : Parser Node

namespace Grammar

open Recast.Parser Recast.Cursor

/-- The types that have a keyword. -/
def predefinedTypes : List String :=
  ["bool", "byte", "sbyte", "char", "decimal", "double", "float", "int", "uint", "long",
    "ulong", "object", "short", "ushort", "string", "void"]

def isPredefinedType (t : Token) : Bool :=
  t.kind == .keyword && predefinedTypes.contains t.text

/-- What may follow a list of type arguments in an expression. Before anything else an angle
    bracket is a comparison. -/
def genericFollowers : List String :=
  ["(", ")", "]", Token.closeBrace, ":", ";", ",", ".", "?", "?.", "==", "!=", "|", "^", "&&",
    "||", "&", "[", "=>", Token.openBrace]

variable (g : Grammar)

/-- Type arguments, any of which may be left out as in `<,>`. -/
def typeArguments : Parser Node :=
  let argument := whenAt (fun c => !c.seesAny [",", ">"]) (one g.type)
  build .typeArgumentList (mark "<" ++ commaList argument ++ mark ">")

/-- An identifier, with type arguments where an angle bracket follows. -/
def simpleTypeName : Parser Node :=
  ifAt (seesAt 1 "<") (build .genericName (name ++ one (typeArguments g)))
    (build .identifierName name)

/-- A simple, generic, qualified or alias-qualified name. -/
def typeName : Parser Node :=
  let first := ifAt (atNameThen "::")
    (build .aliasQualifiedName (token ++ token ++ one (simpleTypeName g))) (simpleTypeName g)
  grow (fun c =>
    if c.sees "." && (c.nth 1).kind == .identifier then
      some (.qualifiedName, token ++ one (simpleTypeName g))
    else none) first

/-- A tuple type; its elements may be named. -/
def tupleType : Parser Node :=
  let element := one (build .tupleElement (one g.type ++ whenAt atName token))
  build .tupleType (mark "(" ++ commaList element ++ mark ")")

/-- True before the empty brackets of an array type. -/
def atRank (c : Cursor) : Bool :=
  c.sees "[" && (c.seesAt 1 "]" || c.seesAt 1 ",")

def rank : Parser Node :=
  build .arrayRankSpecifier (token ++ repeatWhile (sees ",") token ++ mark "]")

/-- What may follow a type and is part of it. -/
def typeSuffix : Extension := fun c =>
  if c.sees "?" then some (.nullableType, token)
  else if atRank c then some (.arrayType, repeatWhile atRank (one rank))
  else none

/-- A type. -/
def typeOf : Parser Node :=
  grow typeSuffix fun c =>
    if c.sees "(" then tupleType g c
    else if isPredefinedType c.current then build .predefinedType token c
    else typeName g c

/-- An identifier in an expression, with type arguments where what follows them allows it. -/
def simpleName : Parser Node :=
  let follows (c : Cursor) := c.current.kind == .endOfFile || c.seesAny genericFollowers
  orElse ((build .genericName (name ++ one (typeArguments g))).followedBy follows "generic name")
    (build .identifierName name)

end Grammar

end Recast
