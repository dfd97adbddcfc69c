-- SUMMARY: Edits of method headers: the `async` and `public` modifiers and the return type.
import Recast.Edit.Error
import Recast.Grammar.Fragment
import Recast.Plan.Record
import Recast.Settings

/-! # Method headers

A header is changed in two steps. The modifiers get `public` in front, in place of any narrower
access, and the keyword of asynchronous methods at the end. Then the return type is wrapped. The
trivia in front of the method stays in front of it. -/

namespace Recast.Edit

/-! ## Modifiers -/

/-- The modifiers that say who may use a member. -/
def accessModifiers : List String :=
  ["public", "private", "protected", "internal"]

/-- The modifiers with `public` in front and no other access modifier. -/
def publicFirst (modifiers : List Token) : List Token :=
  let others := modifiers.filter fun t => !accessModifiers.contains t.text
  { Token.ofKeyword "public" [Trivia.space] with
    leading := (modifiers.head?.map Token.leading).getD [] }
    :: others.map fun t => { t with leading := [] }

/-- The modifiers of a method after a change. -/
def changedModifiers (settings : Settings) (change : SignatureChange) (modifiers : List Token) :
    List Token :=
  let modifiers :=
    if change.makePublic && !modifiers.any (·.is "public") then publicFirst modifiers
    else modifiers
  if change.addAsync && !modifiers.any (·.is settings.asyncKeyword) then
    modifiers ++ [Token.ofKeyword settings.asyncKeyword [Trivia.space]]
  else modifiers

/-- A run of tokens with other trivia in front. -/
def withLeadingTrivia (trivia : List Trivia) : List Token → List Token
  | [] => []
  | t :: ts => { t with leading := trivia } :: ts

/-- The parts of a method with other modifiers. When there were none, the trivia in front of the
    method hangs on the return type and moves to the first modifier. -/
def replaceModifiers (index : Nat) (old new : List Token) (children : List Element) :
    List Element :=
  let moves := old.isEmpty && !new.isEmpty
  let type? := children[index + 1]?.bind Element.node?
  let new := if moves then withLeadingTrivia ((type?.map Node.leading).getD []) new else new
  let children :=
    match moves, type? with
    | true, some type => children.set (index + 1) (.node (type.withLeading []))
    | _, _ => children
  children.set index (.node (Node.ofChildren .modifiers (new.map .token)))

/-! ## Return types -/

/-- The text of a return type after a change, when it changes. -/
def changedReturnType? (settings : Settings) (type : String) : ReturnEdit → Option String
  | .keep => none
  | .voidToWrapper => if type == "void" then some settings.wrapper else none
  | .wrap _ =>
    if settings.isWrapped type || type == "void" then none else some s!"{settings.wrapper}<{type}>"
  | .valueWrapperToWrapper =>
    ((Text.after? settings.valueWrapper type).filter fun rest =>
      rest.isEmpty || Text.startsWith rest "<").map (settings.wrapper ++ ·)

/-- The return type that a text stands for. -/
def returnTypeOf (text : String) : Except EditError Node :=
  reading "parsing return type" text (Fragment.readType text)

/-- The parts of a method with another return type at an index. -/
def setReturnType (index : Nat) (make : Node → Except EditError (Option Node))
    (children : List Element) : Except EditError (List Element) :=
  match children[index]?.bind Element.node? with
  | none => .error .noReturnType
  | some current => do
    match ← make current with
    | none => return children
    | some type => return children.set index (.node (type.withTriviaOf current))

/-! ## Headers -/

/-- A method with its header changed. -/
def changeHeader (settings : Settings) (change : SignatureChange) (method : Node) :
    Except EditError Node := do
  let some index := method.indexOf? .modifiers | throw .noModifiers
  let old := ((method.children[index]?.bind Element.node?).map Node.childTokens).getD []
  let new := changedModifiers settings change old
  let children ← setReturnType (index + 1)
    (fun current => (changedReturnType? settings current.text change.returnType).mapM returnTypeOf)
    (replaceModifiers index old new method.children)
  return method.withChildren children

/-- The header of a method changes. -/
def changeSignature (settings : Settings) (change : SignatureChange) (s : Site) :
    Except EditError Tree := do
  requireKind s (· == .methodDeclaration) "a method"
  if change.isNoop then return s.tree
  s.tree.tryUpdate .tree s.path (changeHeader settings change)

end Recast.Edit
