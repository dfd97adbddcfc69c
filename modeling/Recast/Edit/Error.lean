-- SUMMARY: Why an edit cannot be carried out, in what words, and the checks that all edits share.
import Recast.Tree.Edit

/-! # Refused edits

An edit carries out one record at the site of its node. It may refuse: the node has the wrong
kind or stands in the wrong place, a part is missing, or text that it was given cannot be read.
A refused edit changes nothing. -/

namespace Recast

/-- Why an edit is not carried out. -/
inductive EditError where
  /-- The node has another kind than the edit is for. -/
  | wrongKind (wanted : String) (found : Kind)
  /-- The node does not stand in a node of the kind that lists it. -/
  | outside (kind owner : Kind)
  /-- The root has no place among siblings. -/
  | root
  /-- The text that the edit is made of cannot be read. -/
  | unreadable (doing text : String) (cause : ParseError)
  /-- An import is asked for that names no namespace. -/
  | notNamespace (text : String) (cause : ParseError)
  /-- A container is created without rows to take over. -/
  | noInitializer
  /-- The array that is to take the rows has no place for them. -/
  | noArrayInitializer
  | noStatements
  | noModifiers
  | noReturnType
  | noTypeName
  /-- The part after which a base list belongs holds no token. -/
  | emptyPart
  /-- The tree refuses. -/
  | tree (cause : TreeError)
  deriving DecidableEq, Repr

/-- The wording of a refused edit. -/
def EditError.message : EditError → String
  | .wrongKind wanted found => s!"expected {wanted}, found {found.name}"
  | .outside kind owner => s!"{kind.name} is not inside a {owner.name}"
  | .root => "the root cannot be edited in place"
  | .unreadable doing text cause => s!"{doing} `{text}`: {cause.message}"
  | .notNamespace text cause => s!"`{text}` is not a namespace name: {cause.message}"
  | .noInitializer => "creation has no initializer"
  | .noArrayInitializer => "array creation without initializer"
  | .noStatements => "capture produced no statements"
  | .noModifiers => "method has no modifier list"
  | .noReturnType => "method has no return type"
  | .noTypeName => "type declaration has no name"
  | .emptyPart => "type declaration has an empty part"
  | .tree cause => cause.message

namespace Edit

/-- A reading of given text; `doing` says what the text is for when it cannot be read. -/
def reading {α : Type} (doing text : String) (result : Except ParseError α) : Except EditError α :=
  result.mapError (.unreadable doing text)

/-- The outcome of an operation on the tree. -/
def onTree (result : Except TreeError Tree) : Except EditError Tree :=
  result.mapError .tree

/-- Refuses a site of the wrong kind. -/
def requireKind (s : Site) (accept : Kind → Bool) (wanted : String) : Except EditError Unit :=
  if accept s.kind then .ok () else .error (.wrongKind wanted s.kind)

/-- The parent of a site, which has to have a kind. -/
def parentOf (s : Site) (kind : Kind) : Except EditError Site :=
  match s.parent?.filter fun p => p.kind == kind with
  | some parent => .ok parent
  | none => .error (.outside s.kind kind)

/-- The node put in the place of a site, with the trivia that stands there. -/
def replaceAt (s : Site) (replacement : Node) : Except EditError Tree :=
  onTree (s.tree.replace s.path (replacement.withTriviaOf s.node))

end Edit

end Recast
