-- SUMMARY: Edits of the imports of a file: directives are removed by namespace and added after the last one.
import Recast.Edit.Error
import Recast.Grammar.Fragment
import Recast.Plan.Failure
import Recast.Plan.Import

/-! # Imports

Removal comes first. A removed directive leaves comments and directives that stand above it to
what follows. A namespace that is not imported then gets a directive after the last one of the
file, or of the first namespace that has any, or on top of the file. -/

namespace Recast

namespace Node

/-- The namespace or type that an import names, without alias and modifiers. -/
def importedName? (directive : Node) : Option String :=
  directive.childNodes.head?.map Node.text

end Node

/-- All import directives in document order. -/
def Tree.imports (t : Tree) : List Site :=
  t.sites.filter fun s => s.kind == .usingDirective

namespace Edit

/-! ## Removal -/

/-- The tree without one import directive. -/
def removeImport (s : Site) : Except TreeError Tree :=
  s.tree.remove s.path (if Trivia.hasRemark s.node.leading then .keepLeading else .dropTrivia)

/-- The tree without the imports that a change removes, at most `bound` of them. -/
def removeImports (delta : ImportDelta) : (bound : Nat) → Tree → Tree
  | 0, t => t
  | bound + 1, t =>
    let removed (s : Site) : Bool := (s.node.importedName?.map delta.removes).getD false
    match t.imports.find? removed with
    | none => t
    | some s =>
      match removeImport s with
      | .ok next => removeImports delta bound next
      | .error _ => t

/-! ## Addition -/

/-- The directive that imports a namespace. -/
def importDirective (space : String) : Except EditError Node :=
  match Fragment.readName space with
  | .error cause => .error (.notNamespace space cause)
  | .ok name =>
    .ok <| Node.ofChildren .usingDirective [.token (Token.ofKeyword "using" [Trivia.space]),
      .node name, .token (Token.ofMark ";" [Trivia.newline])]

/-- The last import of the file itself, or else of the first namespace that has any. -/
def lastImport? (t : Tree) : Option Site :=
  let all := t.imports
  match (all.filter fun s => s.path.length == 1).getLast? with
  | some s => some s
  | none => all.head?.bind fun first =>
      (all.filter fun s => s.path.parent? == first.path.parent?).getLast?

/-- The trivia in front of a file that gets its first import, as what stays on top and what
    follows the import. Lines with a comment or directive stay on top; a blank line follows. -/
def splitHeader (leading : List Trivia) : List Trivia × List Trivia :=
  let rest := Trivia.lastLine leading
  let (header, rest) :=
    if Trivia.hasRemark leading then (leading.take (leading.length - rest.length), rest)
    else ([], leading)
  if (rest.head?.map Trivia.isLineEnd).getD false then (header, rest)
  else (header, Trivia.newline :: rest)

/-- The tree with one more import. -/
def addImport (t : Tree) (space : String) : Except EditError Tree := do
  let directive ← importDirective space
  match lastImport? t with
  | some last =>
    match last.path.parent?, last.path.index? with
    | some owner, some index =>
      let indent := Trivia.indentation last.node.leading
      onTree (t.insert owner (index + 1) [.node (directive.withLeading indent)])
    | _, _ => onTop directive
  | none => onTop directive
where
  /-- The import in front of everything else in the file. -/
  onTop (directive : Node) : Except EditError Tree :=
    let (header, rest) := splitHeader t.root.leading
    onTree ((t.withRoot (t.root.withLeading rest)).insert [] 0 [.node (directive.withLeading header)])

/-- The tree with a namespace imported, and the failures so far with one more when it cannot be. -/
def requireImport (state : Tree × List Failure) (space : String) : Tree × List Failure :=
  let (t, failures) := state
  if t.imports.any fun s => s.node.importedName? == some space then (t, failures)
  else
    match addImport t space with
    | .ok next => (next, failures)
    | .error e => (t, failures ++ [⟨.importEdit, e.message, space⟩])

end Edit

namespace ImportDelta

/-- The tree with imports changed, and what could not be imported. -/
def apply (delta : ImportDelta) (t : Tree) : Tree × List Failure :=
  if delta.isEmpty then (t, [])
  else
    delta.added.foldl Edit.requireImport (Edit.removeImports delta t.imports.length t, [])

end ImportDelta

end Recast
