-- SUMMARY: Edits of markers: attributes get another name, and methods and types get new ones.
import Recast.Edit.Signature
import Recast.View.Basic

/-! # Markers

A marker is an attribute that a test framework knows. A changed marker keeps its place; what
comes beside it goes into lists of their own below. A new marker of a declaration stands on a
line of its own, indented as the declaration is. -/

namespace Recast.Edit

/-- The attribute list that a marker stands in alone. -/
def markerList (marker : String) : Except EditError Node :=
  reading "parsing marker" marker (Fragment.readAttributeList s!"[{marker}]")

/-! ## Changed markers -/

/-- A marker with another name, its arguments edited. -/
def renamed (name : String) (edit : ArgumentEdit) (s : Site) : Except EditError Node := do
  let some marker := View.Attribute.of? s.node | throw (.wrongKind "a marker" s.kind)
  let arguments :=
    match edit with
    | .keep => (marker.argumentList?.map Node.text).getD ""
    | .remove => ""
    | .replace text => text
  let code := name ++ arguments
  reading "parsing marker" code (Fragment.readAttribute code)

/-- The lists of the markers that come beside a changed one in a given list. Each goes on a line
    of its own when the given list does. -/
def companyOf (list : Node) (additional : List ExtraMarker) : Except EditError (List Node) :=
  additional.mapM fun extra => do
    let arguments := extra.arguments.getD ""
    let code := s!"[{extra.name}{arguments}]"
    let read ← reading "parsing marker" code (Fragment.readAttributeList code)
    if Trivia.hasLineEnd list.trailing then
      return (read.withLeading (Trivia.indentation list.leading)).withTrailing [Trivia.newline]
    else return read.withTrailing [Trivia.space]

/-- A marker changes. -/
def changeMarker (change : MarkerChange) (s : Site) : Except EditError Tree := do
  let replacement ← renamed change.name change.arguments s
  if change.additional.isEmpty then replaceAt s replacement
  else
    let list ← parentOf s .attributeList
    match list.path.parent?, list.path.index? with
    | some owner, some index =>
      let company ← companyOf list.node change.additional
      let tree ← replaceAt s replacement
      onTree (tree.insert owner (index + 1) (company.map .node))
    | _, _ => throw .root

/-- The marker of a parameter changes. -/
def changeParameterMarker (name : String) (edit : ArgumentEdit) (s : Site) :
    Except EditError Tree := do
  replaceAt s (← renamed name edit s)

/-! ## New markers -/

/-- A method with a marker list in front. Lists that it has follow on the next line. -/
def putMarker (list method : Node) : Node :=
  let lead := method.leading
  let indent := Trivia.indentation lead
  match method.children with
  | .node first :: rest =>
    if first.kind == .attributeList then
      method.withChildren <|
        .node ((list.withLeading lead).withTrailing [])
          :: .node (first.withLeading (Trivia.newline :: indent)) :: rest
    else onNewLine lead indent
  | _ => onNewLine lead indent
where
  /-- The list on a line of its own above the declaration. -/
  onNewLine (lead indent : List Trivia) : Node :=
    let below := method.withLeading indent
    below.withChildren <|
      .node ((list.withLeading lead).withTrailing [Trivia.newline]) :: below.children

/-- A method gets a marker and perhaps another return type. -/
def addMethodMarker (marker : String) (returnType : Option String) (s : Site) :
    Except EditError Tree := do
  requireKind s (· == .methodDeclaration) "a method"
  let list ← markerList marker
  let type? ← returnType.mapM returnTypeOf
  s.tree.tryUpdate .tree s.path fun method => do
    let marked := putMarker list method
    match type? with
    | none => return marked
    | some type =>
      let some index := marked.indexOf? .modifiers | throw .noModifiers
      return marked.withChildren
        (← setReturnType (index + 1) (fun _ => .ok (some type)) marked.children)

/-- A type declaration with a marker list after those that it has. -/
def putClassMarker (list declaration : Node) : Node :=
  let lead := declaration.leading
  let indent := Trivia.indentation lead
  let index := (declaration.children.findIdx? fun e => !e.isNode .attributeList).getD 0
  let below := if index = 0 then declaration.withLeading indent else declaration
  let list := list.withLeading (if index = 0 then lead else indent)
  below.withChildren <| below.children.take index
    ++ .node (list.withTrailing [Trivia.newline]) :: below.children.drop index

/-- A type gets a marker. -/
def addClassMarker (marker : String) (s : Site) : Except EditError Tree := do
  requireKind s Kind.isTypeDeclaration "a type declaration"
  let list ← markerList marker
  onTree (s.tree.update s.path (putClassMarker list))

end Recast.Edit
