-- SUMMARY: Analysis: findings become the records of a plan, and a copy of the tree gets the tags that they refer to.
import Recast.Analysis.Finding
import Recast.Tree.Edit

/-! # Analysis

Analysis asks the rules about the tree as it was read and records the answers in a plan. The
nodes that records are about get tags in a working copy of the tree, which differs from the tree
in nothing else. A node of the tree is found again in the copy by its kind and span.

Tags are numbered in the order in which they are made, above all tags that the tree bears. A
method has at most one record of a changed header; further changes are merged into it. -/

namespace Recast

namespace Tree

/-- A number above those of all tags in a tree. -/
def freshTag (t : Tree) : Nat :=
  (t.sites.flatMap fun s => s.node.tags).foldl (fun n tag => max n (tag.id + 1)) 0

end Tree

/-- Why a node of the tree gets no tag in the working copy. -/
inductive AttachError where
  /-- The node holds no token and so has no span. -/
  | noSpan (kind : Kind)
  /-- The working copy has no such node. -/
  | notFound (kind : Kind) (span : Span)
  | tree (cause : TreeError)
  deriving DecidableEq, Repr

def AttachError.message : AttachError → String
  | .noSpan kind => s!"{kind.name} node has no source span"
  | .notFound kind span => s!"no {kind.name} at {span.render} in the working tree"
  | .tree cause => cause.message

/-! ## Drafts -/

/-- An analysis in the course of being made. -/
structure Draft where
  /-- The working copy. -/
  tree : Tree
  plan : Plan
  /-- The number of the next tag. -/
  next : Nat
  /-- The tags of the records of changed headers, by the spans of the methods. -/
  signatures : List (Span × Tag) := []

namespace Draft

/-- The working copy with a tag on the node of a kind and span. -/
def attachAt (t : Tree) (kind : Kind) (span : Span) (tag : Tag) : Except AttachError Tree :=
  match t.findSpan? kind span with
  | some target => (t.tag target.path tag).mapError .tree
  | none => .error (.notFound kind span)

/-- The working copy with a tag on the node that stands at a site of the tree. -/
def attach (t : Tree) (s : Site) (tag : Tag) : Except AttachError Tree :=
  match s.span with
  | some span => attachAt t s.kind span tag
  | none => .error (.noSpan s.kind)

/-- The draft with one more failure. -/
def fail (d : Draft) (topic : Topic) (s : Site) (description : String) : Draft :=
  { d with plan := d.plan.fail ⟨.analysis topic, description, s.text⟩ }

/-- The draft with one more record, whose tag has been put into the working copy `t`. -/
def keep (d : Draft) (t : Tree) (written : String) (change : Change) : Draft :=
  { d with tree := t, plan := d.plan.push ⟨⟨d.next⟩, written, change⟩, next := d.next + 1 }

/-- A change for the node at a site. -/
def record (d : Draft) (topic : Topic) (s : Site) (written : String) (change : Change) : Draft :=
  match attach d.tree s ⟨d.next⟩ with
  | .ok t => d.keep t written change
  | .error e => d.fail topic s e.message

/-! ## Method headers -/

/-- A record with a further change of the header that it is about. -/
def mergeInto (tag : Tag) (change : SignatureChange) (r : Record) : Record :=
  match r.change with
  | .signature first =>
    if r.tag = tag then { r with change := .signature (first.merge change) } else r
  | _ => r

/-- A change of a method header: merged into the record that the method has, or recorded. -/
def sign (d : Draft) (topic : Topic) (method : Site) (proposal : Proposal SignatureChange) :
    Draft :=
  match method.span with
  | none => d.fail topic method "method has no source span"
  | some span =>
    match d.signatures.lookup span with
    | some tag =>
      { d with plan := { d.plan with
          records := d.plan.records.map (mergeInto tag proposal.change) } }
    | none =>
      match attach d.tree method ⟨d.next⟩ with
      | .ok t =>
        { d.keep t proposal.written (.signature proposal.change) with
          signatures := d.signatures ++ [(span, ⟨d.next⟩)] }
      | .error e => d.fail topic method e.message

/-! ## Containers -/

/-- The declaration whose type a site is. -/
def declarationOf? (type : Site) : Option Site :=
  type.parent?.bind fun parent =>
    match parent.kind with
    | .variableDeclaration =>
      (parent.parent?.filter fun owner =>
        owner.kind == .fieldDeclaration || owner.kind == .localDeclarationStatement).map fun _ =>
          parent
    | .propertyDeclaration | .methodDeclaration => some parent
    | _ => none

/-- The value that a declaration starts with. -/
def initialValue? (declaration : Site) : Option Site :=
  let clause? : Option Site :=
    match declaration.kind with
    | .variableDeclaration =>
      (declaration.children.filter fun c => c.kind == .variableDeclarator).findSome? fun d =>
        d.child? .equalsValueClause
    | .propertyDeclaration => declaration.child? .equalsValueClause
    | _ => none
  clause?.bind Site.firstChild?

/-- The creation with rows in braces that a declaration starts with. -/
def creationOf? (declaration : Site) : Option Site :=
  (initialValue? declaration).filter fun value =>
    (value.kind == .objectCreationExpression || value.kind == .implicitObjectCreationExpression)
      && value.node.hasChild .initializerExpression

/-- The working copy with the tags of a container, and the change that names them: its own, then
    those of its declared type and of its creation, when there are such. -/
def attachContainer (t : Tree) (first : Nat) (s : Site) (proposal : ContainerProposal) :
    Except AttachError (Tree × ContainerChange) := do
  let declaration? := declarationOf? s
  let t ← attach t s ⟨first⟩
  let (t, typeTag) ← match declaration? with
    | some _ => pure (← attach t s ⟨first + 1⟩, some ⟨first + 1⟩)
    | none => pure (t, none)
  let (t, creationTag) ← match declaration?.bind creationOf? with
    | some creation => pure (← attach t creation ⟨first + 2⟩, some ⟨first + 2⟩)
    | none => pure (t, none)
  return (t, ⟨proposal.element, proposal.container, typeTag, creationTag⟩)

/-- A change of a container. -/
def reshape (d : Draft) (s : Site) (proposal : ContainerProposal) : Draft :=
  match attachContainer d.tree d.next s proposal with
  | .ok (t, change) => { d.keep t s.text (.container change) with next := d.next + 3 }
  | .error e => d.fail .container s s!"annotating {s.text}: {e.message}"

/-! ## Recording findings -/

/-- The draft with a finding recorded. -/
def add (d : Draft) : Finding → Draft
  | .failure failure => { d with plan := d.plan.fail failure }
  | .change topic target written change => d.record topic target written change
  | .signature topic method proposal => d.sign topic method proposal
  | .container target proposal => d.reshape target proposal
  | .methodMarker owner method proposal =>
    match attachAt d.tree .methodDeclaration method ⟨d.next⟩ with
    | .ok t =>
      d.keep t proposal.written (.methodMarker proposal.change.marker proposal.change.returnType)
    | .error e => d.fail .baseType owner e.message

/-- The draft with findings recorded one after the other. -/
def addAll (d : Draft) (findings : List Finding) : Draft :=
  findings.foldl add d

/-! ## Methods that await -/

/-- The method of a type around the node with a tag, by its span. -/
def methodAround? (t : Tree) (tag : Tag) : Option Span :=
  (((t.findTagged? tag).bind Site.function?).filter fun f =>
    f.kind == .methodDeclaration && !f.isLocalFunction).bind Site.span

/-- The methods that hold an assertion that awaits, each once. -/
def awaitingMethods (d : Draft) : List Span :=
  (d.plan.records.filterMap fun r =>
    if (r.change.assertion?.map AssertionChange.awaits).getD false then methodAround? d.tree r.tag
    else none).eraseDups

/-- What becomes of the header of a method that holds an assertion that awaits. -/
def asyncFinding? (settings : Settings) (fixed : InterfaceMethods) (t : Tree) (span : Span) :
    Option Finding := do
  let method ← t.findSpan? .methodDeclaration span
  let view ← View.Method.of? method.node
  if view.node.hasModifier settings.asyncKeyword || fixed.hasSite method then none
  else
    match asyncReturn settings view with
    | .ok returnType =>
      some (.signature .signature method ⟨method.header, { addAsync := true, returnType }⟩)
    | .error e => some (Finding.ofFailure .signature method e.message)

/-- The findings about methods that hold an assertion that awaits. -/
def asyncFindings (d : Draft) (settings : Settings) (fixed : InterfaceMethods) (t : Tree) :
    List Finding :=
  d.awaitingMethods.filterMap (asyncFinding? settings fixed t)

/-- The plan of a finished draft with the imports that it needs. -/
def withImports (d : Draft) (strategy : Strategy) : Draft :=
  match strategy.imports d.plan with
  | .ok imports => { d with plan := { d.plan with imports } }
  | .error e => { d with plan := d.plan.fail ⟨.analysis .imports, e.message, ""⟩ }

end Draft

/-! ## Analysis -/

/-- A plan, and the tree with the tags that it refers to. -/
structure Analysis where
  tree : Tree
  plan : Plan

namespace Strategy

/-- The analysis of a tree, in the order: what can be read off the tree, methods that have to
    become asynchronous, methods that have to become public, imports. -/
def analyze (strategy : Strategy) (cx : Context) (t : Tree) : Analysis :=
  let fixed := InterfaceMethods.ofTree cx.model t
  let start : Draft :=
    { tree := t
      plan := { source := strategy.source, target := strategy.target, failures := fixed.failures }
      next := t.freshTag }
  let found := start.addAll (strategy.findings cx fixed t)
  let async := found.addAll (found.asyncFindings cx.settings fixed t)
  let done := (async.addAll (strategy.visibilityFindings cx t)).withImports strategy
  ⟨done.tree, done.plan⟩

end Strategy

end Recast
