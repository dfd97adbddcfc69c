-- SUMMARY: Trees and sites: a site is a node together with the tree and the path it stands at; ancestors, children and descendants of a site; nodes found by tag or by kind and span.
import Recast.Tree.Node
import Recast.Tree.Path

/-! # Trees and sites

A tree is a root node with a revision, which tells apart trees that look alike: two readings of
one text, or a tree before and after an edit. A site is a node that knows where it stands.

`Tree.sites` lists all nodes in document order. It keeps the sites still to be visited on a
stack, so that every node is visited once and before its children. -/

namespace Recast

namespace Node

/-- The node at a path below this one. -/
def at? : Path → Node → Option Node
  | [], n => some n
  | i :: p, n =>
    match n.children[i]? with
    | some (.node c) => at? p c
    | _ => none

end Node

mutual

/-- The first node in document order that is wanted, with its path from here. A child is entered
    only when `enters` allows it. -/
def Node.search? (wanted enters : Node → Bool) : Node → Option (Path × Node)
  | ⟨kind, children, span, tags⟩ =>
    if wanted ⟨kind, children, span, tags⟩ then some ([], ⟨kind, children, span, tags⟩)
    else Element.searchIn? wanted enters 0 children

/-- The first wanted node in a part. -/
def Element.search? (wanted enters : Node → Bool) : Element → Option (Path × Node)
  | .token _ => none
  | .node n => if enters n then n.search? wanted enters else none

/-- The first wanted node in a list of parts, the first of which has the given index. -/
def Element.searchIn? (wanted enters : Node → Bool) : Nat → List Element → Option (Path × Node)
  | _, [] => none
  | i, e :: es =>
    match e.search? wanted enters with
    | some (p, n) => some (i :: p, n)
    | none => Element.searchIn? wanted enters (i + 1) es

end

/-! ## Trees -/

/-- Which reading of a text a tree comes from, and how many edits lie between. -/
structure Revision where
  reading : Nat := 0
  edits : Nat := 0
  deriving DecidableEq, Repr

/-- A tree of nodes. -/
structure Tree where
  root : Node
  revision : Revision := {}

/-- A node together with the place where it stands. -/
structure Site where
  tree : Tree
  path : Path
  node : Node

namespace Site

def kind (s : Site) : Kind :=
  s.node.kind

def span (s : Site) : Option Span :=
  s.node.span

def text (s : Site) : String :=
  s.node.text

def identifier? (s : Site) : Option String :=
  s.node.identifier?

/-- The site at a path of the same tree. -/
def goto? (s : Site) (path : Path) : Option Site :=
  (s.tree.root.at? path).map fun node => { s with path, node }

def parent? (s : Site) : Option Site :=
  s.path.parent?.bind s.goto?

/-- The ancestors, nearest first. -/
def ancestors (s : Site) : List Site :=
  (List.range s.path.length).reverse.filterMap fun depth => s.goto? (s.path.take depth)

/-- The nearest ancestor whose kind is accepted. -/
def ancestorWhere? (s : Site) (accept : Kind → Bool) : Option Site :=
  s.ancestors.find? fun a => accept a.kind

/-- The nearest ancestor of a kind. -/
def ancestor? (s : Site) (kind : Kind) : Option Site :=
  s.ancestorWhere? (· == kind)

/-- The sites of the child nodes. -/
def children (s : Site) : List Site :=
  s.node.children.zipIdx.filterMap fun (e, i) =>
    e.node?.map fun node => { s with path := s.path.child i, node }

/-- The first child node. -/
def firstChild? (s : Site) : Option Site :=
  s.children.head?

/-- The first child node of a kind. -/
def child? (s : Site) (kind : Kind) : Option Site :=
  s.children.find? fun c => c.kind == kind

/-- The first child node that names a type. -/
def typeChild? (s : Site) : Option Site :=
  s.children.find? fun c => c.kind.isTypeName

/-- The sites on a stack and all below them, each before what it put on the stack. A visit takes
    one node from the stack's total, so that total bounds the visits. -/
def visit : (bound : Nat) → (stack : List Site) → List Site
  | 0, _ => []
  | _ + 1, [] => []
  | bound + 1, s :: stack => s :: visit bound (s.children ++ stack)

/-- The site and all below it in document order. -/
def selfAndDescendants (s : Site) : List Site :=
  visit s.node.size [s]

/-- All sites below this one in document order. -/
def descendants (s : Site) : List Site :=
  s.selfAndDescendants.tail

end Site

namespace Tree

/-- The site of the root. -/
def rootSite (t : Tree) : Site :=
  ⟨t, [], t.root⟩

/-- The site at a path. -/
def get? (t : Tree) (path : Path) : Option Site :=
  t.rootSite.goto? path

/-- All sites in document order, the root first. -/
def sites (t : Tree) : List Site :=
  t.rootSite.selfAndDescendants

/-- The tree in its source form. -/
def source (t : Tree) : String :=
  t.root.source

/-- The first site in document order that carries the tag. -/
def findTagged? (t : Tree) (tag : Tag) : Option Site :=
  (t.root.search? (·.hasTag tag) fun _ => true).map fun (path, node) => ⟨t, path, node⟩

/-- How many nodes carry the tag. -/
def countTagged (t : Tree) (tag : Tag) : Nat :=
  (t.sites.filter fun s => s.node.hasTag tag).length

/-- The first site in document order with the kind and span. A child whose span does not contain
    the one sought is not entered. -/
def findSpan? (t : Tree) (kind : Kind) (span : Span) : Option Site :=
  (t.root.search? (fun n => n.kind == kind && n.span == some span)
    fun c => (c.span.map (·.contains span)).getD true).map fun (path, node) => ⟨t, path, node⟩

end Tree

end Recast
