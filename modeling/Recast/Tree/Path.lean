-- SUMMARY: Paths, the child indices from the root of a tree to a node.

/-! # Paths

A path addresses a node by the child indices that lead to it from the root. It is meaningful for
the tree it was computed on; after an edit a node is found again by a tag or by its span. -/

namespace Recast

/-- Child indices from the root to a node. -/
abbrev Path := List Nat

namespace Path

/-- The path of the parent; the root has none. -/
def parent? : Path → Option Path
  | [] => none
  | i :: p => some (i :: p).dropLast

/-- The index in the parent; the root has none. -/
def index? (p : Path) : Option Nat :=
  p.getLast?

/-- The path of a child. -/
def child (p : Path) (index : Nat) : Path :=
  p ++ [index]

/-- True when `p` is a proper beginning of `q`. -/
def isAncestorOf (p q : Path) : Bool :=
  decide (p.length < q.length) && p.isPrefixOf q

/-- The path as written in messages. -/
def render : Path → String
  | [] => "/"
  | p => p.foldl (fun out i => s!"{out}/{i}") ""

end Path

end Recast
