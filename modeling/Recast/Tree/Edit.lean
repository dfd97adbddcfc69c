-- SUMMARY: Edits of a tree at a path: replace, insert and remove nodes, remove an item of a comma-separated list, and change the token before or after a node.
import Recast.Tree.Site

/-! # Edits

An edit gives a new tree and leaves the old one as it was. Everything outside the place of the
edit is shared, so tags elsewhere survive. Seen as a list of tokens, an edit is a splice: a
replacement puts other tokens where those of the node stood, a removal drops them, and trivia may
move to the token before or after. -/

namespace Recast

/-- Why an edit is refused. -/
inductive TreeError where
  /-- No node stands at the path. -/
  | invalidPath (path : Path)
  /-- The root cannot go away. -/
  | removeRoot
  deriving DecidableEq, Repr

/-- The wording of a refused edit. -/
def TreeError.message : TreeError → String
  | .invalidPath path => s!"no node at path {path.render}"
  | .removeRoot => "the root node cannot be removed"

/-- What becomes of the trivia of a removed node. -/
inductive RemoveOption where
  /-- It goes with the node. -/
  | dropTrivia
  /-- The trivia before the node moves to the token after it. -/
  | keepLeading
  /-- The line end after the node moves to the token before it, unless that one ends its line. -/
  | keepTrailing
  deriving DecidableEq, Repr

namespace Node

/-- The node with the one at a path below it changed. `missing` is the refusal when no node
    stands there. -/
def modifyAt {ε : Type} (missing : ε) (f : Node → Except ε Node) : Path → Node → Except ε Node
  | [], n => f n
  | i :: p, n =>
    match n.children[i]? with
    | some (.node c) => do
      let c ← modifyAt missing f p c
      return n.withChildren (n.children.set i (.node c))
    | _ => .error missing

/-- The index of the nearest child with tokens before an index. -/
def slotBefore? (n : Node) (index : Nat) : Option Nat :=
  ((List.range (min index n.children.length)).reverse.find? fun j =>
    (n.children[j]?.map Element.hasTokens).getD false)

/-- The index of the nearest child with tokens after an index. -/
def slotAfter? (n : Node) (index : Nat) : Option Nat :=
  ((List.range n.children.length).drop (index + 1)).find? fun j =>
    (n.children[j]?.map Element.hasTokens).getD false

/-- Which neighbour of a node is meant. -/
inductive Side where
  | before
  | after
  deriving DecidableEq, Repr

/-- The index of the nearest child with tokens on one side of an index. -/
def slot? (n : Node) : Side → Nat → Option Nat
  | .before, index => n.slotBefore? index
  | .after, index => n.slotAfter? index

/-- The parent path and index of the part that holds the token next to the node at a path: in the
    nearest enclosing node that has one. -/
def adjacentSlot? (side : Side) : Path → Node → Option (Path × Nat)
  | [], _ => none
  | i :: p, n =>
    let deeper :=
      match n.children[i]? with
      | some (.node c) => (adjacentSlot? side p c).map fun (q, j) => (i :: q, j)
      | _ => none
    deeper <|> (n.slot? side i).map fun j => ([], j)

/-- The node with the token on the near side of its `j`-th child changed. -/
def modifyNear (side : Side) (f : Token → Token) (j : Nat) (n : Node) : Node :=
  n.withChildren <| n.children.modify j fun e =>
    match side with
    | .before => e.mapLast f
    | .after => e.mapFirst f

end Node

namespace Tree

open Node (Side)

/-- The next revision of a tree, with another root. -/
def withRoot (t : Tree) (root : Node) : Tree :=
  { root, revision := { t.revision with edits := t.revision.edits + 1 } }

/-- The tree with the node at a path changed by a function that may refuse. -/
def tryUpdate {ε : Type} (t : Tree) (ofTree : TreeError → ε) (path : Path)
    (f : Node → Except ε Node) : Except ε Tree :=
  (t.root.modifyAt (ofTree (.invalidPath path)) f path).map t.withRoot

/-- The tree with the node at a path changed. -/
def update (t : Tree) (path : Path) (f : Node → Node) : Except TreeError Tree :=
  t.tryUpdate id path fun n => .ok (f n)

/-- The tree with a tag put on the node at a path. -/
def tag (t : Tree) (path : Path) (tag : Tag) : Except TreeError Tree :=
  t.update path (·.withTag tag)

/-- The tree with a node replaced by any number of siblings. The root can be replaced by one node
    only. -/
def replaceMany (t : Tree) (path : Path) (replacements : List Node) : Except TreeError Tree :=
  match path.parent?, path.index? with
  | some parent, some index =>
    t.tryUpdate id parent fun n =>
      match n.children[index]? with
      | some (.node _) =>
        .ok <| n.withChildren <|
          n.children.take index ++ replacements.map .node ++ n.children.drop (index + 1)
      | _ => .error (.invalidPath path)
  | _, _ =>
    match replacements with
    | [root] => .ok (t.withRoot root)
    | _ => .error .removeRoot

/-- The tree with a node replaced by another. -/
def replace (t : Tree) (path : Path) (replacement : Node) : Except TreeError Tree :=
  t.replaceMany path [replacement]

/-- The tree with parts inserted in front of the `index`-th child of a node. -/
def insert (t : Tree) (parent : Path) (index : Nat) (parts : List Element) :
    Except TreeError Tree :=
  t.tryUpdate id parent fun n =>
    if index > n.children.length then .error (.invalidPath (parent.child index))
    else .ok <| n.withChildren <| n.children.take index ++ parts ++ n.children.drop index

/-- The tree with the token next to the node at a path changed, the same tree when there is no
    such token or no such place. -/
def updateNear (t : Tree) (side : Side) (path : Path) (f : Token → Token) :
    Except TreeError Tree :=
  match (t.root.at? path.dropLast).bind fun _ => t.root.adjacentSlot? side path with
  | none => .ok t
  | some (parent, j) => t.update parent (·.modifyNear side f j)

/-- The tree with the last token before the node at a path changed. -/
def updateTokenBefore (t : Tree) (path : Path) (f : Token → Token) : Except TreeError Tree :=
  t.updateNear .before path f

/-- The tree with the first token after the node at a path changed. -/
def updateTokenAfter (t : Tree) (path : Path) (f : Token → Token) : Except TreeError Tree :=
  t.updateNear .after path f

/-- The trivia of a node that is to be removed, handed to a neighbour. -/
def handOver (t : Tree) (path : Path) (removed : Node) : RemoveOption → Except TreeError Tree
  | .dropTrivia => .ok t
  | .keepLeading =>
    if removed.leading.isEmpty then .ok t
    else t.updateTokenAfter path fun u => { u with leading := removed.leading ++ u.leading }
  | .keepTrailing =>
    let residue := removed.trailing.dropWhile Trivia.isWhitespace
    if Trivia.hasLineEnd residue then
      t.updateTokenBefore path fun u =>
        if Trivia.hasLineEnd u.trailing then u else { u with trailing := u.trailing ++ residue }
    else .ok t

/-- The tree without the node at a path. -/
def remove (t : Tree) (path : Path) (option : RemoveOption) : Except TreeError Tree :=
  match path.parent?, path.index? with
  | some parent, some index =>
    match t.root.at? path with
    | none => .error (.invalidPath path)
    | some removed => do
      let t ← t.handOver path removed option
      t.update parent fun n => n.withChildren (n.children.eraseIdx index)
  | _, _ => .error .removeRoot

/-- The parts of a comma-separated list without the item at an index and the comma that belongs
    to it: the one after the item, or else the one before. In the second case the item before
    takes over the trivia at the end of the removed one. -/
def dropItem (index : Nat) (children : List Element) : List Element :=
  let isComma (e : Option Element) : Bool := (e.map (·.isToken ",")).getD false
  if isComma children[index + 1]? then children.take index ++ children.drop (index + 2)
  else if 0 < index && isComma children[index - 1]? then
    let trailing := (children[index]?.map Element.trailing).getD []
    let rest := children.take (index - 1) ++ children.drop (index + 1)
    if index < 2 then rest
    else rest.modify (index - 2) (·.mapLast fun u => { u with trailing })
  else children.eraseIdx index

/-- The tree without an item of a comma-separated list. -/
def removeItem (t : Tree) (path : Path) : Except TreeError Tree :=
  match path.parent?, path.index? with
  | some parent, some index =>
    t.tryUpdate id parent fun n =>
      if n.children.length ≤ index then .error (.invalidPath path)
      else .ok (n.withChildren (dropItem index n.children))
  | _, _ => .error .removeRoot

end Tree

end Recast
