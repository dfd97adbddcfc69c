-- SUMMARY: The tags of a tree in document order, each with the kind of its node; an edit splices this list at the node it is made at, so a tag stays on its node through all edits made elsewhere.
import Mathlib.Logic.Relation
import Recast.Proofs.Tree.Retouching

/-! # Tracking

The node at a path cuts the kinds and tags of a tree, in document order, in three: those before
it (what it stands in among them), its own and those below it, and those after it. An edit changes
the part in the middle alone (`Node.Put.tops_eq`), and a change of tokens changes none of them: it
is not seen in the tree with all tokens blanked (`Node.blank`). So an edit that neither takes a
node with a tag away nor puts the tag on another node leaves the tag where it was, and so does any
run of such edits. -/

namespace Recast

/-! ## Trees without the texts of their tokens -/

mutual

/-- The node with all its tokens blanked. -/
def Node.blank : Node → Node
  | ⟨kind, children, span, tags⟩ => ⟨kind, Element.blankIn children, span, tags⟩

/-- The part with all its tokens blanked. -/
def Element.blank : Element → Element
  | .token _ => .token { kind := .identifier, text := "" }
  | .node n => .node n.blank

/-- The parts with all their tokens blanked. -/
def Element.blankIn : List Element → List Element
  | [] => []
  | e :: es => e.blank :: Element.blankIn es

end

theorem Element.blankIn_eq_map (es : List Element) : blankIn es = es.map blank := by
  induction es with
  | nil => rfl
  | cons e es ih => rw [blankIn, ih, List.map_cons]

/-- The token that stands for all tokens of a blanked tree. -/
def Token.blank (_ : Token) : Token :=
  { kind := .identifier, text := "" }

theorem Token.blank_unseen (f : Token → Token) (u : Token) : (f u).blank = u.blank := rfl

mutual

theorem Node.blank_eq_mapTokens : (n : Node) → n.blank = n.mapTokens Token.blank
  | ⟨_, children, _, _⟩ => by
    rw [Node.blank, Node.mapTokens, Element.blankIn_eq_mapTokensIn children]

theorem Element.blank_eq_mapTokens : (e : Element) → e.blank = e.mapTokens Token.blank
  | .token _ => rfl
  | .node n => by rw [Element.blank, Element.mapTokens, n.blank_eq_mapTokens]

theorem Element.blankIn_eq_mapTokensIn : (es : List Element) →
    Element.blankIn es = Element.mapTokensIn Token.blank es
  | [] => rfl
  | e :: es => by
    rw [Element.blankIn, Element.mapTokensIn, e.blank_eq_mapTokens,
      Element.blankIn_eq_mapTokensIn es]

end

theorem Node.blank_eq (n : Node) : n.blank = n.withChildren (n.children.map Element.blank) := by
  obtain ⟨kind, children, span, tags⟩ := n
  rw [Node.blank, Element.blankIn_eq_map]
  rfl

theorem Node.blank_mapFirst (f : Token → Token) (n : Node) : (n.mapFirst f).blank = n.blank := by
  rw [blank_eq_mapTokens, blank_eq_mapTokens]
  exact mapTokens_mapFirst (Token.blank_unseen f) _

theorem Element.blank_mapFirst (f : Token → Token) (e : Element) :
    (e.mapFirst f).blank = e.blank := by
  rw [blank_eq_mapTokens, blank_eq_mapTokens]
  exact mapTokens_mapFirst (Token.blank_unseen f) _

theorem Element.blankIn_mapFirstIn (f : Token → Token) (es : List Element) :
    Element.blankIn (Element.mapFirstIn f es) = Element.blankIn es := by
  rw [blankIn_eq_mapTokensIn, blankIn_eq_mapTokensIn]
  exact mapTokensIn_mapFirstIn (Token.blank_unseen f) _

theorem Node.blank_mapLast (f : Token → Token) (n : Node) : (n.mapLast f).blank = n.blank := by
  rw [blank_eq_mapTokens, blank_eq_mapTokens]
  exact mapTokens_mapLast (Token.blank_unseen f) _

theorem Element.blank_mapLast (f : Token → Token) (e : Element) : (e.mapLast f).blank = e.blank := by
  rw [blank_eq_mapTokens, blank_eq_mapTokens]
  exact mapTokens_mapLast (Token.blank_unseen f) _

theorem Element.blankIn_mapLastIn (f : Token → Token) (es : List Element) :
    Element.blankIn (Element.mapLastIn f es) = Element.blankIn es := by
  rw [blankIn_eq_mapTokensIn, blankIn_eq_mapTokensIn]
  exact mapTokensIn_mapLastIn (Token.blank_unseen f) _

mutual

theorem Node.tops_blank : (n : Node) → n.blank.tops = n.tops
  | ⟨_, children, _, _⟩ => by rw [Node.blank, Node.tops, Node.tops, Element.topsIn_blankIn children]

theorem Element.tops_blank : (e : Element) → e.blank.tops = e.tops
  | .token _ => rfl
  | .node n => n.tops_blank

theorem Element.topsIn_blankIn : (es : List Element) →
    Element.topsIn (Element.blankIn es) = Element.topsIn es
  | [] => rfl
  | e :: es => by
    rw [Element.blankIn, Element.topsIn, Element.topsIn, e.tops_blank, Element.topsIn_blankIn es]

end

namespace Element

@[simp] theorem topsIn_nil : topsIn [] = [] := rfl

@[simp] theorem topsIn_token (u : Token) (es : List Element) :
    topsIn (.token u :: es) = topsIn es := rfl

@[simp] theorem topsIn_node (n : Node) (es : List Element) :
    topsIn (.node n :: es) = n.tops ++ topsIn es := rfl

@[simp] theorem topsIn_append (xs ys : List Element) :
    topsIn (xs ++ ys) = topsIn xs ++ topsIn ys := by
  induction xs with
  | nil => rfl
  | cons e xs ih => cases e <;> simp [ih]

theorem topsIn_map_blank (es : List Element) : topsIn (es.map blank) = topsIn es := by
  rw [← blankIn_eq_map, topsIn_blankIn]

end Element

namespace Node

theorem withChildren_self (n : Node) : n.withChildren n.children = n := by
  obtain ⟨kind, children, span, tags⟩ := n
  rfl

@[simp] theorem top_withChildren (n : Node) (es : List Element) : (n.withChildren es).top = n.top :=
  rfl

theorem getElem?_blank (n : Node) (i : Nat) :
    n.blank.children[i]? = n.children[i]?.map Element.blank := by
  rw [blank_eq, withChildren, List.getElem?_map]

theorem at?_blank (n : Node) (p : Path) : n.blank.at? p = (n.at? p).map blank := by
  rw [blank_eq_mapTokens, at?_mapTokens]
  exact congrArg (n.at? p).map (funext fun m => m.blank_eq_mapTokens.symm)

/-! ## What stands around a node -/

/-- The kinds and tags before the node at a path, those of what it stands in included. -/
def topsBefore : Path → Node → List Top
  | [], _ => []
  | i :: p, n =>
    n.top :: Element.topsIn (n.children.take i) ++
      match n.children[i]? with
      | some (.node c) => topsBefore p c
      | _ => []

/-- The kinds and tags after the node at a path and all below it. -/
def topsAfter : Path → Node → List Top
  | [], _ => []
  | i :: p, n =>
    (match n.children[i]? with
      | some (.node c) => topsAfter p c
      | _ => []) ++ Element.topsIn (n.children.drop (i + 1))

theorem topsBefore_blank (n : Node) (p : Path) : n.blank.topsBefore p = n.topsBefore p := by
  induction p generalizing n with
  | nil => rfl
  | cons i p ih =>
    unfold topsBefore
    rw [getElem?_blank, blank_eq, withChildren, ← List.map_take, Element.topsIn_map_blank]
    rcases n.children[i]? with _ | (u | c)
    · rfl
    · rfl
    · simp only [Option.map_some, Element.blank, ih c]
      rfl

theorem topsAfter_blank (n : Node) (p : Path) : n.blank.topsAfter p = n.topsAfter p := by
  induction p generalizing n with
  | nil => rfl
  | cons i p ih =>
    unfold topsAfter
    rw [getElem?_blank, blank_eq, withChildren, ← List.map_drop, Element.topsIn_map_blank]
    rcases n.children[i]? with _ | (u | c)
    · rfl
    · rfl
    · simp only [Option.map_some, Element.blank, ih c]

section Child

variable {n c : Node} {i : Nat} (hc : n.children[i]? = some (.node c))

include hc

theorem topsBefore_cons (p : Path) :
    n.topsBefore (i :: p) = n.top :: Element.topsIn (n.children.take i) ++ c.topsBefore p := by
  simp only [topsBefore, hc]

theorem topsAfter_cons (p : Path) :
    n.topsAfter (i :: p) = c.topsAfter p ++ Element.topsIn (n.children.drop (i + 1)) := by
  simp only [topsAfter, hc]

theorem tops_set_child (c' : Node) : (n.withChildren (n.children.set i (.node c'))).tops =
    n.top :: Element.topsIn (n.children.take i) ++ c'.tops
      ++ Element.topsIn (n.children.drop (i + 1)) := by
  have hlt : i < n.children.length := (List.getElem?_eq_some_iff.1 hc).1
  rw [tops_eq, top_withChildren, withChildren, List.set_eq_take_append_cons_drop, if_pos hlt]
  simp

end Child

theorem topsBefore_append {n m : Node} {p : Path} (h : n.at? p = some m) (q : Path) :
    n.topsBefore (p ++ q) = n.topsBefore p ++ m.topsBefore q := by
  induction p generalizing n with
  | nil =>
    obtain rfl := Option.some.inj h
    rfl
  | cons i p ih =>
    obtain ⟨c, hc, hat⟩ := at?_cons_eq_some.1 h
    rw [List.cons_append, topsBefore_cons hc, topsBefore_cons hc, ih hat, List.append_assoc]

theorem topsAfter_append {n m : Node} {p : Path} (h : n.at? p = some m) (q : Path) :
    n.topsAfter (p ++ q) = m.topsAfter q ++ n.topsAfter p := by
  induction p generalizing n with
  | nil =>
    obtain rfl := Option.some.inj h
    rw [List.nil_append, topsAfter, List.append_nil]
  | cons i p ih =>
    obtain ⟨c, hc, hat⟩ := at?_cons_eq_some.1 h
    rw [List.cons_append, topsAfter_cons hc, topsAfter_cons hc, ih hat, List.append_assoc]

/-- A node in the place of another changes the part in the middle alone. -/
theorem Put.tops_eq {r n n' : Node} {p : Path} (h : Put r p n n') :
    n'.tops = n.topsBefore p ++ r.tops ++ n.topsAfter p := by
  induction h with
  | here n => simp [topsBefore, topsAfter]
  | under child rest ih =>
    rw [tops_set_child child, ih, topsBefore_cons child, topsAfter_cons child]
    simp only [List.append_assoc, List.cons_append]

theorem put_self {n m : Node} {p : Path} (hat : n.at? p = some m) : Put m p n n := by
  induction p generalizing n with
  | nil =>
    obtain rfl := Option.some.inj hat
    exact .here n
  | cons i p ih =>
    obtain ⟨c, hc, hat⟩ := at?_cons_eq_some.1 hat
    obtain ⟨hlt, hget⟩ := List.getElem?_eq_some_iff.1 hc
    have hput := Put.under hc (ih hat)
    rwa [← hget, List.set_getElem_self, withChildren_self] at hput

/-- The node at a path cuts the kinds and tags in three. -/
theorem tops_around {n m : Node} {p : Path} (hat : n.at? p = some m) :
    n.tops = n.topsBefore p ++ m.tops ++ n.topsAfter p :=
  (put_self hat).tops_eq

/-- Other parts in the place of a child change the part in the middle alone. -/
theorem Put.tops_eq_of_parts {u u' m n n' : Node} {q : Path} {i : Nat} {new : List Top}
    (h : Put u' q n n') (hu : n.at? q = some u) (hc : u.children[i]? = some (.node m))
    (htop : u'.top = u.top) (hparts : Element.topsIn u'.children =
      Element.topsIn (u.children.take i) ++ new ++ Element.topsIn (u.children.drop (i + 1))) :
    n'.tops = n.topsBefore (q ++ [i]) ++ new ++ n.topsAfter (q ++ [i]) := by
  rw [h.tops_eq, Node.tops_eq u', htop, hparts, topsBefore_append hu, topsAfter_append hu,
    topsBefore_cons hc, topsAfter_cons hc]
  simp [topsBefore, topsAfter]

end Node

/-! ## Edits of trees -/

theorem Element.topsIn_dropItem {xs : List Element} {i : Nat} {m : Node}
    (hc : xs[i]? = some (.node m)) :
    topsIn (Tree.dropItem i xs) = topsIn (xs.take i) ++ topsIn (xs.drop (i + 1)) := by
  unfold Tree.dropItem
  dsimp only
  split
  · rename_i hcomma
    obtain ⟨u, hu⟩ := Observer.isToken_of_map hcomma
    obtain ⟨hlt, hget⟩ := List.getElem?_eq_some_iff.1 hu
    rw [List.drop_eq_getElem_cons hlt, hget, topsIn_token, topsIn_append]
  · split
    · rename_i hcomma
      rw [Bool.and_eq_true, decide_eq_true_eq] at hcomma
      obtain ⟨u, hu⟩ := Observer.isToken_of_map hcomma.2
      have hbefore : topsIn (xs.take i) = topsIn (xs.take (i - 1)) := by
        obtain ⟨j, rfl⟩ := Nat.exists_eq_add_of_lt hcomma.1
        simp only [Nat.zero_add, Nat.add_sub_cancel] at hu ⊢
        rw [List.take_add_one, hu, topsIn_append]
        exact List.append_nil _
      rw [hbefore, ← topsIn_append]
      split
      · rfl
      · rw [← topsIn_map_blank, map_modify_of_eq (blank_mapLast _), topsIn_map_blank]
    · rw [List.eraseIdx_eq_take_drop_succ, topsIn_append]

theorem Element.topsIn_nodes (ns : List Node) : topsIn (ns.map .node) = ns.flatMap Node.tops := by
  induction ns with
  | nil => rfl
  | cons n ns ih => rw [List.map_cons, topsIn_node, ih, List.flatMap_cons]

namespace Tree

variable {t t' : Tree} {p : Path} {m : Node}

theorem blank_update {f : Node → Node} (hf : ∀ n, (f n).blank = n.blank)
    (h : t.update p f = .ok t') : t'.root.blank = t.root.blank := by
  simp only [Node.blank_eq_mapTokens] at hf ⊢
  exact mapTokens_update hf h

theorem blank_updateNear {side : Node.Side} {f : Token → Token}
    (h : t.updateNear side p f = .ok t') : t'.root.blank = t.root.blank := by
  simp only [Node.blank_eq_mapTokens]
  exact mapTokens_updateNear (Token.blank_unseen f) h

theorem blank_handOver {removed : Node} {option : RemoveOption}
    (h : t.handOver p removed option = .ok t') : t'.root.blank = t.root.blank := by
  simp only [Node.blank_eq_mapTokens]
  exact mapTokens_handOver (fun _ _ _ => rfl) h

theorem tops_of_blank (h : t'.root.blank = t.root.blank) : t'.root.tops = t.root.tops := by
  rw [← t'.root.tops_blank, h, t.root.tops_blank]

theorem tops_tag {tag : Tag} (hat : t.root.at? p = some m) (h : t.tag p tag = .ok t') :
    t'.root.tops = t.root.topsBefore p ++ (m.withTag tag).tops ++ t.root.topsAfter p :=
  (put_of_update hat h).tops_eq

theorem tops_replaceMany {replacements : List Node} (hat : t.root.at? p = some m)
    (h : t.replaceMany p replacements = .ok t') :
    t'.root.tops =
      t.root.topsBefore p ++ replacements.flatMap Node.tops ++ t.root.topsAfter p := by
  obtain ⟨rfl, rfl⟩ | ⟨q, i, u, rfl, hu, hc, hput⟩ := replaceMany_eq_ok hat h
  · simp [Node.topsBefore, Node.topsAfter]
  · apply hput.tops_eq_of_parts hu hc (Node.top_withChildren u _)
    rw [Node.withChildren, Element.topsIn_append, Element.topsIn_append, Element.topsIn_nodes]

theorem tops_insert {i : Nat} {parts : List Element} (hat : t.root.at? p = some m)
    (h : t.insert p i parts = .ok t') :
    t'.root.tops = t.root.topsBefore p ++
      (m.top :: Element.topsIn (m.children.take i) ++ Element.topsIn parts
        ++ Element.topsIn (m.children.drop i)) ++ t.root.topsAfter p := by
  obtain ⟨u, hu, -, hput⟩ := insert_eq_ok h
  obtain rfl : m = u := Option.some.inj (hat.symm.trans hu)
  rw [hput.tops_eq, Node.tops_eq, Node.top_withChildren, Node.withChildren,
    Element.topsIn_append, Element.topsIn_append]
  simp only [List.cons_append]

theorem tops_remove {option : RemoveOption} (hat : t.root.at? p = some m)
    (h : t.remove p option = .ok t') :
    t'.root.tops = t.root.topsBefore p ++ t.root.topsAfter p := by
  obtain ⟨q, i, w, u, rfl, hw, hu, hput⟩ := remove_eq_ok hat h
  have hblank := blank_handOver hw
  obtain ⟨d, hd⟩ : ∃ d, w.root.at? (q ++ [i]) = some d := by
    have hsame := w.root.at?_blank (q ++ [i])
    rw [hblank, Node.at?_blank, hat, Option.map_some, eq_comm, Option.map_eq_some_iff] at hsame
    exact ⟨hsame.choose, hsame.choose_spec.1⟩
  rw [Node.at?_append, hu] at hd
  obtain ⟨c, hd, -⟩ := Node.at?_cons_eq_some.1 hd
  have hparts : Element.topsIn (u.children.eraseIdx i) =
      Element.topsIn (u.children.take i) ++ [] ++ Element.topsIn (u.children.drop (i + 1)) := by
    rw [List.eraseIdx_eq_take_drop_succ, Element.topsIn_append, List.append_nil]
  have htops := hput.tops_eq_of_parts hu hd (Node.top_withChildren u _) hparts
  rw [htops, List.append_nil, ← Node.topsBefore_blank, ← Node.topsAfter_blank, hblank,
    Node.topsBefore_blank, Node.topsAfter_blank]

theorem tops_removeItem (hat : t.root.at? p = some m) (h : t.removeItem p = .ok t') :
    t'.root.tops = t.root.topsBefore p ++ t.root.topsAfter p := by
  obtain ⟨q, i, u, rfl, hu, -, hput⟩ := removeItem_eq_ok h
  rw [Node.at?_append, hu] at hat
  obtain ⟨c, hc, -⟩ := Node.at?_cons_eq_some.1 hat
  have hparts : Element.topsIn (dropItem i u.children) =
      Element.topsIn (u.children.take i) ++ [] ++ Element.topsIn (u.children.drop (i + 1)) := by
    rw [Element.topsIn_dropItem hc, List.append_nil]
  have htops := hput.tops_eq_of_parts hu hc (Node.top_withChildren u _) hparts
  rw [htops, List.append_nil]

end Tree

/-! ## Tags in document order -/

/-- The tags of a node, each with the kind of the node. -/
def Top.pairs (top : Top) : List (Tag × Kind) :=
  top.tags.map fun tag => (tag, top.kind)

/-- The tags on a node and below it in document order, each with the kind of its node. -/
def Node.tracked (n : Node) : List (Tag × Kind) :=
  n.tops.flatMap Top.pairs

/-- The tags in a list of parts. -/
def Element.trackedIn (es : List Element) : List (Tag × Kind) :=
  (topsIn es).flatMap Top.pairs

namespace Tree

/-- The tags of a tree in document order, each with the kind of its node. -/
def tracked (t : Tree) : List (Tag × Kind) :=
  t.sites.flatMap fun s => s.node.top.pairs

/-- The tags before the node at a path. -/
def trackedBefore (t : Tree) (p : Path) : List (Tag × Kind) :=
  (t.root.topsBefore p).flatMap Top.pairs

/-- The tags after the node at a path and all below it. -/
def trackedAfter (t : Tree) (p : Path) : List (Tag × Kind) :=
  (t.root.topsAfter p).flatMap Top.pairs

theorem map_top_sites (t : Tree) : (t.sites.map fun s => s.node.top) = t.root.tops := by
  rw [sites_eq, List.map_map, Node.tops_eq_map]
  rfl

theorem tracked_eq (t : Tree) : t.tracked = t.root.tops.flatMap Top.pairs := by
  rw [tracked, ← map_top_sites, List.flatMap_map]

/-! ## Runs of edits -/

/-- The kinds of the nodes that carry a tag, in document order. -/
def carriers (t : Tree) (tag : Tag) : List Kind :=
  (t.sites.filter fun s => s.node.hasTag tag).map Site.kind

end Tree

/-- The kinds among some of the nodes of a tree of those that carry a tag. -/
def Top.carriers (tag : Tag) (tops : List Top) : List Kind :=
  (tops.filter fun top => top.tags.contains tag).map Top.kind

theorem Top.carriers_append (tag : Tag) (xs ys : List Top) :
    carriers tag (xs ++ ys) = carriers tag xs ++ carriers tag ys := by
  rw [carriers, List.filter_append, List.map_append]
  rfl

theorem Top.carriers_cons (tag : Tag) (top : Top) (tops : List Top) :
    carriers tag (top :: tops) = (if tag ∈ top.tags then [top.kind] else []) ++ carriers tag tops := by
  rw [carriers, List.filter_cons]
  simp only [List.contains_iff_mem]
  split <;> rfl

theorem Top.carriers_eq_nil {tag : Tag} {tops : List Top} (h : ∀ top ∈ tops, tag ∉ top.tags) :
    carriers tag tops = [] := by
  rw [carriers, List.map_eq_nil_iff, List.filter_eq_nil_iff]
  intro top hmem
  simpa using h top hmem

/-- The node or one below it carries the tag. -/
def Node.Carries (n : Node) (tag : Tag) : Prop :=
  ∃ p, tag ∈ n.tagsAt p

theorem Node.carries_iff {n : Node} {tag : Tag} : n.Carries tag ↔ ∃ top ∈ n.tops, tag ∈ top.tags := by
  constructor
  · rintro ⟨p, hmem⟩
    obtain ⟨m, hat, htag⟩ := mem_tagsAt.1 hmem
    exact ⟨m.top, mem_tops.2 ⟨p, m, hat, rfl⟩, htag⟩
  · rintro ⟨top, htop, htag⟩
    obtain ⟨p, m, hat, rfl⟩ := mem_tops.1 htop
    exact ⟨p, mem_tagsAt.2 ⟨m, hat, htag⟩⟩

theorem Top.carriers_tops {tag : Tag} {n : Node} (h : ¬n.Carries tag) :
    carriers tag n.tops = [] := by
  apply carriers_eq_nil
  intro top htop htag
  exact h (Node.carries_iff.2 ⟨top, htop, htag⟩)

namespace Tree

theorem carriers_eq (t : Tree) (tag : Tag) : t.carriers tag = Top.carriers tag t.root.tops := by
  rw [Top.carriers, ← map_top_sites, List.filter_map, List.map_map]
  rfl

theorem countTagged_eq (t : Tree) (tag : Tag) : t.countTagged tag = (t.carriers tag).length := by
  rw [carriers, List.length_map]
  rfl

/-- Neither the node at a path nor one below it carries the tag: the place is neither that of a
    node with the tag nor that of one that it stands in. -/
def Spares (t : Tree) (tag : Tag) (p : Path) : Prop :=
  ∀ q, tag ∈ t.root.tagsAt q → ¬p <+: q

theorem spares_iff {t : Tree} {tag : Tag} {p : Path} :
    t.Spares tag p ↔ ∀ x ∈ t.root.nodes, tag ∈ x.2.tags → ¬p <+: x.1 := by
  constructor
  · rintro h ⟨q, m⟩ hmem htag
    exact h q (Node.mem_tagsAt.2 ⟨m, Node.mem_nodes.1 hmem, htag⟩)
  · intro h q hmem
    obtain ⟨m, hat, htag⟩ := Node.mem_tagsAt.1 hmem
    exact h (q, m) (Node.mem_nodes.2 hat) htag

instance (t : Tree) (tag : Tag) (p : Path) : Decidable (t.Spares tag p) :=
  decidable_of_iff _ spares_iff.symm

/-- One edit at the place of a node that neither takes away a node with the tag nor one that such
    a node stands in, and that brings the tag to no other node. -/
inductive EditsAround (tag : Tag) (t : Tree) : Tree → Prop where
  | tag {p : Path} {other : Tag} {t' : Tree} (hok : t.tag p other = .ok t')
      (hother : other = tag → tag ∈ t.root.tagsAt p) : EditsAround tag t t'
  | replaceMany {p : Path} {m : Node} {replacements : List Node} {t' : Tree}
      (hat : t.root.at? p = some m) (hok : t.replaceMany p replacements = .ok t')
      (hspares : t.Spares tag p) (hnew : ∀ n ∈ replacements, ¬n.Carries tag) : EditsAround tag t t'
  | insert {p : Path} {i : Nat} {parts : List Element} {t' : Tree}
      (hok : t.insert p i parts = .ok t') (hnew : ∀ n, .node n ∈ parts → ¬n.Carries tag) :
      EditsAround tag t t'
  | remove {p : Path} {option : RemoveOption} {t' : Tree} (hok : t.remove p option = .ok t')
      (hspares : t.Spares tag p) : EditsAround tag t t'
  | removeItem {p : Path} {m : Node} {t' : Tree} (hat : t.root.at? p = some m)
      (hok : t.removeItem p = .ok t') (hspares : t.Spares tag p) : EditsAround tag t t'
  | updateNear {side : Node.Side} {p : Path} {f : Token → Token} {t' : Tree}
      (hok : t.updateNear side p f = .ok t') : EditsAround tag t t'
  | updateFirst {p : Path} {f : Token → Token} {t' : Tree}
      (hok : t.update p (·.mapFirst f) = .ok t') : EditsAround tag t t'
  | updateLast {p : Path} {f : Token → Token} {t' : Tree}
      (hok : t.update p (·.mapLast f) = .ok t') : EditsAround tag t t'

theorem Spares.not_carries {t : Tree} {tag : Tag} {p : Path} {m : Node} (h : t.Spares tag p)
    (hat : t.root.at? p = some m) : ¬m.Carries tag := by
  rintro ⟨q, hmem⟩
  refine h (p ++ q) ?_ (List.prefix_append p q)
  rw [Node.tagsAt, Node.at?_append, hat]
  exact hmem

variable {t t' : Tree} {tag : Tag}

/-- One more tag on a node makes it a carrier of no other tag. -/
theorem carriers_withTag {m : Node} {other : Tag} (hother : other = tag → tag ∈ m.tags) :
    Top.carriers tag (m.withTag other).tops = Top.carriers tag m.tops := by
  have hmem : tag ∈ (m.withTag other).top.tags ↔ tag ∈ m.top.tags := by
    simp only [Node.withTag, Node.top, List.mem_append, List.mem_singleton]
    constructor
    · rintro (hmem | rfl)
      · exact hmem
      · exact hother rfl
    · exact .inl
  rw [Node.tops_eq, Node.tops_eq m, Top.carriers_cons, Top.carriers_cons, if_congr hmem rfl rfl]
  rfl

theorem EditsAround.carriers_eq (h : t.EditsAround tag t') : t'.carriers tag = t.carriers tag := by
  have hsame : t'.root.blank = t.root.blank → t'.carriers tag = t.carriers tag := by
    intro hblank
    rw [Tree.carriers_eq, Tree.carriers_eq, tops_of_blank hblank]
  -- A part in the middle without the tag gives way to another one without it.
  have hsplice : ∀ {p : Path} {m : Node} (new : List Top), t.root.at? p = some m →
      Top.carriers tag new = Top.carriers tag m.tops →
      t'.root.tops = t.root.topsBefore p ++ new ++ t.root.topsAfter p →
      t'.carriers tag = t.carriers tag := by
    intro p m new hat hnew htops
    rw [Tree.carriers_eq, Tree.carriers_eq, htops, Node.tops_around hat]
    simp only [Top.carriers_append, hnew]
  cases h with
  | @tag p other _ hok hother =>
    obtain ⟨m, -, hat, -, -⟩ := put_of_tryUpdate hok
    refine hsplice _ hat (carriers_withTag fun heq => ?_) (tops_tag hat hok)
    simpa [Node.tagsAt, hat] using hother heq
  | replaceMany hat hok hspares hnew =>
    refine hsplice _ hat ?_ (tops_replaceMany hat hok)
    rw [Top.carriers_tops (hspares.not_carries hat)]
    apply Top.carriers_eq_nil
    intro top htop htag
    obtain ⟨n, hn, htop⟩ := List.mem_flatMap.1 htop
    exact hnew n hn (Node.carries_iff.2 ⟨top, htop, htag⟩)
  | @insert p i parts _ hok hnew =>
    obtain ⟨m, -, hat, -, -⟩ := put_of_tryUpdate hok
    refine hsplice _ hat ?_ (tops_insert hat hok)
    have hparts : Top.carriers tag (Element.topsIn parts) = [] := by
      apply Top.carriers_eq_nil
      intro top htop htag
      obtain ⟨n, hn, htop⟩ := Element.mem_topsIn.1 htop
      exact hnew n hn (Node.carries_iff.2 ⟨top, htop, htag⟩)
    have hchildren : Element.topsIn m.children =
        Element.topsIn (m.children.take i) ++ Element.topsIn (m.children.drop i) := by
      rw [← Element.topsIn_append, List.take_append_drop]
    rw [Node.tops_eq, hchildren, ← List.cons_append]
    simp only [Top.carriers_append, hparts, List.append_nil]
  | @remove p option _ hok hspares =>
    obtain ⟨m, hat⟩ := exists_at?_of_remove hok
    refine hsplice [] hat ?_ (by rw [tops_remove hat hok, List.append_nil])
    rw [Top.carriers_tops (hspares.not_carries hat)]
    rfl
  | removeItem hat hok hspares =>
    refine hsplice [] hat ?_ (by rw [tops_removeItem hat hok, List.append_nil])
    rw [Top.carriers_tops (hspares.not_carries hat)]
    rfl
  | updateNear hok => exact hsame (blank_updateNear hok)
  | updateFirst hok => exact hsame (blank_update (Node.blank_mapFirst _) hok)
  | updateLast hok => exact hsame (blank_update (Node.blank_mapLast _) hok)

theorem carriers_eq_of_run (h : Relation.ReflTransGen (EditsAround tag) t t') :
    t'.carriers tag = t.carriers tag := by
  induction h with
  | refl => rfl
  | tail _ hstep ih => exact hstep.carriers_eq.trans ih

end Tree

/-! ## Search -/

namespace Tree

theorem findTagged?_eq_find? (t : Tree) (tag : Tag) :
    t.findTagged? tag = t.sites.find? fun s => s.node.hasTag tag := by
  rw [findTagged?, Node.search?_eq_find? _ fun _ _ _ _ _ _ _ _ => rfl, sites_eq, List.find?_map]
  rfl

/-- Each edit at the place of a node splices the tags of the tree there: with `before` and `after`
    the tags on the two sides of the node and all below it, a new tag goes behind the node's own
    ones, a replacement brings its tags and an insertion those of its parts, and a removal drops
    the node's. A change of tokens moves none. So a tag on one node stays on one node through all
    edits that neither take away the node, or one that it stands in, nor put the tag on another
    node. A search for a tag finds the first site that carries it. -/
theorem edits_track_tags (t : Tree) :
    (∀ p m, t.root.at? p = some m →
      let before := t.trackedBefore p
      let after := t.trackedAfter p
      t.tracked = before ++ m.tracked ++ after ∧
      m.tracked = m.top.pairs ++ Element.trackedIn m.children ∧
      (∀ tag t', t.tag p tag = .ok t' → t'.tracked =
        before ++ m.top.pairs ++ [(tag, m.kind)] ++ Element.trackedIn m.children ++ after) ∧
      (∀ replacements t', t.replaceMany p replacements = .ok t' →
        t'.tracked = before ++ replacements.flatMap Node.tracked ++ after) ∧
      (∀ i parts t', t.insert p i parts = .ok t' → t'.tracked =
        before ++ m.top.pairs ++ Element.trackedIn (m.children.take i) ++ Element.trackedIn parts
          ++ Element.trackedIn (m.children.drop i) ++ after) ∧
      (∀ option t', t.remove p option = .ok t' → t'.tracked = before ++ after) ∧
      (∀ t', t.removeItem p = .ok t' → t'.tracked = before ++ after) ∧
      (∀ f t', t.updateTokenBefore p f = .ok t' → t'.tracked = t.tracked) ∧
      (∀ f t', t.updateTokenAfter p f = .ok t' → t'.tracked = t.tracked) ∧
      (∀ f t', t.update p (·.mapFirst f) = .ok t' → t'.tracked = t.tracked) ∧
      (∀ f t', t.update p (·.mapLast f) = .ok t' → t'.tracked = t.tracked)) ∧
    (∀ tag t', t.countTagged tag = 1 → Relation.ReflTransGen (EditsAround tag) t t' →
      t'.countTagged tag = 1) ∧
    ∀ tag, t.findTagged? tag = t.sites.find? fun s => s.node.hasTag tag := by
  -- The tags are the same in trees that differ in their tokens only.
  have hsame : ∀ {t' : Tree}, t'.root.blank = t.root.blank → t'.tracked = t.tracked := by
    intro t' hblank
    rw [tracked_eq, tracked_eq, tops_of_blank hblank]
  refine ⟨fun p m hat => ?_, fun tag t' hcount hrun => ?_, t.findTagged?_eq_find?⟩
  · intro before after
    refine ⟨?_, ?_, fun tag t' h => ?_, fun replacements t' h => ?_, fun i parts t' h => ?_,
      fun option t' h => ?_, fun t' h => ?_, fun f t' h => hsame (blank_updateNear h),
      fun f t' h => hsame (blank_updateNear h),
      fun f t' h => hsame (blank_update (Node.blank_mapFirst f) h),
      fun f t' h => hsame (blank_update (Node.blank_mapLast f) h)⟩
    · rw [tracked_eq, Node.tops_around hat, List.flatMap_append, List.flatMap_append]
      rfl
    · rw [Node.tracked, Node.tops_eq, List.flatMap_cons]
      rfl
    · rw [tracked_eq, tops_tag hat h, Node.tops_eq]
      simp [before, after, trackedBefore, trackedAfter, Element.trackedIn, Node.withTag, Node.top,
        Top.pairs]
    · rw [tracked_eq, tops_replaceMany hat h, List.flatMap_append, List.flatMap_append,
        List.flatMap_assoc]
      rfl
    · rw [tracked_eq, tops_insert hat h]
      simp [before, after, trackedBefore, trackedAfter, Element.trackedIn]
    · rw [tracked_eq, tops_remove hat h, List.flatMap_append]
      rfl
    · rw [tracked_eq, tops_removeItem hat h, List.flatMap_append]
      rfl
  · rw [countTagged_eq, carriers_eq_of_run hrun, ← countTagged_eq, hcount]

/-- The names of `hollow`, with a tag on the first. -/
def pinned : Tree :=
  (hollow.tag [0] ⟨1⟩).toOption.getD hollow

theorem edits_track_tags_pinned : pinned.countTagged ⟨1⟩ = 1 ∧ pinned.Spares ⟨1⟩ [2, 1] ∧
    ∃ t', pinned.remove [2, 1] .keepTrailing = .ok t' ∧ t'.countTagged ⟨1⟩ = 1 ∧
      t'.tracked = [(⟨1⟩, .identifierName)] := by
  have hcount : pinned.countTagged ⟨1⟩ = 1 := by decide
  have hspares : pinned.Spares ⟨1⟩ [2, 1] := by decide
  obtain ⟨t', ht'⟩ : ∃ t', pinned.remove [2, 1] .keepTrailing = .ok t' := ⟨_, rfl⟩
  obtain ⟨hedits, hruns, -⟩ := edits_track_tags pinned
  obtain ⟨-, -, -, -, -, hremove, -⟩ := hedits [2, 1] _ rfl
  refine ⟨hcount, hspares, t', ht', ?_, hremove .keepTrailing t' ht'⟩
  exact hruns ⟨1⟩ t' hcount (.single (.remove ht' hspares))

/-- A tag that is put on a second node is on two nodes. -/
theorem not_tracked_retagged : ¬∀ (t t' : Tree) (p : Path) (tag : Tag),
    t.countTagged tag = 1 → t.tag p tag = .ok t' → t'.countTagged tag = 1 := by
  intro h
  have htwice : ((pinned.tag [2, 1] ⟨1⟩).toOption.getD hollow).countTagged ⟨1⟩ = 1 :=
    h pinned _ [2, 1] ⟨1⟩ (by decide) rfl
  revert htwice
  decide

end Tree

end Recast
