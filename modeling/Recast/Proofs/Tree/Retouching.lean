-- SUMMARY: Trees with all their tokens mapped, as a way to say what a change of trivia leaves as it was.
import Recast.Proofs.Tree.Observing

/-! # Retouched trees

Edits hand trivia from a removed node to its neighbours. A map of tokens that forgets trivia does not
see this: the tree with all tokens mapped (`Node.mapTokens`) is the same before and after. What does
not depend on trivia is a function of the tree with all tokens mapped so, and it is enough to
follow that one tree through an edit. -/

namespace Recast

mutual

/-- The node with all its tokens mapped. -/
def Node.mapTokens (g : Token → Token) : Node → Node
  | ⟨kind, children, span, tags⟩ => ⟨kind, Element.mapTokensIn g children, span, tags⟩

/-- The part with all its tokens mapped. -/
def Element.mapTokens (g : Token → Token) : Element → Element
  | .token u => .token (g u)
  | .node n => .node (n.mapTokens g)

/-- The parts with all their tokens mapped. -/
def Element.mapTokensIn (g : Token → Token) : List Element → List Element
  | [] => []
  | e :: es => e.mapTokens g :: Element.mapTokensIn g es

end

/-- A map of tokens that does not look at trivia. -/
def Token.Forgets (g : Token → Token) : Prop :=
  ∀ u leading trailing, g { u with leading, trailing } = g u

variable {f g : Token → Token}

theorem Element.mapTokensIn_eq_map (es : List Element) : mapTokensIn g es = es.map (mapTokens g) := by
  induction es with
  | nil => rfl
  | cons e es ih => rw [mapTokensIn, ih, List.map_cons]

theorem Node.mapTokens_eq (n : Node) :
    n.mapTokens g = n.withChildren (n.children.map (Element.mapTokens g)) := by
  obtain ⟨kind, children, span, tags⟩ := n
  rw [Node.mapTokens, Element.mapTokensIn_eq_map]
  rfl

theorem Node.kind_of_mapTokens {n m : Node} (h : n.mapTokens g = m.mapTokens g) :
    n.kind = m.kind := by
  rw [mapTokens_eq, mapTokens_eq m] at h
  exact (Node.mk.inj h).1

theorem Node.map_children_of_mapTokens {n m : Node} (h : n.mapTokens g = m.mapTokens g) :
    n.children.map (Element.mapTokens g) = m.children.map (Element.mapTokens g) := by
  rw [mapTokens_eq, mapTokens_eq m] at h
  exact (Node.mk.inj h).2.1

theorem Node.span_of_mapTokens {n m : Node} (h : n.mapTokens g = m.mapTokens g) :
    n.span = m.span := by
  rw [mapTokens_eq, mapTokens_eq m] at h
  exact (Node.mk.inj h).2.2.1

theorem Node.tags_of_mapTokens {n m : Node} (h : n.mapTokens g = m.mapTokens g) :
    n.tags = m.tags := by
  rw [mapTokens_eq, mapTokens_eq m] at h
  exact (Node.mk.inj h).2.2.2

/-! ## Changes of tokens that the map does not see -/

mutual

theorem Node.mapTokens_mapFirst (hf : ∀ u, g (f u) = g u) : (n : Node) →
    (n.mapFirst f).mapTokens g = n.mapTokens g
  | ⟨_, children, _, _⟩ => by
    rw [Node.mapFirst, Node.mapTokens, Node.mapTokens, Element.mapTokensIn_mapFirstIn hf children]

theorem Element.mapTokens_mapFirst (hf : ∀ u, g (f u) = g u) : (e : Element) →
    (e.mapFirst f).mapTokens g = e.mapTokens g
  | .token u => by rw [Element.mapFirst, Element.mapTokens, Element.mapTokens, hf]
  | .node n => by rw [Element.mapFirst, Element.mapTokens, Element.mapTokens, n.mapTokens_mapFirst hf]

theorem Element.mapTokensIn_mapFirstIn (hf : ∀ u, g (f u) = g u) : (es : List Element) →
    Element.mapTokensIn g (Element.mapFirstIn f es) = Element.mapTokensIn g es
  | [] => rfl
  | e :: es => by
    rw [Element.mapFirstIn]
    split
    · rw [Element.mapTokensIn, Element.mapTokensIn, e.mapTokens_mapFirst hf]
    · rw [Element.mapTokensIn, Element.mapTokensIn, Element.mapTokensIn_mapFirstIn hf es]

end

mutual

theorem Node.mapTokens_mapLast (hf : ∀ u, g (f u) = g u) : (n : Node) →
    (n.mapLast f).mapTokens g = n.mapTokens g
  | ⟨_, children, _, _⟩ => by
    rw [Node.mapLast, Node.mapTokens, Node.mapTokens, Element.mapTokensIn_mapLastIn hf children]

theorem Element.mapTokens_mapLast (hf : ∀ u, g (f u) = g u) : (e : Element) →
    (e.mapLast f).mapTokens g = e.mapTokens g
  | .token u => by rw [Element.mapLast, Element.mapTokens, Element.mapTokens, hf]
  | .node n => by rw [Element.mapLast, Element.mapTokens, Element.mapTokens, n.mapTokens_mapLast hf]

theorem Element.mapTokensIn_mapLastIn (hf : ∀ u, g (f u) = g u) : (es : List Element) →
    Element.mapTokensIn g (Element.mapLastIn f es) = Element.mapTokensIn g es
  | [] => rfl
  | e :: es => by
    rw [Element.mapLastIn]
    split
    · rw [Element.mapTokensIn, Element.mapTokensIn, Element.mapTokensIn_mapLastIn hf es]
    · rw [Element.mapTokensIn, Element.mapTokensIn, e.mapTokens_mapLast hf]

end

theorem map_modify_of_eq {α β : Type} {h : α → β} {k : α → α} (hk : ∀ e, h (k e) = h e) (j : Nat)
    (es : List α) : (es.modify j k).map h = es.map h := by
  induction es generalizing j with
  | nil => simp
  | cons e es ih =>
    cases j with
    | zero => rw [List.modify_zero_cons, List.map_cons, List.map_cons, hk]
    | succ j => rw [List.modify_succ_cons, List.map_cons, List.map_cons, ih]

namespace Node

theorem mapTokens_withLeading (hg : Token.Forgets g) (n : Node) (trivia : List Trivia) :
    (n.withLeading trivia).mapTokens g = n.mapTokens g :=
  mapTokens_mapFirst (fun u => hg u _ _) n

theorem mapTokens_withTrailing (hg : Token.Forgets g) (n : Node) (trivia : List Trivia) :
    (n.withTrailing trivia).mapTokens g = n.mapTokens g :=
  mapTokens_mapLast (fun u => hg u _ _) n

theorem getElem?_mapTokens (n : Node) (i : Nat) :
    (n.mapTokens g).children[i]? = n.children[i]?.map (Element.mapTokens g) := by
  rw [mapTokens_eq, withChildren, List.getElem?_map]

theorem at?_mapTokens (n : Node) (p : Path) :
    (n.mapTokens g).at? p = (n.at? p).map (mapTokens g) := by
  induction p generalizing n with
  | nil => rfl
  | cons i p ih =>
    simp only [at?, getElem?_mapTokens]
    rcases n.children[i]? with _ | (u | c)
    · rfl
    · rfl
    · exact ih c

theorem tagsAt_mapTokens (n : Node) (p : Path) : (n.mapTokens g).tagsAt p = n.tagsAt p := by
  rw [tagsAt, at?_mapTokens, Option.map_map, tagsAt]
  congr 2
  funext m
  rw [Function.comp_apply, mapTokens_eq]
  rfl

theorem mapTokens_withChildren {n : Node} {es : List Element}
    (h : es.map (Element.mapTokens g) = n.children.map (Element.mapTokens g)) :
    (n.withChildren es).mapTokens g = n.mapTokens g := by
  rw [mapTokens_eq, mapTokens_eq n]
  exact congrArg n.withChildren h

/-- A child with another one in its place that differs in what the map does not see. -/
theorem mapTokens_set_child {n c c' : Node} {i : Nat} (hc : n.children[i]? = some (.node c))
    (h : c'.mapTokens g = c.mapTokens g) :
    (n.withChildren (n.children.set i (.node c'))).mapTokens g = n.mapTokens g := by
  obtain ⟨hlt, hget⟩ := List.getElem?_eq_some_iff.1 hc
  apply mapTokens_withChildren
  rw [List.map_set, Element.mapTokens, h, ← Element.mapTokens, ← hget, ← List.map_set,
    List.set_getElem_self]

theorem Put.mapTokens_eq {r m n n' : Node} {p : Path} (h : Put r p n n') (hat : n.at? p = some m)
    (hr : r.mapTokens g = m.mapTokens g) : n'.mapTokens g = n.mapTokens g := by
  induction h with
  | here n =>
    obtain rfl := Option.some.inj hat
    exact hr
  | @under n c c' i p child rest ih =>
    obtain ⟨d, hd, hat⟩ := at?_cons_eq_some.1 hat
    obtain rfl : c = d := by simpa [child] using hd
    exact mapTokens_set_child child (ih hat)

theorem mapTokens_modifyNear (hf : ∀ u, g (f u) = g u) (side : Side) (j : Nat) (n : Node) :
    (n.modifyNear side f j).mapTokens g = n.mapTokens g := by
  apply mapTokens_withChildren
  cases side with
  | before => exact map_modify_of_eq (Element.mapTokens_mapLast hf) j n.children
  | after => exact map_modify_of_eq (Element.mapTokens_mapFirst hf) j n.children

end Node

/-! ## Edits of trees -/

namespace Tree

variable {t t' : Tree} {p : Path}

theorem mapTokens_update {k : Node → Node} (hk : ∀ n, (k n).mapTokens g = n.mapTokens g)
    (h : t.update p k = .ok t') : t'.root.mapTokens g = t.root.mapTokens g := by
  obtain ⟨u, u', hu, hok, hput⟩ := put_of_tryUpdate h
  obtain rfl := Except.ok.inj hok
  exact hput.mapTokens_eq hu (hk u)

theorem mapTokens_updateNear (hf : ∀ u, g (f u) = g u) {side : Node.Side}
    (h : t.updateNear side p f = .ok t') : t'.root.mapTokens g = t.root.mapTokens g := by
  unfold updateNear at h
  split at h
  · obtain rfl := Except.ok.inj h
    rfl
  · exact mapTokens_update (Node.mapTokens_modifyNear hf side _) h

theorem mapTokens_handOver (hg : Token.Forgets g) {removed : Node} {option : RemoveOption}
    (h : t.handOver p removed option = .ok t') : t'.root.mapTokens g = t.root.mapTokens g := by
  obtain rfl | h | ⟨trailing, h⟩ := handOver_eq_ok h
  · rfl
  · exact mapTokens_updateNear (fun u => hg u _ _) h
  · exact mapTokens_updateNear (fun u => hg u _ _) h

end Tree

end Recast
