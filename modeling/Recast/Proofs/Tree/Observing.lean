-- SUMMARY: What an observer sees of a tree, given for each node what it stands in, and that the edits of a tree save all of it but what is told of the nodes they touch.
import Recast.Proofs.Tree.Splicing

/-! # Observers

An observer tells something of a node from the node and from what it stands in, and sees of a tree
what it tells of all the nodes, in document order. It does not look at the trivia at the two ends
of a node, which edits nearby may change.

An edit changes the nodes on the way to its place, and drops those it takes away. When an observer
tells nothing new of the former and nothing at all of the latter, all that it saw before the edit
it sees after it, in the same order (`Observer.Saves`). -/

namespace Recast

/-! ## Kinds and tags -/

/-- What no edit of its parts changes of a node: its kind and its tags. -/
structure Top where
  kind : Kind
  tags : List Tag
  deriving DecidableEq

def Node.top (n : Node) : Top :=
  ⟨n.kind, n.tags⟩

mutual

/-- The kinds and tags of a node and all below it, in document order. -/
def Node.tops : Node → List Top
  | ⟨kind, children, _, tags⟩ => ⟨kind, tags⟩ :: Element.topsIn children

/-- The kinds and tags in a part. -/
def Element.tops : Element → List Top
  | .token _ => []
  | .node n => n.tops

/-- The kinds and tags in a list of parts. -/
def Element.topsIn : List Element → List Top
  | [] => []
  | e :: es => e.tops ++ Element.topsIn es

end

theorem Node.tops_eq (n : Node) : n.tops = n.top :: Element.topsIn n.children := by
  obtain ⟨kind, children, span, tags⟩ := n
  rfl

mutual

theorem Node.tops_eq_map : (n : Node) → n.tops = n.nodes.map fun (_, m) => m.top
  | ⟨_, children, _, _⟩ => by
    rw [Node.tops, Node.nodes, List.map_cons, Element.topsIn_eq_map 0 children]
    rfl

theorem Element.tops_eq_map : (e : Element) → e.tops = e.nodes.map fun (_, m) => m.top
  | .token _ => rfl
  | .node n => n.tops_eq_map

theorem Element.topsIn_eq_map (i : Nat) : (es : List Element) →
    Element.topsIn es = (Element.nodesIn i es).map fun (_, m) => m.top
  | [] => rfl
  | e :: es => by
    rw [Element.topsIn, Element.nodesIn, List.map_append, e.tops_eq_map,
      Element.topsIn_eq_map (i + 1) es, List.map_map]
    rfl

end

theorem Element.mem_topsIn {top : Top} {es : List Element} :
    top ∈ topsIn es ↔ ∃ c, .node c ∈ es ∧ top ∈ c.tops := by
  induction es with
  | nil => simp [topsIn]
  | cons e es ih =>
    rw [topsIn, List.mem_append, ih]
    cases e with
    | token u => simp [tops]
    | node c => simp [tops]

namespace Node

theorem top_mapFirst (f : Token → Token) (n : Node) : (n.mapFirst f).top = n.top := by
  obtain ⟨kind, children, span, tags⟩ := n
  rfl

theorem top_mapLast (f : Token → Token) (n : Node) : (n.mapLast f).top = n.top := by
  obtain ⟨kind, children, span, tags⟩ := n
  rfl

theorem mem_tops {n : Node} {top : Top} :
    top ∈ n.tops ↔ ∃ p m, n.at? p = some m ∧ m.top = top := by
  rw [tops_eq_map, List.mem_map]
  constructor
  · rintro ⟨⟨p, m⟩, hmem, htop⟩
    exact ⟨p, m, mem_nodes.1 hmem, htop⟩
  · rintro ⟨p, m, hat, htop⟩
    exact ⟨(p, m), mem_nodes.2 hat, htop⟩

/-- A node in which something with a kind and tags of this sort stands, perhaps itself. -/
def Holds (Q : Top → Prop) (n : Node) : Prop :=
  ∃ top ∈ n.tops, Q top

variable {Q : Top → Prop}

theorem holds_self {n : Node} (h : Q n.top) : n.Holds Q :=
  ⟨n.top, by simp [tops_eq], h⟩

theorem Holds.of_at? {n m : Node} {p : Path} (hat : n.at? p = some m) (h : m.Holds Q) :
    n.Holds Q := by
  obtain ⟨top, htop, hQ⟩ := h
  obtain ⟨q, u, hu, rfl⟩ := mem_tops.1 htop
  exact ⟨u.top, mem_tops.2 ⟨p ++ q, u, at?_trans hat hu, rfl⟩, hQ⟩

theorem Holds.of_child {n c : Node} {i : Nat} (hc : n.children[i]? = some (.node c))
    (h : c.Holds Q) : n.Holds Q :=
  h.of_at? (p := [i]) (at?_cons_eq_some.2 ⟨c, hc, rfl⟩)

/-- The kinds and tags of what the node at a path stands in, nearest first. -/
def above : Path → Node → List Top
  | [], _ => []
  | i :: p, n =>
    match n.children[i]? with
    | some (.node c) => above p c ++ [n.top]
    | _ => []

theorem above_concat {n u : Node} {p : Path} (h : n.at? p = some u) {i : Nat} {c : Node}
    (hc : u.children[i]? = some (.node c)) : n.above (p ++ [i]) = u.top :: n.above p := by
  induction p generalizing n with
  | nil =>
    obtain rfl := Option.some.inj h
    simp only [List.nil_append, above, hc]
  | cons j p ih =>
    obtain ⟨d, hd, hat⟩ := at?_cons_eq_some.1 h
    simp only [List.cons_append, above, hd, ih hat]

/-- The way up from a node below leads to this one. -/
theorem exists_cons_above {n m : Node} {p : Path} (h : n.at? p = some m) :
    ∃ way, m.top :: n.above p = way ++ [n.top] := by
  cases p with
  | nil =>
    obtain rfl := Option.some.inj h
    exact ⟨[], rfl⟩
  | cons i p =>
    obtain ⟨c, hc, -⟩ := at?_cons_eq_some.1 h
    exact ⟨m.top :: c.above p, by simp [above, hc]⟩

end Node

/-! ## Observers -/

/-- A change of tokens that changes the trivia in front of them alone. -/
def Token.LeadingOnly (f : Token → Token) : Prop :=
  ∀ u, (f u).text = u.text ∧ (f u).trailing = u.trailing

/-- A change of tokens that changes the trivia after them alone. -/
def Token.TrailingOnly (f : Token → Token) : Prop :=
  ∀ u, (f u).text = u.text ∧ (f u).leading = u.leading

theorem Token.leadingOnly_set (g : Token → List Trivia) :
    LeadingOnly fun u => { u with leading := g u } :=
  fun _ => ⟨rfl, rfl⟩

theorem Token.trailingOnly_set (g : Token → List Trivia) :
    TrailingOnly fun u => { u with trailing := g u } :=
  fun _ => ⟨rfl, rfl⟩

/-- Tells something of a node, given the kinds and tags of what it stands in, nearest first. -/
structure Observer (α : Type) where
  tell : List Top → Node → List α
  /-- The trivia in front of a node is not looked at. -/
  tell_mapFirst : ∀ up n f, Token.LeadingOnly f → tell up (n.mapFirst f) = tell up n
  /-- Nor is the trivia after it. -/
  tell_mapLast : ∀ up n f, Token.TrailingOnly f → tell up (n.mapLast f) = tell up n

/-- A change of trivia that hangs on the near side of the token next to a node. -/
def Node.Side.Only (f : Token → Token) : Node.Side → Prop
  | .before => Token.TrailingOnly f
  | .after => Token.LeadingOnly f

namespace Observer

variable {α : Type}

mutual

/-- What an observer tells of a node and all below it, in document order. -/
def see (o : Observer α) : List Top → Node → List α
  | up, ⟨kind, children, span, tags⟩ =>
    o.tell up ⟨kind, children, span, tags⟩ ++ o.seeIn (⟨kind, tags⟩ :: up) children

/-- What an observer sees of a part. -/
def seePart (o : Observer α) : List Top → Element → List α
  | _, .token _ => []
  | up, .node n => o.see up n

/-- What an observer sees of a list of parts. -/
def seeIn (o : Observer α) : List Top → List Element → List α
  | _, [] => []
  | up, e :: es => o.seePart up e ++ o.seeIn up es

end

variable (o : Observer α) (up : List Top)

theorem see_eq (n : Node) : o.see up n = o.tell up n ++ o.seeIn (n.top :: up) n.children := by
  obtain ⟨kind, children, span, tags⟩ := n
  rfl

@[simp] theorem seeIn_nil : o.seeIn up [] = [] := rfl

@[simp] theorem seeIn_token (u : Token) (es : List Element) :
    o.seeIn up (.token u :: es) = o.seeIn up es := rfl

@[simp] theorem seeIn_node (n : Node) (es : List Element) :
    o.seeIn up (.node n :: es) = o.see up n ++ o.seeIn up es := rfl

@[simp] theorem seeIn_append (xs ys : List Element) :
    o.seeIn up (xs ++ ys) = o.seeIn up xs ++ o.seeIn up ys := by
  induction xs with
  | nil => rfl
  | cons e xs ih => cases e <;> simp [ih]

theorem seeIn_eq_nil {es : List Element} :
    o.seeIn up es = [] ↔ ∀ c, .node c ∈ es → o.see up c = [] := by
  induction es with
  | nil => simp
  | cons e es ih => cases e <;> simp [ih]

/-! ## Nodes and what they stand in -/

mutual

/-- What is seen of a node is what is told of each node in it, at its path. -/
theorem see_eq_flatMap : (n : Node) → (up : List Top) →
    o.see up n = n.nodes.flatMap fun (p, m) => o.tell (n.above p ++ up) m
  | ⟨kind, children, span, tags⟩, up => by
    rw [see, Node.nodes, List.flatMap_cons]
    refine congrArg₂ _ rfl ?_
    exact seeIn_eq_flatMap children ⟨kind, children, span, tags⟩ 0 up fun j => by rw [Nat.zero_add]

theorem seePart_eq_flatMap : (e : Element) → (n : Node) → (i : Nat) → (up : List Top) →
    n.children[i]? = some e → o.seePart (n.top :: up) e =
      (e.nodes.map fun (p, m) => (i :: p, m)).flatMap fun (p, m) => o.tell (n.above p ++ up) m
  | .token _, _, _, _, _ => rfl
  | .node c, n, i, up, hc => by
    have habove : ∀ p, n.above (i :: p) ++ up = c.above p ++ (n.top :: up) := by
      intro p
      simp only [Node.above, hc, List.append_assoc, List.singleton_append]
    rw [seePart, Element.nodes, List.flatMap_map, see_eq_flatMap c]
    simp only [habove]

theorem seeIn_eq_flatMap : (es : List Element) → (n : Node) → (i : Nat) → (up : List Top) →
    (∀ j, n.children[i + j]? = es[j]?) → o.seeIn (n.top :: up) es =
      (Element.nodesIn i es).flatMap fun (p, m) => o.tell (n.above p ++ up) m
  | [], _, _, _, _ => rfl
  | e :: es, n, i, up, hes => by
    rw [seeIn, Element.nodesIn, List.flatMap_append, seePart_eq_flatMap e n i up (hes 0),
      seeIn_eq_flatMap es n (i + 1) up fun j => by rw [Nat.add_right_comm]; exact hes (j + 1)]

end

theorem see_eq_nil {n : Node} :
    o.see up n = [] ↔ ∀ p m, n.at? p = some m → o.tell (n.above p ++ up) m = [] := by
  rw [see_eq_flatMap, List.flatMap_eq_nil_iff]
  constructor
  · exact fun h p m hat => h (p, m) (Node.mem_nodes.2 hat)
  · exact fun h pm hmem => h pm.1 pm.2 (Node.mem_nodes.1 hmem)

/-! ## Trivia at the ends -/

mutual

theorem see_mapFirst {f : Token → Token} (hf : Token.LeadingOnly f) : (up : List Top) →
    (n : Node) → o.see up (n.mapFirst f) = o.see up n
  | up, ⟨kind, children, span, tags⟩ => by
    have htell := o.tell_mapFirst up ⟨kind, children, span, tags⟩ f hf
    rw [Node.mapFirst] at htell ⊢
    rw [see, see, htell, seeIn_mapFirstIn hf _ children]

theorem seePart_mapFirst {f : Token → Token} (hf : Token.LeadingOnly f) : (up : List Top) →
    (e : Element) → o.seePart up (e.mapFirst f) = o.seePart up e
  | _, .token _ => rfl
  | up, .node n => see_mapFirst hf up n

theorem seeIn_mapFirstIn {f : Token → Token} (hf : Token.LeadingOnly f) : (up : List Top) →
    (es : List Element) → o.seeIn up (Element.mapFirstIn f es) = o.seeIn up es
  | _, [] => rfl
  | up, e :: es => by
    rw [Element.mapFirstIn]
    split
    · rw [seeIn, seeIn, seePart_mapFirst hf up e]
    · rw [seeIn, seeIn, seeIn_mapFirstIn hf up es]

end

mutual

theorem see_mapLast {f : Token → Token} (hf : Token.TrailingOnly f) : (up : List Top) →
    (n : Node) → o.see up (n.mapLast f) = o.see up n
  | up, ⟨kind, children, span, tags⟩ => by
    have htell := o.tell_mapLast up ⟨kind, children, span, tags⟩ f hf
    rw [Node.mapLast] at htell ⊢
    rw [see, see, htell, seeIn_mapLastIn hf _ children]

theorem seePart_mapLast {f : Token → Token} (hf : Token.TrailingOnly f) : (up : List Top) →
    (e : Element) → o.seePart up (e.mapLast f) = o.seePart up e
  | _, .token _ => rfl
  | up, .node n => see_mapLast hf up n

theorem seeIn_mapLastIn {f : Token → Token} (hf : Token.TrailingOnly f) : (up : List Top) →
    (es : List Element) → o.seeIn up (Element.mapLastIn f es) = o.seeIn up es
  | _, [] => rfl
  | up, e :: es => by
    rw [Element.mapLastIn]
    split
    · rw [seeIn, seeIn, seeIn_mapLastIn hf up es]
    · rw [seeIn, seeIn, seePart_mapLast hf up e]

end

theorem seeIn_modify {g : Element → Element} (hg : ∀ e, o.seePart up (g e) = o.seePart up e)
    (j : Nat) (es : List Element) : o.seeIn up (es.modify j g) = o.seeIn up es := by
  induction es generalizing j with
  | nil => simp
  | cons e es ih =>
    cases j with
    | zero => rw [List.modify_zero_cons, seeIn, seeIn, hg]
    | succ j => rw [List.modify_succ_cons, seeIn, seeIn, ih]

/-! ## What an edit saves -/

/-- All that is seen of the first node is seen of the second, in the same order. -/
def Saves (n n' : Node) : Prop :=
  ∀ up, (o.see up n).Sublist (o.see up n')

/-- All that is seen of some parts of a node is seen of others in their place. -/
def SavesIn (top : Top) (es es' : List Element) : Prop :=
  ∀ up, (o.seeIn (top :: up) es).Sublist (o.seeIn (top :: up) es')

/-- Nothing is seen of a node, wherever it stands. -/
def Ignores (n : Node) : Prop :=
  ∀ up, o.see up n = []

/-- Nothing is seen of the parts of a node. -/
def IgnoresIn (top : Top) (es : List Element) : Prop :=
  ∀ up, o.seeIn (top :: up) es = []

/-- Nothing is told of a node in which such a thing stands that depends on the parts of it. -/
def BlindTo (Q : Top → Prop) : Prop :=
  ∀ up n n', n.Holds Q → n'.top = n.top → (o.tell up n).Sublist (o.tell up n')

variable {o}

theorem Saves.refl (n : Node) : o.Saves n n := fun _ => .refl _

theorem Saves.trans {a b c : Node} (h : o.Saves a b) (h' : o.Saves b c) : o.Saves a c :=
  fun up => (h up).trans (h' up)

theorem SavesIn.refl (top : Top) (es : List Element) : o.SavesIn top es es := fun _ => .refl _

theorem SavesIn.trans {top : Top} {xs ys zs : List Element} (h : o.SavesIn top xs ys)
    (h' : o.SavesIn top ys zs) : o.SavesIn top xs zs :=
  fun up => (h up).trans (h' up)

theorem Ignores.saves {n : Node} (h : o.Ignores n) (n' : Node) : o.Saves n n' := by
  intro up
  rw [h up]
  exact List.nil_sublist _

theorem ignoresIn_nil (top : Top) : o.IgnoresIn top [] := fun _ => rfl

theorem IgnoresIn.token {top : Top} {es : List Element} (h : o.IgnoresIn top es) (u : Token) :
    o.IgnoresIn top (.token u :: es) :=
  h

theorem IgnoresIn.node {top : Top} {es : List Element} {n : Node} (h : o.IgnoresIn top es)
    (hn : o.Ignores n) : o.IgnoresIn top (.node n :: es) := by
  intro up
  rw [seeIn_node, hn, h up, List.append_nil]

theorem saves_mapFirst {f : Token → Token} (hf : Token.LeadingOnly f) (n : Node) :
    o.Saves n (n.mapFirst f) := by
  intro up
  rw [see_mapFirst o hf]

theorem saves_withLeading (n : Node) (trivia : List Trivia) : o.Saves n (n.withLeading trivia) :=
  saves_mapFirst (Token.leadingOnly_set fun _ => trivia) n

theorem savesIn_withLeading (n : Node) (trivia : List Trivia) :
    o.SavesIn n.top n.children (n.withLeading trivia).children := by
  obtain ⟨kind, children, span, tags⟩ := n
  intro up
  rw [Node.withLeading, Node.mapFirst]
  simp only [seeIn_mapFirstIn o (Token.leadingOnly_set fun _ => trivia)]
  exact .refl _

theorem savesIn_withTrailing (n : Node) (trivia : List Trivia) :
    o.SavesIn n.top n.children (n.withTrailing trivia).children := by
  obtain ⟨kind, children, span, tags⟩ := n
  intro up
  rw [Node.withTrailing, Node.mapLast]
  simp only [seeIn_mapLastIn o (Token.trailingOnly_set fun _ => trivia)]
  exact .refl _

section Parts

variable {top : Top} {xs : List Element}

/-- Parts of which nothing is seen give way to any others. -/
theorem savesIn_splice (xs ys : List Element) {old : List Element}
    (hold : o.IgnoresIn top old) (new : List Element) :
    o.SavesIn top (xs ++ old ++ ys) (xs ++ new ++ ys) := by
  intro up
  simp only [seeIn_append, hold up, List.append_nil]
  exact (List.sublist_append_left _ _).append_right _

theorem savesIn_insert (xs ys new : List Element) :
    o.SavesIn top (xs ++ ys) (xs ++ new ++ ys) := by
  have h := savesIn_splice xs ys (ignoresIn_nil (o := o) top) new
  rwa [List.append_nil] at h

theorem savesIn_insertAt (i : Nat) (xs new : List Element) :
    o.SavesIn top xs (xs.take i ++ new ++ xs.drop i) := by
  have h : o.SavesIn top _ _ := savesIn_insert (xs.take i) (xs.drop i) new
  rwa [List.take_append_drop] at h

theorem savesIn_set {i : Nat} {c c' : Node} (hc : xs[i]? = some (.node c)) (h : o.Saves c c') :
    o.SavesIn top xs (xs.set i (.node c')) := by
  intro up
  obtain ⟨hlt, hget⟩ := List.getElem?_eq_some_iff.1 hc
  rw [List.set_eq_take_append_cons_drop, if_pos hlt]
  conv_lhs => rw [← List.take_append_drop i xs, List.drop_eq_getElem_cons hlt, hget]
  simp only [seeIn_append, seeIn_node]
  exact ((h _).append_right _).append_left _

/-- A part of which nothing is seen there gives way to another. -/
theorem savesIn_set_of_ignored {i : Nat} {c : Node} (hc : xs[i]? = some (.node c))
    (hignores : ∀ up, o.see (top :: up) c = []) (e : Element) :
    o.SavesIn top xs (xs.set i e) := by
  obtain ⟨hlt, hget⟩ := List.getElem?_eq_some_iff.1 hc
  have hold : o.IgnoresIn top [.node c] := fun up => by simp [hignores]
  have hsplice := savesIn_splice (xs.take i) (xs.drop (i + 1)) hold [e]
  have hwhole : xs.take i ++ [.node c] ++ xs.drop (i + 1) = xs := by
    rw [List.append_assoc, List.singleton_append, ← hget, ← List.drop_eq_getElem_cons hlt,
      List.take_append_drop]
  rw [List.set_eq_take_append_cons_drop, if_pos hlt]
  rwa [hwhole, List.append_assoc, List.singleton_append] at hsplice

theorem savesIn_modify_mapFirst {f : Token → Token} (hf : Token.LeadingOnly f) (j : Nat) :
    o.SavesIn top xs (xs.modify j (·.mapFirst f)) := by
  intro up
  rw [seeIn_modify o _ (seePart_mapFirst o hf _)]

theorem savesIn_modify_mapLast {f : Token → Token} (hf : Token.TrailingOnly f) (j : Nat) :
    o.SavesIn top xs (xs.modify j (·.mapLast f)) := by
  intro up
  rw [seeIn_modify o _ (seePart_mapLast o hf _)]

theorem isToken_of_map {e : Option Element} (h : (e.map (·.isToken ",")).getD false = true) :
    ∃ u, e = some (.token u) := by
  rcases e with _ | (u | n)
  · cases h
  · exact ⟨u, rfl⟩
  · cases h

/-- An item of which nothing is seen goes from a list, with its comma. -/
theorem savesIn_dropItem {i : Nat} {m : Node} (hc : xs[i]? = some (.node m))
    (hignores : o.Ignores m) : o.SavesIn top xs (Tree.dropItem i xs) := by
  -- What goes is a stretch of parts of which nothing is seen.
  have hdrop : ∀ {j k}, j ≤ k → o.IgnoresIn top ((xs.take k).drop j) →
      o.SavesIn top xs (xs.take j ++ xs.drop k) := by
    intro j k hjk hold
    have hsplice := savesIn_splice (xs.take j) (xs.drop k) hold []
    have hwhole : xs.take j ++ (xs.take k).drop j ++ xs.drop k = xs := by
      have htake : xs.take j = (xs.take k).take j := by rw [List.take_take, Nat.min_eq_left hjk]
      rw [htake, List.take_append_drop, List.take_append_drop]
    rwa [hwhole, List.append_nil] at hsplice
  obtain ⟨hlt, hget⟩ := List.getElem?_eq_some_iff.1 hc
  have hitem : o.IgnoresIn top [.node m] := (ignoresIn_nil _).node hignores
  simp only [Tree.dropItem]
  split
  · rename_i hcomma
    obtain ⟨u, hu⟩ := isToken_of_map hcomma
    obtain ⟨hlt', hget'⟩ := List.getElem?_eq_some_iff.1 hu
    refine hdrop (by omega) ?_
    rw [List.drop_take, List.drop_eq_getElem_cons hlt, List.drop_eq_getElem_cons hlt', hget, hget']
    simp only [Nat.add_sub_cancel_left, List.take_succ_cons, List.take_zero]
    exact ((ignoresIn_nil _).token u).node hignores
  · split
    · rename_i hcomma
      rw [Bool.and_eq_true, decide_eq_true_eq] at hcomma
      obtain ⟨u, hu⟩ := isToken_of_map hcomma.2
      obtain ⟨hlt', hget'⟩ := List.getElem?_eq_some_iff.1 hu
      have hrest : o.SavesIn top xs (xs.take (i - 1) ++ xs.drop (i + 1)) := by
        refine hdrop (by omega) ?_
        have hi : i - 1 + 1 = i := by omega
        rw [List.drop_take, List.drop_eq_getElem_cons hlt', hi, List.drop_eq_getElem_cons hlt, hget,
          hget', show i + 1 - (i - 1) = 2 by omega]
        exact hitem.token u
      split
      · exact hrest
      · exact hrest.trans (savesIn_modify_mapLast (Token.trailingOnly_set _) _)
    · rw [List.eraseIdx_eq_take_drop_succ]
      refine hdrop (by omega) ?_
      rw [List.drop_take, List.drop_eq_getElem_cons hlt, hget, Nat.add_sub_cancel_left]
      exact hitem

end Parts

section Blind

variable {Q : Top → Prop} (hblind : o.BlindTo Q)

include hblind

/-- A node that the observer is blind to, with other parts that save what is seen of its parts. -/
theorem BlindTo.saves {n n' : Node} (hn : n.Holds Q) (htop : n'.top = n.top)
    (h : o.SavesIn n.top n.children n'.children) : o.Saves n n' := by
  intro up
  rw [see_eq, see_eq, htop]
  exact (hblind up n n' hn htop).append (h up)

/-- A node put in the place of one that the observer is blind to. -/
theorem BlindTo.saves_put {n n' m r : Node} {p : Path} (hat : n.at? p = some m) (hm : m.Holds Q)
    (hr : o.Saves m r) (h : Node.Put r p n n') : o.Saves n n' := by
  induction h with
  | here n =>
    obtain rfl := Option.some.inj hat
    exact hr
  | @under n c c' i p child rest ih =>
    obtain ⟨d, hd, hat⟩ := Node.at?_cons_eq_some.1 hat
    obtain rfl : c = d := by simpa [child] using hd
    exact hblind.saves ((hm.of_at? hat).of_child child) rfl (savesIn_set child (ih hat))

/-! ## Edits of trees -/

variable {t t' : Tree} {p : Path} {m : Node}

theorem BlindTo.saves_insert {i : Nat} {parts : List Element} (hat : t.root.at? p = some m)
    (hm : m.Holds Q) (h : t.insert p i parts = .ok t') : o.Saves t.root t'.root := by
  obtain ⟨u, hu, -, hput⟩ := Tree.insert_eq_ok h
  obtain rfl : m = u := Option.some.inj (hat.symm.trans hu)
  refine hblind.saves_put hat hm ?_ hput
  exact hblind.saves hm rfl (savesIn_insertAt i m.children parts)

/-- A node of which nothing is seen gives way to others. -/
theorem BlindTo.saves_replaceMany {replacements : List Node} (hat : t.root.at? p = some m)
    (hm : m.Holds Q) (hignores : o.Ignores m) (h : t.replaceMany p replacements = .ok t') :
    o.Saves t.root t'.root := by
  obtain ⟨rfl, -⟩ | ⟨q, i, u, -, hu, hc, hput⟩ := Tree.replaceMany_eq_ok hat h
  · obtain rfl := Option.some.inj hat
    exact hignores.saves _
  · refine hblind.saves_put hu (hm.of_child hc) ?_ hput
    refine hblind.saves (hm.of_child hc) rfl ?_
    have hsplice := savesIn_splice (u.children.take i) (u.children.drop (i + 1))
      ((ignoresIn_nil u.top).node hignores) (replacements.map .node)
    rwa [List.append_assoc, List.singleton_append, ← Node.children_split hc] at hsplice

/-- The token next to a node gets other trivia on the side of the node; the node stays. -/
theorem BlindTo.saves_updateNear (side : Node.Side) {f : Token → Token} (hf : side.Only f)
    (hat : t.root.at? p = some m) (hm : m.Holds Q) (h : t.updateNear side p f = .ok t') :
    o.Saves t.root t'.root ∧ t'.root.at? p = some m := by
  obtain ⟨w, hw, hstays, -, -⟩ := Tree.around_updateNear side f hat
  obtain rfl : w = t' := Except.ok.inj (hw.symm.trans h)
  refine ⟨?_, hstays⟩
  obtain rfl | ⟨q, r, j, u, -, hu, hat, hput⟩ := Tree.updateNear_eq_ok hat h
  · exact .refl _
  · refine hblind.saves_put hu (hm.of_at? hat) ?_ hput
    refine hblind.saves (hm.of_at? hat) rfl ?_
    cases side with
    | before => exact savesIn_modify_mapLast hf j
    | after => exact savesIn_modify_mapFirst hf j

theorem BlindTo.saves_handOver {removed : Node} {option : RemoveOption}
    (hat : t.root.at? p = some m) (hm : m.Holds Q) (h : t.handOver p removed option = .ok t') :
    o.Saves t.root t'.root ∧ t'.root.at? p = some m := by
  obtain rfl | hafter | ⟨trailing, hbefore⟩ := Tree.handOver_eq_ok h
  · exact ⟨.refl _, hat⟩
  · exact hblind.saves_updateNear .after (Token.leadingOnly_set _) hat hm hafter
  · exact hblind.saves_updateNear .before (Token.trailingOnly_set _) hat hm hbefore

/-- A node of which nothing is seen goes. -/
theorem BlindTo.saves_remove {option : RemoveOption} (hat : t.root.at? p = some m)
    (hm : m.Holds Q) (hignores : o.Ignores m) (h : t.remove p option = .ok t') :
    o.Saves t.root t'.root := by
  obtain ⟨q, i, w, u, rfl, hw, hu, hput⟩ := Tree.remove_eq_ok hat h
  obtain ⟨hsaves, hat'⟩ := hblind.saves_handOver hat hm hw
  rw [Node.at?_append, hu] at hat'
  obtain ⟨c, hc, hat'⟩ := Node.at?_cons_eq_some.1 hat'
  obtain rfl : c = m := Option.some.inj hat'
  refine hsaves.trans (hblind.saves_put hu (hm.of_child hc) ?_ hput)
  refine hblind.saves (hm.of_child hc) rfl ?_
  have hsplice := savesIn_splice (u.children.take i) (u.children.drop (i + 1))
    ((ignoresIn_nil u.top).node hignores) []
  rwa [List.append_assoc, List.singleton_append, ← Node.children_split hc, List.append_nil,
    ← List.eraseIdx_eq_take_drop_succ] at hsplice

/-- An item of a list goes, with a comma. -/
theorem BlindTo.saves_removeItem (hat : t.root.at? p = some m) (hm : m.Holds Q)
    (hignores : o.Ignores m) (h : t.removeItem p = .ok t') : o.Saves t.root t'.root := by
  obtain ⟨q, i, u, rfl, hu, -, hput⟩ := Tree.removeItem_eq_ok h
  rw [Node.at?_append, hu] at hat
  obtain ⟨c, hc, hat⟩ := Node.at?_cons_eq_some.1 hat
  obtain rfl : c = m := Option.some.inj hat
  refine hblind.saves_put hu (hm.of_child hc) ?_ hput
  exact hblind.saves (hm.of_child hc) rfl (savesIn_dropItem hc hignores)

end Blind

end Observer

end Recast
