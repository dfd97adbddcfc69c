-- SUMMARY: Bound trees, in which every suffix follows a primary expression, and what the edits of a tree at a path do to them.
import Recast.Proofs.Grammar.Formatting
import Recast.Proofs.Tree.Putting

/-! # Suffixes and what they follow

The grammar reads a suffix as part of the primary expression in front of it, so in every tree that
was read a suffix follows a primary expression (`Node.Bound`). An edit that puts another node in
the place of one that a suffix follows keeps this up exactly when the new one is primary
(`Node.Put.bound_iff`). All other edits of a tree keep it up (`Node.Keeps`). -/

namespace Recast

/-! ## Suffixes and their operands -/

namespace Node

/-- Every suffix in a node follows a primary expression. -/
inductive Bound : Node → Prop where
  | intro {n : Node}
      (operand : n.kind.isSuffixed = true → ∀ c, n.children.head? = some (.node c) →
        c.kind.isPrimary = true)
      (below : ∀ c, .node c ∈ n.children → c.Bound) : n.Bound

/-- A suffix follows the node at a path. -/
def OperandAt (n : Node) (p : Path) : Prop :=
  ∃ q u, p = q ++ [0] ∧ n.at? q = some u ∧ u.kind.isSuffixed = true

theorem Built.bound {n : Node} (h : n.Built) : n.Bound := by
  induction h with
  | ofChildren fits built ih => exact .intro fits.operand ih

theorem Bound.operand {n : Node} (h : n.Bound) (hsuffix : n.kind.isSuffixed = true) {c : Node}
    (hc : n.children.head? = some (.node c)) : c.kind.isPrimary = true := by
  cases h with
  | intro operand below => exact operand hsuffix c hc

theorem Bound.child {n c : Node} (h : n.Bound) (hc : .node c ∈ n.children) : c.Bound := by
  cases h with
  | intro operand below => exact below c hc

theorem Bound.at? {n m : Node} {p : Path} (h : n.Bound) (hat : n.at? p = some m) : m.Bound := by
  induction p generalizing n with
  | nil =>
    obtain rfl := Option.some.inj hat
    exact h
  | cons i p ih =>
    obtain ⟨c, hc, hat⟩ := at?_cons_eq_some.1 hat
    exact ih (h.child (List.mem_of_getElem? hc)) hat

/-- The operand of a suffix is primary, wherever it stands. -/
theorem Bound.operandAt {n m : Node} {p : Path} (h : n.Bound) (hp : n.OperandAt p)
    (hat : n.at? p = some m) : m.kind.isPrimary = true := by
  obtain ⟨q, u, rfl, hu, hsuffix⟩ := hp
  rw [at?_append, hu] at hat
  obtain ⟨c, hc, hat⟩ := at?_cons_eq_some.1 hat
  obtain rfl := Option.some.inj hat
  exact (h.at? hu).operand hsuffix (by rw [List.head?_eq_getElem?]; exact hc)

end Node

namespace Element

theorem getElem?_of_shapesIn {xs ys : List Element} (h : shapesIn xs = shapesIn ys) {i : Nat}
    {n : Node} (hn : xs[i]? = some (.node n)) :
    ∃ m, ys[i]? = some (.node m) ∧ n.shape = m.shape := by
  have hi : (ys[i]?).map shape = some n.shape := by
    rw [← List.getElem?_map, ← shapesIn_eq_map, ← h, shapesIn_eq_map, List.getElem?_map, hn]
    rfl
  obtain ⟨e, he, hshape⟩ := Option.map_eq_some_iff.1 hi
  cases e with
  | token t => rw [shape_token, Node.shape_eq] at hshape; cases hshape
  | node m => exact ⟨m, he, hshape.symm⟩

theorem shapesIn_modify {f : Element → Element} (hf : ∀ e, (f e).shape = e.shape)
    (es : List Element) (i : Nat) : shapesIn (es.modify i f) = shapesIn es := by
  rw [shapesIn_eq_map, shapesIn_eq_map]
  apply List.ext_getElem?
  intro j
  rw [List.getElem?_map, List.getElem?_modify, List.getElem?_map]
  cases es[j]? with
  | none => rfl
  | some e => by_cases hij : i = j <;> simp [hij, hf]

end Element

/-- It shows in the shape whether suffixes follow primary expressions. -/
theorem Node.Bound.of_shape {n m : Node} (h : n.Bound) (hshape : n.shape = m.shape) : m.Bound := by
  induction h generalizing m with
  | @intro n operand below ih =>
    have hkind := kind_eq_of_shape hshape
    have hchildren := shapesIn_children hshape
    refine .intro ?_ ?_
    · intro hsuffix c hc
      rw [List.head?_eq_getElem?] at hc
      obtain ⟨d, hd, hcd⟩ := Element.getElem?_of_shapesIn hchildren.symm hc
      rw [kind_eq_of_shape hcd]
      exact operand (hkind ▸ hsuffix) d (by rw [List.head?_eq_getElem?]; exact hd)
    · intro c hc
      obtain ⟨i, hi⟩ := List.mem_iff_getElem?.1 hc
      obtain ⟨d, hd, hcd⟩ := Element.getElem?_of_shapesIn hchildren.symm hi
      exact ih d (List.mem_of_getElem? hd) hcd.symm

/-! ## A node in the place of another -/

namespace Node

theorem operandAt_cons {n c : Node} {i : Nat} {p : Path} (hc : n.children[i]? = some (.node c))
    (hp : p ≠ []) : n.OperandAt (i :: p) ↔ c.OperandAt p := by
  constructor
  · rintro ⟨q, u, hq, hat, hsuffix⟩
    cases q with
    | nil => exact absurd (List.cons.inj hq).2 hp
    | cons j q =>
      obtain ⟨rfl, rfl⟩ := List.cons.inj hq
      obtain ⟨d, hd, hat⟩ := at?_cons_eq_some.1 hat
      obtain rfl : c = d := by simpa [hc] using hd
      exact ⟨q, u, rfl, hat, hsuffix⟩
  · rintro ⟨q, u, rfl, hat, hsuffix⟩
    exact ⟨i :: q, u, rfl, at?_cons_eq_some.2 ⟨c, hc, hat⟩, hsuffix⟩

theorem operandAt_single {n : Node} {i : Nat} :
    n.OperandAt [i] ↔ i = 0 ∧ n.kind.isSuffixed = true := by
  constructor
  · rintro ⟨q, u, hq, hat, hsuffix⟩
    cases q with
    | nil =>
      obtain rfl := Option.some.inj hat
      exact ⟨(List.cons.inj hq).1, hsuffix⟩
    | cons j q => simp at hq
  · rintro ⟨rfl, hsuffix⟩
    exact ⟨[], n, rfl, rfl, hsuffix⟩

/-- A node with another child keeps its suffixes bound when the child's are, and when the child is
    primary where a suffix follows it. -/
theorem bound_set_child {n c c' : Node} {i : Nat} (hn : n.Bound)
    (hc : n.children[i]? = some (.node c)) :
    (n.withChildren (n.children.set i (.node c'))).Bound ↔
      c'.Bound ∧ (n.OperandAt [i] → c'.kind.isPrimary = true) := by
  have hself : (n.children.set i (.node c'))[i]? = some (.node c') := getElem?_set_child hc
  constructor
  · intro h
    refine ⟨h.child (List.mem_of_getElem? hself), ?_⟩
    rw [operandAt_single]
    rintro ⟨rfl, hsuffix⟩
    exact h.operand hsuffix (by rw [List.head?_eq_getElem?]; exact hself)
  · rintro ⟨hbound, hprimary⟩
    refine .intro ?_ ?_
    · intro hsuffix d hd
      rw [List.head?_eq_getElem?] at hd
      -- Only the first child can be an operand of a suffix.
      by_cases hi : i = 0
      · subst hi
        obtain rfl : c' = d := by
          have hd' : (n.children.set 0 (.node c'))[0]? = some (.node d) := hd
          simpa [hself] using hd'
        exact hprimary (operandAt_single.2 ⟨rfl, hsuffix⟩)
      · have hd' : (n.children.set i (.node c'))[0]? = some (.node d) := hd
        rw [List.getElem?_set_ne hi, ← List.head?_eq_getElem?] at hd'
        exact hn.operand hsuffix hd'
    · intro d hd
      rcases List.mem_or_eq_of_mem_set hd with hd | hd
      · exact hn.child hd
      · obtain rfl := Element.node.inj hd
        exact hbound

/-- A node that is not primary, put in the place of one that a suffix follows. -/
def Loosens (n : Node) (p : Path) (r : Node) : Prop :=
  n.OperandAt p ∧ r.kind.isPrimary = false

theorem not_loosens {n r : Node} {p : Path} :
    ¬n.Loosens p r ↔ r.kind.isPrimary = true ∨ ¬n.OperandAt p := by
  rw [Loosens, not_and, Bool.not_eq_false, ← imp_iff_or_not]

/-- Suffixes stay bound exactly when what is put somewhere is primary or no suffix follows it
    there. -/
theorem Put.bound_iff {r n n' : Node} {p : Path} (h : Put r p n n') (hn : n.Bound) (hr : r.Bound) :
    n'.Bound ↔ ¬n.Loosens p r := by
  rw [not_loosens]
  induction h with
  | here n =>
    refine ⟨fun _ => .inr ?_, fun _ => hr⟩
    rintro ⟨q, u, hq, -⟩
    simp at hq
  | @under n c c' i p child rest ih =>
    have hc := hn.child (List.mem_of_getElem? child)
    rw [bound_set_child hn child, ih hc]
    cases rest with
    | here =>
      have hroot : ¬c.OperandAt [] := by
        rintro ⟨q, u, hq, -⟩
        simp at hq
      by_cases hoperand : n.OperandAt [i] <;> simp [hroot, hoperand]
    | @under _ e e' j p child' rest' =>
      -- The child is not replaced itself, so it is as primary as it was.
      rw [operandAt_cons child (List.cons_ne_nil j p)]
      have hprimary : n.OperandAt [i] → c.kind.isPrimary = true := by
        rw [operandAt_single]
        rintro ⟨rfl, hsuffix⟩
        exact hn.operand hsuffix (by rw [List.head?_eq_getElem?]; exact child)
      exact ⟨fun h => h.1, fun h => ⟨h, hprimary⟩⟩

end Node

/-! ## Trivia -/

section Trivia

variable {f : Token → Token}

mutual

theorem Node.shape_mapFirst (hf : ∀ t, (f t).text = t.text) :
    (n : Node) → (n.mapFirst f).shape = n.shape
  | ⟨kind, children, span, tags⟩ => by
    simp only [Node.mapFirst, Node.shape, Element.shapesIn_mapFirstIn hf children]

theorem Element.shape_mapFirst (hf : ∀ t, (f t).text = t.text) :
    (e : Element) → (e.mapFirst f).shape = e.shape
  | .token t => by simp only [Element.mapFirst, Element.shape, hf]
  | .node n => by simp only [Element.mapFirst, Element.shape, Node.shape_mapFirst hf n]

theorem Element.shapesIn_mapFirstIn (hf : ∀ t, (f t).text = t.text) :
    (es : List Element) → Element.shapesIn (Element.mapFirstIn f es) = Element.shapesIn es
  | [] => rfl
  | e :: es => by
    rw [Element.mapFirstIn]
    split
    · simp only [Element.shapesIn_cons, Element.shape_mapFirst hf e]
    · simp only [Element.shapesIn_cons, Element.shapesIn_mapFirstIn hf es]

end

mutual

theorem Node.shape_mapLast (hf : ∀ t, (f t).text = t.text) :
    (n : Node) → (n.mapLast f).shape = n.shape
  | ⟨kind, children, span, tags⟩ => by
    simp only [Node.mapLast, Node.shape, Element.shapesIn_mapLastIn hf children]

theorem Element.shape_mapLast (hf : ∀ t, (f t).text = t.text) :
    (e : Element) → (e.mapLast f).shape = e.shape
  | .token t => by simp only [Element.mapLast, Element.shape, hf]
  | .node n => by simp only [Element.mapLast, Element.shape, Node.shape_mapLast hf n]

theorem Element.shapesIn_mapLastIn (hf : ∀ t, (f t).text = t.text) :
    (es : List Element) → Element.shapesIn (Element.mapLastIn f es) = Element.shapesIn es
  | [] => rfl
  | e :: es => by
    rw [Element.mapLastIn]
    split
    · simp only [Element.shapesIn_cons, Element.shapesIn_mapLastIn hf es]
    · simp only [Element.shapesIn_cons, Element.shape_mapLast hf e]

end

theorem Element.shapesIn_modify_mapLast (hf : ∀ t, (f t).text = t.text) (es : List Element)
    (i : Nat) : shapesIn (es.modify i (·.mapLast f)) = shapesIn es :=
  shapesIn_modify (shape_mapLast hf) es i

end Trivia

theorem Node.shape_withLeading (n : Node) (trivia : List Trivia) :
    (n.withLeading trivia).shape = n.shape := by
  unfold withLeading
  apply shape_mapFirst
  intro t
  rfl

theorem Node.shape_set_child {n c c' : Node} {i : Nat} (hc : n.children[i]? = some (.node c))
    (h : c'.shape = c.shape) :
    (n.withChildren (n.children.set i (.node c'))).shape = n.shape := by
  obtain ⟨hi, hget⟩ := List.getElem?_eq_some_iff.1 hc
  rw [shape_eq n, shape_eq, withChildren]
  refine congrArg _ ?_
  rw [Element.shapesIn_eq_map, List.map_set, Element.shape_node, h, ← Element.shape_node, ← hget,
    ← List.getElem_map Element.shape, List.set_getElem_self, Element.shapesIn_eq_map]
  simpa using hi

/-- A node with the shape of the one that it takes the place of does not show in the shape of the
    whole. -/
theorem Node.shape_eq_of_put {n n' m r : Node} {p : Path} (hat : n.at? p = some m)
    (hr : r.shape = m.shape) (h : Put r p n n') : n'.shape = n.shape := by
  induction h with
  | here n =>
    obtain rfl := Option.some.inj hat
    exact hr
  | under child rest ih =>
    obtain ⟨c, hc, hat⟩ := at?_cons_eq_some.1 hat
    obtain rfl := Element.node.inj (Option.some.inj (child.symm.trans hc))
    exact shape_set_child child (ih hat)

/-! ## Edits that keep suffixes bound -/

/-- Every node among some parts has its suffixes bound. -/
def Element.BoundIn (es : List Element) : Prop :=
  ∀ c, .node c ∈ es → c.Bound

namespace Element

variable {xs ys : List Element}

theorem BoundIn.of_subset (h : BoundIn xs) (hsub : ∀ e ∈ ys, e ∈ xs) : BoundIn ys :=
  fun c hc => h c (hsub _ hc)

theorem boundIn_nil : BoundIn [] :=
  fun _ hc => nomatch hc

theorem boundIn_token {u : Token} (h : BoundIn xs) : BoundIn (.token u :: xs) :=
  fun c hc => h c (by simpa using hc)

theorem boundIn_tokens (ts : List Token) : BoundIn (ts.map .token) := by
  induction ts with
  | nil => exact boundIn_nil
  | cons u ts ih => exact boundIn_token ih

theorem boundIn_append (hx : BoundIn xs) (hy : BoundIn ys) : BoundIn (xs ++ ys) := by
  intro c hc
  rcases List.mem_append.1 hc with hc | hc
  · exact hx c hc
  · exact hy c hc

theorem boundIn_cons {n : Node} (hn : n.Bound) (h : BoundIn xs) : BoundIn (.node n :: xs) := by
  intro c hc
  rcases List.mem_cons.1 hc with hc | hc
  · obtain rfl := node.inj hc
    exact hn
  · exact h c hc

theorem BoundIn.set {n : Node} (h : BoundIn xs) (hn : n.Bound) (i : Nat) :
    BoundIn (xs.set i (.node n)) := by
  intro c hc
  rcases List.mem_or_eq_of_mem_set hc with hc | hc
  · exact h c hc
  · obtain rfl := node.inj hc
    exact hn

/-- It shows in the shapes of parts whether suffixes follow primary expressions. -/
theorem BoundIn.of_shapesIn (h : BoundIn xs) (hshape : shapesIn xs = shapesIn ys) : BoundIn ys := by
  intro c hc
  obtain ⟨i, hi⟩ := List.mem_iff_getElem?.1 hc
  obtain ⟨d, hd, hcd⟩ := getElem?_of_shapesIn hshape.symm hi
  exact (h d (List.mem_of_getElem? hd)).of_shape hcd.symm

end Element

theorem Node.bound_ofChildren {kind : Kind} {es : List Element} (hkind : kind.isSuffixed = false)
    (hes : Element.BoundIn es) : (Node.ofChildren kind es).Bound :=
  .intro (fun hsuffix => absurd (hkind.symm.trans hsuffix) Bool.false_ne_true) hes

theorem Node.Bound.children {n : Node} (h : n.Bound) : Element.BoundIn n.children :=
  fun _ hc => h.child hc

namespace Node

/-- A node in the place of another of the same kind and with the same tags, which has its suffixes
    bound if the other has. -/
structure Keeps (n n' : Node) : Prop where
  kind_eq : n'.kind = n.kind
  tags_eq : n'.tags = n.tags
  bound : n.Bound → n'.Bound

theorem Keeps.refl (n : Node) : n.Keeps n :=
  ⟨rfl, rfl, id⟩

theorem Keeps.trans {n n' n'' : Node} (h : n.Keeps n') (h' : n'.Keeps n'') : n.Keeps n'' :=
  ⟨h'.kind_eq.trans h.kind_eq, h'.tags_eq.trans h.tags_eq, fun hn => h'.bound (h.bound hn)⟩

theorem keeps_mapFirst {f : Token → Token} (hf : ∀ t, (f t).text = t.text) (n : Node) :
    n.Keeps (n.mapFirst f) := by
  obtain ⟨kind, children, span, tags⟩ := n
  exact ⟨rfl, rfl, fun hn => hn.of_shape (shape_mapFirst hf _).symm⟩

theorem keeps_mapLast {f : Token → Token} (hf : ∀ t, (f t).text = t.text) (n : Node) :
    n.Keeps (n.mapLast f) := by
  obtain ⟨kind, children, span, tags⟩ := n
  exact ⟨rfl, rfl, fun hn => hn.of_shape (shape_mapLast hf _).symm⟩

theorem keeps_withLeading (n : Node) (trivia : List Trivia) : n.Keeps (n.withLeading trivia) := by
  unfold withLeading
  apply keeps_mapFirst
  intro t
  rfl

theorem keeps_withTrailing (n : Node) (trivia : List Trivia) : n.Keeps (n.withTrailing trivia) := by
  unfold withTrailing
  apply keeps_mapLast
  intro t
  rfl

theorem keeps_withTriviaOf (n other : Node) : n.Keeps (n.withTriviaOf other) :=
  (keeps_withLeading n _).trans (keeps_withTrailing _ _)

/-- Other parts for a node that is no suffix. -/
theorem keeps_withChildren {n : Node} {es : List Element} (hn : n.kind.isSuffixed = false)
    (below : n.Bound → Element.BoundIn es) : n.Keeps (n.withChildren es) := by
  refine ⟨rfl, rfl, fun hbound => .intro (fun hsuffix => ?_) (below hbound)⟩
  exact absurd (hn.symm.trans hsuffix) Bool.false_ne_true

/-- Parts put in the place of others. Where a suffix follows the first part, that one has to
    stay. -/
theorem keeps_splice {n : Node} {i j : Nat} {parts : List Element}
    (hi : n.Bound → n.kind.isSuffixed = true → 0 < i ∧ i ≤ n.children.length)
    (hparts : Element.BoundIn parts) :
    n.Keeps (n.withChildren (n.children.take i ++ parts ++ n.children.drop j)) := by
  refine ⟨rfl, rfl, fun hbound => .intro ?_ ?_⟩
  · intro hsuffix c hc
    obtain ⟨hpos, hle⟩ := hi hbound hsuffix
    rcases hchildren : n.children with _ | ⟨e, es⟩
    · rw [hchildren] at hle
      exact absurd (Nat.lt_of_lt_of_le hpos hle) (Nat.lt_irrefl 0)
    · obtain ⟨k, rfl⟩ : ∃ k, i = k + 1 := ⟨i - 1, by omega⟩
      have hhead : some e = some (.node c) := by simpa [withChildren, hchildren] using hc
      exact hbound.operand hsuffix (by rw [hchildren]; exact hhead)
  · exact Element.boundIn_append
      (Element.boundIn_append (hbound.children.of_subset fun _ => List.mem_of_mem_take) hparts)
      (hbound.children.of_subset fun _ => List.mem_of_mem_drop)

/-- No suffix follows a node that is not primary. -/
theorem Bound.pos_of_not_primary {n m : Node} {i : Nat} (h : n.Bound)
    (hm : n.children[i]? = some (.node m)) (hprimary : m.kind.isPrimary = false)
    (hsuffix : n.kind.isSuffixed = true) : 0 < i ∧ i ≤ n.children.length := by
  have hlt : i < n.children.length := (List.getElem?_eq_some_iff.1 hm).1
  refine ⟨Nat.pos_of_ne_zero ?_, Nat.le_of_lt hlt⟩
  rintro rfl
  rw [← List.head?_eq_getElem?] at hm
  exact absurd (hprimary.symm.trans (h.operand hsuffix hm)) Bool.false_ne_true

/-- What keeps a node keeps what the node stands in. -/
theorem Keeps.put {n n' m r : Node} {p : Path} (hr : m.Keeps r) (hat : n.at? p = some m)
    (h : Put r p n n') : n.Keeps n' := by
  induction h with
  | here n =>
    obtain rfl := Option.some.inj hat
    exact hr
  | under child rest ih =>
    obtain ⟨c, hc, hat⟩ := at?_cons_eq_some.1 hat
    obtain rfl := Element.node.inj (Option.some.inj (child.symm.trans hc))
    have hkeeps := ih hat
    refine ⟨rfl, rfl, fun hn => (bound_set_child hn child).2 ⟨?_, ?_⟩⟩
    · exact hkeeps.bound (hn.child (List.mem_of_getElem? child))
    · rw [operandAt_single, hkeeps.kind_eq]
      rintro ⟨rfl, hsuffix⟩
      exact hn.operand hsuffix (by rw [List.head?_eq_getElem?]; exact child)

theorem exists_at?_of_shape {n m u : Node} {p : Path} (h : n.shape = m.shape)
    (hu : n.at? p = some u) : ∃ v, m.at? p = some v ∧ u.shape = v.shape := by
  induction p generalizing n m with
  | nil =>
    obtain rfl := Option.some.inj hu
    exact ⟨m, rfl, h⟩
  | cons i p ih =>
    obtain ⟨c, hc, hu⟩ := at?_cons_eq_some.1 hu
    obtain ⟨d, hd, hshape⟩ := Element.getElem?_of_shapesIn (shapesIn_children h) hc
    obtain ⟨v, hv, huv⟩ := ih hshape hu
    exact ⟨v, at?_cons_eq_some.2 ⟨d, hd, hv⟩, huv⟩

end Node

namespace Tree

open Element (BoundIn)

variable {t t' : Tree} {p : Path}

/-- Parts come in. Where a suffix follows the first part of a node, they come in after that. -/
theorem keeps_insert {index : Nat} {parts : List Element}
    (hindex : ∀ u, t.root.at? p = some u → u.kind.isSuffixed = true → 0 < index)
    (hparts : BoundIn parts) (h : t.insert p index parts = .ok t') :
    t.root.Keeps t'.root := by
  obtain ⟨u, hu, hle, hput⟩ := insert_eq_ok h
  exact (Node.keeps_splice (fun _ hsuffix => ⟨hindex u hu hsuffix, hle⟩) hparts).put hu hput

/-- A node that is not primary gives way to any number of others. -/
theorem keeps_replaceMany {m : Node} {replacements : List Node} (hp : p ≠ [])
    (hat : t.root.at? p = some m) (hm : m.kind.isPrimary = false)
    (hbound : ∀ r ∈ replacements, r.Bound) (h : t.replaceMany p replacements = .ok t') :
    t.root.Keeps t'.root := by
  obtain ⟨rfl, -⟩ | ⟨q, i, u, -, hu, hc, hput⟩ := replaceMany_eq_ok hat h
  · exact absurd rfl hp
  · refine (Node.keeps_splice (fun hu => hu.pos_of_not_primary hc hm) fun r hr => ?_).put hu hput
    simp only [List.mem_map, Element.node.injEq, exists_eq_right] at hr
    exact hbound r hr

/-- A token that keeps its text is changed beside a node. -/
theorem keeps_updateNear {m : Node} {side : Node.Side} {f : Token → Token}
    (hf : ∀ u, (f u).text = u.text) (hat : t.root.at? p = some m)
    (h : t.updateNear side p f = .ok t') :
    t.root.Keeps t'.root ∧ t'.root.shape = t.root.shape := by
  obtain rfl | ⟨q, r, j, u, -, hu, -, hput⟩ := updateNear_eq_ok hat h
  · exact ⟨.refl _, rfl⟩
  · have hshape : (u.modifyNear side f j).shape = u.shape := by
      rw [Node.shape_eq, Node.shape_eq u, Node.modifyNear, Node.withChildren]
      refine congrArg _ (Element.shapesIn_modify (fun e => ?_) _ _)
      cases side with
      | before => exact Element.shape_mapLast hf e
      | after => exact Element.shape_mapFirst hf e
    have hkeeps : u.Keeps (u.modifyNear side f j) := ⟨rfl, rfl, fun hu => hu.of_shape hshape.symm⟩
    exact ⟨hkeeps.put hu hput, Node.shape_eq_of_put hu hshape hput⟩

theorem keeps_handOver {m removed : Node} {option : RemoveOption} (hat : t.root.at? p = some m)
    (h : t.handOver p removed option = .ok t') :
    t.root.Keeps t'.root ∧ t'.root.shape = t.root.shape := by
  obtain rfl | hafter | ⟨trailing, hbefore⟩ := handOver_eq_ok h
  · exact ⟨.refl _, rfl⟩
  · refine keeps_updateNear ?_ hat hafter
    intro u
    rfl
  · refine keeps_updateNear ?_ hat hbefore
    intro u
    rfl

/-- A node that is not primary goes. -/
theorem keeps_remove {m : Node} {option : RemoveOption} (hat : t.root.at? p = some m)
    (hm : m.kind.isPrimary = false) (h : t.remove p option = .ok t') : t.root.Keeps t'.root := by
  obtain ⟨q, i, w, u, rfl, hw, hu, hput⟩ := remove_eq_ok hat h
  obtain ⟨hkeeps, hshape⟩ := keeps_handOver hat hw
  refine hkeeps.trans (Node.Keeps.put ?_ hu hput)
  rw [List.eraseIdx_eq_take_drop_succ, ← List.append_nil (u.children.take i)]
  obtain ⟨v, hv, hvm⟩ := Node.exists_at?_of_shape hshape.symm hat
  rw [Node.at?_append, hu] at hv
  obtain ⟨c, hc, hv⟩ := Node.at?_cons_eq_some.1 hv
  obtain rfl := Option.some.inj hv
  refine Node.keeps_splice (fun hu => hu.pos_of_not_primary hc ?_) (fun c hc => ?_)
  · rw [← Node.kind_eq_of_shape hvm]
    exact hm
  · cases hc

theorem boundIn_dropItem {es : List Element} (h : BoundIn es) (i : Nat) :
    BoundIn (dropItem i es) := by
  have hsplice : ∀ j k, BoundIn (es.take j ++ es.drop k) := fun j k =>
    Element.boundIn_append (h.of_subset fun _ => List.mem_of_mem_take)
      (h.of_subset fun _ => List.mem_of_mem_drop)
  simp only [dropItem]
  split
  · exact hsplice _ _
  · split
    · split
      · exact hsplice _ _
      · refine (hsplice (i - 1) (i + 1)).of_shapesIn ?_
        refine (Element.shapesIn_modify_mapLast ?_ _ _).symm
        intro u
        rfl
    · rw [List.eraseIdx_eq_take_drop_succ]
      exact hsplice _ _

/-- An item of a list goes. -/
theorem keeps_removeItem {q : Path} {i : Nat} {list : Node} (hat : t.root.at? q = some list)
    (hlist : list.kind.isSuffixed = false) (h : t.removeItem (q ++ [i]) = .ok t') :
    t.root.Keeps t'.root := by
  obtain ⟨q', i', u, hpath, hu, -, hput⟩ := removeItem_eq_ok h
  obtain ⟨rfl, -⟩ := List.append_inj' hpath rfl
  obtain rfl : list = u := Option.some.inj (hat.symm.trans hu)
  exact (Node.keeps_withChildren hlist fun hbound => boundIn_dropItem hbound.children i').put hu hput

end Tree

end Recast
