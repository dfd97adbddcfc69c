-- SUMMARY: Records that put expressions in the place of nodes that stand apart come to the same tree in any order: the tree with all of these nodes exchanged at once.
import Recast.Proofs.Analysis.Annotation
import Recast.Proofs.Edit.Relaying
import Recast.Proofs.Plan.Accounting
import Recast.Proofs.Tree.Tracking

/-! # Replacements that stand apart

A record that puts an expression in the place of its node finds the node by its tag in the tree that
the records before it left. When no node of such a record stands in that of another, the others
neither move nor change it. So a run comes to what `Node.exchange` makes of the tree in one go, which
does not ask for an order (`Tree.Apart.after_eq`).

`Node.pieces` cuts a tree in the nodes that are exchanged and the tokens around them, and an exchange
leaves these tokens as they are (`Node.tokens_exchange`). -/

namespace Recast

/-! ## Exchanging nodes -/

mutual

/-- The node with others in the place of some nodes, outermost first. -/
def Node.exchange (σ : Node → Option Node) : Node → Node
  | ⟨kind, children, span, tags⟩ =>
    (σ ⟨kind, children, span, tags⟩).getD ⟨kind, Element.exchangeIn σ children, span, tags⟩

/-- The part with others in the place of some nodes. -/
def Element.exchange (σ : Node → Option Node) : Element → Element
  | .token u => .token u
  | .node n => .node (n.exchange σ)

/-- The parts with others in the place of some nodes. -/
def Element.exchangeIn (σ : Node → Option Node) : List Element → List Element
  | [] => []
  | e :: es => e.exchange σ :: Element.exchangeIn σ es

end

mutual

/-- The nodes that are exchanged and the tokens around them, in document order. -/
def Node.pieces (σ : Node → Option Node) : Node → List Element
  | ⟨kind, children, span, tags⟩ =>
    if (σ ⟨kind, children, span, tags⟩).isSome then [.node ⟨kind, children, span, tags⟩]
    else Element.piecesIn σ children

/-- The pieces of a part. -/
def Element.pieces (σ : Node → Option Node) : Element → List Element
  | .token u => [.token u]
  | .node n => n.pieces σ

/-- The pieces of parts. -/
def Element.piecesIn (σ : Node → Option Node) : List Element → List Element
  | [] => []
  | e :: es => e.pieces σ ++ Element.piecesIn σ es

end

theorem Element.exchangeIn_eq_map {σ : Node → Option Node} (es : List Element) :
    exchangeIn σ es = es.map (exchange σ) := by
  induction es with
  | nil => rfl
  | cons e es ih => rw [exchangeIn, ih, List.map_cons]

namespace Node

variable {σ σ' : Node → Option Node} {n m r : Node} {p : Path}

theorem exchange_of_some (h : σ n = some r) : n.exchange σ = r := by
  obtain ⟨kind, children, span, tags⟩ := n
  rw [exchange, h, Option.getD_some]

theorem exchange_of_none (h : σ n = none) :
    n.exchange σ = n.withChildren (n.children.map (Element.exchange σ)) := by
  obtain ⟨kind, children, span, tags⟩ := n
  rw [exchange, h, Option.getD_none, Element.exchangeIn_eq_map]
  rfl

theorem getElem?_exchange (h : σ n = none) (i : Nat) :
    (n.exchange σ).children[i]? = n.children[i]?.map (Element.exchange σ) := by
  rw [exchange_of_none h, withChildren, List.getElem?_map]

/-- Below nodes that stay, what stands at a path is exchanged. -/
theorem at?_exchange (h : ∀ q i, q ++ [i] <+: p → ∀ u, n.at? q = some u → σ u = none) :
    (n.exchange σ).at? p = (n.at? p).map (exchange σ) := by
  induction p generalizing n with
  | nil => rfl
  | cons i p ih =>
    have hself : σ n = none := h [] i (List.cons_prefix_cons.2 ⟨rfl, List.nil_prefix⟩) n rfl
    simp only [at?, getElem?_exchange hself]
    rcases hc : n.children[i]? with _ | (u | c)
    · rfl
    · rfl
    · refine ih fun q j hq u hu => h (i :: q) j (List.cons_prefix_cons.2 ⟨rfl, hq⟩) u ?_
      exact at?_cons_eq_some.2 ⟨c, hc, hu⟩

end Node

mutual

/-- Only the nodes that stand in a node matter to what is exchanged in it. -/
theorem Node.exchange_congr {σ σ' : Node → Option Node} : (n : Node) →
    (∀ p m, n.at? p = some m → σ m = σ' m) → n.exchange σ = n.exchange σ'
  | ⟨kind, children, span, tags⟩, h => by
    rw [Node.exchange, Node.exchange, h [] _ rfl, Element.exchangeIn_congr children ?_]
    intro c hc p m hat
    obtain ⟨i, hi⟩ := List.mem_iff_getElem?.1 hc
    exact h (i :: p) m (Node.at?_cons_eq_some.2 ⟨c, hi, hat⟩)

theorem Element.exchange_congr {σ σ' : Node → Option Node} : (e : Element) →
    (∀ c, e = .node c → ∀ p m, c.at? p = some m → σ m = σ' m) → e.exchange σ = e.exchange σ'
  | .token _, _ => rfl
  | .node n, h => by rw [Element.exchange, Element.exchange, n.exchange_congr (h n rfl)]

theorem Element.exchangeIn_congr {σ σ' : Node → Option Node} : (es : List Element) →
    (∀ c, .node c ∈ es → ∀ p m, c.at? p = some m → σ m = σ' m) →
    Element.exchangeIn σ es = Element.exchangeIn σ' es
  | [], _ => rfl
  | e :: es, h => by
    rw [Element.exchangeIn, Element.exchangeIn, e.exchange_congr fun c hc => h c (hc ▸ List.mem_cons_self ..),
      Element.exchangeIn_congr es fun c hc => h c (List.mem_cons_of_mem e hc)]

end

mutual

theorem Node.exchange_none : (n : Node) → n.exchange (fun _ => none) = n
  | ⟨_, children, _, _⟩ => by rw [Node.exchange, Option.getD_none, Element.exchangeIn_none children]

theorem Element.exchange_none : (e : Element) → e.exchange (fun _ => none) = e
  | .token _ => rfl
  | .node n => by rw [Element.exchange, n.exchange_none]

theorem Element.exchangeIn_none : (es : List Element) → Element.exchangeIn (fun _ => none) es = es
  | [] => rfl
  | e :: es => by rw [Element.exchangeIn, e.exchange_none, Element.exchangeIn_none es]

end

/-! ### Tokens -/

mutual

theorem Node.tokensIn_pieces {σ : Node → Option Node} : (n : Node) →
    Element.tokensIn (n.pieces σ) = n.tokens
  | ⟨kind, children, span, tags⟩ => by
    rw [Node.pieces]
    split
    · rw [Element.tokensIn_cons, Element.tokensIn_nil, List.append_nil, Element.tokens_node]
    · exact Element.tokensIn_piecesIn children

theorem Element.tokensIn_pieces {σ : Node → Option Node} : (e : Element) →
    Element.tokensIn (e.pieces σ) = e.tokens
  | .token _ => rfl
  | .node n => n.tokensIn_pieces

theorem Element.tokensIn_piecesIn {σ : Node → Option Node} : (es : List Element) →
    Element.tokensIn (Element.piecesIn σ es) = Element.tokensIn es
  | [] => rfl
  | e :: es => by
    rw [Element.piecesIn, Element.tokensIn_append, e.tokensIn_pieces, Element.tokensIn_piecesIn es,
      Element.tokensIn_cons]

end

mutual

/-- An exchange changes the nodes that are exchanged alone. -/
theorem Node.tokens_exchange {σ : Node → Option Node} : (n : Node) →
    (n.exchange σ).tokens = Element.tokensIn ((n.pieces σ).map (Element.exchange σ))
  | ⟨kind, children, span, tags⟩ => by
    rw [Node.pieces]
    split
    · rw [List.map_singleton, Element.tokensIn_cons, Element.tokensIn_nil, List.append_nil]
      rfl
    · rename_i hstays
      rw [Node.exchange, Option.not_isSome_iff_eq_none.1 hstays, Option.getD_none, Node.tokens,
        Element.tokensIn_exchangeIn children]

theorem Element.tokens_exchange {σ : Node → Option Node} : (e : Element) →
    (e.exchange σ).tokens = Element.tokensIn ((e.pieces σ).map (Element.exchange σ))
  | .token _ => rfl
  | .node n => n.tokens_exchange

theorem Element.tokensIn_exchangeIn {σ : Node → Option Node} : (es : List Element) →
    Element.tokensIn (Element.exchangeIn σ es) =
      Element.tokensIn ((Element.piecesIn σ es).map (Element.exchange σ))
  | [] => rfl
  | e :: es => by
    rw [Element.exchangeIn, Element.piecesIn, List.map_append, Element.tokensIn_append,
      Element.tokensIn_cons, e.tokens_exchange, Element.tokensIn_exchangeIn es]

end

mutual

/-- The nodes among the pieces are exchanged. -/
theorem Node.isSome_of_mem_pieces {σ : Node → Option Node} {m : Node} : (n : Node) →
    .node m ∈ n.pieces σ → (σ m).isSome = true
  | ⟨_, children, _, _⟩, h => by
    rw [Node.pieces] at h
    split at h
    · rename_i hsome
      rwa [Element.node.inj (List.mem_singleton.1 h)]
    · exact Element.isSome_of_mem_piecesIn children h

theorem Element.isSome_of_mem_pieces {σ : Node → Option Node} {m : Node} : (e : Element) →
    .node m ∈ e.pieces σ → (σ m).isSome = true
  | .token _, h => nomatch List.mem_singleton.1 h
  | .node n, h => Node.isSome_of_mem_pieces n h

theorem Element.isSome_of_mem_piecesIn {σ : Node → Option Node} {m : Node} : (es : List Element) →
    .node m ∈ Element.piecesIn σ es → (σ m).isSome = true
  | [], h => nomatch h
  | e :: es, h => (List.mem_append.1 h).elim e.isSome_of_mem_pieces (Element.isSome_of_mem_piecesIn es)

end

namespace Node

variable {σ σ' : Node → Option Node} {n n' m r : Node} {p : Path}

theorem exchange_eq_self (h : ∀ p m, n.at? p = some m → σ m = none) : n.exchange σ = n :=
  (n.exchange_congr h).trans n.exchange_none

/-- One more node that is exchanged, none of those that it stands in being so. -/
theorem Put.exchange (hput : Put r p (n.exchange σ) n') (hat : n.at? p = some m)
    (habove : ∀ q i, q ++ [i] <+: p → ∀ u, n.at? q = some u → σ u = none) (hm : σ' m = some r)
    (hother : ∀ q u, n.at? q = some u → q ≠ p → σ' u = σ u) : n' = n.exchange σ' := by
  induction p generalizing n n' with
  | nil =>
    obtain rfl := Option.some.inj hat
    cases hput
    exact (exchange_of_some hm).symm
  | cons i p ih =>
    obtain ⟨c, hc, hat⟩ := at?_cons_eq_some.1 hat
    have hself : σ n = none := habove [] i (List.cons_prefix_cons.2 ⟨rfl, List.nil_prefix⟩) n rfl
    have hself' : σ' n = none := (hother [] n rfl (List.cons_ne_nil i p).symm).trans hself
    cases hput with
    | @under _ d d' _ _ child rest =>
      rw [getElem?_exchange hself, hc] at child
      obtain rfl : c.exchange σ = d := Element.node.inj (Option.some.inj child)
      have hchild : ∀ {q u}, c.at? q = some u → n.at? (i :: q) = some u :=
        fun hu => at?_cons_eq_some.2 ⟨c, hc, hu⟩
      obtain rfl := ih rest hat
        (fun q j hq u hu => habove (i :: q) j (List.cons_prefix_cons.2 ⟨rfl, hq⟩) u (hchild hu))
        (fun q u hu hq => hother (i :: q) u (hchild hu) fun h => hq (List.cons.inj h).2)
      rw [exchange_of_none hself, exchange_of_none hself']
      -- At the index of the put the induction has the child; at the others both exchanges agree.
      refine congrArg n.withChildren (List.ext_getElem? fun j => ?_)
      by_cases hj : i = j
      · subst hj
        have hlt : i < (n.children.map (Element.exchange σ)).length := by
          rw [List.length_map]
          exact (List.getElem?_eq_some_iff.1 hc).1
        rw [withChildren, List.getElem?_set_self hlt, List.getElem?_map, hc]
        rfl
      · rw [withChildren, List.getElem?_set_ne hj, List.getElem?_map, List.getElem?_map]
        refine Option.map_congr fun e he => ?_
        refine e.exchange_congr fun d hd q u hu => ?_
        refine (hother (j :: q) u (at?_cons_eq_some.2 ⟨d, hd ▸ he, hu⟩) ?_).symm
        exact fun h => hj (List.cons.inj h).1.symm

end Node

/-! ## Records that exchange their nodes -/

/-- The text of the expression that a change puts in the place of its node, when it does that and
    leaves no remark. -/
def Change.replacement? : Change → Option String
  | .callReplacement text => some text
  | .assertion change => if change.remark.isNone then some change.replacement else none
  | _ => none

theorem Change.apply_eq_replaceCall {c : Change} {text : String} (h : c.replacement? = some text)
    (settings : Settings) (s : Site) : c.apply settings s = Edit.replaceCall text s := by
  unfold replacement? at h
  split at h
  · obtain rfl := Option.some.inj h
    rfl
  · rename_i change
    split at h
    · rename_i hremark
      obtain rfl := Option.some.inj h
      simp only [apply, Edit.replaceAssertion, Option.isNone_iff_eq_none.1 hremark]
      cases Edit.replaceCall change.replacement s <;> rfl
    · cases h
  · cases h

/-- The expression that a record puts in the place of its node, when its text can be read. -/
def Record.expression? (r : Record) : Option Node :=
  r.change.replacement?.bind fun text => (Edit.replacementOf text).toOption

theorem Record.expression?_eq_some {r : Record} {e : Node} (h : r.expression? = some e) :
    e.Fresh ∧ e.tokens ≠ [] := by
  obtain ⟨text, -, hread⟩ := Option.bind_eq_some_iff.1 h
  have hread := toOption_eq_some_iff.1 hread
  have hread := Edit.reading_eq_ok hread
  exact ⟨Fragment.fresh_of_readExpression hread, Fragment.tokens_ne_nil_of_readExpression hread⟩

/-- What records put in the place of a node: the expression of the first that has its tag there and
    can be read, with the trivia of the node. -/
def Record.exchanges (records : List Record) (n : Node) : Option Node :=
  records.findSome? fun r => if n.hasTag r.tag then r.expression?.map (·.withTriviaOf n) else none

namespace Record

variable {records : List Record} {n m e : Node}

theorem exchanges_eq_none (h : ∀ r ∈ records, r.tag ∉ n.tags) : exchanges records n = none := by
  refine List.findSome?_eq_none_iff.2 fun r hr => if_neg ?_
  simpa [Node.hasTag] using h r hr

theorem fresh_of_exchanges (h : exchanges records n = some m) : m.Fresh := by
  obtain ⟨r, -, hr⟩ := List.exists_of_findSome?_eq_some h
  split at hr
  · obtain ⟨e, he, rfl⟩ := Option.map_eq_some_iff.1 hr
    exact (expression?_eq_some he).1.withTriviaOf n
  · cases hr

end Record

namespace Node

theorem Fresh.tagsAt {n : Node} (h : n.Fresh) (p : Path) : n.tagsAt p = [] := by
  rw [Node.tagsAt]
  cases hat : n.at? p with
  | none => rfl
  | some m =>
    refine h m.top ?_
    rw [tops_around hat, tops_eq]
    simp

/-- An exchange with nodes that bear no tags puts no tag anywhere. -/
theorem tagsAt_exchange {σ : Node → Option Node} (hσ : ∀ m r, σ m = some r → r.Fresh) {n : Node}
    {p : Path} {tag : Tag} (h : tag ∈ (n.exchange σ).tagsAt p) : tag ∈ n.tagsAt p := by
  induction p generalizing n with
  | nil =>
    cases hsome : σ n with
    | none => rwa [exchange_of_none hsome] at h
    | some r =>
      rw [exchange_of_some hsome, (hσ n r hsome).tagsAt] at h
      cases h
  | cons i p ih =>
    cases hsome : σ n with
    | none =>
      rw [tagsAt_cons, getElem?_exchange hsome] at h
      rw [tagsAt_cons]
      generalize n.children[i]? = child at h ⊢
      rcases child with _ | (u | c)
      · exact h
      · exact h
      · exact ih h
    | some r =>
      rw [exchange_of_some hsome, (hσ n r hsome).tagsAt] at h
      cases h

end Node

namespace Tree

/-- Records that each put an expression in the place of one node, none of which is or stands in
    another one. -/
structure Apart (t : Tree) (records : List Record) : Prop where
  replaces : ∀ r ∈ records, r.change.replacement?.isSome = true
  nodup : (records.map Record.tag).Nodup
  tagged : ∀ r ∈ records, ∃ p, t.TaggedOnlyAt r.tag p
  apart : ∀ r ∈ records, ∀ r' ∈ records, r.tag ≠ r'.tag → ∀ p p',
    r.tag ∈ t.root.tagsAt p → r'.tag ∈ t.root.tagsAt p' → ¬p <+: p'

namespace Apart

variable {t : Tree} {records rs : List Record} {r : Record} {settings : Settings} {m : Node}
  {p : Path}

theorem of_subset (h : t.Apart records) (hsub : rs ⊆ records) (hnodup : (rs.map Record.tag).Nodup) :
    t.Apart rs where
  replaces r hr := h.replaces r (hsub hr)
  nodup := hnodup
  tagged r hr := h.tagged r (hsub hr)
  apart r hr r' hr' := h.apart r (hsub hr) r' (hsub hr')

theorem of_perm (h : t.Apart records) (hperm : rs.Perm records) : t.Apart rs :=
  h.of_subset hperm.subset ((hperm.map Record.tag).nodup_iff.2 h.nodup)

theorem exchanges_eq (h : t.Apart records) (hr : r ∈ records) (hat : t.root.at? p = some m)
    (htag : r.tag ∈ m.tags) : Record.exchanges records m = r.expression?.map (·.withTriviaOf m) := by
  have hmem := Node.mem_tagsAt.2 ⟨m, hat, htag⟩
  have hother : ∀ r' ∈ records, r'.tag ≠ r.tag → r'.tag ∉ m.tags := by
    intro r' hr' hne htag'
    exact h.apart r' hr' r hr hne p p (Node.mem_tagsAt.2 ⟨m, hat, htag'⟩) hmem (List.prefix_refl p)
  obtain ⟨before, after, rfl⟩ := List.append_of_mem hr
  have hnodup := h.nodup
  rw [List.map_append, List.map_cons, List.nodup_middle, List.nodup_cons, ← List.map_append] at hnodup
  have hnone : ∀ r' ∈ before ++ after, r'.tag ∉ m.tags := by
    intro r' hr'
    refine hother r' ?_ fun heq => hnodup.1 (heq ▸ List.mem_map_of_mem hr')
    exact ((List.sublist_cons_self r after).append_left before).subset hr'
  have hbefore := Record.exchanges_eq_none fun r' hr' => hnone r' (List.mem_append_left after hr')
  have hafter := Record.exchanges_eq_none fun r' hr' => hnone r' (List.mem_append_right before hr')
  unfold Record.exchanges at hbefore hafter ⊢
  rw [List.findSome?_append, hbefore, Option.none_or, List.findSome?_cons, hafter,
    if_pos (by simpa [Node.hasTag] using htag)]
  cases r.expression? <;> rfl

/-- The order of the records does not matter to what stands where in the tree. -/
theorem exchanges_perm (h : t.Apart records) (hperm : rs.Perm records)
    (hat : t.root.at? p = some m) : Record.exchanges rs m = Record.exchanges records m := by
  by_cases hsome : ∃ r ∈ records, r.tag ∈ m.tags
  · obtain ⟨r, hr, htag⟩ := hsome
    rw [h.exchanges_eq hr hat htag, (h.of_perm hperm).exchanges_eq (hperm.mem_iff.2 hr) hat htag]
  · have hnone : ∀ r ∈ records, r.tag ∉ m.tags := fun r hr htag => hsome ⟨r, hr, htag⟩
    rw [Record.exchanges_eq_none hnone, Record.exchanges_eq_none fun r hr => hnone r (hperm.mem_iff.1 hr)]

end Apart

theorem eq_withRoot_of_replace {t t' : Tree} {p : Path} {r : Node} (h : t.replace p r = .ok t') :
    t' = t.withRoot t'.root := by
  rcases List.eq_nil_or_concat' p with rfl | ⟨q, i, rfl⟩
  · obtain rfl := Except.ok.inj h
    rfl
  · have hindex : Path.index? (q ++ [i]) = some i := by simp [Path.index?]
    simp only [replace, replaceMany, Path.parent?_child, hindex] at h
    obtain ⟨root, -, rfl⟩ := ok_of_map h
    rfl

namespace Apart

variable {t : Tree} {records : List Record} {settings : Settings} {r : Record} {p : Path}
  {m : Node}

/-- No node on the way to that of a record is exchanged by the others, nor one in it. -/
theorem exchanges_beside (h : t.Apart (records ++ [r])) (hp : r.tag ∈ t.root.tagsAt p) {q : Path}
    {u : Node} (hu : t.root.at? q = some u) (hnear : q <+: p ∨ p <+: q) :
    Record.exchanges records u = none := by
  have hr : r ∈ records ++ [r] := List.mem_append_right _ (List.mem_singleton_self r)
  have hnodup := h.nodup
  rw [List.map_append, List.map_singleton] at hnodup
  refine Record.exchanges_eq_none fun r' hr' htag => ?_
  have hne : r'.tag ≠ r.tag := fun heq =>
    (List.disjoint_of_nodup_append hnodup) (List.mem_map_of_mem hr') (by simp [heq])
  have hr' := List.mem_append_left [r] hr'
  have hq := Node.mem_tagsAt.2 ⟨u, hu, htag⟩
  rcases hnear with hnear | hnear
  · exact h.apart r' hr' r hr hne q p hq hp hnear
  · exact h.apart r hr r' hr' hne.symm p q hp hq hnear

/-- The node of a record is where it was after the others, as it was, and bears the tag alone. -/
theorem findTagged?_after (h : t.Apart (records ++ [r])) {w : Tree}
    (hw : w.root = t.root.exchange (Record.exchanges records)) :
    ∃ p m, t.TaggedOnlyAt r.tag p ∧ t.root.at? p = some m ∧ w.findTagged? r.tag = some ⟨w, p, m⟩ ∧
      w.root.at? p = some m := by
  obtain ⟨p, honly⟩ := h.tagged r (List.mem_append_right _ (List.mem_singleton_self r))
  have hp := (honly p).2 rfl
  obtain ⟨m, hat, htag⟩ := Node.mem_tagsAt.1 hp
  have hstays : m.exchange (Record.exchanges records) = m := by
    refine Node.exchange_eq_self fun q u hu => h.exchanges_beside hp (q := p ++ q) ?_ (.inr (List.prefix_append p q))
    exact Node.at?_trans hat hu
  have hat' : w.root.at? p = some m := by
    rw [hw, Node.at?_exchange, hat, Option.map_some, hstays]
    intro q i hq u hu
    exact h.exchanges_beside hp hu (.inl ((List.prefix_append q [i]).trans hq))
  have honly' : w.TaggedOnlyAt r.tag p := by
    intro q
    refine ⟨fun hq => (honly q).1 ?_, ?_⟩
    · rw [hw] at hq
      exact Node.tagsAt_exchange (fun _ _ hσ => Record.fresh_of_exchanges hσ) hq
    · rintro rfl
      exact Node.mem_tagsAt.2 ⟨m, hat', htag⟩
  obtain ⟨m', hfound, hm'⟩ := honly'.findTagged
  obtain rfl := Option.some.inj (hm'.symm.trans hat')
  exact ⟨p, m', honly, hat, hfound, hat'⟩

/-- Besides the node of a record nothing more is exchanged with it. -/
theorem exchanges_concat_of_ne (honly : t.TaggedOnlyAt r.tag p) {q : Path} {u : Node}
    (hu : t.root.at? q = some u) (hq : q ≠ p) :
    Record.exchanges (records ++ [r]) u = Record.exchanges records u := by
  have hnone : ¬u.hasTag r.tag = true := fun htag =>
    hq ((honly q).1 (Node.mem_tagsAt.2 ⟨u, hu, by simpa [Node.hasTag] using htag⟩))
  rw [Record.exchanges, List.findSome?_append, List.findSome?_cons, if_neg hnone,
    List.findSome?_nil, Option.or_none]
  rfl

/-- What a record comes to at the node with its tag: nothing when its text cannot be read, and a
    replacement otherwise. -/
theorem after_single {w : Tree} (settings : Settings)
    (hreplaces : r.change.replacement?.isSome = true)
    (hfound : w.findTagged? r.tag = some ⟨w, p, m⟩) (hat : w.root.at? p = some m) :
    match r.expression? with
    | none => w.after settings [r] = w
    | some e => w.replace p (e.withTriviaOf m) = .ok (w.after settings [r]) := by
  obtain ⟨text, htext⟩ := Option.isSome_iff_exists.1 hreplaces
  have happly := Change.apply_eq_replaceCall htext settings ⟨w, p, m⟩
  rw [Record.expression?, htext, Option.bind_some]
  cases hread : Edit.replacementOf text with
  | error e =>
    refine after_of_outcome ?_
    simp only [Record.outcome, hfound, happly, Edit.replaceCall, hread, bind, Except.bind,
      reduceCtorEq, not_false_eq_true, ne_eq]
  | ok e =>
    obtain ⟨w', hw'⟩ := exists_replace hat (e.withTriviaOf m)
    have hcarried : r.change.apply settings ⟨w, p, m⟩ = .ok w' := by
      simp only [happly, Edit.replaceCall, hread, bind, Except.bind, Edit.replaceAt, Edit.onTree,
        hw', Except.mapError]
    have happlied : r.outcome settings w = .applied := by
      simp only [Record.outcome, hfound, hcarried]
    obtain ⟨s, hs, hafter⟩ := apply_of_outcome happlied
    obtain rfl := Option.some.inj (hs.symm.trans hfound)
    obtain rfl := Except.ok.inj (hcarried.symm.trans hafter)
    exact hw'

/-- What records that exchange nodes apart come to. -/
theorem after_eq (h : t.Apart records) (settings : Settings) : t.after settings records =
    { root := t.root.exchange (Record.exchanges records)
      revision := { t.revision with
        edits := t.revision.edits + (records.filterMap Record.expression?).length } } := by
  induction records using List.reverseRecOn with
  | nil => rw [t.root.exchange_eq_self (σ := Record.exchanges []) fun _ _ _ => rfl]; rfl
  | append_singleton records r ih =>
    have hr : r ∈ records ++ [r] := List.mem_append_right _ (List.mem_singleton_self r)
    have hearlier := ih <| h.of_subset (List.subset_append_left _ _) <|
      h.nodup.sublist ((List.sublist_append_left records [r]).map _)
    rw [after_concat_eq]
    generalize t.after settings records = w at hearlier
    obtain ⟨p, m, honly, hat, hfound, hat'⟩ := h.findTagged?_after (w := w) (by rw [hearlier])
    have hp := (honly p).2 rfl
    have htag : r.tag ∈ m.tags := by rwa [Node.tagsAt, hat, Option.map_some, Option.getD_some] at hp
    have hself := h.exchanges_eq hr hat htag
    have hother : ∀ q u, t.root.at? q = some u → q ≠ p → Record.exchanges (records ++ [r]) u =
        Record.exchanges records u := fun q u hu hq => exchanges_concat_of_ne honly hu hq
    have hstep := after_single settings (h.replaces r hr) hfound hat'
    -- The node of the record is as it was, for the records before it are made elsewhere.
    cases hexpression : r.expression? with
    | none =>
      have hsame : t.root.exchange (Record.exchanges (records ++ [r])) =
          t.root.exchange (Record.exchanges records) := by
        refine Node.exchange_congr _ fun q u hu => ?_
        by_cases hq : q = p
        · subst hq
          obtain rfl := Option.some.inj (hat.symm.trans hu)
          rw [hself, hexpression, h.exchanges_beside hp hu (.inl (List.prefix_refl _))]
          rfl
        · exact hother q u hu hq
      rw [hexpression] at hstep
      rw [hstep, hearlier, hsame, List.filterMap_append, List.filterMap_cons_none hexpression,
        List.filterMap_nil, List.append_nil]
    | some e =>
      rw [hexpression] at hstep hself
      have hput := put_of_replace hat' hstep
      have hroot : (w.after settings [r]).root = t.root.exchange (Record.exchanges (records ++ [r])) := by
        refine Node.Put.exchange (σ := Record.exchanges records) ?_ hat (fun q i hq u hu => ?_) hself hother
        · rwa [hearlier] at hput ⊢
        · exact h.exchanges_beside hp hu (.inl ((List.prefix_append q [i]).trans hq))
      rw [eq_withRoot_of_replace hstep, hroot, withRoot, hearlier, List.filterMap_append,
        List.filterMap_cons_some hexpression, List.filterMap_nil, List.length_append]
      rfl

/-- What the node of a record becomes when all are exchanged. -/
theorem at?_exchange (h : t.Apart records) (hr : r ∈ records) (hat : t.root.at? p = some m)
    (htag : r.tag ∈ m.tags) : (t.root.exchange (Record.exchanges records)).at? p =
      some ((r.expression?.map (·.withTriviaOf m)).getD m) := by
  have hself := h.exchanges_eq hr hat htag
  obtain ⟨place, honly⟩ := h.tagged r hr
  have hp := Node.mem_tagsAt.2 ⟨m, hat, htag⟩
  obtain rfl := (honly p).1 hp
  -- The tag of the record is nowhere else, and other tags are neither above nor below.
  have hnear : ∀ q u, t.root.at? q = some u → q ≠ p → q <+: p ∨ p <+: q →
      Record.exchanges records u = none := by
    intro q u hu hq hside
    refine Record.exchanges_eq_none fun r' hr' htag' => ?_
    have hq' := Node.mem_tagsAt.2 ⟨u, hu, htag'⟩
    by_cases hsame : r'.tag = r.tag
    · exact hq ((honly q).1 (hsame ▸ hq'))
    · exact hside.elim (h.apart r' hr' r hr hsame q p hq' hp)
        (h.apart r hr r' hr' (Ne.symm hsame) p q hp hq')
  rw [Node.at?_exchange, hat, Option.map_some]
  · cases hexpression : r.expression? with
    | some e =>
      rw [hexpression] at hself
      rw [Node.exchange_of_some hself]
      rfl
    | none =>
      rw [hexpression] at hself
      rw [Node.exchange_eq_self]
      · rfl
      · intro q u hu
        by_cases hq : q = []
        · subst hq
          obtain rfl := Option.some.inj hu
          exact hself
        · refine hnear (p ++ q) u ?_ (by simpa using hq) (.inr (List.prefix_append p q))
          exact Node.at?_trans hat hu
  · intro q i hq u hu
    refine hnear q u hu ?_ (.inl ((List.prefix_append q [i]).trans hq))
    rintro rfl
    have hshort := hq.length_le
    rw [List.length_append, List.length_singleton] at hshort
    omega

/-- Records that exchange nodes apart come to the same tree in any order. -/
theorem after_perm (h : t.Apart records) (settings : Settings) {rs : List Record}
    (hperm : rs.Perm records) : t.after settings rs = t.after settings records := by
  have hsame : t.root.exchange (Record.exchanges rs) = t.root.exchange (Record.exchanges records) :=
    Node.exchange_congr _ fun _ _ hat => h.exchanges_perm hperm hat
  rw [(h.of_perm hperm).after_eq, h.after_eq, hsame, (hperm.filterMap _).length_eq]

end Apart

end Tree

namespace Node

variable {n : Node}

theorem trailing_withTrailing (h : n.tokens ≠ []) (trivia : List Trivia) :
    (n.withTrailing trivia).trailing = trivia := by
  rw [trailing, lastToken?, withTrailing, tokens_mapLast]
  obtain ⟨us, u, hus⟩ := (List.eq_nil_or_concat' n.tokens).resolve_left h
  rw [hus, List.modifyLast_concat, List.getLast?_concat]
  rfl

theorem trailing_withTriviaOf (h : n.tokens ≠ []) (other : Node) :
    (n.withTriviaOf other).trailing = other.trailing := by
  refine trailing_withTrailing ?_ _
  rw [withLeading, tokens_mapFirst]
  simpa using h

theorem text_withTriviaOf (n other : Node) : (n.withTriviaOf other).text = n.text := by
  rw [withTriviaOf, withTrailing, text_mapLast (Token.trailingOnly_set fun _ => other.trailing),
    withLeading, text_mapFirst (Token.leadingOnly_set fun _ => other.leading)]

end Node

namespace Plan

/-- A quiet run of pushed records alone. -/
theorem tree_apply_pushed (source target : String) (settings : Settings) (t : Tree)
    (records : List Record) :
    ((records.foldl push { source, target }).apply { settings with emitBanner := false } t).tree =
      t.after settings (ordered { source, target, records }) := by
  rw [tree_apply_quiet, records_foldl_push]
  rfl

/-- Records that put expressions in the place of nodes apart come to the same tree in any order. There
    the node of each stands as its expression, with the trivia that was around it, or as it was when
    the text of the expression cannot be read. The tokens of the tree are those of these nodes
    (`Node.pieces`) and those around them, and the latter are the same afterwards. -/
theorem apply_commutes (source target : String) (settings : Settings) {t : Tree}
    {records : List Record} (h : t.Apart records) :
    let run (rs : List Record) := ((rs.foldl push { source, target }).apply
      { settings with emitBanner := false } t).tree
    let pieces := t.root.pieces (Record.exchanges records)
    (∀ rs, rs.Perm records → run rs = run records) ∧
    (∀ r ∈ records, ∀ p m, t.root.at? p = some m → r.tag ∈ m.tags →
      (∀ e, r.expression? = some e → ∃ n, (run records).root.at? p = some n ∧
        n = e.withTriviaOf m ∧ n.text = e.text ∧ n.leading = m.leading ∧ n.trailing = m.trailing) ∧
      (r.expression? = none → (run records).root.at? p = some m)) ∧
    (∀ n, .node n ∈ pieces → ∃ r ∈ records, r.tag ∈ n.tags) ∧
    t.root.tokens = Element.tokensIn pieces ∧
    (run records).root.tokens =
      Element.tokensIn (pieces.map (Element.exchange (Record.exchanges records))) := by
  intro run pieces
  -- The plan sorts its records, so the order of the pushes only permutes them.
  have hrun : ∀ rs, rs.Perm records → run rs = t.after settings records := by
    intro rs hperm
    exact (tree_apply_pushed source target settings t rs).trans
      (h.after_perm settings ((perm_ordered _).trans hperm))
  have hself := hrun records (.refl _)
  have hroot : (run records).root = t.root.exchange (Record.exchanges records) := by
    rw [hself, h.after_eq]
  refine ⟨fun rs hperm => (hrun rs hperm).trans hself.symm, fun r hr p m hat htag => ?_,
    fun n hn => ?_, t.root.tokensIn_pieces.symm, by rw [hroot, t.root.tokens_exchange]⟩
  · rw [hroot, h.at?_exchange hr hat htag]
    refine ⟨fun e he => ?_, fun hnone => by rw [hnone]; rfl⟩
    have hne := (Record.expression?_eq_some he).2
    rw [he]
    exact ⟨_, rfl, rfl, e.text_withTriviaOf m, Node.leading_withTriviaOf hne m,
      Node.trailing_withTriviaOf hne m⟩
  · by_contra hnone
    have hsome := Node.isSome_of_mem_pieces t.root hn
    rw [Record.exchanges_eq_none fun r hr htag => hnone ⟨r, hr, htag⟩] at hsome
    cases hsome

/-- A name that bears tags. -/
def taggedName (text : String) (tags : List Tag) : Node :=
  ⟨.identifierName, [.token { kind := .identifier, text }], none, tags⟩

/-- Two names with a comma between them, each with a tag of its own. -/
def taggedPair : Tree where
  root := ⟨.argumentList, [.node (taggedName "x" [⟨0⟩]), .token (.ofMark ","),
    .node (taggedName "y" [⟨1⟩])], none, []⟩

/-- Two records that put a call in the place of a node. -/
def twoReplacements : List Record :=
  [⟨⟨0⟩, "x", .callReplacement "f(1)"⟩, ⟨⟨1⟩, "y", .callReplacement "g(2)"⟩]

theorem mem_tagsAt_taggedPair {tag : Tag} {p : Path} : tag ∈ taggedPair.root.tagsAt p ↔
    tag = ⟨0⟩ ∧ p = [0] ∨ tag = ⟨1⟩ ∧ p = [2] := by
  rcases p with _ | ⟨_ | _ | _ | i, _ | ⟨j | j, p⟩⟩ <;>
    simp [taggedPair, taggedName, Node.tagsAt, Node.at?]

theorem forall_mem_twoReplacements {p : Record → Prop} : (∀ r ∈ twoReplacements, p r) ↔
    p ⟨⟨0⟩, "x", .callReplacement "f(1)"⟩ ∧ p ⟨⟨1⟩, "y", .callReplacement "g(2)"⟩ := by
  simp [twoReplacements]

theorem apart_taggedPair : taggedPair.Apart twoReplacements where
  replaces := by decide
  nodup := by decide
  tagged := forall_mem_twoReplacements.2
    ⟨⟨[0], fun q => by simp [mem_tagsAt_taggedPair]⟩, ⟨[2], fun q => by simp [mem_tagsAt_taggedPair]⟩⟩
  apart := by
    simp [forall_mem_twoReplacements, mem_tagsAt_taggedPair]

theorem apply_commutes_pair :
    let run (rs : List Record) := ((rs.foldl push { source := "xUnit", target := "TUnit" }).apply
      { emitBanner := false } taggedPair).tree
    (∀ r ∈ twoReplacements, r.expression?.isSome = true) ∧
    run twoReplacements.reverse = run twoReplacements ∧
    (run twoReplacements).source = "f(1),g(2)" :=
  ⟨by decide +kernel, (apply_commutes "xUnit" "TUnit" {} apart_taggedPair).1 _ (List.reverse_perm _),
    by decide +kernel⟩

/-- Of two records for one node the first to come alone takes effect, so their order matters. -/
theorem not_commutes_shared :
    let t : Tree := { root := taggedName "x" [⟨0⟩, ⟨1⟩] }
    let run (rs : List Record) := ((rs.foldl push { source := "xUnit", target := "TUnit" }).apply
      { emitBanner := false } t).tree
    (twoReplacements.map Record.tag).Nodup ∧ (∀ r ∈ twoReplacements, t.TaggedOnlyAt r.tag []) ∧
    (∀ r ∈ twoReplacements, r.expression?.isSome = true) ∧
    (run twoReplacements).source = "f(1)" ∧ (run twoReplacements.reverse).source = "g(2)" := by
  refine ⟨by decide, forall_mem_twoReplacements.2 ?_, by decide +kernel, by decide +kernel,
    by decide +kernel⟩
  have honly : ∀ tag ∈ [⟨0⟩, (⟨1⟩ : Tag)], ∀ q,
      tag ∈ (taggedName "x" [⟨0⟩, ⟨1⟩]).tagsAt q ↔ q = [] := by
    intro tag htag q
    rcases q with _ | ⟨_ | i, q⟩
    · simpa [taggedName] using htag
    · simp [taggedName, Node.tagsAt, Node.at?]
    · simp [taggedName, Node.tagsAt, Node.at?]
  exact ⟨honly _ (by decide), honly _ (by decide)⟩

end Plan

end Recast
