-- SUMMARY: In a tree that was read from a text, a node with tokens is told from all others by its kind and span, and is found by them in every tagged copy of the tree.
import Recast.Proofs.Grammar.Lossless
import Recast.Proofs.Tree.Tagging

/-! # Spans

The tokens of a text follow one another, so the spans of nodes nest as the nodes do. Two nodes with
the same span are an ancestor and a descendant that holds all of its tokens; then the ancestor only
wraps the descendant, and a kind that wraps stands above what it wraps (`Kind.level`). -/

namespace Recast

/-! ## Rows of tokens -/

namespace Token

theorem Precedes.spans {t u : Token} {s r : Span} (h : t.Precedes u) (hs : t.span = some s)
    (hr : u.span = some r) : s.start < s.stop ∧ s.stop ≤ r.start := by
  obtain ⟨s', r', hs', hr', hlt, hle⟩ := h
  rw [hs] at hs'
  rw [hr] at hr'
  obtain rfl := Option.some.inj hs'
  obtain rfl := Option.some.inj hr'
  exact ⟨hlt, hle⟩

/-- Tokens that were read from a text, in its order. -/
structure Row (ts : List Token) : Prop where
  spans : ∀ t ∈ ts, ∃ s, t.span = some s ∧ s.start ≤ s.stop
  ordered : ts.Pairwise Precedes

theorem Row.sublist {ts us : List Token} (h : Row us) (hsub : ts.Sublist us) : Row ts :=
  ⟨fun t ht => h.spans t (hsub.subset ht), h.ordered.sublist hsub⟩

theorem Scanned.row {source : String} {ts : List Token} (h : Scanned source ts) : Row ts := by
  refine ⟨fun t ht => ?_, h.ordered⟩
  obtain ⟨init, trivia, stop, rfl, -⟩ := h.finish
  rcases List.mem_append.1 ht with ht | ht
  · obtain ⟨s, r, hs, -, hlt, -⟩ :=
      (List.pairwise_append.1 h.ordered).2.2 t ht _ (List.mem_singleton_self _)
    exact ⟨s, hs, Nat.le_of_lt hlt⟩
  · obtain rfl : t = endOfText trivia stop := by simpa using ht
    exact ⟨_, rfl, Nat.le_refl _⟩

/-- A token that is not empty. -/
def Wide (t : Token) : Prop :=
  ∃ s, t.span = some s ∧ s.start < s.stop

end Token

theorem Element.mem_tokensIn {e : Element} {es : List Element} {t : Token} (he : e ∈ es)
    (ht : t ∈ e.tokens) : t ∈ tokensIn es := by
  obtain ⟨xs, ys, rfl⟩ := List.append_of_mem he
  simp [ht]

namespace Node

open Token

theorem spanOf_eq_some {ts : List Token} {S : Span} (h : spanOf ts = some S) :
    ∃ f ∈ ts, ∃ l ∈ ts, ∃ a b, f.span = some a ∧ l.span = some b ∧ S = a.cover b := by
  simp only [spanOf] at h
  split at h
  · rename_i a b ha hb
    obtain ⟨f, hf, ha⟩ := Option.bind_eq_some_iff.1 ha
    obtain ⟨l, hl, hb⟩ := Option.bind_eq_some_iff.1 hb
    exact ⟨f, List.mem_of_mem_head? hf, l, List.mem_of_mem_getLast? hl, a, b, ha, hb,
      (Option.some.inj h).symm⟩
  · cases h

/-- The span of a row lies around those of its tokens. -/
theorem spanOf_row {ts : List Token} (h : Row ts) (hne : ts ≠ []) :
    ∃ S, spanOf ts = some S ∧ ∀ t ∈ ts, ∀ s, t.span = some s → S.contains s = true := by
  obtain ⟨first, tail, rfl⟩ := List.exists_cons_of_ne_nil hne
  obtain ⟨init, last, hlast⟩ := (List.eq_nil_or_concat (first :: tail)).resolve_left hne
  obtain ⟨a, ha, -⟩ := h.spans first (by simp)
  obtain ⟨b, hb, hble⟩ := h.spans last (by rw [hlast]; simp)
  have hS : spanOf (first :: tail) = some (a.cover b) := by
    have hhead : (first :: tail).head?.bind Token.span = some a := ha
    have hend : (first :: tail).getLast?.bind Token.span = some b := by
      rw [hlast]
      simpa using hb
    rw [spanOf, hhead, hend]
  refine ⟨a.cover b, hS, fun t ht s hs => ?_⟩
  have hstart : a.start ≤ s.start := by
    rcases List.mem_cons.1 ht with rfl | ht
    · obtain rfl := Option.some.inj (ha.symm.trans hs)
      exact Nat.le_refl _
    · have hspans := (List.rel_of_pairwise_cons h.ordered ht).spans ha hs
      omega
  have hstop : s.stop ≤ b.stop := by
    have hordered := h.ordered
    rw [hlast, List.concat_eq_append] at ht hordered
    rcases List.mem_append.1 ht with ht | ht
    · have hspans := ((List.pairwise_append.1 hordered).2.2 t ht last (by simp)).spans hs hb
      omega
    · obtain rfl : t = last := by simpa using ht
      obtain rfl := Option.some.inj (hb.symm.trans hs)
      exact Nat.le_refl _
  rw [Span.contains_iff, Span.cover]
  simp only
  omega

/-- Tokens after all of those of another span have another span. -/
theorem start_of_precedes {t : Token} {us : List Token} {s S : Span} (hs : t.span = some s)
    (h : ∀ u ∈ us, t.Precedes u) (hus : spanOf us = some S) : s.start < s.stop ∧ s.stop ≤ S.start := by
  obtain ⟨f, hf, l, hl, a, b, ha, hb, rfl⟩ := spanOf_eq_some hus
  have hfirst := (h f hf).spans hs ha
  have hlast := (h l hl).spans hs hb
  simp only [Span.cover]
  omega

theorem stop_of_precedes {t : Token} {us : List Token} {s S : Span} (hs : t.span = some s)
    (h : ∀ u ∈ us, u.Precedes t) (hus : spanOf us = some S) : S.stop ≤ s.start := by
  obtain ⟨f, hf, l, hl, a, b, ha, hb, rfl⟩ := spanOf_eq_some hus
  have hfirst := (h f hf).spans ha hs
  have hlast := (h l hl).spans hb hs
  simp only [Span.cover]
  omega

/-! ## Nodes in nodes -/

theorem children_split {n : Node} {i : Nat} {e : Element} (h : n.children[i]? = some e) :
    n.children = n.children.take i ++ e :: n.children.drop (i + 1) := by
  obtain ⟨hlt, rfl⟩ := List.getElem?_eq_some_iff.1 h
  rw [← List.drop_eq_getElem_cons hlt, List.take_append_drop]

theorem tokens_split {n : Node} {i : Nat} {e : Element} (h : n.children[i]? = some e) :
    n.tokens = Element.tokensIn (n.children.take i) ++ e.tokens
      ++ Element.tokensIn (n.children.drop (i + 1)) := by
  have hchildren := congrArg Element.tokensIn (children_split h)
  rw [Element.tokensIn_append, Element.tokensIn_cons, ← List.append_assoc] at hchildren
  rw [tokens_eq]
  exact hchildren

theorem tokens_sublist_child {n c : Node} {i : Nat} (h : n.children[i]? = some (.node c)) :
    c.tokens.Sublist n.tokens := by
  rw [tokens_split h]
  exact (List.sublist_append_right _ _).trans (List.sublist_append_left _ _)

theorem tokens_sublist {n m : Node} {p : Path} (h : n.at? p = some m) :
    m.tokens.Sublist n.tokens := by
  induction p generalizing n with
  | nil =>
    obtain rfl := Option.some.inj h
    exact List.Sublist.refl _
  | cons i p ih =>
    obtain ⟨c, hc, hat⟩ := at?_cons_eq_some.1 h
    exact (ih hat).trans (tokens_sublist_child hc)

theorem Built.at? {n m : Node} {p : Path} (hn : n.Built) (h : n.at? p = some m) : m.Built := by
  induction p generalizing n with
  | nil =>
    obtain rfl := Option.some.inj h
    exact hn
  | cons i p ih =>
    obtain ⟨c, hc, hat⟩ := at?_cons_eq_some.1 h
    exact ih (hn.child (List.mem_of_getElem? hc)) hat

/-- Nothing below a built node is a file. -/
theorem Built.level_lt_two {n m : Node} {i : Nat} {p : Path} (hn : n.Built)
    (h : n.at? (i :: p) = some m) : m.kind.level < 2 := by
  induction p generalizing n i with
  | nil =>
    obtain ⟨c, hc, hat⟩ := at?_cons_eq_some.1 h
    obtain rfl := Option.some.inj hat
    exact hn.fits.noFile _ (List.mem_of_getElem? hc)
  | cons j p ih =>
    obtain ⟨c, hc, hat⟩ := at?_cons_eq_some.1 h
    exact ih (hn.child (List.mem_of_getElem? hc)) hat

/-- A node whose tokens are all in one child stands above the child. -/
theorem Built.level_lt_of_tokens {n c : Node} {i : Nat} (hn : n.Built)
    (hc : n.children[i]? = some (.node c))
    (hbefore : Element.tokensIn (n.children.take i) = [])
    (hafter : Element.tokensIn (n.children.drop (i + 1)) = []) : c.kind.level < n.kind.level := by
  rcases hn.fits.below with hbelow | hweight
  · exact hbelow c (List.mem_of_getElem? hc)
  · have hzero : ∀ {parts : List Element}, Element.tokensIn parts = [] →
        Element.weightIn parts = 0 := by
      intro parts hnone
      by_contra hpos
      exact Element.tokensIn_ne_nil_of_weight (Nat.pos_of_ne_zero hpos) hnone
    have hchild := Element.weight_node_le c
    rw [children_split hc, Element.weightIn_append, Element.weightIn_cons, hzero hbefore,
      hzero hafter] at hweight
    omega

/-- Where a node below a child has the span of the whole, the child has all tokens. -/
theorem tokens_eq_nil_of_span {n c m : Node} {i : Nat} {p : Path} {S : Span}
    (hrow : Row n.tokens) (hwide : ∀ t ∈ n.tokens, t.Wide) (hc : n.children[i]? = some (.node c))
    (hat : c.at? p = some m) (hnS : spanOf n.tokens = some S) (hmS : spanOf m.tokens = some S) :
    Element.tokensIn (n.children.take i) = [] ∧ Element.tokensIn (n.children.drop (i + 1)) = [] := by
  have hsplit := tokens_split hc
  have hsub := (tokens_sublist hat).subset
  have hne : n.tokens ≠ [] := fun hnil => by rw [hnil] at hnS; cases hnS
  obtain ⟨S', hS', hcontains⟩ := spanOf_row hrow hne
  obtain rfl := Option.some.inj (hS'.symm.trans hnS)
  have hordered := hrow.ordered
  rw [hsplit, List.append_assoc, List.pairwise_append] at hordered
  obtain ⟨-, hordered, hbefore⟩ := hordered
  obtain ⟨-, -, hafter⟩ := List.pairwise_append.1 hordered
  constructor
  · rw [List.eq_nil_iff_forall_not_mem]
    intro t ht
    obtain ⟨s, hs, -⟩ := hwide t (by simp [hsplit, ht])
    have hstart := start_of_precedes hs (fun u hu => hbefore t ht u (by simp [hsub hu])) hmS
    have hinside := Span.contains_iff.1 (hcontains t (by simp [hsplit, ht]) s hs)
    omega
  · rw [List.eq_nil_iff_forall_not_mem]
    intro t ht
    obtain ⟨s, hs, hlt⟩ := hwide t (by simp [hsplit, ht])
    have hstop := stop_of_precedes hs (fun u hu => hafter u (hsub hu) t ht) hmS
    have hinside := Span.contains_iff.1 (hcontains t (by simp [hsplit, ht]) s hs)
    omega

/-- A node below another with the same span stands lower. -/
theorem Built.level_lt_of_span {n m : Node} {i : Nat} {p : Path} {S : Span} (hn : n.Built)
    (hrow : Row n.tokens) (hwide : ∀ t ∈ n.tokens, t.Wide) (hat : n.at? (i :: p) = some m)
    (hnS : spanOf n.tokens = some S) (hmS : spanOf m.tokens = some S) :
    m.kind.level < n.kind.level := by
  induction p generalizing n i with
  | nil =>
    obtain ⟨c, hc, hat⟩ := at?_cons_eq_some.1 hat
    obtain ⟨hbefore, hafter⟩ := tokens_eq_nil_of_span hrow hwide hc hat hnS hmS
    obtain rfl := Option.some.inj hat
    exact hn.level_lt_of_tokens hc hbefore hafter
  | cons j p ih =>
    obtain ⟨c, hc, hat⟩ := at?_cons_eq_some.1 hat
    obtain ⟨hbefore, hafter⟩ := tokens_eq_nil_of_span hrow hwide hc hat hnS hmS
    have htokens : n.tokens = c.tokens := by
      rw [tokens_split hc, hbefore, hafter, List.nil_append, List.append_nil, Element.tokens_node]
    rw [htokens] at hrow hwide hnS
    have hchild := hn.level_lt_of_tokens hc hbefore hafter
    have hbelow := ih (hn.child (List.mem_of_getElem? hc)) hrow hwide hat hnS
    omega

/-- The tokens of a child come before those of a later one. -/
theorem precedes_of_lt {n c d : Node} {i j : Nat} (hrow : Row n.tokens) (hij : i < j)
    (hc : n.children[i]? = some (.node c)) (hd : n.children[j]? = some (.node d)) :
    ∀ t ∈ c.tokens, ∀ u ∈ d.tokens, t.Precedes u := by
  intro t ht u hu
  have hafter : .node d ∈ n.children.drop (i + 1) := by
    rw [List.mem_iff_getElem?]
    exact ⟨j - (i + 1), by rw [List.getElem?_drop, Nat.add_sub_cancel' hij]; exact hd⟩
  have hordered := hrow.ordered
  rw [tokens_split hc, List.pairwise_append] at hordered
  exact hordered.2.2 t (by simp [ht]) u (Element.mem_tokensIn hafter hu)

/-- Nodes below different children have different spans. -/
theorem span_ne_of_lt {n c d a b : Node} {i j : Nat} {p q : Path} {S : Span}
    (hrow : Row n.tokens) (hij : i < j) (hc : n.children[i]? = some (.node c))
    (hd : n.children[j]? = some (.node d)) (ha : c.at? p = some a) (hb : d.at? q = some b)
    (haS : spanOf a.tokens = some S) : spanOf b.tokens ≠ some S := by
  intro hbS
  have hprecedes : ∀ t ∈ a.tokens, ∀ u ∈ b.tokens, t.Precedes u := fun t ht u hu =>
    precedes_of_lt hrow hij hc hd t ((tokens_sublist ha).subset ht) u ((tokens_sublist hb).subset hu)
  obtain ⟨f, hf, l, hl, x, y, hx, hy, rfl⟩ := spanOf_eq_some haS
  have hstart := start_of_precedes hx (hprecedes f hf) hbS
  simp only [Span.cover] at hstart
  omega

/-- Below a built node a kind and a span belong to one node at most. -/
theorem Built.path_eq_of_span {n a b : Node} {p q : Path} {S : Span} (hn : n.Built)
    (hrow : Row n.tokens) (hwide : ∀ t ∈ n.tokens, t.Wide) (ha : n.at? p = some a)
    (hb : n.at? q = some b) (hkind : a.kind = b.kind) (haS : spanOf a.tokens = some S)
    (hbS : spanOf b.tokens = some S) : p = q := by
  induction p generalizing n q with
  | nil =>
    cases q with
    | nil => rfl
    | cons j q =>
      obtain rfl := Option.some.inj ha
      have hlevel := hn.level_lt_of_span hrow hwide hb haS hbS
      rw [hkind] at hlevel
      exact absurd hlevel (Nat.lt_irrefl _)
  | cons i p ih =>
    cases q with
    | nil =>
      obtain rfl := Option.some.inj hb
      have hlevel := hn.level_lt_of_span hrow hwide ha hbS haS
      rw [hkind] at hlevel
      exact absurd hlevel (Nat.lt_irrefl _)
    | cons j q =>
      obtain ⟨c, hc, ha⟩ := at?_cons_eq_some.1 ha
      obtain ⟨d, hd, hb⟩ := at?_cons_eq_some.1 hb
      rcases Nat.lt_trichotomy i j with hij | rfl | hij
      · exact absurd hbS (span_ne_of_lt hrow hij hc hd ha hb haS)
      · obtain rfl : c = d := by simpa [hc] using hd
        have hsub := tokens_sublist_child hc
        have hpath := ih (hn.child (List.mem_of_getElem? hc)) (hrow.sublist hsub)
          (fun t ht => hwide t (hsub.subset ht)) ha hb
        rw [hpath]
      · exact absurd haS (span_ne_of_lt hrow hij hd hc hb ha hbS)

end Node

/-! ## Trees that were read -/

namespace Tree.ReadFrom

open Token

variable {source : String} {t : Tree}

theorem row (h : t.ReadFrom source) : Row t.root.tokens :=
  h.scanned.row

/-- The empty token at the end of the text is in the root only. -/
theorem wide (h : t.ReadFrom source) {i : Nat} {c : Node}
    (hc : t.root.children[i]? = some (.node c)) : ∀ u ∈ c.tokens, u.Wide := by
  intro u hu
  obtain ⟨parts, last, hchildren⟩ := h.children_eq
  have hmem : .node c ∈ parts := by
    have hmem := List.mem_of_getElem? hc
    rw [hchildren] at hmem
    simpa using hmem
  have hordered := h.row.ordered
  rw [Node.tokens_eq, hchildren, Element.tokensIn_append, List.pairwise_append] at hordered
  obtain ⟨s, r, hs, -, hlt, -⟩ := hordered.2.2 u (Element.mem_tokensIn hmem hu) last (by simp)
  exact ⟨s, hs, hlt⟩

theorem span_eq (h : t.ReadFrom source) {p : Path} {n : Node} (hat : t.root.at? p = some n) :
    n.span = Node.spanOf n.tokens :=
  (h.built.at? hat).span_eq

/-- In a tree that was read, a kind and a span belong to one node at most. -/
theorem path_eq_of_span (h : t.ReadFrom source) {p q : Path} {a b : Node} {S : Span}
    (ha : t.root.at? p = some a) (hb : t.root.at? q = some b) (hkind : a.kind = b.kind)
    (haS : a.span = some S) (hbS : b.span = some S) : p = q := by
  have hroot : t.root.kind.level = 2 := by rw [h.kind_eq]; rfl
  rw [h.span_eq ha] at haS
  rw [h.span_eq hb] at hbS
  -- The root is told from all others by its kind; everything below it has no empty token.
  cases p with
  | nil =>
    cases q with
    | nil => rfl
    | cons j q =>
      obtain rfl := Option.some.inj ha
      have hlevel := h.built.level_lt_two hb
      rw [← hkind] at hlevel
      omega
  | cons i p =>
    cases q with
    | nil =>
      obtain rfl := Option.some.inj hb
      have hlevel := h.built.level_lt_two ha
      rw [hkind] at hlevel
      omega
    | cons j q =>
      obtain ⟨c, hc, ha⟩ := Node.at?_cons_eq_some.1 ha
      obtain ⟨d, hd, hb⟩ := Node.at?_cons_eq_some.1 hb
      rcases Nat.lt_trichotomy i j with hij | rfl | hij
      · exact absurd hbS (Node.span_ne_of_lt h.row hij hc hd ha hb haS)
      · obtain rfl : c = d := by simpa [hc] using hd
        have hsub := Node.tokens_sublist_child hc
        have hpath := (h.built.child (List.mem_of_getElem? hc)).path_eq_of_span
          (h.row.sublist hsub) (h.wide hc) ha hb hkind haS hbS
        rw [hpath]
      · exact absurd haS (Node.span_ne_of_lt h.row hij hd hc hb ha hbS)

/-- A node with tokens has a span. -/
theorem exists_span (h : t.ReadFrom source) {p : Path} {n : Node} (hat : t.root.at? p = some n)
    (hne : n.tokens ≠ []) : ∃ S, n.span = some S := by
  obtain ⟨S, hS, -⟩ := Node.spanOf_row (h.row.sublist (Node.tokens_sublist hat)) hne
  exact ⟨S, (h.span_eq hat).trans hS⟩

theorem tokens_ne_nil (h : t.ReadFrom source) {p : Path} {n : Node} {S : Span}
    (hat : t.root.at? p = some n) (hS : n.span = some S) : n.tokens ≠ [] := by
  intro hnil
  rw [h.span_eq hat, hnil] at hS
  cases hS

/-- The span of a node lies around those of the nodes below it. -/
theorem span_contains (h : t.ReadFrom source) {p q : Path} {n m : Node} {S : Span}
    (hat : t.root.at? p = some n) (hbelow : n.at? q = some m) (hS : m.span = some S) :
    ∃ T, n.span = some T ∧ T.contains S = true := by
  have hmat : t.root.at? (p ++ q) = some m := by rw [Node.at?_append, hat]; exact hbelow
  have hsub := Node.tokens_sublist hbelow
  rw [h.span_eq hmat] at hS
  obtain ⟨f, hf, l, hl, a, b, ha, hb, rfl⟩ := Node.spanOf_eq_some hS
  have hne : n.tokens ≠ [] := List.ne_nil_of_mem (hsub.subset hf)
  obtain ⟨T, hT, hcontains⟩ := Node.spanOf_row (h.row.sublist (Node.tokens_sublist hat)) hne
  have hfirst := Span.contains_iff.1 (hcontains f (hsub.subset hf) a ha)
  have hlast := Span.contains_iff.1 (hcontains l (hsub.subset hl) b hb)
  refine ⟨T, (h.span_eq hat).trans hT, ?_⟩
  rw [Span.contains_iff, Span.cover]
  simp only
  omega

/-- A node of the tree is found by its kind and span in every tagged copy of the tree, at its own
    path. -/
theorem findSpan?_eq (h : t.ReadFrom source) {w : Tree} (hw : w.root.Alike t.root) {p : Path}
    {n : Node} {S : Span} (hat : t.root.at? p = some n) (hS : n.span = some S) :
    ∃ m, w.findSpan? n.kind S = some ⟨w, p, m⟩ ∧ w.root.at? p = some m ∧ m.Alike n := by
  obtain ⟨m, hm, halike⟩ := Node.Alike.at? (Eq.symm hw) hat
  have hwanted : (m.kind == n.kind && m.span == some S) = true := by
    rw [← halike.kind_eq, ← halike.span_eq, hS]
    simp
  have hsome : (w.root.search? (fun c => c.kind == n.kind && c.span == some S)
      fun c => (c.span.map (·.contains S)).getD true).isSome := by
    refine Node.search?_isSome hm hwanted ?_
    rintro q r c rfl - hc
    obtain ⟨d, hd, hcd⟩ := Node.Alike.at? hw hc
    rw [Node.at?_append, hd] at hat
    obtain ⟨T, hT, hcontains⟩ := h.span_contains hd hat hS
    rw [hcd.span_eq, hT]
    exact hcontains
  obtain ⟨⟨q, found⟩, hfound⟩ := Option.isSome_iff_exists.1 hsome
  obtain ⟨hq, hkind⟩ := Node.search?_sound hfound
  obtain ⟨d, hd, hfd⟩ := Node.Alike.at? hw hq
  simp only [Bool.and_eq_true, beq_iff_eq] at hkind
  obtain rfl : q = p := h.path_eq_of_span hd hat (hfd.kind_eq.symm.trans hkind.1)
    (hfd.span_eq.symm.trans hkind.2) hS
  obtain rfl : found = m := by simpa [hm] using hq.symm
  refine ⟨found, ?_, hm, Eq.symm halike⟩
  rw [findSpan?, hfound]
  rfl

theorem findSpan?_self (h : t.ReadFrom source) {s : Site} {S : Span} (hs : s ∈ t.sites)
    (hS : s.span = some S) : t.findSpan? s.kind S = some s := by
  obtain ⟨-, hat⟩ := mem_sites_iff.1 hs
  obtain ⟨m, hfound, hm, -⟩ := h.findSpan?_eq rfl hat hS
  have hsame : s = ⟨t, s.path, m⟩ := eq_of_path_eq hs (mem_sites_of_at? hm) rfl
  exact hfound.trans (congrArg some hsame.symm)

/-- In every tagged copy of the tree the search, which enters only nodes around the span sought,
    finds what a look at all nodes in turn finds. -/
theorem findSpan?_eq_find? (h : t.ReadFrom source) {w : Tree} (hw : w.root.Alike t.root)
    (kind : Kind) (S : Span) :
    w.findSpan? kind S = w.sites.find? fun s => s.kind == kind && s.span == some S := by
  have hsearch : w.root.search? (fun n => n.kind == kind && n.span == some S)
      (fun c => (c.span.map (·.contains S)).getD true) =
        w.root.nodes.find? fun x => x.2.kind == kind && x.2.span == some S := by
    refine w.root.search?_eq_find? fun q r c m _ hc hm hwanted => ?_
    obtain ⟨d, hd, hcd⟩ := Node.Alike.at? hw hc
    obtain ⟨e, he, hme⟩ := Node.Alike.at? hcd hm
    obtain ⟨-, hS⟩ := Bool.and_eq_true_iff.1 hwanted
    obtain ⟨T, hT, hcontains⟩ := h.span_contains hd he (hme.span_eq.symm.trans (beq_iff_eq.1 hS))
    rw [hcd.span_eq, hT]
    exact hcontains
  rw [findSpan?, hsearch, sites_eq, List.find?_map]
  rfl

/-- Two sites with tokens that have the same kind and span are one. -/
theorem eq_of_span (h : t.ReadFrom source) {s u : Site} (hs : s ∈ t.sites) (hu : u ∈ t.sites)
    (hne : s.node.tokens ≠ []) (hkind : s.kind = u.kind) (hspan : s.span = u.span) : s = u := by
  obtain ⟨-, hsat⟩ := mem_sites_iff.1 hs
  obtain ⟨-, huat⟩ := mem_sites_iff.1 hu
  obtain ⟨S, hS⟩ := h.exists_span hsat hne
  exact eq_of_path_eq hs hu (h.path_eq_of_span hsat huat hkind hS (hspan.symm.trans hS))

end Tree.ReadFrom

/-- A kind and a span identify a node of a file that was read. No two nodes with tokens have both in
    common; in the tree and in all its tagged copies, the search that passes over what cannot hold
    the span finds the same as a look at all nodes in turn, also when there is nothing to find; and
    so every node with tokens is found by its own kind and span. -/
theorem kind_and_span_identify {source : String} {reading : Nat} {t : Tree}
    (hparse : Tree.parse source reading = .ok t) :
    (∀ s ∈ t.sites, ∀ u ∈ t.sites, s.node.tokens ≠ [] → u.node.tokens ≠ [] →
      s.kind = u.kind → s.span = u.span → s = u) ∧
    (∀ w : Tree, w.root.untagged = t.root.untagged → ∀ kind S,
      w.findSpan? kind S = w.sites.find? fun s => s.kind == kind && s.span == some S) ∧
    ∀ s ∈ t.sites, s.node.tokens ≠ [] →
      ∃ S, s.span = some S ∧ t.findSpan? s.kind S = some s := by
  have ht := Tree.readFrom_of_parse hparse
  refine ⟨fun s hs u hu hne _ => ht.eq_of_span hs hu hne, fun w => ht.findSpan?_eq_find?, ?_⟩
  intro s hs hne
  obtain ⟨-, hat⟩ := Tree.mem_sites_iff.1 hs
  obtain ⟨S, hS⟩ := ht.exists_span hat hne
  exact ⟨S, hS, ht.findSpan?_self hs hS⟩

/-- An argument and the name that it consists of share a span, and each is found by its kind. -/
theorem kind_and_span_identify_argument :
    ∃ t, Tree.parse "class C \x7b int a = f(b); \x7d" = .ok t ∧ ∃ S argument name,
      t.findSpan? .argument S = some argument ∧ t.findSpan? .identifierName S = some name ∧
        name.path = argument.path ++ [0] := by
  let place : Path := [0, 4, 1, 1, 1, 1, 1, 1]
  have hread : (Tree.parse "class C \x7b int a = f(b); \x7d").toOption.map (fun t =>
      ((t.root.at? place).any fun n => n.kind == .argument && n.span == some ⟨20, 21⟩) &&
        (t.root.at? (place ++ [0])).any fun n =>
          n.kind == .identifierName && n.span == some ⟨20, 21⟩) = some true := by
    decide +kernel
  obtain ⟨t, ht, hsites⟩ := exists_ok_of_map hread
  obtain ⟨hargument, hname⟩ := Bool.and_eq_true_iff.1 hsites
  obtain ⟨n, hn, hargument⟩ := (Option.any_eq_true _ _).1 hargument
  obtain ⟨m, hm, hname⟩ := (Option.any_eq_true _ _).1 hname
  obtain ⟨hkind, hspan⟩ : n.kind = .argument ∧ n.span = some ⟨20, 21⟩ := by simpa using hargument
  obtain ⟨hkind', hspan'⟩ : m.kind = .identifierName ∧ m.span = some ⟨20, 21⟩ := by
    simpa using hname
  have hread := Tree.readFrom_of_parse ht
  obtain ⟨-, -, hfind⟩ := kind_and_span_identify ht
  obtain ⟨S, hS, hfound⟩ := hfind _ (Tree.mem_sites_of_at? hn) (hread.tokens_ne_nil hn hspan)
  obtain ⟨S', hS', hfound'⟩ := hfind _ (Tree.mem_sites_of_at? hm) (hread.tokens_ne_nil hm hspan')
  obtain rfl : (⟨20, 21⟩ : Span) = S := Option.some.inj (hspan.symm.trans hS)
  obtain rfl : (⟨20, 21⟩ : Span) = S' := Option.some.inj (hspan'.symm.trans hS')
  have hargument : t.findSpan? n.kind ⟨20, 21⟩ = some ⟨t, place, n⟩ := hfound
  have hname : t.findSpan? m.kind ⟨20, 21⟩ = some ⟨t, place ++ [0], m⟩ := hfound'
  rw [hkind] at hargument
  rw [hkind'] at hname
  exact ⟨t, ht, ⟨20, 21⟩, ⟨t, place, n⟩, ⟨t, place ++ [0], m⟩, hargument, hname, rfl⟩

end Recast
