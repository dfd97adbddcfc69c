-- SUMMARY: Edits of a tree seen in its tokens: what stands before and after a node stays, a replacement, insertion or removal is a splice between, and trivia that is handed over changes one token next to the gap.
import Mathlib.Data.List.ModifyLast
import Recast.Plan.Banner
import Recast.Proofs.Tree.Binding
import Recast.Proofs.Tree.Spans

/-! # Edits as splices

The node at a path cuts the tokens of a tree in three: those before it, its own, and those after
it. A change of the node leaves the outer two alone (`Node.tokens_modifyAt`), so an edit of a tree
is a splice of its tokens. The token next to a node may stand in a sibling, or in a sibling of an
ancestor when all nearer ones hold no token; `Node.nudges_adjacentSlot?` says that the search for it
finds the last token before the node, or the first one after. -/

namespace Recast

/-! ## The two ends of a list of tokens -/

theorem modifyHead_append {α : Type} (f : α → α) {xs : List α} (h : xs ≠ []) (ys : List α) :
    (xs ++ ys).modifyHead f = xs.modifyHead f ++ ys := by
  cases xs with
  | nil => exact absurd rfl h
  | cons x xs => rfl

namespace Element

theorem hasTokens_eq_false {e : Element} : e.hasTokens = false ↔ e.tokens = [] := by
  simp [hasTokens]

theorem tokensIn_eq_nil {es : List Element} :
    tokensIn es = [] ↔ ∀ e ∈ es, e.hasTokens = false := by
  induction es with
  | nil => simp
  | cons e es ih => simp [ih, hasTokens_eq_false]

theorem any_hasTokens {es : List Element} : es.any hasTokens = !(tokensIn es).isEmpty := by
  induction es with
  | nil => rfl
  | cons e es ih =>
    rw [List.any_cons, ih, hasTokens, tokensIn_cons]
    cases e.tokens <;> simp

end Element

mutual

theorem Node.tokens_mapFirst (f : Token → Token) : (n : Node) →
    (n.mapFirst f).tokens = n.tokens.modifyHead f
  | ⟨_, children, _, _⟩ => Element.tokensIn_mapFirstIn f children

theorem Element.tokens_mapFirst (f : Token → Token) : (e : Element) →
    (e.mapFirst f).tokens = e.tokens.modifyHead f
  | .token _ => rfl
  | .node n => n.tokens_mapFirst f

theorem Element.tokensIn_mapFirstIn (f : Token → Token) : (es : List Element) →
    Element.tokensIn (Element.mapFirstIn f es) = (Element.tokensIn es).modifyHead f
  | [] => rfl
  | e :: es => by
    rw [Element.mapFirstIn]
    split
    · rename_i htokens
      have hne : e.tokens ≠ [] := by simpa [Element.hasTokens] using htokens
      rw [Element.tokensIn_cons, Element.tokensIn_cons, e.tokens_mapFirst f,
        modifyHead_append f hne]
    · rename_i htokens
      have hnil : e.tokens = [] := Element.hasTokens_eq_false.1 (by simpa using htokens)
      rw [Element.tokensIn_cons, Element.tokensIn_cons, Element.tokensIn_mapFirstIn f es, hnil,
        List.nil_append, List.nil_append]

end

theorem Banner.tokens_putOnTop {t : Tree} {u : Token} {us : List Token} (lines : List String)
    (h : t.root.tokens = u :: us) : (putOnTop lines t).root.tokens =
      { u with leading := trivia lines ++ u.leading } :: us := by
  rw [putOnTop, Tree.withRoot, Node.tokens_mapFirst, h]
  rfl

mutual

theorem Node.tokens_mapLast (f : Token → Token) : (n : Node) →
    (n.mapLast f).tokens = n.tokens.modifyLast f
  | ⟨_, children, _, _⟩ => Element.tokensIn_mapLastIn f children

theorem Element.tokens_mapLast (f : Token → Token) : (e : Element) →
    (e.mapLast f).tokens = e.tokens.modifyLast f
  | .token _ => rfl
  | .node n => n.tokens_mapLast f

theorem Element.tokensIn_mapLastIn (f : Token → Token) : (es : List Element) →
    Element.tokensIn (Element.mapLastIn f es) = (Element.tokensIn es).modifyLast f
  | [] => rfl
  | e :: es => by
    rw [Element.mapLastIn, Element.any_hasTokens]
    split
    · rename_i htokens
      have hne : Element.tokensIn es ≠ [] := by simpa using htokens
      rw [Element.tokensIn_cons, Element.tokensIn_cons, Element.tokensIn_mapLastIn f es,
        List.modifyLast_append_of_right_ne_nil f _ _ hne]
    · rename_i htokens
      have hnil : Element.tokensIn es = [] := by simpa using htokens
      rw [Element.tokensIn_cons, Element.tokensIn_cons, e.tokens_mapLast f, hnil, List.append_nil,
        List.append_nil]

end

/-! ## What stands around a node -/

namespace Node

/-- The tokens before the node at a path. -/
def tokensBefore : Path → Node → List Token
  | [], _ => []
  | i :: p, n =>
    Element.tokensIn (n.children.take i) ++
      match n.children[i]? with
      | some (.node c) => tokensBefore p c
      | _ => []

/-- The tokens after the node at a path. -/
def tokensAfter : Path → Node → List Token
  | [], _ => []
  | i :: p, n =>
    (match n.children[i]? with
      | some (.node c) => tokensAfter p c
      | _ => []) ++ Element.tokensIn (n.children.drop (i + 1))

@[simp] theorem tokensBefore_nil (n : Node) : n.tokensBefore [] = [] := rfl

@[simp] theorem tokensAfter_nil (n : Node) : n.tokensAfter [] = [] := rfl

section Child

variable {n c c' : Node} {i : Nat} {p : Path} (hc : n.children[i]? = some (.node c))

include hc

theorem tokensBefore_cons :
    n.tokensBefore (i :: p) = Element.tokensIn (n.children.take i) ++ c.tokensBefore p := by
  simp only [tokensBefore, hc]

theorem tokensAfter_cons :
    n.tokensAfter (i :: p) = c.tokensAfter p ++ Element.tokensIn (n.children.drop (i + 1)) := by
  simp only [tokensAfter, hc]

theorem tokens_set_child : (n.withChildren (n.children.set i (.node c'))).tokens =
    Element.tokensIn (n.children.take i) ++ c'.tokens
      ++ Element.tokensIn (n.children.drop (i + 1)) := by
  have hlt : i < n.children.length := (List.getElem?_eq_some_iff.1 hc).1
  rw [tokens_eq, withChildren, List.set_eq_take_append_cons_drop, if_pos hlt]
  simp

theorem tokensBefore_set_child :
    (n.withChildren (n.children.set i (.node c'))).tokensBefore (i :: p) =
      Element.tokensIn (n.children.take i) ++ c'.tokensBefore p := by
  rw [tokensBefore_cons (getElem?_set_child hc), withChildren,
    List.take_set_of_le (Nat.le_refl i)]

theorem tokensAfter_set_child :
    (n.withChildren (n.children.set i (.node c'))).tokensAfter (i :: p) =
      c'.tokensAfter p ++ Element.tokensIn (n.children.drop (i + 1)) := by
  rw [tokensAfter_cons (getElem?_set_child hc), withChildren,
    List.drop_set_of_lt (Nat.lt_succ_self i)]

end Child

theorem tokensBefore_append {n m : Node} {p q : Path} (h : n.at? p = some m) :
    n.tokensBefore (p ++ q) = n.tokensBefore p ++ m.tokensBefore q := by
  induction p generalizing n with
  | nil =>
    obtain rfl := Option.some.inj h
    rfl
  | cons i p ih =>
    obtain ⟨c, hc, hat⟩ := at?_cons_eq_some.1 h
    rw [List.cons_append, tokensBefore_cons hc, tokensBefore_cons hc, ih hat, List.append_assoc]

theorem tokensAfter_append {n m : Node} {p q : Path} (h : n.at? p = some m) :
    n.tokensAfter (p ++ q) = m.tokensAfter q ++ n.tokensAfter p := by
  induction p generalizing n with
  | nil =>
    obtain rfl := Option.some.inj h
    simp
  | cons i p ih =>
    obtain ⟨c, hc, hat⟩ := at?_cons_eq_some.1 h
    rw [List.cons_append, tokensAfter_cons hc, tokensAfter_cons hc, ih hat, List.append_assoc]

/-- The node at a path cuts the tokens in three. -/
theorem tokens_around {n m : Node} {p : Path} (h : n.at? p = some m) :
    n.tokens = n.tokensBefore p ++ m.tokens ++ n.tokensAfter p := by
  induction p generalizing n with
  | nil =>
    obtain rfl := Option.some.inj h
    simp
  | cons i p ih =>
    obtain ⟨c, hc, hat⟩ := at?_cons_eq_some.1 h
    rw [tokens_split hc, Element.tokens_node, ih hat, tokensBefore_cons hc, tokensAfter_cons hc]
    simp only [List.append_assoc]

/-- A change of the node at a path leaves alone what stands around it. -/
theorem tokens_modifyAt {ε : Type} {missing : ε} {f : Node → Except ε Node} {n m m' n' : Node}
    {p : Path} (hat : n.at? p = some m) (hf : f m = .ok m')
    (h : modifyAt missing f p n = .ok n') :
    n'.tokens = n.tokensBefore p ++ m'.tokens ++ n.tokensAfter p := by
  induction p generalizing n n' with
  | nil =>
    obtain rfl := Option.some.inj hat
    obtain rfl := Except.ok.inj (hf.symm.trans h)
    simp
  | cons i p ih =>
    obtain ⟨c, hc, hat⟩ := at?_cons_eq_some.1 hat
    simp only [modifyAt, hc] at h
    obtain ⟨c', hc', h⟩ := ok_of_bind h
    obtain rfl := Except.ok.inj h
    rw [tokens_set_child hc, ih hat hc', tokensBefore_cons hc, tokensAfter_cons hc]
    simp only [List.append_assoc]

/-! ## The token next to a node -/

/-- Nothing that stands before the first match of a sorted search matches. -/
theorem not_of_find? {α : Type} {r : α → α → Prop} {q : α → Bool} {xs : List α} {x y : α}
    (hxs : xs.Pairwise r) (h : xs.find? q = some x) (hy : y ∈ xs) (hne : y ≠ x) (hr : ¬ r x y) :
    q y = false := by
  obtain ⟨-, before, after, rfl, hbefore⟩ := List.find?_eq_some_iff_append.1 h
  rcases List.mem_append.1 hy with hy | hy
  · simpa using hbefore y hy
  · rcases List.mem_cons.1 hy with rfl | hy
    · exact absurd rfl hne
    · exact absurd (List.rel_of_pairwise_cons (List.pairwise_append.1 hxs).2.1 hy) hr

/-- The part at an index holds a token. -/
def holds (n : Node) (j : Nat) : Bool :=
  (n.children[j]?.map Element.hasTokens).getD false

theorem holds_of_getElem? {n : Node} {j : Nat} {e : Element} (h : n.children[j]? = some e) :
    n.holds j = e.hasTokens := by
  simp [holds, h]

theorem tokens_ne_nil_of_holds {n : Node} {j : Nat} (h : n.holds j = true) :
    ∃ e, n.children[j]? = some e ∧ e.tokens ≠ [] := by
  unfold holds at h
  cases he : n.children[j]? with
  | none => simp [he] at h
  | some e =>
    rw [he, Option.map_some, Option.getD_some] at h
    exact ⟨e, rfl, by simpa [Element.hasTokens] using h⟩

/-- A stretch of parts none of which holds a token. -/
theorem tokensIn_stretch {n : Node} {i j : Nat}
    (h : ∀ k, i ≤ k → k < j → n.holds k = false) :
    Element.tokensIn ((n.children.take j).drop i) = [] := by
  rw [Element.tokensIn_eq_nil]
  intro e he
  obtain ⟨k, hk⟩ := List.getElem?_of_mem he
  rw [List.getElem?_drop, List.getElem?_take] at hk
  split at hk
  · rename_i hlt
    rw [← holds_of_getElem? hk]
    exact h (i + k) (Nat.le_add_right i k) hlt
  · exact absurd hk (by simp)

theorem slotBefore?_eq_some {n : Node} {i j : Nat} (h : n.slotBefore? i = some j) :
    j < i ∧ n.holds j = true ∧ ∀ k, j < k → k < i → n.holds k = false := by
  have hpair : (List.range (min i n.children.length)).reverse.Pairwise (· > ·) := by
    rw [List.pairwise_reverse]
    exact List.pairwise_lt_range
  have hmem := List.mem_of_find?_eq_some h
  rw [List.mem_reverse, List.mem_range] at hmem
  refine ⟨by omega, List.find?_some h, fun k hjk hki => ?_⟩
  cases hk : n.children[k]? with
  | none => simp [holds, hk]
  | some e =>
    have hlt : k < n.children.length := (List.getElem?_eq_some_iff.1 hk).1
    refine not_of_find? hpair h ?_ (by omega) (by omega)
    rw [List.mem_reverse, List.mem_range]
    omega

theorem slotBefore?_eq_none {n : Node} {i : Nat} (h : n.slotBefore? i = none) :
    ∀ k, k < i → n.holds k = false := by
  intro k hki
  cases hk : n.children[k]? with
  | none => simp [holds, hk]
  | some e =>
    have hlt : k < n.children.length := (List.getElem?_eq_some_iff.1 hk).1
    have hnot := List.find?_eq_none.1 h k (by rw [List.mem_reverse, List.mem_range]; omega)
    simpa [holds] using hnot

theorem mem_drop_range {i k l : Nat} : k ∈ (List.range l).drop (i + 1) ↔ i < k ∧ k < l := by
  rw [List.range_eq_range', List.drop_range', List.mem_range'_1]
  omega

theorem slotAfter?_eq_some {n : Node} {i j : Nat} (h : n.slotAfter? i = some j) :
    i < j ∧ n.holds j = true ∧ ∀ k, i < k → k < j → n.holds k = false := by
  have hpair : ((List.range n.children.length).drop (i + 1)).Pairwise (· < ·) :=
    List.pairwise_lt_range.drop
  have hmem := mem_drop_range.1 (List.mem_of_find?_eq_some h)
  refine ⟨hmem.1, List.find?_some h, fun k hik hkj => ?_⟩
  exact not_of_find? hpair h (mem_drop_range.2 ⟨hik, by omega⟩) (by omega) (by omega)

theorem slotAfter?_eq_none {n : Node} {i : Nat} (h : n.slotAfter? i = none) :
    ∀ k, i < k → n.holds k = false := by
  intro k hik
  cases hk : n.children[k]? with
  | none => simp [holds, hk]
  | some e =>
    have hlt : k < n.children.length := (List.getElem?_eq_some_iff.1 hk).1
    have hnot := List.find?_eq_none.1 h k (mem_drop_range.2 ⟨hik, hlt⟩)
    simpa [holds] using hnot

end Node

namespace Element

variable {f : Token → Token} {es : List Element} {j : Nat} {e : Element}

theorem tokensIn_split (hlt : j < es.length) :
    tokensIn es = tokensIn (es.take j) ++ es[j].tokens ++ tokensIn (es.drop (j + 1)) := by
  have hsplit := congrArg tokensIn (List.take_append_drop j es)
  rw [List.drop_eq_getElem_cons hlt, tokensIn_append, tokensIn_cons] at hsplit
  rw [← hsplit, List.append_assoc]

/-- The last part with a token holds the last token. -/
theorem tokensIn_modify_mapLast (he : es[j]? = some e) (hne : e.tokens ≠ [])
    (hafter : tokensIn (es.drop (j + 1)) = []) :
    tokensIn (es.modify j (·.mapLast f)) = (tokensIn es).modifyLast f := by
  obtain ⟨hlt, rfl⟩ := List.getElem?_eq_some_iff.1 he
  rw [List.modify_eq_take_cons_drop hlt, tokensIn_split hlt, hafter, List.append_nil,
    List.modifyLast_append_of_right_ne_nil f _ _ hne]
  simp [hafter, tokens_mapLast]

/-- The first part with a token holds the first token. -/
theorem tokensIn_modify_mapFirst (he : es[j]? = some e) (hne : e.tokens ≠ [])
    (hbefore : tokensIn (es.take j) = []) :
    tokensIn (es.modify j (·.mapFirst f)) = (tokensIn es).modifyHead f := by
  obtain ⟨hlt, rfl⟩ := List.getElem?_eq_some_iff.1 he
  rw [List.modify_eq_take_cons_drop hlt, tokensIn_split hlt, hbefore, List.nil_append,
    modifyHead_append f hne]
  simp [hbefore, tokens_mapFirst]

theorem tokensIn_ne_nil (he : e ∈ es) (hne : e.tokens ≠ []) : tokensIn es ≠ [] := by
  intro hnil
  exact hne (hasTokens_eq_false.1 (tokensIn_eq_nil.1 hnil e he))

end Element

namespace Node

/-- The tokens before and after the node at a path. -/
def around (p : Path) (n : Node) : List Token × List Token :=
  (n.tokensBefore p, n.tokensAfter p)

namespace Side

/-- The tokens on one side of a node. -/
def near : Side → List Token × List Token → List Token
  | .before, ts => ts.1
  | .after, ts => ts.2

/-- The tokens around a node with the nearest one on a side changed, if there is one. -/
def nudge (f : Token → Token) : Side → List Token × List Token → List Token × List Token
  | .before, ts => (ts.1.modifyLast f, ts.2)
  | .after, ts => (ts.1, ts.2.modifyHead f)

theorem nudge_of_near {f : Token → Token} {side : Side} {ts : List Token × List Token}
    (h : side.near ts = []) : side.nudge f ts = ts := by
  obtain ⟨before, after⟩ := ts
  cases side with
  | before =>
    obtain rfl : before = [] := h
    rfl
  | after =>
    obtain rfl : after = [] := h
    rfl

/-- A change that changes no token. -/
theorem nudge_same {f : Token → Token} (hf : ∀ u, f u = u) (side : Side)
    (ts : List Token × List Token) : side.nudge f ts = ts := by
  obtain ⟨before, after⟩ := ts
  cases side with
  | before =>
    rcases List.eq_nil_or_concat' before with rfl | ⟨before, u, rfl⟩
    · rfl
    · simp only [nudge, List.modifyLast_concat, hf]
  | after =>
    cases after with
    | nil => rfl
    | cons u after => simp only [nudge, List.modifyHead_cons, hf]

/-- More tokens on the far ends do not matter to the nearest one. -/
theorem nudge_widen {f : Token → Token} {side : Side} {ts : List Token × List Token}
    (h : side.near ts ≠ []) (xs ys : List Token) :
    side.nudge f (xs ++ ts.1, ts.2 ++ ys) =
      (xs ++ (side.nudge f ts).1, (side.nudge f ts).2 ++ ys) := by
  cases side with
  | before =>
    have hne : ts.1 ≠ [] := h
    simp only [nudge, List.modifyLast_append_of_right_ne_nil f _ _ hne]
  | after =>
    have hne : ts.2 ≠ [] := h
    simp only [nudge, modifyHead_append f hne]

theorem near_widen {side : Side} {ts : List Token × List Token} (h : side.near ts ≠ [])
    (xs ys : List Token) : side.near (xs ++ ts.1, ts.2 ++ ys) ≠ [] := by
  cases side with
  | before => exact List.append_ne_nil_of_right_ne_nil _ h
  | after => exact List.append_ne_nil_of_left_ne_nil h _

end Side

section Slot

variable {n c : Node} {i j : Nat} {p : Path} {side : Side}

theorem around_cons (hc : n.children[i]? = some (.node c)) :
    n.around (i :: p) = (Element.tokensIn (n.children.take i) ++ (c.around p).1,
      (c.around p).2 ++ Element.tokensIn (n.children.drop (i + 1))) := by
  simp only [around, tokensBefore_cons hc, tokensAfter_cons hc]

theorem near_of_slot?_eq_none (hc : n.children[i]? = some (.node c))
    (hnear : side.near (c.around p) = []) (h : n.slot? side i = none) :
    side.near (n.around (i :: p)) = [] := by
  rw [around_cons hc]
  cases side with
  | before =>
    have hnil := tokensIn_stretch (i := 0) fun k _ hk => slotBefore?_eq_none h k hk
    simp only [Side.near, List.append_eq_nil_iff]
    exact ⟨by simpa using hnil, hnear⟩
  | after =>
    have hnil := tokensIn_stretch (i := i + 1) (j := n.children.length) fun k hk _ =>
      slotAfter?_eq_none h k hk
    simp only [Side.near, List.append_eq_nil_iff]
    exact ⟨hnear, by simpa using hnil⟩

/-- The nearest part with tokens beside a child holds the token next to what is in the child, when
    that stands at the border of the child. -/
theorem around_modifyNear (f : Token → Token) (hc : n.children[i]? = some (.node c))
    (hnear : side.near (c.around p) = []) (h : n.slot? side i = some j) :
    (n.modifyNear side f j).children[i]? = some (.node c) ∧
      (n.modifyNear side f j).around (i :: p) = side.nudge f (n.around (i :: p)) ∧
      side.near (n.around (i :: p)) ≠ [] := by
  cases side with
  | before =>
    obtain ⟨hji, hholds, hgap⟩ := slotBefore?_eq_some h
    obtain ⟨e, he, hne⟩ := tokens_ne_nil_of_holds hholds
    have hnil : (c.around p).1 = [] := hnear
    -- The slot is on the near side of the child, so the child stays.
    have hsame : (n.modifyNear .before f j).children[i]? = some (.node c) := by
      simp [modifyNear, withChildren, hc, Nat.ne_of_lt hji]
    have he' : (n.children.take i)[j]? = some e := by rw [List.getElem?_take_of_lt hji, he]
    refine ⟨hsame, ?_, ?_⟩
    · rw [around_cons hsame, around_cons hc, hnil]
      simp only [modifyNear, withChildren, Side.nudge, List.append_nil, List.take_modify,
        List.drop_modify_of_lt _ _ _ _ (Nat.lt_succ_of_lt hji)]
      rw [Element.tokensIn_modify_mapLast he' hne (tokensIn_stretch hgap)]
    · rw [around_cons hc, Side.near]
      exact List.append_ne_nil_of_left_ne_nil
        (Element.tokensIn_ne_nil (List.mem_of_getElem? he') hne) _
  | after =>
    obtain ⟨hij, hholds, hgap⟩ := slotAfter?_eq_some h
    obtain ⟨e, he, hne⟩ := tokens_ne_nil_of_holds hholds
    have hnil : (c.around p).2 = [] := hnear
    have hsame : (n.modifyNear .after f j).children[i]? = some (.node c) := by
      simp [modifyNear, withChildren, hc, Nat.ne_of_gt hij]
    have he' : (n.children.drop (i + 1))[j - (i + 1)]? = some e := by
      rw [List.getElem?_drop, Nat.add_sub_cancel' hij, he]
    have hgap' : Element.tokensIn ((n.children.drop (i + 1)).take (j - (i + 1))) = [] := by
      rw [← List.drop_take]
      exact tokensIn_stretch hgap
    refine ⟨hsame, ?_, ?_⟩
    · rw [around_cons hsame, around_cons hc, hnil]
      simp only [modifyNear, withChildren, Side.nudge, List.nil_append, List.take_modify,
        List.drop_modify_of_ge _ _ _ _ hij]
      rw [Element.tokensIn_modify_mapFirst he' hne hgap', List.modify_eq_self (by simp; omega)]
    · rw [around_cons hc, Side.near]
      exact List.append_ne_nil_of_right_ne_nil _
        (Element.tokensIn_ne_nil (List.mem_of_getElem? he') hne)

end Slot

theorem adjacentSlot?_cons {side : Side} {n c : Node} {i : Nat} {p : Path}
    (hc : n.children[i]? = some (.node c)) :
    n.adjacentSlot? side (i :: p) =
      ((c.adjacentSlot? side p).map fun (q, j) => (i :: q, j)).or
        ((n.slot? side i).map fun j => ([], j)) := by
  simp only [adjacentSlot?, hc]
  cases c.adjacentSlot? side p <;> rfl

theorem near_of_adjacentSlot?_eq_none {side : Side} {n m : Node} {p : Path}
    (hat : n.at? p = some m) (h : n.adjacentSlot? side p = none) : side.near (n.around p) = [] := by
  induction p generalizing n with
  | nil => cases side <;> rfl
  | cons i p ih =>
    obtain ⟨c, hc, hat⟩ := at?_cons_eq_some.1 hat
    rw [adjacentSlot?_cons hc, Option.or_eq_none_iff, Option.map_eq_none_iff,
      Option.map_eq_none_iff] at h
    exact near_of_slot?_eq_none hc (ih hat h.1) h.2

/-- The search for the token next to a node finds the last token before it, or the first after. -/
theorem nudges_adjacentSlot? {ε : Type} (missing : ε) {side : Side} (f : Token → Token)
    {n m : Node} {p q : Path} {j : Nat} (hat : n.at? p = some m)
    (h : n.adjacentSlot? side p = some (q, j)) :
    side.near (n.around p) ≠ [] ∧
      ∃ n', modifyAt missing (fun u => .ok (u.modifyNear side f j)) q n = .ok n' ∧
        n'.at? p = some m ∧ n'.around p = side.nudge f (n.around p) := by
  induction p generalizing n q j with
  | nil => exact absurd h (by simp [adjacentSlot?])
  | cons i p ih =>
    obtain ⟨c, hc, hat⟩ := at?_cons_eq_some.1 hat
    rw [adjacentSlot?_cons hc] at h
    -- The innermost node that has a token on that side of the way holds the nearest one.
    cases hdeeper : c.adjacentSlot? side p with
    | some found =>
      obtain ⟨q', j'⟩ := found
      simp only [hdeeper, Option.map_some, Option.some_or, Option.some.injEq,
        Prod.mk.injEq] at h
      obtain ⟨rfl, rfl⟩ := h
      obtain ⟨hnear, c', hc', hat', haround⟩ := ih hat hdeeper
      refine ⟨?_, n.withChildren (n.children.set i (.node c')), ?_, ?_, ?_⟩
      · rw [around_cons hc]
        exact Side.near_widen hnear _ _
      · simp only [modifyAt, hc, hc']
        rfl
      · exact at?_cons_eq_some.2 ⟨c', getElem?_set_child hc, hat'⟩
      · rw [around_cons hc, Side.nudge_widen hnear, ← haround]
        simp only [around, tokensBefore_set_child hc, tokensAfter_set_child hc]
    | none =>
      simp only [hdeeper, Option.map_none, Option.none_or, Option.map_eq_some_iff,
        Prod.mk.injEq] at h
      obtain ⟨j', hslot, rfl, rfl⟩ := h
      obtain ⟨hsame, haround, hnear⟩ := around_modifyNear f hc
        (near_of_adjacentSlot?_eq_none hat hdeeper) hslot
      exact ⟨hnear, _, rfl, at?_cons_eq_some.2 ⟨c, hsame, hat⟩, haround⟩

end Node

/-! ## Edits of trees -/

namespace Tree

open Node (Side)

variable {t : Tree} {p : Path} {m : Node}

theorem tokens_tryUpdate {ε : Type} (ofTree : TreeError → ε) {f : Node → Except ε Node} {m' : Node}
    (hat : t.root.at? p = some m) (hf : f m = .ok m') :
    ∃ t', t.tryUpdate ofTree p f = .ok t' ∧
      t'.root.tokens = t.root.tokensBefore p ++ m'.tokens ++ t.root.tokensAfter p := by
  obtain ⟨t', ht'⟩ : ∃ t', t.tryUpdate ofTree p f = .ok t' := exists_tryUpdate hat hf
  exact ⟨t', ht', Node.tokens_modifyAt hat hf (tryUpdate_eq_ok ht')⟩

/-- A change of the children around one of them is a splice around that child. -/
theorem tokens_tryUpdate_parent {ε : Type} (ofTree : TreeError → ε) {f : Node → Except ε Node}
    {q : Path} {i : Nat} {u : Node} (parts : List Element) (hu : t.root.at? q = some u)
    (hc : u.children[i]? = some (.node m))
    (hf : f u = .ok (u.withChildren (u.children.take i ++ parts ++ u.children.drop (i + 1)))) :
    ∃ t', t.tryUpdate ofTree q f = .ok t' ∧
      t'.root.tokens = t.root.tokensBefore (q ++ [i]) ++ Element.tokensIn parts
        ++ t.root.tokensAfter (q ++ [i]) := by
  obtain ⟨t', ht', htokens⟩ := tokens_tryUpdate ofTree hu hf
  refine ⟨t', ht', ?_⟩
  rw [htokens, Node.tokensBefore_append hu, Node.tokensAfter_append hu, Node.tokensBefore_cons hc,
    Node.tokensAfter_cons hc, Node.tokens_eq, Node.withChildren]
  simp

theorem tokens_replaceMany (hp : p ≠ []) (hat : t.root.at? p = some m) (replacements : List Node) :
    ∃ t', t.replaceMany p replacements = .ok t' ∧
      t'.root.tokens = t.root.tokensBefore p ++ replacements.flatMap Node.tokens
        ++ t.root.tokensAfter p := by
  obtain ⟨q, i, u, rfl, hparent, hindex, hu, hc⟩ := exists_parent hp hat
  simp only [replaceMany, hparent, hindex, ← Element.tokensIn_nodes]
  exact tokens_tryUpdate_parent id (replacements.map .node) hu hc (by simp only [hc])

theorem tokens_insert (hat : t.root.at? p = some m) {i : Nat} (hi : i ≤ m.children.length)
    (parts : List Element) :
    ∃ t', t.insert p i parts = .ok t' ∧
      t'.root.tokens = t.root.tokensBefore p ++ Element.tokensIn (m.children.take i)
        ++ Element.tokensIn parts ++ Element.tokensIn (m.children.drop i)
        ++ t.root.tokensAfter p := by
  have hok : (if i > m.children.length then Except.error (TreeError.invalidPath (p.child i))
      else .ok (m.withChildren (m.children.take i ++ parts ++ m.children.drop i))) =
        .ok (m.withChildren (m.children.take i ++ parts ++ m.children.drop i)) :=
    if_neg (Nat.not_lt.2 hi)
  obtain ⟨t', ht', htokens⟩ := tokens_tryUpdate (id : TreeError → _)
    (f := fun n => if i > n.children.length then .error (.invalidPath (p.child i))
      else .ok (n.withChildren (n.children.take i ++ parts ++ n.children.drop i))) hat hok
  refine ⟨t', ht', ?_⟩
  rw [htokens, Node.tokens_eq, Node.withChildren]
  simp

/-- The token next to a node is changed, and the node stays in its place. -/
theorem around_updateNear (side : Side) (f : Token → Token) (hat : t.root.at? p = some m) :
    ∃ t', t.updateNear side p f = .ok t' ∧ t'.root.at? p = some m ∧
      t'.root.around p = side.nudge f (t.root.around p) ∧
      (side.near (t.root.around p) = [] → t' = t) := by
  obtain ⟨u, hu⟩ : ∃ u, t.root.at? p.dropLast = some u := by
    rcases eq_or_ne p [] with rfl | hp
    · exact ⟨_, hat⟩
    · obtain ⟨q, i, u, rfl, -, -, hu, -⟩ := exists_parent hp hat
      exact ⟨u, by rwa [List.dropLast_concat]⟩
  simp only [updateNear, hu, Option.bind_some]
  cases hslot : t.root.adjacentSlot? side p with
  | none =>
    have hnear := Node.near_of_adjacentSlot?_eq_none hat hslot
    exact ⟨t, rfl, hat, (Side.nudge_of_near hnear).symm, fun _ => rfl⟩
  | some slot =>
    obtain ⟨q, j⟩ := slot
    obtain ⟨hnear, root, hroot, hat', haround⟩ :=
      Node.nudges_adjacentSlot? (TreeError.invalidPath q) f hat hslot
    refine ⟨t.withRoot root, ?_, hat', haround, fun hnil => absurd hnil hnear⟩
    simp only [update, tryUpdate, id_eq, hroot]
    rfl

theorem tokens_around (hat : t.root.at? p = some m) :
    t.root.tokens = (t.root.around p).1 ++ m.tokens ++ (t.root.around p).2 :=
  Node.tokens_around hat

/-- The first token after a node takes over the trivia before the node. -/
theorem around_handOver_keepLeading (hat : t.root.at? p = some m) :
    ∃ w, t.handOver p m .keepLeading = .ok w ∧ w.root.at? p = some m ∧
      w.root.around p = Side.after.nudge
        (fun u => { u with leading := m.leading ++ u.leading }) (t.root.around p) := by
  cases hleading : m.leading with
  | nil =>
    refine ⟨t, by simp [handOver, hleading], hat, (Side.nudge_same (fun u => ?_) _ _).symm⟩
    rw [List.nil_append]
  | cons piece run =>
    obtain ⟨w, hw, hat', haround, -⟩ := around_updateNear .after
      (fun u => { u with leading := m.leading ++ u.leading }) hat
    rw [← hleading]
    exact ⟨w, by simpa [handOver, updateTokenAfter, hleading] using hw, hat', haround⟩

/-- The last token before a node takes over the end of the line, unless it ends one itself. -/
theorem around_handOver_keepTrailing (hat : t.root.at? p = some m) :
    let residue := m.trailing.dropWhile Trivia.isWhitespace
    ∃ w, t.handOver p m .keepTrailing = .ok w ∧ w.root.at? p = some m ∧
      w.root.around p = Side.before.nudge
        (fun u => if Trivia.hasLineEnd residue ∧ ¬Trivia.hasLineEnd u.trailing
          then { u with trailing := u.trailing ++ residue } else u) (t.root.around p) := by
  intro residue
  by_cases hends : Trivia.hasLineEnd residue = true
  · obtain ⟨w, hw, hat', haround, -⟩ := around_updateNear .before
      (fun u => if Trivia.hasLineEnd u.trailing then u
        else { u with trailing := u.trailing ++ residue }) hat
    refine ⟨w, by simpa only [handOver, updateTokenBefore, residue, hends, if_true] using hw, hat', ?_⟩
    simpa only [hends, true_and, ite_not] using haround
  · refine ⟨t, by simp only [handOver, residue, hends]; rfl, hat,
      (Side.nudge_same (fun u => ?_) _ _).symm⟩
    exact if_neg fun h => hends h.1

/-- A removal drops the tokens of the node once its trivia is handed over. -/
theorem tokens_remove (hp : p ≠ []) (hat : t.root.at? p = some m) (option : RemoveOption)
    {w : Tree} (hw : t.handOver p m option = .ok w) (hstays : w.root.at? p = some m) :
    ∃ t', t.remove p option = .ok t' ∧
      t'.root.tokens = (w.root.around p).1 ++ (w.root.around p).2 := by
  obtain ⟨q, i, u, rfl, hparent, hindex, hu, hc⟩ := exists_parent hp hstays
  obtain ⟨t', ht', htokens⟩ := tokens_tryUpdate_parent (id : TreeError → _)
    (f := fun n => .ok (n.withChildren (n.children.eraseIdx i))) [] hu hc
    (by rw [List.append_nil, List.eraseIdx_eq_take_drop_succ])
  refine ⟨t', ?_, by simpa [Node.around] using htokens⟩
  simp only [remove, hparent, hindex, hat, hw]
  exact ht'

/-- Each edit of a tree at the path of a node is a splice of its tokens. With `before` and `after`
    the tokens on the two sides of the node, a replacement, an insertion and a removal each leave
    them alone but for the trivia that a removal hands to the nearest one, and a change of the
    nearest token leaves the rest alone. -/
theorem edits_splice (hat : t.root.at? p = some m) :
    let before := t.root.tokensBefore p
    let after := t.root.tokensAfter p
    let residue := m.trailing.dropWhile Trivia.isWhitespace
    t.root.tokens = before ++ m.tokens ++ after ∧
    (p ≠ [] → ∀ replacements, ∃ t', t.replaceMany p replacements = .ok t' ∧
      t'.root.tokens = before ++ replacements.flatMap Node.tokens ++ after) ∧
    (∀ i ≤ m.children.length, ∀ parts, ∃ t', t.insert p i parts = .ok t' ∧
      t'.root.tokens = before ++ Element.tokensIn (m.children.take i) ++ Element.tokensIn parts
        ++ Element.tokensIn (m.children.drop i) ++ after) ∧
    (p ≠ [] → ∃ t', t.remove p .dropTrivia = .ok t' ∧ t'.root.tokens = before ++ after) ∧
    (p ≠ [] → ∃ t', t.remove p .keepLeading = .ok t' ∧
      t'.root.tokens = before ++
        after.modifyHead fun u => { u with leading := m.leading ++ u.leading }) ∧
    (p ≠ [] → ∃ t', t.remove p .keepTrailing = .ok t' ∧
      t'.root.tokens = before.modifyLast (fun u =>
        if Trivia.hasLineEnd residue ∧ ¬Trivia.hasLineEnd u.trailing
        then { u with trailing := u.trailing ++ residue } else u) ++ after) ∧
    (∀ f, ∃ t', t.updateTokenBefore p f = .ok t' ∧
      t'.root.tokens = before.modifyLast f ++ m.tokens ++ after ∧ (before = [] → t' = t)) ∧
    (∀ f, ∃ t', t.updateTokenAfter p f = .ok t' ∧
      t'.root.tokens = before ++ m.tokens ++ after.modifyHead f ∧ (after = [] → t' = t)) := by
  intro before after residue
  refine ⟨Node.tokens_around hat, fun hp => tokens_replaceMany hp hat,
    fun i hi => tokens_insert hat hi, fun hp => tokens_remove hp hat _ rfl hat, fun hp => ?_,
    fun hp => ?_, fun f => ?_, fun f => ?_⟩
  · obtain ⟨w, hw, hat', haround⟩ := around_handOver_keepLeading hat
    obtain ⟨t', ht', htokens⟩ := tokens_remove hp hat .keepLeading hw hat'
    exact ⟨t', ht', by rw [htokens, haround]; rfl⟩
  · obtain ⟨w, hw, hat', haround⟩ := around_handOver_keepTrailing hat
    obtain ⟨t', ht', htokens⟩ := tokens_remove hp hat .keepTrailing hw hat'
    exact ⟨t', ht', by rw [htokens, haround]; rfl⟩
  · obtain ⟨t', ht', hat', haround, hsame⟩ := around_updateNear .before f hat
    exact ⟨t', ht', by rw [tokens_around hat', haround]; rfl, hsame⟩
  · obtain ⟨t', ht', hat', haround, hsame⟩ := around_updateNear .after f hat
    exact ⟨t', ht', by rw [tokens_around hat', haround]; rfl, hsame⟩

/-- A name on a line of its own, with childless nodes between it and the names around it. -/
def hollow : Tree where
  root := .ofChildren .compilationUnit [
    .node (.ofChildren .identifierName [.token { kind := .identifier, text := "a" }]),
    .node (.ofChildren .modifiers []),
    .node (.ofChildren .block [
      .node (.ofChildren .modifiers []),
      .node (.ofChildren .identifierName [.token {
        kind := .identifier, text := "x", leading := [.comment "// x"], trailing := [.newline] }]),
      .node (.ofChildren .modifiers [])]),
    .node (.ofChildren .modifiers []),
    .token { kind := .identifier, text := "b" }]

theorem edits_splice_hollow :
    (∃ t', hollow.remove [2, 1] .keepLeading = .ok t' ∧ t'.root.tokens =
      [{ kind := .identifier, text := "a" },
        { kind := .identifier, text := "b", leading := [.comment "// x"] }]) ∧
    (∃ t', hollow.remove [2, 1] .keepTrailing = .ok t' ∧ t'.root.tokens =
      [{ kind := .identifier, text := "a", trailing := [.newline] },
        { kind := .identifier, text := "b" }]) := by
  obtain ⟨-, -, -, -, hleading, htrailing, -⟩ := edits_splice (t := hollow) (p := [2, 1]) rfl
  exact ⟨hleading (by decide), htrailing (by decide)⟩

end Tree

end Recast
