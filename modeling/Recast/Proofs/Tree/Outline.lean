-- SUMMARY: The outline of a node: its tokens, with each import as one part; a change of a node that stands in no import is a splice of the outline.
import Recast.Proofs.Edit.Redeclaring
import Recast.Proofs.Migration.Leaving

/-! # Outlines

Edits of imports see a file as a run of tokens with imports between them, wherever these stand. This
run is the *outline* of the file (`Node.outline`). A change of the first token of a node is a change
of the first token of the outline, and a change of a node that stands in no import is a splice of the
outline (`Node.exists_outline`).

Three things are read off an outline: the texts outside of imports, the names and texts of the
imports, and the comments and directives in front of the parts. -/

namespace Recast

/-! ## The outline of a node -/

mutual

/-- The tokens of a node in document order, with each import as one part. -/
def Node.outline : Node → List Element
  | ⟨kind, children, span, tags⟩ =>
    if kind = .usingDirective then [.node ⟨kind, children, span, tags⟩]
    else Element.outlineIn children

/-- The outline of a part. -/
def Element.outline : Element → List Element
  | .token u => [.token u]
  | .node n => n.outline

/-- The outline of a list of parts. -/
def Element.outlineIn : List Element → List Element
  | [] => []
  | e :: es => e.outline ++ Element.outlineIn es

end

namespace Element

variable {xs ys es : List Element} {f : Token → Token}

@[simp] theorem outlineIn_nil : outlineIn [] = [] := rfl

@[simp] theorem outlineIn_cons (e : Element) (es : List Element) :
    outlineIn (e :: es) = e.outline ++ outlineIn es := rfl

@[simp] theorem outline_node (n : Node) : (Element.node n).outline = n.outline := rfl

@[simp] theorem outlineIn_append (xs ys : List Element) :
    outlineIn (xs ++ ys) = outlineIn xs ++ outlineIn ys := by
  induction xs with
  | nil => rfl
  | cons e xs ih => rw [List.cons_append, outlineIn_cons, outlineIn_cons, ih, List.append_assoc]

theorem mapFirstIn_of_tokens_eq_nil (f : Token → Token) (h : tokensIn es = []) :
    mapFirstIn f es = es := by
  induction es with
  | nil => rfl
  | cons e es ih =>
    rw [tokensIn_cons, List.append_eq_nil_iff] at h
    rw [mapFirstIn, if_neg (by rw [hasTokens_eq_false.2 h.1]; decide), ih h.2]

theorem mapFirstIn_append_of_ne_nil (f : Token → Token) (h : tokensIn xs ≠ [])
    (ys : List Element) : mapFirstIn f (xs ++ ys) = mapFirstIn f xs ++ ys := by
  induction xs with
  | nil => exact absurd rfl h
  | cons e xs ih =>
    rw [List.cons_append, mapFirstIn, mapFirstIn]
    split
    · rfl
    · rename_i he
      rw [tokensIn_cons, hasTokens_eq_false.1 (by simpa using he), List.nil_append] at h
      rw [ih h, List.cons_append]

theorem mapFirstIn_append_of_eq_nil (f : Token → Token) (h : tokensIn xs = [])
    (ys : List Element) : mapFirstIn f (xs ++ ys) = xs ++ mapFirstIn f ys := by
  induction xs with
  | nil => rfl
  | cons e xs ih =>
    rw [tokensIn_cons, List.append_eq_nil_iff] at h
    rw [List.cons_append, mapFirstIn, if_neg (by rw [hasTokens_eq_false.2 h.1]; decide), ih h.2,
      List.cons_append]

end Element

namespace Node

variable {n : Node}

theorem outline_of_import (h : n.kind = .usingDirective) : n.outline = [.node n] := by
  obtain ⟨kind, children, span, tags⟩ := n
  exact if_pos h

theorem outline_of_ne (h : n.kind ≠ .usingDirective) : n.outline = Element.outlineIn n.children := by
  obtain ⟨kind, children, span, tags⟩ := n
  exact if_neg h

theorem outline_withChildren (h : n.kind ≠ .usingDirective) (es : List Element) :
    (n.withChildren es).outline = Element.outlineIn es :=
  outline_of_ne (n := n.withChildren es) h

theorem outline_split {i : Nat} {c : Node} (h : n.kind ≠ .usingDirective)
    (hc : n.children[i]? = some (.node c)) : n.outline =
      Element.outlineIn (n.children.take i) ++
        (c.outline ++ Element.outlineIn (n.children.drop (i + 1))) := by
  rw [outline_of_ne h]
  conv_lhs => rw [children_split hc, Element.outlineIn_append, Element.outlineIn_cons,
    Element.outline_node]

end Node

mutual

theorem Node.tokensIn_outline : (n : Node) → Element.tokensIn n.outline = n.tokens
  | ⟨kind, children, span, tags⟩ => by
    rw [Node.outline]
    split
    · rw [Element.tokensIn_cons, Element.tokens_node, Element.tokensIn_nil, List.append_nil]
    · exact Element.tokensIn_outlineIn children

theorem Element.tokensIn_outline : (e : Element) → Element.tokensIn e.outline = e.tokens
  | .token _ => rfl
  | .node n => n.tokensIn_outline

theorem Element.tokensIn_outlineIn : (es : List Element) →
    Element.tokensIn (Element.outlineIn es) = Element.tokensIn es
  | [] => rfl
  | e :: es => by
    rw [Element.outlineIn, Element.tokensIn_append, e.tokensIn_outline,
      Element.tokensIn_outlineIn es, Element.tokensIn_cons]

end

mutual

/-- The first token of a node is the first one of its outline. -/
theorem Node.outline_mapFirst (f : Token → Token) : (n : Node) →
    (n.mapFirst f).outline = Element.mapFirstIn f n.outline
  | ⟨kind, children, span, tags⟩ => by
    rw [Node.mapFirst, Node.outline, Node.outline]
    split
    · simp only [Element.mapFirstIn, Element.mapFirst, Node.mapFirst]
      split
      · rfl
      · rename_i hnone
        have hnil : (Element.node ⟨kind, children, span, tags⟩).tokens = [] :=
          Element.hasTokens_eq_false.1 (by simpa using hnone)
        have hnil : Element.tokensIn children = [] := hnil
        rw [Element.mapFirstIn_of_tokens_eq_nil f hnil]
    · exact Element.outlineIn_mapFirstIn f children

theorem Element.outline_mapFirst (f : Token → Token) : (e : Element) →
    (e.mapFirst f).outline = Element.mapFirstIn f e.outline
  | .token _ => rfl
  | .node n => n.outline_mapFirst f

theorem Element.outlineIn_mapFirstIn (f : Token → Token) : (es : List Element) →
    Element.outlineIn (Element.mapFirstIn f es) = Element.mapFirstIn f (Element.outlineIn es)
  | [] => rfl
  | e :: es => by
    have htokens := e.tokensIn_outline
    rw [Element.mapFirstIn]
    split
    · rename_i hsome
      have hne : e.tokens ≠ [] := by simpa [Element.hasTokens] using hsome
      rw [Element.outlineIn, Element.outlineIn, e.outline_mapFirst f,
        Element.mapFirstIn_append_of_ne_nil f (htokens ▸ hne)]
    · rename_i hnone
      have hnil : e.tokens = [] := Element.hasTokens_eq_false.1 (by simpa using hnone)
      rw [Element.outlineIn, Element.outlineIn, Element.outlineIn_mapFirstIn f es,
        Element.mapFirstIn_append_of_eq_nil f (htokens.trans hnil)]

end

/-- The first part that holds a token holds the first token of the outline. -/
theorem Element.outlineIn_modify_mapFirst {es : List Element} {j : Nat} {e : Element}
    (f : Token → Token) (he : es[j]? = some e) (hne : e.tokens ≠ [])
    (hbefore : tokensIn (es.take j) = []) :
    outlineIn (es.modify j (·.mapFirst f)) = mapFirstIn f (outlineIn es) := by
  obtain ⟨hlt, rfl⟩ := List.getElem?_eq_some_iff.1 he
  have hparts : outlineIn es =
      outlineIn (es.take j) ++ (es[j].outline ++ outlineIn (es.drop (j + 1))) := by
    conv_lhs => rw [← List.take_append_drop j es, List.drop_eq_getElem_cons hlt, outlineIn_append,
      outlineIn_cons]
  have hnil : tokensIn (outlineIn (es.take j)) = [] := (tokensIn_outlineIn _).trans hbefore
  have hfirst : tokensIn es[j].outline ≠ [] := es[j].tokensIn_outline ▸ hne
  rw [List.modify_eq_take_cons_drop hlt, outlineIn_append, outlineIn_cons, hparts,
    mapFirstIn_append_of_eq_nil f hnil, mapFirstIn_append_of_ne_nil f hfirst, outline_mapFirst]

/-! ## Splices -/

namespace Node

/-- What is left of a node when the node at a path in it goes. -/
def without : Path → Node → List Element
  | [], _ => []
  | i :: p, n =>
    match n.children[i]? with
    | some (.node c) =>
      [.node (n.withChildren (n.children.take i ++ without p c ++ n.children.drop (i + 1)))]
    | _ => [.node n]

variable {n n' m c : Node} {p : Path} {i j : Nat}

theorem without_cons (hc : n.children[i]? = some (.node c)) : n.without (i :: p) =
    [.node (n.withChildren (n.children.take i ++ c.without p ++ n.children.drop (i + 1)))] := by
  simp only [without, hc]

theorem Put.without_eq {u : Node} {q : Path}
    (hput : Put (u.withChildren (u.children.eraseIdx j)) q n n') (hu : n.at? q = some u)
    (hat : n.at? (q ++ [j]) = some m) : n.without (q ++ [j]) = [.node n'] := by
  induction hput with
  | here n =>
    obtain rfl := Option.some.inj hu
    obtain ⟨c, hc, -⟩ := at?_cons_eq_some.1 hat
    rw [List.nil_append, without_cons hc, without, List.append_nil,
      ← List.eraseIdx_eq_take_drop_succ]
  | @under n c c' i q child rest ih =>
    obtain ⟨d, hd, hu⟩ := at?_cons_eq_some.1 hu
    obtain rfl : c = d := by simpa [child] using hd
    obtain ⟨d, hd, hat⟩ := at?_cons_eq_some.1 hat
    obtain rfl : c = d := by simpa [child] using hd
    rw [List.cons_append, without_cons child, ih hu hat, List.set_eq_take_append_cons_drop,
      if_pos (List.getElem?_eq_some_iff.1 child).1, List.append_assoc, List.singleton_append]

/-- A change in the child that the node stands in. -/
theorem without_set_child {c' : Node} (hc : n.children[i]? = some (.node c)) :
    (n.withChildren (n.children.set i (.node c'))).without (i :: p) =
      [.node (n.withChildren (n.children.take i ++ c'.without p ++ n.children.drop (i + 1)))] := by
  rw [without_cons (getElem?_set_child hc)]
  simp only [withChildren, List.take_set_of_le (Nat.le_refl i),
    List.drop_set_of_lt (Nat.lt_succ_self i)]

/-- A change of the nearest part with tokens behind the child that the node stands in. -/
theorem without_modifyNear (f : Token → Token) (hc : n.children[i]? = some (.node c))
    (h : n.slotAfter? i = some j) :
    (n.modifyNear .after f j).without (i :: p) =
      [.node (n.withChildren (n.children.take i ++ c.without p ++
        (n.children.drop (i + 1)).modify (j - (i + 1)) (·.mapFirst f)))] ∧
    ∃ e, (n.children.drop (i + 1))[j - (i + 1)]? = some e ∧ e.tokens ≠ [] ∧
      Element.tokensIn ((n.children.drop (i + 1)).take (j - (i + 1))) = [] := by
  obtain ⟨hij, hholds, hgap⟩ := slotAfter?_eq_some h
  obtain ⟨e, he, hne⟩ := tokens_ne_nil_of_holds hholds
  refine ⟨?_, e, ?_, hne, ?_⟩
  · have hsame : (n.modifyNear .after f j).children[i]? = some (.node c) := by
      simp [modifyNear, withChildren, hc, Nat.ne_of_gt hij]
    rw [without_cons hsame]
    simp only [modifyNear, withChildren, List.take_modify, List.drop_modify_of_ge _ _ _ _ hij]
    rw [List.modify_eq_self (by simp; omega)]
  · rw [List.getElem?_drop, Nat.add_sub_cancel' hij, he]
  · rw [← List.drop_take]
    exact tokensIn_stretch hgap

/-- A node that stands in no import cuts the outline in three. A change of it leaves the outer two
    alone. -/
theorem exists_outline (hat : n.at? p = some m) (hway : ∀ top ∈ n.above p, top.kind ≠ .usingDirective) :
    ∃ before after, n.outline = before ++ (m.outline ++ after) ∧
      Element.outlineIn (n.without p) = before ++ after ∧
      Element.tokensIn after = n.tokensAfter p ∧
      ∀ r n', Put r p n n' → n'.outline = before ++ (r.outline ++ after) := by
  induction p generalizing n with
  | nil =>
    obtain rfl := Option.some.inj hat
    refine ⟨[], [], by simp, rfl, rfl, fun r n' hput => ?_⟩
    cases hput with
    | here => simp
  | cons i p ih =>
    obtain ⟨c, hc, hat⟩ := at?_cons_eq_some.1 hat
    simp only [above, hc, List.mem_append, List.mem_singleton] at hway
    have hkind : n.kind ≠ .usingDirective := hway n.top (.inr rfl)
    -- Around the child on the way come the outlines of its siblings.
    obtain ⟨before, after, houtline, hwithout, hafter, hput⟩ :=
      ih hat fun top htop => hway top (.inl htop)
    refine ⟨Element.outlineIn (n.children.take i) ++ before,
      after ++ Element.outlineIn (n.children.drop (i + 1)), ?_, ?_, ?_, fun r n' hr => ?_⟩
    · rw [outline_split hkind hc, houtline]
      simp only [List.append_assoc]
    · rw [without_cons hc, Element.outlineIn_cons, Element.outlineIn_nil, List.append_nil,
        Element.outline_node, outline_withChildren hkind, Element.outlineIn_append,
        Element.outlineIn_append, hwithout]
      simp only [List.append_assoc]
    · rw [Element.tokensIn_append, hafter, Element.tokensIn_outlineIn, tokensAfter_cons hc]
    · cases hr with
      | @under _ d d' _ _ child rest =>
        obtain rfl : d = c := by simpa [child] using hc
        rw [outline_withChildren hkind, List.set_eq_take_append_cons_drop,
          if_pos (List.getElem?_eq_some_iff.1 child).1, Element.outlineIn_append,
          Element.outlineIn_cons, Element.outline_node, hput r d' rest]
        simp only [List.append_assoc]

/-- When the token after a node is changed and the node goes, the first part behind the node is
    changed in the outline. -/
theorem outline_without_of_adjacentSlot? {ε : Type} {missing : ε} {f : Token → Token} {q : Path}
    (hat : n.at? p = some m) (hway : ∀ top ∈ n.above p, top.kind ≠ .usingDirective)
    (hslot : n.adjacentSlot? .after p = some (q, j))
    (h : modifyAt missing (fun u => .ok (u.modifyNear .after f j)) q n = .ok n') :
    ∃ before after, n.outline = before ++ (m.outline ++ after) ∧ Element.tokensIn after ≠ [] ∧
      Element.outlineIn (n'.without p) = before ++ Element.mapFirstIn f after := by
  induction p generalizing n q j n' with
  | nil => cases hslot
  | cons i p ih =>
    obtain ⟨c, hc, hat⟩ := at?_cons_eq_some.1 hat
    simp only [above, hc, List.mem_append, List.mem_singleton] at hway
    have hkind : n.kind ≠ .usingDirective := hway n.top (.inr rfl)
    have hway : ∀ top ∈ c.above p, top.kind ≠ .usingDirective := fun top htop => hway top (.inl htop)
    rw [adjacentSlot?_cons hc] at hslot
    cases hdeeper : c.adjacentSlot? .after p with
    | some found =>
      -- the token stands in the same child as the node
      obtain ⟨q', j'⟩ := found
      simp only [hdeeper, Option.map_some, Option.some_or, Option.some.injEq,
        Prod.mk.injEq] at hslot
      obtain ⟨rfl, rfl⟩ := hslot
      simp only [modifyAt, hc] at h
      obtain ⟨c', hc', h⟩ := ok_of_bind h
      obtain rfl := Except.ok.inj h
      obtain ⟨before, after, houtline, hne, hwithout⟩ := ih hat hway hdeeper hc'
      refine ⟨Element.outlineIn (n.children.take i) ++ before,
        after ++ Element.outlineIn (n.children.drop (i + 1)), ?_, ?_, ?_⟩
      · rw [outline_split hkind hc, houtline]
        simp only [List.append_assoc]
      · rw [Element.tokensIn_append]
        exact List.append_ne_nil_of_left_ne_nil hne _
      · rw [without_set_child hc, Element.outlineIn_cons, Element.outlineIn_nil, List.append_nil,
          Element.outline_node, outline_withChildren hkind, Element.outlineIn_append,
          Element.outlineIn_append, hwithout, Element.mapFirstIn_append_of_ne_nil f hne]
        simp only [List.append_assoc]
    | none =>
      -- it stands in a later child, and nothing of the same child comes after the node
      simp only [hdeeper, Option.map_none, Option.none_or, Option.map_eq_some_iff,
        Prod.mk.injEq] at hslot
      obtain ⟨j', hslot, rfl, rfl⟩ := hslot
      obtain rfl := Except.ok.inj h
      obtain ⟨before, after, houtline, hwithout, hafter, -⟩ := exists_outline hat hway
      have hnil : Element.tokensIn after = [] :=
        hafter.trans (near_of_adjacentSlot?_eq_none hat hdeeper)
      obtain ⟨hleft, e, he, hne, hgap⟩ := without_modifyNear f hc hslot
      refine ⟨Element.outlineIn (n.children.take i) ++ before,
        after ++ Element.outlineIn (n.children.drop (i + 1)), ?_, ?_, ?_⟩
      · rw [outline_split hkind hc, houtline]
        simp only [List.append_assoc]
      · rw [Element.tokensIn_append, Element.tokensIn_outlineIn]
        exact List.append_ne_nil_of_right_ne_nil _
          (Element.tokensIn_ne_nil (List.mem_of_getElem? he) hne)
      · rw [hleft, Element.outlineIn_cons, Element.outlineIn_nil, List.append_nil,
          Element.outline_node, outline_withChildren hkind, Element.outlineIn_append,
          Element.outlineIn_append, hwithout, Element.outlineIn_modify_mapFirst f he hne hgap,
          Element.mapFirstIn_append_of_eq_nil f hnil]
        simp only [List.append_assoc]

end Node

/-! ## Imports -/

theorem Element.FreeIn.filter_nodesIn {es : List Element} (h : FreeIn es) (i : Nat) :
    ((nodesIn i es).map Prod.snd).filter (·.kind == .usingDirective) = [] := by
  rw [List.filter_eq_nil_iff]
  intro m hm hkind
  obtain ⟨⟨q, m⟩, hmem, rfl⟩ := List.mem_map.1 hm
  obtain ⟨j, c, p, hc, -, hat⟩ := mem_nodesIn.1 hmem
  refine h m.top (mem_topsIn.2 ⟨c, List.mem_of_getElem? hc, ?_⟩) (eq_of_beq hkind)
  exact Node.mem_tops.2 ⟨p, m, Node.mem_nodes.1 hat, rfl⟩

mutual

/-- Where no import stands in another one, the outline has all of them. -/
theorem Node.filterMap_outline : (n : Node) → n.Flat →
    n.outline.filterMap Element.node? =
      (n.nodes.map Prod.snd).filter (·.kind == .usingDirective)
  | ⟨kind, children, span, tags⟩, h => by
    obtain ⟨hself, hbelow⟩ := Node.flat_iff.1 h
    rw [Node.outline, Node.nodes, List.map_cons, List.filter_cons]
    split
    · rename_i hkind
      have hnone := (hself hkind).filter_nodesIn 0
      rw [if_pos (beq_iff_eq.2 hkind), hnone]
      rfl
    · rename_i hkind
      rw [if_neg (by simpa using hkind)]
      exact Element.filterMap_outlineIn 0 children hbelow

theorem Element.filterMap_outline : (e : Element) → (∀ n, e = .node n → n.Flat) →
    e.outline.filterMap Element.node? =
      (e.nodes.map Prod.snd).filter (·.kind == .usingDirective)
  | .token _, _ => rfl
  | .node n, h => n.filterMap_outline (h n rfl)

theorem Element.filterMap_outlineIn : (i : Nat) → (es : List Element) →
    Element.Each Node.Flat es → (Element.outlineIn es).filterMap Element.node? =
      ((Element.nodesIn i es).map Prod.snd).filter (·.kind == .usingDirective)
  | _, [], _ => rfl
  | i, e :: es, h => by
    have hfirst := e.filterMap_outline fun n hn => h n (hn ▸ List.mem_cons_self ..)
    have hrest := Element.filterMap_outlineIn (i + 1) es fun n hn => h n (List.mem_cons_of_mem _ hn)
    have hsame : (e.nodes.map fun (p, n) => (i :: p, n)).map Prod.snd = e.nodes.map Prod.snd := by
      rw [List.map_map]
      rfl
    rw [Element.outlineIn, List.filterMap_append, hfirst, hrest, Element.nodesIn, List.map_append,
      List.filter_append, hsame]

end

/-! ## What is read off an outline -/

/-- The comments and directives in front of a token. -/
def Token.remarks (u : Token) : List Trivia :=
  u.leading.filter Trivia.isRemark

/-- True for an import of a namespace itself, neither under another name nor of static members. -/
def Node.isPlainImport (n : Node) : Bool :=
  n.childTokens.all fun u => u.text != "=" && u.text != "static"

/-- The name that an import gives, its text, and whether it is plain. -/
def Node.entry (n : Node) : Option String × String × Bool :=
  (n.importedName?, n.text, n.isPlainImport)

namespace Element

/-- The texts outside of the imports. -/
def wordsIn (es : List Element) : List String :=
  (es.filterMap token?).map Token.text

/-- The imports. -/
def importsIn (es : List Element) : List Node :=
  es.filterMap node?

/-- The entries of the imports. -/
def entriesIn (es : List Element) : List (Option String × String × Bool) :=
  (importsIn es).map Node.entry

/-- The comments and directives in front of a part. -/
def remarks (e : Element) : List Trivia :=
  Token.tellFirst Token.remarks e.tokens

/-- The comments and directives in front of parts. -/
def remarksIn (es : List Element) : List Trivia :=
  es.flatMap remarks

variable {es es' es'' : List Element} {f : Token → Token}

@[simp] theorem wordsIn_append (xs ys : List Element) :
    wordsIn (xs ++ ys) = wordsIn xs ++ wordsIn ys := by
  simp [wordsIn]

@[simp] theorem wordsIn_node (n : Node) (es : List Element) : wordsIn (.node n :: es) = wordsIn es :=
  rfl

@[simp] theorem importsIn_append (xs ys : List Element) :
    importsIn (xs ++ ys) = importsIn xs ++ importsIn ys :=
  List.filterMap_append

@[simp] theorem importsIn_node (n : Node) (es : List Element) :
    importsIn (.node n :: es) = n :: importsIn es :=
  rfl

@[simp] theorem entriesIn_append (xs ys : List Element) :
    entriesIn (xs ++ ys) = entriesIn xs ++ entriesIn ys := by
  simp [entriesIn]

@[simp] theorem entriesIn_node (n : Node) (es : List Element) :
    entriesIn (.node n :: es) = n.entry :: entriesIn es :=
  rfl

@[simp] theorem remarksIn_append (xs ys : List Element) :
    remarksIn (xs ++ ys) = remarksIn xs ++ remarksIn ys :=
  List.flatMap_append

@[simp] theorem remarksIn_cons (e : Element) (es : List Element) :
    remarksIn (e :: es) = e.remarks ++ remarksIn es :=
  List.flatMap_cons

theorem remarks_node (n : Node) : (Element.node n).remarks = n.leading.filter Trivia.isRemark := by
  rw [remarks, Element.tokens_node, Node.leading, Node.firstToken?, Token.tellFirst]
  cases n.tokens.head? <;> rfl

theorem remarks_of_tokens_eq_nil {e : Element} (h : e.tokens = []) : e.remarks = [] := by
  rw [remarks, h]
  rfl

theorem wordsIn_mapFirstIn (hf : Token.LeadingOnly f) (es : List Element) :
    wordsIn (mapFirstIn f es) = wordsIn es := by
  induction es with
  | nil => rfl
  | cons e es ih =>
    rw [mapFirstIn]
    split
    · cases e with
      | token u => exact congrArg (· :: wordsIn es) (hf u).1
      | node n => rfl
    · cases e with
      | token u => exact congrArg (u.text :: ·) ih
      | node n => exact ih

theorem isPlainImport_mapFirst (hf : Token.LeadingOnly f) (n : Node) :
    (n.mapFirst f).isPlainImport = n.isPlainImport := by
  have hparts : ∀ es : List Element, ((mapFirstIn f es).filterMap token?).map Token.text =
      (es.filterMap token?).map Token.text := wordsIn_mapFirstIn hf
  have htest : ∀ m : Node, m.isPlainImport =
      ((m.children.filterMap token?).map Token.text).all fun text => text != "=" && text != "static" :=
    fun m => by rw [List.all_map]; rfl
  obtain ⟨kind, children, span, tags⟩ := n
  rw [htest, htest, Node.mapFirst, hparts]

theorem entriesIn_mapFirstIn (hf : Token.LeadingOnly f) (es : List Element) :
    entriesIn (mapFirstIn f es) = entriesIn es := by
  induction es with
  | nil => rfl
  | cons e es ih =>
    rw [mapFirstIn]
    split
    · cases e with
      | token u => rfl
      | node n =>
        have hentry : (n.mapFirst f).entry = n.entry :=
          congrArg₂ Prod.mk (n.importedName?_mapFirst hf)
            (congrArg₂ Prod.mk (n.text_mapFirst hf) (isPlainImport_mapFirst hf n))
        rw [mapFirst, entriesIn_node, entriesIn_node, hentry]
    · cases e with
      | token u => exact ih
      | node n => rw [entriesIn_node, entriesIn_node, ih]

/-- The first token comes with the first remarks. -/
theorem exists_remarksIn (h : tokensIn es ≠ []) : ∃ u more, (tokensIn es).head? = some u ∧
    remarksIn es = u.remarks ++ more ∧ ∀ f, remarksIn (mapFirstIn f es) = (f u).remarks ++ more := by
  induction es with
  | nil => exact absurd rfl h
  | cons e es ih =>
    by_cases hsome : e.hasTokens = true
    · have hne : e.tokens ≠ [] := by simpa [hasTokens] using hsome
      obtain ⟨u, us, htokens⟩ := List.exists_cons_of_ne_nil hne
      refine ⟨u, remarksIn es, by rw [tokensIn_cons, htokens]; rfl, ?_, fun f => ?_⟩
      · rw [remarksIn_cons, remarks, htokens]
        rfl
      · rw [mapFirstIn, if_pos hsome, remarksIn_cons, remarks, tokens_mapFirst, htokens]
        rfl
    · have hnil : e.tokens = [] := hasTokens_eq_false.1 (by simpa using hsome)
      rw [tokensIn_cons, hnil, List.nil_append] at h ⊢
      obtain ⟨u, more, hhead, hold, hnew⟩ := ih h
      refine ⟨u, more, hhead, ?_, fun f => ?_⟩
      · rw [remarksIn_cons, remarks_of_tokens_eq_nil hnil, List.nil_append, hold]
      · rw [mapFirstIn, if_neg hsome, remarksIn_cons, remarks_of_tokens_eq_nil hnil,
          List.nil_append, hnew f]

/-- Parts behind one that goes, which take over its remarks. -/
structure TakesOver (run : List Trivia) (es es' : List Element) : Prop where
  words : wordsIn es' = wordsIn es
  entries : entriesIn es' = entriesIn es
  remarks : remarksIn es' = run ++ remarksIn es

theorem takesOver_nil (es : List Element) : TakesOver [] es es :=
  ⟨rfl, rfl, rfl⟩

theorem takesOver_leading (h : tokensIn es ≠ []) (run : List Trivia) :
    TakesOver (run.filter Trivia.isRemark) es
      (mapFirstIn (fun u => { u with leading := run ++ u.leading }) es) := by
  have hf : Token.LeadingOnly fun u => { u with leading := run ++ u.leading } :=
    Token.leadingOnly_set fun u => run ++ u.leading
  obtain ⟨u, more, -, hold, hnew⟩ := exists_remarksIn h
  refine ⟨wordsIn_mapFirstIn hf es, entriesIn_mapFirstIn hf es, ?_⟩
  rw [hnew, hold, ← List.append_assoc, Token.remarks, Token.remarks, List.filter_append]

end Element

end Recast
