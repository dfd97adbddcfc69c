-- SUMMARY: The headers of the nodes that bear a tag are, after the edit of a record, some of those before it, unless the edit is made to such a header.
import Recast.Proofs.Plan.Untouched
import Recast.Proofs.Tree.Tracking

/-! # Retained headers

The header of a method is its modifiers and its return type. What is told of it does not change
with the trivia around it, nor with anything that an edit does elsewhere: the nodes that bear a tag
have, after an edit, heads that they had before it, in the same order (`Node.Retains`). Nothing new
comes in, since what an edit puts into a tree was read from text and bears no tag (`Node.Fresh`),
and a header stays as long as nothing in it is of the sort that the edit is made for
(`Head.Clear`). -/

namespace Recast

/-! ## Heads -/

/-- A part of a header: the kinds and tags in it, its text, and the words right below it. -/
structure HeaderPart where
  tops : List Top
  text : String
  words : List String
  deriving DecidableEq

/-- A node without what stands in it, but with its header when it is a method. -/
structure Head where
  top : Top
  parts : List HeaderPart
  deriving DecidableEq

namespace Node

/-- The texts of the tokens right below a node. -/
def words (n : Node) : List String :=
  n.childTokens.map Token.text

def headerPart (n : Node) : HeaderPart :=
  ⟨n.tops, n.text, n.words⟩

end Node

namespace Element

/-- What a part of a method is to its header, when it belongs there. -/
def headerPart? : Element → Option HeaderPart
  | .token _ => none
  | .node c => if Kind.bars .methodDeclaration c.kind then some c.headerPart else none

/-- The header that some parts of a method make. -/
def headerIn (es : List Element) : List HeaderPart :=
  es.filterMap headerPart?

theorem headerIn_append (xs ys : List Element) : headerIn (xs ++ ys) = headerIn xs ++ headerIn ys :=
  List.filterMap_append

theorem headerIn_eq_nil {es : List Element}
    (h : Each (fun c => Kind.bars .methodDeclaration c.kind = false) es) : headerIn es = [] := by
  refine List.filterMap_eq_nil_iff.2 fun e he => ?_
  cases e with
  | token u => rfl
  | node c => simp [headerPart?, h c he]

end Element

/-- What is looked for in a tree: the nodes that bear a tag, with their headers or without. -/
structure Watch where
  tag : Tag
  /-- True when headers are told. -/
  deep : Bool

namespace Tag

/-- Nodes that bear a tag, without their headers. -/
def bare (tag : Tag) : Watch := ⟨tag, false⟩

/-- Nodes that bear a tag, with their headers. -/
def full (tag : Tag) : Watch := ⟨tag, true⟩

end Tag

/-- What is told of a node: its kind and tags, and its header when it is a method and headers are
    told. -/
def Node.head (deep : Bool) (n : Node) : Head :=
  ⟨n.top, if deep = true ∧ n.kind = .methodDeclaration then Element.headerIn n.children else []⟩

theorem Node.head_eq_of_bare {n n' : Node} {deep : Bool}
    (hbare : ¬(deep = true ∧ n.kind = .methodDeclaration)) (htop : n'.top = n.top) :
    n'.head deep = n.head deep := by
  have hsame : n'.kind = n.kind := congrArg Top.kind htop
  rw [head, head, htop, hsame, if_neg hbare, if_neg hbare]

theorem Node.head_eq_of_kind_ne {n n' : Node} {deep : Bool} (hkind : n.kind ≠ .methodDeclaration)
    (htop : n'.top = n.top) : n'.head deep = n.head deep :=
  head_eq_of_bare (fun h => hkind h.2) htop

theorem Node.head_eq_of_parts {n n' : Node} {deep : Bool} (htop : n'.top = n.top)
    (hparts : Element.headerIn n'.children = Element.headerIn n.children) :
    n'.head deep = n.head deep := by
  have hsame : n'.kind = n.kind := congrArg Top.kind htop
  rw [head, head, htop, hsame, hparts]

/-! ### Trivia at the ends -/

namespace Element

theorem words_mapFirstIn {f : Token → Token} (hf : Token.LeadingOnly f) (es : List Element) :
    ((mapFirstIn f es).filterMap token?).map Token.text = (es.filterMap token?).map Token.text := by
  induction es with
  | nil => rfl
  | cons e es ih =>
    rw [mapFirstIn]
    split
    · cases e with
      | token u => simp [mapFirst, token?, (hf u).1]
      | node c => rfl
    · cases e with
      | token u => simpa [token?] using ih
      | node c => exact ih

theorem words_mapLastIn {f : Token → Token} (hf : Token.TrailingOnly f) (es : List Element) :
    ((mapLastIn f es).filterMap token?).map Token.text = (es.filterMap token?).map Token.text := by
  induction es with
  | nil => rfl
  | cons e es ih =>
    rw [mapLastIn]
    split
    · cases e with
      | token u => simpa [token?] using ih
      | node c => exact ih
    · cases e with
      | token u => simp [mapLast, token?, (hf u).1]
      | node c => rfl

end Element

namespace Node

theorem headerPart_mapFirst {f : Token → Token} (hf : Token.LeadingOnly f) (n : Node) :
    (n.mapFirst f).headerPart = n.headerPart := by
  have hwords : (n.mapFirst f).words = n.words := by
    obtain ⟨kind, children, span, tags⟩ := n
    exact Element.words_mapFirstIn hf children
  rw [headerPart, headerPart, n.tops_mapFirst hf, n.text_mapFirst hf, hwords]

theorem headerPart_mapLast {f : Token → Token} (hf : Token.TrailingOnly f) (n : Node) :
    (n.mapLast f).headerPart = n.headerPart := by
  have hwords : (n.mapLast f).words = n.words := by
    obtain ⟨kind, children, span, tags⟩ := n
    exact Element.words_mapLastIn hf children
  rw [headerPart, headerPart, n.tops_mapLast hf, n.text_mapLast hf, hwords]

end Node

namespace Element

theorem headerPart?_mapFirst {f : Token → Token} (hf : Token.LeadingOnly f) (e : Element) :
    (e.mapFirst f).headerPart? = e.headerPart? := by
  cases e with
  | token u => rfl
  | node c =>
    have hkind : (c.mapFirst f).kind = c.kind := congrArg Top.kind (c.top_mapFirst f)
    simp only [mapFirst, headerPart?, hkind, c.headerPart_mapFirst hf]

theorem headerPart?_mapLast {f : Token → Token} (hf : Token.TrailingOnly f) (e : Element) :
    (e.mapLast f).headerPart? = e.headerPart? := by
  cases e with
  | token u => rfl
  | node c =>
    have hkind : (c.mapLast f).kind = c.kind := congrArg Top.kind (c.top_mapLast f)
    simp only [mapLast, headerPart?, hkind, c.headerPart_mapLast hf]

theorem headerIn_mapFirstIn {f : Token → Token} (hf : Token.LeadingOnly f) (es : List Element) :
    headerIn (mapFirstIn f es) = headerIn es := by
  induction es with
  | nil => rfl
  | cons e es ih =>
    unfold headerIn at ih ⊢
    rw [mapFirstIn]
    split
    · simp only [List.filterMap_cons, headerPart?_mapFirst hf]
    · simp only [List.filterMap_cons, ih]

theorem headerIn_mapLastIn {f : Token → Token} (hf : Token.TrailingOnly f) (es : List Element) :
    headerIn (mapLastIn f es) = headerIn es := by
  induction es with
  | nil => rfl
  | cons e es ih =>
    unfold headerIn at ih ⊢
    rw [mapLastIn]
    split
    · simp only [List.filterMap_cons, ih]
    · simp only [List.filterMap_cons, headerPart?_mapLast hf]

theorem headerIn_modify {g : Element → Element} (hg : ∀ e, (g e).headerPart? = e.headerPart?)
    (j : Nat) (es : List Element) : headerIn (es.modify j g) = headerIn es := by
  unfold headerIn
  induction es generalizing j with
  | nil => simp
  | cons e es ih =>
    cases j with
    | zero => simp only [List.modify_zero_cons, List.filterMap_cons, hg]
    | succ j => simp only [List.modify_succ_cons, List.filterMap_cons, ih]

end Element

namespace Node

theorem head_mapFirst {f : Token → Token} (hf : Token.LeadingOnly f) (deep : Bool) (n : Node) :
    (n.mapFirst f).head deep = n.head deep := by
  refine head_eq_of_parts (n.top_mapFirst f) ?_
  obtain ⟨kind, children, span, tags⟩ := n
  exact Element.headerIn_mapFirstIn hf children

theorem head_mapLast {f : Token → Token} (hf : Token.TrailingOnly f) (deep : Bool) (n : Node) :
    (n.mapLast f).head deep = n.head deep := by
  refine head_eq_of_parts (n.top_mapLast f) ?_
  obtain ⟨kind, children, span, tags⟩ := n
  exact Element.headerIn_mapLastIn hf children

end Node

/-! ### Heads in a tree -/

/-- Tells the heads of the nodes that bear a tag. -/
def Observer.ofHeads (watch : Watch) : Observer Head where
  tell _ n := if watch.tag ∈ n.tags then [n.head watch.deep] else []
  tell_mapFirst _ n f hf := by
    have htags : (n.mapFirst f).tags = n.tags := congrArg Top.tags (n.top_mapFirst f)
    rw [htags, n.head_mapFirst hf]
  tell_mapLast _ n f hf := by
    have htags : (n.mapLast f).tags = n.tags := congrArg Top.tags (n.top_mapLast f)
    rw [htags, n.head_mapLast hf]

/-- The heads of the nodes that bear a tag, in document order. -/
def Node.heads (watch : Watch) (n : Node) : List Head :=
  (Observer.ofHeads watch).see [] n

/-- The heads in a list of parts. -/
def Element.headsIn (watch : Watch) (es : List Element) : List Head :=
  (Observer.ofHeads watch).seeIn [] es

theorem Node.heads_eq_flatMap (watch : Watch) (n : Node) :
    n.heads watch =
      n.nodes.flatMap fun (_, m) => if watch.tag ∈ m.tags then [m.head watch.deep] else [] :=
  (Observer.ofHeads watch).see_eq_flatMap n []

/-- What a node stands in makes no difference to its head. -/
theorem Observer.see_ofHeads (watch : Watch) (up : List Top) (n : Node) :
    (ofHeads watch).see up n = n.heads watch := by
  rw [Node.heads_eq_flatMap]
  exact (ofHeads watch).see_eq_flatMap n up

namespace Element

variable {watch : Watch}

@[simp] theorem headsIn_nil : headsIn watch [] = [] := rfl

@[simp] theorem headsIn_token (u : Token) (es : List Element) :
    headsIn watch (.token u :: es) = headsIn watch es := rfl

@[simp] theorem headsIn_node (n : Node) (es : List Element) :
    headsIn watch (.node n :: es) = n.heads watch ++ headsIn watch es := rfl

@[simp] theorem headsIn_append (xs ys : List Element) :
    headsIn watch (xs ++ ys) = headsIn watch xs ++ headsIn watch ys :=
  Observer.seeIn_append _ _ xs ys

theorem seeIn_ofHeads (up : List Top) (es : List Element) :
    (Observer.ofHeads watch).seeIn up es = headsIn watch es := by
  induction es with
  | nil => rfl
  | cons e es ih =>
    cases e with
    | token u => exact ih
    | node n => rw [Observer.seeIn_node, headsIn_node, Observer.see_ofHeads, ih]

end Element

namespace Node

variable {watch : Watch} {n m : Node} {p : Path}

theorem heads_eq (n : Node) :
    n.heads watch =
      (if watch.tag ∈ n.tags then [n.head watch.deep] else []) ++
        Element.headsIn watch n.children := by
  rw [heads, Observer.see_eq, Element.seeIn_ofHeads]
  rfl

theorem heads_mapFirst {f : Token → Token} (hf : Token.LeadingOnly f) (n : Node) :
    (n.mapFirst f).heads watch = n.heads watch :=
  Observer.see_mapFirst _ hf [] n

theorem heads_mapLast {f : Token → Token} (hf : Token.TrailingOnly f) (n : Node) :
    (n.mapLast f).heads watch = n.heads watch :=
  Observer.see_mapLast _ hf [] n

theorem heads_withLeading (n : Node) (trivia : List Trivia) :
    (n.withLeading trivia).heads watch = n.heads watch :=
  heads_mapFirst (Token.leadingOnly_set fun _ => trivia) n

theorem heads_withTrailing (n : Node) (trivia : List Trivia) :
    (n.withTrailing trivia).heads watch = n.heads watch :=
  heads_mapLast (Token.trailingOnly_set fun _ => trivia) n

theorem heads_withTriviaOf (n other : Node) : (n.withTriviaOf other).heads watch = n.heads watch := by
  rw [withTriviaOf, heads_withTrailing, heads_withLeading]

theorem mem_heads {h : Head} : h ∈ n.heads watch ↔
    ∃ p m, n.at? p = some m ∧ watch.tag ∈ m.tags ∧ m.head watch.deep = h := by
  rw [heads_eq_flatMap, List.mem_flatMap]
  constructor
  · rintro ⟨⟨p, m⟩, hmem, hh⟩
    dsimp only at hh
    split at hh
    · rename_i htag
      exact ⟨p, m, mem_nodes.1 hmem, htag, (List.mem_singleton.1 hh).symm⟩
    · cases hh
  · rintro ⟨p, m, hat, htag, rfl⟩
    exact ⟨(p, m), mem_nodes.2 hat, by simp [htag]⟩

theorem mem_heads_of_at? {h : Head} (hat : n.at? p = some m) (hh : h ∈ m.heads watch) :
    h ∈ n.heads watch := by
  obtain ⟨q, u, hu, htag, rfl⟩ := mem_heads.1 hh
  exact mem_heads.2 ⟨p ++ q, u, at?_trans hat hu, htag, rfl⟩

end Node

/-! ## Fresh nodes -/

/-- Neither the node nor anything in it bears a tag. -/
def Node.Fresh (n : Node) : Prop :=
  ∀ top ∈ n.tops, top.tags = []

namespace Node

variable {n : Node} {watch : Watch}

theorem fresh_iff : n.Fresh ↔ n.tags = [] ∧ Element.Each Fresh n.children := by
  unfold Fresh
  rw [tops_eq, List.forall_mem_cons]
  refine and_congr_right' ⟨fun h c hc top htop => ?_, fun h top htop => ?_⟩
  · exact h top (Element.mem_topsIn.2 ⟨c, hc, htop⟩)
  · obtain ⟨c, hc, htop⟩ := Element.mem_topsIn.1 htop
    exact h c hc top htop

theorem Fresh.heads_eq_nil (h : n.Fresh) : n.heads watch = [] := by
  refine List.eq_nil_iff_forall_not_mem.2 fun head hhead => ?_
  obtain ⟨p, m, hat, htag, -⟩ := mem_heads.1 hhead
  have htags : m.tags = [] := h m.top (mem_tops.2 ⟨p, m, hat, rfl⟩)
  rw [htags] at htag
  cases htag

theorem Fresh.mapFirst (h : n.Fresh) (f : Token → Token) : (n.mapFirst f).Fresh := by
  intro top htop
  rw [← tops_blank, blank_mapFirst, tops_blank] at htop
  exact h top htop

theorem Fresh.mapLast (h : n.Fresh) (f : Token → Token) : (n.mapLast f).Fresh := by
  intro top htop
  rw [← tops_blank, blank_mapLast, tops_blank] at htop
  exact h top htop

theorem Fresh.withTriviaOf (h : n.Fresh) (other : Node) : (n.withTriviaOf other).Fresh :=
  (h.mapFirst _).mapLast _

theorem fresh_ofChildren {kind : Kind} {es : List Element} (h : Element.Each Fresh es) :
    (ofChildren kind es).Fresh :=
  fresh_iff.2 ⟨rfl, h⟩

theorem Built.fresh (h : n.Built) : n.Fresh := by
  intro top htop
  obtain ⟨p, m, hat, rfl⟩ := mem_tops.1 htop
  exact (h.at? hat).tags_eq

end Node

theorem Element.headsIn_eq_nil (watch : Watch) {es : List Element} (h : Each Node.Fresh es) :
    headsIn watch es = [] := by
  induction es with
  | nil => rfl
  | cons e es ih =>
    have hrest := ih fun c hc => h c (List.mem_cons_of_mem _ hc)
    cases e with
    | token u => exact hrest
    | node n => rw [headsIn_node, (h n (List.mem_cons_self ..)).heads_eq_nil, hrest, List.append_nil]

namespace Fragment

variable {source : String} {n : Node}

theorem fresh_of_single {read : Except ParseError Node} (fragment : Fragment)
    (hread : fragment.read source = (do return [← read])) (h : read = .ok n) : n.Fresh := by
  rw [h] at hread
  exact ((readFrom_of_read hread).built n (List.mem_singleton_self n)).fresh

theorem fresh_of_readExpression (h : readExpression source = .ok n) : n.Fresh :=
  fresh_of_single .expression rfl h

theorem fresh_of_readType (h : readType source = .ok n) : n.Fresh :=
  fresh_of_single .type rfl h

theorem fresh_of_readName (h : readName source = .ok n) : n.Fresh :=
  fresh_of_single .name rfl h

theorem fresh_of_readAttribute (h : readAttribute source = .ok n) : n.Fresh :=
  fresh_of_single .attribute rfl h

theorem fresh_of_readAttributeList (h : readAttributeList source = .ok n) : n.Fresh :=
  fresh_of_single .attributeList rfl h

theorem fresh_of_readStatements {ns : List Node} (h : readStatements source = .ok ns) :
    ∀ n ∈ ns, n.Fresh :=
  fun n hn => ((readFrom_statements h).built n hn).fresh

end Fragment

/-! ## Changes that retain heads -/

/-- Nothing in the header of a method is of a sort. -/
def Head.Clear (Q : Top → Prop) (h : Head) : Prop :=
  ∀ part ∈ h.parts, ∀ top ∈ part.tops, ¬Q top

namespace Node

/-- Nothing of a sort is in a header of a node with the tag. -/
def Clear (watch : Watch) (Q : Top → Prop) (n : Node) : Prop :=
  ∀ h ∈ n.heads watch, h.Clear Q

/-- The nodes with a tag in the second node have heads of such nodes in the first. -/
def Retains (watch : Watch) (n n' : Node) : Prop :=
  (n'.heads watch).Sublist (n.heads watch)

end Node

/-- The nodes with a tag in the second list of parts have heads of such nodes in the first. -/
def Element.RetainsIn (watch : Watch) (es es' : List Element) : Prop :=
  (headsIn watch es').Sublist (headsIn watch es)

namespace Element

variable {watch : Watch} {xs ys zs : List Element}

theorem RetainsIn.refl (xs : List Element) : RetainsIn watch xs xs :=
  List.Sublist.refl _

theorem RetainsIn.trans (h : RetainsIn watch xs ys) (h' : RetainsIn watch ys zs) :
    RetainsIn watch xs zs :=
  List.Sublist.trans h' h

theorem retainsIn_of_eq (h : headsIn watch ys = headsIn watch xs) : RetainsIn watch xs ys := by
  unfold RetainsIn
  rw [h]

theorem retainsIn_of_sublist (h : ys.Sublist xs) : RetainsIn watch xs ys := by
  unfold RetainsIn
  induction h with
  | slnil => exact .refl _
  | @cons ys xs e _ ih =>
    cases e with
    | token u => exact ih
    | node n => exact ih.trans (List.sublist_append_right _ _)
  | @cons_cons ys xs e _ ih =>
    cases e with
    | token u => exact ih
    | node n => exact ih.append_left _

/-- Fresh parts between some of the old ones. -/
theorem retainsIn_splice {i j : Nat} (hij : i ≤ j) (xs : List Element)
    (hnew : Each Node.Fresh ys) : RetainsIn watch xs (xs.take i ++ ys ++ xs.drop j) := by
  have hold : RetainsIn watch xs (xs.take i ++ xs.drop j) := by
    refine retainsIn_of_sublist ?_
    have hdrop : (xs.drop j).Sublist (xs.drop i) := List.drop_sublist_drop_left _ hij
    have happend := hdrop.append_left (xs.take i)
    rwa [List.take_append_drop] at happend
  refine hold.trans (retainsIn_of_eq ?_)
  simp only [headsIn_append, headsIn_eq_nil _ hnew, List.append_nil]

theorem retainsIn_set {i : Nat} {c c' : Node} (hc : xs[i]? = some (.node c))
    (h : c.Retains watch c') : RetainsIn watch xs (xs.set i (.node c')) := by
  obtain ⟨hlt, hget⟩ := List.getElem?_eq_some_iff.1 hc
  have hwhole : xs = xs.take i ++ .node c :: xs.drop (i + 1) := by
    rw [← hget, ← List.drop_eq_getElem_cons hlt, List.take_append_drop]
  unfold RetainsIn
  rw [List.set_eq_take_append_cons_drop, if_pos hlt]
  conv_rhs => rw [hwhole]
  simp only [headsIn_append, headsIn_node]
  exact (List.Sublist.append_right h _).append_left _

theorem retainsIn_set_fresh {c : Node} (h : c.Fresh) (i : Nat) (xs : List Element) :
    RetainsIn watch xs (xs.set i (.node c)) := by
  by_cases hlt : i < xs.length
  · rw [List.set_eq_take_append_cons_drop, if_pos hlt, ← List.singleton_append,
      ← List.append_assoc]
    exact retainsIn_splice (Nat.le_succ i) xs (each_single h)
  · rw [List.set_eq_of_length_le (Nat.not_lt.1 hlt)]
    exact .refl xs

theorem retainsIn_cons_fresh {c : Node} (h : c.Fresh) (hys : RetainsIn watch xs ys) :
    RetainsIn watch xs (.node c :: ys) := by
  unfold RetainsIn
  rw [headsIn_node, h.heads_eq_nil, List.nil_append]
  exact hys

/-- Each part gives way to one that retains its heads. -/
theorem retainsIn_mapM {ε : Type} {f : Element → Except ε Element}
    (hf : ∀ e e', f e = .ok e' → RetainsIn watch [e] [e']) (h : xs.mapM f = .ok ys) :
    RetainsIn watch xs ys := by
  induction xs generalizing ys with
  | nil =>
    obtain rfl := Except.ok.inj h
    exact .refl _
  | cons e xs ih =>
    rw [List.mapM_cons] at h
    obtain ⟨e', he', h⟩ := ok_of_bind h
    obtain ⟨ys', hys', h⟩ := ok_of_bind h
    obtain rfl := Except.ok.inj h
    have happend := List.Sublist.append (hf e e' he') (ih hys')
    rwa [← headsIn_append, ← headsIn_append] at happend

theorem retainsIn_modify_mapFirst {f : Token → Token} (hf : Token.LeadingOnly f) (j : Nat)
    (xs : List Element) : RetainsIn watch xs (xs.modify j (·.mapFirst f)) :=
  retainsIn_of_eq (Observer.seeIn_modify _ _ (Observer.seePart_mapFirst _ hf _) j xs)

theorem retainsIn_modify_mapLast {f : Token → Token} (hf : Token.TrailingOnly f) (j : Nat)
    (xs : List Element) : RetainsIn watch xs (xs.modify j (·.mapLast f)) :=
  retainsIn_of_eq (Observer.seeIn_modify _ _ (Observer.seePart_mapLast _ hf _) j xs)

theorem retainsIn_dropItem (i : Nat) (xs : List Element) :
    RetainsIn watch xs (Tree.dropItem i xs) := by
  have hrest : ∀ {j k}, j ≤ k → RetainsIn watch xs (xs.take j ++ xs.drop k) := by
    intro j k hjk
    have hsplice : RetainsIn watch xs (xs.take j ++ [] ++ xs.drop k) := retainsIn_splice hjk xs each_nil
    rwa [List.append_nil] at hsplice
  unfold Tree.dropItem
  dsimp only
  split
  · exact hrest (by omega)
  · split
    · split
      · exact hrest (by omega)
      · exact (hrest (by omega)).trans (retainsIn_modify_mapLast (Token.trailingOnly_set _) _ _)
    · exact retainsIn_of_sublist (List.eraseIdx_sublist ..)

end Element

namespace Node

variable {watch : Watch} {Q : Top → Prop} {n n' n'' m r c : Node} {p : Path}

theorem Retains.refl (n : Node) : n.Retains watch n :=
  List.Sublist.refl _

theorem Retains.trans (h : n.Retains watch n') (h' : n'.Retains watch n'') : n.Retains watch n'' :=
  List.Sublist.trans h' h

theorem retains_of_eq (h : n'.heads watch = n.heads watch) : n.Retains watch n' := by
  unfold Retains
  rw [h]

theorem Fresh.retains (h : n'.Fresh) (n : Node) : n.Retains watch n' := by
  unfold Retains
  rw [h.heads_eq_nil]
  exact List.nil_sublist _

theorem Clear.of_retains (hclear : n.Clear watch Q) (h : n.Retains watch n') : n'.Clear watch Q :=
  fun head hhead => hclear head (List.Sublist.subset h hhead)

theorem Clear.at? (hclear : n.Clear watch Q) (hat : n.at? p = some m) : m.Clear watch Q :=
  fun head hhead => hclear head (mem_heads_of_at? hat hhead)

/-- Other parts that leave the header as it is. -/
theorem retains_of_parts (htop : n'.top = n.top)
    (hhead : watch.tag ∈ n.tags → n'.head watch.deep = n.head watch.deep)
    (h : Element.RetainsIn watch n.children n'.children) : n.Retains watch n' := by
  have htags : n'.tags = n.tags := congrArg Top.tags htop
  unfold Retains
  rw [heads_eq, heads_eq n, htags]
  refine List.Sublist.append ?_ h
  split
  · rename_i htag
    rw [hhead htag]
  · exact .refl _

/-- What is of a sort does not stand in a header that is clear of it. -/
theorem Clear.bars_eq_false (hclear : n.Clear watch Q) (htag : watch.tag ∈ n.tags)
    (hdeep : watch.deep = true) (hkind : n.kind = .methodDeclaration) (hc : .node c ∈ n.children)
    (hholds : c.Holds Q) :
    Kind.bars .methodDeclaration c.kind = false := by
  by_contra hbars
  rw [Bool.not_eq_false] at hbars
  have hpart : c.headerPart ∈ (n.head watch.deep).parts := by
    rw [head, if_pos ⟨hdeep, hkind⟩]
    exact List.mem_filterMap.2 ⟨.node c, hc, by simp [Element.headerPart?, hbars]⟩
  obtain ⟨top, htop, hQ⟩ := hholds
  have hhead : n.head watch.deep ∈ n.heads watch := mem_heads.2 ⟨[], n, rfl, htag, rfl⟩
  exact hclear _ hhead c.headerPart hpart top htop hQ

/-- Parts that do not belong to a header take the place of one that holds something of a sort. -/
theorem Clear.head_splice (hclear : n.Clear watch Q) (htag : watch.tag ∈ n.tags) {i : Nat}
    (hc : n.children[i]? = some (.node c)) (hholds : c.Holds Q) {new : List Element}
    (hnew : Element.Each (fun d => Kind.bars .methodDeclaration d.kind = true →
      Kind.bars .methodDeclaration c.kind = true) new) :
    (n.withChildren (n.children.take i ++ new ++ n.children.drop (i + 1))).head watch.deep =
      n.head watch.deep := by
  by_cases hkind : watch.deep = true ∧ n.kind = .methodDeclaration
  · have hbars := hclear.bars_eq_false htag hkind.1 hkind.2 (List.mem_of_getElem? hc) hholds
    have hnew : Element.headerIn new = [] := by
      refine Element.headerIn_eq_nil (hnew.mono fun d hd => Bool.eq_false_iff.2 fun hheading => ?_)
      rw [hd hheading] at hbars
      cases hbars
    have hold : Element.headerIn [.node c] = [] :=
      Element.headerIn_eq_nil (Element.each_single hbars)
    refine head_eq_of_parts rfl ?_
    conv_rhs => rw [children_split hc, ← List.singleton_append, ← List.append_assoc]
    simp only [withChildren, Element.headerIn_append, hnew, hold]
  · exact head_eq_of_bare hkind rfl

/-- A node put in the place of one that holds something of a sort that headers are clear of. -/
theorem Put.retains (hput : Put r p n n') (hat : n.at? p = some m) (hclear : n.Clear watch Q)
    (hm : m.Holds Q) (hfits : Kind.bars .methodDeclaration r.kind = true →
      Kind.bars .methodDeclaration m.kind = true) (h : m.Retains watch r) : n.Retains watch n' := by
  induction hput with
  | here n =>
    obtain rfl := Option.some.inj hat
    exact h
  | @under n c c' i p child rest ih =>
    obtain ⟨d, hd, hat⟩ := at?_cons_eq_some.1 hat
    obtain rfl : c = d := by simpa [child] using hd
    have hat' : n.at? [i] = some c := at?_cons_eq_some.2 ⟨c, child, rfl⟩
    -- Only a child that is replaced itself may change its kind.
    have hfits' : Kind.bars .methodDeclaration c'.kind = true →
        Kind.bars .methodDeclaration c.kind = true := by
      cases rest with
      | here =>
        obtain rfl := Option.some.inj hat
        exact hfits
      | under => exact id
    refine retains_of_parts rfl (fun htag => ?_) (Element.retainsIn_set child (ih hat (hclear.at? hat')))
    have hlt : i < n.children.length := (List.getElem?_eq_some_iff.1 child).1
    have hset : n.children.set i (.node c') =
        n.children.take i ++ [.node c'] ++ n.children.drop (i + 1) := by
      rw [List.set_eq_take_append_cons_drop, if_pos hlt, List.append_assoc, List.singleton_append]
    -- The header of the node is clear of what goes, so its parts are kept.
    rw [hset]
    exact hclear.head_splice htag child (hm.of_at? hat) (Element.each_single hfits')

/-- Parts that come into a node between two others and belong to no header. -/
theorem retains_between {n : Node} {parts : List Element} (i : Nat)
    (hfresh : Element.Each Fresh parts)
    (hplain : Element.Each (fun d => Kind.bars .methodDeclaration d.kind = false) parts) :
    n.Retains watch (n.withChildren (n.children.take i ++ parts ++ n.children.drop i)) := by
  refine retains_of_parts rfl (fun _ => head_eq_of_parts rfl ?_)
    (Element.retainsIn_splice (Nat.le_refl i) _ hfresh)
  conv_rhs => rw [← List.take_append_drop i n.children]
  simp only [withChildren, Element.headerIn_append, Element.headerIn_eq_nil hplain,
    List.append_nil]

end Node

/-! ## Edits of trees -/

namespace Tree

variable {watch : Watch} {Q : Top → Prop} {t t' : Tree} {p : Path} {m : Node}
  (hclear : t.root.Clear watch Q)

include hclear

theorem retains_insert {i : Nat} {parts : List Element} (hat : t.root.at? p = some m)
    (hm : m.Holds Q) (hfresh : Element.Each Node.Fresh parts)
    (hplain : Element.Each (fun d => Kind.bars .methodDeclaration d.kind = false) parts)
    (h : t.insert p i parts = .ok t') : t.root.Retains watch t'.root := by
  obtain ⟨u, hu, -, hput⟩ := insert_eq_ok h
  obtain rfl : m = u := Option.some.inj (hat.symm.trans hu)
  exact hput.retains hat hclear hm id (Node.retains_between i hfresh hplain)

theorem retains_replaceMany {replacements : List Node} (hat : t.root.at? p = some m)
    (hm : m.Holds Q) (hfresh : ∀ r ∈ replacements, r.Fresh)
    (hplain : ∀ r ∈ replacements, Kind.bars .methodDeclaration r.kind = false)
    (h : t.replaceMany p replacements = .ok t') : t.root.Retains watch t'.root := by
  obtain ⟨-, rfl⟩ | ⟨q, i, u, -, hu, hc, hput⟩ := replaceMany_eq_ok hat h
  · exact (hfresh _ (List.mem_singleton_self _)).retains _
  · refine hput.retains hu hclear (hm.of_child hc) id (Node.retains_of_parts rfl (fun htag => ?_)
      (Element.retainsIn_splice (Nat.le_succ i) _ (Element.each_nodes hfresh)))
    refine (hclear.at? hu).head_splice htag hc hm (Element.each_nodes fun r hr hbars => ?_)
    rw [hplain r hr] at hbars
    cases hbars

/-- The token next to a node gets other trivia on the side of the node; the node stays. -/
theorem retains_updateNear (side : Node.Side) {f : Token → Token} (hf : side.Only f)
    (hat : t.root.at? p = some m) (hm : m.Holds Q) (h : t.updateNear side p f = .ok t') :
    t.root.Retains watch t'.root ∧ t'.root.at? p = some m := by
  obtain ⟨w, hw, hstays, -, -⟩ := around_updateNear side f hat
  obtain rfl : w = t' := Except.ok.inj (hw.symm.trans h)
  refine ⟨?_, hstays⟩
  obtain rfl | ⟨q, r, j, u, -, hu, hat, hput⟩ := updateNear_eq_ok hat h
  · exact .refl _
  · refine hput.retains hu hclear (hm.of_at? hat) id
      (Node.retains_of_parts rfl (fun _ => Node.head_eq_of_parts rfl ?_) ?_)
    · cases side with
      | before => exact Element.headerIn_modify (Element.headerPart?_mapLast hf) j u.children
      | after => exact Element.headerIn_modify (Element.headerPart?_mapFirst hf) j u.children
    · cases side with
      | before => exact Element.retainsIn_modify_mapLast hf j u.children
      | after => exact Element.retainsIn_modify_mapFirst hf j u.children

theorem retains_handOver {removed : Node} {option : RemoveOption} (hat : t.root.at? p = some m)
    (hm : m.Holds Q) (h : t.handOver p removed option = .ok t') :
    t.root.Retains watch t'.root ∧ t'.root.at? p = some m := by
  obtain rfl | h | ⟨trailing, h⟩ := handOver_eq_ok h
  · exact ⟨.refl _, hat⟩
  · exact retains_updateNear hclear .after (Token.leadingOnly_set _) hat hm h
  · exact retains_updateNear hclear .before (Token.trailingOnly_set trailing) hat hm h

theorem retains_remove {option : RemoveOption} (hat : t.root.at? p = some m) (hm : m.Holds Q)
    (h : t.remove p option = .ok t') : t.root.Retains watch t'.root := by
  obtain ⟨q, i, w, u, rfl, hw, hu, hput⟩ := remove_eq_ok hat h
  obtain ⟨hretains, hat'⟩ := retains_handOver hclear hat hm hw
  have hclear := hclear.of_retains hretains
  rw [Node.at?_append, hu] at hat'
  obtain ⟨c, hc, hat'⟩ := Node.at?_cons_eq_some.1 hat'
  obtain rfl : c = m := Option.some.inj hat'
  refine hretains.trans (hput.retains hu hclear (hm.of_child hc) id
    (Node.retains_of_parts rfl (fun htag => ?_)
      (Element.retainsIn_of_sublist (List.eraseIdx_sublist ..))))
  have hsplice := (hclear.at? hu).head_splice htag hc hm (Element.each_nil : Element.Each _ [])
  rwa [List.append_nil, ← List.eraseIdx_eq_take_drop_succ] at hsplice

/-- An item goes from a list that is no method. -/
theorem retains_removeItem {q : Path} {i : Nat} {list : Node} (hlist : t.root.at? q = some list)
    (hkind : list.kind ≠ .methodDeclaration) (hholds : list.Holds Q)
    (h : t.removeItem (q ++ [i]) = .ok t') : t.root.Retains watch t'.root :=
  (put_of_removeItem hlist h).retains hlist hclear hholds id (Node.retains_of_parts rfl
    (fun _ => Node.head_eq_of_kind_ne hkind rfl) (Element.retainsIn_dropItem i _))

end Tree

end Recast
