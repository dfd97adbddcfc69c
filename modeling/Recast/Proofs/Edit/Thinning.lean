-- SUMMARY: A tree without the nodes that bear some tags and without the lists that lose all their items, and what taking one item from its list makes of it.
import Recast.Proofs.Edit.Delisting
import Recast.Proofs.Edit.Sparing
import Recast.Proofs.Tree.Tracking

/-! # Thinned trees

`Node.thinned` is a tree without the nodes that bear some tags, and without the lists of attributes
or base types that lose all their items (`Node.goes`). Trivia is left out, and so are the commas
between the items of a list, since there is one between any two where lists are well separated
(`Node.Arranged`).

An item that goes from its list, or a list that goes with its last item, makes a tree thinner by the
tag of the item (`Node.Thins`), and leaves its lists well separated. Both hold of the tree when
they hold of the list or of its owner (`Node.Put.thins`, `Node.Put.arranged`). -/

namespace Recast

variable {g : Token → Token} {gone gone' : List Tag} {tag : Tag}

/-! ## Well separated lists throughout -/

namespace Element

theorem mark_core (u : Token) : mark (.token u.core) = mark (.token u) := by
  by_cases hcomma : u.is "," = true
  · rw [mark_comma (u.is_core.trans hcomma), mark_comma hcomma]
  · have hcore : u.core.is "," = false := u.is_core.trans (Bool.eq_false_iff.2 hcomma)
    have htext : u.core.text = u.text := by simp [Token.core, hcomma]
    simp [mark, hcore, hcomma, htext]

theorem mark_mapTokens_core (e : Element) : (e.mapTokens .core).mark = e.mark := by
  cases e with
  | token u => exact mark_core u
  | node n =>
    rw [mapTokens, Node.mapTokens_eq]
    rfl

theorem outlook_mapTokens_core (e : Element) : (e.mapTokens .core).outlook = e.outlook := by
  refine Prod.ext e.mark_mapTokens_core ?_
  cases e with
  | token u => rfl
  | node n =>
    simp only [outlook, mapTokens, node?, Option.map_some, Option.getD_some, Node.mapTokens_eq,
      Node.withChildren, row, List.map_map]
    exact List.map_congr_left fun e _ => e.mark_mapTokens_core

end Element

namespace Node

variable {n n' m r : Node} {p : Path}

/-- The parts of the node and of all nodes in it are arranged as lists need it. -/
def Arranged (n : Node) : Prop :=
  ∀ p m, n.at? p = some m → m.kind.Arranges m.children

theorem arranged_iff :
    n.Arranged ↔ n.kind.Arranges n.children ∧ Element.Each Arranged n.children :=
  forall_at?_iff

theorem Arranged.at? (h : n.Arranged) (hat : n.at? p = some m) : m.Arranged := by
  intro q u hu
  exact h (p ++ q) u (at?_trans hat hu)

theorem Formed.arranged (h : n.Formed) : n.Arranged :=
  fun _ _ hat => (h.at? hat).forms.arranges

/-- A list of attributes or base types has an item. -/
theorem Arranged.exists_item (h : n.Arranged) (hlisting : n.kind.isListing = true) :
    ∃ c, .node c ∈ n.children ∧ n.kind.item? = some c.kind := by
  have hsome : n.kind.item?.isSome = true := by
    generalize n.kind = list at hlisting
    cases list <;> first | rfl | cases hlisting
  obtain ⟨trailing, opening, items, closing, hrow, hlists⟩ := (arranged_iff.1 h).1.listed hsome
  rcases hlists.separated with hnil | ⟨item, hitem, hseparated⟩
  · rw [(hlists.filled hnil).1] at hlisting
    cases hlisting
  · obtain ⟨span, rest, rfl⟩ := hseparated.exists_cons
    have hmark : Mark.node item span ∈ Element.row n.children := by simp [hrow]
    obtain ⟨e, he, hmark⟩ := List.mem_map.1 hmark
    obtain ⟨c, rfl, rfl, -⟩ := Element.exists_node_of_mark hmark
    exact ⟨c, he, hitem⟩

/-- Nodes with the same core have the same lists. -/
theorem Arranged.of_mapTokens (h : n.Arranged) (hsame : n'.mapTokens .core = n.mapTokens .core) :
    n'.Arranged := by
  intro p m' hat'
  have hcore : (n.mapTokens Token.core).at? p = some (m'.mapTokens .core) := by
    rw [← hsame, at?_mapTokens, hat', Option.map_some]
  rw [at?_mapTokens] at hcore
  obtain ⟨m, hat, hm⟩ := Option.map_eq_some_iff.1 hcore
  rw [← kind_of_mapTokens hm]
  refine (h p m hat).of_outlook ?_
  have houtlook := congrArg (List.map Element.outlook) (map_children_of_mapTokens hm)
  simpa only [List.map_map, Function.comp_def, Element.outlook_mapTokens_core] using houtlook.symm

/-- The second node fits where the first one stands. -/
structure Refits (n n' : Node) : Prop where
  kind_eq : n'.kind = n.kind
  span_eq : n'.span = n.span
  strict : Mark.IsList n.kind [] (Element.row n.children) →
    Mark.IsList n.kind [] (Element.row n'.children)

theorem Refits.mark_eq (h : n.Refits n') : (Element.node n').mark = (Element.node n).mark := by
  rw [Element.mark, Element.mark, h.kind_eq, h.span_eq]

theorem Refits.of_mapTokens (h : n.Refits n') (hsame : r.mapTokens .core = n'.mapTokens .core) :
    n.Refits r := by
  have hrow : Element.row r.children = Element.row n'.children := by
    have hmarks := congrArg (List.map Element.mark) (map_children_of_mapTokens hsame)
    simpa only [List.map_map, Function.comp_def, Element.mark_mapTokens_core, Element.row] using hmarks
  refine ⟨(kind_of_mapTokens hsame).trans h.kind_eq, (span_of_mapTokens hsame).trans h.span_eq,
    fun hstrict => ?_⟩
  rw [hrow]
  exact h.strict hstrict

theorem row_set_child {c c' : Node} {i : Nat} (hc : n.children[i]? = some (.node c))
    (h : c.Refits c') : Element.row (n.children.set i (.node c')) = Element.row n.children := by
  obtain ⟨hlt, hget⟩ := List.getElem?_eq_some_iff.1 hc
  rw [Element.row, List.map_set, h.mark_eq, ← hget, ← List.map_set, List.set_getElem_self]
  rfl

theorem arranges_set_child {c c' : Node} {i : Nat} (hn : n.kind.Arranges n.children)
    (hc : n.children[i]? = some (.node c)) (h : c.Refits c') :
    n.kind.Arranges (n.children.set i (.node c')) where
  listed hlist := by
    rw [row_set_child hc h]
    exact hn.listed hlist
  strict hkind d hd hlist := by
    rcases List.mem_or_eq_of_mem_set hd with hd | hd
    · exact hn.strict hkind d hd hlist
    · obtain rfl := Element.node.inj hd
      have hold := h.kind_eq.symm.trans hlist
      have hstrict := h.strict
      rw [hold] at hstrict
      exact hstrict (hn.strict hkind c (List.mem_of_getElem? hc) hold)
  placed d hd list hlist := by
    rcases List.mem_or_eq_of_mem_set hd with hd | hd
    · exact hn.placed d hd list hlist
    · obtain rfl := Element.node.inj hd
      exact hn.placed c (List.mem_of_getElem? hc) list (h.kind_eq ▸ hlist)

theorem Put.arranged (h : Put r p n n') (hat : n.at? p = some m) (hn : n.Arranged)
    (hr : r.Arranged) (hm : m.Refits r) : n'.Arranged ∧ n.Refits n' := by
  induction h with
  | here n =>
    obtain rfl := Option.some.inj hat
    exact ⟨hr, hm⟩
  | @under n c c' i p child rest ih =>
    obtain ⟨d, hd, hat⟩ := at?_cons_eq_some.1 hat
    obtain rfl : c = d := by simpa [child] using hd
    obtain ⟨hself, hbelow⟩ := arranged_iff.1 hn
    obtain ⟨hc', hrefits⟩ := ih hat (hbelow c (List.mem_of_getElem? child))
    refine ⟨arranged_iff.2 ⟨arranges_set_child hself child hrefits, fun d hd => ?_⟩, rfl, rfl,
      fun hlist => ?_⟩
    · rcases List.mem_or_eq_of_mem_set hd with hd | hd
      · exact hbelow d hd
      · exact Element.node.inj hd ▸ hc'
    · rw [withChildren, row_set_child child hrefits]
      exact hlist

end Node

/-! ## Nodes that go -/

namespace Node

/-- True when one of the tags is on the node. -/
def bears (tags : List Tag) (n : Node) : Bool :=
  n.tags.any tags.contains

end Node

/-- True for a part of a list that is no item or a gone one. -/
def Element.isSpent (gone : List Tag) (list : Kind) : Element → Bool
  | .token _ => true
  | .node c => list.item? != some c.kind || c.bears gone

/-- True for a node that goes: one that is tagged so, or a list of attributes or base types all of
    whose items are. -/
def Node.goes (gone : List Tag) (n : Node) : Bool :=
  n.bears gone || n.kind.isListing && n.children.all (Element.isSpent gone n.kind)

mutual

/-- The node without the nodes that go, without trivia, and without the commas between the items of
    lists. -/
def Node.thinned (gone : List Tag) : Node → Node
  | ⟨kind, children, span, tags⟩ =>
    ⟨kind, Element.thinIn gone kind.item?.isSome children, span, tags⟩

/-- What is left of a part. -/
def Element.thin (gone : List Tag) : Element → List Element
  | .token u => [.token u.core]
  | .node n => if n.goes gone then [] else [.node (n.thinned gone)]

/-- What is left of the parts of a list or of another construct. -/
def Element.thinIn (gone : List Tag) (listed : Bool) : List Element → List Element
  | [] => []
  | e :: es =>
    if listed && e.isComma && Element.nodeNext false es then Element.thinIn gone listed es
    else e.thin gone ++ Element.thinIn gone listed es

end

/-- The parts of a construct, without the commas between items when it is a list. -/
def Kind.joined (kind : Kind) (parts : List Element) : List Element :=
  if kind.item?.isSome then Element.joints false parts else parts

theorem Kind.joined_sublist (kind : Kind) (parts : List Element) :
    (kind.joined parts).Sublist parts := by
  unfold joined
  split
  · exact Element.joints_sublist ..
  · exact List.Sublist.refl _

theorem Element.thinIn_eq (listed : Bool) (es : List Element) : thinIn gone listed es =
    (if listed then joints false es else es).flatMap (thin gone) := by
  induction es with
  | nil => cases listed <;> rfl
  | cons e es ih =>
    rw [thinIn, ih]
    cases listed with
    | false => rfl
    | true =>
      simp only [Bool.true_and, if_true, joints]
      split <;> rfl

theorem Node.thinned_eq (n : Node) :
    n.thinned gone = n.withChildren ((n.kind.joined n.children).flatMap (Element.thin gone)) := by
  obtain ⟨kind, children, span, tags⟩ := n
  rw [thinned, Element.thinIn_eq]
  rfl

theorem Node.thinned_withChildren {n : Node} {es : List Element}
    (h : (n.kind.joined es).flatMap (Element.thin gone) =
      (n.kind.joined n.children).flatMap (Element.thin gone')) :
    (n.withChildren es).thinned gone = n.thinned gone' := by
  rw [thinned_eq, thinned_eq n, ← h]
  rfl

/-! ### Tags that matter -/

section Congruence

/-- The tags agree on all that the tops bear. -/
def Top.Agree (gone gone' : List Tag) (tops : List Top) : Prop :=
  ∀ top ∈ tops, ∀ tag ∈ top.tags, tag ∈ gone ↔ tag ∈ gone'

theorem Node.bears_congr {n : Node} (h : ∀ tag ∈ n.tags, tag ∈ gone ↔ tag ∈ gone') :
    n.bears gone = n.bears gone' := by
  rw [Bool.eq_iff_iff, bears, bears, List.any_eq_true, List.any_eq_true]
  refine exists_congr fun tag => and_congr_right fun htag => ?_
  simpa using h tag htag

theorem Node.goes_congr {n : Node} (h : Top.Agree gone gone' n.tops) :
    n.goes gone = n.goes gone' := by
  have hchild : ∀ e ∈ n.children, Element.isSpent gone n.kind e = Element.isSpent gone' n.kind e := by
    intro e he
    cases e with
    | token u => rfl
    | node c =>
      rw [Element.isSpent, Element.isSpent, bears_congr]
      refine h c.top ?_
      rw [tops_eq, List.mem_cons, Element.mem_topsIn]
      exact .inr ⟨c, he, by simp [tops_eq]⟩
  have hall : n.children.all (Element.isSpent gone n.kind) =
      n.children.all (Element.isSpent gone' n.kind) := by
    rw [Bool.eq_iff_iff, List.all_eq_true, List.all_eq_true]
    exact forall₂_congr fun e he => by rw [hchild e he]
  rw [goes, goes, bears_congr (h n.top (by simp [tops_eq])), hall]

mutual

theorem Node.thinned_congr : (n : Node) → Top.Agree gone gone' n.tops →
    n.thinned gone = n.thinned gone'
  | ⟨kind, children, _, _⟩, h => by
    rw [Node.thinned, Node.thinned, Element.thinIn_congr children fun top htop => h top ?_]
    rw [Node.tops]
    exact List.mem_cons_of_mem _ htop

theorem Element.thin_congr : (e : Element) → Top.Agree gone gone' e.tops →
    e.thin gone = e.thin gone'
  | .token _, _ => rfl
  | .node n, h => by
    rw [Element.thin, Element.thin, n.goes_congr h, n.thinned_congr h]

theorem Element.thinIn_congr {listed : Bool} : (es : List Element) →
    Top.Agree gone gone' (Element.topsIn es) →
    Element.thinIn gone listed es = Element.thinIn gone' listed es
  | [], _ => rfl
  | e :: es, h => by
    have he : Top.Agree gone gone' e.tops := fun top htop => h top (List.mem_append_left _ htop)
    have hes : Top.Agree gone gone' (Element.topsIn es) :=
      fun top htop => h top (List.mem_append_right _ htop)
    rw [Element.thinIn, Element.thinIn, e.thin_congr he, Element.thinIn_congr es hes]

end

end Congruence

/-! ### Trivia does not matter -/

theorem Token.core_core (u : Token) : u.core.core = u.core := by
  by_cases hcomma : u.is "," = true
  · have hcore : u.core = .ofMark "," := if_pos hcomma
    rw [hcore]
    rfl
  · rw [core, if_neg (u.is_core ▸ hcomma), core, if_neg hcomma]

theorem Element.isComma_mapTokens_core (e : Element) : (e.mapTokens .core).isComma = e.isComma := by
  rw [Bool.eq_iff_iff, ← mark_eq_comma, ← mark_eq_comma, mark_mapTokens_core]

theorem Element.nodeNext_mapTokens (followed : Bool) (es : List Element) :
    nodeNext followed (es.map (mapTokens g)) = nodeNext followed es := by
  rcases es with _ | ⟨u | n, es⟩ <;> rfl

theorem Element.isSpent_mapTokens (list : Kind) (e : Element) :
    (e.mapTokens g).isSpent gone list = e.isSpent gone list := by
  cases e with
  | token u => rfl
  | node n =>
    rw [mapTokens, Node.mapTokens_eq]
    rfl

theorem Node.goes_mapTokens (n : Node) : (n.mapTokens g).goes gone = n.goes gone := by
  have hall : (n.children.map (Element.mapTokens g)).all (Element.isSpent gone n.kind) =
      n.children.all (Element.isSpent gone n.kind) := by
    rw [List.all_map]
    exact List.all_congr rfl fun e => Element.isSpent_mapTokens n.kind e
  rw [mapTokens_eq, goes, goes, ← hall]
  rfl

mutual

theorem Node.thinned_mapTokens_core : (n : Node) →
    (n.mapTokens .core).thinned gone = n.thinned gone
  | ⟨kind, children, _, _⟩ => by
    rw [Node.mapTokens, Node.thinned, Node.thinned, Element.thinIn_mapTokens_core children]

theorem Element.thin_mapTokens_core : (e : Element) → (e.mapTokens .core).thin gone = e.thin gone
  | .token u => by rw [Element.mapTokens, Element.thin, Element.thin, u.core_core]
  | .node n => by
    rw [Element.mapTokens, Element.thin, Element.thin, n.goes_mapTokens, n.thinned_mapTokens_core]

theorem Element.thinIn_mapTokens_core {listed : Bool} : (es : List Element) →
    Element.thinIn gone listed (Element.mapTokensIn .core es) = Element.thinIn gone listed es
  | [] => rfl
  | e :: es => by
    rw [Element.mapTokensIn, Element.thinIn, Element.thinIn, e.isComma_mapTokens_core,
      e.thin_mapTokens_core, Element.thinIn_mapTokens_core es, Element.mapTokensIn_eq_map,
      Element.nodeNext_mapTokens]

end

theorem Node.thinned_of_mapTokens {n n' : Node} (h : n'.mapTokens .core = n.mapTokens .core) :
    n'.thinned gone = n.thinned gone := by
  rw [← n'.thinned_mapTokens_core, h, n.thinned_mapTokens_core]

/-! ## Thinner by a tag -/

theorem Top.agree_cons_of_not_carries {n : Node} (h : ¬n.Carries tag) (gone : List Tag) :
    Top.Agree (tag :: gone) gone n.tops := by
  intro top htop other hother
  have hne : other ≠ tag := by
    rintro rfl
    exact h (Node.carries_iff.2 ⟨top, htop, hother⟩)
  simp [hne]

namespace Node

variable {n n' m r c c' : Node} {p : Path} {i : Nat}

theorem bears_cons_of_not_mem (h : tag ∉ n.tags) : n.bears (tag :: gone) = n.bears gone := by
  refine bears_congr fun other hother => ?_
  have hne : other ≠ tag := by
    rintro rfl
    exact h hother
  simp [hne]

theorem bears_cons_of_mem (h : tag ∈ n.tags) : n.bears (tag :: gone) = true :=
  List.any_eq_true.2 ⟨tag, h, by simp⟩

/-- The second node is the first without what the tag is on. The first does not bear it itself. -/
structure Thins (tag : Tag) (n n' : Node) : Prop where
  untagged : tag ∉ n.tags
  goes : ∀ gone, n'.goes gone = n.goes (tag :: gone)
  thinned : ∀ gone, n'.thinned gone = n.thinned (tag :: gone)

theorem Thins.top_eq (h : n.Thins tag n') : n'.top = n.top := by
  have hthinned := h.thinned []
  rw [thinned_eq, thinned_eq n] at hthinned
  obtain ⟨hkind, -, -, htags⟩ := Node.mk.inj hthinned
  rw [top, top, hkind, htags]

theorem Thins.of_mapTokens (h : n.Thins tag n')
    (hsame : r.mapTokens .core = n'.mapTokens .core) : n.Thins tag r := by
  refine ⟨h.untagged, fun gone => ?_, fun gone => ?_⟩
  · rw [← r.goes_mapTokens (g := .core), hsame, n'.goes_mapTokens, h.goes]
  · rw [thinned_of_mapTokens hsame, h.thinned]

theorem Thins.bears_eq (h : n.Thins tag n') : n'.bears gone = n.bears (tag :: gone) := by
  rw [bears_cons_of_not_mem h.untagged, bears, bears, (Top.mk.inj h.top_eq).2]

end Node

namespace Element

variable {c c' : Node} {es : List Element} {i : Nat}

theorem thin_cons_of_not_carries {e : Element} (h : ∀ n, e = .node n → ¬n.Carries tag) :
    e.thin (tag :: gone) = e.thin gone := by
  cases e with
  | token u => rfl
  | node n => exact thin_congr _ (Top.agree_cons_of_not_carries (h n rfl) gone)

theorem isSpent_cons_of_not_carries {e : Element} {list : Kind}
    (h : ∀ n, e = .node n → ¬n.Carries tag) :
    e.isSpent (tag :: gone) list = e.isSpent gone list := by
  cases e with
  | token u => rfl
  | node n =>
    rw [isSpent, isSpent, Node.bears_cons_of_not_mem]
    exact fun htag => h n rfl ⟨[], htag⟩

theorem flatMap_thin_cons (h : ∀ n, .node n ∈ es → ¬n.Carries tag) :
    es.flatMap (thin (tag :: gone)) = es.flatMap (thin gone) :=
  List.flatMap_congr fun _ he => thin_cons_of_not_carries fun n hn => h n (hn ▸ he)

theorem all_isSpent_cons {list : Kind} (h : ∀ n, .node n ∈ es → ¬n.Carries tag) :
    es.all (isSpent (tag :: gone) list) = es.all (isSpent gone list) := by
  rw [Bool.eq_iff_iff, List.all_eq_true, List.all_eq_true]
  refine forall₂_congr fun e he => ?_
  rw [isSpent_cons_of_not_carries fun n hn => h n (hn ▸ he)]

end Element

namespace Node

variable {n n' m r x : Node} {p : Path} {pre post : List Element} {trailing : List Mark}

theorem joined_around (kind : Kind) (pre post : List Element) (x : Node) :
    kind.joined (pre ++ .node x :: post) =
      (if kind.item?.isSome then Element.joints true pre else pre) ++
        .node x :: kind.joined post := by
  unfold Kind.joined
  split
  · exact Element.joints_append ..
  · rfl

/-- Where all that bears a tag stands in one child, the others do not carry it. -/
theorem not_carries_beside {e : Element} (h : n.children = pre ++ e :: post)
    (honly : ∀ q, tag ∈ n.tagsAt q → [pre.length] <+: q) :
    ∀ c, .node c ∈ pre ++ post → ¬c.Carries tag := by
  rintro c hc ⟨q, hq⟩
  obtain ⟨j, hj, hne⟩ : ∃ j, n.children[j]? = some (.node c) ∧ j ≠ pre.length := by
    rw [h]
    rcases List.mem_append.1 hc with hc | hc
    · obtain ⟨j, hlt, hj⟩ := List.mem_iff_getElem.1 hc
      exact ⟨j, by rw [List.getElem?_append_left hlt, List.getElem?_eq_getElem hlt, hj], by omega⟩
    · obtain ⟨j, hlt, hj⟩ := List.mem_iff_getElem.1 hc
      refine ⟨pre.length + 1 + j, ?_, by omega⟩
      rw [List.append_cons, List.getElem?_append_right (by simp), List.getElem?_eq_getElem (by simpa)]
      simpa using hj
  have hprefix := honly (j :: q) (by rwa [tagsAt_cons, hj])
  exact hne (List.cons_prefix_cons.1 hprefix).1.symm

/-- A child with a thinner one in its place, where nothing else bears the tag. -/
theorem thins_of_child {x' : Node} (h : n.children = pre ++ .node x :: post)
    (h' : n' = n.withChildren (pre ++ .node x' :: post)) (hx : x.Thins tag x')
    (hn : tag ∉ n.tags) (hother : ∀ c, .node c ∈ pre ++ post → ¬c.Carries tag) :
    n.Thins tag n' := by
  subst h'
  have hpre : ∀ c, .node c ∈ pre → ¬c.Carries tag :=
    fun c hc => hother c (List.mem_append_left _ hc)
  have hpost : ∀ c, .node c ∈ post → ¬c.Carries tag :=
    fun c hc => hother c (List.mem_append_right _ hc)
  have htop := Top.mk.inj hx.top_eq
  refine ⟨hn, fun gone => ?_, fun gone => ?_⟩
  · -- The child is spent with the tag where the thinner one is without it.
    have hspent : Element.isSpent gone n.kind (.node x') =
        Element.isSpent (tag :: gone) n.kind (.node x) := by
      rw [Element.isSpent, Element.isSpent, htop.1, hx.bears_eq]
    rw [goes, goes, bears_cons_of_not_mem hn, h, withChildren, List.all_append, List.all_cons,
      List.all_append, List.all_cons, Element.all_isSpent_cons hpre, Element.all_isSpent_cons hpost,
      hspent]
    rfl
  · have hthin : Element.thin gone (.node x') = Element.thin (tag :: gone) (.node x) := by
      rw [Element.thin, Element.thin, hx.goes, hx.thinned]
    have hleft : ∀ c, .node c ∈ (if n.kind.item?.isSome then Element.joints true pre else pre) →
        ¬c.Carries tag := by
      intro c hc
      split at hc
      · exact hpre c ((Element.joints_sublist ..).subset hc)
      · exact hpre c hc
    have hright : ∀ c, .node c ∈ n.kind.joined post → ¬c.Carries tag :=
      fun c hc => hpost c (n.kind.joined_sublist post |>.subset hc)
    apply thinned_withChildren
    rw [h, joined_around, joined_around, List.flatMap_append, List.flatMap_append,
      List.flatMap_cons, List.flatMap_cons, hthin, Element.flatMap_thin_cons hleft,
      Element.flatMap_thin_cons hright]

/-- A thinner node in the place of one below which all that bears the tag stands. -/
theorem Put.thins (h : Put r p n n') (hat : n.at? p = some m) (hm : m.Thins tag r)
    (honly : ∀ q, tag ∈ n.tagsAt q → p <+: q) : n.Thins tag n' := by
  induction h with
  | here n =>
    obtain rfl := Option.some.inj hat
    exact hm
  | @under n c c' i p child rest ih =>
    obtain ⟨d, hd, hat⟩ := at?_cons_eq_some.1 hat
    obtain rfl : c = d := by simpa [child] using hd
    obtain ⟨hlt, hget⟩ := List.getElem?_eq_some_iff.1 child
    have hself : tag ∉ n.tags := by
      intro htag
      have hprefix := honly [] htag
      simp at hprefix
    have hbelow : c.Thins tag c' := by
      refine ih hat fun q hq => ?_
      have hprefix := honly (i :: q) (by rwa [tagsAt_cons, child])
      exact (List.cons_prefix_cons.1 hprefix).2
    have hsplit : n.children = n.children.take i ++ .node c :: n.children.drop (i + 1) := by
      rw [← hget, ← List.drop_eq_getElem_cons hlt, List.take_append_drop]
    have hlength : (n.children.take i).length = i := List.length_take_of_le (Nat.le_of_lt hlt)
    refine thins_of_child hsplit ?_ hbelow hself (not_carries_beside hsplit fun q hq => ?_)
    · rw [List.set_eq_take_append_cons_drop, if_pos hlt]
    · rw [hlength]
      exact (List.cons_prefix_cons.2 ⟨rfl, List.nil_prefix⟩).trans (honly q hq)

/-! ## An item that goes -/

section Item

variable (h : n.children = pre ++ .node x :: post) (hitem : n.kind.item? = some x.kind)
  (hlist : Mark.IsList n.kind trailing (Element.row n.children))
  (hrest : (∃ c, .node c ∈ pre ++ post ∧ c.kind = x.kind) ∨
    n.kind = .parameterList ∧ trailing = [])

include h hitem hlist hrest

theorem isList_closeUp :
    Mark.IsList n.kind trailing (Element.row (closeUp Element.isComma pre post)) := by
  have hrow : Element.row n.children =
      Element.row pre ++ (Element.node x).mark :: Element.row post := by
    rw [h, Element.row_append]
    rfl
  rw [Element.row_closeUp]
  rw [hrow] at hlist
  refine hlist.closeUp hitem rfl (hrest.imp_left fun hother => ?_)
  obtain ⟨c, hc, hkind⟩ := hother
  refine ⟨(Element.node c).mark, ?_, by rw [Element.mark, Mark.kind?, hkind]⟩
  rw [← Element.row_append]
  exact List.mem_map_of_mem hc

theorem arranged_closeUp (hn : n.Arranged) :
    (n.withChildren (closeUp Element.isComma pre post)).Arranged := by
  obtain ⟨hself, hbelow⟩ := arranged_iff.1 hn
  have hsub : ∀ c : Node, .node c ∈ closeUp Element.isComma pre post → .node c ∈ n.children := by
    intro c hc
    rw [h]
    exact ((List.sublist_cons_self ..).append_left pre).subset (closeUp_sublist.subset hc)
  have hplain : n.kind.isConstructible = false := by
    generalize n.kind = kind at hitem
    cases kind <;> first | rfl | cases hitem
  have hclosed := isList_closeUp h hitem hlist hrest
  refine arranged_iff.2 ⟨⟨fun _ => ⟨trailing, hclosed⟩, fun hkind => ?_,
    fun c hc => hself.placed c (hsub c hc)⟩, fun c hc => hbelow c (hsub c hc)⟩
  rw [withChildren, hplain] at hkind
  cases hkind

/-- A list without one of its items is thinner by the tag of the item. -/
theorem thins_closeUp (htag : tag ∈ x.tags) (hn : tag ∉ n.tags)
    (hother : ∀ c, .node c ∈ pre ++ post → ¬c.Carries tag) :
    n.Thins tag (n.withChildren (closeUp Element.isComma pre post)) := by
  refine ⟨hn, fun gone => ?_, fun gone => ?_⟩
  · have hspent : ∀ e : Element, e.isComma = true → e.isSpent gone n.kind = true := by
      intro e he
      cases e with
      | token u => rfl
      | node c => cases he
    have hx : Element.isSpent (tag :: gone) n.kind (.node x) = true := by
      rw [Element.isSpent, bears_cons_of_mem htag, Bool.or_true]
    have hall : n.children.all (Element.isSpent (tag :: gone) n.kind) =
        (pre ++ post).all (Element.isSpent gone n.kind) := by
      rw [← Element.all_isSpent_cons hother, h, List.all_append, List.all_append, List.all_cons, hx,
        Bool.true_and]
    rw [goes, goes, bears_cons_of_not_mem hn, hall, withChildren, all_closeUp hspent]
    rfl
  · obtain ⟨xs, ys, hjoints, hxs, hys, hcore⟩ := Element.exists_joints_eq (h ▸ hlist) hitem rfl hrest
    have hsides : ∀ c, .node c ∈ xs ++ ys → ¬c.Carries tag := fun c hc =>
      hother c ((hxs.append hys).subset hc)
    have hthin : ∀ es : List Element, (es.map (Element.mapTokens .core)).flatMap (Element.thin gone) =
        es.flatMap (Element.thin gone) := fun es => by
      rw [List.flatMap_map]
      exact List.flatMap_congr fun e _ => e.thin_mapTokens_core
    have hx : Element.thin (tag :: gone) (.node x) = [] := by
      rw [Element.thin, goes, bears_cons_of_mem htag, Bool.true_or, if_pos rfl]
    have hitems : n.kind.item?.isSome = true := by rw [hitem, Option.isSome_some]
    apply thinned_withChildren
    rw [Kind.joined, Kind.joined, if_pos hitems, if_pos hitems, h, hjoints, ← hthin, hcore, hthin,
      ← Element.flatMap_thin_cons hsides]
    simp [hx]

omit hlist in
theorem refits_closeUp : n.Refits (n.withChildren (closeUp Element.isComma pre post)) :=
  ⟨rfl, rfl, fun hstrict =>
    isList_closeUp h hitem hstrict (hrest.imp_right fun hparameters => ⟨hparameters.1, rfl⟩)⟩

end Item

/-! ## A list that goes -/

section List

variable (h : n.children = pre ++ .node x :: post) (hitem : n.kind.item? = none)

include h hitem

theorem arranged_without_child (hn : n.Arranged) : (n.withChildren (pre ++ post)).Arranged := by
  obtain ⟨hself, hbelow⟩ := arranged_iff.1 hn
  have hsub : ∀ c : Node, .node c ∈ pre ++ post → .node c ∈ n.children := by
    intro c hc
    rw [h]
    exact ((List.sublist_cons_self ..).append_left pre).subset hc
  refine arranged_iff.2 ⟨⟨fun hlist => ?_, fun hkind c hc => hself.strict hkind c (hsub c hc),
    fun c hc => hself.placed c (hsub c hc)⟩, fun c hc => hbelow c (hsub c hc)⟩
  rw [withChildren, hitem] at hlist
  cases hlist

omit h in
theorem refits_of_item?_eq_none (es : List Element) : n.Refits (n.withChildren es) := by
  refine ⟨rfl, rfl, fun hstrict => ?_⟩
  have hsome := hstrict.isSome_item?
  rw [hitem] at hsome
  cases hsome

/-- A construct without a list that loses all its items is thinner by the tag of the last. -/
theorem thins_without_child (hx : ∀ gone, x.goes (tag :: gone) = true) (hn : tag ∉ n.tags)
    (hother : ∀ c, .node c ∈ pre ++ post → ¬c.Carries tag) :
    n.Thins tag (n.withChildren (pre ++ post)) := by
  have hplain : n.kind.isListing = false := by
    generalize n.kind = kind at hitem
    cases kind <;> first | rfl | cases hitem
  refine ⟨hn, fun gone => ?_, fun gone => ?_⟩
  · rw [goes, goes, bears_cons_of_not_mem hn, withChildren, hplain]
    rfl
  · have hthin : Element.thin (tag :: gone) (.node x) = [] := by
      rw [Element.thin, hx, if_pos rfl]
    have hitems : ¬n.kind.item?.isSome = true := by simp [hitem]
    apply thinned_withChildren
    rw [Kind.joined, Kind.joined, if_neg hitems, if_neg hitems, h,
      ← Element.flatMap_thin_cons hother]
    simp [hthin]

end List

end Node

end Recast
