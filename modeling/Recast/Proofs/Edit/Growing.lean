-- SUMMARY: Trees that records put new parts into: attribute lists among the parts of declarations, base types at the ends of base lists, and base lists of their own, everything else as it was but for trivia.
import Recast.Edit.Marker
import Recast.Proofs.Edit.Relaying
import Recast.Proofs.Edit.Retaining
import Recast.Proofs.Tree.Retouching

/-! # Growing trees

Markers and base types are added to declarations. The parts of a node that has grown are those that it
had, in their order and the same but for trivia, and in between what records put there
(`Element.Grown`): the attribute list of a marker, a base type behind a comma at the end of a base
list, or a new base list. The records stand in the order in which their parts do.

What a record puts is `Fresh`. So a node that bears a tag is one that was there before, and a tree that
has grown grows further when the node does (`Node.Grown.put`). -/

namespace Recast

/-- The token without trivia. -/
def Token.bald (u : Token) : Token :=
  { u with leading := [], trailing := [] }

theorem Token.forgets_bald : Forgets bald := fun _ _ _ => rfl

theorem Token.is_of_bald {u v : Token} (h : u.bald = v.bald) (text : String) :
    u.is text = v.is text :=
  congrArg (·.is text) h

/-! ## What records put -/

/-- What an added marker or base type is read as: an attribute list or a base type. -/
def Record.part? (r : Record) : Option Node :=
  match r.change with
  | .methodMarker marker none | .classMarker marker => (Edit.markerList marker).toOption
  | .baseTypeAddition type =>
    (Fragment.readType type).toOption.map fun read => .ofChildren .baseType [.node read]
  | _ => none

/-- The node is what the record adds to a declaration with these tags, but for trivia. -/
structure Record.Puts (r : Record) (kind : Kind) (tags : List Tag) (n : Node) : Prop where
  tagged : r.tag ∈ tags
  kind_eq : n.kind = kind
  read : r.part?.map (Node.mapTokens .bald) = some (n.mapTokens .bald)

/-- The tags of the declaration that parts of a node belong to. Base types belong to the one that
    their list stands in, which has the outer tags. -/
def Node.bearer (outer : List Tag) (n : Node) : List Tag :=
  if n.kind == .baseList then outer else n.tags

/-- The second list of parts is the first one with what the records put between them, in the order of
    the records. The parts are those of a base list or of another node; the tags are those of the
    declaration. -/
inductive Element.Grown : Bool → List Tag → List Element → List Record → List Element → Prop where
  | nil {listing : Bool} {tags : List Tag} : Grown listing tags [] [] []
  | token {listing : Bool} {tags : List Tag} {u u' : Token} {es es' : List Element}
      {rs : List Record} (same : u'.bald = u.bald) (rest : Grown listing tags es rs es') :
      Grown listing tags (.token u :: es) rs (.token u' :: es')
  | node {listing : Bool} {tags : List Tag} {c c' : Node} {es es' : List Element}
      {below rs : List Record} (kind_eq : c'.kind = c.kind) (span_eq : c'.span = c.span)
      (tags_eq : c'.tags = c.tags)
      (inner : Grown (c.kind == .baseList) (c.bearer tags) c.children below c'.children)
      (rest : Grown listing tags es rs es') :
      Grown listing tags (.node c :: es) (below ++ rs) (.node c' :: es')
  /-- An attribute list. -/
  | marker {tags : List Tag} {r : Record} {n : Node} {es es' : List Element} {rs : List Record}
      (puts : r.Puts .attributeList tags n) (rest : Grown false tags es rs es') :
      Grown false tags es (r :: rs) (.node n :: es')
  /-- A base type behind a comma. -/
  | base {tags : List Tag} {r : Record} {u : Token} {n : Node} {es es' : List Element}
      {rs : List Record} (comma : u.is "," = true) (puts : r.Puts .baseType tags n)
      (rest : Grown true tags es rs es') :
      Grown true tags es (r :: rs) (.token u :: .node n :: es')
  /-- A base list with its first base type and perhaps more. -/
  | first {tags : List Tag} {r : Record} {u : Token} {n c : Node} {es es' more : List Element}
      {below rs : List Record} (colon : u.is ":" = true) (puts : r.Puts .baseType tags n)
      (more_grown : Grown true tags [] below more) (kind_eq : c.kind = .baseList)
      (tags_eq : c.tags = []) (parts_eq : c.children = .token u :: .node n :: more)
      (rest : Grown false tags es rs es') :
      Grown false tags es (r :: below ++ rs) (.node c :: es')

/-- The second node is the first one with what the records put in it, in the order of the records. -/
structure Node.Grown (outer : List Tag) (n : Node) (rs : List Record) (n' : Node) : Prop where
  kind_eq : n'.kind = n.kind
  span_eq : n'.span = n.span
  tags_eq : n'.tags = n.tags
  parts : Element.Grown (n.kind == .baseList) (n.bearer outer) n.children rs n'.children

/-! ## Parts that were put -/

namespace Node

variable {n n' : Node} {g : Token → Token}

theorem Fresh.of_mapTokens (h : n.Fresh) (hsame : n'.mapTokens g = n.mapTokens g) : n'.Fresh := by
  intro top htop
  obtain ⟨p, m', hat', rfl⟩ := mem_tops.1 htop
  have hcopy : (n.mapTokens g).at? p = some (m'.mapTokens g) := by
    rw [← hsame, at?_mapTokens, hat', Option.map_some]
  rw [at?_mapTokens] at hcopy
  obtain ⟨m, hat, hm⟩ := Option.map_eq_some_iff.1 hcopy
  rw [top, ← tags_of_mapTokens hm]
  exact h m.top (mem_tops.2 ⟨p, m, hat, rfl⟩)

/-- A node with a tag on it is not fresh. -/
theorem not_fresh_of_at? {m : Node} {p : Path} {tag : Tag} (hat : n.at? p = some m)
    (htag : tag ∈ m.tags) : ¬n.Fresh := by
  intro h
  have htags : m.tags = [] := h m.top (mem_tops.2 ⟨p, m, hat, rfl⟩)
  rw [htags] at htag
  cases htag

end Node

namespace Record

variable {r : Record} {kind : Kind} {tags : List Tag} {n n' part : Node}

theorem fresh_of_part? (h : r.part? = some part) : part.Fresh := by
  unfold part? at h
  split at h
  · exact Fragment.fresh_of_readAttributeList (Edit.reading_eq_ok (toOption_eq_some_iff.1 h))
  · exact Fragment.fresh_of_readAttributeList (Edit.reading_eq_ok (toOption_eq_some_iff.1 h))
  · obtain ⟨read, hread, rfl⟩ := Option.map_eq_some_iff.1 h
    exact Node.fresh_ofChildren
      (Element.each_single (Fragment.fresh_of_readType (toOption_eq_some_iff.1 hread)))
  · cases h

theorem Puts.fresh (h : r.Puts kind tags n) : n.Fresh := by
  obtain ⟨part, hpart, hsame⟩ := Option.map_eq_some_iff.1 h.read
  exact (fresh_of_part? hpart).of_mapTokens hsame.symm

theorem Puts.of_mapTokens (h : r.Puts kind tags n) (hsame : n'.mapTokens .bald = n.mapTokens .bald) :
    r.Puts kind tags n' :=
  ⟨h.tagged, (Node.kind_of_mapTokens hsame).trans h.kind_eq, by rw [hsame, h.read]⟩

end Record

namespace Element

variable {listing : Bool} {tags : List Tag} {rs : List Record} {es es' : List Element} {r : Record}
  {u : Token} {n : Node} {g : Token → Token}

theorem Grown.fresh_of_nil (h : Grown true tags [] rs es') : Each Node.Fresh es' := by
  generalize htrue : true = listing at h
  generalize hnil : [] = es at h
  induction h with
  | nil => exact fun c hc => nomatch hc
  | token => cases hnil
  | node => cases hnil
  | marker => cases htrue
  | base comma puts rest ih =>
    intro c hc
    rcases List.mem_cons.1 hc with hc | hc
    · cases hc
    · rcases List.mem_cons.1 hc with hc | hc
      · exact Element.node.inj hc ▸ puts.fresh
      · exact ih htrue hnil c hc
  | first => cases htrue

/-! ## Nothing put, and other trivia -/

theorem exists_token_of_mapTokens {e : Element} (h : e.mapTokens g = (Element.token u).mapTokens g) :
    ∃ v, e = .token v ∧ g v = g u := by
  cases e with
  | token v => exact ⟨v, rfl, Element.token.inj h⟩
  | node m => cases h

theorem exists_node_of_mapTokens {e : Element} (h : e.mapTokens g = (Element.node n).mapTokens g) :
    ∃ m, e = .node m ∧ m.mapTokens g = n.mapTokens g := by
  cases e with
  | token v => cases h
  | node m => exact ⟨m, rfl, Element.node.inj h⟩

end Element

mutual

theorem Node.Grown.refl (outer : List Tag) : (n : Node) → n.Grown outer [] n
  | ⟨_, children, _, _⟩ => ⟨rfl, rfl, rfl, Element.Grown.refl _ _ children⟩

theorem Element.Grown.refl (listing : Bool) (tags : List Tag) : (es : List Element) →
    Element.Grown listing tags es [] es
  | [] => .nil
  | .token _ :: es => .token rfl (Element.Grown.refl listing tags es)
  | .node c :: es =>
    have hc := Node.Grown.refl tags c
    @Element.Grown.node _ _ _ _ _ _ [] _ hc.kind_eq hc.span_eq hc.tags_eq hc.parts
      (Element.Grown.refl listing tags es)

end

/-! ## Growing further -/

namespace Element

variable {listing : Bool} {tags : List Tag} {rs new : List Record} {es es' pre post : List Element}
  {r : Record} {u : Token} {e : Element} {n list : Node} {i : Nat}

theorem Grown.of_mapTokens (h : Grown listing tags es rs es') {es'' : List Element}
    (hsame : es''.map (mapTokens .bald) = es'.map (mapTokens .bald)) :
    Grown listing tags es rs es'' := by
  induction h generalizing es'' with
  | nil =>
    obtain rfl := List.map_eq_nil_iff.1 hsame
    exact .nil
  | token same rest ih =>
    obtain ⟨e, es'', rfl, he, hrest⟩ := List.map_eq_cons_iff.1 hsame
    obtain ⟨v, rfl, hv⟩ := exists_token_of_mapTokens he
    exact .token (hv.trans same) (ih hrest)
  | node kind_eq span_eq tags_eq inner rest ih_inner ih =>
    obtain ⟨e, es'', rfl, he, hrest⟩ := List.map_eq_cons_iff.1 hsame
    obtain ⟨c'', rfl, hc⟩ := exists_node_of_mapTokens he
    exact .node ((Node.kind_of_mapTokens hc).trans kind_eq) ((Node.span_of_mapTokens hc).trans span_eq)
      ((Node.tags_of_mapTokens hc).trans tags_eq) (ih_inner (Node.map_children_of_mapTokens hc))
      (ih hrest)
  | marker puts rest ih =>
    obtain ⟨e, es'', rfl, he, hrest⟩ := List.map_eq_cons_iff.1 hsame
    obtain ⟨n'', rfl, hn⟩ := exists_node_of_mapTokens he
    exact .marker (puts.of_mapTokens hn) (ih hrest)
  | base comma puts rest ih =>
    obtain ⟨e, es'', rfl, he, hrest⟩ := List.map_eq_cons_iff.1 hsame
    obtain ⟨v, rfl, hv⟩ := exists_token_of_mapTokens he
    obtain ⟨e, more, rfl, he, hmore⟩ := List.map_eq_cons_iff.1 hrest
    obtain ⟨n'', rfl, hn⟩ := exists_node_of_mapTokens he
    exact .base ((Token.is_of_bald hv ",").trans comma) (puts.of_mapTokens hn) (ih hmore)
  | first colon puts more_grown kind_eq tags_eq parts_eq rest ih_more ih =>
    obtain ⟨e, es'', rfl, he, hrest⟩ := List.map_eq_cons_iff.1 hsame
    obtain ⟨c'', rfl, hc⟩ := exists_node_of_mapTokens he
    have hparts := Node.map_children_of_mapTokens hc
    rw [parts_eq] at hparts
    obtain ⟨e, parts, hchildren, he, hparts⟩ := List.map_eq_cons_iff.1 hparts
    obtain ⟨v, rfl, hv⟩ := exists_token_of_mapTokens he
    obtain ⟨e, more, rfl, he, hmore⟩ := List.map_eq_cons_iff.1 hparts
    obtain ⟨n'', rfl, hn⟩ := exists_node_of_mapTokens he
    exact .first ((Token.is_of_bald hv ":").trans colon) (puts.of_mapTokens hn) (ih_more hmore)
      ((Node.kind_of_mapTokens hc).trans kind_eq) ((Node.tags_of_mapTokens hc).trans tags_eq) hchildren
      (ih hrest)

/-- One more part anywhere among those of a node that is no base list. -/
theorem Grown.insert (hnew : ∀ {es rs es'}, Grown false tags es rs es' →
      Grown false tags es (new ++ rs) (e :: es'))
    (h : Grown false tags es rs (pre ++ post)) :
    ∃ rs', rs'.Perm (new ++ rs) ∧ Grown false tags es rs' (pre ++ e :: post) := by
  induction pre generalizing es rs with
  | nil => exact ⟨new ++ rs, .refl _, hnew h⟩
  | cons p pre ih =>
    rw [List.cons_append] at h
    cases h with
    | token same rest =>
      obtain ⟨rs', hperm, hgrown⟩ := ih rest
      exact ⟨rs', hperm, .token same hgrown⟩
    | node kind_eq span_eq tags_eq inner rest =>
      obtain ⟨rs', hperm, hgrown⟩ := ih rest
      exact ⟨_, (hperm.append_left _).trans (List.perm_append_comm_assoc ..),
        .node kind_eq span_eq tags_eq inner hgrown⟩
    | marker puts rest =>
      obtain ⟨rs', hperm, hgrown⟩ := ih rest
      exact ⟨_, (hperm.cons _).trans List.perm_middle.symm, .marker puts hgrown⟩
    | first colon puts more_grown kind_eq tags_eq parts_eq rest =>
      obtain ⟨rs', hperm, hgrown⟩ := ih rest
      refine ⟨_, ?_, .first colon puts more_grown kind_eq tags_eq parts_eq hgrown⟩
      exact (hperm.append_left _).trans (List.perm_append_comm_assoc ..)

/-- One more base type at the end of a base list. -/
theorem Grown.concat (hcomma : u.is "," = true) (hputs : r.Puts .baseType tags n)
    (h : Grown true tags es rs es') :
    Grown true tags es (rs ++ [r]) (es' ++ [.token u, .node n]) := by
  generalize htrue : true = listing at h
  induction h with
  | nil => exact htrue ▸ .base hcomma hputs .nil
  | token same rest ih => exact .token same (ih hputs htrue)
  | node kind_eq span_eq tags_eq inner rest ih_inner ih =>
    rw [List.append_assoc]
    exact .node kind_eq span_eq tags_eq inner (ih hputs htrue)
  | marker => cases htrue
  | base comma puts rest ih => exact .base comma puts (ih hputs rfl)
  | first => cases htrue

/-- One more base type in a base list, which may be one that was put there. -/
theorem Grown.extend (hcomma : u.is "," = true) (hputs : r.Puts .baseType tags n)
    (h : Grown false tags es rs es') (hlist : es'[i]? = some (.node list))
    (hkind : list.kind = .baseList) :
    ∃ rs', rs'.Perm (r :: rs) ∧ Grown false tags es rs'
      (es'.set i (.node (list.withChildren (list.children ++ [.token u, .node n])))) := by
  generalize hfalse : false = listing at h
  induction h generalizing i with
  | nil => cases hlist
  | token same rest ih =>
    cases i with
    | zero => cases hlist
    | succ i =>
      obtain ⟨rs', hperm, hgrown⟩ := ih hputs hlist hfalse
      exact ⟨rs', hperm, .token same hgrown⟩
  | @node listing tags c c' es es' below rs kind_eq span_eq tags_eq inner rest ih_inner ih =>
    cases i with
    | zero =>
      obtain rfl := Element.node.inj (Option.some.inj hlist)
      have hold : (c.kind == .baseList) = true := beq_iff_eq.2 (kind_eq.symm.trans hkind)
      have hlonger : Grown (c.kind == .baseList) (c.bearer tags) c.children (below ++ [r])
          (c'.children ++ [.token u, .node n]) := by
        rw [Node.bearer, if_pos hold] at inner ⊢
        rw [hold] at inner ⊢
        exact inner.concat hcomma hputs
      refine ⟨below ++ [r] ++ rs, ?_, .node kind_eq span_eq tags_eq hlonger (hfalse ▸ rest)⟩
      rw [List.append_assoc, List.singleton_append]
      exact List.perm_middle
    | succ i =>
      obtain ⟨rs', hperm, hgrown⟩ := ih hputs hlist hfalse
      exact ⟨_, (hperm.append_left _).trans List.perm_middle,
        .node kind_eq span_eq tags_eq inner hgrown⟩
  | marker puts rest ih =>
    cases i with
    | zero =>
      obtain rfl := Element.node.inj (Option.some.inj hlist)
      cases puts.kind_eq.symm.trans hkind
    | succ i =>
      obtain ⟨rs', hperm, hgrown⟩ := ih hputs hlist rfl
      exact ⟨_, (hperm.cons _).trans (.swap ..), .marker puts hgrown⟩
  | base => cases hfalse
  | @first tags r' u' n' c es es' more below rs colon puts more_grown kind_eq tags_eq parts_eq rest
      ih_more ih =>
    cases i with
    | zero =>
      obtain rfl := Element.node.inj (Option.some.inj hlist)
      have hparts : c.children ++ [.token u, .node n] =
          .token u' :: .node n' :: (more ++ [.token u, .node n]) := by
        rw [parts_eq]
        rfl
      refine ⟨r' :: (below ++ [r]) ++ rs, ?_, .first colon puts (more_grown.concat hcomma hputs)
        kind_eq tags_eq hparts rest⟩
      rw [List.cons_append, List.append_assoc, List.singleton_append, ← List.cons_append]
      exact List.perm_middle
    | succ i =>
      obtain ⟨rs', hperm, hgrown⟩ := ih hputs hlist rfl
      exact ⟨_, (hperm.append_left _).trans List.perm_middle,
        .first colon puts more_grown kind_eq tags_eq parts_eq hgrown⟩

/-- A part with a tag in it was there before, and any growth of it may stand in its place. -/
theorem Grown.exists_node (h : Grown listing tags es rs es') {c' : Node}
    (hc : es'[i]? = some (.node c')) (hfresh : ¬c'.Fresh) :
    ∃ (j : Nat) (c : Node) (before below after : List Record), es[j]? = some (.node c) ∧
      rs = before ++ below ++ after ∧ c.Grown tags below c' ∧ ∀ below' d, c.Grown tags below' d →
        Grown listing tags es (before ++ below' ++ after) (es'.set i (.node d)) := by
  induction h generalizing i with
  | nil => cases hc
  | token same rest ih =>
    cases i with
    | zero => cases hc
    | succ i =>
      obtain ⟨j, c, before, below, after, hat, hrs, hgrown, hset⟩ := ih hc
      exact ⟨j + 1, c, before, below, after, hat, hrs, hgrown,
        fun below' d hd => .token same (hset below' d hd)⟩
  | @node listing tags c d es es' below rs kind_eq span_eq tags_eq inner rest ih_inner ih =>
    cases i with
    | zero =>
      obtain rfl := Element.node.inj (Option.some.inj hc)
      exact ⟨0, c, [], below, rs, rfl, rfl, ⟨kind_eq, span_eq, tags_eq, inner⟩, fun below' d hd =>
        .node hd.kind_eq hd.span_eq hd.tags_eq hd.parts rest⟩
    | succ i =>
      obtain ⟨j, c, before, below', after, hat, rfl, hgrown, hset⟩ := ih hc
      refine ⟨j + 1, c, below ++ before, below', after, hat, by simp only [List.append_assoc], hgrown,
        fun below' d hd => ?_⟩
      rw [List.append_assoc, List.append_assoc, ← List.append_assoc before]
      exact .node kind_eq span_eq tags_eq inner (hset below' d hd)
  | @marker tags r n es es' rs puts rest ih =>
    cases i with
    | zero =>
      obtain rfl := Element.node.inj (Option.some.inj hc)
      exact absurd puts.fresh hfresh
    | succ i =>
      obtain ⟨j, c, before, below, after, hat, rfl, hgrown, hset⟩ := ih hc
      exact ⟨j, c, r :: before, below, after, hat, rfl, hgrown,
        fun below' d hd => .marker puts (hset below' d hd)⟩
  | @base tags r u n es es' rs comma puts rest ih =>
    rcases i with _ | _ | i
    · cases hc
    · obtain rfl := Element.node.inj (Option.some.inj hc)
      exact absurd puts.fresh hfresh
    · obtain ⟨j, c, before, below, after, hat, rfl, hgrown, hset⟩ := ih hc
      exact ⟨j, c, r :: before, below, after, hat, rfl, hgrown,
        fun below' d hd => .base comma puts (hset below' d hd)⟩
  | @first tags r u n d es es' more below rs colon puts more_grown kind_eq tags_eq parts_eq rest
      ih_more ih =>
    cases i with
    | zero =>
      obtain rfl := Element.node.inj (Option.some.inj hc)
      refine absurd (Node.fresh_iff.2 ⟨tags_eq, ?_⟩) hfresh
      rw [parts_eq]
      intro c hc
      rcases List.mem_cons.1 hc with hc | hc
      · cases hc
      · rcases List.mem_cons.1 hc with hc | hc
        · exact Element.node.inj hc ▸ puts.fresh
        · exact more_grown.fresh_of_nil c hc
    | succ i =>
      obtain ⟨j, c, before, below', after, hat, rfl, hgrown, hset⟩ := ih hc
      refine ⟨j, c, r :: below ++ before, below', after, hat, by simp only [List.append_assoc],
        hgrown, fun below' d hd => ?_⟩
      rw [List.append_assoc (r :: below), List.append_assoc (r :: below)]
      exact .first colon puts more_grown kind_eq tags_eq parts_eq (hset below' d hd)

end Element

namespace Node

variable {outer : List Tag} {rs new : List Record} {n n' n'' m' m'' : Node} {p : Path}

theorem Fresh.at? {m : Node} (h : n.Fresh) (hat : n.at? p = some m) : m.Fresh := by
  intro top htop
  obtain ⟨q, u, hu, rfl⟩ := mem_tops.1 htop
  exact h u.top (mem_tops.2 ⟨p ++ q, u, at?_trans hat hu, rfl⟩)

/-- What bears a tag in a tree that has grown has grown from something. -/
theorem Grown.at? (h : n.Grown outer rs n') (hat : n'.at? p = some m') (hfresh : ¬m'.Fresh) :
    ∃ (q : Path) (m : Node) (outer : List Tag) (below : List Record), n.at? q = some m ∧
      m.Grown outer below m' := by
  induction p generalizing n n' outer rs with
  | nil =>
    obtain rfl := Option.some.inj hat
    exact ⟨[], n, outer, rs, rfl, h⟩
  | cons i p ih =>
    obtain ⟨c', hc, hat⟩ := at?_cons_eq_some.1 hat
    obtain ⟨j, c, before, below, after, hj, -, hgrown, -⟩ :=
      h.parts.exists_node hc fun hc' => hfresh (hc'.at? hat)
    obtain ⟨q, m, outer', below', hq, hm⟩ := ih hgrown hat
    exact ⟨j :: q, m, outer', below', at?_cons_eq_some.2 ⟨c, hj, hq⟩, hm⟩

/-- When what bears a tag grows, so does the tree. -/
theorem Grown.put (h : n.Grown outer rs n') (hat : n'.at? p = some m') (hfresh : ¬m'.Fresh)
    (hput : Put m'' p n' n'')
    (hstep : ∀ (outer : List Tag) (m : Node) (below : List Record), m.Grown outer below m' →
      ∃ below' : List Record, below'.Perm (new ++ below) ∧ m.Grown outer below' m'') :
    ∃ rs' : List Record, rs'.Perm (new ++ rs) ∧ n.Grown outer rs' n'' := by
  induction hput generalizing n outer rs with
  | here n' =>
    obtain rfl := Option.some.inj hat
    exact hstep outer n rs h
  | @under n' c' c'' i p child rest ih =>
    obtain ⟨d, hd, hat⟩ := at?_cons_eq_some.1 hat
    obtain rfl : c' = d := by simpa [child] using hd
    obtain ⟨j, c, before, below, after, -, rfl, hgrown, hset⟩ :=
      h.parts.exists_node child fun hc' => hfresh (hc'.at? hat)
    obtain ⟨below', hperm, hgrown'⟩ := ih hgrown hat
    refine ⟨before ++ below' ++ after, ?_, h.kind_eq, h.span_eq, h.tags_eq, hset below' c'' hgrown'⟩
    refine ((hperm.append_left before).append_right after).trans ?_
    simp only [List.append_assoc]
    exact List.perm_append_comm_assoc ..

theorem Grown.of_mapTokens (h : n.Grown outer rs n') (hsame : n''.mapTokens .bald = n'.mapTokens .bald) :
    n.Grown outer rs n'' :=
  ⟨(kind_of_mapTokens hsame).trans h.kind_eq, (span_of_mapTokens hsame).trans h.span_eq,
    (tags_of_mapTokens hsame).trans h.tags_eq, h.parts.of_mapTokens (map_children_of_mapTokens hsame)⟩

section Parts

variable {r : Record} {kind : Kind} (h : n.Grown outer rs n')

include h

/-- The parts of a node that is no base list have grown as those of the bearer of its tags. -/
theorem Grown.parts_of_ne (hkind : n'.kind ≠ .baseList) :
    Element.Grown false n'.tags n.children rs n'.children := by
  have hparts := h.parts
  have hother : (n.kind == .baseList) = false := by simpa [← h.kind_eq] using hkind
  rwa [bearer, hother, ← h.tags_eq] at hparts

theorem Grown.of_parts (hkind : n'.kind ≠ .baseList) {rs' : List Record} {es : List Element}
    (hparts : Element.Grown false n'.tags n.children rs' es) :
    n.Grown outer rs' (n'.withChildren es) := by
  refine ⟨h.kind_eq, h.span_eq, h.tags_eq, ?_⟩
  have hother : (n.kind == .baseList) = false := by simpa [← h.kind_eq] using hkind
  rwa [bearer, hother, ← h.tags_eq]

/-- A node that is no base list gets one more part that records put. -/
theorem Grown.insert {e : Element} {i : Nat} (hkind : n'.kind ≠ .baseList)
    (hnew : ∀ {es rs es'}, Element.Grown false n'.tags es rs es' →
      Element.Grown false n'.tags es (new ++ rs) (e :: es'))
    (hsame : n''.mapTokens .bald = (n'.withChildren
      (n'.children.take i ++ e :: n'.children.drop i)).mapTokens .bald) :
    ∃ rs' : List Record, rs'.Perm (new ++ rs) ∧ n.Grown outer rs' n'' := by
  have hparts := h.parts_of_ne hkind
  rw [← List.take_append_drop i n'.children] at hparts
  obtain ⟨rs', hperm, hgrown⟩ := hparts.insert hnew
  exact ⟨rs', hperm, (h.of_parts hkind hgrown).of_mapTokens hsame⟩

/-- The base list of a node gets one more base type. -/
theorem Grown.extend {u : Token} {base list list' : Node} {i : Nat} (hkind : n'.kind ≠ .baseList)
    (hcomma : u.is "," = true) (hputs : r.Puts .baseType n'.tags base)
    (hlist : n'.children[i]? = some (.node list)) (hbases : list.kind = .baseList)
    (hsame : list'.mapTokens .bald =
      (list.withChildren (list.children ++ [.token u, .node base])).mapTokens .bald) :
    ∃ rs' : List Record, rs'.Perm (r :: rs) ∧
      n.Grown outer rs' (n'.withChildren (n'.children.set i (.node list'))) := by
  obtain ⟨rs', hperm, hgrown⟩ := (h.parts_of_ne hkind).extend hcomma hputs hlist hbases
  refine ⟨rs', hperm, h.of_parts hkind (hgrown.of_mapTokens ?_)⟩
  rw [List.map_set, List.map_set, Element.mapTokens, hsame, ← Element.mapTokens]

end Parts

end Node

/-! ## Texts -/

mutual

theorem Node.tokens_mapTokens {g : Token → Token} : (n : Node) →
    (n.mapTokens g).tokens = n.tokens.map g
  | ⟨_, children, _, _⟩ => Element.tokensIn_mapTokensIn children

theorem Element.tokens_mapTokens {g : Token → Token} : (e : Element) →
    (e.mapTokens g).tokens = e.tokens.map g
  | .token _ => rfl
  | .node n => n.tokens_mapTokens

theorem Element.tokensIn_mapTokensIn {g : Token → Token} : (es : List Element) →
    Element.tokensIn (Element.mapTokensIn g es) = (Element.tokensIn es).map g
  | [] => rfl
  | e :: es => by
    rw [Element.mapTokensIn, Element.tokensIn_cons, Element.tokensIn_cons, List.map_append,
      e.tokens_mapTokens, Element.tokensIn_mapTokensIn es]

end

theorem Node.texts_of_mapTokens {n n' : Node} (h : n'.mapTokens .bald = n.mapTokens .bald) :
    n'.tokens.map Token.text = n.tokens.map Token.text := by
  have htexts : ∀ m : Node, m.tokens.map Token.text = (m.mapTokens .bald).tokens.map Token.text := by
    intro m
    rw [m.tokens_mapTokens, List.map_map]
    rfl
  rw [htexts, h, ← htexts]

namespace Record

/-- What a record writes: its attribute list, or its base type behind a comma or a colon. -/
def Writes (r : Record) (words : List String) : Prop :=
  ∃ part, r.part? = some part ∧
    (part.kind = .attributeList ∧ words = part.tokens.map Token.text ∨
      part.kind = .baseType ∧ ∃ mark ∈ [",", ":"], words = mark :: part.tokens.map Token.text)

variable {r : Record} {tags : List Tag} {n : Node}

theorem Puts.writes_marker (h : r.Puts .attributeList tags n) :
    r.Writes (n.tokens.map Token.text) := by
  obtain ⟨part, hpart, hsame⟩ := Option.map_eq_some_iff.1 h.read
  exact ⟨part, hpart, .inl ⟨(Node.kind_of_mapTokens hsame).trans h.kind_eq,
    (Node.texts_of_mapTokens hsame).symm⟩⟩

theorem Puts.writes_base {mark : String} (h : r.Puts .baseType tags n) (hmark : mark ∈ [",", ":"]) :
    r.Writes (mark :: n.tokens.map Token.text) := by
  obtain ⟨part, hpart, hsame⟩ := Option.map_eq_some_iff.1 h.read
  refine ⟨part, hpart, .inr ⟨(Node.kind_of_mapTokens hsame).trans h.kind_eq, mark, hmark, ?_⟩⟩
  rw [Node.texts_of_mapTokens hsame]

end Record

/-- The texts of tokens in pieces, some of them written by records. Without those they are the old
    texts. -/
structure Patchwork (pieces : List (Option Record × List String)) (old new : List String)
    (rs : List Record) : Prop where
  whole : new = pieces.flatMap Prod.snd
  erased : old = (pieces.filter fun piece => piece.1.isNone).flatMap Prod.snd
  records : pieces.filterMap Prod.fst = rs
  writes : ∀ r words, (some r, words) ∈ pieces → r.Writes words

namespace Patchwork

variable {pieces pieces' : List (Option Record × List String)} {old new old' new' words : List String}
  {rs rs' : List Record} {r : Record}

theorem nil : Patchwork [] [] [] [] :=
  ⟨rfl, rfl, rfl, nofun⟩

theorem append (h : Patchwork pieces old new rs) (h' : Patchwork pieces' old' new' rs') :
    Patchwork (pieces ++ pieces') (old ++ old') (new ++ new') (rs ++ rs') where
  whole := by rw [h.whole, h'.whole, List.flatMap_append]
  erased := by rw [h.erased, h'.erased, List.filter_append, List.flatMap_append]
  records := by rw [List.filterMap_append, h.records, h'.records]
  writes r words hmem := by
    rcases List.mem_append.1 hmem with hmem | hmem
    · exact h.writes r words hmem
    · exact h'.writes r words hmem

theorem keep (words : List String) : Patchwork [(none, words)] words words [] :=
  ⟨by simp, by simp, rfl, by simp⟩

theorem write (h : r.Writes words) : Patchwork [(some r, words)] [] words [r] :=
  ⟨by simp, rfl, rfl, by simpa using h⟩

theorem sublist (h : Patchwork pieces old new rs) : old.Sublist new := by
  rw [h.erased, h.whole]
  exact List.filter_sublist.flatMap _

end Patchwork

theorem Element.Grown.exists_pieces {listing : Bool} {tags : List Tag} {es es' : List Element}
    {rs : List Record} (h : Grown listing tags es rs es') :
    ∃ pieces, Patchwork pieces ((tokensIn es).map Token.text) ((tokensIn es').map Token.text) rs := by
  induction h with
  | nil => exact ⟨[], .nil⟩
  | @token listing tags u u' es es' rs same rest ih =>
    obtain ⟨pieces, hpieces⟩ := ih
    have htext : u'.text = u.text := congrArg (·.text) same
    refine ⟨[(none, [u.text])] ++ pieces, ?_⟩
    simpa [htext] using (Patchwork.keep [u.text]).append hpieces
  | node kind_eq span_eq tags_eq inner rest ih_inner ih =>
    obtain ⟨inside, hinside⟩ := ih_inner
    obtain ⟨pieces, hpieces⟩ := ih
    refine ⟨inside ++ pieces, ?_⟩
    simpa only [tokensIn_cons, tokens_node, Node.tokens_eq, List.map_append] using
      hinside.append hpieces
  | @marker tags r n es es' rs puts rest ih =>
    obtain ⟨pieces, hpieces⟩ := ih
    refine ⟨[(some r, n.tokens.map Token.text)] ++ pieces, ?_⟩
    simpa using (Patchwork.write puts.writes_marker).append hpieces
  | @base tags r u n es es' rs comma puts rest ih =>
    obtain ⟨pieces, hpieces⟩ := ih
    refine ⟨[(some r, u.text :: n.tokens.map Token.text)] ++ pieces, ?_⟩
    have hmark : u.text ∈ [",", ":"] := by simp [Token.text_of_is comma]
    simpa using (Patchwork.write (puts.writes_base hmark)).append hpieces
  | @first tags r u n c es es' more below rs colon puts more_grown kind_eq tags_eq parts_eq rest
      ih_more ih =>
    -- The list is new: its colon and first base come from one record, the rest from others.
    obtain ⟨behind, hbehind⟩ := ih_more
    obtain ⟨pieces, hpieces⟩ := ih
    refine ⟨[(some r, u.text :: n.tokens.map Token.text)] ++ behind ++ pieces, ?_⟩
    have hmark : u.text ∈ [",", ":"] := by simp [Token.text_of_is colon]
    simpa [Node.tokens_eq c, parts_eq] using
      ((Patchwork.write (puts.writes_base hmark)).append hbehind).append hpieces

/-! ## Attribute lists with tokens -/

theorem Record.tokens_ne_nil_of_part? {r : Record} {part : Node} (h : r.part? = some part) :
    part.tokens ≠ [] := by
  unfold part? at h
  split at h
  · exact Fragment.tokens_ne_nil_of_readAttributeList
      (Edit.reading_eq_ok (toOption_eq_some_iff.1 h))
  · exact Fragment.tokens_ne_nil_of_readAttributeList
      (Edit.reading_eq_ok (toOption_eq_some_iff.1 h))
  · obtain ⟨read, hread, rfl⟩ := Option.map_eq_some_iff.1 h
    simpa using Fragment.tokens_ne_nil_of_readType (toOption_eq_some_iff.1 hread)
  · cases h

theorem Node.tokens_ne_nil_of_mapTokens {n n' : Node} {g : Token → Token} (h : n.tokens ≠ [])
    (hsame : n'.mapTokens g = n.mapTokens g) : n'.tokens ≠ [] := by
  intro hnil
  have htokens := congrArg Node.tokens hsame
  rw [n'.tokens_mapTokens, n.tokens_mapTokens, hnil] at htokens
  exact h (List.map_eq_nil_iff.1 htokens.symm)

/-- Growing leaves no attribute list without tokens. -/
theorem Element.Grown.tokens_ne_nil {tags : List Tag} {es es' : List Element} {rs : List Record}
    (h : Grown false tags es rs es')
    (hold : ∀ c, .node c ∈ es → c.kind = .attributeList → c.tokens ≠ []) {c' : Node}
    (hc : .node c' ∈ es') (hkind : c'.kind = .attributeList) : c'.tokens ≠ [] := by
  generalize hfalse : false = listing at h
  induction h with
  | nil => cases hc
  | token same rest ih =>
    rcases List.mem_cons.1 hc with hc | hc
    · cases hc
    · exact ih (fun c hmem => hold c (List.mem_cons_of_mem _ hmem)) hc hfalse
  | @node listing tags c d es es' below rs kind_eq span_eq tags_eq inner rest ih_inner ih =>
    rcases List.mem_cons.1 hc with hc | hc
    · obtain rfl := Element.node.inj hc
      -- Growing only adds tokens, so a part that had some has some.
      obtain ⟨pieces, hpieces⟩ := inner.exists_pieces
      have hne := hold c (List.mem_cons_self ..) (kind_eq.symm.trans hkind)
      intro hnil
      rw [← Node.tokens_eq, ← Node.tokens_eq, hnil] at hpieces
      exact hne (List.map_eq_nil_iff.1 (List.sublist_nil.1 hpieces.sublist))
    · exact ih (fun c hmem => hold c (List.mem_cons_of_mem _ hmem)) hc hfalse
  | marker puts rest ih =>
    rcases List.mem_cons.1 hc with hc | hc
    · obtain rfl := Element.node.inj hc
      obtain ⟨part, hpart, hsame⟩ := Option.map_eq_some_iff.1 puts.read
      exact Node.tokens_ne_nil_of_mapTokens (Record.tokens_ne_nil_of_part? hpart) hsame.symm
    · exact ih hold hc rfl
  | base => cases hfalse
  | first colon puts more_grown kind_eq tags_eq parts_eq rest ih_more ih =>
    rcases List.mem_cons.1 hc with hc | hc
    · obtain rfl := Element.node.inj hc
      cases kind_eq.symm.trans hkind
    · exact ih hold hc rfl

end Recast
