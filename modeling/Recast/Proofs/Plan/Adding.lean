-- SUMMARY: Plans that add markers and base types: the tree grows by what the records put, one part for each that is applied, and keeps its comments and directives.
import Recast.Proofs.Edit.Growing
import Recast.Proofs.Plan.Accounting
import Recast.Proofs.Plan.Weeding

/-! # Adding

A new marker takes over the trivia in front of its declaration, a new base type the trivia behind what it
follows, and what trivia they leave is made of blanks and line ends. So the comments and directives
of a tree (`Node.asides`) stay as they are when a declaration gets a part that has none. -/

namespace Recast

/-! ## Comments and directives -/

/-- The comments and directives of a run of trivia. -/
def Trivia.remarksOf (run : List Trivia) : List Trivia :=
  run.filter isRemark

/-- The comments and directives around the token. -/
def Token.asides (u : Token) : List Trivia :=
  Trivia.remarksOf u.leading ++ Trivia.remarksOf u.trailing

/-- The comments and directives around some tokens, in their order. -/
def Token.asidesOf (ts : List Token) : List Trivia :=
  ts.flatMap asides

/-- The comments and directives in a node, in their order. -/
def Node.asides (n : Node) : List Trivia :=
  Token.asidesOf n.tokens

theorem Trivia.remarksOf_indentation (run : List Trivia) : remarksOf (indentation run) = [] := by
  simp only [remarksOf, indentation, List.filter_filter, List.filter_eq_nil_iff]
  rintro (text | text | text | text) - h <;> cases h

namespace Token

variable {ts us : List Token}

@[simp] theorem asidesOf_nil : asidesOf [] = [] := rfl

@[simp] theorem asidesOf_cons (u : Token) (ts : List Token) :
    asidesOf (u :: ts) = u.asides ++ asidesOf ts := rfl

@[simp] theorem asidesOf_append (ts us : List Token) :
    asidesOf (ts ++ us) = asidesOf ts ++ asidesOf us :=
  List.flatMap_append

/-- Other trivia in front of a run of tokens. -/
theorem exists_asidesOf_head (ts : List Token) :
    ∃ rest, asidesOf ts = Trivia.remarksOf ((ts.head?.map leading).getD []) ++ rest ∧
      ∀ trivia, ts ≠ [] ∨ Trivia.remarksOf trivia = [] →
        asidesOf (ts.modifyHead fun u => { u with leading := trivia }) =
          Trivia.remarksOf trivia ++ rest := by
  cases ts with
  | nil => exact ⟨[], rfl, fun trivia h => by simp [h.resolve_left (absurd rfl)]⟩
  | cons u ts =>
    refine ⟨Trivia.remarksOf u.trailing ++ asidesOf ts, ?_, fun trivia _ => ?_⟩ <;>
      simp [asides]

/-- Other trivia behind a run of tokens. -/
theorem exists_asidesOf_last (ts : List Token) :
    ∃ rest, asidesOf ts = rest ++ Trivia.remarksOf ((ts.getLast?.map trailing).getD []) ∧
      ∀ trivia, ts ≠ [] ∨ Trivia.remarksOf trivia = [] →
        asidesOf (ts.modifyLast fun u => { u with trailing := trivia }) =
          rest ++ Trivia.remarksOf trivia := by
  rcases List.eq_nil_or_concat' ts with rfl | ⟨us, u, rfl⟩
  · refine ⟨[], rfl, fun trivia h => ?_⟩
    rw [h.resolve_left (absurd rfl)]
    rfl
  · refine ⟨asidesOf us ++ Trivia.remarksOf u.leading, ?_, fun trivia _ => ?_⟩
    · simp [asides]
    · rw [List.modifyLast_concat]
      simp [asides]

/-- A run without comments and directives in other trivia. -/
theorem asidesOf_framed (hne : ts ≠ []) (hquiet : asidesOf ts = []) (lead trail : List Trivia) :
    asidesOf ((ts.modifyHead fun u => { u with leading := lead }).modifyLast
      fun u => { u with trailing := trail }) = Trivia.remarksOf lead ++ Trivia.remarksOf trail := by
  obtain ⟨u, us, rfl⟩ := List.exists_cons_of_ne_nil hne
  rcases List.eq_nil_or_concat' us with rfl | ⟨us, v, rfl⟩
  · rw [List.modifyHead_cons, ← List.nil_append [_], List.modifyLast_concat]
    simp [asides]
  · rw [List.modifyHead_cons, ← List.cons_append, List.modifyLast_concat]
    simp only [asidesOf_cons, asidesOf_append, asides, asidesOf_nil, List.append_nil,
      List.append_eq_nil_iff] at hquiet
    obtain ⟨⟨-, hu⟩, hus, hv, -⟩ := hquiet
    simp [asides, hu, hus, hv]

end Token

namespace Node

variable {n : Node}

theorem asides_eq (n : Node) : n.asides = Token.asidesOf (Element.tokensIn n.children) := by
  rw [asides, tokens_eq]

theorem asides_withChildren (n : Node) (es : List Element) :
    (n.withChildren es).asides = Token.asidesOf (Element.tokensIn es) :=
  asides_eq _

theorem exists_asides_leading (n : Node) :
    ∃ rest, n.asides = Trivia.remarksOf n.leading ++ rest ∧
      ∀ trivia, n.tokens ≠ [] ∨ Trivia.remarksOf trivia = [] →
        (n.withLeading trivia).asides = Trivia.remarksOf trivia ++ rest := by
  obtain ⟨rest, hold, hnew⟩ := Token.exists_asidesOf_head n.tokens
  refine ⟨rest, hold, fun trivia h => ?_⟩
  rw [asides, withLeading, tokens_mapFirst]
  exact hnew trivia h

theorem exists_asides_trailing (n : Node) :
    ∃ rest, n.asides = rest ++ Trivia.remarksOf n.trailing ∧
      ∀ trivia, n.tokens ≠ [] ∨ Trivia.remarksOf trivia = [] →
        (n.withTrailing trivia).asides = rest ++ Trivia.remarksOf trivia := by
  obtain ⟨rest, hold, hnew⟩ := Token.exists_asidesOf_last n.tokens
  refine ⟨rest, hold, fun trivia h => ?_⟩
  rw [asides, withTrailing, tokens_mapLast]
  exact hnew trivia h

theorem asides_framed (hne : n.tokens ≠ []) (hquiet : n.asides = []) (lead trail : List Trivia) :
    ((n.withLeading lead).withTrailing trail).asides =
      Trivia.remarksOf lead ++ Trivia.remarksOf trail := by
  rw [asides, withTrailing, tokens_mapLast, withLeading, tokens_mapFirst]
  exact Token.asidesOf_framed hne hquiet lead trail

/-- A quiet node has no remark behind it but those that it is given. -/
theorem asides_closed (hne : n.tokens ≠ []) (hquiet : n.asides = []) (trail : List Trivia) :
    (n.withTrailing trail).asides = Trivia.remarksOf trail := by
  obtain ⟨rest, hold, hnew⟩ := n.exists_asides_trailing
  rw [hquiet] at hold
  rw [hnew trail (.inl hne), (List.append_eq_nil_iff.1 hold.symm).1, List.nil_append]

end Node

namespace Node

variable {g : Token → Token} {n n' : Node} {es es' : List Element}

theorem mapTokens_congr (hn : n'.mapTokens g = n.mapTokens g)
    (hes : es'.map (Element.mapTokens g) = es.map (Element.mapTokens g)) :
    (n'.withChildren es').mapTokens g = (n.withChildren es).mapTokens g := by
  rw [mapTokens_eq, mapTokens_eq (n.withChildren es)]
  simp only [withChildren, hes, kind_of_mapTokens hn, span_of_mapTokens hn, tags_of_mapTokens hn]

end Node

/-! ## Edits -/

namespace Edit

variable {list base method declaration declaration' : Node}

section Trees

variable {g : Token → Token}

/-- But for trivia, a new marker stands in front of the parts of a method. -/
theorem mapTokens_onNewLine (hg : Token.Forgets g) (list declaration : Node)
    (lead indent : List Trivia) : (putMarker.onNewLine list declaration lead indent).mapTokens g =
      (declaration.withChildren (.node list :: declaration.children)).mapTokens g := by
  have hbelow := Node.mapTokens_withLeading hg declaration indent
  refine Node.mapTokens_congr hbelow ?_
  rw [List.map_cons, List.map_cons, Element.mapTokens, Element.mapTokens,
    Node.mapTokens_withTrailing hg, Node.mapTokens_withLeading hg,
    Node.map_children_of_mapTokens hbelow]

/-- But for trivia, a new marker stands in front of the parts of a method. -/
theorem mapTokens_putMarker (hg : Token.Forgets g) (list method : Node) :
    (putMarker list method).mapTokens g =
      (method.withChildren (.node list :: method.children)).mapTokens g := by
  obtain heq | ⟨first, rest, hchildren, -, heq⟩ := putMarker_cases list method
  · rw [heq, mapTokens_onNewLine hg]
  · rw [heq]
    refine Node.mapTokens_congr rfl ?_
    simp only [hchildren, List.map_cons, Element.mapTokens, Node.mapTokens_withTrailing hg,
      Node.mapTokens_withLeading hg]

/-- But for trivia, a new marker stands between two parts of a type. -/
theorem mapTokens_putClassMarker (hg : Token.Forgets g) (list declaration : Node) :
    ∃ i, (putClassMarker list declaration).mapTokens g = (declaration.withChildren
      (declaration.children.take i ++ .node list :: declaration.children.drop i)).mapTokens g := by
  obtain heq | ⟨index, heq⟩ := putClassMarker_cases list declaration
  · exact ⟨0, heq ▸ mapTokens_onNewLine hg list declaration _ _⟩
  · refine ⟨index, ?_⟩
    rw [heq]
    refine Node.mapTokens_congr rfl ?_
    simp only [List.map_append, List.map_cons, Element.mapTokens, Node.mapTokens_withTrailing hg,
      Node.mapTokens_withLeading hg]

/-- But for trivia, a new base type stands behind a comma at the end of a base list. -/
theorem mapTokens_extendBaseList (hg : Token.Forgets g) (base list : Node) :
    (extendBaseList base list).mapTokens g = (list.withChildren
      (list.children ++ [.token (Token.ofMark ","), .node base])).mapTokens g := by
  have hclosed := Node.mapTokens_withTrailing hg list []
  refine Node.mapTokens_congr hclosed ?_
  have hcomma : g (Token.ofMark "," [Trivia.space]) = g (Token.ofMark ",") :=
    hg (Token.ofMark ",") [] [Trivia.space]
  simp only [List.map_append, List.map_cons, Element.mapTokens, Node.mapTokens_withTrailing hg,
    Node.map_children_of_mapTokens hclosed, hcomma]

/-- But for trivia, a new base list stands between two parts of a type. -/
theorem mapTokens_insertBaseList (hg : Token.Forgets g)
    (h : insertBaseList base declaration = .ok declaration') :
    ∃ i, declaration'.mapTokens g = (declaration.withChildren (declaration.children.take i ++
      .node (.ofChildren .baseList [.token (Token.ofMark ":"), .node base]) ::
        declaration.children.drop i)).mapTokens g := by
  obtain ⟨index, anchor, hanchor, -, rfl⟩ := insertBaseList_eq_ok h
  refine ⟨index + 1, Node.mapTokens_congr rfl ?_⟩
  have hcolon : g (Token.ofMark ":" [Trivia.space]) = g (Token.ofMark ":") :=
    hg (Token.ofMark ":") [] [Trivia.space]
  have hlist : (Node.ofChildren .baseList [.token (Token.ofMark ":" [Trivia.space]),
      .node base]).mapTokens g =
        (Node.ofChildren .baseList [.token (Token.ofMark ":"), .node base]).mapTokens g := by
    simp only [Node.ofChildren, Node.mapTokens, Element.mapTokensIn, Element.mapTokens, hcolon]
    rfl
  have hclosed : (anchor.mapLast fun u => { u with trailing := [Trivia.space] }).mapTokens g =
      anchor.mapTokens g :=
    Element.mapTokens_mapLast (fun u => hg u _ _) anchor
  rw [List.take_add_one, hanchor]
  simp only [List.map_append, List.map_cons, Option.toList_some, hclosed, List.append_assoc,
    List.singleton_append, Element.mapTokens, Node.mapTokens_withTrailing hg, hlist]

end Trees

section Asides

/-- A marker on a line of its own takes over what is in front of a declaration. -/
theorem asides_onNewLine (hne : list.tokens ≠ []) (hquiet : list.asides = []) (method : Node) :
    (putMarker.onNewLine list method method.leading (Trivia.indentation method.leading)).asides =
      method.asides := by
  obtain ⟨rest, hold, hnew⟩ := method.exists_asides_leading
  have hindent := Trivia.remarksOf_indentation method.leading
  rw [putMarker.onNewLine, Node.asides_withChildren, Element.tokensIn_cons, Token.asidesOf_append,
    ← Node.asides_eq, hnew _ (.inr hindent), hindent, List.nil_append, hold]
  refine congrArg (· ++ rest) ((Node.asides_framed hne hquiet _ _).trans ?_)
  exact List.append_nil _

theorem asides_putMarker (hne : list.tokens ≠ []) (hquiet : list.asides = [])
    (hlists : ∀ c, .node c ∈ method.children → c.kind = .attributeList → c.tokens ≠ []) :
    (putMarker list method).asides = method.asides := by
  obtain heq | ⟨first, more, hchildren, hkind, heq⟩ := putMarker_cases list method
  · rw [heq, asides_onNewLine hne hquiet]
  · have hfirst := hlists first (hchildren ▸ List.mem_cons_self ..) hkind
    have hlead : method.leading = first.leading := by
      rw [Node.leading, Node.leading, Node.firstToken?, Node.firstToken?, Node.tokens_eq, hchildren,
        Element.tokensIn_cons, Element.tokens_node, List.head?_append_of_ne_nil _ hfirst]
    obtain ⟨rest, hold, hnew⟩ := first.exists_asides_leading
    have hindent : Trivia.remarksOf (Trivia.newline :: Trivia.indentation method.leading) = [] :=
      Trivia.remarksOf_indentation method.leading
    have hframed := Node.asides_framed hne hquiet method.leading []
    have hbelow := hnew (Trivia.newline :: Trivia.indentation method.leading) (.inl hfirst)
    rw [hindent, List.nil_append] at hbelow
    rw [heq, Node.asides_withChildren, Node.asides_eq method, hchildren]
    simp only [Element.tokensIn_cons, Element.tokens_node, Token.asidesOf_append]
    change Node.asides _ ++ (Node.asides _ ++ _) = first.asides ++ _
    rw [hframed, hbelow, hold, hlead, List.append_assoc, List.append_assoc]
    rfl

theorem asides_putClassMarker (hne : list.tokens ≠ []) (hquiet : list.asides = [])
    (declaration : Node) : (putClassMarker list declaration).asides = declaration.asides := by
  obtain heq | ⟨index, heq⟩ := putClassMarker_cases list declaration
  · rw [heq, asides_onNewLine hne hquiet]
  · have hframed := Node.asides_framed hne hquiet (Trivia.indentation declaration.leading)
      [Trivia.newline]
    rw [Trivia.remarksOf_indentation] at hframed
    rw [heq, Node.asides_withChildren, Element.tokensIn_append, Element.tokensIn_cons,
      Token.asidesOf_append, Token.asidesOf_append, Element.tokens_node]
    change _ ++ (Node.asides _ ++ _) = _
    rw [hframed, Node.asides_eq]
    change _ ++ Token.asidesOf _ = _
    rw [← Token.asidesOf_append, ← Element.tokensIn_append, List.take_append_drop]

theorem asides_extendBaseList (hne : base.tokens ≠ []) (hquiet : base.asides = []) (list : Node) :
    (extendBaseList base list).asides = list.asides := by
  obtain ⟨rest, hold, hnew⟩ := list.exists_asides_trailing
  have hclosed : (list.withTrailing []).asides = rest :=
    (hnew [] (.inr rfl)).trans (List.append_nil rest)
  have hbase := Node.asides_closed hne hquiet list.trailing
  simp only [extendBaseList]
  rw [Node.asides_withChildren, Element.tokensIn_append, Token.asidesOf_append, ← Node.asides_eq,
    hclosed, hold, Element.tokensIn_cons, Element.tokensIn_cons, Element.tokensIn_nil, List.append_nil]
  exact congrArg (rest ++ ·) hbase

theorem asides_insertBaseList (hquiet : base.asides = [])
    (h : insertBaseList base declaration = .ok declaration') :
    declaration'.asides = declaration.asides := by
  obtain ⟨index, anchor, hanchor, htokens, rfl⟩ := insertBaseList_eq_ok h
  obtain ⟨rest, hold, hnew⟩ := Token.exists_asidesOf_last anchor.tokens
  have hanchored : anchor.tokens ≠ [] := by simpa [Element.hasTokens] using htokens
  have hclosed : Token.asidesOf (anchor.tokens.modifyLast fun u =>
      { u with trailing := [Trivia.space] }) = rest :=
    (hnew [Trivia.space] (.inl hanchored)).trans (List.append_nil rest)
  have hlist : ((Node.ofChildren .baseList [.token (Token.ofMark ":" [Trivia.space]),
      .node base]).withTrailing anchor.trailing).asides = Trivia.remarksOf anchor.trailing := by
    refine Node.asides_closed (by simp) ?_ _
    rw [Node.asides, Node.tokens_ofChildren, Element.tokensIn_cons, Element.tokensIn_cons,
      Element.tokensIn_nil, List.append_nil]
    exact hquiet
  rw [Node.asides_withChildren, Node.asides_eq declaration]
  conv_rhs => rw [Node.children_split hanchor]
  simp only [Element.tokensIn_append, Element.tokensIn_cons, Element.tokens_mapLast,
    Token.asidesOf_append, hclosed, hold]
  change _ ++ (_ ++ (Node.asides _ ++ _)) = _
  rw [hlist, ← List.append_assoc rest]
  rfl

end Asides

end Edit

/-! ## Records -/

namespace Record

/-- True for a record that adds a marker alone or a base type. -/
def isAddition (r : Record) : Bool :=
  match r.change with
  | .methodMarker _ none | .classMarker _ | .baseTypeAddition _ => true
  | _ => false

/-- True for a base type that the base list of its declaration has already, as a text. -/
def isThere (r : Record) (t : Tree) : Bool :=
  match r.change with
  | .baseTypeAddition type => (t.findTagged? r.tag).any fun s => (s.child? .baseList).any fun list =>
    (list.node.childrenOf .baseType).any (·.text == type)
  | _ => false

/-- True when a record puts something into a tree at its turn. -/
def inserts (settings : Settings) (t : Tree) (r : Record) : Bool :=
  r.outcome settings t == .applied && !r.isThere t

/-- A record that adds a marker alone or a base type, with no comment and no directive in it. -/
structure Adds (r : Record) : Prop where
  isAddition : r.isAddition = true
  quiet : ∀ part, r.part? = some part → part.asides = []

end Record

theorem Node.asides_of_put {r m n n' : Node} {p : Path} (h : Put r p n n') (hat : n.at? p = some m)
    (hr : r.asides = m.asides) : n'.asides = n.asides := by
  induction h with
  | here n =>
    obtain rfl := Option.some.inj hat
    exact hr
  | @under n c c' i p child rest ih =>
    obtain ⟨d, hd, hat⟩ := at?_cons_eq_some.1 hat
    obtain rfl : c = d := by simpa [child] using hd
    rw [asides, tokens_set_child child, asides_eq n]
    conv_rhs => rw [children_split child]
    simp only [Element.tokensIn_append, Element.tokensIn_cons, Element.tokens_node,
      Token.asidesOf_append, List.append_assoc]
    rw [show Token.asidesOf c'.tokens = Token.asidesOf c.tokens from ih hat]

theorem Kind.ne_baseList_of_isTypeDeclaration {k : Kind} (h : k.isTypeDeclaration = true) :
    k ≠ .baseList := by
  rintro rfl
  cases h

namespace Tree

variable {settings : Settings} {t t' : Tree} {s : Site} {r : Record} {n : Node} {rs : List Record}

/-- The tree keeps its comments and directives, and has grown from a node by some more records. -/
structure Grows (t t' : Tree) (n : Node) (rs : List Record) : Prop where
  asides_eq : t'.root.asides = t.root.asides
  grown : ∃ rs' : List Record, rs'.Perm rs ∧ n.Grown [] rs' t'.root

section Site

variable (hs : s ∈ t.sites) (htag : r.tag ∈ s.node.tags) (h : n.Grown [] rs t.root)

include hs htag h

theorem grows_put (new : List Record) {m : Node} (hput : Node.Put m s.path t.root t'.root)
    (hasides : m.asides = s.node.asides)
    (hstep : ∀ (outer : List Tag) (u : Node) (below : List Record), u.Grown outer below s.node →
      ∃ below' : List Record, below'.Perm (new ++ below) ∧ u.Grown outer below' m) :
    t.Grows t' n (new ++ rs) := by
  obtain ⟨-, hat⟩ := mem_sites_iff.1 hs
  have hfresh : ¬s.node.Fresh := Node.not_fresh_of_at? (p := []) rfl htag
  exact ⟨Node.asides_of_put hput hat hasides, h.put hat hfresh hput hstep⟩

theorem grows_addMethodMarker {marker : String} (hr : r.change = .methodMarker marker none)
    (hadds : r.Adds) (hlists : ∀ p m, n.at? p = some m → m.kind = .attributeList → m.tokens ≠ [])
    (happly : Edit.addMethodMarker marker none s = .ok t') : t.Grows t' n (r :: rs) := by
  obtain ⟨hmethod, list, hlist, ⟨-, hput⟩ | ⟨text, -, -, -, hnone, -⟩⟩ :=
    Edit.addMethodMarker_eq_ok hs happly
  · have hpart : r.part? = some list := by
      rw [Record.part?, hr]
      exact toOption_eq_some_iff.2 hlist
    have hother : s.node.kind ≠ .baseList := by rw [hmethod]; decide
    have hputs : r.Puts .attributeList s.node.tags list :=
      ⟨htag, (Fragment.is_of_readAttributeList (Edit.markerList_eq_ok hlist)).2, by rw [hpart]; rfl⟩
    obtain ⟨q, old, outer, below, hq, hold⟩ :=
      h.at? (mem_sites_iff.1 hs).2 (Node.not_fresh_of_at? (p := []) rfl htag)
    refine grows_put hs htag h [r] hput (Edit.asides_putMarker
      (Record.tokens_ne_nil_of_part? hpart) (hadds.quiet list hpart) fun c hc hlisted => ?_)
      fun outer u below hu => ?_
    · refine (hold.parts_of_ne hother).tokens_ne_nil (fun d hd hdkind => ?_) hc hlisted
      obtain ⟨i, hi⟩ := List.mem_iff_getElem?.1 hd
      exact hlists (q ++ [i]) d (Node.at?_child hq hi) hdkind
    · exact hu.insert (i := 0) hother (fun rest => .marker hputs rest)
        (Edit.mapTokens_putMarker Token.forgets_bald list s.node)
  · cases hnone

theorem grows_addClassMarker {marker : String} (hr : r.change = .classMarker marker)
    (hadds : r.Adds) (happly : Edit.addClassMarker marker s = .ok t') : t.Grows t' n (r :: rs) := by
  obtain ⟨htype, list, hlist, hput⟩ := Edit.addClassMarker_eq_ok hs happly
  have hpart : r.part? = some list := by rw [Record.part?, hr]; exact toOption_eq_some_iff.2 hlist
  have hputs : r.Puts .attributeList s.node.tags list :=
    ⟨htag, (Fragment.is_of_readAttributeList (Edit.markerList_eq_ok hlist)).2, by rw [hpart]; rfl⟩
  obtain ⟨i, hsame⟩ := Edit.mapTokens_putClassMarker Token.forgets_bald list s.node
  exact grows_put hs htag h [r] hput (Edit.asides_putClassMarker
    (Record.tokens_ne_nil_of_part? hpart) (hadds.quiet list hpart) s.node)
    fun outer u below hu => hu.insert (Kind.ne_baseList_of_isTypeDeclaration htype)
      (fun rest => .marker hputs rest) hsame

theorem grows_addBaseType {type : String} (hr : r.change = .baseTypeAddition type) (hadds : r.Adds)
    (happly : Edit.addBaseType type s = .ok t') :
    Edit.hasBaseType type s = true ∧ t' = t ∨
      Edit.hasBaseType type s = false ∧ t.Grows t' n (r :: rs) := by
  obtain ⟨htype, read, hread, hthere | ⟨hnone, hadded⟩⟩ := Edit.addBaseType_eq_ok hs happly
  · exact .inl hthere
  refine .inr ⟨hnone, ?_⟩
  have hother := Kind.ne_baseList_of_isTypeDeclaration htype
  have hpart : r.part? = some (.ofChildren .baseType [.node read]) := by
    simp only [Record.part?, hr, toOption_eq_some_iff.2 hread, Option.map_some]
  have hne := Record.tokens_ne_nil_of_part? hpart
  have hquiet := hadds.quiet _ hpart
  have hputs : r.Puts .baseType s.node.tags (.ofChildren .baseType [.node read]) :=
    ⟨htag, rfl, by rw [hpart]; rfl⟩
  obtain ⟨i, list, hc, hbases, hput⟩ | ⟨declaration, hinsert, hput⟩ := hadded
  · have hextended : (Edit.extendBaseList (.ofChildren .baseType [.node read]) list).asides =
        list.asides := Edit.asides_extendBaseList hne hquiet list
    refine grows_put hs htag h [r] hput (Node.asides_of_put (.under hc (.here list))
      (Node.at?_cons_eq_some.2 ⟨_, hc, rfl⟩) hextended) fun outer u below hu => ?_
    exact hu.extend hother rfl hputs hc hbases
      (Edit.mapTokens_extendBaseList Token.forgets_bald _ list)
  · obtain ⟨i, hsame⟩ := Edit.mapTokens_insertBaseList Token.forgets_bald hinsert
    refine grows_put hs htag h [r] hput (Edit.asides_insertBaseList hquiet hinsert)
      fun outer u below hu => hu.insert hother (fun rest => ?_) hsame
    exact .first rfl hputs .nil rfl rfl rfl rest

end Site

/-! ## Runs -/

/-- At its turn a record puts its part into the tree, or leaves the tree as it is. -/
theorem grows_after (settings : Settings) (h : n.Grown [] rs t.root) (hadds : r.Adds)
    (hlists : ∀ p m, n.at? p = some m → m.kind = .attributeList → m.tokens ≠ []) :
    t.Grows (t.after settings [r]) n ((if r.inserts settings t then [r] else []) ++ rs) := by
  have hstill : t.Grows t n rs := ⟨rfl, rs, .refl _, h⟩
  by_cases happlied : r.outcome settings t = .applied
  · obtain ⟨s, hfound, happly⟩ := apply_of_outcome happlied
    obtain ⟨hs, htag⟩ := findTagged?_mem hfound
    have hinserts : r.inserts settings t = !r.isThere t := by
      rw [Record.inserts, happlied]
      rfl
    rw [hinserts]
    have haddition := hadds.isAddition
    unfold Record.isAddition at haddition
    split at haddition
    · rename_i marker hr
      have hthere : r.isThere t = false := by simp only [Record.isThere, hr]
      rw [hr] at happly
      rw [hthere]
      exact grows_addMethodMarker hs htag h hr hadds hlists happly
    · rename_i marker hr
      have hthere : r.isThere t = false := by simp only [Record.isThere, hr]
      rw [hr] at happly
      rw [hthere]
      exact grows_addClassMarker hs htag h hr hadds happly
    · rename_i type hr
      rw [hr] at happly
      simp only [Record.isThere, hr, hfound, Option.any_some]
      rw [← Edit.hasBaseType]
      -- A base type that is there already is applied and puts nothing into the tree.
      rcases grows_addBaseType hs htag h hr hadds happly with ⟨hthere, hsame⟩ | ⟨hthere, hgrows⟩
      · rw [hthere, hsame]
        exact hstill
      · rw [hthere]
        exact hgrows
    · cases haddition
  · have hinserts : r.inserts settings t = false := by simp [Record.inserts, happlied]
    rw [after_of_outcome happlied, hinserts]
    exact hstill

end Tree

namespace Plan

/-- The records that put something into the tree at their turns. -/
def inserting (plan : Plan) (settings : Settings) (t : Tree) : List Record :=
  (plan.records.zipIdx.filter fun turn =>
    turn.1.inserts settings (t.after settings (plan.before turn.2))).map Prod.fst

variable {plan : Plan} {settings : Settings} {t : Tree}

theorem grows_ordered (hadds : ∀ r ∈ plan.records, r.Adds)
    (hlists : ∀ p m, t.root.at? p = some m → m.kind = .attributeList → m.tokens ≠ []) :
    t.Grows (t.after settings plan.ordered) t.root (plan.inserting settings t) := by
  have hturns := @turns_induction plan (fun earlier =>
    t.Grows (t.after settings (earlier.map Prod.fst)) t.root ((earlier.filter fun turn =>
      turn.1.inserts settings (t.after settings (plan.before turn.2))).map Prod.fst))
    ⟨rfl, [], .refl _, .refl [] t.root⟩ ?_
  · rw [map_fst_turns] at hturns
    obtain ⟨hasides, rs, hperm, hgrown⟩ := hturns
    exact ⟨hasides, rs, hperm.trans ((plan.perm_turns.filter _).map _), hgrown⟩
  · intro earlier r i hi hbefore ih
    obtain ⟨hasides, rs, hperm, hgrown⟩ := ih
    obtain ⟨hasides', rs', hperm', hgrown'⟩ :=
      Tree.grows_after settings hgrown (hadds r (List.mem_of_getElem? hi)) hlists
    rw [List.map_append, List.map_cons, List.map_nil, Tree.after_concat_eq]
    refine ⟨hasides'.trans hasides, rs', hperm'.trans ?_, hgrown'⟩
    rw [List.filter_append, List.map_append, List.filter_cons, hbefore, List.filter_nil]
    refine (List.perm_append_comm.trans (hperm.append_right _)).trans ?_
    split <;> exact .refl _

end Plan

/-! ### What was read -/

/-- In what was read no attribute list is without tokens: it holds an attribute, so it is more than a
    wrapper of one. -/
theorem Node.Built.tokens_ne_nil_of_attributeList {n : Node} (hbuilt : n.Built)
    (harranged : n.Arranged) (hkind : n.kind = .attributeList) : n.tokens ≠ [] := by
  obtain ⟨c, hc, hitem⟩ := harranged.exists_item (by rw [hkind]; rfl)
  rw [hkind] at hitem
  obtain hattribute : Kind.attribute = c.kind := Option.some.inj hitem
  rw [tokens_eq]
  rcases hbuilt.fits.below with hbelow | hweight
  · have hlevel := hbelow c hc
    rw [hkind, ← hattribute] at hlevel
    cases hlevel
  · exact Element.tokensIn_ne_nil_of_weight (Nat.le_of_succ_le hweight)

namespace Banner

theorem remarksOf_trivia (lines : List String) :
    Trivia.remarksOf (trivia lines) = lines.map Trivia.comment := by
  induction lines with
  | nil => rfl
  | cons line lines ih => exact congrArg (Trivia.comment line :: ·) ih

variable {t : Tree} {lines : List String} {n : Node} {rs : List Record}

/-- The banner stands in front of all comments and directives. -/
theorem asides_putOnTop (hne : t.root.tokens ≠ []) :
    (putOnTop lines t).root.asides = lines.map Trivia.comment ++ t.root.asides := by
  obtain ⟨u, us, htokens⟩ := List.exists_cons_of_ne_nil hne
  have hremarks : Trivia.remarksOf (trivia lines ++ u.leading) =
      lines.map Trivia.comment ++ Trivia.remarksOf u.leading := by
    rw [← remarksOf_trivia]
    exact List.filter_append _ _
  simp only [Node.asides, tokens_putOnTop lines htokens, htokens, Token.asidesOf_cons, Token.asides,
    hremarks, List.append_assoc]

theorem grown_putOnTop (h : n.Grown [] rs t.root) : n.Grown [] rs (putOnTop lines t).root :=
  h.of_mapTokens (Node.mapTokens_mapFirst
    (fun u => Token.forgets_bald u (trivia lines ++ u.leading) u.trailing) t.root)

end Banner

namespace Plan

/-- A plan that adds markers and base types to a tree that was read. The tree that comes out is the one
    that went in with the parts of the records that put one there (`Plan.inserting`): those that are
    applied, but for base types that are there already. Each puts one attribute list or base
    type among the parts of the declaration that bears its tag, or of its base list, which may be new
    (`Node.Grown`). Without those, and without the commas and colons in front of base types, the
    texts of the tokens are the old ones in their order (`Patchwork`). The comments and directives
    are the old ones too, after the lines of the banner if there is one. -/
theorem apply_grows {source : String} {reading : Nat} {parsed t : Tree} {plan : Plan}
    (hparse : Tree.parse source reading = .ok parsed) (halike : t.root.Alike parsed.root)
    (hadds : ∀ r ∈ plan.records, r.Adds) (himports : plan.imports = {}) (settings : Settings) :
    let run := plan.apply settings t
    ∃ rs pieces banner, rs.Perm (plan.inserting settings t) ∧ t.root.Grown [] rs run.tree.root ∧
      Patchwork pieces (t.root.tokens.map Token.text) (run.tree.root.tokens.map Token.text) rs ∧
      run.tree.root.asides = banner.map Trivia.comment ++ t.root.asides ∧
      (banner = [] ∨ settings.emitBanner = true ∧ Banner.lines? (plan.bannerLabel settings)
        (plan.failures ++ run.failures) = some banner) := by
  intro run
  have hread := Tree.readFrom_of_parse hparse
  have harranged := (Tree.formed_of_parse hparse).arranged
  have hlists : ∀ p m, t.root.at? p = some m → m.kind = .attributeList → m.tokens ≠ [] := by
    intro p m hat hkind
    obtain ⟨d, hd, hsame⟩ := halike.at? hat
    rw [hsame.tokens_eq]
    exact (hread.built.at? hd).tokens_ne_nil_of_attributeList (harranged.at? hd)
      (hsame.kind_eq.symm.trans hkind)
  obtain ⟨hasides, rs, hperm, hgrown⟩ := @grows_ordered plan settings t hadds hlists
  have hpieces : ∀ n, t.root.Grown [] rs n →
      ∃ pieces, Patchwork pieces (t.root.tokens.map Token.text) (n.tokens.map Token.text) rs := by
    intro n hn
    rw [t.root.tokens_eq, n.tokens_eq]
    exact hn.parts.exists_pieces
  have hedits : (plan.applyEdits settings t).tree = t.after settings plan.ordered := by
    rw [applyEdits, himports, Progress.changeImports_nothing]
    rfl
  rw [← hedits] at hasides hgrown
  -- The end of the file is still there, so a banner has a token to stand in front of.
  have hne : (plan.applyEdits settings t).tree.root.tokens ≠ [] := by
    obtain ⟨init, trivia, stop, hfinish, -⟩ := hread.scanned.finish
    obtain ⟨pieces, hpatch⟩ := hpieces _ hgrown
    intro hnil
    have hold := hpatch.sublist
    rw [hnil, halike.tokens_eq] at hold
    have hempty := List.map_eq_nil_iff.1 (List.sublist_nil.1 hold)
    rw [hfinish] at hempty
    simp at hempty
  have hrun : run = plan.apply settings t := rfl
  unfold apply at hrun
  dsimp only at hrun
  split at hrun
  · rename_i lines hemit hlines
    rw [hrun]
    obtain ⟨pieces, hpatch⟩ := hpieces _ (Banner.grown_putOnTop hgrown)
    refine ⟨rs, pieces, lines, hperm, Banner.grown_putOnTop hgrown, hpatch, ?_, .inr ⟨hemit, hlines⟩⟩
    rw [Banner.asides_putOnTop hne, hasides]
  · rw [hrun]
    obtain ⟨pieces, hpatch⟩ := hpieces _ hgrown
    exact ⟨rs, pieces, [], hperm, hgrown, hpatch, hasides, .inl rfl⟩

/-- Records that give a method and its class a marker each and the class a base type. -/
def threeParts : List Record :=
  [⟨⟨0⟩, "void M", .methodMarker "A" none⟩, ⟨⟨1⟩, "class C", .classMarker "B"⟩,
    ⟨⟨1⟩, "class C", .baseTypeAddition "D"⟩]

theorem adds_threeParts : ∀ r ∈ threeParts, r.Adds := by
  have hquiet : threeParts.all (fun r => r.part?.all fun part => part.asides.isEmpty) = true := by
    decide +kernel
  intro r hr
  refine ⟨List.all_eq_true.1 (show threeParts.all Record.isAddition = true from rfl) r hr,
    fun part hpart => ?_⟩
  have hone := List.all_eq_true.1 hquiet r hr
  rw [hpart] at hone
  exact List.isEmpty_iff.1 hone

theorem apply_grows_threeParts : ∃ parsed t,
    Tree.parse "// c\nclass C \x7b void M() \x7b \x7d \x7d" = .ok parsed ∧
    t.root.Alike parsed.root ∧ (∀ r ∈ threeParts, r.Adds) ∧
    let run := (threeParts.foldl push { source := "xUnit", target := "TUnit" }).apply {} t
    run.tree.source = "// c\n[B]\nclass C : D \x7b [A]\nvoid M() \x7b \x7d \x7d" ∧
    run.tree.root.asides = [.comment "// c"] ∧
    ∃ rs, rs.Perm threeParts ∧ t.root.Grown [] rs run.tree.root := by
  let places : List (Tag × Path) := [(⟨0⟩, [0, 4]), (⟨1⟩, [0])]
  let plan : Plan := threeParts.foldl push { source := "xUnit", target := "TUnit" }
  obtain ⟨parsed, hparsed, hsample⟩ := exists_ok_of_map
    (x := Tree.parse "// c\nclass C \x7b void M() \x7b \x7d \x7d")
    (f := fun parsed => (plan.inserting {} (parsed.tagAll places),
      (plan.apply {} (parsed.tagAll places)).tree.source,
      (plan.apply {} (parsed.tagAll places)).tree.root.asides))
    (b := (threeParts, "// c\n[B]\nclass C : D \x7b [A]\nvoid M() \x7b \x7d \x7d",
      [.comment "// c"])) (by decide +kernel)
  obtain ⟨hinserting, hsource, hasides⟩ : _ ∧ _ ∧ _ := by simpa only [Prod.mk.injEq] using hsample
  obtain ⟨rs, pieces, banner, hperm, hgrown, -⟩ := @apply_grows _ _ _ _ plan hparsed
    (parsed.alike_tagAll places) adds_threeParts rfl {}
  exact ⟨parsed, parsed.tagAll places, hparsed, parsed.alike_tagAll places, adds_threeParts, hsource,
    hasides, rs, hinserting ▸ hperm, hgrown⟩

/-- A marker with a directive in it, and one that cannot be read. -/
def oddMarkers : List Record :=
  [⟨⟨0⟩, "void M", .methodMarker "A\n#pragma x\n" none⟩, ⟨⟨0⟩, "void M", .methodMarker "A(" none⟩]

/-- A directive in a marker comes with the marker, though it is no comment. A marker that cannot be
    read comes with the comments of a banner. -/
theorem not_apply_grows_odd : ∃ parsed t,
    Tree.parse "class C \x7b void M() \x7b \x7d \x7d" = .ok parsed ∧ t.root.Alike parsed.root ∧
    t.root.asides = [] ∧ oddMarkers.map (fun r =>
      let run := ([r].foldl push { source := "xUnit", target := "TUnit" }).apply {} t
      (run.tally, run.tree.root.asides.map Trivia.isDirective)) =
    [({ applied := 1 }, [true]), ({ failed := 1 }, [false, false, false, false])] := by
  let places : List (Tag × Path) := [(⟨0⟩, [0, 4])]
  obtain ⟨parsed, hparsed, hsample⟩ := exists_ok_of_map
    (x := Tree.parse "class C \x7b void M() \x7b \x7d \x7d")
    (f := fun parsed => ((parsed.tagAll places).root.asides, oddMarkers.map (fun r =>
      let run := ([r].foldl push { source := "xUnit", target := "TUnit" }).apply {}
        (parsed.tagAll places)
      (run.tally, run.tree.root.asides.map Trivia.isDirective))))
    (b := ([], [({ applied := 1 }, [true]), ({ failed := 1 }, [false, false, false, false])]))
    (by decide +kernel)
  obtain ⟨hasides, hruns⟩ := Prod.mk.inj hsample
  exact ⟨parsed, parsed.tagAll places, hparsed, parsed.alike_tagAll places, hasides, hruns⟩

end Plan

end Recast
