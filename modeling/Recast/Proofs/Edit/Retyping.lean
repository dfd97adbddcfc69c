-- SUMMARY: What the edits that are made in the header of a method make of it, where one node bears the tag of the method.
import Recast.Proofs.Edit.Headers

/-! # Edits in headers

The edits that retain all other heads (`Change.retains_apply`) are made elsewhere. Three are made
in the header of a method itself: a container of rows that it returns becomes a sequence
(`Edit.reads_reshapeContainer`), the header changes (`Edit.exists_changeSignature`), and a marker
comes with a return type (`Edit.reads_addMethodMarker`). Each of them is made at one node, since a
tag of a record is borne by one (`Node.Once`). -/

namespace Recast

/-! ## Tags that are borne once -/

theorem length_le_one_iff_of_nodup {α : Type} {l : List α} (h : l.Nodup) :
    l.length ≤ 1 ↔ ∀ a ∈ l, ∀ b ∈ l, a = b := by
  rcases l with _ | ⟨a, _ | ⟨b, l⟩⟩
  · simp
  · simp
  · have hne : a ≠ b := by
      rintro rfl
      exact (List.nodup_cons.1 h).1 (List.mem_cons_self ..)
    refine ⟨fun hlength => absurd hlength (by simp), fun hall => absurd ?_ hne⟩
    exact hall a (List.mem_cons_self ..) b (List.mem_cons_of_mem _ (List.mem_cons_self ..))

namespace Node

variable {n n' m m' : Node} {p q : Path} {tag : Tag}

/-- At most one node bears the tag. -/
def Once (tag : Tag) (n : Node) : Prop :=
  ∀ p q m m', n.at? p = some m → tag ∈ m.tags → n.at? q = some m' → tag ∈ m'.tags → p = q

theorem heads_bare_eq (n : Node) (tag : Tag) :
    n.heads tag.bare = (n.nodes.filter fun x => tag ∈ x.2.tags).map fun x => x.2.head false := by
  rw [heads_eq_flatMap]
  induction n.nodes with
  | nil => rfl
  | cons x xs ih =>
    rw [List.flatMap_cons, ih, List.filter_cons]
    by_cases htag : tag ∈ x.2.tags
    · simp [Tag.bare, htag]
    · simp [Tag.bare, htag]

theorem once_iff : n.Once tag ↔ (n.heads tag.bare).length ≤ 1 := by
  rw [heads_bare_eq, List.length_map, length_le_one_iff_of_nodup (n.nodup_nodes.of_map.filter _)]
  constructor
  · rintro h ⟨p, m⟩ hm ⟨q, m'⟩ hm'
    obtain ⟨hat, htag⟩ : n.at? p = some m ∧ tag ∈ m.tags := by simpa [mem_nodes] using hm
    obtain ⟨hat', htag'⟩ : n.at? q = some m' ∧ tag ∈ m'.tags := by simpa [mem_nodes] using hm'
    obtain rfl := h p q m m' hat htag hat' htag'
    obtain rfl := Option.some.inj (hat.symm.trans hat')
    rfl
  · intro h p q m m' hat htag hat' htag'
    have hmem : ∀ {p m}, n.at? p = some m → tag ∈ m.tags →
        (p, m) ∈ n.nodes.filter fun x => tag ∈ x.2.tags := by
      intro p m hat htag
      exact List.mem_filter.2 ⟨mem_nodes.2 hat, by simpa using htag⟩
    exact (Prod.mk.inj (h _ (hmem hat htag) _ (hmem hat' htag'))).1

theorem Once.of_retains (h : n.Once tag) (hretains : n.Retains tag.bare n') : n'.Once tag :=
  once_iff.2 (Nat.le_trans (List.Sublist.length_le hretains) (once_iff.1 h))

/-- The head of the one node is the only one. -/
theorem Once.eq_head {head : Head} {deep : Bool} (h : n.Once tag) (hat : n.at? p = some m)
    (htag : tag ∈ m.tags) (hhead : head ∈ n.heads ⟨tag, deep⟩) : head = m.head deep := by
  obtain ⟨q, u, hu, htag', rfl⟩ := mem_heads.1 hhead
  obtain rfl := h p q m u hat htag hu htag'
  obtain rfl := Option.some.inj (hat.symm.trans hu)
  rfl

end Node

theorem Tree.TaggedOnlyAt.once {t : Tree} {tag : Tag} {p : Path} (h : t.TaggedOnlyAt tag p) :
    t.root.Once tag := by
  intro q q' m m' hat htag hat' htag'
  rw [(h q).1 (Node.mem_tagsAt.2 ⟨m, hat, htag⟩), (h q').1 (Node.mem_tagsAt.2 ⟨m', hat', htag'⟩)]

/-! ## Heads around a node that was put -/

namespace Element

theorem mem_headsIn {watch : Watch} {es : List Element} {head : Head} :
    head ∈ headsIn watch es ↔ ∃ c : Node, .node c ∈ es ∧ head ∈ c.heads watch := by
  induction es with
  | nil => simp
  | cons e es ih =>
    cases e with
    | token u => simp [ih]
    | node n => simp [ih, or_and_right, exists_or]

theorem headerIn_set_of_not_bars {es : List Element} {i : Nat} {c c' : Node}
    (hc : es[i]? = some (.node c)) (hold : Kind.bars .methodDeclaration c.kind = false)
    (hnew : Kind.bars .methodDeclaration c'.kind = false) :
    headerIn (es.set i (.node c')) = headerIn es := by
  have hnone : ∀ {d : Node}, Kind.bars .methodDeclaration d.kind = false →
      (Element.node d).headerPart? = none := by
    intro d hd
    rw [headerPart?, hd]
    rfl
  unfold headerIn
  obtain ⟨hlt, hget⟩ := List.getElem?_eq_some_iff.1 hc
  conv_rhs => rw [← List.take_append_drop i es, List.drop_eq_getElem_cons hlt, hget]
  rw [List.set_eq_take_append_cons_drop, if_pos hlt, List.filterMap_append, List.filterMap_append,
    List.filterMap_cons_none (hnone hold), List.filterMap_cons_none (hnone hnew)]

end Element

/-- A method with a header that the node was put into has this head. -/
structure Node.HeadAround (watch : Watch) (e : Node) (p : Path) (n : Node) (head : Head) (q : Path)
    (i : Nat) (below : Path) (u c c' : Node) : Prop where
  path_eq : p = q ++ i :: below
  at_eq : n.at? q = some u
  tagged : watch.tag ∈ u.tags
  deep : watch.deep = true
  isMethod : u.kind = .methodDeclaration
  child : u.children[i]? = some (.node c)
  bars : Kind.bars .methodDeclaration c.kind = true
  put : Node.Put e below c c'
  head_eq : head = (u.withChildren (u.children.set i (.node c'))).head watch.deep

/-- Where a fresh node takes the place of one that is as much of a header as it is, heads stay, but
    for those of methods that the node is put into the headers of. -/
theorem Node.mem_heads_put {watch : Watch} {e m n n' : Node} {p : Path} {head : Head}
    (he : e.Fresh) (hat : n.at? p = some m)
    (hbars : Kind.bars .methodDeclaration e.kind = Kind.bars .methodDeclaration m.kind)
    (hput : Put e p n n') (hhead : head ∈ n'.heads watch) :
    head ∈ n.heads watch ∨
      ∃ q i below u c c', HeadAround watch e p n head q i below u c c' := by
  induction hput with
  | here n =>
    rw [he.heads_eq_nil] at hhead
    cases hhead
  | @under n c c' i p child rest ih =>
    obtain ⟨d, hd, hat⟩ := at?_cons_eq_some.1 hat
    obtain rfl : c = d := by simpa [child] using hd
    have hc : n.at? [i] = some c := at?_cons_eq_some.2 ⟨c, child, rfl⟩
    rw [heads_eq] at hhead
    rcases List.mem_append.1 hhead with hown | hin
    · split at hown
      · rename_i htag
        obtain rfl := List.mem_singleton.1 hown
        -- The way leads through the header of a method that is watched, or the head stays.
        by_cases hheading : (watch.deep = true ∧ n.kind = .methodDeclaration) ∧
            Kind.bars .methodDeclaration c.kind = true
        · obtain ⟨⟨hdeep, hkind⟩, hc⟩ := hheading
          exact .inr ⟨[], i, p, n, c, c', rfl, rfl, htag, hdeep, hkind, child, hc, rest, rfl⟩
        · refine .inl (mem_heads.2 ⟨[], n, rfl, htag, Eq.symm ?_⟩)
          by_cases hdeep : watch.deep = true ∧ n.kind = .methodDeclaration
          · have hplain : Kind.bars .methodDeclaration c.kind = false :=
              Bool.eq_false_iff.2 fun hc => hheading ⟨hdeep, hc⟩
            have hplain' : Kind.bars .methodDeclaration c'.kind = false := by
              cases rest with
              | here =>
                obtain rfl := Option.some.inj hat
                rw [hbars, hplain]
              | under => exact hplain
            exact head_eq_of_parts rfl (Element.headerIn_set_of_not_bars child hplain hplain')
          · exact head_eq_of_bare hdeep rfl
      · cases hown
    · obtain ⟨d, hmem, hin⟩ := Element.mem_headsIn.1 hin
      rcases List.mem_or_eq_of_mem_set hmem with hd | hd
      · obtain ⟨j, hj⟩ := List.mem_iff_getElem?.1 hd
        exact .inl (mem_heads_of_at? (at?_cons_eq_some.2 ⟨d, hj, rfl⟩ : n.at? [j] = some d) hin)
      · rw [Element.node.inj hd] at hin
        rcases ih hat hin with hsame | ⟨q, i', below, u, v, v', h⟩
        · exact .inl (mem_heads_of_at? hc hsame)
        · refine .inr ⟨i :: q, i', below, u, v, v', ?_, ?_, h.tagged, h.deep, h.isMethod, h.child,
            h.bars, h.put, h.head_eq⟩
          · rw [h.path_eq]
            rfl
          · exact at?_cons_eq_some.2 ⟨c, child, h.at_eq⟩

/-! ## Containers that are returned -/

/-- A header with some modifiers whose return type bears a tag. -/
def Head.Typed (D : Top → Prop) (words : List String) (x : Tag) (h : Head) : Prop :=
  ∃ mods type, h.parts = [mods, type] ∧ mods.kind? = some .modifiers ∧ mods.words = words ∧
    (∀ top ∈ mods.tops, D top) ∧ ∃ top ∈ type.tops.head?, x ∈ top.tags

section Edits

variable {D : Top → Prop} {words : List String} {P : String → Prop} {tag x : Tag} {t t' : Tree}
  {s : Site}

theorem Node.HeadAround.reads {e n : Node} {p q below : Path} {i : Nat} {u c c' : Node} {head : Head}
    (h : Node.HeadAround tag.full e p n head q i below u c c') (hn : n.Headed) (honce : n.Once x)
    (hbears : ∃ m, n.at? p = some m ∧ x ∈ m.tags) (hu : (u.head true).Typed D words x)
    (htype : e.kind.isTypeName = true) (heach : ∀ top ∈ e.tops, D top) (hP : P e.text) :
    head.Reads D words P := by
  obtain ⟨mods, type, hparts, hmods, hwords, hmods_each, top, htop, hx⟩ := hu
  rw [Node.head, if_pos ⟨rfl, h.isMethod⟩] at hparts
  obtain ⟨pre, m, v, post, hchildren, hpre, hpost, rfl, rfl⟩ :=
    Element.exists_split ((hn.at? h.at_eq).parts h.isMethod) hparts hmods
  obtain ⟨w, hw, hbears⟩ := hbears
  -- the return type is the one node that bears the tag, so the new node is put there
  have hv : n.at? (q ++ [pre.length + 1]) = some v := by
    rw [Node.at?_append, h.at_eq]
    refine Node.at?_cons_eq_some.2 ⟨v, ?_, rfl⟩
    rw [hchildren, List.getElem?_append_right (Nat.le_succ _)]
    simp
  have hvx : x ∈ v.tags := by
    have htops : v.headerPart.tops = v.top :: Element.topsIn v.children := v.tops_eq
    rw [htops] at htop
    obtain rfl := Option.some.inj htop
    exact hx
  have hpath := honce _ _ _ _ hw hbears hv hvx
  rw [h.path_eq] at hpath
  obtain ⟨rfl, rfl⟩ := List.cons.inj (List.append_cancel_left hpath)
  have hput := h.put
  obtain rfl : c' = e := by
    cases hput with
    | here => rfl
  have hset : u.children.set (pre.length + 1) (.node c') =
      pre ++ .node m :: .node c' :: post := by
    rw [hchildren, List.set_append_right _ _ (Nat.le_succ _)]
    simp
  rw [h.head_eq, hset]
  rw [Node.kind?_headerPart] at hmods
  have hsplit : Element.Split D words P pre m c' post :=
    ⟨hpre, hpost, Option.some.inj hmods, hwords, hmods_each, htype, hP, heach⟩
  exact hsplit.reads h.isMethod rfl

namespace Edit

/-- A container of rows that a method returns becomes a sequence. -/
theorem reads_reshapeContainer {settings : Settings} {change : ContainerChange} (hD : Admits D)
    (hs : s ∈ t.sites) (hcreation : change.creationTag = none) (htype : change.typeTag = some x)
    (hheaded : t.root.Headed) (honce : t.root.Once x)
    (hvalue : ∀ head ∈ t.root.heads x.bare, head.top.kind.isValue = true)
    (hheads : ∀ head ∈ t.root.heads tag.full,
      head.Typed D words x ∨ head.Clear (Top.Bears [x]))
    (hread : ∀ n, Fragment.readType s!"{change.container}<{change.element}>" = .ok n → P n.text)
    (h : reshapeContainer settings change s = .ok t') :
    ∀ head ∈ t'.root.heads tag.full,
      head ∈ t.root.heads tag.full ∨ head.Reads D words P := by
  obtain ⟨w, hw, h⟩ := reshapeContainer_eq_ok hs h
  rw [hcreation] at hw
  obtain rfl := Except.ok.inj hw
  obtain rfl | ⟨y, declared, e, hy, -, hdeclared, hx, he, hput⟩ := replaceTagged_eq_ok h
  · exact fun head hhead => .inl hhead
  obtain rfl : y = x := Option.some.inj (htype ▸ hy).symm
  obtain ⟨-, hat⟩ := Tree.mem_sites_iff.1 hdeclared
  obtain ⟨read, hok, rfl⟩ := sequenceType_eq_ok he
  have hname := Fragment.typeName_of_readType hok
  have hfresh := Fragment.fresh_of_readType hok
  have hpart := headerPart_withTriviaOf read declared.node
  have hkind : (read.withTriviaOf declared.node).kind = read.kind :=
    (read.keeps_withTriviaOf _).kind_eq
  have hold : declared.node.kind.isValue = true :=
    hvalue _ (Node.mem_heads.2 ⟨declared.path, declared.node, hat, hx, rfl⟩)
  have hnew : (read.withTriviaOf declared.node).kind.isValue = true := by
    rw [hkind]
    exact Kind.isValue_of_isTypeName hname.2
  intro head hhead
  rcases Node.mem_heads_put (hfresh.withTriviaOf declared.node) hat
    ((Kind.bars_of_isValue hnew).trans (Kind.bars_of_isValue hold).symm) hput hhead
    with hsame | ⟨q, i, below, u, c, c', haround⟩
  · exact .inl hsame
  · have hu : u.head true ∈ t.root.heads tag.full :=
      Node.mem_heads.2 ⟨q, u, haround.at_eq, haround.tagged, rfl⟩
    rcases hheads _ hu with htyped | hclear
    · refine .inr (haround.reads hheaded honce ⟨declared.node, hat, hx⟩ htyped ?_ ?_ ?_)
      · rw [hkind]
        exact hname.2
      · rw [show (read.withTriviaOf declared.node).tops = read.tops from
          congrArg HeaderPart.tops hpart]
        exact hD.type hname hfresh
      · rw [show (read.withTriviaOf declared.node).text = read.text from
          congrArg HeaderPart.text hpart]
        exact hread read hok
    · -- the new node is in a part of the header, which is clear of the tag
      rw [haround.path_eq, Node.at?_append, haround.at_eq] at hat
      obtain ⟨d, hd, hat⟩ := Node.at?_cons_eq_some.1 hat
      obtain rfl : c = d := by simpa [haround.child] using hd
      have hpart : c.headerPart ∈ (u.head true).parts := by
        rw [Node.head, if_pos ⟨rfl, haround.isMethod⟩]
        exact List.mem_filterMap.2 ⟨.node c, List.mem_of_getElem? haround.child,
          by simp [Element.headerPart?, haround.bars]⟩
      exact absurd ⟨y, List.mem_singleton_self y, hx⟩
        (hclear _ hpart _ (Node.mem_tops.2 ⟨below, declared.node, hat, rfl⟩))

/-! ### Own headers -/

/-- A change of a header that fits is carried out, and makes the modifiers and the return type that
    it asks for. -/
theorem exists_changeSignature {change : SignatureChange} (hD : Admits D) (hs : s ∈ t.sites)
    (htag : tag ∈ s.node.tags) (hheaded : t.root.Headed) (honce : t.root.Once tag)
    (hreads : (s.node.head true).Reads D words change.Fits) (hfree : change.FreeIn words) :
    ∃ t', changeSignature {} change s = .ok t' ∧ ∀ head ∈ t'.root.heads tag.full,
      head.Reads D (change.modifiersFrom words) change.Settles := by
  have hkind : s.node.kind = .methodDeclaration := hreads.isMethod
  have hrequired : requireKind s (· == .methodDeclaration) "a method" = .ok () :=
    if_pos (beq_iff_eq.2 hkind)
  obtain ⟨rfl, hat⟩ := Tree.mem_sites_iff.1 hs
  by_cases hnoop : change.isNoop = true
  · -- A change that asks for nothing leaves the tree as it is.
    have hdone : changeSignature {} change s = .ok s.tree := by
      simp only [changeSignature, hrequired, hnoop]
      rfl
    obtain rfl := (SignatureChange.isNoop_iff change).1 hnoop
    refine ⟨s.tree, hdone, fun head hhead => ?_⟩
    rw [honce.eq_head hat htag hhead]
    exact hreads.mono fun _ _ => nofun
  · obtain ⟨pre, m, v, post, hchildren, hsplit⟩ := hreads.exists_split
      ((hheaded.at? hat).parts hkind)
    obtain ⟨m', v', hchanged, hsplit'⟩ := exists_changeHeader hD hchildren hfree hsplit
    obtain ⟨t', ht'⟩ : ∃ t', s.tree.tryUpdate EditError.tree s.path (changeHeader {} change) =
      .ok t' := Tree.exists_tryUpdate hat hchanged
    have hdone : changeSignature {} change s = .ok t' := by
      simp only [changeSignature, hrequired, hnoop]
      exact ht'
    refine ⟨t', hdone, fun head hhead => ?_⟩
    have honce' : t'.root.Once tag := honce.of_retains
      (retains_changeSignature (Node.clear_bare tag (fun _ => True) _) hs trivial nofun hdone)
    obtain ⟨u, u', hu, hok, hput⟩ := Tree.put_of_tryUpdate ht'
    obtain rfl : s.node = u := Option.some.inj (hat.symm.trans hu)
    obtain rfl := Except.ok.inj (hchanged.symm.trans hok)
    rw [honce'.eq_head hput.at? htag hhead]
    exact hsplit'.reads hkind rfl

/-- The return type of a method gives way to a fresh one. -/
theorem exists_setReturnType {n type : Node} (hD : Admits D) (hreads : (n.head true).Reads D words P)
    (hheaded : Element.HeadedIn n.children) (htype : type.TypeName) (hfresh : type.Fresh)
    (hP : P type.text) :
    ∃ index es, n.indexOf? .modifiers = some index ∧
      setReturnType (index + 1) (fun _ => .ok (some type)) n.children = .ok es ∧
      ((n.withChildren es).head true).Reads D words P := by
  have hkind := hreads.isMethod
  obtain ⟨pre, m, v, post, hchildren, hsplit⟩ := hreads.exists_split hheaded
  have hindex : n.indexOf? .modifiers = some pre.length := by
    rw [Node.indexOf?, hchildren]
    exact Element.findIdx?_split hsplit.before hsplit.mods_kind _
  refine ⟨pre.length, pre ++ .node m :: .node (type.withTriviaOf v) :: post, hindex, ?_, ?_⟩
  · rw [hchildren]
    exact @setReturnType_split _ _ _ _ (fun _ => .ok (some type)) _ rfl
  · have hretyped := hsplit.change hsplit.mods_kind hsplit.mods_words hsplit.mods_each
      (headerPart_withTriviaOf type v) htype.2 hP (hD.type htype hfresh)
    exact hretyped.reads hkind rfl

/-- A marker with a return type goes to a method, which has that type then; without one, or at
    another method, the header stays. -/
theorem reads_addMethodMarker {marker : String} {returnType : Option String} (hD : Admits D)
    (hs : s ∈ t.sites) (hheaded : t.root.Headed) (honce : t.root.Once tag) {own : Tag}
    (hown : own ∈ s.node.tags) (hclear : t.root.Clear tag.full (Top.Bears [own]))
    (hreads : ∀ head ∈ t.root.heads tag.full, head.Reads D words P)
    (hread : ∀ type ∈ returnType, ∀ n, Fragment.readType type = .ok n → P n.text)
    (h : addMethodMarker marker returnType s = .ok t') :
    ∀ head ∈ t'.root.heads tag.full, head.Reads D words P := by
  have hm : s.node.top.Bears [own] := ⟨own, List.mem_singleton_self own, hown⟩
  by_cases hother : tag ∈ s.node.tags ∧ returnType ≠ none
  · obtain ⟨htag, hsome⟩ := hother
    have honce' : t'.root.Once tag := honce.of_retains
      (retains_addMethodMarker (Node.clear_bare tag _ _) hs hm nofun h)
    obtain ⟨-, hat⟩ := Tree.mem_sites_iff.1 hs
    obtain ⟨hkind, list, hlist, ⟨hnone, -⟩ | ⟨asked, type, index, es, rfl, htype, hindex, hes,
      hput⟩⟩ := addMethodMarker_eq_ok hs h
    · exact absurd hnone hsome
    -- The marker goes in front of the header, so the return type is where it was.
    have hown : (s.node.head true).Reads D words P :=
      hreads _ (Node.mem_heads.2 ⟨s.path, s.node, hat, htag, rfl⟩)
    have hlist := Fragment.is_of_readAttributeList (markerList_eq_ok hlist)
    have hhead := head_putMarker hlist.2 true s.node
    obtain ⟨hparts, -⟩ := headedParts_putMarker hlist (hheaded.at? hat) hkind
    obtain ⟨index', es', hindex', hset, hretyped⟩ := exists_setReturnType hD (hhead ▸ hown)
      hparts.order (Fragment.typeName_of_readType htype) (Fragment.fresh_of_readType htype)
      (hread asked rfl type htype)
    obtain rfl : index = index' := Option.some.inj (hindex.symm.trans hindex')
    obtain rfl : es = es' := Except.ok.inj (hes.symm.trans hset)
    have htop : (putMarker list s.node).top = s.node.top := congrArg Head.top hhead
    intro head hhead'
    rw [honce'.eq_head hput.at? ?_ hhead']
    · exact hretyped
    · rwa [show ((putMarker list s.node).withChildren es).tags = s.node.tags from
        congrArg Top.tags htop]
  · exact fun head hhead => hreads head (List.Sublist.subset (retains_addMethodMarker hclear hs hm
      (fun _ htag => by_contra fun hsome => hother ⟨htag, hsome⟩) h) hhead)

end Edit

end Edits

end Recast
