-- SUMMARY: The edit of a record, and every edit of imports, retains the heads of the nodes that bear a tag, as long as it is not made in a header or to one.
import Recast.Proofs.Edit.Retaining

/-! # Preserved headers

Every edit of a record is made at the nodes with certain tags (`Record.targets`). It retains the
heads of the nodes with another tag when no header of such a node holds one of its targets and,
should it rewrite headers, when its node does not bear that tag. An edit that puts an expression or
a type in the place of its target needs to find a value there, or what it brings might be taken for
a return type. All this is `Change.retains_apply`; the edits of imports follow it. -/

namespace Recast

/-! ## Values and statements -/

theorem Kind.bars_of_isValue {kind : Kind} (h : kind.isValue = true) :
    bars .methodDeclaration kind = true := by
  simp [bars, h]

theorem Node.Statement.bars_eq_false {n : Node} (h : n.Statement) :
    Kind.bars .methodDeclaration n.kind = false := by
  obtain ⟨-, hkind⟩ := h
  revert hkind
  cases n.kind <;> decide

/-- Nothing is in a header where headers are not told. -/
theorem Node.clear_bare (tag : Tag) (Q : Top → Prop) (n : Node) : n.Clear tag.bare Q := by
  intro head hhead part hpart
  obtain ⟨p, m, -, -, rfl⟩ := mem_heads.1 hhead
  cases hpart

namespace Edit

variable {watch : Watch} {Q : Top → Prop} {t t' : Tree} {s : Site}

section Taking

variable (hclear : t.root.Clear watch Q) (hs : s ∈ t.sites) (hm : Q s.node.top)

include hclear hs hm

theorem retains_replaceAt {r : Node} (hr : r.Fresh)
    (hfits : Kind.bars .methodDeclaration r.kind = true →
      Kind.bars .methodDeclaration s.node.kind = true) (h : replaceAt s r = .ok t') :
    t.root.Retains watch t'.root := by
  obtain ⟨-, hat⟩ := Tree.mem_sites_iff.1 hs
  refine (put_replaceAt hs h).retains hat hclear (Node.holds_self hm) ?_
    ((hr.withTriviaOf s.node).retains s.node)
  rwa [(r.keeps_withTriviaOf s.node).kind_eq]

theorem retains_replaceCall {text : String} (hvalue : s.node.kind.isValue = true)
    (h : replaceCall text s = .ok t') : t.root.Retains watch t'.root := by
  obtain ⟨r, hr, h⟩ := replaceCall_eq_ok h
  exact retains_replaceAt hclear hs hm (Fragment.fresh_of_readExpression hr)
    (fun _ => Kind.bars_of_isValue hvalue) h

/-- As in `saves_replaceAssertion`, the remark and the call are one change of the statement. -/
theorem retains_replaceAssertion {change : AssertionChange} (hvalue : s.node.kind.isValue = true)
    (h : replaceAssertion change s = .ok t') : t.root.Retains watch t'.root := by
  obtain ⟨r, w, hr, hw, rfl | ⟨remark, p, q, u, u', -, hu, hat, hinner, -, houter⟩⟩ :=
    replaceAssertion_eq_ok hs h
  · exact retains_replaceCall hclear hs hm hvalue hw
  · have hfresh := (Fragment.fresh_of_readExpression hr).withTriviaOf s.node
    have hholds : s.node.Holds Q := Node.holds_self hm
    have hcall : u.Retains watch u' := hinner.retains hat (hclear.at? hu) hholds
      (fun _ => Kind.bars_of_isValue hvalue) (hfresh.retains s.node)
    have hremarked : u'.Retains watch (withRemark remark u') :=
      Node.retains_of_eq (u'.heads_withLeading _)
    refine houter.retains hu hclear (hholds.of_at? hat) (fun hbars => ?_) (hcall.trans hremarked)
    rw [withRemark, (u'.keeps_withLeading _).kind_eq] at hbars
    cases hinner with
    | here =>
      obtain rfl := Option.some.inj hat
      exact Kind.bars_of_isValue hvalue
    | under => exact hbars

theorem retains_captureException {settings : Settings} {captured body : String}
    (h : captureException settings captured body s = .ok t') : t.root.Retains watch t'.root := by
  obtain ⟨-, first, rest, hread, h⟩ := captureException_eq_ok hs h
  obtain ⟨-, hat⟩ := Tree.mem_sites_iff.1 hs
  have hfresh : ∀ r ∈ runWithTriviaOf s.node (first :: rest), r.Fresh :=
    forall_mem_runWithTriviaOf (fun _ hr => hr.mapFirst _) (fun _ hr => hr.mapLast _)
      (Fragment.fresh_of_readStatements hread)
  refine Tree.retains_replaceMany hclear hat (Node.holds_self hm) hfresh ?_ h
  refine forall_mem_runWithTriviaOf (fun r hr => ?_) (fun r hr => ?_)
    fun r hr => (Fragment.statement_of_readStatements hread r hr).bars_eq_false
  · rwa [(r.keeps_withLeading _).kind_eq]
  · rwa [(r.keeps_withTrailing _).kind_eq]

/-! ### Markers -/

omit hclear hs hm in
theorem fresh_renamed {name : String} {edit : ArgumentEdit} {r : Node}
    (h : renamed name edit s = .ok r) :
    r.Fresh ∧ Kind.bars .methodDeclaration r.kind = false := by
  obtain ⟨-, code, hread⟩ := renamed_eq_ok h
  have hkind : r.Is .attribute := Fragment.of_readAll Grammar.gives_attributeOf hread
  refine ⟨Fragment.fresh_of_readAttribute hread, ?_⟩
  rw [hkind.2]
  rfl

omit hclear hs hm in
theorem fresh_companyOf {list : Node} {additional : List ExtraMarker} {company : List Node}
    (h : companyOf list additional = .ok company) :
    ∀ r ∈ company, r.Fresh ∧ Kind.bars .methodDeclaration r.kind = false := by
  intro r hr
  obtain ⟨code, read, hread, hform⟩ := companyOf_eq_ok h r hr
  have hfresh := Fragment.fresh_of_readAttributeList hread
  have hkind := (Fragment.is_of_readAttributeList hread).2
  obtain ⟨lead, trail, rfl⟩ | ⟨trail, rfl⟩ := hform
  · refine ⟨(hfresh.mapFirst _).mapLast _, ?_⟩
    rw [(Node.keeps_withTrailing _ _).kind_eq, (Node.keeps_withLeading _ _).kind_eq, hkind]
    rfl
  · refine ⟨hfresh.mapLast _, ?_⟩
    rw [(Node.keeps_withTrailing _ _).kind_eq, hkind]
    rfl

theorem retains_renamed {name : String} {edit : ArgumentEdit} {r : Node}
    (hr : renamed name edit s = .ok r) (h : replaceAt s r = .ok t') :
    t.root.Retains watch t'.root := by
  obtain ⟨hfresh, hplain⟩ := fresh_renamed hr
  refine retains_replaceAt hclear hs hm hfresh (fun hbars => ?_) h
  rw [hplain] at hbars
  cases hbars

theorem retains_changeParameterMarker {name : String} {edit : ArgumentEdit}
    (h : changeParameterMarker name edit s = .ok t') : t.root.Retains watch t'.root := by
  obtain ⟨r, hr, h⟩ := changeParameterMarker_eq_ok h
  exact retains_renamed hclear hs hm hr h

/-- The company of a marker goes into the construct that the list of the marker stands in. -/
theorem retains_changeMarker {change : MarkerChange} (h : changeMarker change s = .ok t') :
    t.root.Retains watch t'.root := by
  obtain ⟨r, hr, h | ⟨owner, index, i, list, company, w, u, u', -, hcompany, -, -, hu, hat, hinner,
    houter⟩⟩ := changeMarker_eq_ok hs h
  · exact retains_renamed hclear hs hm hr h
  · have hholds : s.node.Holds Q := Node.holds_self hm
    obtain ⟨hfresh, hplain⟩ := fresh_renamed hr
    have hrenamed : u.Retains watch u' := by
      refine hinner.retains hat (hclear.at? hu) hholds (fun hbars => ?_)
        ((hfresh.withTriviaOf s.node).retains s.node)
      rw [(r.keeps_withTriviaOf s.node).kind_eq, hplain] at hbars
      cases hbars
    have hcompany := fresh_companyOf hcompany
    have hjoined : u'.Retains watch _ := Node.retains_between (index + 1)
      (Element.each_nodes fun r hr => (hcompany r hr).1)
      (Element.each_nodes fun r hr => (hcompany r hr).2)
    refine houter.retains hu hclear (hholds.of_at? hat) (fun hbars => ?_) (hrenamed.trans hjoined)
    rwa [show (u'.withChildren _).kind = u.kind from (hinner.top_eq (List.cons_ne_nil _ _)).1]
      at hbars

/-! ### Removals -/

theorem retains_removeMember (h : removeMember s = .ok t') : t.root.Retains watch t'.root := by
  obtain ⟨-, hat⟩ := Tree.mem_sites_iff.1 hs
  exact Tree.retains_remove hclear hat (Node.holds_self hm) (removeMember_eq_ok hs h).2

theorem retains_removeItem {kind : Kind} {list : Site} (hlist : parentOf s kind = .ok list)
    (hkind : kind ≠ .methodDeclaration) (h : t.removeItem s.path = .ok t') :
    t.root.Retains watch t'.root := by
  obtain ⟨hat, hlistKind, i, hpath, hc⟩ := child_of_parentOf hs hlist
  rw [hpath] at h
  exact Tree.retains_removeItem hclear hat (hlistKind ▸ hkind) ((Node.holds_self hm).of_child hc) h

theorem retains_removeParameter (h : removeParameter s = .ok t') : t.root.Retains watch t'.root := by
  obtain ⟨list, hlist, h⟩ := removeParameter_eq_ok hs h
  exact retains_removeItem hclear hs hm hlist nofun h

theorem retains_removeMarker (h : removeMarker s = .ok t') : t.root.Retains watch t'.root := by
  obtain ⟨-, list, hlist, h | ⟨-, option, h⟩⟩ := removeMarker_eq_ok hs h
  · exact retains_removeItem hclear hs hm hlist nofun h
  · obtain ⟨hat, -, i, -, hc⟩ := child_of_parentOf hs hlist
    exact Tree.retains_remove hclear hat ((Node.holds_self hm).of_child hc) h

theorem retains_removeBaseType (h : removeBaseType s = .ok t') : t.root.Retains watch t'.root := by
  obtain ⟨-, list, hlist, h | ⟨-, w, hw, h⟩⟩ := removeBaseType_eq_ok hs h
  · exact retains_removeItem hclear hs hm hlist nofun h
  · obtain ⟨hat, -, i, -, hc⟩ := child_of_parentOf hs hlist
    have hholds : list.node.Holds Q := (Node.holds_self hm).of_child hc
    obtain ⟨hretains, hat⟩ := Tree.retains_updateNear hclear .before
      (Token.trailingOnly_set fun _ => list.node.trailing) hat hholds hw
    exact hretains.trans (Tree.retains_remove (hclear.of_retains hretains) hat hholds h)

end Taking

/-! ### Method headers -/

theorem retainsIn_replaceModifiers (index : Nat) (old new : List Token) (es : List Element) :
    Element.RetainsIn watch es (replaceModifiers index old new es) := by
  have hmodifiers : ∀ ts : List Token, (Node.ofChildren .modifiers (ts.map .token)).Fresh :=
    fun ts => Node.fresh_ofChildren (Element.each_tokens ts)
  obtain ⟨ts, heq, -⟩ | ⟨type, htype, -, -, heq⟩ := replaceModifiers_cases index old new es
  · rw [heq]
    exact Element.retainsIn_set_fresh (hmodifiers _) _ _
  · rw [heq]
    have hmoved : Element.RetainsIn watch es (es.set (index + 1) (.node (type.withLeading []))) :=
      Element.retainsIn_set htype (Node.retains_of_eq (type.heads_withLeading _))
    exact hmoved.trans (Element.retainsIn_set_fresh (hmodifiers _) _ _)

theorem retainsIn_setReturnType {index : Nat} {make : Node → Except EditError (Option Node)}
    {es es' : List Element} (hmake : ∀ current type, make current = .ok (some type) → type.Fresh)
    (h : setReturnType index make es = .ok es') : Element.RetainsIn watch es es' := by
  obtain ⟨current, -, rfl | ⟨type, hmade, rfl⟩⟩ := setReturnType_eq_ok h
  · exact .refl _
  · exact Element.retainsIn_set_fresh ((hmake current type hmade).withTriviaOf current) _ _

/-- A changed header is a method with the same kind and tags, and nothing in it is new. -/
theorem retainsIn_changeHeader {settings : Settings} {change : SignatureChange}
    {method method' : Node} (h : changeHeader settings change method = .ok method') :
    method'.top = method.top ∧ Element.RetainsIn watch method.children method'.children := by
  obtain ⟨index, c, es, -, -, hes, rfl⟩ := changeHeader_eq_ok h
  refine ⟨rfl, (retainsIn_replaceModifiers _ _ _ _).trans (retainsIn_setReturnType ?_ hes)⟩
  intro current type hmade
  obtain ⟨text, -, hread⟩ := mapM_returnTypeOf_eq_ok hmade
  exact Fragment.fresh_of_readType hread

/-- The header of a node changes that is not watched together with its header. -/
theorem retains_changeSignature {settings : Settings} {change : SignatureChange}
    (hclear : t.root.Clear watch Q) (hs : s ∈ t.sites) (hm : Q s.node.top)
    (hother : watch.deep = true → watch.tag ∉ s.node.tags)
    (h : changeSignature settings change s = .ok t') : t.root.Retains watch t'.root := by
  obtain ⟨-, hat⟩ := Tree.mem_sites_iff.1 hs
  obtain ⟨-, rfl | ⟨method, hmethod, hput⟩⟩ := changeSignature_eq_ok hs h
  · exact .refl _
  · obtain ⟨htop, hparts⟩ := retainsIn_changeHeader hmethod
    have hkind : method.kind = s.node.kind := congrArg Top.kind htop
    refine hput.retains hat hclear (Node.holds_self hm) (by rw [hkind]; exact id)
      (Node.retains_of_parts htop (fun htag => ?_) hparts)
    exact Node.head_eq_of_bare (fun hwatched => hother hwatched.1 htag) htop

/-- A marker list goes in front of a method and leaves its header as it is. -/
theorem head_putMarker {list : Node} (hlist : list.kind = .attributeList) (deep : Bool)
    (method : Node) : (putMarker list method).head deep = method.head deep := by
  have hplain : ∀ lead trail es, Element.headerIn (.node ((list.withLeading lead).withTrailing trail)
      :: es) = Element.headerIn es := by
    intro lead trail es
    refine List.filterMap_cons_none ?_
    rw [Element.headerPart?, (Node.keeps_withTrailing _ _).kind_eq,
      (Node.keeps_withLeading _ _).kind_eq, hlist]
    rfl
  obtain heq | ⟨first, rest, hchildren, -, heq⟩ := putMarker_cases list method
  · have hindented : (method.withLeading (Trivia.indentation method.leading)).head deep =
        method.head deep := method.head_mapFirst (Token.leadingOnly_set fun _ => _) deep
    rw [heq, ← hindented]
    exact Node.head_eq_of_parts (n := method.withLeading _) rfl (hplain _ _ _)
  · rw [heq]
    refine Node.head_eq_of_parts rfl ?_
    have hfirst := Element.headerPart?_mapFirst (Token.leadingOnly_set fun _ =>
      Trivia.newline :: Trivia.indentation method.leading) (.node first)
    rw [hchildren]
    refine (hplain _ _ _).trans ?_
    unfold Element.headerIn
    rw [List.filterMap_cons, List.filterMap_cons, ← hfirst]
    rfl

theorem retainsIn_onNewLine {list declaration : Node} (hlist : list.Fresh)
    (lead indent : List Trivia) : Element.RetainsIn watch declaration.children
      (putMarker.onNewLine list declaration lead indent).children := by
  refine Element.retainsIn_cons_fresh ((hlist.mapFirst _).mapLast _) ?_
  obtain ⟨kind, children, span, tags⟩ := declaration
  exact Element.retainsIn_of_eq
    (Observer.seeIn_mapFirstIn _ (Token.leadingOnly_set fun _ => indent) [] children)

theorem retainsIn_putMarker {list : Node} (hlist : list.Fresh) (method : Node) :
    Element.RetainsIn watch method.children (putMarker list method).children := by
  obtain heq | ⟨first, rest, hchildren, -, heq⟩ := putMarker_cases list method
  · rw [heq]
    exact retainsIn_onNewLine hlist _ _
  · rw [heq, hchildren]
    refine Element.retainsIn_cons_fresh ((hlist.mapFirst _).mapLast _) (Element.retainsIn_of_eq ?_)
    rw [Element.headsIn_node, Element.headsIn_node, first.heads_withLeading]

/-- A marker goes to a method; the return type changes only where headers are not watched. -/
theorem retains_addMethodMarker {marker : String} {returnType : Option String}
    (hclear : t.root.Clear watch Q) (hs : s ∈ t.sites) (hm : Q s.node.top)
    (hother : watch.deep = true → watch.tag ∈ s.node.tags → returnType = none)
    (h : addMethodMarker marker returnType s = .ok t') : t.root.Retains watch t'.root := by
  obtain ⟨-, hat⟩ := Tree.mem_sites_iff.1 hs
  obtain ⟨-, list, hlist, hmade⟩ := addMethodMarker_eq_ok hs h
  have hread := markerList_eq_ok hlist
  have hhead := head_putMarker (Fragment.is_of_readAttributeList hread).2 watch.deep s.node
  have htop : (putMarker list s.node).top = s.node.top := congrArg Head.top hhead
  have hkind : (putMarker list s.node).kind = s.node.kind := congrArg Top.kind htop
  have hparts : Element.RetainsIn watch s.node.children (putMarker list s.node).children :=
    retainsIn_putMarker (Fragment.fresh_of_readAttributeList hread) s.node
  have hfits : Kind.bars .methodDeclaration (putMarker list s.node).kind = true →
      Kind.bars .methodDeclaration s.node.kind = true := by rw [hkind]; exact id
  obtain ⟨-, hput⟩ | ⟨text, type, index, es, rfl, htype, -, hes, hput⟩ := hmade
  · exact hput.retains hat hclear (Node.holds_self hm) hfits
      (Node.retains_of_parts htop (fun _ => hhead) hparts)
  · refine hput.retains hat hclear (Node.holds_self hm) hfits (Node.retains_of_parts htop
      (fun htag => ?_) (hparts.trans (retainsIn_setReturnType (fun current made hmade => ?_) hes)))
    · exact Node.head_eq_of_bare (fun hwatched => nomatch hother hwatched.1 htag) htop
    · obtain rfl := Option.some.inj (Except.ok.inj hmade)
      exact Fragment.fresh_of_readType htype

/-! ### Types -/

theorem ne_of_isTypeDeclaration (h : s.node.kind.isTypeDeclaration = true) :
    s.node.kind ≠ .methodDeclaration := by
  intro hmethod
  rw [hmethod] at h
  cases h

theorem retains_addClassMarker {marker : String} (hclear : t.root.Clear watch Q) (hs : s ∈ t.sites)
    (hm : Q s.node.top) (h : addClassMarker marker s = .ok t') : t.root.Retains watch t'.root := by
  obtain ⟨-, hat⟩ := Tree.mem_sites_iff.1 hs
  obtain ⟨htype, list, hlist, hput⟩ := addClassMarker_eq_ok hs h
  have hfresh := Fragment.fresh_of_readAttributeList (markerList_eq_ok hlist)
  have hother := ne_of_isTypeDeclaration htype
  obtain heq | ⟨index, heq⟩ := putClassMarker_cases list s.node
  · rw [heq] at hput
    have htop : (putMarker.onNewLine list s.node s.node.leading
        (Trivia.indentation s.node.leading)).top = s.node.top := s.node.top_mapFirst _
    have hkind : (putMarker.onNewLine list s.node s.node.leading
        (Trivia.indentation s.node.leading)).kind = s.node.kind := congrArg Top.kind htop
    exact hput.retains hat hclear (Node.holds_self hm) (by rw [hkind]; exact id)
      (Node.retains_of_parts htop (fun _ => Node.head_eq_of_kind_ne hother htop)
        (retainsIn_onNewLine hfresh _ _))
  · rw [heq, ← List.singleton_append, ← List.append_assoc] at hput
    exact hput.retains hat hclear (Node.holds_self hm) id (Node.retains_of_parts rfl
      (fun _ => Node.head_eq_of_kind_ne hother rfl) (Element.retainsIn_splice (Nat.le_refl _) _
        (Element.each_single ((hfresh.mapFirst _).mapLast _))))

theorem retains_insertBaseList {base declaration declaration' : Node} (hbase : base.Fresh)
    (hkind : declaration.kind ≠ .methodDeclaration)
    (h : insertBaseList base declaration = .ok declaration') :
    declaration.Retains watch declaration' ∧ declaration'.kind = declaration.kind := by
  obtain ⟨index, anchor, hanchor, -, rfl⟩ := insertBaseList_eq_ok h
  refine ⟨Node.retains_of_parts rfl (fun _ => Node.head_eq_of_kind_ne hkind rfl) ?_, rfl⟩
  have hlist : ∀ trivia, ((Node.ofChildren .baseList [.token (Token.ofMark ":" [Trivia.space]),
      .node base]).withTrailing trivia).Fresh := by
    intro trivia
    refine Node.Fresh.mapLast (Node.fresh_ofChildren fun c hc => ?_) _
    obtain rfl : c = base := by simpa using hc
    exact hbase
  refine Element.retainsIn_of_eq ?_
  conv_rhs => rw [Node.children_split hanchor]
  simp only [Node.withChildren, Element.headsIn_append]
  cases anchor with
  | token u =>
    simp only [Element.mapLast, Element.headsIn_token, Element.headsIn_node,
      (hlist _).heads_eq_nil, List.nil_append]
  | node c =>
    simp only [Element.mapLast, Element.headsIn_node,
      c.heads_mapLast (Token.trailingOnly_set fun _ => [Trivia.space]),
      (hlist _).heads_eq_nil, List.nil_append]

theorem retains_extendBaseList {base list : Node} (hbase : base.Fresh)
    (hkind : list.kind = .baseList) : list.Retains watch (extendBaseList base list) := by
  have hclosed : list.Retains watch (list.withTrailing []) :=
    Node.retains_of_eq (list.heads_withTrailing [])
  refine hclosed.trans (Node.retains_of_parts rfl (fun _ => Node.head_eq_of_kind_ne ?_ rfl) ?_)
  · rw [(list.keeps_withTrailing _).kind_eq, hkind]
    exact nofun
  · refine Element.retainsIn_of_eq ?_
    have hnew : (base.withTrailing list.trailing).Fresh := hbase.mapLast _
    simp only [extendBaseList, Node.withChildren, Element.headsIn_append, Element.headsIn_token,
      Element.headsIn_node, hnew.heads_eq_nil, Element.headsIn_nil, List.append_nil]

/-- The base list of the node changes with the node. -/
theorem retains_addBaseType {type : String} (hclear : t.root.Clear watch Q) (hs : s ∈ t.sites)
    (hm : Q s.node.top) (h : addBaseType type s = .ok t') : t.root.Retains watch t'.root := by
  obtain ⟨-, hat⟩ := Tree.mem_sites_iff.1 hs
  obtain ⟨htype, read, hread, ⟨-, rfl⟩ | ⟨-, hadded⟩⟩ := addBaseType_eq_ok hs h
  · exact .refl _
  have hother := ne_of_isTypeDeclaration htype
  have hbase : (Node.ofChildren .baseType [.node read]).Fresh :=
    Node.fresh_ofChildren (Element.each_single (Fragment.fresh_of_readType hread))
  obtain ⟨i, list, hc, hlist, hput⟩ | ⟨declaration, hinsert, hput⟩ := hadded
  · exact hput.retains hat hclear (Node.holds_self hm) id (Node.retains_of_parts rfl
      (fun _ => Node.head_eq_of_kind_ne hother rfl)
      (Element.retainsIn_set hc (retains_extendBaseList hbase hlist)))
  · obtain ⟨hretains, hkind⟩ := retains_insertBaseList hbase hother hinsert
    exact hput.retains hat hclear (Node.holds_self hm) (by rw [hkind]; exact id) hretains

/-! ### Containers -/

theorem retains_tupleRows {rows rows' : Node} (hkind : rows.kind = .initializerExpression)
    (h : tupleRows rows = .ok rows') : rows.Retains watch rows' := by
  obtain ⟨es, hes, rfl⟩ := tupleRows_eq_ok h
  refine Node.retains_of_parts rfl (fun _ => Node.head_eq_of_kind_ne (by rw [hkind]; exact nofun) rfl)
    (Element.retainsIn_mapM (fun e e' he => ?_) hes)
  obtain rfl | ⟨row, tuple, text, rfl, htuple, rfl⟩ := tupleRow_eq_ok he
  · exact .refl _
  · have hfresh := Fragment.fresh_of_readExpression htuple
    have hnone := Element.headsIn_eq_nil watch (Element.each_single (hfresh.withTriviaOf row))
    unfold Element.RetainsIn
    rw [hnone]
    exact List.nil_sublist _

/-- What is new in an array was read as one; its rows come from the creation. -/
theorem retains_arrayOf {settings : Settings} {element : String} {creation : Site} {e : Node}
    (h : arrayOf settings element creation = .ok e) : creation.node.Retains watch e := by
  obtain ⟨initializer, rows, rows', array, index, c, before, hmem, hkind, hrows, hrows', harray, -,
    hbefore, rfl⟩ := arrayOf_eq_ok h
  obtain ⟨htags, hparts⟩ := Node.fresh_iff.1 (Fragment.fresh_of_readExpression harray)
  have hrows : (rows'.heads watch).Sublist (creation.node.heads watch) := by
    have hsame : rows'.heads watch = rows.heads watch := by
      obtain rfl | ⟨trivia, rfl⟩ := hrows'
      · rfl
      · exact rows.heads_withLeading trivia
    rw [hsame, creation.node.heads_eq]
    refine List.Sublist.trans (retains_tupleRows hkind hrows) ?_
    have hone : Element.RetainsIn watch creation.node.children [.node initializer] :=
      Element.retainsIn_of_sublist (List.singleton_sublist.2 hmem)
    unfold Element.RetainsIn at hone
    rw [Element.headsIn_node, Element.headsIn_nil, List.append_nil] at hone
    exact hone.trans (List.sublist_append_right _ _)
  -- What is around the rows was read, so it brings no header.
  have htaken := Element.headsIn_eq_nil watch
    (hparts.subset fun _ => List.mem_of_mem_take (i := index))
  have hbefore : Element.headsIn watch before = [] := by
    obtain rfl | rfl := hbefore
    · exact htaken
    · rw [← htaken]
      exact Observer.seeIn_modify _ _ (Observer.seePart_mapLast _
        (Token.trailingOnly_set fun _ => []) _) _ _
  have hafter := Element.headsIn_eq_nil watch
    (hparts.subset fun _ => List.mem_of_mem_drop (i := index + 1))
  unfold Node.Retains
  rw [Node.heads_withTriviaOf, Node.heads_eq, if_neg (by simp [Node.withChildren, htags])]
  simp only [Node.withChildren, List.nil_append, Element.headsIn_append, Element.headsIn_node,
    hbefore, hafter, List.append_nil]
  exact hrows

/-- A value gives way to one that is made of it. -/
theorem retains_replaceTagged {part : Option Tag} {make : Site → Except EditError Node}
    (hclear : t.root.Clear watch Q) (hpart : ∀ x ∈ part, ∀ top : Top, x ∈ top.tags → Q top)
    (hvalue : ∀ x ∈ part, ∀ head ∈ t.root.heads x.bare, head.top.kind.isValue = true)
    (hmake : ∀ s e, make s = .ok e → s.node.Retains watch e)
    (h : replaceTagged part make t = .ok t') : t.root.Retains watch t'.root := by
  obtain rfl | ⟨x, s, e, hx, -, hs, htag, he, hput⟩ := replaceTagged_eq_ok h
  · exact .refl _
  · obtain ⟨-, hat⟩ := Tree.mem_sites_iff.1 hs
    have hm : Q s.node.top := hpart x hx s.node.top htag
    have hkind : s.node.kind.isValue = true :=
      hvalue x hx _ (Node.mem_heads.2 ⟨s.path, s.node, hat, htag, rfl⟩)
    exact hput.retains hat hclear (Node.holds_self hm) (fun _ => Kind.bars_of_isValue hkind)
      (hmake s e he)

theorem retains_reshapeContainer {settings : Settings} {change : ContainerChange}
    (hclear : t.root.Clear watch Q) (hs : s ∈ t.sites)
    (hparts : ∀ x ∈ (Change.container change).partTags, ∀ top : Top, x ∈ top.tags → Q top)
    (hvalue : ∀ x ∈ (Change.container change).partTags, ∀ head ∈ t.root.heads x.bare,
      head.top.kind.isValue = true)
    (h : reshapeContainer settings change s = .ok t') : t.root.Retains watch t'.root := by
  obtain ⟨w, hw, h⟩ := reshapeContainer_eq_ok hs h
  have hcreation : ∀ x ∈ change.creationTag, x ∈ (Change.container change).partTags :=
    fun x hx => List.mem_append_right _ (Option.mem_toList.2 hx)
  have htype : ∀ x ∈ change.typeTag, x ∈ (Change.container change).partTags :=
    fun x hx => List.mem_append_left _ (Option.mem_toList.2 hx)
  have hfirst : ∀ {other}, t.root.Clear other Q → t.root.Retains other w.root :=
    fun hclear => retains_replaceTagged hclear (fun x hx => hparts x (hcreation x hx))
      (fun x hx => hvalue x (hcreation x hx)) (fun _ _ => retains_arrayOf) hw
  refine (hfirst hclear).trans (retains_replaceTagged (hclear.of_retains (hfirst hclear))
    (fun x hx => hparts x (htype x hx)) (fun x hx head hhead => ?_) (fun declared e he => ?_) h)
  · -- the declared type is a value still, since the creation brings no other node with its tag
    have hbare := hfirst (Node.clear_bare x Q t.root)
    exact hvalue x (htype x hx) head (List.Sublist.subset hbare hhead)
  · obtain ⟨read, hread, rfl⟩ := sequenceType_eq_ok he
    have hfresh := Fragment.fresh_of_readType hread
    exact (hfresh.withTriviaOf declared.node).retains declared.node

end Edit

/-! ## Records -/

/-- The tags of the nodes that the edit of a record is made at. -/
def Record.targets (r : Record) : List Tag :=
  match r.change with
  | .container _ => r.change.partTags
  | _ => [r.tag]

/-- True when the edits put an expression or a type in the place of their targets. -/
def RecordKind.putsValue : RecordKind → Bool
  | .callReplacement | .container | .assertion => true
  | _ => false

/-- True for a change of the header of its node. -/
def Change.rewritesHeader : Change → Bool
  | .signature _ | .methodMarker _ (some _) => true
  | _ => false

/-- What the edit of a record needs so that it leaves the heads of the nodes that are watched
    alone. -/
structure Record.LeavesAlone (r : Record) (watch : Watch) (t : Tree) : Prop where
  clear : t.root.Clear watch (Top.Bears r.targets)
  value : r.kind.putsValue = true → ∀ x ∈ r.targets, ∀ head ∈ t.root.heads x.bare,
    head.top.kind.isValue = true
  other : watch.deep = true → r.change.rewritesHeader = true →
    ∀ head ∈ t.root.heads r.tag.bare, watch.tag ∉ head.top.tags

theorem Change.retains_apply {r : Record} {watch : Watch} {t t' : Tree} {s : Site} {settings : Settings}
    (halone : r.LeavesAlone watch t) (hs : s ∈ t.sites) (htag : r.tag ∈ s.node.tags)
    (h : r.change.apply settings s = .ok t') : t.root.Retains watch t'.root := by
  obtain ⟨hclear, hvalue, hother⟩ := halone
  have hhead : s.node.head false ∈ t.root.heads r.tag.bare :=
    Node.mem_heads.2 ⟨s.path, s.node, (Tree.mem_sites_iff.1 hs).2, htag, rfl⟩
  obtain ⟨own, written, change⟩ := r
  -- all but containers are made at their own node
  have hm : s.node.top.Bears [own] := ⟨own, List.mem_singleton_self own, htag⟩
  cases change with
  | exceptionCapture captured body => exact Edit.retains_captureException hclear hs hm h
  | callReplacement text =>
    exact Edit.retains_replaceCall hclear hs hm
      (hvalue rfl own (List.mem_singleton_self own) _ hhead) h
  | container change =>
    refine Edit.retains_reshapeContainer hclear hs (fun x hx top hbears => ?_) (hvalue rfl) h
    exact ⟨x, hx, hbears⟩
  | assertion change =>
    exact Edit.retains_replaceAssertion hclear hs hm
      (hvalue rfl own (List.mem_singleton_self own) _ hhead) h
  | signature change =>
    exact Edit.retains_changeSignature hclear hs hm (fun hdeep => hother hdeep rfl _ hhead) h
  | methodMarker marker returnType =>
    refine Edit.retains_addMethodMarker hclear hs hm (fun hdeep hbears => ?_) h
    cases returnType with
    | none => rfl
    | some type => exact absurd hbears (hother hdeep rfl _ hhead)
  | marker change => exact Edit.retains_changeMarker hclear hs hm h
  | parameterMarker name arguments => exact Edit.retains_changeParameterMarker hclear hs hm h
  | markerRemoval => exact Edit.retains_removeMarker hclear hs hm h
  | baseTypeRemoval type => exact Edit.retains_removeBaseType hclear hs hm h
  | baseTypeAddition type => exact Edit.retains_addBaseType hclear hs hm h
  | classMarker marker => exact Edit.retains_addClassMarker hclear hs hm h
  | memberRemoval name => exact Edit.retains_removeMember hclear hs hm h
  | parameterRemoval name type => exact Edit.retains_removeParameter hclear hs hm h

/-- One record carried out, whether it lands or not. -/
theorem Tree.retains_after_single {r : Record} {watch : Watch} {t : Tree} {settings : Settings}
    (halone : r.LeavesAlone watch t) : t.root.Retains watch (t.after settings [r]).root := by
  by_cases houtcome : r.outcome settings t = .applied
  · obtain ⟨s, hfound, happly⟩ := apply_of_outcome houtcome
    obtain ⟨hs, htag⟩ := findTagged?_mem hfound
    exact Change.retains_apply halone hs (by simpa [Node.hasTag] using htag) happly
  · rw [after_of_outcome houtcome]
    exact .refl _

/-! ## Imports and banner -/

namespace Edit

variable {watch : Watch} {t t' : Tree}

theorem fresh_importDirective {space : String} {directive : Node}
    (h : importDirective space = .ok directive) :
    directive.Fresh ∧ directive.kind = .usingDirective := by
  obtain ⟨name, hname, rfl⟩ := importDirective_eq_ok h
  refine ⟨Node.fresh_ofChildren fun c hc => ?_, rfl⟩
  obtain rfl : c = name := by simpa using hc
  exact Fragment.fresh_of_readName hname

theorem retains_addImport {space : String}
    (hclear : t.root.Clear watch fun top => top.kind = .usingDirective)
    (h : addImport t space = .ok t') : t.root.Retains watch t'.root := by
  obtain ⟨directive, hdirective, honTop |
    ⟨last, owner, index, u, -, -, hu, hc, hlast, hinsert⟩⟩ := addImport_eq_ok h
  all_goals
    obtain ⟨hfresh, hkind⟩ := fresh_importDirective hdirective
    have hplain : ∀ trivia,
        Kind.bars .methodDeclaration (directive.withLeading trivia).kind = false := by
      intro trivia
      rw [(directive.keeps_withLeading trivia).kind_eq, hkind]
      rfl
  · obtain ⟨header, rest, -, hroot⟩ := onTop_eq_ok honTop
    rw [hroot]
    have hmoved : t.root.Retains watch (t.root.withLeading rest) :=
      Node.retains_of_eq (t.root.heads_withLeading _)
    refine hmoved.trans (Node.retains_of_parts rfl (fun _ => Node.head_eq_of_parts rfl ?_) ?_)
    · refine List.filterMap_cons_none ?_
      simp [Element.headerPart?, hplain]
    · exact Element.retainsIn_cons_fresh (hfresh.mapFirst _) (.refl _)
  · have hholds : u.Holds fun top => top.kind = .usingDirective :=
      (Node.holds_self (Q := fun top => top.kind = .usingDirective) hlast).of_child hc
    exact Tree.retains_insert hclear hu hholds (Element.each_single (hfresh.mapFirst _))
      (Element.each_single (hplain _)) hinsert

end Edit

/-- The imports of a file change without any header. -/
theorem ImportDelta.retains_apply {watch : Watch} (delta : ImportDelta) {t : Tree}
    (hclear : t.root.Clear watch fun top => top.kind = .usingDirective) :
    t.root.Retains watch (delta.apply t).1.root := by
  refine ImportDelta.apply_induction (P := fun w => t.root.Retains watch w.root)
    (fun hs hkind h hw => ?_) (fun h hw => ?_) delta (.refl _)
  · obtain ⟨-, hat⟩ := Tree.mem_sites_iff.1 hs
    exact hw.trans (Tree.retains_remove (hclear.of_retains hw) hat (Node.holds_self hkind) h)
  · exact hw.trans (Edit.retains_addImport (hclear.of_retains hw) h)

/-- After its records a plan changes no header any more. -/
theorem Plan.retains_apply {watch : Watch} {plan : Plan} {settings : Settings} {t : Tree}
    (hclear : (t.after settings plan.ordered).root.Clear watch fun top => top.kind = .usingDirective) :
    (t.after settings plan.ordered).root.Retains watch (plan.apply settings t).tree.root := by
  have hedits : (t.after settings plan.ordered).root.Retains watch
      (plan.applyEdits settings t).tree.root := ImportDelta.retains_apply plan.imports hclear
  simp only [apply]
  split
  · exact hedits.trans (Node.retains_of_eq (Node.heads_mapFirst (Token.leadingOnly_set _) _))
  · exact hedits

end Recast
