-- SUMMARY: What the edits of a migration do to bound trees: those that put an expression in the place of another may leave a suffix behind something that is not primary, the others keep every suffix bound.
import Recast.Proofs.Edit.Effects
import Recast.Proofs.Tree.Binding

/-! # Edits and suffixes

Most edits change lists, headers and statements, where no suffix follows. An edit of a call or of a
container puts one expression in the place of another, and a suffix may follow that one. Then it
matters whether the new expression is primary. -/

namespace Recast

open Element (BoundIn)

/-! ## Fragments -/

namespace Fragment

variable {source : String} {n : Node}

theorem bound_of_readAll {p : Grammar → Parser Node} {w l : Nat}
    (hp : ∀ {g : Grammar}, g.Sound → Parser.Makes 0 w l (p g))
    (h : Grammar.readAll p source = .ok n) : n.Bound := by
  have hread : (do return [← Grammar.readAll p source]) = .ok [n] := by
    rw [h]
    rfl
  exact ((readFrom_single hp hread).built n (List.mem_singleton_self n)).bound

theorem bound_of_readExpression (h : readExpression source = .ok n) : n.Bound :=
  bound_of_readAll (fun hg => hg.expression) h

theorem bound_of_readType (h : readType source = .ok n) : n.Bound :=
  bound_of_readAll (fun hg => hg.type) h

theorem bound_of_readName (h : readName source = .ok n) : n.Bound :=
  bound_of_readAll Grammar.makes_typeName h

theorem bound_of_readAttribute (h : readAttribute source = .ok n) : n.Bound :=
  bound_of_readAll Grammar.makes_attributeOf h

theorem bound_of_readAttributeList (h : readAttributeList source = .ok n) : n.Bound :=
  bound_of_readAll Grammar.makes_attributeList h

end Fragment

/-! ## The parts of an edit -/

namespace Edit

variable {t t' : Tree} {s : Site}

/-- A node that is not primary gives way to another. -/
theorem keeps_replaceAt {r : Node} (hs : s ∈ t.sites) (hp : s.path ≠ [])
    (hkind : s.kind.isPrimary = false) (hr : r.Bound) (h : replaceAt s r = .ok t') :
    t.root.Keeps t'.root := by
  obtain ⟨rfl, hat⟩ := Tree.mem_sites_iff.1 hs
  refine Tree.keeps_replaceMany hp hat hkind (fun e he => ?_) (onTree_eq_ok h)
  obtain rfl := List.mem_singleton.1 he
  exact (r.keeps_withTriviaOf s.node).bound hr

/-! ## Removals -/

/-- An item of a list goes, and the list stays. -/
theorem keeps_removeItem {kind : Kind} {list : Site} (hs : s ∈ t.sites)
    (hlist : parentOf s kind = .ok list) (hkind : kind.isSuffixed = false)
    (h : t.removeItem s.path = .ok t') : t.root.Keeps t'.root := by
  obtain ⟨hat, hlistKind, i, hpath, -⟩ := child_of_parentOf hs hlist
  rw [hpath] at h
  exact Tree.keeps_removeItem hat (hlistKind ▸ hkind) h

theorem keeps_removeMarker (hs : s ∈ t.sites) (h : removeMarker s = .ok t') :
    t.root.Keeps t'.root := by
  obtain ⟨-, list, hlist, hitem | ⟨-, option, hremove⟩⟩ := removeMarker_eq_ok hs h
  · exact keeps_removeItem hs hlist rfl hitem
  · obtain ⟨hat, hkind, -⟩ := child_of_parentOf hs hlist
    exact Tree.keeps_remove hat (by rw [hkind]; rfl) hremove

theorem keeps_removeBaseType (hs : s ∈ t.sites) (h : removeBaseType s = .ok t') :
    t.root.Keeps t'.root := by
  obtain ⟨-, list, hlist, hitem | ⟨-, w, hw, hremove⟩⟩ := removeBaseType_eq_ok hs h
  · exact keeps_removeItem hs hlist rfl hitem
  · obtain ⟨hat, hkind, -⟩ := child_of_parentOf hs hlist
    have hnear : t.root.Keeps w.root ∧ w.root.shape = t.root.shape := by
      refine Tree.keeps_updateNear ?_ hat hw
      intro u
      rfl
    -- the list stands where it stood, with other trivia before it
    obtain ⟨v, hv, hshape⟩ := Node.exists_at?_of_shape hnear.2.symm hat
    refine hnear.1.trans (Tree.keeps_remove hv ?_ hremove)
    rw [← Node.kind_eq_of_shape hshape, hkind]
    rfl

theorem not_primary_of_isMember {kind : Kind} (h : kind.isMember = true) :
    kind.isPrimary = false := by
  cases kind <;> first | rfl | cases h

theorem keeps_removeMember (hs : s ∈ t.sites) (h : removeMember s = .ok t') :
    t.root.Keeps t'.root := by
  obtain ⟨hmember, hremove⟩ := removeMember_eq_ok hs h
  exact Tree.keeps_remove (Tree.mem_sites_iff.1 hs).2 (not_primary_of_isMember hmember) hremove

theorem keeps_removeParameter (hs : s ∈ t.sites) (h : removeParameter s = .ok t') :
    t.root.Keeps t'.root := by
  obtain ⟨list, hlist, hitem⟩ := removeParameter_eq_ok hs h
  exact keeps_removeItem hs hlist rfl hitem

/-! ## Changed markers -/

theorem keeps_replaceMarker {name : String} {edit : ArgumentEdit} {r : Node} (hs : s ∈ t.sites)
    (hp : s.path ≠ []) (hr : renamed name edit s = .ok r) (h : replaceAt s r = .ok t') :
    t.root.Keeps t'.root := by
  obtain ⟨hkind, code, hread⟩ := renamed_eq_ok hr
  refine keeps_replaceAt hs hp ?_ (Fragment.bound_of_readAttribute hread) h
  rw [Site.kind, hkind]
  rfl

theorem bound_companyOf {list : Node} {additional : List ExtraMarker} {company : List Node}
    (h : companyOf list additional = .ok company) : ∀ r ∈ company, r.Bound := by
  intro r hr
  obtain ⟨code, read, hread, ⟨lead, trail, rfl⟩ | ⟨trail, rfl⟩⟩ := companyOf_eq_ok h r hr
  · exact ((read.keeps_withLeading _).trans (Node.keeps_withTrailing _ _)).bound
      (Fragment.bound_of_readAttributeList hread)
  · exact (read.keeps_withTrailing _).bound (Fragment.bound_of_readAttributeList hread)

theorem keeps_changeMarker {change : MarkerChange} (hs : s ∈ t.sites) (hp : s.path ≠ [])
    (h : changeMarker change s = .ok t') : t.root.Keeps t'.root := by
  obtain ⟨r, hr, halone | ⟨owner, index, i, list, company, w, u, u', -, hcompany, hw, hinsert, -⟩⟩ :=
    changeMarker_eq_ok hs h
  · exact keeps_replaceMarker hs hp hr halone
  · refine (keeps_replaceMarker hs hp hr hw).trans ?_
    refine Tree.keeps_insert (fun _ _ _ => index.succ_pos) (fun c hc => ?_) hinsert
    obtain ⟨r, hr, hrc⟩ := List.mem_map.1 hc
    obtain rfl := Element.node.inj hrc
    exact bound_companyOf hcompany r hr

theorem keeps_changeParameterMarker {name : String} {edit : ArgumentEdit} (hs : s ∈ t.sites)
    (hp : s.path ≠ []) (h : changeParameterMarker name edit s = .ok t') : t.root.Keeps t'.root := by
  obtain ⟨r, hr, h⟩ := changeParameterMarker_eq_ok h
  exact keeps_replaceMarker hs hp hr h

/-! ## Method headers -/

theorem boundIn_replaceModifiers {index : Nat} {old new : List Token} {es : List Element}
    (h : BoundIn es) : BoundIn (replaceModifiers index old new es) := by
  have hmodifiers : ∀ ts : List Token, (Node.ofChildren .modifiers (ts.map .token)).Bound :=
    fun ts => Node.bound_ofChildren rfl (Element.boundIn_tokens ts)
  obtain ⟨ts, heq, -⟩ | ⟨type, htype, -, -, heq⟩ := replaceModifiers_cases index old new es
  · rw [heq]
    exact h.set (hmodifiers ts) _
  · rw [heq]
    refine BoundIn.set (h.set ?_ _) (hmodifiers _) _
    exact (type.keeps_withLeading _).bound (h type (List.mem_of_getElem? htype))

theorem boundIn_setReturnType {index : Nat} {make : Node → Except EditError (Option Node)}
    {es es' : List Element} (hmake : ∀ current type, make current = .ok (some type) → type.Bound)
    (hes : BoundIn es) (h : setReturnType index make es = .ok es') : BoundIn es' := by
  obtain ⟨current, -, rfl | ⟨type, htype, rfl⟩⟩ := setReturnType_eq_ok h
  · exact hes
  · exact hes.set ((type.keeps_withTriviaOf current).bound (hmake current type htype)) _

theorem keeps_changeHeader {settings : Settings} {change : SignatureChange} {method method' : Node}
    (hkind : method.kind = .methodDeclaration)
    (h : changeHeader settings change method = .ok method') : method.Keeps method' := by
  obtain ⟨index, c, es, -, -, hes, rfl⟩ := changeHeader_eq_ok h
  refine Node.keeps_withChildren (by rw [hkind]; rfl) fun hbound => ?_
  refine boundIn_setReturnType (fun current type htype => ?_)
    (boundIn_replaceModifiers hbound.children) hes
  obtain ⟨text, -, hread⟩ := mapM_returnTypeOf_eq_ok htype
  exact Fragment.bound_of_readType hread

theorem keeps_changeSignature {settings : Settings} {change : SignatureChange} (hs : s ∈ t.sites)
    (h : changeSignature settings change s = .ok t') : t.root.Keeps t'.root := by
  obtain ⟨hkind, rfl | ⟨method, hmethod, hput⟩⟩ := changeSignature_eq_ok hs h
  · exact .refl _
  · exact (keeps_changeHeader hkind hmethod).put (Tree.mem_sites_iff.1 hs).2 hput

/-! ## New markers and base types -/

theorem keeps_onNewLine {list declaration : Node} (hkind : declaration.kind.isSuffixed = false)
    (hlist : list.Bound) (lead indent : List Trivia) :
    declaration.Keeps (putMarker.onNewLine list declaration lead indent) := by
  have hbelow := declaration.keeps_withLeading indent
  refine hbelow.trans (Node.keeps_withChildren (by rw [hbelow.kind_eq]; exact hkind) ?_)
  refine fun hbound => Element.boundIn_cons ?_ hbound.children
  exact ((list.keeps_withLeading _).trans (Node.keeps_withTrailing _ _)).bound hlist

theorem keeps_putMarker {list method : Node} (hkind : method.kind.isSuffixed = false)
    (hlist : list.Bound) : method.Keeps (putMarker list method) := by
  obtain heq | ⟨first, rest, hchildren, -, heq⟩ := putMarker_cases list method
  · rw [heq]
    exact keeps_onNewLine hkind hlist _ _
  · rw [heq]
    refine Node.keeps_withChildren hkind fun hbound => ?_
    have hparts : BoundIn (.node first :: rest) := hchildren ▸ hbound.children
    refine Element.boundIn_cons ?_ (Element.boundIn_cons ?_ ?_)
    · exact ((list.keeps_withLeading _).trans (Node.keeps_withTrailing _ _)).bound hlist
    · exact (first.keeps_withLeading _).bound (hparts first (List.mem_cons_self ..))
    · exact hparts.of_subset fun e he => List.mem_cons_of_mem _ he

theorem keeps_addMethodMarker {marker : String} {returnType : Option String} (hs : s ∈ t.sites)
    (h : addMethodMarker marker returnType s = .ok t') : t.root.Keeps t'.root := by
  obtain ⟨hkind, list, hlist, hput⟩ := addMethodMarker_eq_ok hs h
  obtain ⟨-, hat⟩ := Tree.mem_sites_iff.1 hs
  have hmarked : s.node.Keeps (putMarker list s.node) := keeps_putMarker (by rw [hkind]; rfl)
    (Fragment.bound_of_readAttributeList (markerList_eq_ok hlist))
  obtain ⟨-, hput⟩ | ⟨text, type, index, es, -, hread, -, hes, hput⟩ := hput
  · exact hmarked.put hat hput
  · refine (hmarked.trans (Node.keeps_withChildren ?_ fun hbound => ?_)).put hat hput
    · rw [hmarked.kind_eq, hkind]
      rfl
    · refine boundIn_setReturnType (fun current made hmade => ?_) hbound.children hes
      obtain rfl := Option.some.inj (Except.ok.inj hmade)
      exact Fragment.bound_of_readType hread

theorem not_suffixed_of_isTypeDeclaration {kind : Kind} (h : kind.isTypeDeclaration = true) :
    kind.isSuffixed = false := by
  cases kind <;> first | rfl | cases h

theorem keeps_putClassMarker {list declaration : Node}
    (hkind : declaration.kind.isSuffixed = false) (hlist : list.Bound) :
    declaration.Keeps (putClassMarker list declaration) := by
  obtain heq | ⟨index, heq⟩ := putClassMarker_cases list declaration
  · rw [heq]
    exact keeps_onNewLine hkind hlist _ _
  · rw [heq]
    refine Node.keeps_withChildren hkind fun hbound => ?_
    refine Element.boundIn_append (hbound.children.of_subset fun _ => List.mem_of_mem_take) ?_
    refine Element.boundIn_cons ?_ (hbound.children.of_subset fun _ => List.mem_of_mem_drop)
    exact ((list.keeps_withLeading _).trans (Node.keeps_withTrailing _ _)).bound hlist

theorem keeps_addClassMarker {marker : String} (hs : s ∈ t.sites)
    (h : addClassMarker marker s = .ok t') : t.root.Keeps t'.root := by
  obtain ⟨hkind, list, hlist, hput⟩ := addClassMarker_eq_ok hs h
  exact (keeps_putClassMarker (not_suffixed_of_isTypeDeclaration hkind)
    (Fragment.bound_of_readAttributeList (markerList_eq_ok hlist))).put (Tree.mem_sites_iff.1 hs).2 hput

theorem keeps_extendBaseList {base list : Node} (hkind : list.kind = .baseList)
    (hbase : base.Bound) : list.Keeps (extendBaseList base list) := by
  have hclosed := list.keeps_withTrailing []
  refine hclosed.trans (Node.keeps_withChildren (by rw [hclosed.kind_eq, hkind]; rfl) ?_)
  refine fun hbound => Element.boundIn_append hbound.children (Element.boundIn_token ?_)
  exact Element.boundIn_cons ((base.keeps_withTrailing _).bound hbase)
    Element.boundIn_nil

theorem keeps_insertBaseList {base declaration declaration' : Node}
    (hkind : declaration.kind.isSuffixed = false) (hbase : base.Bound)
    (h : insertBaseList base declaration = .ok declaration') : declaration.Keeps declaration' := by
  obtain ⟨index, anchor, hanchor, -, rfl⟩ := insertBaseList_eq_ok h
  refine Node.keeps_withChildren hkind fun hbound => ?_
  have hanchor : BoundIn [anchor] := hbound.children.of_subset fun e he => by
    obtain rfl := List.mem_singleton.1 he
    exact List.mem_of_getElem? hanchor
  have hlist : (Node.ofChildren .baseList [.token (Token.ofMark ":" [Trivia.space]),
      .node base]).Bound :=
    Node.bound_ofChildren rfl
      (Element.boundIn_token (Element.boundIn_cons hbase Element.boundIn_nil))
  refine Element.boundIn_append (hbound.children.of_subset fun _ => List.mem_of_mem_take) ?_
  rw [← List.singleton_append]
  refine Element.boundIn_append (hanchor.of_shapesIn ?_) (Element.boundIn_cons ?_ ?_)
  · rw [Element.shapesIn_cons, Element.shapesIn_cons, Element.shape_mapLast]
    intro u
    rfl
  · exact (Node.keeps_withTrailing _ _).bound hlist
  · exact hbound.children.of_subset fun _ => List.mem_of_mem_drop

theorem keeps_addBaseType {type : String} (hs : s ∈ t.sites) (h : addBaseType type s = .ok t') :
    t.root.Keeps t'.root := by
  obtain ⟨hkind, read, hread, hput⟩ := addBaseType_eq_ok hs h
  obtain ⟨-, hat⟩ := Tree.mem_sites_iff.1 hs
  have hsuffix := not_suffixed_of_isTypeDeclaration hkind
  have hbase : (Node.ofChildren .baseType [.node read]).Bound :=
    Node.bound_ofChildren rfl (Element.boundIn_cons (Fragment.bound_of_readType hread)
      Element.boundIn_nil)
  obtain ⟨-, rfl⟩ | ⟨-, ⟨i, list, hc, hlist, hput⟩ | ⟨declaration, hinsert, hput⟩⟩ := hput
  · exact .refl _
  · refine (Node.keeps_withChildren hsuffix fun hbound => hbound.children.set ?_ _).put hat hput
    exact (keeps_extendBaseList hlist hbase).bound (hbound.child (List.mem_of_getElem? hc))
  · exact (keeps_insertBaseList hsuffix hbase hinsert).put hat hput

/-! ## Captured exceptions -/

theorem forall_mem_modify {α : Type} {P : α → Prop} {f : α → α} (hf : ∀ x, P x → P (f x))
    {xs : List α} (h : ∀ x ∈ xs, P x) (i : Nat) : ∀ x ∈ xs.modify i f, P x := by
  intro x hx
  obtain ⟨j, hj⟩ := List.mem_iff_getElem?.1 hx
  rw [List.getElem?_modify] at hj
  obtain ⟨y, hy, rfl⟩ := Option.map_eq_some_iff.1 hj
  have hy := h y (List.mem_of_getElem? hy)
  split
  · exact hf y hy
  · exact hy

/-- What trivia at the ends does not change is true of a run of nodes with other trivia. -/
theorem forall_mem_runWithTriviaOf {P : Node → Prop} {n : Node}
    (hleading : ∀ r : Node, P r → P (r.withLeading n.leading))
    (htrailing : ∀ r : Node, P r → P (r.withTrailing n.trailing)) {rs : List Node}
    (h : ∀ r ∈ rs, P r) : ∀ r ∈ runWithTriviaOf n rs, P r := by
  cases rs with
  | nil => exact h
  | cons first rest =>
    have hmodify := forall_mem_modify htrailing h rest.length
    simp only [runWithTriviaOf]
    split
    · simp
    · rename_i first' rest' heq
      rw [heq] at hmodify
      obtain ⟨hfirst, hrest⟩ := List.forall_mem_cons.1 hmodify
      exact List.forall_mem_cons.2 ⟨hleading first' hfirst, hrest⟩

theorem keeps_captureException {settings : Settings} {captured body : String} (hs : s ∈ t.sites)
    (hp : s.path ≠ []) (h : captureException settings captured body s = .ok t') :
    t.root.Keeps t'.root := by
  obtain ⟨hlocal, first, rest, hread, hreplace⟩ := captureException_eq_ok hs h
  obtain ⟨-, hat⟩ := Tree.mem_sites_iff.1 hs
  refine Tree.keeps_replaceMany hp hat (by rw [hlocal]; rfl) ?_ hreplace
  exact forall_mem_runWithTriviaOf (fun r => (r.keeps_withLeading _).bound)
    (fun r => (r.keeps_withTrailing _).bound)
    fun r hr => ((Fragment.readFrom_statements hread).built r hr).bound

/-! ## Expressions in the place of others -/

theorem bound_replaceAt_iff {e : Node} (hs : s ∈ t.sites) (ht : t.root.Bound) (he : e.Bound)
    (h : replaceAt s e = .ok t') : t'.root.Bound ↔ ¬t.root.Loosens s.path e := by
  have htrivia := e.keeps_withTriviaOf s.node
  rw [(put_replaceAt hs h).bound_iff ht (htrivia.bound he), Node.Loosens, htrivia.kind_eq,
    ← Node.Loosens]

/-- A text whose expression is not primary, in the place of a node that a suffix follows. -/
def LoosensCall (text : String) (s : Site) : Prop :=
  ∃ e, Fragment.readExpression (Text.trim text) = .ok e ∧ s.tree.root.Loosens s.path e

theorem bound_replaceCall_iff {text : String} (hs : s ∈ t.sites) (ht : t.root.Bound)
    (h : replaceCall text s = .ok t') : t'.root.Bound ↔ ¬LoosensCall text s := by
  obtain ⟨e, hread, h⟩ := replaceCall_eq_ok h
  rw [bound_replaceAt_iff hs ht (Fragment.bound_of_readExpression hread) h]
  obtain ⟨rfl, -⟩ := Tree.mem_sites_iff.1 hs
  refine not_congr ⟨fun hloose => ⟨e, hread, hloose⟩, ?_⟩
  rintro ⟨e', hread', hloose⟩
  obtain rfl : e = e' := Except.ok.inj (hread.symm.trans hread')
  exact hloose

/-- Another expression leaves the root as it is, and keeps all suffixes bound unless it loosens
    one. -/
theorem keeps_replaceCall {text : String} (hs : s ∈ t.sites) (hp : s.path ≠ [])
    (h : replaceCall text s = .ok t') :
    (t'.root.kind = t.root.kind ∧ t'.root.tags = t.root.tags) ∧
      (¬LoosensCall text s → t.root.Keeps t'.root) := by
  obtain ⟨e, -, hreplace⟩ := replaceCall_eq_ok h
  have htop := (put_replaceAt hs hreplace).top_eq hp
  exact ⟨htop, fun hloose => ⟨htop.1, htop.2, fun ht => (bound_replaceCall_iff hs ht h).2 hloose⟩⟩

theorem exists_replaceCall {text : String} (hs : s ∈ t.sites) (h : LoosensCall text s) :
    ∃ w, replaceCall text s = .ok w := by
  obtain ⟨e, hread, -⟩ := h
  obtain ⟨rfl, hat⟩ := Tree.mem_sites_iff.1 hs
  obtain ⟨w, hw⟩ := Tree.exists_replace hat (e.withTriviaOf s.node)
  refine ⟨w, ?_⟩
  simp only [replaceCall, replacementOf, reading, hread, Except.mapError, replaceAt, onTree, hw,
    bind, Except.bind]

/-- A remark changes trivia only. -/
theorem exists_replaceCall_of_replaceAssertion {change : AssertionChange} (hs : s ∈ t.sites)
    (h : replaceAssertion change s = .ok t') :
    ∃ w, replaceCall change.replacement s = .ok w ∧ w.root.Keeps t'.root ∧
      t'.root.shape = w.root.shape := by
  obtain ⟨e, w, -, hw, rfl | ⟨remark, p, q, u, u', -, -, -, -, hupdate, -⟩⟩ :=
    replaceAssertion_eq_ok hs h
  · exact ⟨t', hw, .refl _, rfl⟩
  · obtain ⟨m, m', hat, hok, hput⟩ := Tree.put_of_tryUpdate hupdate
    obtain rfl := Except.ok.inj hok
    exact ⟨w, hw, (m.keeps_withLeading _).put hat hput,
      Node.shape_eq_of_put hat (m.shape_withLeading _) hput⟩

theorem exists_replaceAssertion {change : AssertionChange} (hs : s ∈ t.sites)
    (h : LoosensCall change.replacement s) : ∃ t', replaceAssertion change s = .ok t' := by
  obtain ⟨w, hw⟩ := exists_replaceCall hs h
  obtain ⟨e, -, hreplace⟩ := replaceCall_eq_ok hw
  have hput := put_replaceAt hs hreplace
  simp only [replaceAssertion, hw, bind, Except.bind]
  split
  · rename_i remark statement _ hstatement
    -- the statement stands on the way to the call, so it is still there
    obtain ⟨-, -, q, hq⟩ := Site.ancestorWhere?_mem hs hstatement
    rw [hq] at hput
    obtain ⟨m, hm⟩ := hput.exists_at?
    obtain ⟨t', ht'⟩ : ∃ t', w.update statement.path (withRemark remark) = .ok t' :=
      Tree.exists_tryUpdate hm rfl
    exact ⟨t', by rw [ht']; rfl⟩
  · exact ⟨w, rfl⟩

/-! ## Containers -/

theorem bound_tupleRow {e e' : Element} (he : BoundIn [e]) (h : tupleRow e = .ok e') :
    BoundIn [e'] := by
  obtain rfl | ⟨row, tuple, text, rfl, hread, rfl⟩ := tupleRow_eq_ok h
  · exact he
  · exact Element.boundIn_cons
      ((tuple.keeps_withTriviaOf row).bound (Fragment.bound_of_readExpression hread))
      Element.boundIn_nil

theorem boundIn_tupleRows {xs ys : List Element} (hx : BoundIn xs)
    (h : xs.mapM tupleRow = .ok ys) : BoundIn ys := by
  have hrows : ∀ e ∈ ys, BoundIn [e] := forall_of_mapM (fun e he _ =>
    bound_tupleRow (hx.of_subset fun _ h => List.mem_singleton.1 h ▸ he)) h
  exact fun n hn => hrows _ hn n (List.mem_singleton_self _)

theorem keeps_tupleRows {rows rows' : Node} (hkind : rows.kind = .initializerExpression)
    (h : tupleRows rows = .ok rows') : rows.Keeps rows' := by
  obtain ⟨es, hes, rfl⟩ := tupleRows_eq_ok h
  exact Node.keeps_withChildren (by rw [hkind]; rfl) fun hbound =>
    boundIn_tupleRows hbound.children hes

/-- Up to trivia, the rows stand where the initializer of the array stood. -/
theorem bound_withRows {array c rows : Node} {index : Nat} {before : List Element}
    (harray : array.Bound) (hc : array.children[index]? = some (.node c)) (hrows : rows.Bound)
    (hkind : rows.kind = .initializerExpression)
    (hbefore : Element.shapesIn before = Element.shapesIn (array.children.take index)) :
    (array.withChildren (before ++ .node rows :: array.children.drop (index + 1))).Bound := by
  have hset : (array.withChildren (array.children.set index (.node rows))).Bound := by
    refine (Node.bound_set_child harray hc).2 ⟨hrows, fun _ => ?_⟩
    rw [hkind]
    rfl
  have hlt : index < array.children.length := (List.getElem?_eq_some_iff.1 hc).1
  refine hset.of_shape ?_
  rw [Node.shape_eq, Node.shape_eq]
  refine congrArg _ ?_
  simp only [Node.withChildren]
  rw [List.set_eq_take_append_cons_drop, if_pos hlt, Element.shapesIn_append,
    Element.shapesIn_append, hbefore]

theorem bound_arrayOf {settings : Settings} {element : String} {creation : Site} {e : Node}
    (hcreation : creation.node.Bound) (h : arrayOf settings element creation = .ok e) :
    e.Bound := by
  obtain ⟨initializer, rows, rows', array, index, c, before, hmem, hkind, hrows, hplaced, harray, hc,
    hbefore, rfl⟩ := arrayOf_eq_ok h
  have hrows := keeps_tupleRows hkind hrows
  have hplaced : rows.Keeps rows' := by
    obtain rfl | ⟨trivia, rfl⟩ := hplaced
    · exact .refl _
    · exact rows.keeps_withLeading trivia
  refine (Node.keeps_withTriviaOf _ _).bound (bound_withRows
    (Fragment.bound_of_readExpression harray) hc (hplaced.bound (hrows.bound (hcreation.child hmem)))
    ?_ ?_)
  · rw [hplaced.kind_eq, hrows.kind_eq, hkind]
  · obtain rfl | rfl := hbefore
    · rfl
    · refine Element.shapesIn_modify_mapLast ?_ _ _
      intro u
      rfl

/-- A root without tags is not what a tag names. -/
theorem path_ne_nil_of_findTagged? {tag : Tag} (hroot : t.root.tags = [])
    (h : t.findTagged? tag = some s) : s.path ≠ [] := by
  intro hpath
  obtain ⟨hs, htag⟩ := Tree.findTagged?_mem h
  obtain ⟨-, hat⟩ := Tree.mem_sites_iff.1 hs
  rw [hpath] at hat
  rw [← Option.some.inj hat, hroot] at htag
  cases htag

/-- What a reader makes is not primary, and a suffix follows the node with the tag. -/
def LoosensTagged (tag : Option Tag) (make : Site → Except EditError Node) (t : Tree) : Prop :=
  ∃ s e, tag.bind t.findTagged? = some s ∧ make s = .ok e ∧ t.root.Loosens s.path e

theorem keeps_replaceTagged {tag : Option Tag} {make : Site → Except EditError Node}
    (hroot : t.root.tags = [])
    (hmake : ∀ s e, s ∈ t.sites → t.root.Bound → make s = .ok e → e.Bound)
    (h : replaceTagged tag make t = .ok t') :
    (t'.root.kind = t.root.kind ∧ t'.root.tags = t.root.tags) ∧
      (¬LoosensTagged tag make t → t.root.Keeps t'.root) := by
  obtain rfl | ⟨x, s, e, hx, hfound, hs, -, he, hput⟩ := replaceTagged_eq_ok h
  · exact ⟨⟨rfl, rfl⟩, fun _ => .refl _⟩
  · have htop := hput.top_eq (path_ne_nil_of_findTagged? hroot hfound)
    refine ⟨htop, fun hloose => ⟨htop.1, htop.2, fun ht => ?_⟩⟩
    refine (hput.bound_iff ht (hmake s e hs ht he)).2 fun h => hloose ⟨s, e, ?_, he, h⟩
    rw [Option.mem_def.1 hx]
    exact hfound

/-- One of the two parts of a container gives way to something that is not primary, where a suffix
    follows. -/
def LoosensContainer (settings : Settings) (change : ContainerChange) (t : Tree) : Prop :=
  LoosensTagged change.creationTag (arrayOf settings change.element) t ∨
    ∃ w, replaceTagged change.creationTag (arrayOf settings change.element) t = .ok w ∧
      LoosensTagged change.typeTag (sequenceType change) w

theorem keeps_reshapeContainer {settings : Settings} {change : ContainerChange} (hs : s ∈ t.sites)
    (hroot : t.root.tags = []) (h : reshapeContainer settings change s = .ok t') :
    (t'.root.kind = t.root.kind ∧ t'.root.tags = t.root.tags) ∧
      (¬LoosensContainer settings change t → t.root.Keeps t'.root) := by
  obtain ⟨w, hw, h⟩ := reshapeContainer_eq_ok hs h
  obtain ⟨⟨hkind, htags⟩, hkeeps⟩ := keeps_replaceTagged hroot (fun creation e hc ht he =>
    bound_arrayOf (ht.at? (Tree.mem_sites_iff.1 hc).2) he) hw
  obtain ⟨⟨hkind', htags'⟩, hkeeps'⟩ := keeps_replaceTagged (htags.trans hroot)
    (fun declared e _ _ he => by
      obtain ⟨read, hread, rfl⟩ := sequenceType_eq_ok he
      exact (read.keeps_withTriviaOf _).bound (Fragment.bound_of_readType hread)) h
  refine ⟨⟨hkind'.trans hkind, htags'.trans htags⟩, fun hloose => ?_⟩
  obtain ⟨hfirst, hsecond⟩ := not_or.1 hloose
  exact (hkeeps hfirst).trans (hkeeps' fun hloose => hsecond ⟨w, hw, hloose⟩)

end Edit

/-! ## Changes and records -/

/-- A change puts something that is not primary where a suffix follows. -/
def Change.Loosens (settings : Settings) (s : Site) : Change → Prop
  | .callReplacement text => Edit.LoosensCall text s
  | .assertion change => Edit.LoosensCall change.replacement s
  | .container change => Edit.LoosensContainer settings change s.tree
  | _ => False

namespace Change

variable {t t' : Tree} {s : Site} {settings : Settings}

/-- A change keeps the root, and all suffixes bound unless it loosens one. -/
theorem apply_eq_ok {c : Change} (hs : s ∈ t.sites) (hp : s.path ≠ []) (hroot : t.root.tags = [])
    (h : c.apply settings s = .ok t') :
    (t'.root.kind = t.root.kind ∧ t'.root.tags = t.root.tags) ∧
      (¬c.Loosens settings s → t.root.Keeps t'.root) := by
  have hkeeps : t.root.Keeps t'.root → (t'.root.kind = t.root.kind ∧ t'.root.tags = t.root.tags) ∧
      (¬c.Loosens settings s → t.root.Keeps t'.root) := by
    intro h
    exact ⟨⟨h.kind_eq, h.tags_eq⟩, fun _ => h⟩
  cases c with
  | exceptionCapture captured body => exact hkeeps (Edit.keeps_captureException hs hp h)
  | callReplacement text =>
    -- Calls, containers and assertions put expressions where they may be too loose.
    exact Edit.keeps_replaceCall hs hp h
  | container change =>
    have hcontainer := Edit.keeps_reshapeContainer hs hroot h
    obtain ⟨rfl, -⟩ := Tree.mem_sites_iff.1 hs
    exact hcontainer
  | assertion change =>
    obtain ⟨w, hw, hremark, -⟩ := Edit.exists_replaceCall_of_replaceAssertion hs h
    obtain ⟨⟨hkind, htags⟩, hcall⟩ := Edit.keeps_replaceCall hs hp hw
    exact ⟨⟨hremark.kind_eq.trans hkind, hremark.tags_eq.trans htags⟩,
      fun hloose => (hcall hloose).trans hremark⟩
  | signature change => exact hkeeps (Edit.keeps_changeSignature hs h)
  | methodMarker marker returnType => exact hkeeps (Edit.keeps_addMethodMarker hs h)
  | marker change => exact hkeeps (Edit.keeps_changeMarker hs hp h)
  | parameterMarker name arguments => exact hkeeps (Edit.keeps_changeParameterMarker hs hp h)
  | markerRemoval => exact hkeeps (Edit.keeps_removeMarker hs h)
  | baseTypeRemoval type => exact hkeeps (Edit.keeps_removeBaseType hs h)
  | baseTypeAddition type => exact hkeeps (Edit.keeps_addBaseType hs h)
  | classMarker marker => exact hkeeps (Edit.keeps_addClassMarker hs h)
  | memberRemoval name => exact hkeeps (Edit.keeps_removeMember hs h)
  | parameterRemoval name type => exact hkeeps (Edit.keeps_removeParameter hs h)

/-- The changes of calls. -/
def text? : Change → Option String
  | .callReplacement text => some text
  | .assertion change => some change.replacement
  | _ => none

/-- A change of a call that loosens a suffix is carried out, and the suffix is loose. -/
theorem exists_apply_of_loosens {c : Change} {text : String} (hs : s ∈ t.sites)
    (ht : t.root.Bound) (hc : c.text? = some text) (hloose : c.Loosens settings s) :
    ∃ t', c.apply settings s = .ok t' ∧ ¬t'.root.Bound := by
  cases c with
  | callReplacement text =>
    obtain ⟨t', ht'⟩ := Edit.exists_replaceCall hs hloose
    exact ⟨t', ht', fun h => (Edit.bound_replaceCall_iff hs ht ht').1 h hloose⟩
  | assertion change =>
    obtain ⟨t', ht'⟩ := Edit.exists_replaceAssertion hs hloose
    obtain ⟨w, hw, -, hshape⟩ := Edit.exists_replaceCall_of_replaceAssertion hs ht'
    exact ⟨t', ht', fun h => (Edit.bound_replaceCall_iff hs ht hw).1 (h.of_shape hshape) hloose⟩
  | _ => cases hc

end Change

end Recast
