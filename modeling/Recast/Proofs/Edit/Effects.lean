-- SUMMARY: What each edit has done when it is carried out: the checks that it passed, the texts that it read, and the node that it put in the place of another.
import Recast.Plan.Apply
import Recast.Proofs.Tree.Putting

/-! # Effects of edits

An edit looks up its parts, reads its texts and then changes the tree. That it was carried out says
that all of this went well, and leaves a tree with other nodes put into the old one. Each edit has
one lemma that says so (`…_eq_ok`). What holds of edits is proved from the nodes that were read and
put, so how an edit goes about its work matters here alone. -/

namespace Recast

theorem Except.mapError_eq_ok {ε ε' α : Type} {f : ε → ε'} {x : Except ε α} {a : α}
    (h : x.mapError f = .ok a) : x = .ok a := by
  cases x with
  | error e => cases h
  | ok b => exact congrArg Except.ok (Except.ok.inj h)

theorem forall_of_mapM {ε α β : Type} {f : α → Except ε β} {P : β → Prop} {as : List α}
    {bs : List β} (hf : ∀ a ∈ as, ∀ b, f a = .ok b → P b) (h : as.mapM f = .ok bs) :
    ∀ b ∈ bs, P b := by
  induction as generalizing bs with
  | nil =>
    obtain rfl := Except.ok.inj h
    simp
  | cons a as ih =>
    rw [List.mapM_cons] at h
    obtain ⟨b, hb, h⟩ := ok_of_bind h
    obtain ⟨rest, hrest, h⟩ := ok_of_bind h
    obtain rfl := Except.ok.inj h
    obtain ⟨hfirst, hothers⟩ := List.forall_mem_cons.1 hf
    exact List.forall_mem_cons.2 ⟨hfirst b hb, ih hothers hrest⟩

/-! ## Parts that are looked up -/

theorem Element.getElem?_of_bind_node? {es : List Element} {i : Nat} {n : Node}
    (h : es[i]?.bind node? = some n) : es[i]? = some (.node n) := by
  obtain ⟨e, he, hn⟩ := Option.bind_eq_some_iff.1 h
  cases e with
  | token u => cases hn
  | node m =>
    obtain rfl := Option.some.inj hn
    exact he

namespace Node

variable {n c : Node} {kind : Kind}

theorem child?_eq_some (h : n.child? kind = some c) : .node c ∈ n.children ∧ c.kind = kind := by
  have hkind := List.find?_some h
  obtain ⟨e, he, hc⟩ := List.mem_filterMap.1 (List.mem_of_find?_eq_some h)
  cases e with
  | token u => cases hc
  | node m =>
    obtain rfl := Option.some.inj hc
    exact ⟨he, eq_of_beq hkind⟩

theorem indexOf?_eq_some {i : Nat} (h : n.indexOf? kind = some i) :
    ∃ c, n.children[i]? = some (.node c) ∧ c.kind = kind := by
  obtain ⟨hi, hwanted, -⟩ := List.findIdx?_eq_some_iff_getElem.1 h
  cases he : n.children[i] with
  | token u => simp [he, Element.isNode] at hwanted
  | node c =>
    rw [he] at hwanted
    exact ⟨c, List.getElem?_eq_some_iff.2 ⟨hi, he⟩, eq_of_beq hwanted⟩

end Node

/-! ## Checks and readings -/

namespace Edit

variable {t t' : Tree} {s : Site}

theorem requireKind_eq_ok {accept : Kind → Bool} {wanted : String} {u : Unit}
    (h : requireKind s accept wanted = .ok u) : accept s.kind = true := by
  unfold requireKind at h
  split at h
  · assumption
  · cases h

theorem parentOf_eq_ok {kind : Kind} {parent : Site} (hs : s ∈ t.sites)
    (h : parentOf s kind = .ok parent) :
    parent ∈ t.sites ∧ parent.kind = kind ∧ ∃ i, s.path = parent.path ++ [i] := by
  unfold parentOf at h
  split at h
  · rename_i found hfound
    obtain rfl := Except.ok.inj h
    obtain ⟨hparent, hkind⟩ := Option.filter_eq_some_iff.1 hfound
    exact ⟨Site.parent?_mem hs hparent, by simpa using hkind, Site.parent?_path hs hparent⟩
  · cases h

theorem onTree_eq_ok {result : Except TreeError Tree} (h : onTree result = .ok t') :
    result = .ok t' :=
  Except.mapError_eq_ok h

theorem reading_eq_ok {α : Type} {doing text : String} {result : Except ParseError α} {a : α}
    (h : reading doing text result = .ok a) : result = .ok a :=
  Except.mapError_eq_ok h

theorem markerList_eq_ok {marker : String} {list : Node} (h : markerList marker = .ok list) :
    Fragment.readAttributeList s!"[{marker}]" = .ok list :=
  reading_eq_ok h

theorem mapM_returnTypeOf_eq_ok {text? : Option String} {type : Node}
    (h : text?.mapM returnTypeOf = .ok (some type)) :
    ∃ text, text? = some text ∧ Fragment.readType text = .ok type := by
  cases text? with
  | none => cases h
  | some text =>
    obtain ⟨read, hread, h⟩ := ok_of_bind h
    obtain rfl := Option.some.inj (Except.ok.inj h)
    exact ⟨text, rfl, reading_eq_ok hread⟩

/-- What it does to a tree to put an expression in the place of another. -/
theorem put_replaceAt {e : Node} (hs : s ∈ t.sites) (h : replaceAt s e = .ok t') :
    Node.Put (e.withTriviaOf s.node) s.path t.root t'.root := by
  obtain ⟨rfl, hat⟩ := Tree.mem_sites_iff.1 hs
  exact Tree.put_of_replace hat (onTree_eq_ok h)

/-! ## Calls -/

theorem replaceCall_eq_ok {text : String} (h : replaceCall text s = .ok t') :
    ∃ e, Fragment.readExpression (Text.trim text) = .ok e ∧ replaceAt s e = .ok t' := by
  obtain ⟨e, he, h⟩ := ok_of_bind h
  exact ⟨e, reading_eq_ok he, h⟩

/-- The remark goes to a node around the call, after the call has gone: both together are one
    change of that node as it was. -/
theorem replaceAssertion_eq_ok {change : AssertionChange} (hs : s ∈ t.sites)
    (h : replaceAssertion change s = .ok t') :
    ∃ e w, Fragment.readExpression (Text.trim change.replacement) = .ok e ∧
      replaceCall change.replacement s = .ok w ∧ (t' = w ∨
        ∃ remark p q u u', s.path = p ++ q ∧ t.root.at? p = some u ∧ u.at? q = some s.node ∧
          Node.Put (e.withTriviaOf s.node) q u u' ∧
          w.update p (withRemark remark) = .ok t' ∧
          Node.Put (withRemark remark u') p t.root t'.root) := by
  obtain ⟨w, hw, h⟩ := ok_of_bind h
  obtain ⟨e, he, hreplace⟩ := replaceCall_eq_ok hw
  refine ⟨e, w, he, hw, ?_⟩
  split at h
  · rename_i remark statement _ hstatement
    have hupdate := onTree_eq_ok h
    have hput := put_replaceAt hs hreplace
    obtain ⟨-, hat⟩ := Tree.mem_sites_iff.1 hs
    obtain ⟨-, -, q, hq⟩ := Site.ancestorWhere?_mem hs hstatement
    rw [hq] at hput hat
    obtain ⟨u, u', u'', hu, hinner, hok, houter⟩ := Tree.exists_put_around hput hupdate
    obtain rfl := Except.ok.inj hok
    rw [Node.at?_append, hu] at hat
    exact .inr ⟨remark, statement.path, q, u, u', hq, hu, hat, hinner, hupdate, houter⟩
  · exact .inl (Except.ok.inj h).symm

theorem captureException_eq_ok {settings : Settings} {captured body : String} (hs : s ∈ t.sites)
    (h : captureException settings captured body s = .ok t') :
    s.node.kind = .localDeclarationStatement ∧ ∃ first rest,
      Fragment.readStatements (captureSource settings
        (Trivia.indentationText s.node.leading) captured body) = .ok (first :: rest) ∧
      t.replaceMany s.path (runWithTriviaOf s.node (first :: rest)) = .ok t' := by
  obtain ⟨u, hkind, h⟩ := ok_of_bind h
  obtain ⟨statements, hstatements, h⟩ := ok_of_bind h
  obtain ⟨rfl, -⟩ := Tree.mem_sites_iff.1 hs
  refine ⟨eq_of_beq (requireKind_eq_ok hkind), ?_⟩
  cases statements with
  | nil => cases h
  | cons first rest => exact ⟨first, rest, reading_eq_ok hstatements, onTree_eq_ok h⟩

/-! ## Containers -/

theorem tupleRow_eq_ok {e e' : Element} (h : tupleRow e = .ok e') :
    e' = e ∨ ∃ row tuple text, e = .node row ∧ Fragment.readExpression text = .ok tuple ∧
      e' = .node (tuple.withTriviaOf row) := by
  cases e with
  | token u => exact .inl (Except.ok.inj h).symm
  | node row =>
    simp only [tupleRow] at h
    split at h
    · obtain ⟨tuple, htuple, h⟩ := ok_of_bind h
      exact .inr ⟨row, tuple, _, rfl, reading_eq_ok htuple, (Except.ok.inj h).symm⟩
    · exact .inl (Except.ok.inj h).symm

theorem tupleRows_eq_ok {rows rows' : Node} (h : tupleRows rows = .ok rows') :
    ∃ es, rows.children.mapM tupleRow = .ok es ∧ rows' = rows.withChildren es := by
  obtain ⟨es, hes, h⟩ := ok_of_bind h
  exact ⟨es, hes, (Except.ok.inj h).symm⟩

/-- An array that was read, with the rows of the creation in the place of its own. The part in front
    of the rows may lose the trivia at its end, and the rows may get other trivia in front. -/
theorem arrayOf_eq_ok {settings : Settings} {element : String} {creation : Site} {e : Node}
    (h : arrayOf settings element creation = .ok e) :
    ∃ initializer rows rows' array index c before,
      .node initializer ∈ creation.node.children ∧ initializer.kind = .initializerExpression ∧
      tupleRows initializer = .ok rows ∧ (rows' = rows ∨ ∃ trivia, rows' = rows.withLeading trivia) ∧
      Fragment.readExpression s!"new {element}[] \x7b \x7d" = .ok array ∧
      array.children[index]? = some (.node c) ∧
      (before = array.children.take index ∨ before = (array.children.take index).modify (index - 1)
        (·.mapLast fun t => { t with trailing := [] })) ∧
      e = (array.withChildren
        (before ++ .node rows' :: array.children.drop (index + 1))).withTriviaOf creation.node := by
  unfold arrayOf at h
  split at h
  · rename_i initializer hinitializer
    obtain ⟨rows, hrows, h⟩ := ok_of_bind h
    obtain ⟨array, harray, h⟩ := ok_of_bind h
    split at h
    · rename_i index hindex
      obtain ⟨hmem, hkind⟩ := Node.child?_eq_some hinitializer
      obtain ⟨c, hc, -⟩ := Node.indexOf?_eq_some hindex
      refine ⟨initializer, rows, _, array, index, c, _, hmem, hkind, hrows, ?_, reading_eq_ok harray,
        hc, ?_, (Except.ok.inj h).symm⟩
      · split
        · exact .inl rfl
        · exact .inr ⟨_, rfl⟩
      · split
        · exact .inl rfl
        · exact .inr rfl
    · cases h
  · cases h

theorem replaceTagged_eq_ok {tag : Option Tag} {make : Site → Except EditError Node}
    (h : replaceTagged tag make t = .ok t') :
    t' = t ∨ ∃ x s e, x ∈ tag ∧ t.findTagged? x = some s ∧ s ∈ t.sites ∧ x ∈ s.node.tags ∧
      make s = .ok e ∧ Node.Put e s.path t.root t'.root := by
  unfold replaceTagged at h
  split at h
  · exact .inl (Except.ok.inj h).symm
  · rename_i s hfound
    obtain ⟨e, he, h⟩ := ok_of_bind h
    obtain ⟨x, hx, hfound⟩ := Option.bind_eq_some_iff.1 hfound
    obtain ⟨hs, hbears⟩ := Tree.findTagged?_mem hfound
    obtain ⟨-, hat⟩ := Tree.mem_sites_iff.1 hs
    exact .inr ⟨x, s, e, hx, hfound, hs, by simpa [Node.hasTag] using hbears, he,
      Tree.put_of_replace hat (onTree_eq_ok h)⟩

/-- The type that takes the place of the declared type of a container. -/
def sequenceType (change : ContainerChange) (declared : Site) : Except EditError Node := do
  let type := s!"{change.container}<{change.element}>"
  let read ← reading "parsing container type" type (Fragment.readType type)
  return read.withTriviaOf declared.node

theorem sequenceType_eq_ok {change : ContainerChange} {declared : Site} {e : Node}
    (h : sequenceType change declared = .ok e) :
    ∃ read, Fragment.readType s!"{change.container}<{change.element}>" = .ok read ∧
      e = read.withTriviaOf declared.node := by
  obtain ⟨read, hread, h⟩ := ok_of_bind h
  exact ⟨read, reading_eq_ok hread, (Except.ok.inj h).symm⟩

theorem reshapeContainer_eq_ok {settings : Settings} {change : ContainerChange} (hs : s ∈ t.sites)
    (h : reshapeContainer settings change s = .ok t') :
    ∃ w, replaceTagged change.creationTag (arrayOf settings change.element) t = .ok w ∧
      replaceTagged change.typeTag (sequenceType change) w = .ok t' := by
  obtain ⟨rfl, -⟩ := Tree.mem_sites_iff.1 hs
  exact ok_of_bind h

/-! ## Method headers -/

/-- The modifiers give way to a list of tokens. When there were none, the trivia in front of the
    return type moves to the first of them. -/
theorem replaceModifiers_cases (index : Nat) (old new : List Token) (es : List Element) :
    let modifiers (ts : List Token) := Element.node (Node.ofChildren .modifiers (ts.map .token))
    (∃ ts, replaceModifiers index old new es = es.set index (modifiers ts) ∧
      (old ≠ [] → ts = new)) ∨
    ∃ type, es[index + 1]? = some (.node type) ∧ old = [] ∧ new ≠ [] ∧
      replaceModifiers index old new es = (es.set (index + 1) (.node (type.withLeading []))).set index
        (modifiers (withLeadingTrivia type.leading new)) := by
  intro modifiers
  simp only [replaceModifiers]
  split
  · rename_i type hmoves htype
    rw [if_pos hmoves, htype]
    rw [Bool.and_eq_true, List.isEmpty_iff, Bool.not_eq_true', List.isEmpty_eq_false_iff] at hmoves
    exact .inr ⟨type, Element.getElem?_of_bind_node? htype, hmoves.1, hmoves.2, rfl⟩
  · refine .inl ⟨_, rfl, fun hold => ?_⟩
    rw [if_neg (by simp [hold])]

theorem setReturnType_eq_ok {index : Nat} {make : Node → Except EditError (Option Node)}
    {es es' : List Element} (h : setReturnType index make es = .ok es') :
    ∃ current, es[index]? = some (.node current) ∧ (es' = es ∨ ∃ type,
      make current = .ok (some type) ∧ es' = es.set index (.node (type.withTriviaOf current))) := by
  unfold setReturnType at h
  split at h
  · cases h
  · rename_i current hcurrent
    refine ⟨current, Element.getElem?_of_bind_node? hcurrent, ?_⟩
    obtain ⟨made, hmade, h⟩ := ok_of_bind h
    cases made with
    | none => exact .inl (Except.ok.inj h).symm
    | some type => exact .inr ⟨type, hmade, (Except.ok.inj h).symm⟩

theorem changeHeader_eq_ok {settings : Settings} {change : SignatureChange} {method method' : Node}
    (h : changeHeader settings change method = .ok method') :
    ∃ index c es, method.children[index]? = some (.node c) ∧ c.kind = .modifiers ∧
      setReturnType (index + 1)
        (fun current => (changedReturnType? settings current.text change.returnType).mapM returnTypeOf)
        (replaceModifiers index c.childTokens (changedModifiers settings change c.childTokens)
          method.children) = .ok es ∧
      method' = method.withChildren es := by
  unfold changeHeader at h
  split at h
  · rename_i index hindex
    obtain ⟨es, hes, h⟩ := ok_of_bind h
    obtain ⟨c, hc, hmodifiers⟩ := Node.indexOf?_eq_some hindex
    have hold : ((method.children[index]?.bind Element.node?).map Node.childTokens).getD [] =
        c.childTokens := by rw [hc]; rfl
    rw [hold] at hes
    exact ⟨index, c, es, hc, hmodifiers, hes, (Except.ok.inj h).symm⟩
  · cases h

theorem changeSignature_eq_ok {settings : Settings} {change : SignatureChange} (hs : s ∈ t.sites)
    (h : changeSignature settings change s = .ok t') :
    s.node.kind = .methodDeclaration ∧ (t' = t ∨ ∃ method,
      changeHeader settings change s.node = .ok method ∧ Node.Put method s.path t.root t'.root) := by
  obtain ⟨u, hkind, h⟩ := ok_of_bind h
  obtain ⟨rfl, hat⟩ := Tree.mem_sites_iff.1 hs
  refine ⟨eq_of_beq (requireKind_eq_ok hkind), ?_⟩
  split at h
  · exact .inl (Except.ok.inj h).symm
  · exact .inr (Tree.exists_put_of_tryUpdate hat h)

/-! ## Markers -/

theorem renamed_eq_ok {name : String} {edit : ArgumentEdit} {r : Node}
    (h : renamed name edit s = .ok r) :
    s.node.kind = .attribute ∧ ∃ code, Fragment.readAttribute code = .ok r := by
  unfold renamed at h
  split at h
  · rename_i marker hmarker
    refine ⟨?_, _, reading_eq_ok h⟩
    unfold View.Attribute.of? at hmarker
    split at hmarker
    · rename_i hkind
      exact eq_of_beq hkind
    · cases hmarker
  · cases h

theorem companyOf_eq_ok {list : Node} {additional : List ExtraMarker} {company : List Node}
    (h : companyOf list additional = .ok company) : ∀ r ∈ company, ∃ code read,
      Fragment.readAttributeList code = .ok read ∧
      ((∃ lead trail, r = (read.withLeading lead).withTrailing trail) ∨
        ∃ trail, r = read.withTrailing trail) := by
  refine forall_of_mapM (fun extra _ r hr => ?_) h
  obtain ⟨read, hread, hr⟩ := ok_of_bind hr
  refine ⟨_, read, reading_eq_ok hread, ?_⟩
  split at hr
  · exact .inl ⟨_, _, (Except.ok.inj hr).symm⟩
  · exact .inr ⟨_, (Except.ok.inj hr).symm⟩

/-- The company of a marker goes behind its list: both together are one change of the construct
    that the list stands in. -/
theorem changeMarker_eq_ok {change : MarkerChange} (hs : s ∈ t.sites)
    (h : changeMarker change s = .ok t') :
    ∃ r, renamed change.name change.arguments s = .ok r ∧ (replaceAt s r = .ok t' ∨
      ∃ owner index i list company w u u', s.path = owner ++ [index, i] ∧
        companyOf list change.additional = .ok company ∧ replaceAt s r = .ok w ∧
        w.insert owner (index + 1) (company.map .node) = .ok t' ∧
        t.root.at? owner = some u ∧ u.at? [index, i] = some s.node ∧
        Node.Put (r.withTriviaOf s.node) [index, i] u u' ∧
        Node.Put (u'.withChildren (u'.children.take (index + 1) ++ company.map .node
          ++ u'.children.drop (index + 1))) owner t.root t'.root) := by
  obtain ⟨r, hr, h⟩ := ok_of_bind h
  refine ⟨r, hr, ?_⟩
  split at h
  · exact .inl h
  · obtain ⟨list, hlist, h⟩ := ok_of_bind h
    split at h
    · rename_i owner index howner hindex
      obtain ⟨company, hcompany, h⟩ := ok_of_bind h
      obtain ⟨w, hw, h⟩ := ok_of_bind h
      have hinsert := onTree_eq_ok h
      obtain ⟨-, hat⟩ := Tree.mem_sites_iff.1 hs
      obtain ⟨-, -, i, hpath⟩ := parentOf_eq_ok hs hlist
      rw [Path.eq_of_parent? howner hindex, List.append_assoc] at hpath
      have hput := put_replaceAt hs hw
      rw [hpath] at hput hat
      obtain ⟨u, u', u'', hu, hinner, hok, houter⟩ := Tree.exists_put_around hput hinsert
      rw [Node.at?_append, hu] at hat
      split at hok
      · cases hok
      · obtain rfl := Except.ok.inj hok
        exact .inr ⟨owner, index, i, list.node, company, w, u, u', hpath, hcompany, hw, hinsert, hu,
          hat, hinner, houter⟩
    · cases h

theorem changeParameterMarker_eq_ok {name : String} {edit : ArgumentEdit}
    (h : changeParameterMarker name edit s = .ok t') :
    ∃ r, renamed name edit s = .ok r ∧ replaceAt s r = .ok t' :=
  ok_of_bind h

/-- A marker list goes in front of a method, on a line of its own above it or above the first list
    that it has. -/
theorem putMarker_cases (list method : Node) :
    let indent := Trivia.indentation method.leading
    putMarker list method = putMarker.onNewLine list method method.leading indent ∨
    ∃ first rest, method.children = .node first :: rest ∧ first.kind = .attributeList ∧
      putMarker list method = method.withChildren
        (.node ((list.withLeading method.leading).withTrailing [])
          :: .node (first.withLeading (Trivia.newline :: indent)) :: rest) := by
  simp only [putMarker]
  split
  · rename_i first rest hchildren
    split
    · rename_i hkind
      exact .inr ⟨first, rest, hchildren, eq_of_beq hkind, rfl⟩
    · exact .inl rfl
  · exact .inl rfl

theorem addMethodMarker_eq_ok {marker : String} {returnType : Option String} (hs : s ∈ t.sites)
    (h : addMethodMarker marker returnType s = .ok t') :
    s.node.kind = .methodDeclaration ∧ ∃ list, markerList marker = .ok list ∧
      (returnType = none ∧ Node.Put (putMarker list s.node) s.path t.root t'.root ∨
      ∃ text type index es, returnType = some text ∧ Fragment.readType text = .ok type ∧
        (putMarker list s.node).indexOf? .modifiers = some index ∧
        setReturnType (index + 1) (fun _ => .ok (some type)) (putMarker list s.node).children =
          .ok es ∧
        Node.Put ((putMarker list s.node).withChildren es) s.path t.root t'.root) := by
  obtain ⟨u, hkind, h⟩ := ok_of_bind h
  obtain ⟨list, hlist, h⟩ := ok_of_bind h
  obtain ⟨type?, htype, h⟩ := ok_of_bind h
  obtain ⟨rfl, hat⟩ := Tree.mem_sites_iff.1 hs
  refine ⟨eq_of_beq (requireKind_eq_ok hkind), list, hlist, ?_⟩
  obtain ⟨method, hok, hput⟩ := Tree.exists_put_of_tryUpdate hat h
  cases type? with
  | none =>
    obtain rfl := Except.ok.inj hok
    cases returnType with
    | none => exact .inl ⟨rfl, hput⟩
    | some text =>
      obtain ⟨read, -, hread⟩ := ok_of_bind htype
      cases hread
  | some type =>
    obtain ⟨text, rfl, hread⟩ := mapM_returnTypeOf_eq_ok htype
    simp only at hok
    split at hok
    · rename_i index hindex
      obtain ⟨es, hes, hok⟩ := ok_of_bind hok
      obtain rfl := Except.ok.inj hok
      exact .inr ⟨text, type, index, es, rfl, hread, hindex, hes, hput⟩
    · cases hok

/-- A marker list goes in front of a type as it does for a method, or behind the lists that are
    there. -/
theorem putClassMarker_cases (list declaration : Node) :
    let indent := Trivia.indentation declaration.leading
    putClassMarker list declaration =
      putMarker.onNewLine list declaration declaration.leading indent ∨
    ∃ index, putClassMarker list declaration = declaration.withChildren
      (declaration.children.take index ++ .node ((list.withLeading indent).withTrailing
        [Trivia.newline]) :: declaration.children.drop index) := by
  simp only [putClassMarker]
  generalize (declaration.children.findIdx? fun e => !e.isNode .attributeList).getD 0 = index
  rcases eq_or_ne index 0 with rfl | hne
  · exact .inl rfl
  · rw [if_neg hne, if_neg hne]
    exact .inr ⟨index, rfl⟩

theorem addClassMarker_eq_ok {marker : String} (hs : s ∈ t.sites)
    (h : addClassMarker marker s = .ok t') :
    s.node.kind.isTypeDeclaration = true ∧ ∃ list, markerList marker = .ok list ∧
      Node.Put (putClassMarker list s.node) s.path t.root t'.root := by
  obtain ⟨u, hkind, h⟩ := ok_of_bind h
  obtain ⟨list, hlist, h⟩ := ok_of_bind h
  obtain ⟨rfl, hat⟩ := Tree.mem_sites_iff.1 hs
  exact ⟨requireKind_eq_ok hkind, list, hlist, Tree.put_of_update hat (onTree_eq_ok h)⟩

/-! ## Base types -/

theorem insertBaseList_eq_ok {base declaration declaration' : Node}
    (h : insertBaseList base declaration = .ok declaration') :
    ∃ index anchor, declaration.children[index]? = some anchor ∧ anchor.hasTokens = true ∧
      declaration' = declaration.withChildren (declaration.children.take index
        ++ anchor.mapLast (fun t => { t with trailing := [Trivia.space] })
        :: .node ((Node.ofChildren .baseList
            [.token (Token.ofMark ":" [Trivia.space]), .node base]).withTrailing anchor.trailing)
        :: declaration.children.drop (index + 1)) := by
  unfold insertBaseList at h
  split at h
  · split at h
    · rename_i index _ _ anchor hanchor
      split at h
      · cases h
      · rename_i htokens
        exact ⟨index, anchor, hanchor, by simpa using htokens, (Except.ok.inj h).symm⟩
    · cases h
  · cases h

/-- True when the base list of a declaration has a base type already, as a text. -/
def hasBaseType (type : String) (s : Site) : Bool :=
  (s.child? .baseList).any fun list => (list.node.childrenOf .baseType).any (·.text == type)

/-- A base type is there already, or it goes into the base list that the type has, or the type gets
    a base list. -/
theorem addBaseType_eq_ok {type : String} (hs : s ∈ t.sites) (h : addBaseType type s = .ok t') :
    s.node.kind.isTypeDeclaration = true ∧ ∃ read, Fragment.readType type = .ok read ∧
      let base := Node.ofChildren .baseType [.node read]
      (hasBaseType type s = true ∧ t' = t) ∨ hasBaseType type s = false ∧
        ((∃ i list, s.node.children[i]? = some (.node list) ∧ list.kind = .baseList ∧
          Node.Put (s.node.withChildren (s.node.children.set i (.node (extendBaseList base list))))
            s.path t.root t'.root) ∨
        ∃ declaration, insertBaseList base s.node = .ok declaration ∧
          Node.Put declaration s.path t.root t'.root) := by
  obtain ⟨u, hkind, h⟩ := ok_of_bind h
  obtain ⟨read, hread, h⟩ := ok_of_bind h
  obtain ⟨rfl, hat⟩ := Tree.mem_sites_iff.1 hs
  refine ⟨requireKind_eq_ok hkind, read, reading_eq_ok hread, ?_⟩
  simp only at h
  unfold hasBaseType
  split at h
  · rename_i list hlist
    rw [hlist, Option.any_some]
    split at h
    · rename_i hthere
      exact .inl ⟨hthere, (Except.ok.inj h).symm⟩
    · rename_i hthere
      obtain ⟨i, -, hpath, hc⟩ := Site.exists_of_mem_children (List.mem_of_find?_eq_some hlist)
      have hwanted := List.find?_some hlist
      have hlistAt : s.tree.root.at? list.path = some list.node := by
        rw [hpath]
        exact Node.at?_child hat hc
      -- The update is at the list; seen from the type it is one of its children.
      have hput := Tree.put_of_update hlistAt (onTree_eq_ok h)
      rw [hpath] at hput
      obtain ⟨n, n', hn, hinner, houter⟩ := hput.split
      obtain rfl : s.node = n := Option.some.inj (hat.symm.trans hn)
      refine .inr ⟨by simpa using hthere, .inl ⟨i, list.node, hc, eq_of_beq hwanted, ?_⟩⟩
      cases hinner with
      | under child rest =>
        cases rest with
        | here => exact houter
  · rename_i hlist
    rw [hlist]
    exact .inr ⟨rfl, .inr (Tree.exists_put_of_tryUpdate hat h)⟩

/-! ## Removals -/

/-- The list that an item goes from, and the place of the item there. -/
theorem child_of_parentOf {kind : Kind} {list : Site} (hs : s ∈ t.sites)
    (h : parentOf s kind = .ok list) : t.root.at? list.path = some list.node ∧
      list.node.kind = kind ∧ ∃ i : Nat, s.path = list.path ++ [i] ∧
        list.node.children[i]? = some (.node s.node) := by
  obtain ⟨hmem, hkind, i, hpath⟩ := parentOf_eq_ok hs h
  obtain ⟨-, hat⟩ := Tree.mem_sites_iff.1 hs
  obtain ⟨-, hlist⟩ := Tree.mem_sites_iff.1 hmem
  rw [hpath, Node.at?_append, hlist] at hat
  obtain ⟨c, hc, hat⟩ := Node.at?_cons_eq_some.1 hat
  obtain rfl := Option.some.inj hat
  exact ⟨hlist, hkind, i, hpath, hc⟩

theorem removeMarker_eq_ok (hs : s ∈ t.sites) (h : removeMarker s = .ok t') :
    s.node.kind = .attribute ∧ ∃ list, parentOf s .attributeList = .ok list ∧
      (t.removeItem s.path = .ok t' ∨ ¬1 < (list.node.childrenOf .attribute).length ∧
        ∃ option, t.remove list.path option = .ok t') := by
  obtain ⟨u, hkind, h⟩ := ok_of_bind h
  obtain ⟨list, hlist, h⟩ := ok_of_bind h
  obtain ⟨rfl, -⟩ := Tree.mem_sites_iff.1 hs
  refine ⟨eq_of_beq (requireKind_eq_ok hkind), list, hlist, ?_⟩
  split at h
  · exact .inl (onTree_eq_ok h)
  · rename_i hsingle
    exact .inr ⟨hsingle, _, onTree_eq_ok h⟩

theorem removeBaseType_eq_ok (hs : s ∈ t.sites) (h : removeBaseType s = .ok t') :
    s.node.kind = .baseType ∧ ∃ list, parentOf s .baseList = .ok list ∧
      (t.removeItem s.path = .ok t' ∨ ¬1 < (list.node.childrenOf .baseType).length ∧
        ∃ w, t.updateTokenBefore list.path (fun u => { u with trailing := list.node.trailing }) =
          .ok w ∧ w.remove list.path .dropTrivia = .ok t') := by
  obtain ⟨u, hkind, h⟩ := ok_of_bind h
  obtain ⟨list, hlist, h⟩ := ok_of_bind h
  obtain ⟨rfl, -⟩ := Tree.mem_sites_iff.1 hs
  refine ⟨eq_of_beq (requireKind_eq_ok hkind), list, hlist, ?_⟩
  split at h
  · exact .inl (onTree_eq_ok h)
  · rename_i hsingle
    obtain ⟨w, hw, h⟩ := ok_of_bind h
    exact .inr ⟨hsingle, w, onTree_eq_ok hw, onTree_eq_ok h⟩

theorem removeMember_eq_ok (hs : s ∈ t.sites) (h : removeMember s = .ok t') :
    s.node.kind.isMember = true ∧ t.remove s.path .keepTrailing = .ok t' := by
  obtain ⟨u, hkind, h⟩ := ok_of_bind h
  obtain ⟨rfl, -⟩ := Tree.mem_sites_iff.1 hs
  exact ⟨requireKind_eq_ok hkind, onTree_eq_ok h⟩

theorem removeParameter_eq_ok (hs : s ∈ t.sites) (h : removeParameter s = .ok t') :
    ∃ list, parentOf s .parameterList = .ok list ∧ t.removeItem s.path = .ok t' := by
  obtain ⟨u, -, h⟩ := ok_of_bind h
  obtain ⟨list, hlist, h⟩ := ok_of_bind h
  obtain ⟨rfl, -⟩ := Tree.mem_sites_iff.1 hs
  exact ⟨list, hlist, onTree_eq_ok h⟩

/-! ## Imports -/

theorem importDirective_eq_ok {space : String} {directive : Node}
    (h : importDirective space = .ok directive) :
    ∃ name, Fragment.readName space = .ok name ∧ directive = Node.ofChildren .usingDirective
      [.token (Token.ofKeyword "using" [Trivia.space]), .node name,
        .token (Token.ofMark ";" [Trivia.newline])] := by
  unfold importDirective at h
  split at h
  · cases h
  · rename_i name hname
    exact ⟨name, hname, (Except.ok.inj h).symm⟩

theorem imports_mem {s : Site} (h : s ∈ t.imports) : s ∈ t.sites ∧ s.kind = .usingDirective := by
  obtain ⟨hs, hkind⟩ := List.mem_filter.1 h
  exact ⟨hs, by simpa using hkind⟩

theorem lastImport?_mem (h : lastImport? t = some s) : s ∈ t.sites ∧ s.kind = .usingDirective := by
  simp only [lastImport?] at h
  split at h
  · rename_i last hlast
    obtain rfl := Option.some.inj h
    exact imports_mem (List.mem_filter.1 (List.mem_of_getLast? hlast)).1
  · obtain ⟨first, -, h⟩ := Option.bind_eq_some_iff.1 h
    exact imports_mem (List.mem_filter.1 (List.mem_of_getLast? h)).1

theorem onTop_eq_ok {directive : Node} (h : addImport.onTop t directive = .ok t') :
    ∃ header rest, splitHeader t.root.leading = (header, rest) ∧
      t'.root = (t.root.withLeading rest).withChildren
        (.node (directive.withLeading header) :: (t.root.withLeading rest).children) := by
  simp only [addImport.onTop] at h
  obtain ⟨u, hu, -, hput⟩ := Tree.insert_eq_ok (onTree_eq_ok h)
  obtain rfl := Option.some.inj hu
  exact ⟨_, _, rfl, hput.eq_of_nil⟩

/-- A directive goes behind the last import of the construct that has one, or on top of the file. -/
theorem addImport_eq_ok {space : String} (h : addImport t space = .ok t') :
    ∃ directive, importDirective space = .ok directive ∧ (addImport.onTop t directive = .ok t' ∨
      ∃ last owner index u, lastImport? t = some last ∧ last.path = owner ++ [index] ∧
        t.root.at? owner = some u ∧ u.children[index]? = some (.node last.node) ∧
        last.node.kind = .usingDirective ∧
        t.insert owner (index + 1)
          [.node (directive.withLeading (Trivia.indentation last.node.leading))] = .ok t') := by
  obtain ⟨directive, hdirective, h⟩ := ok_of_bind h
  refine ⟨directive, hdirective, ?_⟩
  split at h
  · rename_i last hlast
    split at h
    · rename_i owner index howner hindex
      obtain ⟨hs, hkind⟩ := lastImport?_mem hlast
      obtain ⟨-, hat⟩ := Tree.mem_sites_iff.1 hs
      have hpath := Path.eq_of_parent? howner hindex
      rw [hpath, Node.at?_append] at hat
      obtain ⟨u, hu, hat⟩ := Option.bind_eq_some_iff.1 hat
      obtain ⟨c, hc, hat⟩ := Node.at?_cons_eq_some.1 hat
      obtain rfl := Option.some.inj hat
      exact .inr ⟨last, owner, index, u, hlast, hpath, hu, hc, hkind, onTree_eq_ok h⟩
    · exact .inl h
  · exact .inl h

/-- A namespace that is required is imported already or cannot be imported, or its directive is
    added. -/
theorem requireImport_tree (state : Tree × List Failure) (space : String) :
    (requireImport state space).1 = state.1 ∨
      addImport state.1 space = .ok (requireImport state space).1 := by
  obtain ⟨t, failures⟩ := state
  simp only [requireImport]
  split
  · exact .inl rfl
  · split
    · rename_i next hnext
      exact .inr hnext
    · exact .inl rfl

end Edit

section Induction

variable {P : Tree → Prop} {t : Tree}
  (removed : ∀ {t t' : Tree} {s : Site} {option : RemoveOption}, s ∈ t.sites →
    s.node.kind = .usingDirective → t.remove s.path option = .ok t' → P t → P t')

include removed

/-- What is kept when one import goes is kept when many do. -/
theorem Edit.removeImports_induction (delta : ImportDelta) (bound : Nat) (h : P t) :
    P (removeImports delta bound t) := by
  induction bound generalizing t with
  | zero => exact h
  | succ bound ih =>
    simp only [removeImports]
    split
    · exact h
    · rename_i s hfound
      split
      · rename_i next hnext
        obtain ⟨hs, hkind⟩ := imports_mem (List.mem_of_find?_eq_some hfound)
        obtain ⟨rfl, -⟩ := Tree.mem_sites_iff.1 hs
        exact ih (removed hs hkind hnext h)
      · exact h

variable (added : ∀ {t t' : Tree} {space : String}, Edit.addImport t space = .ok t' → P t → P t')

include added

/-- What is kept when one import goes and when one is added is kept by a change of imports. -/
theorem ImportDelta.apply_induction (delta : ImportDelta) (h : P t) : P (delta.apply t).1 := by
  have hadded : ∀ (spaces : List String) (state : Tree × List Failure), P state.1 →
      P (spaces.foldl Edit.requireImport state).1 := by
    intro spaces
    induction spaces with
    | nil => exact fun _ => id
    | cons space spaces ih =>
      intro state h
      refine ih _ ?_
      obtain hsame | hadd := Edit.requireImport_tree state space
      · rwa [hsame]
      · exact added hadd h
  unfold apply
  split
  · exact h
  · exact hadded delta.added (_, []) (Edit.removeImports_induction removed delta _ h)

end Induction

end Recast
