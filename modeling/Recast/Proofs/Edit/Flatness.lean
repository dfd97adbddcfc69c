-- SUMMARY: No import stands in an import, in a tree that was read and in all that the records of a plan make of it.
import Recast.Proofs.Plan.Untouched
import Recast.Proofs.Tree.Tracking

/-! # Flatness

An import is one name between a keyword and a semicolon, so no import stands in another
(`Node.Flat`). Edits keep it so, since they bring no import in: what a record puts into a tree was
read as a type, an expression, a statement or a marker, and none of these holds an import
(`Node.Inner.free`). An edit thus leaves a node without imports without imports, wherever it
stands, and a flat node flat (`Node.NoNewImport`). -/

namespace Recast

/-! ## Imports in nodes -/

namespace Element

/-- No import stands in a list of parts. -/
def FreeIn (es : List Element) : Prop :=
  ∀ top ∈ topsIn es, top.kind ≠ .usingDirective

end Element

namespace Node

/-- A node is no import, and none stands in it. -/
def Free (n : Node) : Prop :=
  ∀ top ∈ n.tops, top.kind ≠ .usingDirective

/-- No import stands in an import. -/
def Flat (n : Node) : Prop :=
  ∀ p m, n.at? p = some m → m.kind = .usingDirective → Element.FreeIn m.children

variable {n n' m r c : Node} {p : Path}

theorem free_iff : n.Free ↔ n.kind ≠ .usingDirective ∧ Element.FreeIn n.children := by
  unfold Free
  rw [tops_eq, List.forall_mem_cons]
  rfl

theorem flat_iff : n.Flat ↔ (n.kind = .usingDirective → Element.FreeIn n.children) ∧
    Element.Each Flat n.children :=
  forall_at?_iff

theorem Flat.at? (h : n.Flat) (hat : n.at? p = some m) : m.Flat := by
  intro q u hu
  exact h (p ++ q) u (at?_trans hat hu)

theorem Free.flat (h : n.Free) : n.Flat := by
  intro p m hat hkind
  exact absurd hkind (h m.top (mem_tops.2 ⟨p, m, hat, rfl⟩))

/-- What stands in a declaration holds no import. -/
theorem Formed.free (h : n.Formed) (hkind : n.kind.isScope = false) : n.Free := by
  intro top htop himport
  obtain ⟨p, m, hat, rfl⟩ := mem_tops.1 htop
  have hscope := h.housed.isScope_eq_false hkind hat
  rw [show m.kind = .usingDirective from himport] at hscope
  cases hscope

theorem Inner.free (h : n.Inner) : n.Free :=
  h.1.free h.isScope

theorem Housed.flat (h : n.Housed) : n.Flat := by
  intro p m hat hkind top htop himport
  obtain ⟨c, hc, htop⟩ := Element.mem_topsIn.1 htop
  have hbars : m.kind.bars c.kind = true := by
    rw [hkind]
    rfl
  have hdull := (h.at? hat).houses.dull c hc hbars top htop
  rw [himport] at hdull
  cases hdull

theorem Free.of_blank (h : n.Free) (hblank : n'.blank = n.blank) : n'.Free := by
  intro top htop
  rw [← n'.tops_blank, hblank, n.tops_blank] at htop
  exact h top htop

theorem Free.mapFirst (h : n.Free) (f : Token → Token) : (n.mapFirst f).Free :=
  h.of_blank (n.blank_mapFirst f)

theorem Free.mapLast (h : n.Free) (f : Token → Token) : (n.mapLast f).Free :=
  h.of_blank (n.blank_mapLast f)

theorem Free.withTriviaOf (h : n.Free) (other : Node) : (n.withTriviaOf other).Free :=
  (h.mapFirst _).mapLast _

theorem topsIn_children (n : Node) : Element.topsIn n.children = n.tops.tail := by
  rw [tops_eq, List.tail_cons]

theorem Flat.of_blank (h : n.Flat) (hblank : n'.blank = n.blank) : n'.Flat := by
  intro p m hat hkind
  have hsame := n'.at?_blank p
  rw [hblank, at?_blank, hat, Option.map_some, Option.map_eq_some_iff] at hsame
  obtain ⟨u, hu, hsame⟩ := hsame
  have htops : u.tops = m.tops := by rw [← u.tops_blank, hsame, m.tops_blank]
  have hkinds : u.kind = m.kind := by
    rw [tops_eq, tops_eq m] at htops
    exact congrArg Top.kind (List.cons.inj htops).1
  have hfree := h p u hu (hkinds.trans hkind)
  unfold Element.FreeIn at hfree ⊢
  rwa [topsIn_children, ← htops, ← topsIn_children]

end Node

namespace Element

variable {es es' : List Element} {c : Node}

theorem freeIn_iff : FreeIn es ↔ Each Node.Free es := by
  constructor
  · intro h c hc top htop
    exact h top (mem_topsIn.2 ⟨c, hc, htop⟩)
  · intro h top htop
    obtain ⟨c, hc, htop⟩ := mem_topsIn.1 htop
    exact h c hc top htop

end Element

/-! ## Changes that bring no import in -/

/-- The second node has no imports where the first has none. -/
structure Node.NoNewImport (n n' : Node) : Prop where
  free : n.Free → n'.Free
  flat : n.Flat → n'.Flat

/-- The parts that are new hold no import. -/
def Element.NoNewImportIn (es es' : List Element) : Prop :=
  ∀ c', .node c' ∈ es' → c'.Free ∨ ∃ c, .node c ∈ es ∧ c.NoNewImport c'

namespace Node

variable {n n' n'' m r c : Node} {p : Path}

theorem NoNewImport.refl (n : Node) : n.NoNewImport n :=
  ⟨id, id⟩

theorem NoNewImport.trans (h : n.NoNewImport n') (h' : n'.NoNewImport n'') : n.NoNewImport n'' :=
  ⟨h'.free ∘ h.free, h'.flat ∘ h.flat⟩

theorem noNewImport_of_blank (h : n'.blank = n.blank) : n.NoNewImport n' :=
  ⟨fun hfree => hfree.of_blank h, fun hflat => hflat.of_blank h⟩

theorem Free.noNewImport (h : n'.Free) (n : Node) : n.NoNewImport n' :=
  ⟨fun _ => h, fun _ => h.flat⟩

theorem noNewImport_mapFirst (f : Token → Token) (n : Node) : n.NoNewImport (n.mapFirst f) :=
  noNewImport_of_blank (n.blank_mapFirst f)

theorem noNewImport_mapLast (f : Token → Token) (n : Node) : n.NoNewImport (n.mapLast f) :=
  noNewImport_of_blank (n.blank_mapLast f)

theorem noNewImport_withTriviaOf (n other : Node) : n.NoNewImport (n.withTriviaOf other) :=
  (n.noNewImport_mapFirst _).trans (noNewImport_mapLast _ _)

/-- Other parts, those that are new without imports. -/
theorem noNewImport_of_parts (hkind : n'.kind = .usingDirective → n.kind = .usingDirective)
    (h : Element.NoNewImportIn n.children n'.children) : n.NoNewImport n' := by
  have hfree : Element.FreeIn n.children → Element.FreeIn n'.children := by
    intro hchildren
    rw [Element.freeIn_iff] at hchildren ⊢
    intro c' hc'
    obtain hfree | ⟨c, hc, hnew⟩ := h c' hc'
    · exact hfree
    · exact hnew.free (hchildren c hc)
  constructor
  · intro hn
    obtain ⟨hself, hchildren⟩ := free_iff.1 hn
    exact free_iff.2 ⟨fun himport => hself (hkind himport), hfree hchildren⟩
  · intro hn
    obtain ⟨hself, hbelow⟩ := flat_iff.1 hn
    refine flat_iff.2 ⟨fun himport => hfree (hself (hkind himport)), fun c' hc' => ?_⟩
    obtain hfree | ⟨c, hc, hnew⟩ := h c' hc'
    · exact hfree.flat
    · exact hnew.flat (hbelow c hc)

theorem noNewImport_withChildren {es : List Element} (h : Element.NoNewImportIn n.children es) :
    n.NoNewImport (n.withChildren es) :=
  noNewImport_of_parts id h

end Node

namespace Element

variable {xs ys zs : List Element}

/-- Parts that differ from old ones in tokens alone. -/
theorem noNewImportIn_of_blank (h : ∀ e' ∈ ys, ∃ e ∈ xs, e'.blank = e.blank) :
    NoNewImportIn xs ys := by
  intro c hc
  obtain ⟨e, he, hblank⟩ := h _ hc
  cases e with
  | token u => cases hblank
  | node d =>
    have hsame : c.blank = d.blank := Element.node.inj hblank
    exact .inr ⟨d, he, Node.noNewImport_of_blank hsame⟩

theorem noNewImportIn_of_subset (h : ∀ e ∈ ys, e ∈ xs) : NoNewImportIn xs ys :=
  noNewImportIn_of_blank fun e he => ⟨e, h e he, rfl⟩

theorem noNewImportIn_of_free (h : Each Node.Free ys) : NoNewImportIn xs ys :=
  fun c hc => .inl (h c hc)

theorem NoNewImportIn.trans (h : NoNewImportIn xs ys) (h' : NoNewImportIn ys zs) :
    NoNewImportIn xs zs := by
  intro c'' hc''
  obtain hfree | ⟨c', hc', hnew'⟩ := h' c'' hc''
  · exact .inl hfree
  · obtain hfree | ⟨c, hc, hnew⟩ := h c' hc'
    · exact .inl (hnew'.free hfree)
    · exact .inr ⟨c, hc, hnew.trans hnew'⟩

theorem NoNewImportIn.append (hys : NoNewImportIn xs ys) (hzs : NoNewImportIn xs zs) :
    NoNewImportIn xs (ys ++ zs) := by
  intro c hc
  rcases List.mem_append.1 hc with hc | hc
  · exact hys c hc
  · exact hzs c hc

theorem noNewImportIn_take (i : Nat) (xs : List Element) : NoNewImportIn xs (xs.take i) :=
  noNewImportIn_of_subset fun _ => List.mem_of_mem_take

theorem noNewImportIn_drop (i : Nat) (xs : List Element) : NoNewImportIn xs (xs.drop i) :=
  noNewImportIn_of_subset fun _ => List.mem_of_mem_drop

/-- New parts without imports between some of the old ones. -/
theorem noNewImportIn_splice (i j : Nat) (xs : List Element) (h : Each Node.Free ys) :
    NoNewImportIn xs (xs.take i ++ ys ++ xs.drop j) :=
  ((noNewImportIn_take i xs).append (noNewImportIn_of_free h)).append (noNewImportIn_drop j xs)

theorem noNewImportIn_set {i : Nat} {c d : Node} (hd : xs[i]? = some (.node d))
    (h : d.NoNewImport c) : NoNewImportIn xs (xs.set i (.node c)) := by
  intro c' hc'
  rcases List.mem_or_eq_of_mem_set hc' with hmem | heq
  · exact .inr ⟨c', hmem, .refl c'⟩
  · obtain rfl := Element.node.inj heq
    exact .inr ⟨d, List.mem_of_getElem? hd, h⟩

theorem noNewImportIn_set_free {c : Node} (h : c.Free) (i : Nat) (xs : List Element) :
    NoNewImportIn xs (xs.set i (.node c)) := by
  intro c' hc'
  rcases List.mem_or_eq_of_mem_set hc' with hmem | heq
  · exact .inr ⟨c', hmem, .refl c'⟩
  · obtain rfl := Element.node.inj heq
    exact .inl h

theorem noNewImportIn_modify {g : Element → Element} (hg : ∀ e, (g e).blank = e.blank) (i : Nat)
    (xs : List Element) : NoNewImportIn xs (xs.modify i g) := by
  refine noNewImportIn_of_blank fun e' he' => ?_
  obtain ⟨j, hj⟩ := List.mem_iff_getElem?.1 he'
  rw [List.getElem?_modify] at hj
  obtain ⟨e, he, rfl⟩ := Option.map_eq_some_iff.1 hj
  refine ⟨e, List.mem_of_getElem? he, ?_⟩
  split
  · exact hg e
  · rfl

theorem noNewImportIn_dropItem (i : Nat) (xs : List Element) :
    NoNewImportIn xs (Tree.dropItem i xs) := by
  have hrest : ∀ j k, NoNewImportIn xs (xs.take j ++ xs.drop k) :=
    fun j k => (noNewImportIn_take j xs).append (noNewImportIn_drop k xs)
  unfold Tree.dropItem
  dsimp only
  split
  · exact hrest _ _
  · split
    · split
      · exact hrest _ _
      · exact (hrest _ _).trans (noNewImportIn_modify (Element.blank_mapLast _) _ _)
    · exact noNewImportIn_of_subset fun _ => List.mem_of_mem_eraseIdx

end Element

theorem Node.Put.noNewImport {m r n n' : Node} {p : Path} (hput : Node.Put r p n n')
    (hat : n.at? p = some m) (h : m.NoNewImport r) : n.NoNewImport n' := by
  induction hput with
  | here n =>
    obtain rfl := Option.some.inj hat
    exact h
  | @under n c c' i p child rest ih =>
    obtain ⟨d, hd, hat⟩ := Node.at?_cons_eq_some.1 hat
    obtain rfl : c = d := by simpa [child] using hd
    apply Node.noNewImport_withChildren
    exact Element.noNewImportIn_set child (ih hat)

/-! ## Edits of trees -/

namespace Tree

variable {t t' : Tree} {p : Path} {m : Node}

theorem noNewImport_replaceMany {replacements : List Node} (hat : t.root.at? p = some m)
    (hnew : ∀ r ∈ replacements, r.Free) (h : t.replaceMany p replacements = .ok t') :
    t.root.NoNewImport t'.root := by
  obtain ⟨-, rfl⟩ | ⟨q, i, u, -, hu, -, hput⟩ := replaceMany_eq_ok hat h
  · exact (hnew _ (List.mem_singleton_self _)).noNewImport _
  · refine hput.noNewImport hu (Node.noNewImport_withChildren ?_)
    exact Element.noNewImportIn_splice _ _ _ (Element.each_nodes hnew)

theorem noNewImport_insert {i : Nat} {parts : List Element} (hnew : Element.Each Node.Free parts)
    (h : t.insert p i parts = .ok t') : t.root.NoNewImport t'.root := by
  obtain ⟨u, hu, -, hput⟩ := insert_eq_ok h
  refine hput.noNewImport hu (Node.noNewImport_withChildren ?_)
  exact Element.noNewImportIn_splice _ _ _ hnew

theorem noNewImport_updateNear {side : Node.Side} {f : Token → Token}
    (h : t.updateNear side p f = .ok t') : t.root.NoNewImport t'.root :=
  Node.noNewImport_of_blank (blank_updateNear h)

theorem noNewImport_remove {option : RemoveOption} (h : t.remove p option = .ok t') :
    t.root.NoNewImport t'.root := by
  obtain ⟨m, hat⟩ := exists_at?_of_remove h
  obtain ⟨q, i, w, u, -, hw, hu, hput⟩ := remove_eq_ok hat h
  refine (Node.noNewImport_of_blank (blank_handOver hw)).trans
    (hput.noNewImport hu (Node.noNewImport_withChildren ?_))
  exact Element.noNewImportIn_of_subset fun _ => List.mem_of_mem_eraseIdx

theorem noNewImport_removeItem (h : t.removeItem p = .ok t') : t.root.NoNewImport t'.root := by
  obtain ⟨q, i, u, -, hu, -, hput⟩ := removeItem_eq_ok h
  exact hput.noNewImport hu (Node.noNewImport_withChildren (Element.noNewImportIn_dropItem _ _))

end Tree

/-! ## Edits of records -/

namespace Fragment

theorem free_of_readAttribute {source : String} {n : Node} (h : readAttribute source = .ok n) :
    n.Free := by
  have his : n.Is .attribute := of_readAll Grammar.gives_attributeOf h
  exact his.1.free (his.2 ▸ rfl)

theorem free_of_readAttributeList {source : String} {n : Node}
    (h : readAttributeList source = .ok n) : n.Free :=
  ((is_of_readAttributeList h).inner rfl).free

theorem free_of_readExpression {source : String} {n : Node} (h : readExpression source = .ok n) :
    n.Free :=
  (value_of_readExpression h).inner.free

theorem free_of_readType {source : String} {n : Node} (h : readType source = .ok n) : n.Free :=
  (typeName_of_readType h).value.inner.free

end Fragment

namespace Edit

variable {t t' : Tree} {s : Site}

theorem noNewImport_replaceAt {r : Node} (hs : s ∈ t.sites) (hr : r.Free)
    (h : replaceAt s r = .ok t') : t.root.NoNewImport t'.root := by
  obtain ⟨-, hat⟩ := Tree.mem_sites_iff.1 hs
  exact (put_replaceAt hs h).noNewImport hat ((hr.withTriviaOf s.node).noNewImport s.node)

theorem noNewImport_replaceCall {text : String} (hs : s ∈ t.sites)
    (h : replaceCall text s = .ok t') : t.root.NoNewImport t'.root := by
  obtain ⟨r, hr, h⟩ := replaceCall_eq_ok h
  exact noNewImport_replaceAt hs (Fragment.free_of_readExpression hr) h

theorem noNewImport_replaceAssertion {change : AssertionChange} (hs : s ∈ t.sites)
    (h : replaceAssertion change s = .ok t') : t.root.NoNewImport t'.root := by
  obtain ⟨r, w, hr, hw, rfl | ⟨remark, p, q, u, u', -, hu, hat, hinner, -, houter⟩⟩ :=
    replaceAssertion_eq_ok hs h
  · exact noNewImport_replaceCall hs hw
  · have hfree := (Fragment.free_of_readExpression hr).withTriviaOf s.node
    exact houter.noNewImport hu ((hinner.noNewImport hat (hfree.noNewImport s.node)).trans
      (u'.noNewImport_mapFirst _))

theorem noNewImport_captureException {settings : Settings} {captured body : String}
    (hs : s ∈ t.sites) (h : captureException settings captured body s = .ok t') :
    t.root.NoNewImport t'.root := by
  obtain ⟨-, first, rest, hread, h⟩ := captureException_eq_ok hs h
  obtain ⟨-, hat⟩ := Tree.mem_sites_iff.1 hs
  refine Tree.noNewImport_replaceMany hat (forall_mem_runWithTriviaOf (fun _ hr => hr.mapFirst _)
    (fun _ hr => hr.mapLast _) fun r hr => ?_) h
  exact (Fragment.statement_of_readStatements hread r hr).inner.free

/-! ### Containers -/

theorem noNewImport_tupleRows {rows rows' : Node} (h : tupleRows rows = .ok rows') :
    rows.NoNewImport rows' := by
  obtain ⟨es, hes, rfl⟩ := tupleRows_eq_ok h
  have hrows : ∀ e' ∈ es, Element.NoNewImportIn rows.children [e'] := by
    refine forall_of_mapM (fun e he e' he' => ?_) hes
    obtain rfl | ⟨row, tuple, text, rfl, htuple, rfl⟩ := tupleRow_eq_ok he'
    · exact Element.noNewImportIn_of_subset fun x hx => List.mem_singleton.1 hx ▸ he
    · have hfree := Fragment.free_of_readExpression htuple
      exact Element.noNewImportIn_of_free (Element.each_single (hfree.withTriviaOf row))
  apply Node.noNewImport_withChildren
  intro c hc
  exact hrows _ hc c (List.mem_singleton_self _)

/-- What is new in an array was read as one; its rows come from the creation. -/
theorem noNewImport_arrayOf {settings : Settings} {element : String} {creation : Site} {e : Node}
    (h : arrayOf settings element creation = .ok e) : creation.node.NoNewImport e := by
  obtain ⟨initializer, rows, rows', array, index, c, before, hmem, -, hrows, hrows', harray, -,
    hbefore, rfl⟩ := arrayOf_eq_ok h
  have hrows := noNewImport_tupleRows hrows
  obtain ⟨hkind, hparts⟩ := Node.free_iff.1 (Fragment.free_of_readExpression harray)
  rw [Element.freeIn_iff] at hparts
  refine Node.NoNewImport.trans ?_ (Node.noNewImport_withTriviaOf _ _)
  refine Node.noNewImport_of_parts (fun himport => absurd himport hkind) ?_
  refine Element.NoNewImportIn.append (Element.noNewImportIn_of_free ?_) fun c hc => ?_
  · -- In front of the rows stand the parts of what was read.
    have htaken := hparts.subset fun _ => List.mem_of_mem_take (i := index)
    obtain rfl | rfl := hbefore
    · exact htaken
    · intro c hc
      obtain hfree | ⟨d, hd, hnew⟩ :=
        Element.noNewImportIn_modify (Element.blank_mapLast _) _ _ c hc
      · exact hfree
      · exact hnew.free (htaken d hd)
  · rcases List.mem_cons.1 hc with heq | hc
    · obtain rfl := Element.node.inj heq
      refine .inr ⟨initializer, hmem, ?_⟩
      obtain rfl | ⟨trivia, rfl⟩ := hrows'
      · exact hrows
      · exact hrows.trans (rows.noNewImport_mapFirst _)
    · exact .inl (hparts c (List.mem_of_mem_drop hc))

theorem noNewImport_replaceTagged {tag : Option Tag} {make : Site → Except EditError Node}
    (hmake : ∀ s e, make s = .ok e → s.node.NoNewImport e) (h : replaceTagged tag make t = .ok t') :
    t.root.NoNewImport t'.root := by
  obtain rfl | ⟨x, s, e, -, -, hs, -, he, hput⟩ := replaceTagged_eq_ok h
  · exact .refl _
  · exact hput.noNewImport (Tree.mem_sites_iff.1 hs).2 (hmake s e he)

theorem noNewImport_reshapeContainer {settings : Settings} {change : ContainerChange}
    (hs : s ∈ t.sites) (h : reshapeContainer settings change s = .ok t') :
    t.root.NoNewImport t'.root := by
  obtain ⟨w, hw, h⟩ := reshapeContainer_eq_ok hs h
  refine (noNewImport_replaceTagged (fun _ _ => noNewImport_arrayOf) hw).trans ?_
  refine noNewImport_replaceTagged (fun declared e he => ?_) h
  obtain ⟨read, hread, rfl⟩ := sequenceType_eq_ok he
  have hfree := Fragment.free_of_readType hread
  exact (hfree.withTriviaOf declared.node).noNewImport declared.node

/-! ### Method headers -/

theorem free_ofChildren {kind : Kind} {es : List Element} (hkind : kind ≠ .usingDirective)
    (hes : Element.Each Node.Free es) : (Node.ofChildren kind es).Free :=
  Node.free_iff.2 ⟨hkind, Element.freeIn_iff.2 hes⟩

theorem noNewImportIn_replaceModifiers (index : Nat) (old new : List Token) (es : List Element) :
    Element.NoNewImportIn es (replaceModifiers index old new es) := by
  have hmodifiers : ∀ ts : List Token, (Node.ofChildren .modifiers (ts.map .token)).Free :=
    fun ts => free_ofChildren (by decide) (Element.each_tokens ts)
  obtain ⟨ts, heq, -⟩ | ⟨type, htype, -, -, heq⟩ := replaceModifiers_cases index old new es
  · rw [heq]
    exact Element.noNewImportIn_set_free (hmodifiers _) _ _
  · rw [heq]
    have hmoved : Element.NoNewImportIn es (es.set (index + 1) (.node (type.withLeading []))) :=
      Element.noNewImportIn_set htype (type.noNewImport_mapFirst _)
    exact hmoved.trans (Element.noNewImportIn_set_free (hmodifiers _) _ _)

theorem noNewImportIn_setReturnType {index : Nat} {make : Node → Except EditError (Option Node)}
    {es es' : List Element} (hmake : ∀ current type, make current = .ok (some type) → type.Free)
    (h : setReturnType index make es = .ok es') : Element.NoNewImportIn es es' := by
  obtain ⟨current, -, rfl | ⟨type, hmade, rfl⟩⟩ := setReturnType_eq_ok h
  · exact Element.noNewImportIn_of_subset fun _ => id
  · have hfree := hmake current type hmade
    exact Element.noNewImportIn_set_free (hfree.withTriviaOf current) _ _

theorem noNewImport_changeSignature {settings : Settings} {change : SignatureChange}
    (hs : s ∈ t.sites) (h : changeSignature settings change s = .ok t') :
    t.root.NoNewImport t'.root := by
  obtain ⟨-, rfl | ⟨method, hmethod, hput⟩⟩ := changeSignature_eq_ok hs h
  · exact .refl _
  · obtain ⟨index, c, es, -, -, hes, rfl⟩ := changeHeader_eq_ok hmethod
    refine hput.noNewImport (Tree.mem_sites_iff.1 hs).2 (Node.noNewImport_withChildren ?_)
    refine (noNewImportIn_replaceModifiers _ _ _ _).trans (noNewImportIn_setReturnType ?_ hes)
    intro current type hmade
    obtain ⟨text, -, hread⟩ := mapM_returnTypeOf_eq_ok hmade
    exact Fragment.free_of_readType hread

theorem noNewImportIn_cons_free {n : Node} (h : n.Free) {es es' : List Element}
    (hes : Element.NoNewImportIn es es') : Element.NoNewImportIn es (.node n :: es') :=
  (Element.noNewImportIn_of_free (Element.each_single h)).append hes

theorem noNewImport_onNewLine {list : Node} (hlist : list.Free) (declaration : Node)
    (lead indent : List Trivia) :
    declaration.NoNewImport (putMarker.onNewLine list declaration lead indent) := by
  refine (declaration.noNewImport_mapFirst _).trans (Node.noNewImport_withChildren ?_)
  exact noNewImportIn_cons_free ((hlist.mapFirst _).mapLast _)
    (Element.noNewImportIn_of_subset fun _ => id)

theorem noNewImport_putMarker {list : Node} (hlist : list.Free) (method : Node) :
    method.NoNewImport (putMarker list method) := by
  obtain heq | ⟨first, rest, hchildren, -, heq⟩ := putMarker_cases list method
  · rw [heq]
    exact noNewImport_onNewLine hlist _ _ _
  · rw [heq]
    apply Node.noNewImport_withChildren
    rw [hchildren]
    refine noNewImportIn_cons_free ((hlist.mapFirst _).mapLast _) ?_
    exact Element.noNewImportIn_set (i := 0) rfl (first.noNewImport_mapFirst _)

theorem noNewImport_addMethodMarker {marker : String} {returnType : Option String}
    (hs : s ∈ t.sites) (h : addMethodMarker marker returnType s = .ok t') :
    t.root.NoNewImport t'.root := by
  obtain ⟨-, hat⟩ := Tree.mem_sites_iff.1 hs
  obtain ⟨-, list, hlist, hmade⟩ := addMethodMarker_eq_ok hs h
  have hmarked := noNewImport_putMarker
    (Fragment.free_of_readAttributeList (markerList_eq_ok hlist)) s.node
  obtain ⟨-, hput⟩ | ⟨text, type, index, es, -, htype, -, hes, hput⟩ := hmade
  · exact hput.noNewImport hat hmarked
  · refine hput.noNewImport hat (hmarked.trans (Node.noNewImport_withChildren
      (noNewImportIn_setReturnType (fun current made hmade => ?_) hes)))
    obtain rfl := Option.some.inj (Except.ok.inj hmade)
    exact Fragment.free_of_readType htype

/-! ### Markers and base types -/

theorem free_renamed {name : String} {edit : ArgumentEdit} {r : Node}
    (h : renamed name edit s = .ok r) : r.Free := by
  obtain ⟨-, code, hread⟩ := renamed_eq_ok h
  exact Fragment.free_of_readAttribute hread

theorem free_companyOf {list : Node} {additional : List ExtraMarker} {company : List Node}
    (h : companyOf list additional = .ok company) : ∀ r ∈ company, r.Free := by
  intro r hr
  obtain ⟨code, read, hread, hform⟩ := companyOf_eq_ok h r hr
  have hfree := Fragment.free_of_readAttributeList hread
  obtain ⟨lead, trail, rfl⟩ | ⟨trail, rfl⟩ := hform
  · exact (hfree.mapFirst _).mapLast _
  · exact hfree.mapLast _

theorem noNewImport_changeMarker {change : MarkerChange} (hs : s ∈ t.sites)
    (h : changeMarker change s = .ok t') : t.root.NoNewImport t'.root := by
  obtain ⟨r, hr, h | ⟨owner, index, i, list, company, w, u, u', -, hcompany, hw, hinsert, -⟩⟩ :=
    changeMarker_eq_ok hs h
  · exact noNewImport_replaceAt hs (free_renamed hr) h
  · refine (noNewImport_replaceAt hs (free_renamed hr) hw).trans ?_
    exact Tree.noNewImport_insert (Element.each_nodes (free_companyOf hcompany)) hinsert

theorem noNewImport_changeParameterMarker {name : String} {edit : ArgumentEdit} (hs : s ∈ t.sites)
    (h : changeParameterMarker name edit s = .ok t') : t.root.NoNewImport t'.root := by
  obtain ⟨r, hr, h⟩ := changeParameterMarker_eq_ok h
  exact noNewImport_replaceAt hs (free_renamed hr) h

theorem noNewImport_addClassMarker {marker : String} (hs : s ∈ t.sites)
    (h : addClassMarker marker s = .ok t') : t.root.NoNewImport t'.root := by
  obtain ⟨-, list, hlist, hput⟩ := addClassMarker_eq_ok hs h
  refine hput.noNewImport (Tree.mem_sites_iff.1 hs).2 ?_
  have hlist := Fragment.free_of_readAttributeList (markerList_eq_ok hlist)
  obtain heq | ⟨index, heq⟩ := putClassMarker_cases list s.node
  · rw [heq]
    exact noNewImport_onNewLine hlist _ _ _
  · rw [heq]
    apply Node.noNewImport_withChildren
    exact (Element.noNewImportIn_take index _).append
      (noNewImportIn_cons_free ((hlist.mapFirst _).mapLast _) (Element.noNewImportIn_drop index _))

theorem noNewImport_extendBaseList {base : Node} (hbase : base.Free) (list : Node) :
    list.NoNewImport (extendBaseList base list) := by
  refine (list.noNewImport_mapLast _).trans (Node.noNewImport_withChildren ?_)
  refine (Element.noNewImportIn_of_subset fun _ => id).append ?_
  apply Element.noNewImportIn_of_free
  intro c hc
  obtain rfl : c = base.withTrailing list.trailing := by simpa using hc
  exact hbase.mapLast _

theorem noNewImport_insertBaseList {base declaration declaration' : Node} (hbase : base.Free)
    (h : insertBaseList base declaration = .ok declaration') :
    declaration.NoNewImport declaration' := by
  obtain ⟨index, anchor, hanchor, -, rfl⟩ := insertBaseList_eq_ok h
  have hlist : ∀ trivia, ((Node.ofChildren .baseList [.token (Token.ofMark ":" [Trivia.space]),
      .node base]).withTrailing trivia).Free := by
    intro trivia
    refine Node.Free.mapLast (free_ofChildren (by decide) fun c hc => ?_) _
    obtain rfl : c = base := by simpa using hc
    exact hbase
  have hanchored : ∀ f, Element.NoNewImportIn declaration.children [anchor.mapLast f] := by
    intro f
    refine Element.noNewImportIn_of_blank fun e he => ?_
    obtain rfl := List.mem_singleton.1 he
    exact ⟨anchor, List.mem_of_getElem? hanchor, Element.blank_mapLast _ anchor⟩
  apply Node.noNewImport_withChildren
  exact (Element.noNewImportIn_take index _).append ((hanchored _).append
    (noNewImportIn_cons_free (hlist _) (Element.noNewImportIn_drop _ _)))

theorem noNewImport_addBaseType {type : String} (hs : s ∈ t.sites)
    (h : addBaseType type s = .ok t') : t.root.NoNewImport t'.root := by
  obtain ⟨-, hat⟩ := Tree.mem_sites_iff.1 hs
  obtain ⟨-, read, hread, ⟨-, rfl⟩ | ⟨-, hadded⟩⟩ := addBaseType_eq_ok hs h
  · exact .refl _
  have hbase : (Node.ofChildren .baseType [.node read]).Free :=
    free_ofChildren (by decide) (Element.each_single (Fragment.free_of_readType hread))
  obtain ⟨i, list, hc, -, hput⟩ | ⟨declaration, hinsert, hput⟩ := hadded
  · refine hput.noNewImport hat (Node.noNewImport_withChildren ?_)
    exact Element.noNewImportIn_set hc (noNewImport_extendBaseList hbase list)
  · exact hput.noNewImport hat (noNewImport_insertBaseList hbase hinsert)

/-! ### Removals -/

theorem noNewImport_removeMarker (hs : s ∈ t.sites) (h : removeMarker s = .ok t') :
    t.root.NoNewImport t'.root := by
  obtain ⟨-, list, -, h | ⟨-, option, h⟩⟩ := removeMarker_eq_ok hs h
  · exact Tree.noNewImport_removeItem h
  · exact Tree.noNewImport_remove h

theorem noNewImport_removeBaseType (hs : s ∈ t.sites) (h : removeBaseType s = .ok t') :
    t.root.NoNewImport t'.root := by
  obtain ⟨-, list, -, h | ⟨-, w, hw, h⟩⟩ := removeBaseType_eq_ok hs h
  · exact Tree.noNewImport_removeItem h
  · exact (Tree.noNewImport_updateNear hw).trans (Tree.noNewImport_remove h)

theorem noNewImport_removeMember (hs : s ∈ t.sites) (h : removeMember s = .ok t') :
    t.root.NoNewImport t'.root :=
  Tree.noNewImport_remove (removeMember_eq_ok hs h).2

theorem noNewImport_removeParameter (hs : s ∈ t.sites) (h : removeParameter s = .ok t') :
    t.root.NoNewImport t'.root := by
  obtain ⟨list, -, h⟩ := removeParameter_eq_ok hs h
  exact Tree.noNewImport_removeItem h

end Edit

/-! ## Records -/

theorem Change.noNewImport_apply {t t' : Tree} {s : Site} {settings : Settings} {c : Change}
    (hs : s ∈ t.sites) (h : c.apply settings s = .ok t') : t.root.NoNewImport t'.root := by
  cases c with
  | exceptionCapture captured body => exact Edit.noNewImport_captureException hs h
  | callReplacement text => exact Edit.noNewImport_replaceCall hs h
  | container change => exact Edit.noNewImport_reshapeContainer hs h
  | assertion change => exact Edit.noNewImport_replaceAssertion hs h
  | signature change => exact Edit.noNewImport_changeSignature hs h
  | methodMarker marker returnType => exact Edit.noNewImport_addMethodMarker hs h
  | marker change => exact Edit.noNewImport_changeMarker hs h
  | parameterMarker name arguments => exact Edit.noNewImport_changeParameterMarker hs h
  | markerRemoval => exact Edit.noNewImport_removeMarker hs h
  | baseTypeRemoval type => exact Edit.noNewImport_removeBaseType hs h
  | baseTypeAddition type => exact Edit.noNewImport_addBaseType hs h
  | classMarker marker => exact Edit.noNewImport_addClassMarker hs h
  | memberRemoval name => exact Edit.noNewImport_removeMember hs h
  | parameterRemoval name type => exact Edit.noNewImport_removeParameter hs h

theorem Tree.noNewImport_after {settings : Settings} {t : Tree} (records : List Record) :
    t.root.NoNewImport (t.after settings records).root :=
  after_induction (P := fun w => t.root.NoNewImport w.root) (.refl _)
    fun _ _ hs _ happly hbefore => hbefore.trans (Change.noNewImport_apply hs happly)

end Recast
