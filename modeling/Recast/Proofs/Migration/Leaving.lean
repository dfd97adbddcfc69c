-- SUMMARY: A migrated file imports nothing at or below the namespace of the framework it was written for.
import Recast.Proofs.Analysis.Awaiting
import Recast.Proofs.Edit.Flatness
import Recast.Proofs.Plan.Covering

/-! # Leaving a framework

Imports are removed one by one, and the tree is searched anew after each. A removal takes at least
one import out of the tree, so the loop ends before its bound does, and ends with nothing left to
remove (`Edit.not_removes_of_mem_imports`). An added import stands beside another one, or on top of
the file, and so in no import (`Node.Flat`): the names of all other imports stay
(`Edit.names_addImport`). None of the added namespaces belongs to a source framework. -/

namespace Recast

/-! ## Dotted names -/

namespace Text

theorem isUnder_iff {root name : String} :
    isUnder root name = true ↔ name = root ∨ ∃ rest, name = root ++ "." ++ rest := by
  rw [isUnder, Bool.or_eq_true, beq_iff_eq]
  refine or_congr Iff.rfl ?_
  constructor
  · intro h
    cases hafter : after? root name with
    | none =>
      rw [hafter] at h
      cases h
    | some rest =>
      rw [hafter] at h
      obtain ⟨more, hmore⟩ := Option.isSome_iff_exists.1 h
      refine ⟨more, ?_⟩
      rw [after?_eq_some_iff.1 hafter, after?_eq_some_iff.1 hmore, String.append_assoc]
  · rintro ⟨more, rfl⟩
    have hafter : after? root (root ++ "." ++ more) = some ("." ++ more) :=
      after?_eq_some_iff.2 String.append_assoc
    have hmore : after? "." ("." ++ more) = some more := after?_eq_some_iff.2 rfl
    rw [hafter, Option.map_some, Option.getD_some, startsWith, hmore]
    rfl

theorem isUnder_trans {root space name : String} (h : isUnder root space = true)
    (h' : isUnder space name = true) : isUnder root name = true := by
  rw [isUnder_iff] at h h' ⊢
  obtain rfl | ⟨more, rfl⟩ := h'
  · exact h
  · obtain rfl | ⟨rest, rfl⟩ := h
    · exact .inr ⟨more, rfl⟩
    · exact .inr ⟨rest ++ "." ++ more, by simp only [String.append_assoc]⟩

end Text

/-! ## The names of imports -/

namespace Node

/-- The name of an import does not depend on the trivia in front of the import. -/
theorem importedName?_mapFirst {f : Token → Token} (hf : Token.LeadingOnly f) (n : Node) :
    (n.mapFirst f).importedName? = n.importedName? := by
  have hparts : ∀ es : List Element,
      ((Element.mapFirstIn f es).filterMap Element.node?).head?.map Node.text =
        (es.filterMap Element.node?).head?.map Node.text := by
    intro es
    induction es with
    | nil => rfl
    | cons e es ih =>
      unfold Element.mapFirstIn
      cases e with
      | token u => rfl
      | node c =>
        split
        · exact congrArg some (c.text_mapFirst hf)
        · rfl
  obtain ⟨kind, children, span, tags⟩ := n
  exact hparts children

theorem importedName?_mapLast {f : Token → Token} (hf : Token.TrailingOnly f) (n : Node) :
    (n.mapLast f).importedName? = n.importedName? := by
  have hparts : ∀ es : List Element,
      ((Element.mapLastIn f es).filterMap Element.node?).head?.map Node.text =
        (es.filterMap Element.node?).head?.map Node.text := by
    intro es
    induction es with
    | nil => rfl
    | cons e es ih =>
      unfold Element.mapLastIn
      split
      · cases e with
        | token u => exact ih
        | node c => rfl
      · cases e with
        | token u => rfl
        | node c => exact congrArg some (c.text_mapLast hf)
  obtain ⟨kind, children, span, tags⟩ := n
  exact hparts children

end Node

/-- Tells the names of imports. -/
def Observer.ofImports : Observer (Option String) where
  tell _ n := if n.kind = .usingDirective then [n.importedName?] else []
  tell_mapFirst _ n f hf := by
    have hkind : (n.mapFirst f).kind = n.kind := congrArg Top.kind (n.top_mapFirst f)
    rw [hkind, n.importedName?_mapFirst hf]
  tell_mapLast _ n f hf := by
    have hkind : (n.mapLast f).kind = n.kind := congrArg Top.kind (n.top_mapLast f)
    rw [hkind, n.importedName?_mapLast hf]

/-- The names of the imports of a tree, in document order. -/
def Tree.importNames (t : Tree) : List (Option String) :=
  Observer.ofImports.see [] t.root

theorem Tree.mem_importNames {t : Tree} {name : Option String} :
    name ∈ t.importNames ↔ ∃ s ∈ t.imports, s.node.importedName? = name := by
  rw [importNames, Observer.see_eq_flatMap, List.mem_flatMap]
  constructor
  · rintro ⟨⟨p, n⟩, hmem, hname⟩
    have htell : name ∈ if n.kind = .usingDirective then [n.importedName?] else [] := hname
    split at htell
    · rename_i hkind
      refine ⟨⟨t, p, n⟩, List.mem_filter.2 ⟨mem_sites_of_at? (Node.mem_nodes.1 hmem), ?_⟩,
        (List.mem_singleton.1 htell).symm⟩
      exact beq_iff_eq.2 hkind
    · cases htell
  · rintro ⟨s, hs, rfl⟩
    obtain ⟨hsite, hkind⟩ := Edit.imports_mem hs
    obtain ⟨-, hat⟩ := mem_sites_iff.1 hsite
    refine ⟨(s.path, s.node), Node.mem_nodes.2 hat, ?_⟩
    have hkind : s.node.kind = .usingDirective := hkind
    simp only [Observer.ofImports, hkind, if_true, List.mem_singleton]

namespace Observer

theorem see_ofImports {n : Node} (h : n.kind ≠ .usingDirective) (up : List Top) :
    ofImports.see up n = ofImports.seeIn (n.top :: up) n.children := by
  rw [see_eq]
  simp only [ofImports, if_neg h, List.nil_append]

/-- Names that come with a change of a node that stands in no import are all that comes. -/
theorem see_put_ofImports {m r n n' : Node} {p : Path} {new : List (Option String)}
    (hput : Node.Put r p n n') (hat : n.at? p = some m)
    (hway : ∀ top ∈ n.above p, top.kind ≠ .usingDirective)
    (hr : ∀ up, ofImports.see up r ⊆ ofImports.see up m ++ new) (up : List Top) :
    ofImports.see up n' ⊆ ofImports.see up n ++ new := by
  induction hput generalizing up with
  | here n =>
    obtain rfl := Option.some.inj hat
    exact hr up
  | @under n c c' i p child rest ih =>
    obtain ⟨d, hd, hat⟩ := Node.at?_cons_eq_some.1 hat
    obtain rfl : c = d := by simpa [child] using hd
    have habove : n.above (i :: p) = c.above p ++ [n.top] := by simp only [Node.above, child]
    rw [habove] at hway
    have hkind : n.kind ≠ .usingDirective :=
      hway n.top (List.mem_append_right _ (List.mem_singleton_self _))
    have hbelow := ih hat (fun top htop => hway top (List.mem_append_left _ htop)) (n.top :: up)
    have hlt : i < n.children.length := (List.getElem?_eq_some_iff.1 child).1
    -- Only the child on the way is changed, and its names are those of the induction.
    have hold : ofImports.seeIn (n.top :: up) n.children =
        ofImports.seeIn (n.top :: up) (n.children.take i) ++ (ofImports.see (n.top :: up) c ++
          ofImports.seeIn (n.top :: up) (n.children.drop (i + 1))) := by
      conv_lhs => rw [Node.children_split child, seeIn_append, seeIn_node]
    rw [see_ofImports (n := n.withChildren _) hkind, see_ofImports hkind, Node.top_withChildren,
      Node.withChildren, List.set_eq_take_append_cons_drop, if_pos hlt, hold]
    intro name hname
    simp only [seeIn_append, seeIn_node, List.mem_append] at hname ⊢
    rcases hname with hname | hname | hname
    · exact .inl (.inl hname)
    · rcases List.mem_append.1 (hbelow hname) with hname | hname
      · exact .inl (.inr (.inl hname))
      · exact .inr hname
    · exact .inl (.inr (.inr hname))

end Observer

/-! ## Removal -/

namespace Tree

variable {t t' : Tree} {p : Path} {m : Node}

/-- The trivia of a node is handed over, and the node stays. -/
theorem exists_handOver (hat : t.root.at? p = some m) (option : RemoveOption) :
    ∃ w, t.handOver p m option = .ok w ∧ w.root.at? p = some m := by
  cases option with
  | dropTrivia => exact ⟨t, rfl, hat⟩
  | keepLeading =>
    obtain ⟨w, hw, hstays, -⟩ := around_handOver_keepLeading hat
    exact ⟨w, hw, hstays⟩
  | keepTrailing =>
    obtain ⟨w, hw, hstays, -⟩ := around_handOver_keepTrailing hat
    exact ⟨w, hw, hstays⟩

theorem exists_remove (hp : p ≠ []) (hat : t.root.at? p = some m) (option : RemoveOption) :
    ∃ t', t.remove p option = .ok t' := by
  obtain ⟨w, hw, hstays⟩ := exists_handOver hat option
  obtain ⟨t', ht', -⟩ := tokens_remove hp hat option hw hstays
  exact ⟨t', ht'⟩

theorem length_imports (t : Tree) :
    t.imports.length = (t.root.tops.filter fun top => top.kind == .usingDirective).length := by
  rw [← map_top_sites, List.filter_map, List.length_map]
  rfl

/-- A removed import is gone. -/
theorem length_imports_remove {option : RemoveOption} (hat : t.root.at? p = some m)
    (hkind : m.kind = .usingDirective) (h : t.remove p option = .ok t') :
    t'.imports.length < t.imports.length := by
  have hself : 0 < (m.tops.filter fun top => top.kind == .usingDirective).length := by
    refine List.length_pos_of_mem (a := m.top) (List.mem_filter.2 ⟨?_, beq_iff_eq.2 hkind⟩)
    rw [Node.tops_eq]
    exact List.mem_cons_self ..
  rw [length_imports, length_imports, tops_remove hat h, Node.tops_around hat]
  simp only [List.filter_append, List.length_append]
  omega

end Tree

namespace Edit

variable {t t' : Tree} {delta : ImportDelta}

/-- The bound of the loop is never what ends it: there are fewer imports in each round. -/
theorem not_removes_of_mem_imports {bound : Nat} (hroot : t.root.kind = .compilationUnit)
    (hbound : t.imports.length ≤ bound) :
    ∀ s ∈ (removeImports delta bound t).imports, ∀ name ∈ s.node.importedName?,
      delta.removes name = false := by
  induction bound generalizing t with
  | zero =>
    intro s hs
    rw [removeImports, List.length_eq_zero_iff.1 (Nat.le_zero.1 hbound)] at hs
    cases hs
  | succ bound ih =>
    simp only [removeImports]
    split
    · rename_i hnone
      intro s hs name hname
      have hstays := List.find?_eq_none.1 hnone s hs
      rw [Option.mem_def.1 hname] at hstays
      simpa using hstays
    · rename_i s hfound
      obtain ⟨hs, hkind⟩ := imports_mem (List.mem_of_find?_eq_some hfound)
      obtain ⟨rfl, hat⟩ := Tree.mem_sites_iff.1 hs
      have hkind : s.node.kind = .usingDirective := hkind
      have hp : s.path ≠ [] := by
        intro hpath
        rw [hpath] at hat
        rw [← Option.some.inj hat, hroot] at hkind
        cases hkind
      obtain ⟨next, hnext⟩ := Tree.exists_remove hp hat
        (if Trivia.hasRemark s.node.leading then .keepLeading else .dropTrivia)
      have hkeeps : s.tree.root.Keeps next.root :=
        Tree.keeps_remove hat (by rw [hkind]; rfl) hnext
      -- One import less, so the bound still holds for the next round.
      have hlt := Tree.length_imports_remove hat hkind hnext
      rw [show removeImport s = .ok next from hnext]
      exact ih (hkeeps.kind_eq.trans hroot) (by omega)

theorem noNewImport_removeImports (delta : ImportDelta) (bound : Nat) (t : Tree) :
    t.root.NoNewImport (removeImports delta bound t).root :=
  removeImports_induction (P := fun w => t.root.NoNewImport w.root)
    (fun _ _ hremove hw => hw.trans (Tree.noNewImport_remove hremove)) delta bound (.refl _)

theorem kind_removeImports (delta : ImportDelta) (bound : Nat) (t : Tree) :
    (removeImports delta bound t).root.kind = t.root.kind := by
  refine removeImports_induction (P := fun w => w.root.kind = t.root.kind)
    (fun hs hkind hremove hw => ?_) delta bound rfl
  have hkeeps := Tree.keeps_remove (Tree.mem_sites_iff.1 hs).2 (by rw [hkind]; rfl) hremove
  exact hkeeps.kind_eq.trans hw

/-! ## Addition -/

end Edit

/-- An import in which no other one stands. -/
structure Node.Directive (n : Node) (name : Option String) : Prop where
  kind_eq : n.kind = .usingDirective
  free : Element.FreeIn n.children
  name_eq : n.importedName? = name

namespace Node

variable {n n' m r : Node} {name : Option String} {p : Path}

theorem Directive.withLeading (h : n.Directive name) (trivia : List Trivia) :
    (n.withLeading trivia).Directive name := by
  have htops := (n.withLeading trivia).tops_blank
  rw [Node.withLeading, blank_mapFirst, n.tops_blank, tops_eq, tops_eq (n.mapFirst _)] at htops
  obtain ⟨htop, hparts⟩ := List.cons.inj htops
  refine ⟨(congrArg Top.kind htop).symm.trans h.kind_eq, ?_, ?_⟩
  · unfold Element.FreeIn
    rw [Node.withLeading, ← hparts]
    exact h.free
  · exact (n.importedName?_mapFirst (Token.leadingOnly_set fun _ => trivia)).trans h.name_eq

theorem Directive.flat (h : n.Directive name) : n.Flat :=
  flat_iff.2 ⟨fun _ => h.free, fun c hc => (Element.freeIn_iff.1 h.free c hc).flat⟩

theorem Free.see_ofImports (h : n.Free) (up : List Top) : Observer.ofImports.see up n = [] := by
  refine (Observer.see_eq_nil _ up).2 fun p m hat => ?_
  exact if_neg (h m.top (mem_tops.2 ⟨p, m, hat, rfl⟩))

theorem Directive.see_ofImports (h : n.Directive name) (up : List Top) :
    Observer.ofImports.see up n = [name] := by
  have hbelow : Observer.ofImports.seeIn (n.top :: up) n.children = [] :=
    (Observer.seeIn_eq_nil _ _).2 fun c hc =>
      (Element.freeIn_iff.1 h.free c hc).see_ofImports (n.top :: up)
  rw [Observer.see_eq, hbelow, List.append_nil]
  simp only [Observer.ofImports, h.kind_eq, if_true, h.name_eq]

/-- A flat node in the place of one that stands in no import. -/
theorem Flat.put (h : n.Flat) (hput : Put r p n n')
    (hway : ∀ top ∈ n.above p, top.kind ≠ .usingDirective) (hr : r.Flat) : n'.Flat := by
  induction hput with
  | here n => exact hr
  | @under n c c' i p child rest ih =>
    have habove : n.above (i :: p) = c.above p ++ [n.top] := by simp only [above, child]
    rw [habove] at hway
    have hkind : n.kind ≠ .usingDirective :=
      hway n.top (List.mem_append_right _ (List.mem_singleton_self _))
    obtain ⟨-, hbelow⟩ := flat_iff.1 h
    refine flat_iff.2 ⟨fun himport => absurd himport hkind, hbelow.set ?_⟩
    refine ih (hbelow c (List.mem_of_getElem? child)) fun top htop => ?_
    exact hway top (List.mem_append_left _ htop)

/-- What an import stands in is no import. -/
theorem Flat.above (h : n.Flat) (hat : n.at? p = some m) (hkind : m.kind = .usingDirective) :
    ∀ top ∈ n.above p, top.kind ≠ .usingDirective := by
  induction p generalizing n with
  | nil => exact fun top htop => nomatch htop
  | cons i p ih =>
    obtain ⟨c, hc, hat⟩ := at?_cons_eq_some.1 hat
    obtain ⟨hself, hbelow⟩ := flat_iff.1 h
    have hmem : .node c ∈ n.children := List.mem_of_getElem? hc
    simp only [Node.above, hc, List.mem_append, List.mem_singleton]
    rintro top (htop | rfl)
    · exact ih (hbelow c hmem) hat top htop
    · intro himport
      exact hself himport m.top (Element.mem_topsIn.2 ⟨c, hmem, mem_tops.2 ⟨p, m, hat, rfl⟩⟩) hkind

end Node

namespace Edit

variable {t t' : Tree} {space : String}

/-- An import that goes where no import is around it brings its own name alone. -/
theorem names_put {p : Path} {i : Nat} {u directive : Node} {name : Option String}
    (hflat : t.root.Flat) (hat : t.root.at? p = some u)
    (hway : ∀ top ∈ u.top :: t.root.above p, top.kind ≠ .usingDirective)
    (hdirective : directive.Directive name)
    (hput : Node.Put (u.withChildren (u.children.take i ++ [.node directive] ++ u.children.drop i))
      p t.root t'.root) :
    t'.root.Flat ∧ t'.importNames ⊆ t.importNames ++ [name] := by
  obtain ⟨hself, habove⟩ := List.forall_mem_cons.1 hway
  refine ⟨hflat.put hput habove ?_, ?_⟩
  · have hbelow := (Node.flat_iff.1 (Node.Flat.at? hflat hat)).2
    refine Node.flat_iff.2 ⟨fun himport => absurd himport hself, ?_⟩
    refine Element.Each.append (Element.Each.append ?_ (Element.each_single hdirective.flat)) ?_
    · exact hbelow.subset fun _ => List.mem_of_mem_take
    · exact hbelow.subset fun _ => List.mem_of_mem_drop
  · refine Observer.see_put_ofImports hput hat habove (fun up x hx => ?_) []
    rw [Observer.see_ofImports (n := u.withChildren _) hself, Node.top_withChildren] at hx
    have hold : Observer.ofImports.seeIn (u.top :: up) u.children =
        Observer.ofImports.seeIn (u.top :: up) (u.children.take i) ++
          Observer.ofImports.seeIn (u.top :: up) (u.children.drop i) := by
      rw [← Observer.seeIn_append, List.take_append_drop]
    rw [Observer.see_ofImports hself, hold]
    simp only [Node.withChildren, Observer.seeIn_append, Observer.seeIn_node,
      hdirective.see_ofImports, Observer.seeIn_nil, List.append_nil, List.mem_append] at hx ⊢
    tauto

theorem directive_of_importDirective {directive : Node}
    (h : importDirective space = .ok directive) : directive.Directive directive.importedName? := by
  obtain ⟨name, hname, rfl⟩ := importDirective_eq_ok h
  refine ⟨rfl, Element.freeIn_iff.2 fun c hc => ?_, rfl⟩
  obtain rfl : c = name := by simpa [Node.ofChildren] using hc
  exact (Fragment.of_readAll Grammar.gives_typeName hname : c.TypeName).value.inner.free

/-- An added import brings its own name alone. -/
theorem names_addImport (hflat : t.root.Flat) (hroot : t.root.kind = .compilationUnit)
    (h : addImport t space = .ok t') :
    t'.root.Flat ∧ ∃ directive, importDirective space = .ok directive ∧
      t'.importNames ⊆ t.importNames ++ [directive.importedName?] := by
  obtain ⟨directive, hdirective, h⟩ := addImport_eq_ok h
  have hname := directive_of_importDirective hdirective
  suffices hnames : t'.root.Flat ∧ t'.importNames ⊆ t.importNames ++ [directive.importedName?] from
    ⟨hnames.1, directive, hdirective, hnames.2⟩
  obtain honTop | ⟨last, owner, index, u, -, -, hu, hc, hkind, hinsert⟩ := h
  · obtain ⟨header, rest, -, hroot'⟩ := onTop_eq_ok honTop
    have hnames : (t.withRoot (t.root.withLeading rest)).importNames = t.importNames :=
      Observer.see_mapFirst _ (Token.leadingOnly_set fun _ => rest) [] t.root
    have hkind : (t.root.withLeading rest).kind = .compilationUnit :=
      (t.root.keeps_withLeading rest).kind_eq.trans hroot
    have hput : Node.Put t'.root [] (t.root.withLeading rest) t'.root := .here _
    rw [hroot'] at hput
    rw [← hnames]
    refine names_put (u := t.root.withLeading rest) (p := []) (i := 0)
      (hflat.of_blank (t.root.blank_mapFirst _)) rfl ?_ (hname.withLeading header) (hroot' ▸ hput)
    intro top htop himport
    obtain rfl := List.mem_singleton.1 htop
    cases hkind.symm.trans himport
  · have hat : t.root.at? (owner ++ [index]) = some last.node := Node.at?_child hu hc
    have habove := Node.Flat.above hflat hat hkind
    rw [Node.above_concat hu hc] at habove
    obtain ⟨v, hv, -, hput⟩ := Tree.insert_eq_ok hinsert
    obtain rfl : u = v := Option.some.inj (hu.symm.trans hv)
    exact names_put hflat hu habove (hname.withLeading _) hput

/-- Added namespaces are the only new names, when their directives name them. -/
theorem names_requireImports {spaces : List String} {state : Tree × List Failure}
    (hspaces : ∀ space ∈ spaces, ∀ directive, importDirective space = .ok directive →
      directive.importedName? = some space)
    (hflat : state.1.root.Flat) (hroot : state.1.root.kind = .compilationUnit) :
    (spaces.foldl requireImport state).1.importNames ⊆
      state.1.importNames ++ spaces.map some := by
  induction spaces generalizing state with
  | nil => exact List.subset_append_left _ _
  | cons space spaces ih =>
    obtain ⟨hspace, hspaces⟩ := List.forall_mem_cons.1 hspaces
    obtain ⟨hflat', hroot', hnames⟩ : (requireImport state space).1.root.Flat ∧
        (requireImport state space).1.root.kind = .compilationUnit ∧
        (requireImport state space).1.importNames ⊆ state.1.importNames ++ [some space] := by
      obtain hsame | hadd := requireImport_tree state space
      · rw [hsame]
        exact ⟨hflat, hroot, List.subset_append_left _ _⟩
      · obtain ⟨hflat', directive, hdirective, hnames⟩ := names_addImport hflat hroot hadd
        rw [hspace directive hdirective] at hnames
        exact ⟨hflat', (keeps_addImport hroot hadd).kind_eq.trans hroot, hnames⟩
    intro name hname
    rcases List.mem_append.1 (ih hspaces hflat' hroot' hname) with hold | hnew
    · rcases List.mem_append.1 (hnames hold) with hold | hnew
      · exact List.mem_append_left _ hold
      · refine List.mem_append_right _ ?_
        rw [List.map_cons, List.mem_singleton.1 hnew]
        exact List.mem_cons_self ..
    · exact List.mem_append_right _ (List.mem_cons_of_mem _ hnew)

end Edit

/-- After the imports have changed, one that is left is not to be removed or was added. -/
theorem ImportDelta.names_apply {delta : ImportDelta} {t : Tree}
    (hspaces : ∀ space ∈ delta.added, ∀ directive, Edit.importDirective space = .ok directive →
      directive.importedName? = some space)
    (hremoves : delta.removedRoots ≠ []) (hflat : t.root.Flat)
    (hroot : t.root.kind = .compilationUnit) {name : String}
    (hname : some name ∈ (delta.apply t).1.importNames) :
    delta.removes name = false ∨ name ∈ delta.added := by
  have hempty : delta.isEmpty = false := by
    rw [isEmpty, Bool.and_eq_false_iff]
    exact .inr (by simpa using hremoves)
  rw [apply, hempty] at hname
  have hflat' : (Edit.removeImports delta t.imports.length t).root.Flat :=
    (Edit.noNewImport_removeImports delta _ t).flat hflat
  have hnames := Edit.names_requireImports hspaces hflat'
    ((Edit.kind_removeImports delta _ t).trans hroot) hname
  rcases List.mem_append.1 hnames with hold | hnew
  · obtain ⟨s, hs, hs'⟩ := Tree.mem_importNames.1 hold
    exact .inl (Edit.not_removes_of_mem_imports hroot (Nat.le_refl _) s hs name hs')
  · obtain ⟨space, hspace, heq⟩ := List.mem_map.1 hnew
    exact .inr (Option.some.inj heq ▸ hspace)

namespace ImportDelta

theorem mem_addAll {d : ImportDelta} {spaces : List String} {space : String}
    (h : space ∈ (d.addAll spaces).added) : space ∈ d.added ∨ space ∈ spaces := by
  induction spaces generalizing d with
  | nil => exact .inl h
  | cons first spaces ih =>
    obtain h | h := ih h
    · obtain h | rfl := mem_addOnce.1 h
      · exact .inl h
      · exact .inr (List.mem_cons_self ..)
    · exact .inr (List.mem_cons_of_mem _ h)

theorem removedRoots_addAll (d : ImportDelta) (spaces : List String) :
    (d.addAll spaces).removedRoots = d.removedRoots := by
  induction spaces generalizing d with
  | nil => rfl
  | cons first spaces ih => exact ih (d.add first)

end ImportDelta

/-! ## Frameworks -/

namespace Framework

/-- The change of imports that the strategy of a framework makes for a plan. -/
def importDelta (plan : Plan) : Framework → ImportDelta
  | .xUnit => XUnit.imports plan
  | .nUnit => NUnit.imports plan
  | .msTest => importsFor "Microsoft.VisualStudio.TestTools" plan

/-- The namespace whose imports go: that of the framework or one above it. -/
def removedSpace : Framework → String
  | .xUnit => XUnit.space
  | .nUnit => "NUnit"
  | .msTest => "Microsoft.VisualStudio.TestTools"

/-- All namespaces that a migration may import. -/
def targetSpaces : List String :=
  ["TUnit.Core", "TUnit.Assertions", "TUnit.Assertions.Extensions", "System",
    "System.Threading.Tasks", "System.Collections.Generic"]

variable (f : Framework) (plan : Plan)

theorem analysis_imports (settings : Settings) (t : Tree) :
    ∃ plan, (f.analysis settings t).plan.imports = f.importDelta plan := by
  cases f <;> exact ⟨_, rfl⟩

theorem mem_neededImports {space : String} (h : space ∈ neededImports plan) :
    space ∈ targetSpaces := by
  have hwhenever : ∀ {needed : Bool} {spaces : List String},
      (space ∈ if needed = true then spaces else []) → spaces ⊆ targetSpaces →
        space ∈ targetSpaces := by
    intro needed spaces hmem hsub
    split at hmem
    · exact hsub hmem
    · cases hmem
  simp only [neededImports, List.mem_append] at h
  obtain ((h | h) | h) | h := h
  · exact hwhenever h (by decide)
  · exact hwhenever h (by decide)
  · exact hwhenever h (by decide)
  · exact hwhenever h (by decide)

theorem mem_importDelta {space : String} (h : space ∈ (f.importDelta plan).added) :
    space ∈ targetSpaces := by
  have hneeded : ∀ {root}, space ∈ (importsFor root plan).added → space ∈ targetSpaces := by
    intro root h
    obtain h | h := ImportDelta.mem_addAll h
    · cases h
    · exact mem_neededImports plan h
  have hadd : ∀ {d : ImportDelta} {more}, space ∈ (d.add more).added →
      (space ∈ d.added → space ∈ targetSpaces) → more ∈ targetSpaces → space ∈ targetSpaces := by
    intro d more h hd hmore
    obtain h | rfl := ImportDelta.mem_addOnce.1 h
    · exact hd h
    · exact hmore
  cases f with
  | xUnit =>
    simp only [importDelta, XUnit.imports] at h
    split at h
    · exact hadd h hneeded (by decide)
    · exact hneeded h
  | nUnit =>
    simp only [importDelta, NUnit.imports] at h
    split at h
    · exact hadd h hneeded (by decide)
    · exact hneeded h
  | msTest => exact hneeded h

theorem removedRoots_importDelta : (f.importDelta plan).removedRoots = [f.removedSpace] := by
  have hfor : ∀ root, (importsFor root plan).removedRoots = [root] :=
    fun root => ImportDelta.removedRoots_addAll _ _
  cases f with
  | xUnit =>
    simp only [importDelta, XUnit.imports]
    split
    · exact hfor _
    · exact hfor _
  | nUnit =>
    simp only [importDelta, NUnit.imports]
    split
    · exact hfor _
    · exact hfor _
  | msTest => exact hfor _

theorem isUnder_removedSpace : Text.isUnder f.removedSpace f.rootSpace = true := by
  cases f <;> decide

theorem not_isUnder_targetSpaces :
    ∀ space ∈ targetSpaces, Text.isUnder f.rootSpace space = false := by
  cases f <;> decide

/-- The directive for a namespace of the target names it. -/
theorem importedName?_targetSpaces : ∀ space ∈ targetSpaces, ∀ directive,
    Edit.importDirective space = .ok directive → directive.importedName? = some space := by
  have hnames : ∀ space ∈ targetSpaces,
      (Edit.importDirective space).toOption.bind Node.importedName? = some space := by
    decide +kernel
  intro space hspace directive hdirective
  have hname := hnames space hspace
  rw [hdirective] at hname
  exact hname

/-- No import is left that shows the framework. -/
theorem not_isUnder_of_mem_importNames {t : Tree} {name : String} (hflat : t.root.Flat)
    (hroot : t.root.kind = .compilationUnit)
    (hname : some name ∈ ((f.importDelta plan).apply t).1.importNames) :
    Text.isUnder f.rootSpace name = false := by
  have hroots := f.removedRoots_importDelta plan
  have hspaces : ∀ space ∈ (f.importDelta plan).added, space ∈ targetSpaces :=
    fun space => f.mem_importDelta plan
  obtain hstays | hadded := ImportDelta.names_apply
    (fun space hspace => importedName?_targetSpaces space (hspaces space hspace))
    (by rw [hroots]; exact List.cons_ne_nil _ _) hflat hroot hname
  · rw [ImportDelta.removes, hroots, List.any_cons, List.any_nil, Bool.or_false] at hstays
    rw [← Bool.not_eq_true] at hstays ⊢
    exact fun hunder => hstays (Text.isUnder_trans f.isUnder_removedSpace hunder)
  · exact f.not_isUnder_targetSpaces name (hspaces name hadded)

end Framework

/-- The banner changes no name. -/
theorem Plan.importNames_apply {plan : Plan} {settings : Settings} {t : Tree} :
    (plan.apply settings t).tree.importNames =
      (plan.imports.apply (t.after settings plan.ordered)).1.importNames := by
  have hedits : (plan.applyEdits settings t).tree =
      (plan.imports.apply (t.after settings plan.ordered)).1 := rfl
  rw [← hedits]
  simp only [apply]
  split
  · exact Observer.see_mapFirst _ (Token.leadingOnly_set _) [] _
  · rfl

/-- A migrated file has left the framework it was written for: none of its imports, wherever it
    stands and of whatever form, names the namespace of the framework or one below it. So the file
    does not look as if it were written for the framework. -/
theorem migrateSource_leaves_framework {f : Framework} {settings : Settings} {source : String}
    {o : Migration} (h : f.migrateSource settings source = .ok o) :
    (∀ s ∈ o.tree.sites, s.kind = .usingDirective → ∀ name ∈ s.node.importedName?,
      name ≠ f.rootSpace ∧ ∀ rest, name ≠ f.rootSpace ++ "." ++ rest) ∧
    Framework.detect? o.tree ≠ some f := by
  have hnames : ∀ s ∈ o.tree.imports, ∀ name ∈ s.node.importedName?,
      Text.isUnder f.rootSpace name = false := by
    intro s hs name hname
    obtain ⟨t, ht, -, htree⟩ := Framework.migrateSource_eq_ok h
    obtain ⟨plan, himports⟩ := f.analysis_imports settings t
    have hanalysis : _ ∧ (f.analysis settings t).tree.root.tags = [] ∧ _ :=
      f.analysis_root (Tree.readFrom_of_parse ht)
    obtain ⟨hkind, htags, -⟩ := hanalysis
    have hmem : some name ∈ o.tree.importNames := Tree.mem_importNames.2 ⟨s, hs, hname⟩
    rw [htree, Plan.importNames_apply] at hmem
    refine f.not_isUnder_of_mem_importNames plan ?_ ?_ (himports ▸ hmem)
    · exact (Tree.noNewImport_after _).flat (f.housed_analysis settings ht).flat
    · exact (Tree.after_top htags _).1.trans hkind
  refine ⟨fun s hs hkind name hname => ?_, fun hdetect => ?_⟩
  · have hnot := hnames s (List.mem_filter.2 ⟨hs, beq_iff_eq.2 hkind⟩) name hname
    rw [← Bool.not_eq_true, Text.isUnder_iff, not_or, not_exists] at hnot
    exact hnot
  · have hany := List.find?_some hdetect
    obtain ⟨name, hmem, hunder⟩ := List.any_eq_true.1 hany
    obtain ⟨s, hs, hname⟩ := List.mem_filterMap.1 hmem
    rw [hnames s hs name hname] at hunder
    cases hunder

/-- A file with imports of a framework in all places and forms. -/
def importsEverywhere : String :=
  "using NUnit.Framework;\nglobal using static NUnit.Framework.Assert;\nusing System;\n" ++
    "namespace A \x7b using I = NUnit.Framework.Is; class T \x7b [Test] void M() \x7b \x7d \x7d \x7d"

theorem migrateSource_leaves_framework_importsEverywhere : ∃ t o,
    Tree.parse importsEverywhere = .ok t ∧ Framework.detect? t = some .nUnit ∧
    Framework.nUnit.migrateSource {} importsEverywhere = .ok o ∧
    (∀ s ∈ o.tree.sites, s.kind = .usingDirective → ∀ name ∈ s.node.importedName?,
      name ≠ Framework.nUnit.rootSpace ∧
        ∀ rest, name ≠ Framework.nUnit.rootSpace ++ "." ++ rest) ∧
    Framework.detect? o.tree ≠ some .nUnit := by
  have hdetect : (Tree.parse importsEverywhere).toOption.map Framework.detect? =
      some (some .nUnit) := by
    decide +kernel
  obtain ⟨t, ht, hdetect⟩ := exists_ok_of_map hdetect
  obtain ⟨o, ho, -⟩ := Framework.nUnit.exists_migrateSource {} ht
  exact ⟨t, o, ht, hdetect, ho, migrateSource_leaves_framework ho⟩

end Recast
