-- SUMMARY: An import that goes hands over the remarks in front of it, and one that comes leaves all others; so the edits of imports and the banner keep all directives but those inside of imports.
import Recast.Proofs.Tree.Outline

/-! # Handover

An import that goes is one part less of the outline of a file, and the next part takes over the
comments and directives in front of it (`Edit.outline_removeImport`). There is a next part, since a
file ends with a token of its own and an import is not the whole file (`Node.FileLike`). An import
that is added is one part more (`Edit.Added`). So the texts outside of imports and the remarks of
the outline are the same after the imports have changed (`Node.HandsOn`), and with them the
directives of the file but for those inside of its imports (`Node.kept`). -/

namespace Recast

/-! ## Files -/

/-- A file, as it is while its imports change: it ends as files do, and no import stands in another
    one. -/
structure Node.FileLike (n : Node) : Prop where
  kind_eq : n.kind = .compilationUnit
  closed : Element.ClosedIn n.children
  flat : n.Flat

/-- A change of a file that changes nothing but imports and hands on the comments and directives in
    front of those that go. -/
structure Node.HandsOn (n n' : Node) : Prop where
  file : n'.FileLike
  words : Element.wordsIn n'.outline = Element.wordsIn n.outline
  remarks : Element.remarksIn n'.outline = Element.remarksIn n.outline

namespace Node

variable {n n' n'' m r : Node} {p : Path}

theorem FileLike.handsOn (h : n.FileLike) : n.HandsOn n :=
  ⟨h, rfl, rfl⟩

theorem HandsOn.trans (h : n.HandsOn n') (h' : n'.HandsOn n'') : n.HandsOn n'' :=
  ⟨h'.file, h'.words.trans h.words, h'.remarks.trans h.remarks⟩

theorem FileLike.ne_import (h : n.FileLike) : n.kind ≠ .usingDirective := by
  rw [h.kind_eq]
  decide

theorem tokensIn_ne_nil_of_closedIn {es : List Element} (h : Element.ClosedIn es) :
    Element.tokensIn es ≠ [] := by
  intro hnil
  obtain ⟨e, he, hend⟩ : ∃ e, e ∈ es ∧ e.isEnd = true := by
    obtain ⟨e, he, hend⟩ := List.mem_map.1 (List.mem_of_getLast? h)
    exact ⟨e, he, hend⟩
  have hnone := Element.tokensIn_eq_nil.1 hnil e he
  cases e with
  | token u => cases hnone
  | node c => cases hend

/-- Something follows a node of a file. -/
theorem FileLike.tokensAfter_ne_nil (h : n.FileLike) (hp : p ≠ []) (hat : n.at? p = some m) :
    n.tokensAfter p ≠ [] := by
  cases p with
  | nil => exact absurd rfl hp
  | cons i p =>
    obtain ⟨c, hc, hat⟩ := at?_cons_eq_some.1 hat
    rw [tokensAfter_cons hc]
    exact List.append_ne_nil_of_right_ne_nil _ (tokensIn_ne_nil_of_closedIn (h.closed.after hc))

theorem closedIn_put (hput : Put r p n n') (hat : n.at? p = some m)
    (hr : Element.ClosedIn m.children → Element.ClosedIn r.children)
    (hn : Element.ClosedIn n.children) : Element.ClosedIn n'.children := by
  cases hput with
  | here n =>
    obtain rfl := Option.some.inj hat
    exact hr hn
  | under child rest => exact hn.set child _

end Node

namespace Tree

variable {t t' : Tree} {p : Path} {m : Node}

theorem map_node_imports (h : t.root.Flat) :
    t.imports.map Site.node = Element.importsIn t.root.outline := by
  rw [Element.importsIn, t.root.filterMap_outline h, imports, sites_eq, List.filter_map,
    List.filter_map, List.map_map]
  rfl

/-- A node that goes goes after its trivia has been handed over. -/
theorem without_of_remove {option : RemoveOption} (hat : t.root.at? p = some m)
    (h : t.remove p option = .ok t') :
    p ≠ [] ∧ ∃ w, t.handOver p m option = .ok w ∧ w.root.at? p = some m ∧
      w.root.without p = [.node t'.root] := by
  obtain ⟨q, j, w, u, rfl, hw, hu, hput⟩ := remove_eq_ok hat h
  obtain ⟨-, hstays⟩ := passes_handOver (i := {}) hat hw
  exact ⟨List.concat_ne_nil j q, w, hw, hstays, hput.without_eq hu hstays⟩

end Tree

theorem Node.closedIn_without {n n' m : Node} {p : Path} (hp : p ≠ []) (hat : n.at? p = some m)
    (h : n.without p = [.node n']) (hn : Element.ClosedIn n.children) :
    Element.ClosedIn n'.children := by
  cases p with
  | nil => exact absurd rfl hp
  | cons i p =>
    obtain ⟨c, hc, -⟩ := at?_cons_eq_some.1 hat
    rw [without_cons hc] at h
    obtain rfl := Element.node.inj (List.cons.inj h).1
    exact (hn.after hc).append_left _


/-! ## Removal of an import -/

theorem Trivia.filter_isRemark_of_not_hasRemark {run : List Trivia}
    (h : ¬Trivia.hasRemark run = true) : run.filter isRemark = [] := by
  rw [List.filter_eq_nil_iff]
  exact fun piece hpiece hremark => h (List.any_eq_true.2 ⟨piece, hpiece, hremark⟩)

namespace Edit

variable {t t' : Tree} {s : Site} {space : String}

/-- An import that goes is one part less, and what comes after it takes over its remarks. -/
theorem outline_removeImport (hfile : t.root.FileLike) (hs : s ∈ t.sites)
    (hkind : s.node.kind = .usingDirective) (h : removeImport s = .ok t') :
    ∃ before after after', t.root.outline = before ++ .node s.node :: after ∧
      t'.root.outline = before ++ after' ∧
      Element.TakesOver (Element.node s.node).remarks after after' := by
  obtain ⟨rfl, hat⟩ := Tree.mem_sites_iff.1 hs
  obtain ⟨hp, w, hw, hstays, hwithout⟩ := Tree.without_of_remove hat h
  have hway := hfile.flat.above hat hkind
  have hself : s.node.outline = [.node s.node] := Node.outline_of_import hkind
  have houtline : t'.root.outline = Element.outlineIn (w.root.without s.path) := by
    rw [hwithout, Element.outlineIn_cons, Element.outlineIn_nil, List.append_nil,
      Element.outline_node]
  rw [houtline, Element.remarks_node]
  by_cases hremark : Trivia.hasRemark s.node.leading = true
  · rw [if_pos hremark] at hw
    simp only [Tree.handOver] at hw
    split at hw
    · rename_i hempty
      rw [List.isEmpty_iff.1 hempty] at hremark
      cases hremark
    · simp only [Tree.updateTokenAfter, Tree.updateNear] at hw
      split at hw
      · -- there is a token after the import, so the search for it finds one
        rename_i hnone
        obtain ⟨q, j, u, hpath, -, -, hu, -⟩ := Tree.exists_parent hp hat
        rw [hpath, List.dropLast_concat, hu, Option.bind_some, ← hpath] at hnone
        exact absurd (Node.near_of_adjacentSlot?_eq_none hat hnone)
          (hfile.tokensAfter_ne_nil hp hat)
      · rename_i q j hslot
        obtain ⟨-, -, hslot⟩ := Option.bind_eq_some_iff.1 hslot
        obtain ⟨before, after, hcut, hne, hleft⟩ :=
          Node.outline_without_of_adjacentSlot? hat hway hslot (Tree.tryUpdate_eq_ok hw)
        rw [hself] at hcut
        exact ⟨before, after, _, hcut, hleft, Element.takesOver_leading hne _⟩
  · rw [if_neg hremark] at hw
    obtain rfl := Except.ok.inj hw
    obtain ⟨before, after, hcut, hleft, -, -⟩ := Node.exists_outline hat hway
    rw [hself] at hcut
    rw [Trivia.filter_isRemark_of_not_hasRemark hremark]
    exact ⟨before, after, after, hcut, hleft, Element.takesOver_nil after⟩

theorem handsOn_removeImport (hfile : t.root.FileLike) (hs : s ∈ t.sites)
    (hkind : s.node.kind = .usingDirective) (h : removeImport s = .ok t') :
    t.root.HandsOn t'.root := by
  obtain ⟨before, after, after', hold, hnew, hafter⟩ := outline_removeImport hfile hs hkind h
  refine ⟨?_, ?_, ?_⟩
  · obtain ⟨rfl, hat⟩ := Tree.mem_sites_iff.1 hs
    have hkeeps : s.tree.root.Keeps t'.root := Tree.keeps_remove hat (by rw [hkind]; rfl) h
    obtain ⟨hp, w, hw, hstays, hwithout⟩ := Tree.without_of_remove hat h
    have hclosed : w.root.Closed {} := by
      refine (Tree.passes_handOver hat hw).1.closed ⟨hfile.kind_eq, hfile.closed, ?_⟩
      rintro (⟨tag, htag, -⟩ | ⟨tag, htag, -⟩ | ⟨tag, htag, -⟩) <;> cases htag
    exact ⟨hkeeps.kind_eq.trans hfile.kind_eq,
      Node.closedIn_without hp hstays hwithout hclosed.closed,
      (Tree.noNewImport_remove h).flat hfile.flat⟩
  · rw [hold, hnew, Element.wordsIn_append, Element.wordsIn_append, Element.wordsIn_node,
      hafter.words]
  · rw [hold, hnew, Element.remarksIn_append, Element.remarksIn_append, Element.remarksIn_cons,
      hafter.remarks]

theorem handsOn_removeImports (hfile : t.root.FileLike) (delta : ImportDelta) (bound : Nat) :
    t.root.HandsOn (removeImports delta bound t).root := by
  induction bound generalizing t with
  | zero => exact hfile.handsOn
  | succ bound ih =>
    simp only [removeImports]
    split
    · exact hfile.handsOn
    · rename_i s hfound
      split
      · rename_i next hnext
        obtain ⟨hs, hkind⟩ := imports_mem (List.mem_of_find?_eq_some hfound)
        have hstep := handsOn_removeImport hfile hs hkind hnext
        exact hstep.trans (ih hstep.file)
      · exact hfile.handsOn

/-! ## Addition of an import -/

theorem lastLine_suffix (run : List Trivia) : Trivia.lastLine run <:+ run := by
  rw [← List.reverse_prefix, Trivia.lastLine, List.reverse_reverse]
  exact List.takeWhile_prefix _

theorem filter_isRemark_indentation (run : List Trivia) :
    (Trivia.indentation run).filter Trivia.isRemark = [] := by
  rw [Trivia.indentation, List.filter_filter, List.filter_eq_nil_iff]
  intro piece _
  cases piece <;> simp [Trivia.isRemark, Trivia.isWhitespace]

/-- The remarks in front of a file come before its first import or behind it. -/
theorem remarks_splitHeader (run : List Trivia) :
    (splitHeader run).1.filter Trivia.isRemark ++ (splitHeader run).2.filter Trivia.isRemark =
      run.filter Trivia.isRemark := by
  have hline : ∀ rest : List Trivia,
      (Trivia.newline :: rest).filter Trivia.isRemark = rest.filter Trivia.isRemark :=
    fun _ => rfl
  have hparts : run.take (run.length - (Trivia.lastLine run).length) ++ Trivia.lastLine run = run := by
    have hdrop := List.suffix_iff_eq_drop.1 (lastLine_suffix run)
    exact (congrArg (run.take _ ++ ·) hdrop).trans (List.take_append_drop _ run)
  simp only [splitHeader]
  by_cases hremark : Trivia.hasRemark run = true
  · rw [if_pos hremark]
    split
    · rw [← List.filter_append, hparts]
    · rw [hline, ← List.filter_append, hparts]
  · rw [if_neg hremark]
    split
    · rfl
    · rw [hline]
      rfl

theorem tokens_ne_nil_of_importDirective {directive : Node}
    (h : importDirective space = .ok directive) : directive.tokens ≠ [] := by
  obtain ⟨name, -, rfl⟩ := importDirective_eq_ok h
  exact List.cons_ne_nil _ _

/-- A file with one more import, in front of which the trivia stands. -/
structure Added (n n' directive : Node) (trivia : List Trivia) (before after after' : List Element) :
    Prop where
  old : n.outline = before ++ after
  new : n'.outline = before ++ .node (directive.withLeading trivia) :: after'
  closed : Element.ClosedIn n'.children
  words : Element.wordsIn after' = Element.wordsIn after
  imports : Element.importsIn after' = Element.importsIn after
  remarks : trivia.filter Trivia.isRemark ++ Element.remarksIn after' = Element.remarksIn after

/-- An import that goes on top of a file without imports takes the head of what stands in front of
    the file. -/
theorem added_onTop {directive : Node} (hfile : t.root.FileLike)
    (hnone : Element.importsIn t.root.outline = []) (hkind : directive.kind = .usingDirective) :
    ∃ t', addImport.onTop t directive = .ok t' ∧
      ∃ trivia after', Added t.root t'.root directive trivia [] t.root.outline after' := by
  simp only [addImport.onTop]
  have hheader := remarks_splitHeader t.root.leading
  generalize splitHeader t.root.leading = split at hheader
  -- The header goes to the new import and the rest stays in front of the file.
  obtain ⟨header, rest⟩ := split
  have hself : (t.root.withLeading rest).kind ≠ .usingDirective := by
    rw [(t.root.keeps_withLeading rest).kind_eq]
    exact hfile.ne_import
  have hdirective : (directive.withLeading header).kind = .usingDirective :=
    (directive.keeps_withLeading header).kind_eq.trans hkind
  have hlead : Token.LeadingOnly fun u => { u with leading := rest } :=
    Token.leadingOnly_set fun _ => rest
  have houtline : (t.root.withLeading rest).outline =
      Element.mapFirstIn (fun u => { u with leading := rest }) t.root.outline :=
    t.root.outline_mapFirst _
  have hmoved : Element.ClosedIn (t.root.withLeading rest).children := by
    refine hfile.closed.of_map ?_
    rw [children_withLeading]
    exact Element.map_isEnd_mapFirstIn (Token.keepsWord_leading fun _ => rest) _
  refine ⟨_, rfl, header, (t.root.withLeading rest).outline, ⟨rfl, ?_, ?_, ?_, ?_, ?_⟩⟩
  · show ((t.root.withLeading rest).withChildren ([.node (directive.withLeading header)] ++
      (t.root.withLeading rest).children)).outline = _
    rw [Node.outline_withChildren hself, Element.outlineIn_append, Element.outlineIn_cons,
      Element.outline_node, Node.outline_of_import hdirective, ← Node.outline_of_ne hself]
    rfl
  · exact hmoved.append_left [.node (directive.withLeading header)]
  · rw [houtline, Element.wordsIn_mapFirstIn hlead]
  · have hentries := Element.entriesIn_mapFirstIn hlead t.root.outline
    rw [Element.entriesIn, Element.entriesIn, hnone] at hentries
    rw [houtline, hnone, List.map_eq_nil_iff.1 hentries]
  · have hne : Element.tokensIn t.root.outline ≠ [] := by
      rw [t.root.tokensIn_outline, t.root.tokens_eq]
      exact Node.tokensIn_ne_nil_of_closedIn hfile.closed
    obtain ⟨u, more, hhead, hold, hnew⟩ := Element.exists_remarksIn hne
    rw [t.root.tokensIn_outline] at hhead
    rw [Node.leading, Node.firstToken?, hhead] at hheader
    rw [houtline, hnew, hold, ← List.append_assoc]
    exact congrArg (· ++ more) hheader

theorem imports_of_lastImport?_eq_none (h : lastImport? t = none) : t.imports = [] := by
  simp only [lastImport?] at h
  split at h
  · cases h
  · cases himports : t.imports with
    | nil => rfl
    | cons first rest =>
      rw [himports, List.head?_cons, Option.bind_some, List.getLast?_eq_none_iff,
        List.filter_eq_nil_iff] at h
      exact absurd (beq_iff_eq.2 rfl) (h first (List.mem_cons_self ..))

/-- An import that goes next to the parts of a node that stands in no import. -/
theorem exists_insert {p : Path} {i : Nat} {u d : Node} (hat : t.root.at? p = some u)
    (hself : u.kind ≠ .usingDirective) (hway : ∀ top ∈ t.root.above p, top.kind ≠ .usingDirective)
    (hi : i ≤ u.children.length) (hd : d.kind = .usingDirective) :
    ∃ t', t.insert p i [.node d] = .ok t' ∧
      Node.Put (u.withChildren (u.children.take i ++ [.node d] ++ u.children.drop i)) p t.root t'.root ∧
      ∃ before after, t.root.outline = before ++ after ∧
        t'.root.outline = before ++ .node d :: after := by
  have hok : (if i > u.children.length then Except.error (TreeError.invalidPath (p.child i))
      else .ok (u.withChildren (u.children.take i ++ [.node d] ++ u.children.drop i))) =
        .ok (u.withChildren (u.children.take i ++ [.node d] ++ u.children.drop i)) :=
    if_neg (Nat.not_lt.2 hi)
  obtain ⟨t', ht'⟩ : ∃ t', t.insert p i [.node d] = .ok t' := Tree.exists_tryUpdate hat hok
  obtain ⟨m, m', hm, hm', hput⟩ := Tree.put_of_tryUpdate ht'
  obtain rfl : u = m := Option.some.inj (hat.symm.trans hm)
  obtain rfl := Except.ok.inj (hok.symm.trans hm')
  obtain ⟨before, after, hcut, -, -, hsplice⟩ := Node.exists_outline hat hway
  refine ⟨t', ht', hput, before ++ Element.outlineIn (u.children.take i),
    Element.outlineIn (u.children.drop i) ++ after, ?_, ?_⟩
  · rw [hcut, Node.outline_of_ne hself]
    conv_lhs => rw [← List.take_append_drop i u.children, Element.outlineIn_append]
    simp only [List.append_assoc]
  · rw [hsplice _ _ hput, Node.outline_withChildren hself, Element.outlineIn_append,
      Element.outlineIn_append, Element.outlineIn_cons, Element.outline_node,
      Node.outline_of_import hd]
    simp

/-- A namespace for which there is a directive can be imported. -/
theorem exists_addImport {directive : Node} (hfile : t.root.FileLike)
    (hdirective : importDirective space = .ok directive) :
    ∃ t', addImport t space = .ok t' ∧
      ∃ trivia before after after', Added t.root t'.root directive trivia before after after' := by
  have hkind := (fresh_importDirective hdirective).2
  have hread : ∀ {α : Type} (next : Node → Except EditError α),
      (importDirective space >>= next) = next directive := by
    intro α next
    rw [hdirective]
    rfl
  rw [addImport, hread]
  split
  · rename_i last hlast
    obtain ⟨hs, hlastKind⟩ := lastImport?_mem hlast
    obtain ⟨htree, hat⟩ := Tree.mem_sites_iff.1 hs
    have hp : last.path ≠ [] := by
      intro hnil
      rw [hnil] at hat
      obtain hroot := Option.some.inj hat
      exact hfile.ne_import (hroot ▸ hlastKind)
    -- The new import goes behind the last one, whose owner is no import since none stands in
    -- another.
    obtain ⟨owner, index, u, hpath, hparent, hindex, hu, hc⟩ := Tree.exists_parent hp hat
    simp only [hparent, hindex]
    have habove := hfile.flat.above hat hlastKind
    rw [hpath, Node.above_concat hu hc] at habove
    obtain ⟨hself, hway⟩ := List.forall_mem_cons.1 habove
    have hlt : index < u.children.length := (List.getElem?_eq_some_iff.1 hc).1
    obtain ⟨t', ht', hput, before, after, hold, hnew⟩ := exists_insert hu hself hway hlt
      (d := directive.withLeading (Trivia.indentation last.node.leading))
      ((directive.keeps_withLeading _).kind_eq.trans hkind)
    refine ⟨t', by rw [ht']; rfl, _, before, after, after, hold, hnew, ?_, rfl, rfl, ?_⟩
    · exact Node.closedIn_put hput hu (fun hclosed => (hclosed.after hc).append_left _) hfile.closed
    · rw [filter_isRemark_indentation, List.nil_append]
  · rename_i hnone
    have himports : Element.importsIn t.root.outline = [] := by
      rw [← Tree.map_node_imports hfile.flat, imports_of_lastImport?_eq_none hnone]
      rfl
    obtain ⟨t', ht', trivia, after', hadded⟩ := added_onTop hfile himports hkind
    exact ⟨t', ht', trivia, _, _, after', hadded⟩

/-- What becomes of a file when a namespace is required: it is imported already, or there is no
    directive for it, or its directive is added. -/
theorem requireImport_cases (hfile : t.root.FileLike) (failures : List Failure) (space : String) :
    (some space ∈ t.imports.map (·.node.importedName?) ∧
      requireImport (t, failures) space = (t, failures)) ∨
    (some space ∉ t.imports.map (·.node.importedName?) ∧
      ((∃ e, importDirective space = .error e ∧ requireImport (t, failures) space =
        (t, failures ++ [⟨.importEdit, e.message, space⟩])) ∨
      ∃ directive t' trivia before after after', importDirective space = .ok directive ∧
        requireImport (t, failures) space = (t', failures) ∧ addImport t space = .ok t' ∧
        Added t.root t'.root directive trivia before after after')) := by
  have hpresent : (t.imports.any fun s => s.node.importedName? == some space) = true ↔
      some space ∈ t.imports.map (·.node.importedName?) := by
    simp
  by_cases hany : (t.imports.any fun s => s.node.importedName? == some space) = true
  · exact .inl ⟨hpresent.1 hany, if_pos hany⟩
  · refine .inr ⟨fun hmem => hany (hpresent.2 hmem), ?_⟩
    cases hdirective : importDirective space with
    | error e =>
      have hadd : addImport t space = .error e := by
        rw [addImport, hdirective]
        rfl
      exact .inl ⟨e, rfl, by simp only [requireImport, if_neg hany, hadd]⟩
    | ok directive =>
      obtain ⟨t', ht', trivia, before, after, after', hadded⟩ := exists_addImport hfile hdirective
      exact .inr ⟨directive, t', trivia, before, after, after', rfl,
        by simp only [requireImport, if_neg hany, ht'], ht', hadded⟩

theorem handsOn_requireImport (hfile : t.root.FileLike) (failures : List Failure) (space : String) :
    t.root.HandsOn (requireImport (t, failures) space).1.root := by
  obtain ⟨-, h⟩ | ⟨-, ⟨e, -, h⟩ | ⟨directive, t', trivia, before, after, after', hdirective, h, hok,
    hadded⟩⟩ := requireImport_cases hfile failures space
  · rw [h]
    exact hfile.handsOn
  · rw [h]
    exact hfile.handsOn
  · rw [h]
    refine ⟨?_, ?_, ?_⟩
    · exact ⟨(keeps_addImport hfile.kind_eq hok).kind_eq.trans hfile.kind_eq, hadded.closed,
        (names_addImport hfile.flat hfile.kind_eq hok).1⟩
    · rw [hadded.old, hadded.new, Element.wordsIn_append, Element.wordsIn_append,
        Element.wordsIn_node, hadded.words]
    · rw [hadded.old, hadded.new, Element.remarksIn_append, Element.remarksIn_append,
        Element.remarksIn_cons, Element.remarks_node,
        Node.leading_withLeading (tokens_ne_nil_of_importDirective hdirective), hadded.remarks]

theorem handsOn_requireImports (hfile : t.root.FileLike) (failures : List Failure)
    (spaces : List String) :
    t.root.HandsOn (spaces.foldl requireImport (t, failures)).1.root := by
  induction spaces generalizing t failures with
  | nil => exact hfile.handsOn
  | cons space spaces ih =>
    have hstep := handsOn_requireImport hfile failures space
    exact hstep.trans (ih hstep.file _)

end Edit

/-- The imports of a file change, and all else stays. -/
theorem ImportDelta.handsOn_apply (delta : ImportDelta) {t : Tree} (hfile : t.root.FileLike) :
    t.root.HandsOn (delta.apply t).1.root := by
  unfold apply
  split
  · exact hfile.handsOn
  · have hremoved := Edit.handsOn_removeImports hfile delta t.imports.length
    exact hremoved.trans (Edit.handsOn_requireImports hremoved.file [] delta.added)

/-! ## Directives but those inside of imports -/

mutual

/-- The directives in front of the tokens of a node, but those of an import behind its first
    token. -/
def Node.kept : Node → List String
  | ⟨kind, children, _, _⟩ =>
    if kind = .usingDirective then Token.tellFirst Token.above (Element.tokensIn children)
    else Element.keptIn children

/-- The directives that are kept of a part. -/
def Element.kept : Element → List String
  | .token u => u.above
  | .node n => n.kept

/-- The directives that are kept of a list of parts. -/
def Element.keptIn : List Element → List String
  | [] => []
  | e :: es => e.kept ++ Element.keptIn es

end

theorem Token.tellFirst_sublist {α : Type} (f : Token → List α) (ts : List Token) :
    (Token.tellFirst f ts).Sublist (ts.flatMap f) := by
  cases ts with
  | nil => exact List.nil_sublist _
  | cons u us => exact List.sublist_append_left _ _

mutual

theorem Node.kept_sublist : (n : Node) → n.kept.Sublist (n.tokens.flatMap Token.above)
  | ⟨kind, children, span, tags⟩ => by
    rw [Node.kept]
    split
    · exact Token.tellFirst_sublist _ _
    · exact Element.keptIn_sublist children

theorem Element.kept_sublist : (e : Element) → e.kept.Sublist (e.tokens.flatMap Token.above)
  | .token u => by
    rw [Element.kept, Element.tokens_token, List.flatMap_singleton]
  | .node n => n.kept_sublist

theorem Element.keptIn_sublist : (es : List Element) →
    (Element.keptIn es).Sublist ((Element.tokensIn es).flatMap Token.above)
  | [] => .refl _
  | e :: es => by
    rw [Element.keptIn, Element.tokensIn_cons, List.flatMap_append]
    exact e.kept_sublist.append (Element.keptIn_sublist es)

end

mutual

/-- What stands outside some inroads is kept. -/
theorem Node.outside_sublist_kept {i : Inroads} : (n : Node) → (p : Place) → (loss : Loss) →
    (n.outside Token.above i p loss).Sublist n.kept
  | ⟨kind, children, span, tags⟩, p, loss => by
    rw [Node.kept]
    split
    · rename_i hkind
      have hrewrites : i.Rewrites p ⟨kind, tags⟩ := .inr (.inr (.inl hkind))
      have hsub := Node.outside_sublist_leading (n := ⟨kind, children, span, tags⟩) hrewrites loss
      rwa [← Node.tellFirst_above] at hsub
    · exact Element.outsideIn_sublist_keptIn children _ _

theorem Element.outside_sublist_kept {i : Inroads} : (e : Element) → (p : Place) →
    (loss : Loss) → (e.outside Token.above i p loss).Sublist e.kept
  | .token u, p, loss => by
    rw [Element.outside, Element.kept]
    split
    · exact List.nil_sublist _
    · exact .refl _
  | .node n, p, loss => n.outside_sublist_kept p loss

theorem Element.outsideIn_sublist_keptIn {i : Inroads} : (es : List Element) → (p : Place) →
    (loss : Loss) → (Element.outsideIn Token.above i p loss es).Sublist (Element.keptIn es)
  | [], _, _ => .refl _
  | e :: es, p, loss => by
    rw [Element.outsideIn, Element.keptIn]
    exact (e.outside_sublist_kept _ loss).append (Element.outsideIn_sublist_keptIn es _ _)

end

theorem Trivia.directivesOf_filter_isRemark (run : List Trivia) :
    directivesOf (run.filter isRemark) = directivesOf run := by
  have hremark : ∀ piece : Trivia, (piece.isDirective && piece.isRemark) = piece.isDirective := by
    intro piece
    cases piece <;> rfl
  rw [directivesOf, directivesOf, List.filter_filter]
  simp only [hremark]

mutual

/-- The directives that are kept are among the remarks of the outline. -/
theorem Node.kept_eq : (n : Node) → n.kept = Trivia.directivesOf (Element.remarksIn n.outline)
  | ⟨kind, children, span, tags⟩ => by
    rw [Node.kept, Node.outline]
    split
    · rw [Element.remarksIn, List.flatMap_singleton, Element.remarks_node,
        Trivia.directivesOf_filter_isRemark, ← Node.tellFirst_above, Node.tokens]
    · exact Element.keptIn_eq children

theorem Element.kept_eq : (e : Element) →
    e.kept = Trivia.directivesOf (Element.remarksIn e.outline)
  | .token u => by
    rw [Element.kept, Element.outline, Element.remarksIn, List.flatMap_singleton, Token.above]
    exact (Trivia.directivesOf_filter_isRemark u.leading).symm
  | .node n => n.kept_eq

theorem Element.keptIn_eq : (es : List Element) →
    Element.keptIn es = Trivia.directivesOf (Element.remarksIn (Element.outlineIn es))
  | [] => rfl
  | e :: es => by
    rw [Element.keptIn, Element.outlineIn, Element.remarksIn_append, Trivia.directivesOf_append,
      e.kept_eq, Element.keptIn_eq es]

end

/-- After its records a plan keeps all directives but those inside of imports. -/
theorem Plan.kept_apply {plan : Plan} {settings : Settings} {t : Tree}
    (hfile : (t.after settings plan.ordered).root.FileLike) :
    (t.after settings plan.ordered).root.kept.Sublist (plan.apply settings t).tree.root.kept := by
  have hands : (t.after settings plan.ordered).root.HandsOn (plan.applyEdits settings t).tree.root :=
    plan.imports.handsOn_apply hfile
  have hedits : (t.after settings plan.ordered).root.kept =
      (plan.applyEdits settings t).tree.root.kept := by
    rw [Node.kept_eq, Node.kept_eq, hands.remarks]
  simp only [apply]
  split
  · rename_i lines _ _
    have hne : Element.tokensIn (plan.applyEdits settings t).tree.root.outline ≠ [] := by
      rw [Node.tokensIn_outline, Node.tokens_eq]
      exact Node.tokensIn_ne_nil_of_closedIn hands.file.closed
    have htop := Element.takesOver_leading hne (Banner.trivia lines)
    rw [hedits, Node.kept_eq, Node.kept_eq]
    show List.Sublist _ (Trivia.directivesOf (Element.remarksIn
      (Node.mapFirst (fun u => { u with leading := Banner.trivia lines ++ u.leading }) _).outline))
    rw [Node.outline_mapFirst, htop.remarks, Trivia.directivesOf_append]
    exact List.sublist_append_right _ _
  · rw [hedits]

end Recast
