-- SUMMARY: A change of imports touches imports alone: the spared ones stay in order, new ones stand for added namespaces, what cannot be read as a name fails, and a second change finds nothing to do.
import Recast.Proofs.Grammar.Wrapping
import Recast.Proofs.Migration.Directives
import Recast.Proofs.Source.Cutting

/-! # Importing

A change of imports first takes directives out, one at a time, and then requires namespaces, one at
a time. What the first loop leaves is what the change spares, since each round removes one of the
others and there are enough rounds (`Edit.entries_removeImports`). The second loop adds a directive
when none has the name yet; which of the directives are its own is carried along as their origin
(`Edit.Requires`).

A namespace that is refused is no name. The text of a name is a name again
(`Fragment.exists_readName_text`), so no directive of the second loop has such a namespace, and what
is refused does not depend on what was added before. -/

namespace Recast

/-! ## Names -/

namespace Fragment

variable {space : String} {name : Node}

theorem spelled_of_readName (h : readName space = .ok name) : Grammar.Spelled .path name.tokens :=
  of_readAll (A := fun m : Node => Grammar.Spelled .path m.tokens)
    (fun hg => Grammar.spellsNode_typeName hg.spelling) h

theorem holdsText_of_readName (h : readName space = .ok name) : HoldsText space [name] := by
  have hread : Fragment.name.read space = .ok [name] := by
    show (do return [← readName space]) = _
    rw [h]
    rfl
  exact (readFrom_of_read hread).holdsText

/-- The text of a name is a name, with that text. -/
theorem exists_readName_text (h : readName space = .ok name) :
    ∃ again, readName name.text = .ok again ∧ again.text = name.text := by
  have hspelled := spelled_of_readName h
  obtain ⟨last, hscan, -, -⟩ := holdsText_of_readName h
  rw [List.flatMap_singleton, ← List.nil_append (name.tokens ++ [last])] at hscan
  obtain ⟨us, finish, hagain, hfinish, hwords, hgaps⟩ :=
    Token.exists_scan_textOf hscan (List.cons_ne_nil _ _) (.inr hspelled.inType)
  obtain ⟨again, hread⟩ : ∃ again, readName (Token.textOf name.tokens) = .ok again := by
    refine Grammar.exists_readName hagain ?_ hspelled
    obtain ⟨init, trivia, stop, htokens, -⟩ := (Token.scanned_of_scan hagain).finish
    obtain ⟨-, rfl⟩ := List.append_singleton_inj.1 htokens
    rw [List.map_append, hwords]
    rfl
  refine ⟨again, hread, ?_⟩
  obtain ⟨last', hscan', -, -⟩ := holdsText_of_readName hread
  rw [List.flatMap_singleton, hagain] at hscan'
  obtain ⟨rfl, -⟩ := List.append_singleton_inj.1 (Except.ok.inj hscan')
  exact Token.textOf_congr hwords hgaps

end Fragment

/-! ## What a change does -/

/-- The import directives of a tree, in document order. -/
def Tree.importNodes (t : Tree) : List Node :=
  t.imports.map Site.node

theorem Tree.map_importedName?_imports (t : Tree) :
    t.imports.map (·.node.importedName?) = t.importNodes.map Node.importedName? := by
  rw [importNodes, List.map_map]
  rfl

/-- The directive that is added for a namespace, with some trivia in front of it. -/
def Node.Introduces (n : Node) (space : String) : Prop :=
  ∃ directive trivia, Edit.importDirective space = .ok directive ∧ n = directive.withLeading trivia

namespace ImportDelta

/-- True when a change takes a directive out. -/
def drops (delta : ImportDelta) (directive : Node) : Bool :=
  (directive.importedName?.map delta.removes).getD false

/-- The directives that a change leaves where they are. -/
def spared (delta : ImportDelta) (t : Tree) : List Node :=
  t.importNodes.filter fun n => !delta.drops n

/-- The failure of a namespace that is neither present nor a name. -/
def refusal? (present : List (Option String)) (space : String) : Option Failure :=
  if some space ∈ present then none
  else match Fragment.readName space with
    | .ok _ => none
    | .error cause => some ⟨.importEdit, (EditError.notNamespace space cause).message, space⟩

variable {delta : ImportDelta} {present present' : List (Option String)} {space : String}

theorem refusal?_of_mem (h : some space ∈ present) : refusal? present space = none :=
  if_pos h

theorem refusal?_of_ok {name : Node} (h : Fragment.readName space = .ok name) :
    refusal? present space = none := by
  simp only [refusal?, h, ite_self]

theorem refusal?_of_error {cause : ParseError} (h : Fragment.readName space = .error cause)
    (hnone : some space ∉ present) : refusal? present space =
      some ⟨.importEdit, (EditError.notNamespace space cause).message, space⟩ := by
  simp only [refusal?, h, if_neg hnone]

theorem refusal?_congr
    (h : ∀ cause, Fragment.readName space = .error cause → (some space ∈ present ↔ some space ∈ present')) :
    refusal? present space = refusal? present' space := by
  cases hread : Fragment.readName space with
  | ok name => rw [refusal?_of_ok hread, refusal?_of_ok hread]
  | error cause => simp only [refusal?, hread, h cause hread]

end ImportDelta

namespace Edit

variable {space : String} {directive : Node}

theorem importDirective_eq_error {e : EditError} (h : importDirective space = .error e) :
    ∃ cause, Fragment.readName space = .error cause ∧ e = .notNamespace space cause := by
  unfold importDirective at h
  split at h
  · rename_i cause hcause
    obtain rfl := Except.error.inj h
    exact ⟨cause, hcause, rfl⟩
  · cases h

end Edit

/-- An added directive gives a name, which is the text of one that was read. -/
theorem Node.Introduces.name {n : Node} {space : String} (h : n.Introduces space) :
    ∃ name, Fragment.readName space = .ok name ∧ n.importedName? = some name.text := by
  obtain ⟨directive, trivia, hdirective, rfl⟩ := h
  obtain ⟨name, hname, rfl⟩ := Edit.importDirective_eq_ok hdirective
  refine ⟨name, hname, ?_⟩
  rw [Node.withLeading, Node.importedName?_mapFirst (Token.leadingOnly_set fun _ => trivia)]
  rfl

theorem Node.Introduces.isPlainImport {n : Node} {space : String} (h : n.Introduces space) :
    n.isPlainImport = true := by
  obtain ⟨directive, trivia, hdirective, rfl⟩ := h
  rw [Node.withLeading, Element.isPlainImport_mapFirst (Token.leadingOnly_set fun _ => trivia)]
  obtain ⟨name, -, rfl⟩ := Edit.importDirective_eq_ok hdirective
  rfl

/-! ## Removal -/

namespace Edit

variable {t : Tree} {delta : ImportDelta}

/-- The imports that a change spares are there after each round. -/
theorem entries_removeImports (hfile : t.root.FileLike) (delta : ImportDelta) (bound : Nat) :
    ((Element.importsIn (removeImports delta bound t).root.outline).filter
      fun n => !delta.drops n).map Node.entry =
    ((Element.importsIn t.root.outline).filter fun n => !delta.drops n).map Node.entry := by
  -- Whether an import goes can be told from its entry.
  have hentries : ∀ ns ns' : List Node, ns.map Node.entry = ns'.map Node.entry →
      (ns.filter fun n => !delta.drops n).map Node.entry =
        (ns'.filter fun n => !delta.drops n).map Node.entry := by
    intro ns ns' h
    have hfilter : ∀ ns : List Node, (ns.filter fun n => !delta.drops n).map Node.entry =
        (ns.map Node.entry).filter fun entry => !(entry.1.map delta.removes).getD false := by
      intro ns
      rw [List.filter_map]
      rfl
    rw [hfilter, hfilter, h]
  induction bound generalizing t with
  | zero => rfl
  | succ bound ih =>
    simp only [removeImports]
    split
    · rfl
    · rename_i s hfound
      split
      · rename_i next hnext
        obtain ⟨hs, hkind⟩ := imports_mem (List.mem_of_find?_eq_some hfound)
        have hdrops : delta.drops s.node = true := by
          have hwanted := List.find?_some hfound
          exact hwanted
        obtain ⟨before, after, after', hold, hnew, hafter⟩ :=
          outline_removeImport hfile hs hkind hnext
        rw [ih (handsOn_removeImport hfile hs hkind hnext).file, hold, hnew]
        simp only [Element.importsIn_append, Element.importsIn_node, List.filter_append,
          List.map_append, List.filter_cons, hdrops, Bool.not_true, Bool.false_eq_true, if_false]
        rw [hentries _ _ hafter.entries]
      · rfl

theorem removeImports_of_spared {bound : Nat} (h : ∀ n ∈ t.importNodes, delta.drops n = false) :
    removeImports delta bound t = t := by
  cases bound with
  | zero => rfl
  | succ bound =>
    have hnone : t.imports.find? (fun s => delta.drops s.node) = none := by
      rw [List.find?_eq_none]
      intro s hs hdrops
      rw [h s.node (List.mem_map_of_mem hs)] at hdrops
      cases hdrops
    have hnone : t.imports.find?
        (fun s => (s.node.importedName?.map delta.removes).getD false) = none := hnone
    simp only [removeImports, hnone]

/-- After the first loop only spared imports are left, and all of them. -/
theorem importNodes_removeImports (hfile : t.root.FileLike) (delta : ImportDelta) :
    let removed := removeImports delta t.imports.length t
    (∀ n ∈ removed.importNodes, delta.drops n = false) ∧
      removed.importNodes.map Node.entry = (delta.spared t).map Node.entry := by
  intro removed
  have hleft : ∀ n ∈ removed.importNodes, delta.drops n = false := by
    intro n hn
    obtain ⟨s, hs, rfl⟩ := List.mem_map.1 hn
    have hstays := not_removes_of_mem_imports hfile.kind_eq (Nat.le_refl _) s hs
    cases hname : s.node.importedName? with
    | none => rw [ImportDelta.drops, hname, Option.map_none, Option.getD_none]
    | some name =>
      rw [ImportDelta.drops, hname, Option.map_some, Option.getD_some]
      exact hstays name hname
  refine ⟨hleft, ?_⟩
  have hentries := entries_removeImports hfile delta t.imports.length
  have hflat : removed.root.Flat := (handsOn_removeImports hfile delta _).file.flat
  rw [← Tree.map_node_imports hflat, ← Tree.map_node_imports hfile.flat] at hentries
  have hfilter : (removed.importNodes.filter fun n => !delta.drops n) = removed.importNodes := by
    refine List.filter_eq_self.2 fun n hn => ?_
    rw [hleft n hn]
    rfl
  calc removed.importNodes.map Node.entry
      = (removed.importNodes.filter fun n => !delta.drops n).map Node.entry := by rw [hfilter]
    _ = (delta.spared t).map Node.entry := hentries

/-! ## Addition -/

/-- A state of the second loop, for a tree and the namespaces that were required of it so far: where
    its imports come from, what was refused, and that all other namespaces are imported. An import
    with a namespace as its origin was added for it, since the tree does not import it; the others
    are those of the tree. -/
structure Requires (t : Tree) (spaces : List String) (state : Tree × List Failure) : Prop where
  origins : ∃ origins : List (Node × Option String),
    state.1.importNodes = origins.map Prod.fst ∧
    (origins.filter (·.2.isNone)).map Prod.fst = t.importNodes ∧
    ∀ d ∈ origins, ∀ space ∈ d.2, space ∈ spaces ∧ d.1.Introduces space ∧
      some space ∉ t.importNodes.map Node.importedName?
  failures : state.2 = spaces.filterMap (ImportDelta.refusal? (t.importNodes.map Node.importedName?))
  present : ∀ space ∈ spaces, ∀ name, Fragment.readName space = .ok name →
    some space ∈ t.importNodes.map Node.importedName? ∨
      ∃ n ∈ state.1.importNodes, (∃ other, n.Introduces other) ∧ n.importedName? = some name.text

variable {spaces : List String} {state : Tree × List Failure} {space : String}

theorem requires_nil (t : Tree) : Requires t [] (t, []) := by
  refine ⟨⟨t.importNodes.map (·, none), ?_, ?_, ?_⟩, rfl, List.forall_mem_nil _⟩
  · rw [List.map_map]
    exact (List.map_id _).symm
  · rw [List.filter_eq_self.2 (by simp), List.map_map]
    exact List.map_id _
  · simp

/-- The imports of the tree stay. -/
theorem Requires.subset (h : Requires t spaces state) : t.importNodes ⊆ state.1.importNodes := by
  obtain ⟨origins, hall, hold, -⟩ := h.origins
  intro n hn
  rw [← hold] at hn
  obtain ⟨d, hd, rfl⟩ := List.mem_map.1 hn
  exact hall ▸ List.mem_map_of_mem (List.mem_filter.1 hd).1

/-- An import of a state is one of the tree, or was added for a namespace that was not imported. -/
theorem Requires.origin {n : Node} (h : Requires t spaces state) (hn : n ∈ state.1.importNodes) :
    n ∈ t.importNodes ∨ ∃ added ∈ spaces, n.Introduces added ∧
      some added ∉ t.importNodes.map Node.importedName? := by
  obtain ⟨origins, hall, hold, hnew⟩ := h.origins
  obtain ⟨d, hd, rfl⟩ := List.mem_map.1 (hall ▸ hn)
  cases horigin : d.2 with
  | none =>
    refine .inl (hold ▸ List.mem_map_of_mem (List.mem_filter.2 ⟨hd, ?_⟩))
    rw [horigin, Option.isNone_none]
  | some added => exact .inr ⟨added, hnew d hd added horigin⟩

/-- A namespace that is no name is imported in a state only if it was imported before. -/
theorem Requires.mem_iff {cause : ParseError} (h : Requires t spaces state)
    (hcause : Fragment.readName space = .error cause) :
    some space ∈ state.1.importNodes.map Node.importedName? ↔
      some space ∈ t.importNodes.map Node.importedName? := by
  refine ⟨fun hmem => ?_, fun hmem => List.map_subset Node.importedName? h.subset hmem⟩
  obtain ⟨n, hn, hname⟩ := List.mem_map.1 hmem
  rcases h.origin hn with hold | ⟨added, -, hintroduces, -⟩
  · exact List.mem_map.2 ⟨n, hold, hname⟩
  · -- An added directive gives the text of a name, which can be read again.
    obtain ⟨name, hread, hgives⟩ := hintroduces.name
    obtain ⟨again, hagain, -⟩ := Fragment.exists_readName_text hread
    rw [hgives, Option.some.injEq] at hname
    rw [hname, hcause] at hagain
    cases hagain

/-- One more namespace that nothing is added for. -/
theorem Requires.keep {u : Tree} {failures refused : List Failure} (h : Requires t spaces (u, failures))
    (hrefused : (ImportDelta.refusal? (t.importNodes.map Node.importedName?) space).toList = refused)
    (hpresent : ∀ name, Fragment.readName space = .ok name →
      some space ∈ t.importNodes.map Node.importedName? ∨
        ∃ n ∈ u.importNodes, (∃ other, n.Introduces other) ∧ n.importedName? = some name.text) :
    Requires t (spaces ++ [space]) (u, failures ++ refused) := by
  obtain ⟨origins, hall, hold, hnew⟩ := h.origins
  have hfailures : failures = _ := h.failures
  refine ⟨⟨origins, hall, hold, fun d hd added hadded => ?_⟩, ?_, ?_⟩
  · obtain ⟨hmem, hrest⟩ := hnew d hd added hadded
    exact ⟨List.mem_append_left _ hmem, hrest⟩
  · rw [List.filterMap_append, ← hfailures, ← hrefused, List.filterMap_cons]
    cases ImportDelta.refusal? (t.importNodes.map Node.importedName?) space <;> rfl
  · refine List.forall_mem_append.2 ⟨h.present, fun other hother => ?_⟩
    exact List.mem_singleton.1 hother ▸ hpresent

/-- A namespace that is imported already. -/
theorem Requires.keep_imported {u : Tree} {failures : List Failure}
    (h : Requires t spaces (u, failures))
    (hmem : some space ∈ u.importNodes.map Node.importedName?) :
    Requires t (spaces ++ [space]) (u, failures) := by
  have hrefusal : ImportDelta.refusal? (t.importNodes.map Node.importedName?) space = none := by
    rw [ImportDelta.refusal?_congr fun cause hcause => (h.mem_iff hcause).symm]
    exact ImportDelta.refusal?_of_mem hmem
  rw [← List.append_nil failures]
  refine h.keep (by rw [hrefusal, Option.toList_none]) fun name hread => ?_
  obtain ⟨n, hn, hname⟩ := List.mem_map.1 hmem
  rcases h.origin hn with hold | ⟨added, -, hintroduces, -⟩
  · exact .inl (List.mem_map.2 ⟨n, hold, hname⟩)
  · -- The namespace is the text of a name that was added, so it reads as that text.
    obtain ⟨first, hfirst, hgives⟩ := hintroduces.name
    obtain ⟨again, hagain, htext⟩ := Fragment.exists_readName_text hfirst
    obtain rfl := Option.some.inj (hname.symm.trans hgives)
    obtain rfl := Except.ok.inj (hread.symm.trans hagain)
    exact .inr ⟨n, hn, ⟨added, hintroduces⟩, htext ▸ hgives⟩

/-- A namespace that is added, since it is a name and not imported yet. -/
theorem Requires.add {u t' : Tree} {failures : List Failure} {ns ns' : List Node} {n name : Node}
    (h : Requires t spaces (u, failures)) (hread : Fragment.readName space = .ok name)
    (hnone : some space ∉ u.importNodes.map Node.importedName?)
    (hintroduces : n.Introduces space) (hold : u.importNodes = ns ++ ns')
    (hnew : t'.importNodes = ns ++ n :: ns') : Requires t (spaces ++ [space]) (t', failures) := by
  obtain ⟨origins, hall, hstay, horigins⟩ := h.origins
  have hsubset : u.importNodes ⊆ t'.importNodes := by
    rw [hold, hnew]
    exact ((List.sublist_cons_self n ns').append_left ns).subset
  have hfailures : failures = _ := h.failures
  -- The new directive stands among the origins where it stands among the imports.
  obtain ⟨os, os', rfl, hbefore, hafter⟩ := List.map_eq_append_iff.1 (hall.symm.trans hold)
  refine ⟨⟨os ++ (n, some space) :: os', ?_, ?_, ?_⟩, ?_, ?_⟩
  · rw [hnew, ← hbefore, ← hafter, List.map_append, List.map_cons]
  · rw [← hstay]
    simp
  · have hgrown : ∀ d ∈ os ++ os', ∀ added ∈ d.2, added ∈ spaces ++ [space] ∧
        d.1.Introduces added ∧ some added ∉ t.importNodes.map Node.importedName? := by
      intro d hd added hadded
      obtain ⟨hmem, hrest⟩ := horigins d hd added hadded
      exact ⟨List.mem_append_left _ hmem, hrest⟩
    obtain ⟨hgrown, hgrown'⟩ := List.forall_mem_append.1 hgrown
    refine List.forall_mem_append.2 ⟨hgrown, List.forall_mem_cons.2 ⟨fun added hadded => ?_, hgrown'⟩⟩
    obtain rfl := Option.some.inj (Option.mem_def.1 hadded)
    refine ⟨List.mem_append_right _ (List.mem_singleton_self _), hintroduces, fun hthere => hnone ?_⟩
    exact List.map_subset Node.importedName? h.subset hthere
  · rw [List.filterMap_append, List.filterMap_cons_none (ImportDelta.refusal?_of_ok hread),
      List.filterMap_nil, List.append_nil]
    exact hfailures
  · refine List.forall_mem_append.2 ⟨fun other hother name hread => ?_, fun other hother again hagain => ?_⟩
    · refine (h.present other hother name hread).imp_right ?_
      rintro ⟨n, hn, hfound⟩
      exact ⟨n, hsubset hn, hfound⟩
    · rw [List.mem_singleton.1 hother] at hagain
      obtain ⟨first, hfirst, hgives⟩ := hintroduces.name
      obtain rfl := Except.ok.inj (hagain.symm.trans hfirst)
      refine .inr ⟨n, ?_, ⟨space, hintroduces⟩, hgives⟩
      rw [hnew]
      exact List.mem_append_right _ (List.mem_cons_self ..)

/-- One more namespace. -/
theorem Requires.snoc (h : Requires t spaces state) (hfile : state.1.root.FileLike)
    (space : String) : Requires t (spaces ++ [space]) (requireImport state space) := by
  obtain ⟨u, failures⟩ := state
  obtain ⟨hmem, hstep⟩ | ⟨hnone, ⟨e, herror, hstep⟩ | ⟨directive, t', trivia, before, after, after',
    hdirective, hstep, hok, hadded⟩⟩ := requireImport_cases hfile failures space
  · rw [hstep]
    exact h.keep_imported (u.map_importedName?_imports ▸ hmem)
  · obtain ⟨cause, hcause, rfl⟩ := importDirective_eq_error herror
    rw [u.map_importedName?_imports] at hnone
    have hrefusal := ImportDelta.refusal?_of_error hcause (mt (h.mem_iff hcause).2 hnone)
    rw [hstep]
    refine h.keep (by rw [hrefusal, Option.toList_some]) fun name hname => ?_
    rw [hcause] at hname
    cases hname
  · obtain ⟨name, hname, -⟩ := importDirective_eq_ok hdirective
    have hflat' : t'.root.Flat := (names_addImport hfile.flat hfile.kind_eq hok).1
    have hold : u.importNodes = Element.importsIn before ++ Element.importsIn after := by
      rw [Tree.importNodes, Tree.map_node_imports hfile.flat, hadded.old, Element.importsIn_append]
    have hnew : t'.importNodes = Element.importsIn before ++
        directive.withLeading trivia :: Element.importsIn after := by
      rw [Tree.importNodes, Tree.map_node_imports hflat', hadded.new, Element.importsIn_append,
        Element.importsIn_node, hadded.imports]
    rw [hstep]
    exact h.add hname (u.map_importedName?_imports ▸ hnone) ⟨directive, trivia, hdirective, rfl⟩
      hold hnew

/-- The whole second loop. -/
theorem requires_foldl (hfile : t.root.FileLike) (spaces : List String) :
    Requires t spaces (spaces.foldl requireImport (t, [])) := by
  induction spaces using List.reverseRecOn with
  | nil => exact requires_nil t
  | append_singleton spaces space ih =>
    rw [List.foldl_append]
    exact ih.snoc (handsOn_requireImports hfile [] spaces).file space

/-- Where every name among the namespaces is imported, nothing is added. -/
theorem foldl_requireImport_of_present (hfile : t.root.FileLike) (spaces : List String)
    (failures : List Failure) (h : ∀ space ∈ spaces, ∀ name, Fragment.readName space = .ok name →
      some space ∈ t.importNodes.map Node.importedName?) :
    spaces.foldl requireImport (t, failures) = (t, failures ++
      spaces.filterMap (ImportDelta.refusal? (t.importNodes.map Node.importedName?))) := by
  induction spaces generalizing failures with
  | nil => rw [List.foldl_nil, List.filterMap_nil, List.append_nil]
  | cons space spaces ih =>
    obtain ⟨hspace, hspaces⟩ := List.forall_mem_cons.1 h
    have hnames := t.map_importedName?_imports
    rw [List.foldl_cons]
    obtain ⟨hmem, hstep⟩ | ⟨hnone, ⟨e, herror, hstep⟩ | ⟨directive, _, _, _, _, _, hdirective, -⟩⟩ :=
      requireImport_cases hfile failures space
    · rw [hnames] at hmem
      rw [hstep, ih _ hspaces, List.filterMap_cons_none (ImportDelta.refusal?_of_mem hmem)]
    · rw [hnames] at hnone
      obtain ⟨cause, hcause, rfl⟩ := importDirective_eq_error herror
      rw [hstep, ih _ hspaces,
        List.filterMap_cons_some (ImportDelta.refusal?_of_error hcause hnone), List.append_assoc]
      rfl
    · obtain ⟨name, hname, -⟩ := importDirective_eq_ok hdirective
      exact absurd (hspace name hname) (hnames ▸ hnone)

end Edit

/-! ## Whole changes -/

namespace ImportDelta

variable {delta : ImportDelta} {t : Tree}

/-- An empty change is no exception. -/
theorem apply_eq (delta : ImportDelta) (t : Tree) : delta.apply t =
    delta.added.foldl Edit.requireImport (Edit.removeImports delta t.imports.length t, []) := by
  unfold apply
  split
  · rename_i hempty
    obtain ⟨hadded, hroots⟩ := Bool.and_eq_true_iff.1 hempty
    rw [List.isEmpty_iff] at hadded hroots
    rw [hadded, List.foldl_nil, Edit.removeImports_of_spared]
    intro n _
    have hnone : delta.removes = fun _ => false := by
      funext space
      rw [removes, hroots, List.any_nil]
    rw [drops, hnone]
    cases n.importedName? <;> rfl
  · rfl

/-- A change that every name among its namespaces is there for, and no directive to go, does
    nothing. -/
theorem apply_of_present (hfile : t.root.FileLike)
    (hspared : ∀ n ∈ t.importNodes, delta.drops n = false)
    (hpresent : ∀ space ∈ delta.added, ∀ name, Fragment.readName space = .ok name →
      some space ∈ t.importNodes.map Node.importedName?) :
    delta.apply t =
      (t, delta.added.filterMap (refusal? (t.importNodes.map Node.importedName?))) := by
  rw [apply_eq, Edit.removeImports_of_spared hspared,
    Edit.foldl_requireImport_of_present hfile _ _ hpresent, List.nil_append]

/-- The second loop of a change starts where only spared imports are left, and all of them. -/
theorem exists_requires (hfile : t.root.FileLike) (delta : ImportDelta) :
    ∃ removed : Tree, Edit.Requires removed delta.added (delta.apply t) ∧
      (∀ n ∈ removed.importNodes, delta.drops n = false) ∧
      removed.importNodes.map Node.entry = (delta.spared t).map Node.entry := by
  have hremoved := (Edit.handsOn_removeImports hfile delta t.imports.length).file
  obtain ⟨hleft, hspared⟩ := Edit.importNodes_removeImports hfile delta
  exact ⟨_, delta.apply_eq t ▸ Edit.requires_foldl hremoved delta.added, hleft, hspared⟩

theorem names_of_entries {ns ns' : List Node} (h : ns.map Node.entry = ns'.map Node.entry) :
    ns.map Node.importedName? = ns'.map Node.importedName? := by
  have hfirst := congrArg (List.map Prod.fst) h
  rwa [List.map_map, List.map_map] at hfirst

/-- When what is added is not itself to go and is read as it is written, making a change twice is
    making it once. -/
theorem apply_again (hfile : t.root.FileLike) (delta : ImportDelta)
    (hsettled : ∀ space ∈ delta.added, delta.removes space = false ∧
      ∀ name, Fragment.readName space = .ok name → name.text = space) :
    delta.apply (delta.apply t).1 = delta.apply t := by
  obtain ⟨removed, hrun, hleft, -⟩ := delta.exists_requires hfile
  have hstays : ∀ n ∈ (delta.apply t).1.importNodes, delta.drops n = false := by
    intro n hn
    rcases hrun.origin hn with hold | ⟨space, hmem, hintroduces, -⟩
    · exact hleft n hold
    · obtain ⟨name, hread, hgives⟩ := hintroduces.name
      obtain ⟨hspace, htext⟩ := hsettled space hmem
      rw [drops, hgives, htext name hread, Option.map_some, Option.getD_some, hspace]
  have hpresent : ∀ space ∈ delta.added, ∀ name, Fragment.readName space = .ok name →
      some space ∈ (delta.apply t).1.importNodes.map Node.importedName? := by
    intro space hmem name hread
    rcases hrun.present space hmem name hread with hthere | ⟨n, hn, -, hname⟩
    · exact List.map_subset Node.importedName? hrun.subset hthere
    · rw [(hsettled space hmem).2 name hread] at hname
      exact List.mem_map.2 ⟨n, hn, hname⟩
  rw [apply_of_present (delta.handsOn_apply hfile).file hstays hpresent]
  refine Prod.ext rfl (Eq.trans ?_ hrun.failures.symm)
  exact List.filterMap_congr fun space _ => refusal?_congr fun cause hcause => hrun.mem_iff hcause

end ImportDelta

namespace Element

theorem remarksIn_importsIn_sublist (p : Node → Bool) (es : List Element) :
    (((importsIn es).filter p).flatMap fun n => n.leading.filter Trivia.isRemark).Sublist
      (remarksIn es) := by
  induction es with
  | nil => exact .refl _
  | cons e es ih =>
    rw [remarksIn_cons]
    cases e with
    | token u => exact ih.trans (List.sublist_append_right _ _)
    | node n =>
      rw [importsIn_node, List.filter_cons, remarks_node]
      split
      · rw [List.flatMap_cons]
        exact ih.append_left _
      · exact ih.trans (List.sublist_append_right _ _)

theorem remarksIn_sublist (es : List Element) :
    (remarksIn es).Sublist ((tokensIn es).flatMap Token.remarks) := by
  induction es with
  | nil => exact .refl _
  | cons e es ih =>
    rw [remarksIn_cons, tokensIn_cons, List.flatMap_append]
    exact (Token.tellFirst_sublist _ _).append ih

end Element

theorem Tree.fileLike_of_parse {source : String} {reading : Nat} {t : Tree}
    (h : Tree.parse source reading = .ok t) : t.root.FileLike := by
  have hread := Tree.readFrom_of_parse h
  exact ⟨hread.kind_eq, hread.closedIn, (Tree.formed_of_parse h).housed.flat⟩

/-- A change of imports touches imports alone, and making it twice is making it once.

    Each import of the changed file is an old one or was added for a namespace, and an import that
    the change removes is never an old one. The old ones are those that the change spares, in order
    and with the same texts. The texts outside of the imports are the same, and all comments and
    directives in front of the removed imports are still there, in order. A namespace fails, each in
    its turn, when no spared import has it and it is no name. When no added namespace is itself to
    go and each of them that is a name is read as it is written, the same change of the changed file
    does nothing and has the same failures. -/
theorem import_change_touches_imports {source : String} {reading : Nat} {t : Tree}
    (h : Tree.parse source reading = .ok t) (delta : ImportDelta) :
    let changed := (delta.apply t).1
    let failures := (delta.apply t).2
    (∃ origins : List (Node × Option String),
      changed.importNodes = origins.map Prod.fst ∧
      (origins.filter (·.2.isNone)).map (·.1.text) = (delta.spared t).map Node.text ∧
      (∀ d ∈ origins, delta.drops d.1 = true → d.2 ≠ none) ∧
      ∀ d ∈ origins, ∀ space ∈ d.2, space ∈ delta.added ∧ d.1.Introduces space) ∧
    Element.wordsIn changed.root.outline = Element.wordsIn t.root.outline ∧
    ((t.importNodes.filter delta.drops).flatMap fun n => n.leading.filter Trivia.isRemark).Sublist
      (changed.root.tokens.flatMap fun u => u.leading.filter Trivia.isRemark) ∧
    failures =
      delta.added.filterMap (ImportDelta.refusal? ((delta.spared t).map Node.importedName?)) ∧
    ((∀ space ∈ delta.added, delta.removes space = false ∧
        ∀ name, Fragment.readName space = .ok name → name.text = space) →
      delta.apply changed = (changed, failures)) := by
  intro changed failures
  have hfile := Tree.fileLike_of_parse h
  have hands : t.root.HandsOn changed.root := delta.handsOn_apply hfile
  obtain ⟨removed, hrun, hleft, hspared⟩ := delta.exists_requires hfile
  have htexts : removed.importNodes.map Node.text = (delta.spared t).map Node.text := by
    have := congrArg (List.map (·.2.1)) hspared
    rwa [List.map_map, List.map_map] at this
  obtain ⟨origins, hall, hold, hnew⟩ := hrun.origins
  refine ⟨⟨origins, hall, ?_, fun d hd hdrops hnone => ?_, fun d hd space hspace => ?_⟩, hands.words,
    ?_, ?_, delta.apply_again hfile⟩
  · rw [← htexts, ← hold, List.map_map]
    rfl
  · have hd : d ∈ origins.filter (·.2.isNone) := List.mem_filter.2 ⟨hd, by rw [hnone, Option.isNone_none]⟩
    rw [hleft d.1 (hold ▸ List.mem_map_of_mem hd)] at hdrops
    cases hdrops
  · exact ⟨(hnew d hd space hspace).1, (hnew d hd space hspace).2.1⟩
  · have hfront := Element.remarksIn_importsIn_sublist delta.drops t.root.outline
    have hback := Element.remarksIn_sublist changed.root.outline
    rw [hands.remarks, Node.tokensIn_outline] at hback
    rw [← Tree.map_node_imports hfile.flat] at hfront
    exact hfront.trans hback
  · rw [← ImportDelta.names_of_entries hspared]
    exact hrun.failures

/-- A change with a namespace to import, text that is no name, and imports to remove. -/
def swapImports : ImportDelta where
  added := ["TUnit.Core", "Not A Name"]
  removedRoots := ["Xunit"]

theorem import_change_touches_imports_swap : ∃ t,
    Tree.parse "// tests\nusing Xunit;\nusing System;\nclass T \x7b \x7d\n" = .ok t ∧
    Element.wordsIn (swapImports.apply t).1.root.outline = ["class", "T", "\x7b", "\x7d", ""] ∧
    [Trivia.comment "// tests"].Sublist
      ((swapImports.apply t).1.root.tokens.flatMap fun u => u.leading.filter Trivia.isRemark) ∧
    (swapImports.apply t).2.map Failure.written = ["Not A Name"] ∧
    swapImports.apply (swapImports.apply t).1 = swapImports.apply t := by
  obtain ⟨t, ht, hsample⟩ := exists_ok_of_map
    (x := Tree.parse "// tests\nusing Xunit;\nusing System;\nclass T \x7b \x7d\n")
    (f := fun t => (Element.wordsIn t.root.outline,
      (t.importNodes.filter swapImports.drops).flatMap fun n => n.leading.filter Trivia.isRemark,
      (swapImports.added.filterMap (ImportDelta.refusal?
        ((swapImports.spared t).map Node.importedName?))).map Failure.written))
    (b := (["class", "T", "\x7b", "\x7d", ""], [.comment "// tests"], ["Not A Name"]))
    (by decide +kernel)
  obtain ⟨hwords, hsample⟩ := Prod.mk.inj hsample
  obtain ⟨hremarks, hrefused⟩ := Prod.mk.inj hsample
  obtain ⟨-, hrest, hkept, hfailures, hagain⟩ := import_change_touches_imports ht swapImports
  refine ⟨t, ht, hrest.trans hwords, hremarks ▸ hkept, hfailures ▸ hrefused, hagain ?_⟩
  have hnames : ∀ space ∈ swapImports.added, swapImports.removes space = false ∧
      ((Fragment.readName space).toOption.all fun name => name.text == space) = true := by
    decide +kernel
  intro space hspace
  obtain ⟨hstays, htext⟩ := hnames space hspace
  refine ⟨hstays, fun name hname => ?_⟩
  rw [hname] at htext
  exact eq_of_beq htext

end Recast
