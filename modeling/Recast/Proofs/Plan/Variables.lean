-- SUMMARY: A statement that captures exceptions declares what it declared when it was read until it is replaced, and what replaces it declares the one variable that the record names.
import Recast.Proofs.Edit.Capturing
import Recast.Proofs.Edit.Growing
import Recast.Proofs.Edit.Handover
import Recast.Proofs.Edit.Preserving
import Recast.Proofs.Grammar.Tiling
import Recast.Proofs.Plan.Covering

/-! # Variables of captures

Captures are carried out before all other records, each in place of a whole statement. So what bears a
tag declares the same variables all the while (`Node.Reflects`), and the indentation of a statement is
made of the blanks that it was read with. The statement gives way to statements of which the first
declares the captured variable and no other one. -/

namespace Recast

/-! ## The same variables -/

/-- What a part tells of the variables of the node that it stands in. -/
inductive Told where
  /-- An identifier, which may be the name of the node. -/
  | name (text : String)
  /-- A variable, with its name. -/
  | declarator (name? : Option String)
  /-- A declaration, with the names of its variables. -/
  | declaration (names : List String)

def Element.told : Element → List Told
  | .token u => if u.kind == .identifier then [.name u.text] else []
  | .node c =>
    if c.kind == .variableDeclarator then [.declarator c.identifier?]
    else if c.kind == .variableDeclaration then [.declaration c.variableNames]
    else []

namespace Node

variable {n n' n'' c : Node}

/-- What the parts of a node tell of its variables. -/
def told (n : Node) : List Told :=
  n.children.flatMap Element.told

theorem identifier?_eq (n : Node) :
    n.identifier? = n.told.findSome? fun told => match told with
      | .name text => some text
      | _ => none := by
  rw [identifier?, childTokens, told]
  induction n.children with
  | nil => rfl
  | cons e es ih =>
    rw [List.flatMap_cons, List.findSome?_append, ← ih]
    cases e with
    | token u =>
      by_cases hkind : u.kind = .identifier <;> simp [Element.told, Element.token?, hkind]
    | node c =>
      simp only [Element.told, Element.token?, List.filterMap_cons]
      split
      · rfl
      · split <;> rfl

theorem variableNames_eq (n : Node) :
    n.variableNames = n.told.filterMap fun told => match told with
      | .declarator name? => name?
      | _ => none := by
  rw [variableNames, childrenOf, childNodes, told]
  induction n.children with
  | nil => rfl
  | cons e es ih =>
    rw [List.flatMap_cons, List.filterMap_append, ← ih, List.filterMap_cons]
    cases e with
    | token u => by_cases hkind : u.kind = .identifier <;> simp [Element.told, Element.node?, hkind]
    | node c =>
      by_cases hkind : c.kind = .variableDeclarator
      · cases hname : c.identifier? <;> simp [Element.told, Element.node?, hkind, hname]
      · by_cases hother : c.kind = .variableDeclaration <;>
          simp [Element.told, Element.node?, hkind, hother]

theorem declared_eq (n : Node) :
    n.declared = n.told.flatMap fun told => match told with
      | .declaration names => names
      | _ => [] := by
  rw [declared, childrenOf, childNodes, told]
  induction n.children with
  | nil => rfl
  | cons e es ih =>
    rw [List.flatMap_cons, List.flatMap_append, ← ih, List.filterMap_cons]
    cases e with
    | token u => by_cases hkind : u.kind = .identifier <;> simp [Element.told, Element.node?, hkind]
    | node c =>
      by_cases hkind : c.kind = .variableDeclaration
      · simp [Element.told, Element.node?, hkind]
      · by_cases hother : c.kind = .variableDeclarator <;>
          simp [Element.told, Element.node?, hkind, hother]

/-- The nodes are of one kind and have and declare the same variables. -/
structure SameNames (n n' : Node) : Prop where
  kind_eq : n'.kind = n.kind
  told_eq : n'.told = n.told

theorem SameNames.refl (n : Node) : n.SameNames n :=
  ⟨rfl, rfl⟩

theorem SameNames.trans (h : n.SameNames n') (h' : n'.SameNames n'') : n.SameNames n'' :=
  ⟨h'.kind_eq.trans h.kind_eq, h'.told_eq.trans h.told_eq⟩

theorem SameNames.declared_eq (h : n.SameNames n') : n'.declared = n.declared := by
  rw [Node.declared_eq, h.told_eq, ← Node.declared_eq]

theorem SameNames.told_node (h : n.SameNames n') :
    (Element.node n').told = (Element.node n).told := by
  simp only [Element.told, h.kind_eq, identifier?_eq, variableNames_eq, h.told_eq]

theorem sameNames_of_children (hkind : n'.kind = n.kind)
    (h : n'.children.map Element.told = n.children.map Element.told) : n.SameNames n' := by
  refine ⟨hkind, ?_⟩
  rw [told, told, List.flatMap_def, h, ← List.flatMap_def]

/-- A node that is neither a variable nor a declaration of some tells nothing. -/
theorem told_node_eq_nil (hvariable : c.kind ≠ .variableDeclarator)
    (hdeclaration : c.kind ≠ .variableDeclaration) : (Element.node c).told = [] := by
  simp [Element.told, hvariable, hdeclaration]

end Node

/-! ### Without tags, and without trivia -/

mutual

theorem Node.sameNames_untagged : (n : Node) → n.SameNames n.untagged
  | ⟨_, children, _, _⟩ => Node.sameNames_of_children rfl (Element.told_untaggedIn children)

theorem Element.told_untagged : (e : Element) → e.untagged.told = e.told
  | .token _ => rfl
  | .node n => n.sameNames_untagged.told_node

theorem Element.told_untaggedIn : (es : List Element) →
    (Element.untaggedIn es).map Element.told = es.map Element.told
  | [] => rfl
  | e :: es => by
    rw [Element.untaggedIn, List.map_cons, List.map_cons, e.told_untagged,
      Element.told_untaggedIn es]

end

mutual

theorem Node.sameNames_bald : (n : Node) → n.SameNames (n.mapTokens .bald)
  | ⟨_, children, _, _⟩ => Node.sameNames_of_children rfl (Element.told_baldIn children)

theorem Element.told_bald : (e : Element) → (e.mapTokens .bald).told = e.told
  | .token _ => rfl
  | .node n => n.sameNames_bald.told_node

theorem Element.told_baldIn : (es : List Element) →
    (Element.mapTokensIn .bald es).map Element.told = es.map Element.told
  | [] => rfl
  | e :: es => by
    rw [Element.mapTokensIn, List.map_cons, List.map_cons, e.told_bald, Element.told_baldIn es]

end

theorem Node.Alike.declared_eq {n m : Node} (h : n.Alike m) : n.declared = m.declared := by
  rw [← n.sameNames_untagged.declared_eq, ← m.sameNames_untagged.declared_eq]
  exact congrArg Node.declared h

/-! ## Statements that take over trivia -/

namespace Edit

theorem map_runWithTriviaOf {α : Type} {h : Node → α} {n : Node}
    (hleading : ∀ r : Node, h (r.withLeading n.leading) = h r)
    (htrailing : ∀ r : Node, h (r.withTrailing n.trailing) = h r) (rs : List Node) :
    (runWithTriviaOf n rs).map h = rs.map h := by
  cases rs with
  | nil => rfl
  | cons first rest =>
    have hmodify := map_modify_of_eq htrailing rest.length (first :: rest)
    simp only [runWithTriviaOf]
    split
    · rename_i heq
      rw [heq] at hmodify
      exact hmodify
    · rename_i first' rest' heq
      rw [← hmodify, heq, List.map_cons, List.map_cons, hleading]

/-- A capture is one whatever trivia stands around it. -/
theorem Captures.of_mapTokens {captured : String} {statements statements' : List Node}
    (h : Captures captured statements)
    (hsame : statements'.map (Node.mapTokens .bald) = statements.map (Node.mapTokens .bald)) :
    Captures captured statements' := by
  have hbald : ∀ ns : List Node, (ns.flatMap Node.tokens).map Token.bare =
      ((ns.map (Node.mapTokens .bald)).flatMap Node.tokens).map Token.bare := by
    intro ns
    rw [List.flatMap_map, List.map_flatMap, List.map_flatMap]
    simp only [Node.tokens_mapTokens, List.map_map]
    rfl
  obtain ⟨⟨first, hfirst, hkind, hdeclared⟩, middle, hwords⟩ := h
  refine ⟨?_, middle, by rw [hbald, hsame, ← hbald, hwords]⟩
  have hhead := congrArg List.head? hsame
  rw [List.head?_map, List.head?_map, Option.mem_def.1 hfirst, Option.map_some] at hhead
  obtain ⟨first', hfirst', hmap⟩ := Option.map_eq_some_iff.1 hhead
  refine ⟨first', hfirst', (Node.kind_of_mapTokens hmap).trans hkind, ?_⟩
  rw [← first'.sameNames_bald.declared_eq, hmap, first.sameNames_bald.declared_eq, hdeclared]

end Edit

/-! ## Tagged nodes -/

namespace Node

/-- The second node has and declares the same variables as the first, and so has every node in it that
    bears tags a counterpart in the first. -/
structure Reflects (n n' : Node) : Prop where
  same : n.SameNames n'
  tagged : ∀ p m', n'.at? p = some m' → m'.tags ≠ [] →
    ∃ q m, n.at? q = some m ∧ m.tags = m'.tags ∧ m.SameNames m'

variable {n n' n'' m r c : Node} {p : Path} {i : Nat} {news : List Node}

theorem Reflects.refl (n : Node) : n.Reflects n :=
  ⟨.refl n, fun p m hat _ => ⟨p, m, hat, rfl, .refl m⟩⟩

theorem Reflects.trans (h : n.Reflects n') (h' : n'.Reflects n'') : n.Reflects n'' := by
  refine ⟨h.same.trans h'.same, fun p m'' hat htags => ?_⟩
  obtain ⟨q, m', hm', htags', hsame'⟩ := h'.tagged p m'' hat htags
  obtain ⟨q', m, hm, htags'', hsame⟩ := h.tagged q m' hm' (htags' ▸ htags)
  exact ⟨q', m, hm, htags''.trans htags', hsame.trans hsame'⟩

theorem Put.reflects (hput : Put r p n n') (hat : n.at? p = some m) (htags : r.tags = m.tags)
    (h : m.Reflects r) : n.Reflects n' := by
  induction hput with
  | here n =>
    obtain rfl := Option.some.inj hat
    exact h
  | @under n c c' i p child rest ih =>
    obtain ⟨d, hd, hat⟩ := at?_cons_eq_some.1 hat
    obtain rfl : c = d := by simpa [child] using hd
    have hc := ih hat
    obtain ⟨hlt, hget⟩ := List.getElem?_eq_some_iff.1 child
    have hsame : n.SameNames (n.withChildren (n.children.set i (.node c'))) := by
      refine sameNames_of_children rfl ?_
      rw [withChildren, List.map_set, hc.same.told_node, ← hget, ← List.map_set, List.set_getElem_self]
    refine ⟨hsame, fun q m' hm' hm'_tags => ?_⟩
    cases q with
    | nil =>
      obtain rfl := Option.some.inj hm'
      exact ⟨[], n, rfl, rfl, hsame⟩
    | cons j q =>
      obtain ⟨e, he, hm'⟩ := at?_cons_eq_some.1 hm'
      rcases eq_or_ne i j with rfl | hne
      · rw [withChildren, List.getElem?_set_self hlt] at he
        obtain rfl := Element.node.inj (Option.some.inj he)
        obtain ⟨q', u, hu, htags', hsame'⟩ := hc.tagged q m' hm' hm'_tags
        exact ⟨i :: q', u, at?_cons_eq_some.2 ⟨c, child, hu⟩, htags', hsame'⟩
      · rw [withChildren, List.getElem?_set_ne hne] at he
        exact ⟨j :: q, m', at?_cons_eq_some.2 ⟨e, he, hm'⟩, rfl, .refl m'⟩

/-- Fresh nodes that tell nothing take the place of one that tells nothing. -/
theorem reflects_splice (hc : n.children[i]? = some (.node c)) (htold : (Element.node c).told = [])
    (hnews : ∀ r ∈ news, r.Fresh ∧ (Element.node r).told = []) :
    n.Reflects (n.withChildren (n.children.take i ++ news.map .node ++ n.children.drop (i + 1))) := by
  have hsame : n.SameNames
      (n.withChildren (n.children.take i ++ news.map .node ++ n.children.drop (i + 1))) := by
    refine ⟨rfl, ?_⟩
    have hnone : (news.map Element.node).flatMap Element.told = [] := by
      simpa [List.flatMap_eq_nil_iff] using fun r hr => (hnews r hr).2
    rw [told, told, withChildren]
    conv_rhs => rw [children_split hc]
    simp only [List.flatMap_append, List.flatMap_cons, hnone, htold, List.append_nil,
      List.nil_append]
  refine ⟨hsame, fun p m' hat htags => ?_⟩
  cases p with
  | nil =>
    obtain rfl := Option.some.inj hat
    exact ⟨[], n, rfl, rfl, hsame⟩
  | cons j p =>
    obtain ⟨d, hd, hat⟩ := at?_cons_eq_some.1 hat
    have hmem : .node d ∈ n.children ∨ d ∈ news := by
      have hmem := List.mem_of_getElem? hd
      rw [withChildren, List.mem_append, List.mem_append] at hmem
      rcases hmem with (hmem | hmem) | hmem
      · exact .inl (List.mem_of_mem_take hmem)
      · obtain ⟨r, hr, heq⟩ := List.mem_map.1 hmem
        exact .inr (Element.node.inj heq ▸ hr)
      · exact .inl (List.mem_of_mem_drop hmem)
    rcases hmem with hmem | hmem
    · obtain ⟨k, hk⟩ := List.mem_iff_getElem?.1 hmem
      exact ⟨k :: p, m', at?_cons_eq_some.2 ⟨d, hk, hat⟩, rfl, .refl m'⟩
    · exact absurd ((hnews d hmem).1 m'.top (mem_tops.2 ⟨p, m', hat, rfl⟩)) htags

end Node

theorem Tree.reflects_replaceMany {t t' : Tree} {p : Path} {m : Node} {news : List Node} (hp : p ≠ [])
    (hat : t.root.at? p = some m) (htold : (Element.node m).told = [])
    (hnews : ∀ r ∈ news, r.Fresh ∧ (Element.node r).told = []) (h : t.replaceMany p news = .ok t') :
    t.root.Reflects t'.root := by
  obtain ⟨hroot, -⟩ | ⟨q, i, u, -, hu, hc, hput⟩ := replaceMany_eq_ok hat h
  · exact absurd hroot hp
  · exact hput.reflects hu rfl (Node.reflects_splice hc htold hnews)

/-! ## Trivia as it was read -/

/-- All trivia in the node is made of pieces that are read from some text. -/
def Node.TriviaRead (n : Node) : Prop :=
  ∀ u ∈ n.tokens, Trivia.Read u.leading ∧ Trivia.Read u.trailing

/-- Indentation that was read is made of blanks. -/
theorem Trivia.Read.isSpacing {run : List Trivia} (h : Read run) :
    ∀ c ∈ (indentationText run).toList, Scan.isSpacing c = true := by
  have hpieces : ∀ piece ∈ indentation run, ∀ c ∈ piece.text.toList, Scan.isSpacing c = true := by
    intro piece hpiece
    obtain ⟨hlast, hblank⟩ := List.mem_filter.1 hpiece
    obtain ⟨rest, hstands⟩ := h piece ((Edit.lastLine_suffix run).subset hlast)
    cases hstands with
    | whitespace blank stop => rwa [text, String.toList_ofList]
    | _ => cases hblank
  rw [indentationText]
  generalize indentation run = pieces at hpieces
  induction pieces with
  | nil => exact List.forall_mem_nil _
  | cons piece pieces ih =>
    obtain ⟨hpiece, hpieces⟩ := List.forall_mem_cons.1 hpieces
    rw [textOf_cons, String.toList_append]
    exact List.forall_mem_append.2 ⟨hpiece, ih hpieces⟩

namespace Node.TriviaRead

variable {n : Node} {trivia : List Trivia}

theorem at? {m : Node} {p : Path} (h : n.TriviaRead) (hat : n.at? p = some m) : m.TriviaRead := by
  intro u hu
  refine h u ?_
  rw [Node.tokens_around hat]
  exact List.mem_append_left _ (List.mem_append_right _ hu)

theorem leading (h : n.TriviaRead) : Trivia.Read n.leading := by
  rw [Node.leading, firstToken?]
  cases hfirst : n.tokens.head? with
  | none => exact List.forall_mem_nil _
  | some u => exact (h u (List.mem_of_mem_head? hfirst)).1

theorem trailing (h : n.TriviaRead) : Trivia.Read n.trailing := by
  rw [Node.trailing, lastToken?]
  cases hlast : n.tokens.getLast? with
  | none => exact List.forall_mem_nil _
  | some u => exact (h u (List.mem_of_getLast? hlast)).2

theorem withLeading (h : n.TriviaRead) (htrivia : Trivia.Read trivia) :
    (n.withLeading trivia).TriviaRead := by
  intro u hu
  rw [Node.withLeading, tokens_mapFirst] at hu
  unfold TriviaRead at h
  cases htokens : n.tokens with
  | nil =>
    rw [htokens] at hu
    cases hu
  | cons v vs =>
    rw [htokens] at hu h
    rcases List.mem_cons.1 hu with rfl | hu
    · exact ⟨htrivia, (h v (List.mem_cons_self ..)).2⟩
    · exact h u (List.mem_cons_of_mem _ hu)

theorem withTrailing (h : n.TriviaRead) (htrivia : Trivia.Read trivia) :
    (n.withTrailing trivia).TriviaRead := by
  intro u hu
  rw [Node.withTrailing, tokens_mapLast] at hu
  unfold TriviaRead at h
  rcases List.eq_nil_or_concat' n.tokens with htokens | ⟨vs, v, htokens⟩
  · rw [htokens] at hu
    cases hu
  · rw [htokens] at hu h
    rw [List.modifyLast_concat] at hu
    obtain ⟨hvs, hv⟩ := List.forall_mem_append.1 h
    rcases List.mem_append.1 hu with hu | hu
    · exact hvs u hu
    · obtain rfl := List.mem_singleton.1 hu
      exact ⟨(hv v (List.mem_singleton_self v)).1, htrivia⟩

end Node.TriviaRead

theorem Tree.triviaRead_replaceMany {t t' : Tree} {p : Path} {m : Node} {news : List Node}
    (hp : p ≠ []) (hat : t.root.at? p = some m) (hread : t.root.TriviaRead)
    (hnews : ∀ r ∈ news, r.TriviaRead) (h : t.replaceMany p news = .ok t') : t'.root.TriviaRead := by
  obtain ⟨t'', ht'', htokens⟩ := Tree.tokens_replaceMany hp hat news
  obtain rfl := Except.ok.inj (h.symm.trans ht'')
  rw [Node.TriviaRead, Node.tokens_around hat, List.forall_mem_append, List.forall_mem_append] at hread
  obtain ⟨⟨hbefore, -⟩, hafter⟩ := hread
  rw [Node.TriviaRead, htokens, List.forall_mem_append, List.forall_mem_append]
  refine ⟨⟨hbefore, fun v hv => ?_⟩, hafter⟩
  obtain ⟨r, hr, hv⟩ := List.mem_flatMap.1 hv
  exact hnews r hr v hv

/-! ## Captures in their turn -/

namespace Edit

variable {t t' : Tree} {s : Site} {settings : Settings} {captured body : String}

/-- The statements of a capture are fresh, and none of them is a variable or a declaration of some. -/
theorem fresh_runWithTriviaOf {n : Node} {statements : List Node}
    (h : Fragment.readStatements (captureSource settings (Trivia.indentationText n.leading) captured
      body) = .ok statements) :
    ∀ r ∈ runWithTriviaOf n statements, r.Fresh ∧ (Element.node r).told = [] := by
  have hfresh : ∀ r ∈ runWithTriviaOf n statements, r.Fresh ∧
      r.kind ≠ .variableDeclarator ∧ r.kind ≠ .variableDeclaration := by
    refine forall_mem_runWithTriviaOf (fun r hr => ?_) (fun r hr => ?_) fun r hr => ?_
    · rw [(r.keeps_withLeading _).kind_eq]
      exact ⟨hr.1.mapFirst _, hr.2⟩
    · rw [(r.keeps_withTrailing _).kind_eq]
      exact ⟨hr.1.mapLast _, hr.2⟩
    · obtain ⟨-, hstatement⟩ := Fragment.statement_of_readStatements h r hr
      refine ⟨Fragment.fresh_of_readStatements h r hr, ?_, ?_⟩ <;>
        · intro hother
          rw [hother] at hstatement
          rcases hstatement with hstatement | hstatement <;> cases hstatement
  intro r hr
  obtain ⟨hr, hvariable, hdeclaration⟩ := hfresh r hr
  exact ⟨hr, Node.told_node_eq_nil hvariable hdeclaration⟩

/-- A capture changes no variables but those of the statement that it replaces. -/
theorem reflects_captureException (hs : s ∈ t.sites) (hroot : t.root.kind = .compilationUnit)
    (hread : t.root.TriviaRead) (h : captureException settings captured body s = .ok t') :
    t.root.Reflects t'.root ∧ t'.root.TriviaRead := by
  obtain ⟨hkind, first, rest, hstatements, h⟩ := captureException_eq_ok hs h
  obtain ⟨-, hat⟩ := Tree.mem_sites_iff.1 hs
  have hp : s.path ≠ [] := by
    intro hnil
    rw [hnil] at hat
    have hself : t.root = s.node := Option.some.inj hat
    rw [hself, hkind] at hroot
    cases hroot
  have htold : (Element.node s.node).told = [] :=
    Node.told_node_eq_nil (by rw [hkind]; decide) (by rw [hkind]; decide)
  have hstatement : s.node.TriviaRead := hread.at? hat
  refine ⟨Tree.reflects_replaceMany hp hat htold (fresh_runWithTriviaOf hstatements) h,
    Tree.triviaRead_replaceMany hp hat hread ?_ h⟩
  refine forall_mem_runWithTriviaOf (fun r hr => hr.withLeading hstatement.leading)
    (fun r hr => hr.withTrailing hstatement.trailing) fun r hr v hv => ?_
  obtain ⟨last, hscan, -, -⟩ := (Fragment.readFrom_statements hstatements).holdsText
  exact Token.read_of_scan hscan v (List.mem_append_left _ (List.mem_flatMap.2 ⟨r, hr, hv⟩))

end Edit

/-- As long as only captures are carried out, tagged nodes have and declare the same variables. -/
theorem Tree.reflects_after {t : Tree} (settings : Settings) {records : List Record}
    (hrecords : ∀ r ∈ records, r.kind = .exceptionCapture) (hroot : t.root.kind = .compilationUnit)
    (hread : t.root.TriviaRead) :
    t.root.Reflects (t.after settings records).root ∧ (t.after settings records).root.TriviaRead := by
  refine after_induction (P := fun w => t.root.Reflects w.root ∧ w.root.TriviaRead)
    ⟨.refl _, hread⟩ ?_
  rintro before r rest s t' rfl - hs - happly ⟨hreflects, hread'⟩
  have hkind : r.change.kind = .exceptionCapture := hrecords r (by simp)
  cases hchange : r.change with
  | exceptionCapture captured body =>
    rw [hchange] at happly
    obtain ⟨hstep, hread''⟩ := Edit.reflects_captureException hs
      (hreflects.same.kind_eq.trans hroot) hread' happly
    exact ⟨hreflects.trans hstep, hread''⟩
  | _ =>
    rw [hchange] at hkind
    cases hkind

/-- Nothing but captures is carried out before a capture. -/
theorem Plan.kind_of_mem_before {plan : Plan} {i : Nat} {r r' : Record}
    (hr : plan.records[i]? = some r) (hkind : r.kind = .exceptionCapture) (hr' : r' ∈ plan.before i) :
    r'.kind = .exceptionCapture := by
  have hfirst : ∀ kind : RecordKind, kind.rank ≤ RecordKind.exceptionCapture.rank →
      kind = .exceptionCapture := by
    intro kind
    cases kind <;> decide
  obtain ⟨rest, hsplit⟩ := Plan.exists_ordered_eq hr
  have hsorted := plan.sorted_ordered
  rw [hsplit] at hsorted
  have hle := (List.pairwise_append.1 hsorted).2.2 r' hr' r (List.mem_cons_self ..)
  exact hfirst _ (hkind ▸ hle)

section Turn

variable {source captured body : String} {t tree : Tree} {before : List Record} {r : Record}
  {statement : Site}

/-- In its turn a capture finds the statement that it was made for, which declares what it declared
    when it was read, and puts a capture in its place. -/
theorem Tree.captures_after (ht : t.ReadFrom source) (halike : tree.root.Alike t.root)
    (hbefore : ∀ r' ∈ before, r'.kind = .exceptionCapture)
    (hname : ({ kind := .identifier, text := captured } : Token).Lexes [])
    (hstatement : statement ∈ t.sites) (honly : tree.TaggedOnlyAt r.tag statement.path)
    (hchange : r.change = .exceptionCapture captured body)
    (houtcome : r.outcome {} (tree.after {} before) = .applied) :
    ∃ s ∈ (tree.after {} before).sites, r.tag ∈ s.node.tags ∧
      s.node.declared = statement.node.declared ∧ ∃ statements,
        (tree.after {} before).replaceMany s.path statements = .ok (tree.after {} (before ++ [r])) ∧
        Edit.Captures captured statements := by
  have hread : tree.root.TriviaRead := by
    rw [Node.TriviaRead, halike.tokens_eq]
    exact Token.read_of_scan ht.scan
  obtain ⟨hreflects, hread'⟩ := Tree.reflects_after {} hbefore
    (halike.kind_eq.trans ht.kind_eq) hread
  obtain ⟨s, hfound, happly⟩ := Tree.apply_of_outcome houtcome
  obtain ⟨hs, hbears⟩ := Tree.findTagged?_mem hfound
  obtain ⟨-, hat⟩ := Tree.mem_sites_iff.1 hs
  have htag : r.tag ∈ s.node.tags := by simpa [Node.hasTag] using hbears
  rw [hchange] at happly
  rw [Tree.after_concat_eq]
  obtain ⟨-, first, rest, hstatements, hreplace⟩ := Edit.captureException_eq_ok hs happly
  refine ⟨s, hs, htag, ?_, _, hreplace, ?_⟩
  · obtain ⟨q, m, hm, htags, hsame⟩ := hreflects.tagged s.path s.node hat (List.ne_nil_of_mem htag)
    obtain rfl : q = statement.path := (honly q).1 (Node.mem_tagsAt.2 ⟨m, hm, htags ▸ htag⟩)
    obtain ⟨n, hn, halike'⟩ := halike.at? hm
    obtain rfl : statement.node = n :=
      Option.some.inj ((Tree.mem_sites_iff.1 hstatement).2.symm.trans hn)
    rw [hsame.declared_eq, halike'.declared_eq]
  · have hleading := (hread'.at? hat).leading
    refine (Edit.captures_of_read hleading.isSpacing hname hstatements).of_mapTokens ?_
    exact Edit.map_runWithTriviaOf (fun m => Node.mapTokens_withLeading Token.forgets_bald m _)
      (fun m => Node.mapTokens_withTrailing Token.forgets_bald m _) (first :: rest)

end Turn

/-! ## Migrations -/

theorem Framework.require_eq_ok {α : Type} {objection : Objection} {a? : Option α} {a : α}
    (h : require objection a? = .ok a) : a? = some a := by
  cases a? with
  | none => cases h
  | some b => exact congrArg some (Except.ok.inj h)

namespace Framework.XUnit

variable {cx : Context} {s : Site} {written captured body : String}

/-- A capture is proposed for the variable that a call is the initial value of. -/
theorem initialized_of_call (h : call cx s = .ok (some (.capture written captured body))) :
    ∃ declarator, initialized? s = some declarator ∧ declarator.identifier? = some captured := by
  unfold call at h
  split at h
  · cases h
  · split at h
    · obtain ⟨method?, -, h⟩ := ok_of_bind h
      split at h
      · rename_i declarator hdeclarator
        obtain ⟨name, hname, h⟩ := ok_of_bind h
        dsimp only at h
        split at h
        · cases h
        · obtain ⟨body, -, h⟩ := ok_of_bind h
          obtain ⟨-, rfl, -⟩ := CallProposal.capture.inj (Option.some.inj (Except.ok.inj h))
          exact ⟨declarator, hdeclarator, require_eq_ok hname⟩
      · cases h
    · unfold outputCall at h
      dsimp only at h
      split at h
      · obtain ⟨type?, -, h⟩ := ok_of_bind h
        split at h <;> cases h
      · cases h

end Framework.XUnit

/-- An identifier right below a node that was read is a name by itself. -/
theorem Tree.ReadFrom.lexes_identifier {source name : String} {t : Tree} {s : Site}
    (ht : t.ReadFrom source) (hs : s ∈ t.sites) (h : s.identifier? = some name) :
    ({ kind := .identifier, text := name } : Token).Lexes [] := by
  obtain ⟨u, hu, rfl⟩ := Option.map_eq_some_iff.1 h
  have hkind : u.kind = .identifier := by simpa using List.find?_some hu
  have hchild : .token u ∈ s.node.children := by
    obtain ⟨e, he, htoken⟩ := List.mem_filterMap.1 (List.mem_of_find?_eq_some hu)
    cases e with
    | token v => exact Option.some.inj htoken ▸ he
    | node c => cases htoken
  have hmem : u ∈ t.root.tokens := by
    rw [Node.tokens_around (Tree.mem_sites_iff.1 hs).2, s.node.tokens_eq]
    exact List.mem_append_left _ (List.mem_append_right _
      (Element.mem_tokensIn hchild (List.mem_singleton_self u)))
  have hlexes := Token.lexes_nil_of_word ht.scan hmem (by simp [Token.isWord, hkind])
  rw [Token.Lexes, hkind] at hlexes
  exact hlexes

/-- What becomes of the statements in which a migration captures exceptions. A record is made for a
    call that is the initial value of a variable, and for the local declaration around the call.
    When it is applied, the statement declares what it declared when it was read, and gives way to
    other statements. The first of these declares the variable and no other one, and their words end
    in a clause that assigns what it catches, which is always named alike, to the variable. -/
theorem migrateSource_captures {source : String} {o : Migration}
    (h : Framework.xUnit.migrateSource {} source = .ok o) :
    ∃ t, Tree.parse source = .ok t ∧ o.plan = (Framework.xUnit.analysis {} t).plan ∧
      let tree := (Framework.xUnit.analysis {} t).tree
      let outcomes := o.plan.outcomes {} tree
      ∀ (i : Nat) (r : Record) (captured body : String), o.plan.records[i]? = some r →
        r.change = .exceptionCapture captured body →
        ∃ call ∈ t.sites, ∃ declarator ∈ t.sites, ∃ statement ∈ t.sites,
          Framework.XUnit.initialized? call = some declarator ∧
          declarator.identifier? = some captured ∧
          call.ancestor? .localDeclarationStatement = some statement ∧
          tree.TaggedOnlyAt r.tag statement.path ∧
          (outcomes[i]? = some .skipped ∧ o.plan.Loses {} tree i r ∨
            outcomes[i]? = some .failed ∧ (∃ failure ∈ o.editFailures,
              failure.phase = .edit r.kind ∧ failure.written = r.written) ∨
            outcomes[i]? = some .applied ∧
              let now := tree.after {} (o.plan.before i)
              ∃ s ∈ now.sites, r.tag ∈ s.node.tags ∧
                s.node.declared = statement.node.declared ∧ ∃ statements,
                  now.replaceMany s.path statements = .ok (tree.after {} (o.plan.before i ++ [r])) ∧
                  Edit.Captures captured statements) := by
  obtain ⟨t, ht, hplan, -, hfailures⟩ := Framework.migrateSource_run h
  refine ⟨t, ht, hplan, ?_⟩
  intro tree outcomes i r captured body hr hchange
  have hread := Tree.readFrom_of_parse ht
  have hseated := Framework.xUnit.seatedIn_analysis {} hread
  rw [← hplan] at hseated
  obtain ⟨d, hrecords, htree, hd⟩ := Framework.xUnit.faithful_analysis {} hread
  obtain ⟨statement, hstatement, -, hasked, hplaces⟩ :=
    hd.placed r (hrecords ▸ hplan ▸ List.mem_of_getElem? hr)
  rw [hchange] at hasked
  have honly : tree.TaggedOnlyAt r.tag statement.path :=
    (congrArg (·.TaggedOnlyAt r.tag statement.path) htree).mpr
      (hplaces r.tag statement.path (List.mem_cons_self ..)).2
  cases hasked with
  | @exceptionCapture call _ written _ _ candidate answer target =>
    have hcall := (Framework.xUnit.findsSites t).calls call candidate
    obtain ⟨declarator, hinitialized, hname⟩ := Framework.XUnit.initialized_of_call answer
    have hdeclarator : declarator ∈ t.sites := by
      obtain ⟨howner, -⟩ := Option.filter_eq_some_iff.1 hinitialized
      obtain ⟨clause, hclause, hparent⟩ := Option.bind_eq_some_iff.1 howner
      exact Site.parent?_mem (Site.parent?_mem hcall (Option.filter_eq_some_iff.1 hclause).1) hparent
    refine ⟨call, hcall, declarator, hdeclarator, statement, hstatement, hinitialized, hname, target,
      honly, ?_⟩
    have hout : outcomes[i]? = some (r.outcome {} (tree.after {} (o.plan.before i))) :=
      Plan.getElem?_outcomes hr
    cases houtcome : r.outcome {} (tree.after {} (o.plan.before i)) with
    | skipped =>
      have hskipped := hout.trans (congrArg some houtcome)
      exact .inl ⟨hskipped, Plan.loses_of_skipped (Framework.xUnit.housed_analysis {} ht) hseated hr
        hskipped⟩
    | failed =>
      have hfailed := hout.trans (congrArg some houtcome)
      exact .inr (.inl ⟨hfailed, hfailures ▸ Plan.exists_failure_of_failed hr hfailed⟩)
    | applied =>
      refine .inr (.inr ⟨hout.trans (congrArg some houtcome), ?_⟩)
      refine Tree.captures_after hread (Framework.xUnit.alike_analysis {} hread) ?_
        (hread.lexes_identifier hdeclarator hname) hstatement honly hchange houtcome
      exact fun r' hr' => Plan.kind_of_mem_before hr (by rw [Record.kind, hchange]; rfl) hr'

/-- A file with a declaration of two variables, the first of which is named as what is caught. -/
def twoVariables : String :=
  "using Xunit;\nclass T \x7b void A() \x7b " ++
    "Exception e = Record.Exception(() => F()), b = null; \x7d \x7d"

/-- One variable is declared no more, and the other one is assigned to itself. -/
theorem migrateSource_captures_twoVariables :
    ∃ o t, Framework.xUnit.migrateSource {} twoVariables = .ok o ∧
      Tree.parse twoVariables = .ok t ∧ o.source =
        "using System;\n\nclass T \x7b void A() \x7b Exception? e = null;\ntry\n\x7b\n    F();\n" ++
        "\x7d\ncatch (Exception e)\n\x7b\n    e = e;\n\x7d \x7d \x7d" ∧
      ∃ r, o.plan.records[0]? = some r ∧ ∃ (s : Site) (statements : List Node),
        s.node.declared = ["e", "b"] ∧
        (Framework.xUnit.analysis {} t).tree.replaceMany s.path statements =
          .ok ((Framework.xUnit.analysis {} t).tree.after {} [r]) ∧
        Edit.Captures "e" statements := by
  have hfacts : (Tree.parse twoVariables).toOption.map (fun t =>
      let analysis := Framework.xUnit.analysis {} t
      ((analysis.plan.apply {} analysis.tree).tree.source,
        analysis.plan.records[0]?.map Record.change, analysis.plan.before 0,
        (analysis.plan.outcomes {} analysis.tree)[0]?,
        t.sites.all fun s => s.kind != .localDeclarationStatement ||
          s.node.declared == ["e", "b"])) = some
        ("using System;\n\nclass T \x7b void A() \x7b Exception? e = null;\ntry\n\x7b\n    F();\n" ++
          "\x7d\ncatch (Exception e)\n\x7b\n    e = e;\n\x7d \x7d \x7d",
        some (.exceptionCapture "e" "F()"), [], some .applied, true) := by
    decide +kernel
  obtain ⟨t, ht, hfacts⟩ := exists_ok_of_map hfacts
  obtain ⟨hsource, hrecord, hbefore, hout, hdeclared⟩ : _ ∧ _ ∧ _ ∧ _ ∧ _ := by
    simpa only [Prod.mk.injEq] using hfacts
  obtain ⟨o, ho, hplan, htree⟩ := Framework.xUnit.exists_migrateSource {} ht
  obtain ⟨t', ht', -, hcaptures⟩ := migrateSource_captures ho
  obtain rfl : t = t' := Except.ok.inj (ht.symm.trans ht')
  rw [← htree] at hsource
  rw [← hplan] at hrecord hbefore hout
  obtain ⟨r, hr, hchange⟩ := Option.map_eq_some_iff.1 hrecord
  obtain ⟨call, hcall, -, -, statement, hstatement, -, -, htarget, -, hcases⟩ :=
    hcaptures 0 r "e" "F()" hr hchange
  have hkind : statement.kind = .localDeclarationStatement :=
    eq_of_beq (Site.ancestorWhere?_mem hcall htarget).2.1
  have hnames : statement.node.declared = ["e", "b"] := by
    simpa [hkind] using List.all_eq_true.1 hdeclared statement hstatement
  rw [hout, hbefore] at hcases
  rcases hcases with ⟨hskipped, -⟩ | ⟨hfailed, -⟩ | ⟨-, s, hs, -, hsame, statements, hreplace, hcaptures⟩
  · cases hskipped
  · cases hfailed
  · exact ⟨o, t, ho, ht, hsource, r, hr, s, statements, hsame.trans hnames, hreplace, hcaptures⟩

end Recast
