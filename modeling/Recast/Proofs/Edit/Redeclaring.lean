-- SUMMARY: Edits that alter a declaration pass on the directives that stand outside their inroads, and so does the edit of any record and a run of records.
import Recast.Proofs.Edit.Relaying

/-! # Redeclaring

A declaration that is altered keeps what stands in front of it, but not at the same token: a new
marker list takes it over, or the first of the new modifiers. So its parts are looked at together,
and only where nothing around them is lost (`Node.passes_of_altered`). With the edits that replace
and remove, this makes up the edits of all records (`Change.passes_apply`). A run of records passes
on what stands outside the inroads of all of them (`Tree.passes_after`). -/

namespace Recast

/-! ## Altered declarations -/

@[simp] theorem Loss.past_nothing (e : Element) : Loss.past .nothing e = .nothing :=
  ite_self _

namespace Element

variable {i : Inroads} {reheaded : Bool} {xs ys zs : List Element} {j : Nat} {c : Node}

theorem split_pair {d e : Element} (hd : xs[j]? = some d) (he : xs[j + 1]? = some e) :
    ∃ before after, before.length = j ∧ xs = before ++ d :: e :: after := by
  obtain ⟨hlt, rfl⟩ := List.getElem?_eq_some_iff.1 hd
  obtain ⟨hlt', rfl⟩ := List.getElem?_eq_some_iff.1 he
  refine ⟨xs.take j, xs.drop (j + 2), by simp [Nat.le_of_lt hlt], ?_⟩
  rw [← List.drop_eq_getElem_cons hlt', ← List.drop_eq_getElem_cons hlt, List.take_append_drop]

/-- A change of some parts that tells as much of them, where nothing is lost, and is no more to the
    commas beside them. -/
structure Upholds (i : Inroads) (reheaded : Bool) (xs ys : List Element) : Prop where
  tells : TellsIn i reheaded .nothing xs ys
  shields : Shields i xs ys

@[simp] theorem past_nothing (xs : List Element) : past .nothing xs = .nothing :=
  ite_self _

namespace Upholds

theorem refl (xs : List Element) : Upholds i reheaded xs xs :=
  ⟨.refl xs, .refl xs⟩

theorem trans (h : Upholds i reheaded xs ys) (h' : Upholds i reheaded ys zs) : Upholds i reheaded xs zs :=
  ⟨h.tells.trans h'.tells, h.shields.trans h'.shields⟩

theorem append {xs' ys' : List Element} (h : Upholds i reheaded xs xs')
    (h' : Upholds i reheaded ys ys') : Upholds i reheaded (xs ++ ys) (xs' ++ ys') := by
  have htells : TellsIn i reheaded (past .nothing xs) ys ys' := by
    rw [past_nothing]
    exact h'.tells
  have hpast : past .nothing xs' ≤ past .nothing xs := by
    rw [past_nothing, past_nothing]
    exact Loss.le_refl _
  exact ⟨h.tells.append htells h.shields h'.shields hpast, h.shields.append h'.shields⟩

/-- New parts take nothing away. -/
theorem new (h : ∀ kid ∈ kids ys, kid.tags = []) : Upholds i reheaded [] ys :=
  ⟨fun _ _ => List.nil_sublist _, shields_of_untagged h⟩

theorem new_node (h : c.tags = []) : Upholds i reheaded [] [.node c] :=
  new fun kid hkid => by rwa [List.mem_singleton.1 hkid]

theorem insert (h : c.tags = []) (j : Nat) (xs : List Element) :
    Upholds i reheaded xs (xs.take j ++ .node c :: xs.drop j) := by
  have hnew : Upholds i reheaded [] [.node c] := new_node h
  have hinsert := ((refl (xs.take j)).append hnew).append (refl (xs.drop j))
  rwa [List.append_nil, List.take_append_drop, List.append_assoc, List.singleton_append] at hinsert

end Upholds

theorem upholds_set {e e' : Element} (he : xs[j]? = some e) (h : Upholds i reheaded [e] [e']) :
    Upholds i reheaded xs (xs.set j e') := by
  have hset := ((Upholds.refl (i := i) (xs.take j)).append h).append (Upholds.refl (xs.drop (j + 1)))
  rw [List.set_eq_take_append_cons_drop, if_pos (List.getElem?_eq_some_iff.1 he).1]
  rwa [← split_at he, List.append_assoc, List.singleton_append] at hset

end Element

namespace Node

variable {i : Inroads} {n n' : Node}

/-- A declaration that is altered is lost whole where anything of it is lost. So only what is told of
    its parts where nothing is lost has to be told of them still. -/
theorem passes_of_altered (haltered : n.top.Bears i.altered)
    (hkind : n.kind = .methodDeclaration ∨ n.kind.isTypeDeclaration = true)
    (htop : n'.top = n.top)
    (hparts : Element.Upholds i (i.place n.top).reheaded n.children n'.children) :
    n.Passes i n' where
  outside p loss := by
    refine outside_sublist_of_parts htop ?_ ?_
    · have hplain : n.kind.isListing = false ∧ n.kind ≠ .modifiers := by
        rcases hkind with hkind | hkind
        · rw [hkind]
          exact ⟨rfl, nofun⟩
        · revert hkind
          cases n.kind <;> decide
      rintro (hgone | ⟨hlisting, -, -⟩ | ⟨-, hmodifiers, -⟩)
      · exact .inl hgone
      · exact absurd hlisting (by rw [show n.top.kind.isListing = false from hplain.1]; decide)
      · exact absurd hmodifiers hplain.2
    · have hbeyond : i.within p loss n.top (Element.kids n.children) =
          (loss.join (i.own p n.top (Element.kids n.children))).beyond := if_pos haltered
      rw [hbeyond]
      cases loss.join (i.own p n.top (Element.kids n.children)) with
      | nothing => exact hparts.tells _ rfl
      | inner | whole =>
        simp only [Loss.beyond, Element.outsideIn_whole]
        exact .refl _
  fills _ := Element.fills_of_bears haltered
  flank d hflank := by rwa [htop] at hflank
  stays _ _ hstays := by rwa [htop]
  closed hn := by
    have hunit : n.kind = .compilationUnit := hn.kind_eq
    rw [hunit] at hkind
    rcases hkind with hkind | hkind <;> cases hkind

end Node

namespace Edit

variable {i : Inroads} {t t' : Tree} {s : Site}

/-! ### Method headers -/

theorem leading_changedModifiers (settings : Settings) (change : SignatureChange) {old : List Token}
    (h : old ≠ []) : (changedModifiers settings change old).head?.map Token.leading =
      old.head?.map Token.leading := by
  cases old with
  | nil => exact absurd rfl h
  | cons u us =>
    unfold changedModifiers
    dsimp only
    split
    · split <;> rfl
    · split <;> rfl

/-- Of the modifiers of a method that gets others no more is told than of the first of them. -/
theorem outside_modifiers {p : Place} {c : Node} (hp : p.reheaded = true)
    (hkind : c.kind = .modifiers) (loss : Loss) : (c.outside Token.above i p loss).Sublist
      (Trivia.directivesOf ((c.childTokens.head?.map Token.leading).getD [])) := by
  by_cases hkids : Element.kids c.children = []
  · have hparts : c.tokens = c.childTokens := by
      rw [c.tokens_eq, Element.tokensIn_of_kids hkids, Node.childTokens]
    have hbars : Kind.bars .methodDeclaration c.top.kind = true := by
      rw [show c.top.kind = .modifiers from hkind]
      rfl
    have hsub := c.outside_sublist_leading (i := i) (.inr (.inr (.inr ⟨hp, hbars⟩))) loss
    rwa [Node.leading, Node.firstToken?, hparts] at hsub
  · rw [Node.outside_of_drops (.inr (.inr ⟨hp, hkind, hkids⟩))]
    exact List.nil_sublist _

theorem outside_newModifiers {p : Place} (ts : List Token) :
    (Trivia.directivesOf ((ts.head?.map Token.leading).getD [])).Sublist
      ((Node.ofChildren .modifiers (ts.map .token)).outside Token.above i p .nothing) := by
  have hfresh : (Node.ofChildren .modifiers (ts.map .token)).Fresh :=
    Node.fresh_ofChildren (Element.each_tokens ts)
  have hsub := Node.leading_sublist_outside (i := i) (p := p) hfresh (fun _ _ => Element.kids_tokens ts)
    (Loss.nothing_le .inner)
  rwa [Node.leading, Node.firstToken?, Node.tokens_ofChildren, Parser.tokensIn_map_token] at hsub

section Header

variable {es es' : List Element} {c : Node} {index : Nat}

/-- New modifiers are nothing to the commas beside them. -/
theorem shields_newModifiers (e : Element) (ts : List Token) :
    Element.Shields i [e] [.node (Node.ofChildren .modifiers (ts.map .token))] := by
  refine .single fun d hflank => ?_
  rw [Element.flank, i.flank_of_unlisted rfl rfl] at hflank
  cases hflank

/-- Where there were no modifiers, what stands in front of the return type moves to the new ones. -/
theorem upholds_moveLeading {type : Node} {moved : List Token} (hkind : c.kind = .modifiers)
    (hnone : c.childTokens = []) (hvalue : type.kind.isValue = true)
    (hleading : moved.head?.map Token.leading = some type.leading) :
    Element.Upholds i true [.node c, .node type]
      [.node (Node.ofChildren .modifiers (moved.map .token)), .node (type.withLeading [])] where
  tells p hp := by
    have hold : ∀ q : Place, q.reheaded = true → c.outside Token.above i q .nothing = [] := by
      intro q hq
      have hsub := outside_modifiers (i := i) hq hkind .nothing
      rw [hnone] at hsub
      exact List.sublist_nil.1 hsub
    have hnew := outside_newModifiers (i := i) (p := { p with
      after := Element.firstGoes i p.after [.node (type.withLeading [])] }) moved
    rw [hleading] at hnew
    simp only [Element.outsideIn_cons, Element.outsideIn_nil, Element.outside_node, List.append_nil]
    rw [hold { p with after := Element.firstGoes i p.after [.node type] } hp, List.nil_append]
    refine (Node.outside_sublist_leading ?_ _).trans (hnew.trans (List.sublist_append_left _ _))
    exact .inr (.inr (.inr ⟨hp, Kind.bars_of_isValue hvalue⟩))
  shields := (shields_newModifiers (.node c) moved).append
    (.single fun d hflank => by rwa [Element.flank, Node.withLeading, type.top_mapFirst] at hflank)

theorem upholds_replaceModifiers {new : List Token} (hes : Element.HeadedIn es)
    (hc : es[index]? = some (.node c)) (hkind : c.kind = .modifiers)
    (hnew : c.childTokens ≠ [] →
      new.head?.map Token.leading = c.childTokens.head?.map Token.leading) :
    Element.Upholds i true es (replaceModifiers index c.childTokens new es) := by
  obtain ⟨ts, heq, hts⟩ | ⟨type, htype, hnone, hsome, heq⟩ :=
    replaceModifiers_cases index c.childTokens new es
  · rw [heq]
    refine Element.upholds_set hc ⟨.single fun p hp => ?_, shields_newModifiers _ ts⟩
    refine (outside_modifiers hp hkind .nothing).trans ?_
    by_cases hnone : c.childTokens = []
    · rw [hnone]
      exact List.nil_sublist _
    · rw [hts hnone, ← hnew hnone]
      exact outside_newModifiers new
  · -- there were no modifiers, and what stands in front of the type moves to the new ones
    obtain ⟨v, hv, hvalue⟩ := Element.headedIn_iff.1 hes index c hc hkind
    obtain rfl : type = v := by simpa [htype] using hv
    obtain ⟨u, us, rfl⟩ := List.exists_cons_of_ne_nil hsome
    have hpair : Element.Upholds i true _ [.node (Node.ofChildren .modifiers
        ((withLeadingTrivia type.leading (u :: us)).map .token)), .node (type.withLeading [])] :=
      upholds_moveLeading hkind hnone hvalue rfl
    obtain ⟨before, after, hlength, rfl⟩ := Element.split_pair hc htype
    have hsplice := ((Element.Upholds.refl before).append hpair).append (.refl after)
    rw [heq]
    simpa [hlength, List.set_append_right] using hsplice

theorem upholds_setReturnType {make : Node → Except EditError (Option Node)}
    (hes : Element.HeadedIn es) (hc : es[index]? = some (.node c)) (hkind : c.kind = .modifiers)
    (hmake : ∀ current type, make current = .ok (some type) →
      ∃ text, Fragment.readType text = .ok type)
    (h : setReturnType (index + 1) make es = .ok es') : Element.Upholds i true es es' := by
  obtain ⟨current, hcurrent, rfl | ⟨type, hmade, rfl⟩⟩ := setReturnType_eq_ok h
  · exact .refl es'
  · obtain ⟨text, hread⟩ := hmake current type hmade
    obtain ⟨v, hv, hvalue⟩ := Element.headedIn_iff.1 hes index c hc hkind
    obtain rfl : current = v := by simpa [hcurrent] using hv
    have hfresh := (Fragment.fresh_of_readType hread).withTriviaOf current
    have htype : (type.withTriviaOf current).kind.IsPlain := by
      rw [(type.keeps_withTriviaOf current).kind_eq]
      exact Kind.plain_of_isValue
        (Kind.isValue_of_isTypeName (Fragment.typeName_of_readType hread).2)
    refine Element.upholds_set hcurrent ⟨.single fun p hp => ?_, .single fun d hflank => ?_⟩
    · refine Node.outside_sublist_of_fresh ?_ hfresh htype.1
        (Node.leading_withTriviaOf (Fragment.tokens_ne_nil_of_readType hread) current) .nothing
      exact .inr (.inr (.inr ⟨hp, Kind.bars_of_isValue hvalue⟩))
    · rw [Element.flank, i.flank_of_unlisted (Node.fresh_iff.1 hfresh).1 htype.2] at hflank
      cases hflank

end Header

theorem reheaded_of_bears {n : Node} (h : n.top.Bears i.reheaded)
    (hkind : n.kind = .methodDeclaration) : (i.place n.top).reheaded = true :=
  decide_eq_true ⟨hkind, h⟩

theorem passes_changeSignature {settings : Settings} {change : SignatureChange}
    (haltered : s.node.top.Bears i.altered) (hreheaded : s.node.top.Bears i.reheaded)
    (ht : t.root.Headed) (hs : s ∈ t.sites) (h : changeSignature settings change s = .ok t') :
    t.root.Passes i t'.root := by
  obtain ⟨-, hat⟩ := Tree.mem_sites_iff.1 hs
  obtain ⟨hmethod, rfl | ⟨method, hheader, hput⟩⟩ := changeSignature_eq_ok hs h
  · exact .refl _
  · obtain ⟨index, c, es, hc, hmodifiers, hes, rfl⟩ := changeHeader_eq_ok hheader
    have hparts := headedParts_of_headed (ht.at? hat) hmethod
    obtain ⟨c', hc', hmodifiers'⟩ :=
      getElem?_replaceModifiers (List.getElem?_eq_some_iff.1 hc).1
    have hplace := reheaded_of_bears hreheaded hmethod
    have hchanged := upholds_replaceModifiers (i := i) hparts.order hc hmodifiers
      (leading_changedModifiers settings change)
    have htyped := upholds_setReturnType (i := i)
      (headedParts_replaceModifiers hparts hc hmodifiers).order hc' hmodifiers'
      (fun _ _ hmade => (mapM_returnTypeOf_eq_ok hmade).imp fun _ h => h.2) hes
    refine hput.passes hat (Node.passes_of_altered haltered (.inl hmethod) rfl ?_)
    rw [hplace]
    exact hchanged.trans htyped

/-! ### New markers -/

theorem children_withLeading (n : Node) (trivia : List Trivia) : (n.withLeading trivia).children =
    Element.mapFirstIn (fun u => { u with leading := trivia }) n.children := by
  obtain ⟨kind, children, span, tags⟩ := n
  rfl

/-- A new list takes over what stands in front of a declaration; all its parts but the first token
    stay. -/
theorem above_sublist_led {p : Place} {list n : Node} (hlist : list.Fresh)
    (hkind : list.kind ≠ .modifiers) (hleading : list.leading = n.leading) (trivia : List Trivia) :
    ∀ u ∈ n.tokens.head?, u.above.Sublist (list.outside Token.above i p .nothing ++
      Token.above { u with leading := trivia }) := by
  intro u hu
  have hlead := Node.leading_sublist_outside (i := i) (p := p) hlist (fun _ => (absurd · hkind))
    (Loss.nothing_le .inner)
  have hhead : list.leading = u.leading := by
    rw [hleading, Node.leading, Node.firstToken?, hu]
    rfl
  rw [hhead] at hlead
  exact hlead.trans (List.sublist_append_left _ _)

theorem blank_withLeading (n : Node) (trivia : List Trivia) :
    (n.withLeading trivia).children.map Element.blank = n.children.map Element.blank := by
  rw [children_withLeading, ← Element.blankIn_eq_map, ← Element.blankIn_eq_map,
    Element.blankIn_mapFirstIn]

theorem upholds_led {reheaded : Bool} {list n : Node} (hlist : list.Fresh)
    (hkind : list.kind ≠ .modifiers) (hleading : list.leading = n.leading) (trivia : List Trivia) :
    Element.Upholds i reheaded n.children (.node list :: (n.withLeading trivia).children) where
  tells p _ := by
    have hflank : i.flank p.before list.top = true → p.before = true :=
      Inroads.flank_of_untagged (Node.fresh_iff.1 hlist).1
    have hbehind : ({ p with before := Element.flank i p.before (.node list) } : Place) ≤ p :=
      ⟨id, hflank, id⟩
    rw [Element.outsideIn_cons, children_withLeading]
    refine (Element.outsideIn_mapFirstIn (Token.keepsWord_leading fun _ => trivia) n.children p
      .nothing ?_).trans ((Element.outsideIn_anti i.le_refl _ hbehind ?_).append_left _)
    · rw [← n.tokens_eq]
      exact above_sublist_led hlist hkind hleading trivia
    · rw [Loss.past_nothing]
      exact Loss.le_refl _
  shields := by
    have hnew : Element.Upholds i reheaded [] [.node list] :=
      .new_node (Node.fresh_iff.1 hlist).1
    exact hnew.shields.append (Element.shields_of_blank (blank_withLeading n trivia))

/-- The same when the declaration starts with a node, which gets other trivia in front. -/
theorem upholds_ledFirst {reheaded : Bool} {list n first : Node} (hlist : list.Fresh)
    (hkind : list.kind ≠ .modifiers) (hleading : list.leading = n.leading) (trivia : List Trivia)
    (hfirst : ∀ u ∈ first.tokens.head?, u ∈ n.tokens.head?) :
    Element.Upholds i reheaded [.node first] [.node list, .node (first.withLeading trivia)] where
  tells p _ := by
    simp only [Element.outsideIn_cons, Element.outsideIn_nil, Element.outside_node,
      Element.firstGoes_nil, List.append_nil, Loss.past_nothing]
    have hflank : i.flank p.before list.top = true → p.before = true :=
      Inroads.flank_of_untagged (Node.fresh_iff.1 hlist).1
    have hbehind : ({ p with before := Element.flank i p.before (.node list) } : Place) ≤ p :=
      ⟨id, hflank, id⟩
    have hled := above_sublist_led (i := i) (p := { p with
      after := Element.firstGoes i p.after [.node (first.withLeading trivia)] }) hlist hkind hleading
      trivia
    refine (first.outside_mapFirst (Token.keepsWord_leading fun _ => trivia) p .nothing
      fun u hu => hled u (hfirst u hu)).trans ?_
    exact (Node.outside_anti i.le_refl _ hbehind (Loss.le_refl _)).append_left _
  shields := by
    have hnew : Element.Upholds i reheaded [] [.node list] :=
      .new_node (Node.fresh_iff.1 hlist).1
    refine hnew.shields.append (.single fun d hflank => ?_)
    rwa [Element.flank, Node.withLeading, first.top_mapFirst] at hflank

/-- A marker list that was read, with other trivia at its ends. -/
theorem trimmed_markerList {marker : String} {list : Node} (h : markerList marker = .ok list)
    (lead trail : List Trivia) : let trimmed := (list.withLeading lead).withTrailing trail
      trimmed.Fresh ∧ trimmed.kind ≠ .modifiers ∧ trimmed.leading = lead := by
  have hread := reading_eq_ok h
  refine ⟨((Fragment.fresh_of_readAttributeList hread).mapFirst _).mapLast _, ?_, ?_⟩
  · rw [(Node.keeps_withTrailing _ _).kind_eq, (list.keeps_withLeading _).kind_eq,
      (Fragment.is_of_readAttributeList hread).2]
    exact nofun
  · rw [Node.leading_withTrailing,
      Node.leading_withLeading (Fragment.tokens_ne_nil_of_readAttributeList hread)]

theorem upholds_putMarker {reheaded : Bool} {marker : String} {list : Node}
    (hlist : markerList marker = .ok list) (method : Node) :
    (putMarker list method).top = method.top ∧
    Element.Upholds i reheaded method.children (putMarker list method).children := by
  obtain heq | ⟨first, rest, hchildren, -, heq⟩ := putMarker_cases list method
  · obtain ⟨hfresh, hkind, hleading⟩ := trimmed_markerList hlist method.leading [Trivia.newline]
    rw [heq]
    exact ⟨method.top_mapFirst _, upholds_led hfresh hkind hleading _⟩
  · obtain ⟨hfresh, hkind, hleading⟩ := trimmed_markerList hlist method.leading []
    have hfirst : ∀ u ∈ first.tokens.head?, u ∈ method.tokens.head? := by
      intro u hu
      rw [method.tokens_eq, hchildren, Element.tokensIn_cons, Element.tokens_node,
        List.head?_append, hu]
      rfl
    rw [heq]
    refine ⟨rfl, ?_⟩
    rw [hchildren]
    exact (upholds_ledFirst hfresh hkind hleading _ hfirst).append (.refl rest)

theorem passes_addMethodMarker {marker : String} {returnType : Option String}
    (haltered : s.node.top.Bears i.altered)
    (hreheaded : returnType.isSome = true → s.node.top.Bears i.reheaded)
    (ht : t.root.Headed) (hs : s ∈ t.sites)
    (h : addMethodMarker marker returnType s = .ok t') : t.root.Passes i t'.root := by
  obtain ⟨-, hat⟩ := Tree.mem_sites_iff.1 hs
  obtain ⟨hmethod, list, hlist, hmade⟩ := addMethodMarker_eq_ok hs h
  obtain ⟨htop, hmarked⟩ : _ ∧ Element.Upholds i (i.place s.node.top).reheaded _ _ :=
    upholds_putMarker hlist s.node
  obtain ⟨-, hput⟩ | ⟨text, type, index, es, rfl, hread, hindex, hes, hput⟩ := hmade
  · exact hput.passes hat (Node.passes_of_altered haltered (.inl hmethod) htop hmarked)
  · obtain ⟨c, hc, hmodifiers⟩ := Node.indexOf?_eq_some hindex
    obtain ⟨hparts, -⟩ := headedParts_putMarker
      (Fragment.is_of_readAttributeList (markerList_eq_ok hlist)) (ht.at? hat) hmethod
    have htyped := upholds_setReturnType (i := i) hparts.order hc hmodifiers
      (fun current type' htype' => by
        obtain rfl : type = type' := Option.some.inj (Except.ok.inj htype')
        exact ⟨text, hread⟩) hes
    rw [← reheaded_of_bears (hreheaded rfl) hmethod] at htyped
    exact hput.passes hat (Node.passes_of_altered haltered (.inl hmethod) htop
      (hmarked.trans htyped))

theorem passes_addClassMarker {marker : String} (haltered : s.node.top.Bears i.altered)
    (hs : s ∈ t.sites) (h : addClassMarker marker s = .ok t') : t.root.Passes i t'.root := by
  obtain ⟨htype, list, hlist, hput⟩ := addClassMarker_eq_ok hs h
  refine hput.passes (Tree.mem_sites_iff.1 hs).2 ?_
  obtain heq | ⟨index, heq⟩ := putClassMarker_cases list s.node
  · rw [heq]
    obtain ⟨hfresh, hplain, hleading⟩ := trimmed_markerList hlist s.node.leading [Trivia.newline]
    exact Node.passes_of_altered haltered (.inr htype) (s.node.top_mapFirst _)
      (upholds_led hfresh hplain hleading _)
  · rw [heq]
    obtain ⟨hfresh, -, -⟩ := trimmed_markerList hlist (Trivia.indentation s.node.leading)
      [Trivia.newline]
    exact Node.passes_of_altered haltered (.inr htype) rfl
      (.insert (Node.fresh_iff.1 hfresh).1 index _)

/-! ### Base types -/

theorem passes_insertBaseList {base declaration declaration' : Node}
    (haltered : declaration.top.Bears i.altered)
    (htype : declaration.kind.isTypeDeclaration = true)
    (h : insertBaseList base declaration = .ok declaration') : declaration.Passes i declaration' := by
  obtain ⟨index, anchor, hanchor, -, rfl⟩ := insertBaseList_eq_ok h
  generalize hlist : (Node.ofChildren .baseList [_, .node base]).withTrailing anchor.trailing = list
  have hword := Token.keepsWord_trailing fun _ => [Trivia.space]
  have hfresh : list.tags = [] := by
    rw [← hlist, (Node.keeps_withTrailing _ _).tags_eq]
    rfl
  have hparts := Element.split_at hanchor
  -- Of the old parts only the anchor changes, and only in its trailing trivia.
  have hanchored : Element.Upholds i (i.place declaration.top).reheaded [anchor]
      [anchor.mapLast fun t => { t with trailing := [Trivia.space] }] := by
    refine ⟨.single fun p _ => ?_, Element.shields_of_blank ?_⟩
    · rw [anchor.outside_mapLast hword fun _ => rfl]
    · rw [List.map_singleton, List.map_singleton, Element.blank_mapLast]
  refine Node.passes_of_altered haltered (.inr htype) rfl ?_
  have hupholds := ((Element.Upholds.refl (declaration.children.take index)).append
    (hanchored.append (.new_node hfresh))).append (.refl (declaration.children.drop (index + 1)))
  rw [List.append_nil, ← hparts] at hupholds
  simp only [List.append_assoc, List.cons_append, List.nil_append] at hupholds
  exact hupholds

/-- A base type at the end of a list takes nothing away from it. -/
theorem outside_extendBaseList {base list : Node} (hbase : base.kind = .baseType)
    (hfresh : base.tags = []) (hlist : list.kind = .baseList) (p : Place) (loss : Loss) :
    (list.outside Token.above i p loss).Sublist
      ((extendBaseList base list).outside Token.above i p loss) := by
  have hword := Token.keepsWord_trailing fun _ => []
  have hchildren : (list.withTrailing []).children =
      Element.mapLastIn (fun u => { u with trailing := [] }) list.children := by
    obtain ⟨kind, children, span, tags⟩ := list
    rfl
  have htop : (extendBaseList base list).top = list.top := list.top_mapLast _
  have hitem : (base.withTrailing list.trailing).top = ⟨.baseType, []⟩ := by
    rw [Node.withTrailing, base.top_mapLast, Node.top, hbase, hfresh]
  refine Node.outside_sublist_of_parts htop ?_ ?_
  · rintro (hgone | ⟨-, -, hnone⟩ | ⟨-, hmodifiers, -⟩)
    · exact .inl hgone
    · -- The list has an item that stays, the new one.
      refine (hnone ⟨(base.withTrailing list.trailing).top, ?_, ?_⟩).elim
      · exact Element.mem_kids.2 ⟨_, by simp [extendBaseList, Node.withChildren], rfl⟩
      · rw [hitem, show list.top.kind = .baseList from hlist]
        exact ⟨rfl, Top.not_bears rfl, Top.not_bears rfl⟩
    · rw [show list.top.kind = .baseList from hlist] at hmodifiers
      cases hmodifiers
  · simp only [extendBaseList, Node.withChildren, hchildren]
    generalize hnew : [Element.token _, Element.node (base.withTrailing list.trailing)] = new
    have hshields : Element.Shields i [] new := Element.shields_of_untagged fun kid hkid => by
      rw [← hnew] at hkid
      rw [List.mem_singleton.1 hkid, hitem]
    have hplace : ({ i.place list.top with
        after := Element.firstGoes i (i.place list.top).after new } : Place) ≤ i.place list.top :=
      ⟨id, id, hshields.first _⟩
    rw [Element.outsideIn_append, Element.outsideIn_mapLastIn hword fun _ => rfl]
    exact (Element.outsideIn_anti i.le_refl _ hplace (Loss.le_refl _)).trans
      (List.sublist_append_left _ _)

theorem passes_addBaseType {type : String} (haltered : s.node.top.Bears i.altered)
    (hs : s ∈ t.sites) (h : addBaseType type s = .ok t') : t.root.Passes i t'.root := by
  obtain ⟨-, hat⟩ := Tree.mem_sites_iff.1 hs
  obtain ⟨htype, read, -, ⟨-, rfl⟩ | ⟨-, ⟨j, list, hc, hlist, hput⟩ | ⟨declaration, hinsert, hput⟩⟩⟩ :=
    addBaseType_eq_ok hs h
  · exact .refl _
  · refine hput.passes hat (Node.passes_of_altered haltered (.inr htype) rfl
      (Element.upholds_set hc ⟨.single fun p _ => ?_, .single fun d hflank => ?_⟩))
    · exact outside_extendBaseList rfl rfl hlist p .nothing
    · rwa [Element.flank, show (extendBaseList _ list).top = list.top from list.top_mapLast _]
        at hflank
  · exact hput.passes hat (passes_insertBaseList haltered htype hinsert)

/-! ### Containers -/

/-- A node that is made anew gives way to one of which no more is asked than that it is no list. -/
theorem passes_of_gone {m r : Node} (hm : m.top.Bears i.gone) (hr : r.tags = [])
    (hkind : r.kind.isListing = false) : m.Passes i r where
  outside p loss := by
    rw [Node.outside_of_drops (.inl hm)]
    exact List.nil_sublist _
  fills _ := Element.fills_of_bears hm
  flank d hflank := by
    rw [i.flank_of_unlisted hr hkind] at hflank
    cases hflank
  stays _ _ hstays := absurd hm hstays.2.1
  closed hn := absurd (.inr (.inr hm)) hn.kept

theorem tags_arrayOf {settings : Settings} {element : String} {creation : Site} {e : Node}
    (h : arrayOf settings element creation = .ok e) :
    e.tags = [] ∧ e.kind.isListing = false := by
  obtain ⟨-, -, -, array, -, -, -, -, -, -, -, harray, -, -, rfl⟩ := arrayOf_eq_ok h
  rw [(Node.keeps_withTriviaOf _ _).tags_eq, (Node.keeps_withTriviaOf _ _).kind_eq]
  exact ⟨(Node.fresh_iff.1 (Fragment.fresh_of_readExpression harray)).1,
    (Kind.plain_of_isValue (Fragment.value_of_readExpression harray).2).2⟩

theorem passes_replaceTagged {tag : Option Tag} {make : Site → Except EditError Node}
    (hmake : ∀ s e x, x ∈ tag → x ∈ s.node.tags → make s = .ok e → s.node.Passes i e)
    (h : replaceTagged tag make t = .ok t') : t.root.Passes i t'.root := by
  obtain rfl | ⟨x, s, e, hx, -, hs, hmem, he, hput⟩ := replaceTagged_eq_ok h
  · exact .refl _
  · exact hput.passes (Tree.mem_sites_iff.1 hs).2 (hmake s e x hx hmem he)

theorem passes_reshapeContainer {settings : Settings} {change : ContainerChange}
    (htype : ∀ x ∈ change.typeTag, x ∈ i.replaced) (hcreation : ∀ x ∈ change.creationTag, x ∈ i.gone)
    (hs : s ∈ t.sites) (h : reshapeContainer settings change s = .ok t') :
    t.root.Passes i t'.root := by
  obtain ⟨w, hw, h⟩ := reshapeContainer_eq_ok hs h
  refine (passes_replaceTagged (fun creation e x hx hmem he => ?_) hw).trans
    (passes_replaceTagged (fun declared e x hx hmem he => ?_) h)
  · obtain ⟨htags, hkind⟩ := tags_arrayOf he
    exact passes_of_gone ⟨x, hcreation x hx, hmem⟩ htags hkind
  · obtain ⟨read, hread, rfl⟩ := sequenceType_eq_ok he
    have hkind : read.kind.IsPlain := Kind.plain_of_isValue
      (Kind.isValue_of_isTypeName (Fragment.typeName_of_readType hread).2)
    exact Node.passes_withTriviaOf (.inl ⟨x, htype x hx, hmem⟩) (Fragment.fresh_of_readType hread)
      (Fragment.tokens_ne_nil_of_readType hread) hkind

end Edit

/-! ## Records -/

/-- The edit of a record passes on what stands outside the inroads of the record. Edits of headers
    need the return type to stand where they look for it. -/
theorem Change.passes_apply {i : Inroads} {r : Record} {t t' : Tree} {s : Site}
    {settings : Settings} (hr : r.inroads ≤ i)
    (ht : r.kind.rank ≤ RecordKind.methodMarker.rank → t.root.Headed) (hs : s ∈ t.sites)
    (htag : r.tag ∈ s.node.tags) (h : r.change.apply settings s = .ok t') :
    t.root.Passes i t'.root := by
  obtain ⟨hreplaced, hrenamed, hremade, hremoved, haltered, hreheaded⟩ := hr
  have hm : ∀ {tags : List Tag}, r.tag ∈ tags → s.node.top.Bears tags := fun h => ⟨_, h, htag⟩
  obtain ⟨tag, written, change⟩ := r
  have hself := List.mem_singleton_self tag
  cases change with
  | exceptionCapture captured body =>
    exact Edit.passes_captureException (hm (hreplaced hself)) hs h
  | callReplacement text => exact Edit.passes_replaceCall (hm (hreplaced hself)) hs h
  | container change =>
    exact Edit.passes_reshapeContainer (fun x hx => hreplaced (Option.mem_toList.2 hx))
      (fun x hx => List.mem_append_left _ (hremade (Option.mem_toList.2 hx))) hs h
  | assertion change => exact Edit.passes_replaceAssertion (hm (hreplaced hself)) hs h
  | signature change =>
    have hrank : RecordKind.signature.rank ≤ RecordKind.methodMarker.rank := by decide
    exact Edit.passes_changeSignature (hm (haltered hself)) (hm (hreheaded hself)) (ht hrank) hs h
  | methodMarker marker returnType =>
    refine Edit.passes_addMethodMarker (hm (haltered hself)) (fun hsome => ?_) (ht (Nat.le_refl _)) hs h
    refine hm (hreheaded ?_)
    simp only [Record.inroads, if_pos hsome]
    exact hself
  | marker change => exact Edit.passes_changeMarker (hm (hrenamed hself)) hs h
  | parameterMarker name arguments =>
    exact Edit.passes_changeParameterMarker (hm (hrenamed hself)) hs h
  | markerRemoval => exact Edit.passes_removeMarker (hm (hremoved hself)) hs h
  | baseTypeRemoval type => exact Edit.passes_removeBaseType (hm (hremoved hself)) hs h
  | baseTypeAddition type => exact Edit.passes_addBaseType (hm (haltered hself)) hs h
  | classMarker marker => exact Edit.passes_addClassMarker (hm (haltered hself)) hs h
  | memberRemoval name => exact Edit.passes_removeMember (hm (hremoved hself)) hs h
  | parameterRemoval name type => exact Edit.passes_removeParameter (hm (hremoved hself)) hs h

/-- A run of records passes on what stands outside the inroads of all of them. -/
theorem Tree.passes_after {i : Inroads} {settings : Settings} {t : Tree} {records : List Record}
    (ht : t.root.Headed) (hsorted : records.Pairwise fun a b => a.kind.rank ≤ b.kind.rank)
    (hinroads : ∀ r ∈ records, r.inroads ≤ i) :
    t.root.Passes i (t.after settings records).root := by
  refine after_induction (P := fun w => t.root.Passes i w.root) (.refl _)
    fun {before r rest s t'} hsplit _ hs htag happly hbefore => hbefore.trans ?_
  have hr : r ∈ records := by simp [hsplit]
  refine Change.passes_apply (hinroads r hr) (fun hrank => ?_) hs htag happly
  refine headed_after (fun r' hr' => Nat.le_trans ?_ hrank) ht
  rw [hsplit] at hsorted
  exact (List.pairwise_append.1 hsorted).2.2 r' hr' r (List.mem_cons_self ..)

end Recast
