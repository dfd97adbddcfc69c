-- SUMMARY: Every edit of a record, and every edit of imports, saves what is seen by an observer that tells nothing of what the edit takes away or rewrites.
import Recast.Proofs.Edit.Heading

/-! # Sparing

An edit changes a tree at the node with its tag. Some edits put something else in the place of
their node or remove it (`RecordKind.takes`), and some drop or rewrite parts beside it
(`RecordKind.strips`). An observer that tells nothing of these, nor anything of the node that would
change with its parts, is spared by the record (`Observer.SparedBy`): all that it saw it sees after
the edit (`Change.saves_apply`), and after a run of such edits (`Tree.saves_after`). -/

namespace Recast

/-! ## What edits take and strip -/

/-- One of the tags is on the node. -/
def Top.Bears (tags : List Tag) (top : Top) : Prop :=
  ∃ tag ∈ tags, tag ∈ top.tags

/-- On the way up from a node, some part stands in a construct whose edits may drop it. -/
def Barred : List Top → Prop
  | child :: parent :: up => parent.kind.bars child.kind = true ∨ Barred (parent :: up)
  | _ => False

theorem barred_append {child parent : Top} (h : parent.kind.bars child.kind = true)
    (way up : List Top) : Barred (way ++ child :: parent :: up) := by
  induction way with
  | nil => exact .inl h
  | cons top way ih =>
    cases way with
    | nil => exact .inr ih
    | cons top' way => exact .inr ih

/-- A list that goes when its last item does. -/
def Kind.isListing : Kind → Bool
  | .attributeList | .baseList => true
  | _ => false

namespace RecordKind

/-- True when the edits put something else in the place of their node or remove it. -/
def takes : RecordKind → Bool
  | .signature | .methodMarker | .baseTypeAddition | .classMarker => false
  | _ => true

/-- True when the edits drop or rewrite what else stands in the node or in its list. -/
def strips : RecordKind → Bool
  | .signature | .methodMarker | .markerRemoval | .baseTypeRemoval => true
  | _ => false

end RecordKind

namespace Observer

variable {α : Type} {o : Observer α} {Q : Top → Prop} {n : Node} {top : Top}

/-- Nothing is seen of a node when nothing is told of what is in such a node. -/
theorem ignores_of_taken (h : ∀ up m, (∃ top ∈ m.top :: up, Q top) → o.tell up m = [])
    (hn : Q n.top) : o.Ignores n := by
  intro up
  refine (o.see_eq_nil up).2 fun p m hat => h _ _ ⟨n.top, ?_, hn⟩
  obtain ⟨way, hway⟩ := Node.exists_cons_above hat
  rw [← List.cons_append, hway]
  simp

/-- Nothing is seen of a part that its construct bars, when nothing is told of what is barred. -/
theorem see_of_bars (h : ∀ up m, Barred (m.top :: up) → o.tell up m = [])
    (hbars : top.kind.bars n.kind = true) (up : List Top) : o.see (top :: up) n = [] := by
  refine (o.see_eq_nil _).2 fun p m hat => h _ _ ?_
  obtain ⟨way, hway⟩ := Node.exists_cons_above hat
  rw [← List.cons_append, hway, List.append_assoc]
  exact barred_append hbars way up

/-- Nothing is told of what a record takes away, and of no node that holds its tag anything that
    depends on the parts of the node. -/
structure SparedBy (o : Observer α) (r : Record) : Prop where
  blind : o.BlindTo (Top.Bears r.tags)
  taken : r.kind.takes = true → ∀ up n, (∃ top ∈ n.top :: up, top.Bears r.tags) → o.tell up n = []
  barred : r.kind.strips = true → ∀ up n, Barred (n.top :: up) → o.tell up n = []
  unlisted : ∀ up n, n.kind.isListing = true → o.tell up n = []

end Observer

namespace Edit

variable {α : Type} {o : Observer α} {Q : Top → Prop} (hblind : o.BlindTo Q) {t t' : Tree}
  {s : Site}

include hblind

/-! ## Edits that take their node -/

section Taking

variable (hs : s ∈ t.sites) (hm : Q s.node.top) (hignores : o.Ignores s.node)

include hs hm hignores

theorem saves_replaceAt {r : Node} (h : replaceAt s r = .ok t') : o.Saves t.root t'.root :=
  hblind.saves_put (Tree.mem_sites_iff.1 hs).2 (Node.holds_self hm) (hignores.saves _)
    (put_replaceAt hs h)

theorem saves_captureException {settings : Settings} {captured body : String}
    (h : captureException settings captured body s = .ok t') : o.Saves t.root t'.root := by
  obtain ⟨-, first, rest, -, hreplace⟩ := captureException_eq_ok hs h
  exact hblind.saves_replaceMany (Tree.mem_sites_iff.1 hs).2 (Node.holds_self hm) hignores hreplace

theorem saves_replaceCall {text : String} (h : replaceCall text s = .ok t') :
    o.Saves t.root t'.root := by
  obtain ⟨e, -, h⟩ := replaceCall_eq_ok h
  exact saves_replaceAt hblind hs hm hignores h

/-- The remark goes on a statement around the call, after the call has gone: both together are one
    change of the statement as it was. -/
theorem saves_replaceAssertion {change : AssertionChange}
    (h : replaceAssertion change s = .ok t') : o.Saves t.root t'.root := by
  obtain ⟨e, w, -, hw, rfl | ⟨remark, p, q, u, u', -, hu, hat, hinner, -, houter⟩⟩ :=
    replaceAssertion_eq_ok hs h
  · exact saves_replaceCall hblind hs hm hignores hw
  · have hholds : s.node.Holds Q := Node.holds_self hm
    refine hblind.saves_put hu (hholds.of_at? hat) ?_ houter
    exact (hblind.saves_put hat hholds (hignores.saves _) hinner).trans
      (Observer.saves_withLeading _ _)

theorem saves_changeParameterMarker {name : String} {edit : ArgumentEdit}
    (h : changeParameterMarker name edit s = .ok t') : o.Saves t.root t'.root := by
  obtain ⟨r, -, h⟩ := changeParameterMarker_eq_ok h
  exact saves_replaceAt hblind hs hm hignores h

/-- The company of a marker goes into the construct that the list of the marker stands in. -/
theorem saves_changeMarker {change : MarkerChange} (h : changeMarker change s = .ok t') :
    o.Saves t.root t'.root := by
  obtain ⟨r, -, halone | ⟨owner, index, i, list, company, w, u, u', -, -, -, -, hu, hat, hinner,
    houter⟩⟩ := changeMarker_eq_ok hs h
  · exact saves_replaceAt hblind hs hm hignores halone
  · have hholds : s.node.Holds Q := Node.holds_self hm
    obtain ⟨c, hc, hat'⟩ := Node.at?_cons_eq_some.1 hat
    refine hblind.saves_put hu (hholds.of_at? hat) ?_ houter
    cases hinner with
    | @under _ d d' _ _ child rest =>
      obtain rfl : c = d := by simpa [hc] using child
      refine hblind.saves (hholds.of_at? hat) rfl ?_
      have hlisted := hblind.saves_put hat' hholds (hignores.saves _) rest
      exact (Observer.savesIn_set child hlisted).trans (Observer.savesIn_insertAt _ _ _)

theorem saves_removeMember (h : removeMember s = .ok t') : o.Saves t.root t'.root := by
  obtain ⟨-, hremove⟩ := removeMember_eq_ok hs h
  exact hblind.saves_remove (Tree.mem_sites_iff.1 hs).2 (Node.holds_self hm) hignores hremove

theorem saves_removeItem (h : t.removeItem s.path = .ok t') : o.Saves t.root t'.root :=
  hblind.saves_removeItem (Tree.mem_sites_iff.1 hs).2 (Node.holds_self hm) hignores h

theorem saves_removeParameter (h : removeParameter s = .ok t') : o.Saves t.root t'.root := by
  obtain ⟨list, -, hitem⟩ := removeParameter_eq_ok hs h
  exact saves_removeItem hblind hs hm hignores hitem

end Taking

/-! ## Removals from lists -/

section Listed

variable (htaken : ∀ m : Node, Q m.top → o.Ignores m)
  (hbarred : ∀ up m, Barred (m.top :: up) → o.tell up m = [])
  (hunlisted : ∀ up (m : Node), m.kind.isListing = true → o.tell up m = [])

include htaken hbarred hunlisted

omit hblind in
/-- Nothing is seen of a list with a taken item and no other item. -/
theorem ignores_listing {list item : Node} {kind : Kind} (hlisting : list.kind.isListing = true)
    (hitem : .node item ∈ list.children) (hkind : item.kind = kind) (hQ : Q item.top)
    (hsingle : ¬1 < (list.childrenOf kind).length)
    (hbars : ∀ c : Node, c.kind ≠ kind → list.kind.bars c.kind = true) : o.Ignores list := by
  have hmem : ∀ c : Node, .node c ∈ list.children → c.kind = kind → c ∈ list.childrenOf kind :=
    fun c hc hc' => List.mem_filter.2 ⟨List.mem_filterMap.2 ⟨_, hc, rfl⟩, by simp [hc']⟩
  intro up
  rw [Observer.see_eq, hunlisted up list hlisting, List.nil_append]
  refine (o.seeIn_eq_nil _).2 fun c hc => ?_
  by_cases hc' : c.kind = kind
  · obtain ⟨only, honly⟩ : ∃ only, list.childrenOf kind = [only] := by
      refine List.length_eq_one_iff.1 (Nat.le_antisymm (Nat.not_lt.1 hsingle) ?_)
      exact List.length_pos_of_mem (hmem item hitem hkind)
    have hc := hmem c hc hc'
    have hitem := hmem item hitem hkind
    rw [honly, List.mem_singleton] at hc hitem
    rw [hc, ← hitem]
    exact htaken item hQ _
  · exact Observer.see_of_bars hbarred (hbars c hc') up

theorem saves_removeMarker (hs : s ∈ t.sites) (hm : Q s.node.top) (h : removeMarker s = .ok t') :
    o.Saves t.root t'.root := by
  obtain ⟨hmarker, list, hlist, hitem | ⟨hsingle, option, hremove⟩⟩ := removeMarker_eq_ok hs h
  · exact saves_removeItem hblind hs hm (htaken _ hm) hitem
  · obtain ⟨hat, hlistKind, i, -, hc⟩ := child_of_parentOf hs hlist
    refine hblind.saves_remove hat ((Node.holds_self hm).of_child hc) ?_ hremove
    refine ignores_listing htaken hbarred hunlisted (by rw [hlistKind]; rfl)
      (List.mem_of_getElem? hc) hmarker hm hsingle fun c hother => ?_
    rw [hlistKind]
    simpa [Kind.bars] using hother

theorem saves_removeBaseType (hs : s ∈ t.sites) (hm : Q s.node.top)
    (h : removeBaseType s = .ok t') : o.Saves t.root t'.root := by
  obtain ⟨hbase, list, hlist, hitem | ⟨hsingle, w, hw, hremove⟩⟩ := removeBaseType_eq_ok hs h
  · exact saves_removeItem hblind hs hm (htaken _ hm) hitem
  · obtain ⟨hat, hlistKind, i, -, hc⟩ := child_of_parentOf hs hlist
    have hholds : list.node.Holds Q := (Node.holds_self hm).of_child hc
    -- the token before the list gets other trivia, and the list stays for the removal
    obtain ⟨hsaves, hat⟩ := hblind.saves_updateNear .before
      (Token.trailingOnly_set fun _ => list.node.trailing) hat hholds hw
    refine hsaves.trans (hblind.saves_remove hat hholds ?_ hremove)
    refine ignores_listing htaken hbarred hunlisted (by rw [hlistKind]; rfl)
      (List.mem_of_getElem? hc) hbase hm hsingle fun c hother => ?_
    rw [hlistKind]
    simpa [Kind.bars] using hother

end Listed

/-! ## Method headers -/

section Header

variable (hbarred : ∀ up m, Barred (m.top :: up) → o.tell up m = [])

include hbarred

omit hblind in
/-- The modifiers and the return type of a method are not seen. -/
theorem see_header {top : Top} {n : Node} (htop : top.kind = .methodDeclaration)
    (hn : n.kind = .modifiers ∨ n.kind.isValue = true) (up : List Top) :
    o.see (top :: up) n = [] := by
  refine Observer.see_of_bars hbarred ?_ up
  rw [htop]
  simpa [Kind.bars] using hn

omit hblind in
theorem savesIn_replaceModifiers {top : Top} (htop : top.kind = .methodDeclaration) {index : Nat}
    {old new : List Token} {es : List Element} {c : Node} (hc : es[index]? = some (.node c))
    (hkind : c.kind = .modifiers) : o.SavesIn top es (replaceModifiers index old new es) := by
  have hmodifiers := see_header hbarred (n := c) htop (.inl hkind)
  obtain ⟨ts, heq, -⟩ | ⟨type, htype, -, -, heq⟩ := replaceModifiers_cases index old new es
  · rw [heq]
    exact Observer.savesIn_set_of_ignored hc hmodifiers _
  · have hmoved : o.SavesIn top es (es.set (index + 1) (.node (type.withLeading []))) :=
      Observer.savesIn_set htype (Observer.saves_withLeading _ _)
    rw [heq]
    refine hmoved.trans (Observer.savesIn_set_of_ignored ?_ hmodifiers _)
    rw [List.getElem?_set_ne (Nat.succ_ne_self index)]
    exact hc

omit hblind in
/-- The part after the modifiers is the return type, of which nothing is seen. -/
theorem savesIn_setReturnType {top : Top} (htop : top.kind = .methodDeclaration) {index : Nat}
    {make : Node → Except EditError (Option Node)} {es es' : List Element} {c : Node}
    (hes : Element.HeadedIn es) (hc : es[index]? = some (.node c)) (hkind : c.kind = .modifiers)
    (h : setReturnType (index + 1) make es = .ok es') : o.SavesIn top es es' := by
  obtain ⟨current, hcurrent, rfl | ⟨type, -, rfl⟩⟩ := setReturnType_eq_ok h
  · exact .refl _ _
  · obtain ⟨v, hv, hvalue⟩ := Element.headedIn_iff.1 hes index c hc hkind
    obtain rfl : current = v := by simpa [hcurrent] using hv
    exact Observer.savesIn_set_of_ignored hcurrent (see_header hbarred htop (.inr hvalue)) _

theorem saves_changeSignature {settings : Settings} {change : SignatureChange}
    (ht : t.root.Headed) (hs : s ∈ t.sites) (hm : Q s.node.top)
    (h : changeSignature settings change s = .ok t') : o.Saves t.root t'.root := by
  obtain ⟨hmethod, rfl | ⟨method, hchange, hput⟩⟩ := changeSignature_eq_ok hs h
  · exact .refl _
  · obtain ⟨-, hat⟩ := Tree.mem_sites_iff.1 hs
    obtain ⟨index, c, es, hc, hmodifiers, hes, rfl⟩ := changeHeader_eq_ok hchange
    have hparts := headedParts_of_headed (ht.at? hat) hmethod
    obtain ⟨c', hc', hmodifiers'⟩ :=
      getElem?_replaceModifiers (List.getElem?_eq_some_iff.1 hc).1
    refine hblind.saves_put hat (Node.holds_self hm) ?_ hput
    refine hblind.saves (Node.holds_self hm) rfl ?_
    exact (savesIn_replaceModifiers hbarred hmethod hc hmodifiers).trans
      (savesIn_setReturnType hbarred hmethod
        (headedParts_replaceModifiers hparts hc hmodifiers).order hc' hmodifiers' hes)

omit hblind hbarred in
theorem saves_onNewLine (list declaration : Node) (lead indent : List Trivia) :
    (putMarker.onNewLine list declaration lead indent).top = declaration.top ∧
      o.SavesIn declaration.top declaration.children
        (putMarker.onNewLine list declaration lead indent).children :=
  ⟨declaration.top_mapFirst _, (Observer.savesIn_withLeading declaration indent).trans
    (Observer.savesIn_insertAt 0 _ [_])⟩

omit hblind hbarred in
theorem saves_putMarker (list method : Node) : (putMarker list method).top = method.top ∧
    o.SavesIn method.top method.children (putMarker list method).children := by
  obtain heq | ⟨first, rest, hchildren, -, heq⟩ := putMarker_cases list method
  · rw [heq]
    exact saves_onNewLine list method _ _
  · rw [heq, hchildren]
    have hfirst : o.SavesIn method.top (.node first :: rest) (.node (first.withLeading
        (Trivia.newline :: Trivia.indentation method.leading)) :: rest) :=
      Observer.savesIn_set (i := 0) rfl (Observer.saves_withLeading _ _)
    exact ⟨rfl, hfirst.trans (Observer.savesIn_insertAt 0 _ [_])⟩

theorem saves_addMethodMarker {marker : String} {returnType : Option String}
    (ht : t.root.Headed) (hs : s ∈ t.sites) (hm : Q s.node.top)
    (h : addMethodMarker marker returnType s = .ok t') : o.Saves t.root t'.root := by
  obtain ⟨hmethod, list, hlist, hput⟩ := addMethodMarker_eq_ok hs h
  obtain ⟨-, hat⟩ := Tree.mem_sites_iff.1 hs
  obtain ⟨htop, hsaves⟩ := saves_putMarker (o := o) list s.node
  obtain ⟨-, hput⟩ | ⟨text, type, index, es, -, -, hindex, hes, hput⟩ := hput
  · exact hblind.saves_put hat (Node.holds_self hm)
      (hblind.saves (Node.holds_self hm) htop hsaves) hput
  · obtain ⟨c, hc, hmodifiers⟩ := Node.indexOf?_eq_some hindex
    obtain ⟨hparts, -⟩ := headedParts_putMarker
      (Fragment.is_of_readAttributeList (markerList_eq_ok hlist)) (ht.at? hat) hmethod
    refine hblind.saves_put hat (Node.holds_self hm) ?_ hput
    refine hblind.saves (Node.holds_self hm) htop (hsaves.trans ?_)
    exact savesIn_setReturnType hbarred hmethod hparts.order hc hmodifiers hes

end Header

/-! ## New markers and base types -/

theorem saves_putClassMarker {list declaration : Node} (hn : declaration.Holds Q) :
    o.Saves declaration (putClassMarker list declaration) := by
  obtain heq | ⟨index, heq⟩ := putClassMarker_cases list declaration
  · rw [heq]
    obtain ⟨htop, hsaves⟩ := saves_onNewLine (o := o) list declaration declaration.leading
      (Trivia.indentation declaration.leading)
    exact hblind.saves hn htop hsaves
  · rw [heq]
    refine hblind.saves hn rfl ?_
    have hinsert : o.SavesIn declaration.top _ _ :=
      Observer.savesIn_insertAt index declaration.children [.node ((list.withLeading
        (Trivia.indentation declaration.leading)).withTrailing [Trivia.newline])]
    rwa [List.append_assoc, List.singleton_append] at hinsert

theorem saves_addClassMarker {marker : String} (hs : s ∈ t.sites) (hm : Q s.node.top)
    (h : addClassMarker marker s = .ok t') : o.Saves t.root t'.root := by
  obtain ⟨-, list, -, hput⟩ := addClassMarker_eq_ok hs h
  have hholds : s.node.Holds Q := Node.holds_self hm
  exact hblind.saves_put (Tree.mem_sites_iff.1 hs).2 hholds (saves_putClassMarker hblind hholds) hput

theorem saves_insertBaseList {base declaration declaration' : Node} (hn : declaration.Holds Q)
    (h : insertBaseList base declaration = .ok declaration') :
    o.Saves declaration declaration' := by
  obtain ⟨index, anchor, hanchor, -, rfl⟩ := insertBaseList_eq_ok h
  refine hblind.saves hn rfl fun up => ?_
  obtain ⟨hlt, hget⟩ := List.getElem?_eq_some_iff.1 hanchor
  conv_lhs => rw [← List.take_append_drop index declaration.children,
    List.drop_eq_getElem_cons hlt, hget]
  simp only [Node.withChildren, Observer.seeIn_append, Observer.seeIn,
    Observer.seePart_mapLast o (Token.trailingOnly_set fun _ => [Trivia.space])]
  exact ((List.sublist_append_right _ _).append_left _).append_left _

omit hblind in
theorem saves_extendBaseList {base list : Node} (hunlisted : ∀ up, o.tell up list = []) :
    o.Saves list (extendBaseList base list) := by
  intro up
  have htop : (extendBaseList base list).top = list.top := list.top_mapLast _
  rw [Observer.see_eq, Observer.see_eq, hunlisted, htop, List.nil_append]
  refine List.Sublist.trans ?_ (List.sublist_append_right _ _)
  have hparts : o.SavesIn list.top list.children (extendBaseList base list).children := by
    refine (Observer.savesIn_withTrailing list []).trans fun up => ?_
    simp only [extendBaseList, Node.withChildren, Observer.seeIn_append]
    exact List.sublist_append_left _ _
  exact hparts up

/-- The base list of the node may change without its tag, since nothing is told of it. -/
theorem saves_addBaseType {type : String}
    (hunlisted : ∀ up (m : Node), m.kind.isListing = true → o.tell up m = []) (hs : s ∈ t.sites)
    (hm : Q s.node.top) (h : addBaseType type s = .ok t') : o.Saves t.root t'.root := by
  obtain ⟨-, read, -, hput⟩ := addBaseType_eq_ok hs h
  obtain ⟨-, hat⟩ := Tree.mem_sites_iff.1 hs
  have hholds : s.node.Holds Q := Node.holds_self hm
  obtain ⟨-, rfl⟩ | ⟨-, ⟨i, list, hc, hlist, hput⟩ | ⟨declaration, hinsert, hput⟩⟩ := hput
  · exact .refl _
  · refine hblind.saves_put hat hholds ?_ hput
    refine hblind.saves hholds rfl (Observer.savesIn_set hc (saves_extendBaseList fun up => ?_))
    refine hunlisted up _ ?_
    rw [hlist]
    rfl
  · exact hblind.saves_put hat hholds (saves_insertBaseList hblind hholds hinsert) hput

/-! ## Containers -/

section Container

variable (htaken : ∀ m : Node, Q m.top → o.Ignores m)

include htaken

theorem saves_replaceTagged {tag : Option Tag} {make : Site → Except EditError Node}
    (htag : ∀ x ∈ tag, ∀ top : Top, x ∈ top.tags → Q top)
    (h : replaceTagged tag make t = .ok t') : o.Saves t.root t'.root := by
  obtain rfl | ⟨x, s, e, hx, -, hs, hbears, -, hput⟩ := replaceTagged_eq_ok h
  · exact .refl _
  · have hm : Q s.node.top := htag x hx s.node.top hbears
    exact hblind.saves_put (Tree.mem_sites_iff.1 hs).2 (Node.holds_self hm)
      ((htaken _ hm).saves _) hput

theorem saves_reshapeContainer {settings : Settings} {change : ContainerChange} (hs : s ∈ t.sites)
    (htags : ∀ x ∈ (Change.container change).partTags, ∀ top : Top, x ∈ top.tags → Q top)
    (h : reshapeContainer settings change s = .ok t') : o.Saves t.root t'.root := by
  obtain ⟨w, hw, h⟩ := reshapeContainer_eq_ok hs h
  have hcreation : ∀ x ∈ change.creationTag, ∀ top : Top, x ∈ top.tags → Q top :=
    fun x hx => htags x (List.mem_append_right _ (Option.mem_toList.2 hx))
  have htype : ∀ x ∈ change.typeTag, ∀ top : Top, x ∈ top.tags → Q top :=
    fun x hx => htags x (List.mem_append_left _ (Option.mem_toList.2 hx))
  exact (saves_replaceTagged hblind htaken hcreation hw).trans
    (saves_replaceTagged hblind htaken htype h)

end Container

end Edit

/-! ## Records -/

/-- A record saves what is seen by an observer that it spares. Edits of headers need the return
    type to stand where they look for it. -/
theorem Change.saves_apply {α : Type} {o : Observer α} {r : Record} {t t' : Tree} {s : Site}
    {settings : Settings} (hspared : o.SparedBy r)
    (ht : r.kind.rank ≤ RecordKind.methodMarker.rank → t.root.Headed) (hs : s ∈ t.sites)
    (htag : r.tag ∈ s.node.tags) (h : r.change.apply settings s = .ok t') :
    o.Saves t.root t'.root := by
  have hblind := hspared.blind
  have hm : s.node.top.Bears r.tags := ⟨r.tag, List.mem_cons_self .., htag⟩
  have htaken : r.kind.takes = true → ∀ m : Node, m.top.Bears r.tags → o.Ignores m :=
    fun htakes _ => Observer.ignores_of_taken (hspared.taken htakes)
  obtain ⟨tag, written, change⟩ := r
  cases change with
  | exceptionCapture captured body =>
    exact Edit.saves_captureException hblind hs hm (htaken rfl _ hm) h
  | callReplacement text => exact Edit.saves_replaceCall hblind hs hm (htaken rfl _ hm) h
  | container change =>
    refine Edit.saves_reshapeContainer hblind (htaken rfl) hs (fun x hx top hbears => ?_) h
    exact ⟨x, List.mem_cons_of_mem _ hx, hbears⟩
  | assertion change => exact Edit.saves_replaceAssertion hblind hs hm (htaken rfl _ hm) h
  | signature change =>
    have hrank : RecordKind.signature.rank ≤ RecordKind.methodMarker.rank := by decide
    exact Edit.saves_changeSignature hblind (hspared.barred rfl) (ht hrank) hs hm h
  | methodMarker marker returnType =>
    exact Edit.saves_addMethodMarker hblind (hspared.barred rfl) (ht (Nat.le_refl _)) hs hm h
  | marker change => exact Edit.saves_changeMarker hblind hs hm (htaken rfl _ hm) h
  | parameterMarker name arguments =>
    exact Edit.saves_changeParameterMarker hblind hs hm (htaken rfl _ hm) h
  | markerRemoval =>
    exact Edit.saves_removeMarker hblind (htaken rfl) (hspared.barred rfl) hspared.unlisted hs hm h
  | baseTypeRemoval type =>
    exact Edit.saves_removeBaseType hblind (htaken rfl) (hspared.barred rfl) hspared.unlisted hs hm h
  | baseTypeAddition type => exact Edit.saves_addBaseType hblind hspared.unlisted hs hm h
  | classMarker marker => exact Edit.saves_addClassMarker hblind hs hm h
  | memberRemoval name => exact Edit.saves_removeMember hblind hs hm (htaken rfl _ hm) h
  | parameterRemoval name type => exact Edit.saves_removeParameter hblind hs hm (htaken rfl _ hm) h

/-- A run of records saves what is seen by an observer that all those spare that land. -/
theorem Tree.saves_after {α : Type} {o : Observer α} {settings : Settings} {t : Tree}
    {records : List Record} (ht : t.root.Headed)
    (hsorted : records.Pairwise fun a b => a.kind.rank ≤ b.kind.rank)
    (hspared : ∀ before r rest, records = before ++ r :: rest →
      r.outcome settings (t.after settings before) = .applied → o.SparedBy r) :
    o.Saves t.root (t.after settings records).root := by
  refine after_induction (P := fun w => o.Saves t.root w.root) (.refl _) ?_
  intro before r rest s t' hsplit houtcome hs htag happly hbefore
  refine hbefore.trans (Change.saves_apply (hspared before r rest hsplit houtcome) (fun hrank => ?_)
    hs htag happly)
  rw [hsplit] at hsorted
  obtain ⟨-, -, hlast⟩ := List.pairwise_append.1 hsorted
  exact headed_after (fun r' hr' => Nat.le_trans (hlast r' hr' r (List.mem_cons_self ..)) hrank) ht

/-! ## Imports and banner -/

namespace Observer

variable {α : Type} {o : Observer α} {t t' : Tree}

/-- Nothing is told of imports, of what holds one, or of a whole file. -/
structure SparedByImports (o : Observer α) : Prop where
  blind : o.BlindTo fun top => top.kind = .usingDirective
  taken : ∀ up n, (∃ top ∈ n.top :: up, top.kind = .usingDirective) → o.tell up n = []
  root : ∀ n, o.tell [] n = []

variable (h : o.SparedByImports)

include h

theorem SparedByImports.see_addImport {space : String} (hadd : Edit.addImport t space = .ok t') :
    (o.see [] t.root).Sublist (o.see [] t'.root) := by
  obtain ⟨directive, -, honTop | ⟨last, owner, index, u, -, -, hu, hc, hkind, hinsert⟩⟩ :=
    Edit.addImport_eq_ok hadd
  · obtain ⟨header, rest, -, hroot⟩ := Edit.onTop_eq_ok honTop
    have htop : t'.root.top = t.root.top := by
      rw [hroot]
      exact t.root.top_mapFirst _
    rw [see_eq, see_eq, h.root, h.root, htop, List.nil_append, List.nil_append, hroot]
    exact ((savesIn_withLeading t.root rest).trans (savesIn_insertAt 0 _
      [.node (directive.withLeading header)])) []
  · have hholds : u.Holds fun top => top.kind = .usingDirective := (Node.holds_self hkind).of_child hc
    exact h.blind.saves_insert hu hholds hinsert []

theorem SparedByImports.see_apply (delta : ImportDelta) (t : Tree) :
    (o.see [] t.root).Sublist (o.see [] (delta.apply t).1.root) := by
  refine ImportDelta.apply_induction
    (P := fun w => (o.see [] t.root).Sublist (o.see [] w.root)) ?_ ?_ delta (.refl _)
  · intro w w' s option hs hkind hremove hw
    exact hw.trans (h.blind.saves_remove (Tree.mem_sites_iff.1 hs).2 (Node.holds_self hkind)
      (ignores_of_taken h.taken hkind) hremove [])
  · intro w w' space hadd hw
    exact hw.trans (h.see_addImport hadd)

end Observer

/-- What is left when the records of a plan were carried out is saved by an observer that the imports
    spare. -/
theorem Plan.see_apply_of_after {α : Type} {o : Observer α} (plan : Plan) (settings : Settings)
    (t : Tree) (himports : o.SparedByImports) :
    (o.see [] (t.after settings plan.ordered).root).Sublist
      (o.see [] (plan.apply settings t).tree.root) := by
  have hedits : (o.see [] (t.after settings plan.ordered).root).Sublist
      (o.see [] (plan.applyEdits settings t).tree.root) := himports.see_apply plan.imports _
  simp only [apply]
  split
  · exact hedits.trans (Observer.saves_mapFirst (Token.leadingOnly_set _) _ [])
  · exact hedits

/-- A plan saves what is seen by an observer that its records and the imports spare. -/
theorem Plan.see_apply {α : Type} {o : Observer α} {plan : Plan} {settings : Settings} {t : Tree}
    (ht : t.root.Headed) (hrecords : ∀ r ∈ plan.records, o.SparedBy r)
    (himports : o.SparedByImports) :
    (o.see [] t.root).Sublist (o.see [] (plan.apply settings t).tree.root) := by
  have hafter : o.Saves t.root (t.after settings plan.ordered).root := by
    refine Tree.saves_after ht plan.sorted_ordered fun before r rest heq _ => ?_
    refine hrecords r (mem_ordered.1 ?_)
    rw [heq]
    simp
  exact (hafter []).trans (plan.see_apply_of_after settings t himports)

end Recast
