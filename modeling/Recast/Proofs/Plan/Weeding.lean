-- SUMMARY: Records that take items from their lists are all carried out, and come to the tree without these items and without the lists that lose all of theirs, where every list is well separated still.
import Recast.Proofs.Edit.Retyping
import Recast.Proofs.Edit.Thinning
import Recast.Proofs.Migration.Leaving
import Recast.Proofs.Plan.Accounting
import Recast.Proofs.Plan.Covering

/-! # Weeding

Markers, base types and parameters of constructors are taken from their lists one by one. An item
goes from its list, or the list goes with its last item; either way the tree gets thinner by the tag
of the item and its lists stay well separated (`Tree.Weeds`).

A record finds its item as long as no record before it took a node that the item stands in. The kinds
of records come in an order: markers go first, then base types, then parameters. So an attribute may
stand in a base type that goes and both in a parameter that goes, but not the other way round
(`Tree.Weedable`). -/

namespace Recast

variable {tag : Tag}

namespace Element

theorem mark_untagged (e : Element) : e.untagged.mark = e.mark := by
  cases e with
  | token u => rfl
  | node n => rw [untagged, mark, mark, Node.untagged_eq]

theorem outlook_untagged (e : Element) : e.untagged.outlook = e.outlook := by
  refine Prod.ext e.mark_untagged ?_
  cases e with
  | token u => rfl
  | node n =>
    simp only [outlook, untagged, node?, Option.map_some, Option.getD_some, Node.untagged_eq, row,
      List.map_map]
    exact List.map_congr_left fun e _ => e.mark_untagged

end Element

namespace Node

variable {n n' r : Node}

theorem Thins.of_mapTokens_left (h : n.Thins tag n') (hsame : r.mapTokens .core = n.mapTokens .core) :
    r.Thins tag n' := by
  refine ⟨tags_of_mapTokens hsame ▸ h.untagged, fun gone => ?_, fun gone => ?_⟩
  · rw [h.goes, ← r.goes_mapTokens (g := .core), hsame, n.goes_mapTokens]
  · rw [h.thinned, thinned_of_mapTokens hsame]

/-- Lists do not stand right in lists. -/
theorem Arranged.item?_eq_none {c : Node} (h : n.Arranged) (hc : .node c ∈ n.children)
    (hlisting : c.kind.isListing = true) : n.kind.item? = none := by
  by_contra hsome
  obtain ⟨trailing, opening, items, closing, hrow, hlists⟩ :=
    ((arranged_iff.1 h).1.listed (Option.isSome_iff_ne_none.2 hsome))
  have hmark : (Element.node c).mark ∈ opening ++ items ++ trailing ++ closing :=
    hrow ▸ List.mem_map_of_mem hc
  -- No item of a list is a list itself.
  have hitem : ∀ item, n.kind.item? = some item → c.kind ≠ item := by
    rintro item hitem rfl
    generalize n.kind = list at hitem
    cases list <;> first | cases hitem | (obtain h := Option.some.inj hitem; rw [← h] at hlisting; cases hlisting)
  simp only [List.mem_append] at hmark
  rcases hmark with ((hmark | hmark) | hmark) | hmark
  · have hkind := (hlists.opens _ hmark).2 c.kind rfl
    rw [hkind] at hlisting
    cases hlisting
  · rcases hlists.separated with rfl | ⟨item, hsome, hseparated⟩
    · cases hmark
    · rcases hseparated.kind?_eq hmark with hcomma | hkind
      · cases hcomma
      · exact hitem item hsome (Option.some.inj hkind)
  · rcases hlists.trails with rfl | ⟨rfl, -⟩
    · cases hmark
    · cases List.mem_singleton.1 hmark
  · obtain ⟨text, htext⟩ := hlists.closes _ hmark
    cases htext

theorem Arranged.of_alike {m : Node} (h : m.Arranged) (halike : n.Alike m) : n.Arranged := by
  intro p c hat
  obtain ⟨d, hd, hcd⟩ := halike.at? hat
  rw [hcd.kind_eq]
  refine (h p d hd).of_outlook ?_
  have hsame := congrArg (List.map Element.outlook) hcd.map_children
  simpa only [List.map_map, Function.comp_def, Element.outlook_untagged] using hsame

end Node

namespace Tree

variable {t w t' : Tree} {q : Path} {i : Nat} {list m : Node}

/-- A tree gets thinner by a tag, and its lists are well separated still. -/
structure Weeds (tag : Tag) (t t' : Tree) : Prop where
  arranged : t'.root.Arranged
  thins : t.root.Thins tag t'.root

/-- A tag that is in one child alone is not on the node and in no other child. -/
theorem beside (h : ∀ p, tag ∈ t.root.tagsAt p → q ++ [i] <+: p) (hat : t.root.at? q = some list) :
    tag ∉ list.tags ∧ ∀ p, tag ∈ list.tagsAt p → [i] <+: p := by
  have hbelow : ∀ p, tag ∈ list.tagsAt p → [i] <+: p := by
    intro p hp
    obtain ⟨u, hu, htag⟩ := Node.mem_tagsAt.1 hp
    refine (List.prefix_append_right_inj q).1 (h (q ++ p) (Node.mem_tagsAt.2 ⟨u, ?_, htag⟩))
    exact Node.at?_trans hat hu
  refine ⟨fun htag => ?_, hbelow⟩
  have hnil := hbelow [] htag
  simp at hnil

/-- An item goes, and its list stays. -/
theorem exists_removeItem {pre post : List Element} {trailing : List Mark} (ht : t.root.Arranged)
    (hat : t.root.at? q = some list) (hsplit : list.children = pre ++ .node m :: post)
    (htag : tag ∈ m.tags) (honly : t.TaggedOnlyAt tag (q ++ [pre.length]))
    (hitem : list.kind.item? = some m.kind)
    (hlist : Mark.IsList list.kind trailing (Element.row list.children))
    (hrest : (∃ c, .node c ∈ pre ++ post ∧ c.kind = m.kind) ∨
      list.kind = .parameterList ∧ trailing = []) :
    ∃ t', t.removeItem (q ++ [pre.length]) = .ok t' ∧ t.Weeds tag t' := by
  have hindex : Path.index? (q ++ [pre.length]) = some pre.length := by simp [Path.index?]
  have hlength : ¬list.children.length ≤ pre.length := by simp [hsplit]
  obtain ⟨t', ht'⟩ : ∃ t', t.removeItem (q ++ [pre.length]) = .ok t' := by
    simp only [removeItem, Path.parent?_child, hindex]
    exact exists_tryUpdate hat (if_neg hlength)
  refine ⟨t', ht', ?_⟩
  have hput := put_of_removeItem hat ht'
  -- but for trivia, the list is closed up over the comma that goes with the item
  have hclosed : (list.withChildren (dropItem pre.length list.children)).mapTokens .core =
      (list.withChildren (closeUp Element.isComma pre post)).mapTokens .core := by
    rw [Node.mapTokens_eq, Node.mapTokens_eq, hsplit]
    exact congrArg list.withChildren (Element.map_dropItem Token.forgets_core _ pre post)
  have hbelow : ∀ p, tag ∈ t.root.tagsAt p → q ++ [pre.length] <+: p :=
    fun p hp => (honly p).1 hp ▸ List.prefix_refl _
  obtain ⟨hself, hbeside⟩ := beside hbelow hat
  have harranged := Node.arranged_closeUp hsplit hitem hlist hrest (ht.at? hat)
  have hrefits := Node.refits_closeUp hsplit hitem hrest
  have hthins := Node.thins_closeUp hsplit hitem hlist hrest htag hself
    (Node.not_carries_beside hsplit hbeside)
  exact ⟨(hput.arranged hat ht (harranged.of_mapTokens hclosed) (hrefits.of_mapTokens hclosed)).1,
    hput.thins hat (hthins.of_mapTokens hclosed)
      fun p hp => (List.prefix_append q _).trans (hbelow p hp)⟩

/-- A list with a tag on its only item goes. -/
theorem weeds_eraseIdx {owner : Node} (ht : t.root.Arranged) (hat : t.root.at? q = some owner)
    (hc : owner.children[i]? = some (.node list)) (hlisting : list.kind.isListing = true)
    (hgoes : ∀ gone, list.goes (tag :: gone) = true)
    (hbelow : ∀ p, tag ∈ t.root.tagsAt p → q ++ [i] <+: p)
    (hput : Node.Put (owner.withChildren (owner.children.eraseIdx i)) q t.root t'.root) :
    t.Weeds tag t' := by
  obtain ⟨hlt, hget⟩ := List.getElem?_eq_some_iff.1 hc
  have hsplit : owner.children = owner.children.take i ++ .node list :: owner.children.drop (i + 1) := by
    rw [← hget, ← List.drop_eq_getElem_cons hlt, List.take_append_drop]
  have hlength : (owner.children.take i).length = i := List.length_take_of_le (Nat.le_of_lt hlt)
  obtain ⟨hself, hbeside⟩ := beside hbelow hat
  have hnone := (ht.at? hat).item?_eq_none (List.mem_of_getElem? hc) hlisting
  have hother := Node.not_carries_beside hsplit (by rwa [hlength])
  rw [List.eraseIdx_eq_take_drop_succ] at hput
  exact ⟨(hput.arranged hat ht (Node.arranged_without_child hsplit hnone (ht.at? hat))
      (Node.refits_of_item?_eq_none hnone _)).1,
    hput.thins hat (Node.thins_without_child hsplit hnone hgoes hself hother)
      fun p hp => (List.prefix_append q _).trans (hbelow p hp)⟩

/-- As `weeds_eraseIdx`, for a list whose trivia may be moved before and is handed over. -/
theorem exists_remove_list (ht : t.root.Arranged) (hq : q ≠ []) (hat : t.root.at? q = some list)
    (hlisting : list.kind.isListing = true) (hgoes : ∀ gone, list.goes (tag :: gone) = true)
    (hbelow : ∀ p, tag ∈ t.root.tagsAt p → q <+: p)
    (hw : w.root.mapTokens .core = t.root.mapTokens .core) (option : RemoveOption) :
    ∃ t', w.remove q option = .ok t' ∧ t.Weeds tag t' := by
  -- The trivia may have moved, but the list is where it was.
  have hcopy : ∀ {w : Tree}, w.root.mapTokens .core = t.root.mapTokens .core →
      ∃ copy, w.root.at? q = some copy ∧ copy.mapTokens .core = list.mapTokens .core := by
    intro w hw
    have hsame := w.root.at?_mapTokens (g := .core) q
    rw [hw, Node.at?_mapTokens, hat, Option.map_some] at hsame
    obtain ⟨copy, hcopy, hcore⟩ := Option.map_eq_some_iff.1 hsame.symm
    exact ⟨copy, hcopy, hcore⟩
  obtain ⟨before, hbefore, -⟩ := hcopy hw
  obtain ⟨t', ht'⟩ := exists_remove hq hbefore option
  refine ⟨t', ht', ?_⟩
  obtain ⟨v, j, w', owner, rfl, hw', howner, hput⟩ := remove_eq_ok hbefore ht'
  have hcore := (mapTokens_handOver Token.forgets_core hw').trans hw
  obtain ⟨copy, hat', hsame⟩ := hcopy hcore
  rw [Node.at?_append, howner] at hat'
  obtain ⟨c, hc, hat'⟩ := Node.at?_cons_eq_some.1 hat'
  obtain rfl : c = copy := Option.some.inj hat'
  have hweeds : w'.Weeds tag t' := by
    refine weeds_eraseIdx (ht.of_mapTokens hcore) howner hc (Node.kind_of_mapTokens hsame ▸ hlisting)
      (fun gone => ?_) (fun p hp => hbelow p ?_) hput
    · rw [← c.goes_mapTokens (g := .core), hsame, list.goes_mapTokens, hgoes]
    · rwa [← Node.tagsAt_mapTokens (g := .core), hcore, Node.tagsAt_mapTokens] at hp
  exact ⟨hweeds.arranged, hweeds.thins.of_mapTokens_left hcore.symm⟩

end Tree

/-! ## Edits -/

namespace Node

variable {list m : Node} {pre post : List Element}

/-- A list has more than one item when there is one beside an item. -/
theorem one_lt_length_childrenOf (h : list.children = pre ++ .node m :: post) :
    1 < (list.childrenOf m.kind).length ↔ ∃ c, .node c ∈ pre ++ post ∧ c.kind = m.kind := by
  have hlength : (list.childrenOf m.kind).length =
      ((pre ++ post).filterMap Element.node?).countP (·.kind == m.kind) + 1 := by
    rw [childrenOf, ← List.countP_eq_length_filter, childNodes, h, List.filterMap_append,
      List.filterMap_append, List.countP_append, List.countP_append,
      List.filterMap_cons_some (show Element.node? (.node m) = some m from rfl), List.countP_cons_of_pos (by simp), Nat.add_assoc]
  rw [hlength, Nat.lt_add_left_iff_pos, List.countP_pos_iff]
  simp only [List.mem_filterMap, beq_iff_eq]
  constructor
  · rintro ⟨c, ⟨e, he, hc⟩, hkind⟩
    cases e with
    | token u => cases hc
    | node d =>
      obtain rfl := Option.some.inj hc
      exact ⟨d, he, hkind⟩
  · rintro ⟨c, hc, hkind⟩
    exact ⟨c, ⟨.node c, hc, rfl⟩, hkind⟩

/-- A list goes with its only item. -/
theorem goes_of_single (h : list.children = pre ++ .node m :: post)
    (hlisting : list.kind.isListing = true) (hitem : list.kind.item? = some m.kind)
    (htag : tag ∈ m.tags) (hsingle : ∀ c, .node c ∈ pre ++ post → c.kind ≠ m.kind) (gone : List Tag) :
    list.goes (tag :: gone) = true := by
  rw [goes, hlisting, Bool.true_and, Bool.or_eq_true]
  refine .inr (List.all_eq_true.2 fun e he => ?_)
  rw [h, List.mem_append, List.mem_cons, or_left_comm, ← List.mem_append] at he
  cases e with
  | token u => rfl
  | node x =>
    rw [Element.isSpent, hitem]
    rcases he with he | he
    · rw [Element.node.inj he, bears_cons_of_mem htag, Bool.or_true]
    · simp [(hsingle x he).symm]

end Node

namespace Edit

variable {t : Tree} {p q : Path} {m list : Node}

theorem parentOf_child {kind : Kind} {i : Nat} (hat : t.root.at? q = some list)
    (hkind : list.kind = kind) : parentOf ⟨t, q ++ [i], m⟩ kind = .ok ⟨t, q, list⟩ := by
  have hparent : (⟨t, q ++ [i], m⟩ : Site).parent? = some ⟨t, q, list⟩ := by
    simp only [Site.parent?, Path.parent?_child, Option.bind_some, Site.goto?, hat, Option.map_some]
  have hfound : (Site.parent? ⟨t, q ++ [i], m⟩).filter (fun p => p.kind == kind) =
      some ⟨t, q, list⟩ := by
    rw [hparent, Option.filter_some, if_pos]
    exact beq_iff_eq.2 hkind
  rw [parentOf, hfound]

/-- The place of a node among its siblings. -/
theorem exists_siblings (hat : t.root.at? p = some m) (hp : p ≠ []) :
    ∃ q pre post list, p = q ++ [pre.length] ∧ t.root.at? q = some list ∧
      list.children = pre ++ .node m :: post := by
  obtain ⟨q, i, list, rfl, -, -, hlist, hc⟩ := Tree.exists_parent hp hat
  obtain ⟨hlt, hget⟩ := List.getElem?_eq_some_iff.1 hc
  refine ⟨q, list.children.take i, list.children.drop (i + 1), list, ?_, hlist, ?_⟩
  · rw [List.length_take_of_le (Nat.le_of_lt hlt)]
  · rw [← hget, ← List.drop_eq_getElem_cons hlt, List.take_append_drop]

section Listed

variable {kind : Kind} (ht : t.root.Arranged) (hroot : t.root.kind = .compilationUnit)
  (hat : t.root.at? p = some m) (htag : tag ∈ m.tags) (honly : t.TaggedOnlyAt tag p)

include ht hroot hat htag honly

/-- A node that stands in lists of a kind alone goes from its list when it has company there, and
    otherwise with it, whatever becomes of the trivia around. -/
theorem exists_weeds_listed (hkind : m.kind.list? = some kind) :
    ∃ list : Site, parentOf ⟨t, p, m⟩ kind = .ok list ∧ t.root.at? list.path = some list.node ∧
      (1 < (list.node.childrenOf m.kind).length →
        ∃ t', t.removeItem p = .ok t' ∧ t.Weeds tag t') ∧
      (¬1 < (list.node.childrenOf m.kind).length →
        ∀ w : Tree, w.root.mapTokens .core = t.root.mapTokens .core → ∀ option,
          ∃ t', w.remove list.path option = .ok t' ∧ t.Weeds tag t') := by
  have hlisting : kind.isListing = true := by
    generalize m.kind = item at hkind
    cases item <;> first | (cases hkind; rfl) | cases hkind
  have hp : p ≠ [] := by
    rintro rfl
    obtain rfl := Option.some.inj hat
    rw [hroot] at hkind
    cases hkind
  obtain ⟨q, pre, post, list, rfl, hlist, hsplit⟩ := exists_siblings hat hp
  have hm : .node m ∈ list.children := by simp [hsplit]
  have harranges := (Node.arranged_iff.1 (ht.at? hlist)).1
  have hlistKind : list.kind = kind := harranges.placed m hm kind hkind
  have hitem : list.kind.item? = some m.kind := hlistKind ▸ Kind.item?_of_list? hkind
  refine ⟨⟨t, q, list⟩, parentOf_child hlist hlistKind, hlist, fun hmany => ?_, fun hsingle w hw option => ?_⟩
  · obtain ⟨trailing, hrow⟩ := harranges.listed (by rw [hitem]; rfl)
    exact Tree.exists_removeItem ht hlist hsplit htag honly hitem hrow
      (.inl ((Node.one_lt_length_childrenOf hsplit).1 hmany))
  · have hq : q ≠ [] := by
      rintro rfl
      obtain rfl := Option.some.inj hlist
      rw [← hlistKind, hroot] at hlisting
      cases hlisting
    rw [Node.one_lt_length_childrenOf hsplit] at hsingle
    have hbelow : ∀ p, tag ∈ t.root.tagsAt p → q <+: p :=
      fun p hp => (honly p).1 hp ▸ List.prefix_append q _
    have hgoes := Node.goes_of_single hsplit (hlistKind ▸ hlisting) hitem htag
      fun c hc hckind => hsingle ⟨c, hc, hckind⟩
    exact Tree.exists_remove_list ht hq hlist (hlistKind ▸ hlisting) hgoes hbelow hw option

theorem exists_removeMarker (hm : m.kind = .attribute) :
    ∃ t', removeMarker ⟨t, p, m⟩ = .ok t' ∧ t.Weeds tag t' := by
  obtain ⟨list, hlist, -, hmany, hsingle⟩ :=
    exists_weeds_listed ht hroot hat htag honly (show m.kind.list? = some .attributeList by rw [hm]; rfl)
  have hrequire : requireKind ⟨t, p, m⟩ (· == .attribute) "a marker" = .ok () :=
    if_pos (by simp [Site.kind, hm])
  rw [hm] at hmany hsingle
  simp only [removeMarker, hrequire, hlist, bind, Except.bind]
  split
  · rename_i hlength
    obtain ⟨t', ht', hweeds⟩ := hmany hlength
    exact ⟨t', by rw [ht']; rfl, hweeds⟩
  · rename_i hlength
    obtain ⟨t', ht', hweeds⟩ := hsingle hlength t rfl _
    exact ⟨t', by rw [ht']; rfl, hweeds⟩

theorem exists_removeBaseType (hm : m.kind = .baseType) :
    ∃ t', removeBaseType ⟨t, p, m⟩ = .ok t' ∧ t.Weeds tag t' := by
  obtain ⟨list, hlist, hat', hmany, hsingle⟩ :=
    exists_weeds_listed ht hroot hat htag honly (show m.kind.list? = some .baseList by rw [hm]; rfl)
  have hrequire : requireKind ⟨t, p, m⟩ (· == .baseType) "a base type" = .ok () :=
    if_pos (by simp [Site.kind, hm])
  rw [hm] at hmany hsingle
  simp only [removeBaseType, hrequire, hlist, bind, Except.bind]
  split
  · rename_i hlength
    obtain ⟨t', ht', hweeds⟩ := hmany hlength
    exact ⟨t', by rw [ht']; rfl, hweeds⟩
  · rename_i hlength
    obtain ⟨w, hw, -⟩ := Tree.around_updateNear .before
      (fun u => { u with trailing := list.node.trailing }) hat'
    have hcore := Tree.mapTokens_updateNear (g := .core) (fun u => Token.forgets_core u _ _) hw
    obtain ⟨t', ht', hweeds⟩ := hsingle hlength w hcore .dropTrivia
    have hw' : t.updateTokenBefore list.path (fun u => { u with trailing := list.node.trailing }) =
      .ok w := hw
    exact ⟨t', by simp only [hw', ht', onTree, Except.mapError], hweeds⟩

end Listed

/-- A parameter of a constructor goes from its list. -/
theorem exists_removeParameter (ht : t.root.Arranged) (hat : t.root.at? p = some m)
    (htag : tag ∈ m.tags) (honly : t.TaggedOnlyAt tag p) (hm : m.kind = .parameter)
    {owner parameters : Top} {rest : List Top} (habove : t.root.above p = parameters :: owner :: rest)
    (hparameters : parameters.kind = .parameterList) (howner : owner.kind.isConstructible = true) :
    ∃ t', removeParameter ⟨t, p, m⟩ = .ok t' ∧ t.Weeds tag t' := by
  have hp : p ≠ [] := by
    rintro rfl
    cases habove
  obtain ⟨q, pre, post, list, rfl, hlist, hsplit⟩ := exists_siblings hat hp
  rw [Node.above_concat (c := m) hlist (by simp [hsplit])] at habove
  obtain ⟨rfl, hrest⟩ := List.cons.inj habove
  have hq : q ≠ [] := by
    rintro rfl
    cases hrest
  obtain ⟨v, before, after, constructed, rfl, hconstructed, hsplit'⟩ := exists_siblings hlist hq
  rw [Node.above_concat (c := list) hconstructed (by simp [hsplit'])] at hrest
  obtain ⟨rfl, -⟩ := List.cons.inj hrest
  have hkind : list.kind = .parameterList := hparameters
  have hitem : list.kind.item? = some m.kind := by
    rw [hkind, hm]
    rfl
  have hrow : Mark.IsList list.kind [] (Element.row list.children) := by
    rw [hkind]
    exact (Node.arranged_iff.1 (ht.at? hconstructed)).1.strict howner list (by simp [hsplit']) hkind
  obtain ⟨t', ht', hweeds⟩ :=
    Tree.exists_removeItem ht hlist hsplit htag honly hitem hrow (.inr ⟨hkind, rfl⟩)
  have hrequire : ∀ p, requireKind ⟨t, p, m⟩ (· == .parameter) "a parameter" = .ok () :=
    fun _ => if_pos (by simp [Site.kind, hm])
  refine ⟨t', ?_, hweeds⟩
  simp only [removeParameter, hrequire, parentOf_child hlist hkind, bind, Except.bind, ht', onTree,
    Except.mapError]

end Edit

/-! ## Runs -/

namespace RecordKind

/-- The kind of the items that records of a kind take from their lists. -/
def item? : RecordKind → Option Kind
  | .markerRemoval => some .attribute
  | .baseTypeRemoval => some .baseType
  | .parameterRemoval => some .parameter
  | _ => none

theorem plain_of_item? {kind : RecordKind} {item : Kind} (h : kind.item? = some item) :
    item.isListing = false ∧ item.isDull = false := by
  cases kind <;> first | (cases h; exact ⟨rfl, rfl⟩) | cases h

end RecordKind

/-- True on the way up from the parameters of a constructor. -/
def Top.inConstructor : List Top → Bool
  | list :: owner :: _ => list.kind == .parameterList && owner.kind.isConstructible
  | _ => false

theorem Top.exists_of_inConstructor {up : List Top} (h : Top.inConstructor up = true) :
    ∃ list owner rest, up = list :: owner :: rest ∧ list.kind = .parameterList ∧
      owner.kind.isConstructible = true := by
  rcases up with _ | ⟨list, _ | ⟨owner, rest⟩⟩
  · cases h
  · cases h
  · rw [inConstructor, Bool.and_eq_true, beq_iff_eq] at h
    exact ⟨list, owner, rest, rfl, h.1, h.2⟩

/-- The top of an item that records of a kind take, and what it stands in: parameters are those of
    a constructor. -/
def Top.IsItem (kind : RecordKind) (up : List Top) (top : Top) : Prop :=
  kind.item? = some top.kind ∧ (kind = .parameterRemoval → Top.inConstructor up = true)

instance (kind : RecordKind) (up : List Top) (top : Top) : Decidable (top.IsItem kind up) :=
  inferInstanceAs (Decidable (_ ∧ _))

namespace Tree

/-- Records that each take an item from its list, none of which stands in one that goes before it. -/
structure Weedable (t : Tree) (records : List Record) : Prop where
  nodup : (records.map Record.tag).Nodup
  placed : ∀ r ∈ records, ∃ p m, t.TaggedOnlyAt r.tag p ∧ t.root.at? p = some m ∧
    m.top.IsItem r.kind (t.root.above p)
  apart : ∀ r ∈ records, ∀ r' ∈ records, r.tag ≠ r'.tag → r.kind.rank ≤ r'.kind.rank → ∀ p p',
    r.tag ∈ t.root.tagsAt p → r'.tag ∈ t.root.tagsAt p' → ¬p <+: p'

/-- The sites of the nodes with the tag of a record. -/
def taggedBy (t : Tree) (r : Record) : List Site :=
  t.sites.filter fun s => s.node.hasTag r.tag

/-- True when the tag of a record is on one node, which is an item that the record takes. -/
def seats (t : Tree) (r : Record) : Bool :=
  match t.taggedBy r with
  | [s] => decide (s.node.top.IsItem r.kind (t.root.above s.path))
  | _ => false

/-- True when no node of the second record stands in one of the first. -/
def separates (t : Tree) (r r' : Record) : Bool :=
  (t.taggedBy r).all fun s => (t.taggedBy r').all fun s' => !s.path.isPrefixOf s'.path

theorem mem_taggedBy {t : Tree} {r : Record} {s : Site} :
    s ∈ t.taggedBy r ↔ s.tree = t ∧ t.root.at? s.path = some s.node ∧ r.tag ∈ s.node.tags := by
  rw [taggedBy, List.mem_filter, mem_sites_iff, and_assoc]
  simp [Node.hasTag]

theorem exists_of_seats {t : Tree} {r : Record} (h : t.seats r = true) :
    ∃ p m, t.TaggedOnlyAt r.tag p ∧ t.root.at? p = some m ∧
      m.top.IsItem r.kind (t.root.above p) := by
  unfold seats at h
  split at h
  · rename_i s hone
    have hmem : ∀ u : Site, u ∈ t.taggedBy r ↔ u = s := fun u => by rw [hone, List.mem_singleton]
    obtain ⟨-, hat, htag⟩ := mem_taggedBy.1 ((hmem s).2 rfl)
    refine ⟨s.path, s.node, fun q => ⟨fun hq => ?_, ?_⟩, hat, of_decide_eq_true h⟩
    · obtain ⟨m, hm, hmtag⟩ := Node.mem_tagsAt.1 hq
      rw [← (hmem ⟨t, q, m⟩).1 (mem_taggedBy.2 ⟨rfl, hm, hmtag⟩)]
    · rintro rfl
      exact Node.mem_tagsAt.2 ⟨s.node, hat, htag⟩
  · cases h

/-- Whether records are as they should be can be read off the sites of their nodes. -/
theorem weedable_of_sites {t : Tree} {records : List Record} (hnodup : (records.map Record.tag).Nodup)
    (hseats : ∀ r ∈ records, t.seats r = true)
    (hseparates : ∀ r ∈ records, ∀ r' ∈ records, r.tag ≠ r'.tag → r.kind.rank ≤ r'.kind.rank →
      t.separates r r' = true) : t.Weedable records where
  nodup := hnodup
  placed r hr := exists_of_seats (hseats r hr)
  apart r hr r' hr' hne hrank p p' hp hp' := by
    obtain ⟨m, hat, htag⟩ := Node.mem_tagsAt.1 hp
    obtain ⟨m', hat', htag'⟩ := Node.mem_tagsAt.1 hp'
    have hall := hseparates r hr r' hr' hne hrank
    rw [separates, List.all_eq_true] at hall
    have hone := hall ⟨t, p, m⟩ (mem_taggedBy.2 ⟨rfl, hat, htag⟩)
    rw [List.all_eq_true] at hone
    intro hprefix
    have hnot := hone ⟨t, p', m'⟩ (mem_taggedBy.2 ⟨rfl, hat', htag'⟩)
    rw [List.isPrefixOf_iff_prefix.2 hprefix] at hnot
    cases hnot

variable (settings : Settings) {t : Tree} {r : Record} {p : Path} {m : Node}

/-- A record whose item is in the tree is applied. -/
theorem outcome_of_item (ht : t.root.Arranged) (hroot : t.root.kind = .compilationUnit)
    (honly : t.TaggedOnlyAt r.tag p) (hat : t.root.at? p = some m)
    (hitem : m.top.IsItem r.kind (t.root.above p)) :
    r.outcome settings t = .applied ∧ t.Weeds r.tag (t.after settings [r]) := by
  obtain ⟨m', hfound, hat'⟩ := honly.findTagged
  obtain rfl := Option.some.inj (hat.symm.trans hat')
  have htag : r.tag ∈ m.tags := by
    have hmem := (honly p).2 rfl
    rwa [Node.tagsAt, hat, Option.map_some, Option.getD_some] at hmem
  obtain ⟨t', ht', hweeds⟩ : ∃ t', r.change.apply settings ⟨t, p, m⟩ = .ok t' ∧ t.Weeds r.tag t' := by
    obtain ⟨tag, written, change⟩ := r
    obtain ⟨hkind, hparameter⟩ := hitem
    cases change with
    | markerRemoval => exact Edit.exists_removeMarker ht hroot hat htag honly (Option.some.inj hkind).symm
    | baseTypeRemoval type =>
      exact Edit.exists_removeBaseType ht hroot hat htag honly (Option.some.inj hkind).symm
    | parameterRemoval name type =>
      have hinside := hparameter rfl
      obtain ⟨list, owner, rest, habove, hlist, howner⟩ := Top.exists_of_inConstructor hinside
      exact Edit.exists_removeParameter ht hat htag honly (Option.some.inj hkind).symm habove hlist howner
    | _ => cases hkind
  have houtcome : r.outcome settings t = .applied := by simp only [Record.outcome, hfound, ht']
  obtain ⟨s, hs, happly⟩ := apply_of_outcome houtcome
  obtain rfl := Option.some.inj (hs.symm.trans hfound)
  obtain rfl := Except.ok.inj (ht'.symm.trans happly)
  exact ⟨houtcome, hweeds⟩

namespace Weedable

variable {records before rest : List Record} (h : t.Weedable records)

include h

/-- The records bring no node with a tag. -/
theorem retains_bare (hbefore : before ⊆ records) (x : Tag) :
    t.root.Retains x.bare (t.after settings before).root := by
  induction before using List.reverseRecOn with
  | nil => exact .refl _
  | append_singleton before r ih =>
    rw [after_concat_eq]
    refine (ih fun r' hr' => hbefore (List.mem_append_left _ hr')).trans
      (retains_after_single ⟨Node.clear_bare x _ _, fun hvalue => ?_, nofun⟩)
    obtain ⟨p, m, -, -, hkind, -⟩ := h.placed r (hbefore (by simp))
    generalize r.kind = kind at hkind hvalue
    cases kind <;> first | cases hkind | cases hvalue

/-- At its turn a record finds its item. -/
theorem exists_item (ht : t.root.Housed) (hsub : before ++ r :: rest ⊆ records)
    (hnodup : (before ++ r :: rest).map Record.tag |>.Nodup)
    (hsorted : (before ++ r :: rest).Pairwise fun a b => a.kind.rank ≤ b.kind.rank) :
    ∃ p m, (t.after settings before).TaggedOnlyAt r.tag p ∧
      (t.after settings before).root.at? p = some m ∧
      m.top.IsItem r.kind ((t.after settings before).root.above p) := by
  have hr : r ∈ records := hsub (by simp)
  obtain ⟨hearlier, -, hranks⟩ := List.pairwise_append.1 hsorted
  obtain ⟨p, m, honly, hat, hitem⟩ := h.placed r hr
  have hmem : r.tag ∈ t.root.tagsAt p := (honly p).2 rfl
  have htag : r.tag ∈ m.tags := by rwa [Node.tagsAt, hat, Option.map_some, Option.getD_some] at hmem
  have htags : ∀ r' ∈ before, ∀ x ∈ r'.tags, x = r'.tag := by
    intro r' hr' x hx
    obtain ⟨_, _, -, -, hkind, -⟩ := h.placed r' (hsub (List.mem_append_left _ hr'))
    obtain ⟨own, written, change⟩ := r'
    cases change <;> first | exact List.mem_singleton.1 hx | cases hkind
  have hplain := RecordKind.plain_of_item? hitem.1
  have hstays : m.top.Stays (fun up top => r.tag ∈ top.tags ∧ top.IsItem r.kind up)
      (fun top => ∃ r' ∈ before, top.Bears r'.tags) True (t.root.above p) := by
    refine ⟨⟨htag, hitem⟩, hplain.1, ?_, fun _ => ht.not_barred hat hplain.2⟩
    -- a record before it would have an item on the way up
    rintro x hx ⟨r', hr', y, hy, hbears⟩
    obtain rfl := htags r' hr' y hy
    have hne : r'.tag ≠ r.tag := by
      rw [List.map_append, List.map_cons] at hnodup
      intro heq
      exact List.disjoint_of_nodup_append hnodup (List.mem_map_of_mem hr') (by simp [heq])
    obtain ⟨k, u, hu, rfl⟩ : ∃ k u, t.root.at? (p.take k) = some u ∧ u.top = x := by
      rcases List.mem_cons.1 hx with rfl | hx
      · exact ⟨p.length, m, by rwa [List.take_length], rfl⟩
      · obtain ⟨k, u, -, hu, hux⟩ := Node.exists_of_mem_above hat hx
        exact ⟨k, u, hu, hux⟩
    exact h.apart r' (hsub (List.mem_append_left _ hr')) r hr hne
      (hranks r' hr' r (List.mem_cons_self ..)) (p.take k) p (Node.mem_tagsAt.2 ⟨u, hu, hbears⟩) hmem
      (List.take_prefix k p)
  let w := t.after settings before
  obtain ⟨q, n, hq, hstays'⟩ : ∃ q n, w.root.at? q = some n ∧ n.top.Stays _ _ _ (w.root.above q) :=
    exists_stays_after ht.headed hearlier hat hstays
      (fun earlier r' between hsplit _ _ top hbears => ⟨r', by simp [hsplit], hbears⟩)
      fun _ _ _ => trivial
  obtain ⟨htag', hitem'⟩ := hstays'.sort
  have honce := honly.once.of_retains (h.retains_bare settings
    (fun r' hr' => hsub (List.mem_append_left _ hr')) r.tag)
  refine ⟨q, n, fun q' => ⟨fun hq' => ?_, ?_⟩, hq, hitem'⟩
  · obtain ⟨n', hn', htag''⟩ := Node.mem_tagsAt.1 hq'
    exact honce q' q n' n hn' htag'' hq htag'
  · rintro rfl
    exact Node.mem_tagsAt.2 ⟨n, hq, htag'⟩

/-- What a run has come to before a turn. -/
theorem weeded_before (ht : t.root.Housed) (harranged : t.root.Arranged)
    (hroot : t.root.kind = .compilationUnit) (hsub : before ++ rest ⊆ records)
    (hnodup : (before ++ rest).map Record.tag |>.Nodup)
    (hsorted : (before ++ rest).Pairwise fun a b => a.kind.rank ≤ b.kind.rank) :
    let w := t.after settings before
    w.root.Arranged ∧ w.root.kind = .compilationUnit ∧
      ∀ gone, w.root.thinned gone = t.root.thinned (before.map Record.tag ++ gone) := by
  induction before using List.reverseRecOn generalizing rest with
  | nil => exact ⟨harranged, hroot, fun _ => rfl⟩
  | append_singleton before r ih =>
    rw [List.append_assoc, List.singleton_append] at hsub hnodup hsorted
    obtain ⟨harranged', hroot', hthinned⟩ := ih hsub hnodup hsorted
    obtain ⟨p, m, honly, hat, hitem⟩ := h.exists_item settings ht hsub hnodup hsorted
    obtain ⟨-, hweeds⟩ := outcome_of_item settings harranged' hroot' honly hat hitem
    have hkind := (Top.mk.inj hweeds.thins.top_eq).1
    simp only [after_concat_eq]
    refine ⟨hweeds.arranged, hkind.trans hroot', fun gone => ?_⟩
    rw [hweeds.thins.thinned, hthinned, List.map_append, List.append_assoc]
    rfl

/-- At its turn a record is applied. -/
theorem outcome_turn (ht : t.root.Housed) (harranged : t.root.Arranged)
    (hroot : t.root.kind = .compilationUnit) (hsub : before ++ r :: rest ⊆ records)
    (hnodup : (before ++ r :: rest).map Record.tag |>.Nodup)
    (hsorted : (before ++ r :: rest).Pairwise fun a b => a.kind.rank ≤ b.kind.rank) :
    r.outcome settings (t.after settings before) = .applied := by
  obtain ⟨harranged', hroot', -⟩ :=
    h.weeded_before settings ht harranged hroot hsub hnodup hsorted
  obtain ⟨p, m, honly, hat, hitem⟩ := h.exists_item settings ht hsub hnodup hsorted
  exact (outcome_of_item settings harranged' hroot' honly hat hitem).1

end Weedable

end Tree

/-! ## What is left -/

section Left

variable {gone : List Tag}

mutual

/-- The node and the nodes below it that neither go nor stand in one that goes, in document order. -/
def Node.left (gone : List Tag) : Node → List Node
  | ⟨kind, children, span, tags⟩ => ⟨kind, children, span, tags⟩ :: Element.leftIn gone children

/-- The nodes of a part that are left. -/
def Element.left (gone : List Tag) : Element → List Node
  | .token _ => []
  | .node n => if n.goes gone then [] else n.left gone

/-- The nodes of parts that are left. -/
def Element.leftIn (gone : List Tag) : List Element → List Node
  | [] => []
  | e :: es => e.left gone ++ Element.leftIn gone es

end

theorem Element.map_snd_nodesIn (i : Nat) (es : List Element) :
    (nodesIn i es).map Prod.snd = es.flatMap fun e => e.nodes.map Prod.snd := by
  induction es generalizing i with
  | nil => rfl
  | cons e es ih =>
    rw [nodesIn, List.map_append, List.map_map, ih, List.flatMap_cons]
    rfl

theorem Node.map_snd_nodes (n : Node) : n.nodes.map Prod.snd =
    n :: n.children.flatMap fun e => e.nodes.map Prod.snd := by
  rw [nodes_eq, List.map_cons, Element.map_snd_nodesIn]

mutual

/-- The nodes of a thinned tree are those that are left, thinned. -/
theorem Node.map_thinned_left : (n : Node) →
    (n.left gone).map (Node.thinned gone) = (n.thinned gone).nodes.map Prod.snd
  | ⟨kind, children, span, tags⟩ => by
    rw [Node.left, List.map_cons, Element.map_thinned_leftIn kind.item?.isSome children,
      Node.map_snd_nodes, Node.thinned]

theorem Element.map_thinned_left : (e : Element) →
    (e.left gone).map (Node.thinned gone) = (e.thin gone).flatMap fun e => e.nodes.map Prod.snd
  | .token _ => rfl
  | .node n => by
    rw [Element.left, Element.thin]
    split
    · rfl
    · rw [n.map_thinned_left, List.flatMap_singleton, Element.nodes]

theorem Element.map_thinned_leftIn (listed : Bool) : (es : List Element) →
    (Element.leftIn gone es).map (Node.thinned gone) =
      (Element.thinIn gone listed es).flatMap fun e => e.nodes.map Prod.snd
  | [] => rfl
  | e :: es => by
    rw [Element.leftIn, Element.thinIn, List.map_append, Element.map_thinned_leftIn listed es,
      e.map_thinned_left]
    split
    · rename_i hcomma
      cases e with
      | token u => rfl
      | node n => simp [Element.isComma, Element.isToken] at hcomma
    · rw [List.flatMap_append]

end

theorem Node.Arranged.goes_eq_false {n : Node} (h : n.Arranged) : n.goes [] = false := by
  have hbears : ∀ m : Node, m.bears [] = false := by simp [Node.bears]
  rw [Node.goes, hbears, Bool.false_or]
  cases hlisting : n.kind.isListing with
  | false => rfl
  | true =>
    obtain ⟨c, hc, hitem⟩ := h.exists_item hlisting
    rw [Bool.true_and, Bool.eq_false_iff]
    intro hspent
    have hspent := List.all_eq_true.1 hspent _ hc
    rw [Element.isSpent, hbears, Bool.or_false, hitem, bne_self_eq_false] at hspent
    cases hspent

mutual

/-- Where no list is without items, nothing goes by itself. -/
theorem Node.left_nil : (n : Node) → n.Arranged → n.left [] = n.nodes.map Prod.snd
  | ⟨kind, children, span, tags⟩, h => by
    rw [Node.left, Node.map_snd_nodes, Element.leftIn_nil children (Node.arranged_iff.1 h).2]

theorem Element.left_nil : (e : Element) → (∀ n, e = .node n → n.Arranged) →
    e.left [] = e.nodes.map Prod.snd
  | .token _, _ => rfl
  | .node n, h => by
    rw [Element.left, (h n rfl).goes_eq_false, n.left_nil (h n rfl), Element.nodes]
    rfl

theorem Element.leftIn_nil : (es : List Element) → Element.Each Node.Arranged es →
    Element.leftIn [] es = es.flatMap fun e => e.nodes.map Prod.snd
  | [], _ => rfl
  | e :: es, h => by
    rw [Element.leftIn, e.left_nil fun n hn => h n (hn ▸ List.mem_cons_self ..),
      Element.leftIn_nil es fun n hn => h n (List.mem_cons_of_mem e hn), List.flatMap_cons]

end

end Left

theorem Progress.changeImports_nothing (p : Progress) : p.changeImports {} = p := by
  have hnothing : ImportDelta.apply {} p.tree = (p.tree, []) := rfl
  simp [changeImports, hnothing]

namespace Plan

/-- When every record is applied there is nothing to report. -/
theorem apply_of_applied {plan : Plan} {settings : Settings} {t : Tree} (himports : plan.imports = {})
    (hfailures : plan.failures = []) (h : ∀ outcome ∈ plan.outcomes settings t, outcome = .applied) :
    (plan.apply settings t).tally = { applied := plan.records.length } ∧
      (plan.apply settings t).failures = [] ∧
      (plan.apply settings t).tree = t.after settings plan.ordered := by
  have hlength : (plan.outcomes settings t).length = plan.records.length := by
    rw [outcomes, List.length_map, List.length_zipIdx]
  have happlied : (plan.outcomes settings t).count .applied = plan.records.length := by
    rw [List.count_eq_length.2 fun outcome hmem => (h outcome hmem).symm, hlength]
  have hnone : ∀ outcome : Outcome, outcome ≠ .applied →
      (plan.outcomes settings t).count outcome = 0 :=
    fun outcome hne => List.count_eq_zero.2 fun hmem => hne (h outcome hmem)
  have hedits : plan.applyEdits settings t = plan.ordered.foldl (Progress.step settings) (.start t) := by
    rw [applyEdits, himports, Progress.changeImports_nothing]
  have haccounts := plan.accounts_records settings t
  rw [← hedits] at haccounts
  have htally : (plan.applyEdits settings t).tally = { applied := plan.records.length } := by
    rw [haccounts.tally_eq, Tally.ofOutcomes, happlied, hnone .skipped (by decide),
      hnone .failed (by decide)]
  have hquiet : (plan.applyEdits settings t).failures = [] := by
    rw [← List.length_eq_zero_iff, haccounts.failures_eq, htally]
  have hbanner : plan.apply settings t = plan.applyEdits settings t :=
    apply_of_no_failures (by rw [hfailures, hquiet, List.append_nil])
  refine ⟨by rw [hbanner, htally], by rw [hbanner, hquiet], ?_⟩
  rw [hbanner, hedits]
  rfl

/-- A plan that takes items from the lists of a file that was read, none of which stands in one that
    goes before it. All its records are applied. The nodes in the end are those of the file that
    neither go nor stand in one that goes, in their order, and each is what it was but for those
    and the trivia in it: an item goes, and a list of attributes or base types goes when all its
    items do (`Node.goes`, `Node.left`, `Node.thinned`). In the end every list is well separated,
    and no list of attributes or base types is without items. -/
theorem apply_weeds {source : String} {reading : Nat} {parsed t : Tree} {plan : Plan}
    (hparse : Tree.parse source reading = .ok parsed) (halike : t.root.Alike parsed.root)
    (h : t.Weedable plan.records) (himports : plan.imports = {}) (hfailures : plan.failures = [])
    (settings : Settings) :
    let run := plan.apply settings t
    let gone := plan.records.map Record.tag
    (run.tally = { applied := plan.records.length } ∧ run.failures = []) ∧
    run.tree.root.thinned [] = t.root.thinned gone ∧
    run.tree.sites.map (fun s => s.node.thinned []) = (t.root.left gone).map (Node.thinned gone) ∧
    (∀ p n, run.tree.root.at? p = some n → n.kind.item?.isSome = true →
      ∃ trailing, Mark.IsList n.kind trailing (Element.row n.children)) ∧
    ∀ p n, run.tree.root.at? p = some n → n.kind.isListing = true →
      ∃ c, .node c ∈ n.children ∧ n.kind.item? = some c.kind := by
  intro run gone
  have hread' := Tree.readFrom_of_parse hparse
  obtain ⟨n, hread, hn⟩ := ok_of_bind hparse
  obtain rfl := Except.ok.inj hn
  have hhoused : t.root.Housed := (Node.housed_of_parse hread).of_shape halike.shape_eq.symm
  have harranged : t.root.Arranged := (Node.formed_of_parse hread).arranged.of_alike halike
  have hroot : t.root.kind = .compilationUnit := halike.kind_eq.trans hread'.kind_eq
  have hperm := plan.perm_ordered
  have hnodup : (plan.ordered.map Record.tag).Nodup := (hperm.map Record.tag).nodup_iff.2 h.nodup
  have happlied : ∀ outcome ∈ plan.outcomes settings t, outcome = .applied := by
    intro outcome hmem
    obtain ⟨⟨r, i⟩, hi, rfl⟩ := List.mem_map.1 hmem
    obtain ⟨rest, hsplit⟩ := exists_ordered_eq (List.mem_zipIdx_iff_getElem?.1 hi)
    have hsorted := plan.sorted_ordered
    have hsub := hperm.subset
    rw [hsplit] at hnodup hsorted hsub
    exact h.outcome_turn settings hhoused harranged hroot hsub hnodup hsorted
  obtain ⟨htally, hquiet, htree⟩ := apply_of_applied himports hfailures happlied
  have hwhole := plan.ordered.append_nil
  obtain ⟨harranged', -, hthinned⟩ := h.weeded_before settings hhoused harranged hroot
    (hwhole ▸ hperm.subset) (hwhole.symm ▸ hnodup) (hwhole.symm ▸ plan.sorted_ordered)
  rw [← htree] at harranged' hthinned
  have hsame : run.tree.root.thinned [] = t.root.thinned gone := by
    rw [hthinned, List.append_nil]
    refine Node.thinned_congr _ fun top _ tag _ => ?_
    exact (hperm.map Record.tag).mem_iff
  refine ⟨⟨htally, hquiet⟩, hsame, ?_, fun p n hat hlist => ?_, fun p n hat hlisting => ?_⟩
  · rw [Node.map_thinned_left, ← hsame, ← Node.map_thinned_left, Node.left_nil _ harranged',
      Tree.sites_eq, List.map_map, List.map_map]
    rfl
  · exact (Node.arranged_iff.1 (harranged'.at? hat)).1.listed hlist
  · exact (harranged'.at? hat).exists_item hlisting

end Plan

namespace Tree

/-- The tree with tags put on the nodes at some paths. -/
def tagAll (t : Tree) (places : List (Tag × Path)) : Tree :=
  (places.foldlM (fun (t : Tree) place => t.tag place.2 place.1) t).toOption.getD t

theorem alike_tagAll (t : Tree) (places : List (Tag × Path)) : (t.tagAll places).root.Alike t.root := by
  have hfold : ∀ (t t' : Tree), places.foldlM (fun (t : Tree) place => t.tag place.2 place.1) t = .ok t' →
      t'.root.Alike t.root := by
    induction places with
    | nil =>
      intro t t' h
      obtain rfl := Except.ok.inj h
      rfl
    | cons place places ih =>
      intro t t' h
      obtain ⟨w, hw, h⟩ := ok_of_bind h
      obtain ⟨m, m', hat, -, -⟩ := put_of_tryUpdate hw
      obtain ⟨w', hw', hgains⟩ := tag_eq_ok hat place.1
      obtain rfl := Except.ok.inj (hw.symm.trans hw')
      exact (ih w t' h).trans hgains.alike
  unfold tagAll
  cases h : places.foldlM (fun (t : Tree) place => t.tag place.2 place.1) t with
  | error e => rfl
  | ok t' => exact hfold t t' h

end Tree

namespace Plan

/-- Records that take the only attribute of a class, the first of its base types and the parameter
    of its constructor. -/
def threeItems : List Record :=
  [⟨⟨0⟩, "A", .markerRemoval⟩, ⟨⟨1⟩, "D", .baseTypeRemoval "D"⟩,
    ⟨⟨2⟩, "int x", .parameterRemoval "x" "int"⟩]

theorem apply_weeds_threeItems : ∃ parsed t,
    Tree.parse "[A] class C : D, E \x7b C(int x) \x7b \x7d \x7d" = .ok parsed ∧
    t.root.Alike parsed.root ∧ t.Weedable threeItems ∧
    let run := (threeItems.foldl push { source := "xUnit", target := "TUnit" }).apply {} t
    run.tally = { applied := 3 } ∧ run.tree.source = "class C : E \x7b C() \x7b \x7d \x7d" := by
  let tagged (parsed : Tree) :=
    parsed.tagAll [(⟨0⟩, [0, 0, 1]), (⟨1⟩, [0, 4, 1]), (⟨2⟩, [0, 6, 2, 1])]
  let run (t : Tree) := (threeItems.foldl push { source := "xUnit", target := "TUnit" }).apply {} t
  obtain ⟨parsed, hparsed, hsample⟩ := exists_ok_of_map
    (x := Tree.parse "[A] class C : D, E \x7b C(int x) \x7b \x7d \x7d")
    (f := fun parsed => (threeItems.all (tagged parsed).seats, threeItems.all fun r =>
      threeItems.all fun r' => r.tag == r'.tag || (tagged parsed).separates r r',
      (run (tagged parsed)).tree.source))
    (b := (true, true, "class C : E \x7b C() \x7b \x7d \x7d")) (by decide +kernel)
  obtain ⟨hseats, hseparates, hsource⟩ : _ ∧ _ ∧ _ := by simpa only [Prod.mk.injEq] using hsample
  have hweedable : (tagged parsed).Weedable threeItems := by
    refine Tree.weedable_of_sites (by decide) (List.all_eq_true.1 hseats) fun r hr r' hr' hne _ => ?_
    have hone := List.all_eq_true.1 (List.all_eq_true.1 hseparates r hr) r' hr'
    simpa [hne] using hone
  have halike := parsed.alike_tagAll [(⟨0⟩, [0, 0, 1]), (⟨1⟩, [0, 4, 1]), (⟨2⟩, [0, 6, 2, 1])]
  exact ⟨parsed, tagged parsed, hparsed, halike, hweedable,
    (@apply_weeds _ _ _ _ (threeItems.foldl push { source := "xUnit", target := "TUnit" }) hparsed
      halike hweedable rfl rfl {}).1.1, hsource⟩

/-- Records that take two base types. -/
def twoBaseTypes : List Record :=
  [⟨⟨0⟩, "B", .baseTypeRemoval "B"⟩, ⟨⟨1⟩, "C", .baseTypeRemoval "C"⟩]

/-- A base type that stands in one that goes before it goes with that one, and its record is skipped. -/
theorem not_weeds_nested : ∃ parsed t,
    Tree.parse "record R(int x) : B(() => \x7b record Q(int y) : C; \x7d);" = .ok parsed ∧
    t.root.Alike parsed.root ∧ (∀ r ∈ twoBaseTypes, ∃ p m, t.TaggedOnlyAt r.tag p ∧
      t.root.at? p = some m ∧ m.top.IsItem r.kind (t.root.above p)) ∧
    let run := (twoBaseTypes.foldl push { source := "xUnit", target := "TUnit" }).apply {} t
    run.tally = { applied := 1, skipped := 1 } := by
  let places : List (Tag × Path) := [(⟨0⟩, [0, 4, 1]), (⟨1⟩, [0, 4, 1, 1, 1, 0, 2, 1, 4, 1])]
  let run (t : Tree) := (twoBaseTypes.foldl push { source := "xUnit", target := "TUnit" }).apply {} t
  obtain ⟨parsed, hparsed, hsample⟩ := exists_ok_of_map
    (x := Tree.parse "record R(int x) : B(() => \x7b record Q(int y) : C; \x7d);")
    (f := fun parsed => (twoBaseTypes.all (parsed.tagAll places).seats,
      (run (parsed.tagAll places)).tally))
    (b := (true, { applied := 1, skipped := 1 })) (by decide +kernel)
  obtain ⟨hseats, htally⟩ := Prod.mk.inj hsample
  exact ⟨parsed, parsed.tagAll places, hparsed, parsed.alike_tagAll places,
    fun r hr => Tree.exists_of_seats (List.all_eq_true.1 hseats r hr), htally⟩

end Plan

end Recast
