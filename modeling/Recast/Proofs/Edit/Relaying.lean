-- SUMMARY: Edits that put something in the place of a node, and edits that remove one, pass on the directives that stand outside their inroads.
import Recast.Proofs.Edit.Passing

/-! # Relaying

What an edit puts in the place of a node was read from a text: it bears no tag and holds a token,
which takes over the trivia in front of the node (`Node.passes_of_fresh`). What an edit takes out is
lost whole, a list with its last item too. So such edits pass on the directives outside the inroads
that count their nodes as replaced, renamed or gone. -/

namespace Recast

/-! ## What was read holds tokens -/

namespace Fragment

open Recast.Grammar Recast.Parser

variable {source : String} {n : Node}

theorem tokens_ne_nil_of_readAll {p : Grammar → Parser Node} {l : Nat}
    (hp : ∀ {g : Grammar}, g.Sound → Makes 0 1 l (p g)) (h : readAll p source = .ok n) :
    n.tokens ≠ [] := by
  obtain ⟨ts, d, hscan, -, hn⟩ := readAll_eq_ok h
  have hclosed := (Token.scanned_of_scan hscan).closed
  obtain ⟨-, hweight, -⟩ := hp (sound_nesting _) hclosed (Nat.zero_le _) hn
  exact Element.tokens_ne_nil_of_weight hweight

theorem tokens_ne_nil_of_readExpression (h : readExpression source = .ok n) : n.tokens ≠ [] :=
  tokens_ne_nil_of_readAll (fun hg => hg.expression) h

theorem tokens_ne_nil_of_readType (h : readType source = .ok n) : n.tokens ≠ [] :=
  tokens_ne_nil_of_readAll (fun hg => hg.type) h

theorem tokens_ne_nil_of_readAttribute (h : readAttribute source = .ok n) : n.tokens ≠ [] :=
  tokens_ne_nil_of_readAll makes_attributeOf h

theorem tokens_ne_nil_of_readAttributeList (h : readAttributeList source = .ok n) : n.tokens ≠ [] :=
  tokens_ne_nil_of_readAll makes_attributeList h

/-- The first of some statements is read from where the text starts. -/
theorem tokens_ne_nil_of_readStatements {statements : List Node}
    (h : readStatements source = .ok (n :: statements)) : n.tokens ≠ [] := by
  obtain ⟨parts, hread, h⟩ := ok_of_bind h
  have hnodes := Except.ok.inj h
  obtain ⟨ts, d, hscan, -, hparts⟩ := readAll_eq_ok hread
  have hclosed := (Token.scanned_of_scan hscan).closed
  simp only [repeatWhile, rounds] at hparts
  split at hparts
  · obtain ⟨xs, e, ys, hxs, -, rfl⟩ := append_eq_ok hparts
    obtain ⟨m, e', hm, hxs⟩ := bind_eq_ok hxs
    obtain ⟨rfl, rfl⟩ := Prod.mk.inj (Except.ok.inj hxs)
    obtain ⟨-, hweight, -⟩ := (sound_nesting _).statement hclosed (Nat.zero_le _) hm
    obtain ⟨rfl, -⟩ := List.cons.inj hnodes
    exact Element.tokens_ne_nil_of_weight hweight
  · obtain ⟨rfl, -⟩ := Prod.mk.inj (Except.ok.inj hparts)
    cases hnodes

end Fragment

/-! ## New nodes -/

/-- A kind of construct that takes the place of others: no list of markers or base types and no
    modifiers. -/
def Kind.IsPlain (kind : Kind) : Prop :=
  kind ≠ .modifiers ∧ kind.isListing = false

instance (kind : Kind) : Decidable kind.IsPlain :=
  inferInstanceAs (Decidable (_ ∧ _))

theorem Kind.plain_of_isValue {kind : Kind} (h : kind.isValue = true) : kind.IsPlain := by
  revert h
  cases kind <;> decide

theorem Node.Statement.plain {n : Node} (h : n.Statement) : n.kind.IsPlain := by
  obtain ⟨-, hkind⟩ := h
  revert hkind
  cases n.kind <;> decide

/-- A node without tags that is no list neither goes nor passes on what is beyond it. -/
theorem Inroads.flank_of_unlisted (i : Inroads) {top : Top} (htags : top.tags = [])
    (hkind : top.kind.isListing = false) (d : Bool) : i.flank d top = false := by
  simp [flank, Top.not_bears htags, hkind]

namespace Node

variable {i : Inroads} {m n r : Node}

theorem tellFirst_above (n : Node) :
    Token.tellFirst Token.above n.tokens = Trivia.directivesOf n.leading := by
  rw [leading, firstToken?, Token.tellFirst]
  cases n.tokens.head? <;> rfl

theorem leading_withLeading (h : n.tokens ≠ []) (trivia : List Trivia) :
    (n.withLeading trivia).leading = trivia := by
  rw [leading, firstToken?, withLeading, tokens_mapFirst]
  cases htokens : n.tokens with
  | nil => exact absurd htokens h
  | cons u us => rfl

theorem leading_withTrailing (n : Node) (trivia : List Trivia) :
    (n.withTrailing trivia).leading = n.leading := by
  rw [leading, leading, firstToken?, firstToken?, withTrailing, tokens_mapLast]
  rcases n.tokens with _ | ⟨u, _ | ⟨v, us⟩⟩
  · rfl
  · rfl
  · rw [← List.singleton_append, List.modifyLast_append_of_right_ne_nil _ _ _ (List.cons_ne_nil v us)]
    rfl

theorem leading_withTriviaOf (h : n.tokens ≠ []) (other : Node) :
    (n.withTriviaOf other).leading = other.leading := by
  rw [withTriviaOf, leading_withTrailing, leading_withLeading h]

theorem tokens_withTriviaOf_ne_nil (other : Node) :
    (n.withTriviaOf other).tokens ≠ [] ↔ n.tokens ≠ [] := by
  have hblank : (n.withTriviaOf other).blank = n.blank := by
    rw [withTriviaOf, withTrailing, blank_mapLast, withLeading, blank_mapFirst]
  exact ⟨fun h => tokens_ne_nil_of_blank h hblank.symm, fun h => tokens_ne_nil_of_blank h hblank⟩

/-- Of a node that is rewritten no more is told than what stands in front of it. -/
theorem outside_sublist_leading {p : Place} (h : i.Rewrites p n.top) (loss : Loss) :
    (n.outside Token.above i p loss).Sublist (Trivia.directivesOf n.leading) := by
  have hinner : Loss.inner ≤ i.within p loss n.top (Element.kids n.children) := by
    refine Loss.le_trans ?_ (i.own_le_within p loss _ _)
    unfold Inroads.own
    split
    · exact Loss.le_whole _
    · exact Loss.le_refl _
  rw [outside_eq, ← tellFirst_above, n.tokens_eq]
  exact (Element.outsideIn_anti i.le_refl _ (Place.le_refl _) hinner).trans
    (Element.outsideIn_inner_sublist _ _)

/-- What stands in front of a fresh node is told where not all of the node is lost. -/
theorem leading_sublist_outside {p : Place} {loss : Loss} (h : n.Fresh)
    (hp : p.reheaded = true → n.kind = .modifiers → Element.kids n.children = [])
    (hloss : loss ≤ .inner) :
    (Trivia.directivesOf n.leading).Sublist (n.outside Token.above i p loss) := by
  rw [← tellFirst_above]
  exact (n.tellFirst_sublist_outside p h hp).trans
    (n.outside_anti i.le_refl (Place.le_refl p) hloss)

/-- A fresh node that takes over what stands in front of a node that is rewritten. -/
theorem outside_sublist_of_fresh {p : Place} (hm : i.Rewrites p m.top) (hr : r.Fresh)
    (hkind : r.kind ≠ .modifiers) (hleading : r.leading = m.leading) (loss : Loss) :
    (m.outside Token.above i p loss).Sublist (r.outside Token.above i p loss) := by
  by_cases hloss : loss ≤ .inner
  · have hsub := m.outside_sublist_leading hm loss
    rw [← hleading] at hsub
    exact hsub.trans (leading_sublist_outside hr (fun _ => (absurd · hkind)) hloss)
  · obtain rfl : loss = .whole := by
      revert hloss
      cases loss <;> decide
    rw [outside_whole]
    exact List.nil_sublist _

theorem passes_of_fresh (hm : m.top.Bears i.replaced ∨ (m.top.Bears i.renamed ∧ r.kind = m.kind))
    (hr : r.Fresh) (hkind : r.kind.IsPlain) (hleading : r.leading = m.leading) :
    m.Passes i r where
  outside p := by
    refine outside_sublist_of_fresh ?_ hr hkind.1 hleading
    rcases hm with hreplaced | ⟨hrenamed, -⟩
    · exact .inl hreplaced
    · exact .inr (.inl hrenamed)
  fills _ := by
    rcases hm with hreplaced | ⟨hrenamed, -⟩
    · exact Element.fills_of_bears hreplaced
    · exact Element.fills_of_bears hrenamed
  flank d hflank := by
    rw [i.flank_of_unlisted (fresh_iff.1 hr).1 hkind.2] at hflank
    cases hflank
  stays kind _ hstays := by
    have htags : r.top.tags = [] := (fresh_iff.1 hr).1
    refine ⟨?_, Top.not_bears htags, Top.not_bears htags⟩
    rcases hm with hreplaced | ⟨-, hsame⟩
    · exact absurd hreplaced hstays.2.2
    · rw [show r.top.kind = m.top.kind from hsame]
      exact hstays.1
  closed hn := by
    rcases hm with hreplaced | ⟨hrenamed, -⟩
    · exact absurd (.inl hreplaced) hn.kept
    · exact absurd (.inr (.inl hrenamed)) hn.kept

theorem passes_withTriviaOf
    (hm : m.top.Bears i.replaced ∨ (m.top.Bears i.renamed ∧ r.kind = m.kind)) (hr : r.Fresh)
    (htokens : r.tokens ≠ []) (hkind : r.kind.IsPlain) : m.Passes i (r.withTriviaOf m) := by
  have hsame : (r.withTriviaOf m).kind = r.kind := (r.keeps_withTriviaOf m).kind_eq
  rw [← hsame] at hm hkind
  exact passes_of_fresh hm (hr.withTriviaOf m) hkind (leading_withTriviaOf htokens m)

/-- Fresh nodes that take the place of a node, the first of which takes over what stands in front
    of it. -/
theorem passesIn_of_fresh {reheaded : Bool} {rs : List Node} (hm : m.top.Bears i.replaced)
    (hr : r.Fresh) (htokens : r.tokens ≠ []) (hkind : r.kind.IsPlain)
    (hleading : r.leading = m.leading) (hrs : ∀ r' ∈ rs, r'.Fresh) :
    Element.PassesIn i reheaded [.node m] ((r :: rs).map .node) := by
  refine (Element.PassesIn.node (passes_of_fresh (.inl hm) hr hkind hleading)).trans
    (Element.passesIn_behind (Element.fills_of_hasTokens ?_) (List.cons_ne_nil _ _) ?_)
  · simpa [Element.hasTokens] using htokens
  · intro kid hkid
    rw [Element.kids_nodes] at hkid
    obtain ⟨c, hc, rfl⟩ := List.mem_map.1 hkid
    exact (fresh_iff.1 (hrs c hc)).1

end Node

theorem Tree.passes_replaceMany {i : Inroads} {t t' : Tree} {p : Path} {m r : Node} {rs : List Node}
    (hat : t.root.at? p = some m) (hm : m.top.Bears i.replaced) (hr : r.Fresh)
    (htokens : r.tokens ≠ []) (hkind : r.kind.IsPlain) (hleading : r.leading = m.leading)
    (hrs : ∀ r' ∈ rs, r'.Fresh) (h : t.replaceMany p (r :: rs) = .ok t') :
    t.root.Passes i t'.root := by
  obtain ⟨rfl, hroot⟩ | ⟨q, j, u, -, hu, hc, hput⟩ := replaceMany_eq_ok hat h
  · obtain rfl := Option.some.inj hat
    obtain ⟨rfl, -⟩ := List.cons.inj hroot
    exact Node.passes_of_fresh (.inl hm) hr hkind hleading
  · refine hput.passes hu (Node.passes_of_parts rfl ?_ fun hclosed =>
      (hclosed.after hc).append_left _)
    have hsplice : Element.PassesIn i (i.place u.top).reheaded _ _ :=
      (Node.passesIn_of_fresh hm hr htokens hkind hleading hrs).splice (u.children.take j)
        (u.children.drop (j + 1))
    rwa [← Element.split_at hc] at hsplice

/-! ## Edits -/

namespace Edit

variable {i : Inroads} {t t' : Tree} {s : Site}

theorem passes_replaceAt {r : Node}
    (hm : s.node.top.Bears i.replaced ∨ (s.node.top.Bears i.renamed ∧ r.kind = s.node.kind))
    (hr : r.Fresh) (htokens : r.tokens ≠ []) (hkind : r.kind.IsPlain) (hs : s ∈ t.sites)
    (h : replaceAt s r = .ok t') : t.root.Passes i t'.root :=
  (put_replaceAt hs h).passes (Tree.mem_sites_iff.1 hs).2
    (Node.passes_withTriviaOf hm hr htokens hkind)

theorem passes_replaceCall {text : String} (hm : s.node.top.Bears i.replaced) (hs : s ∈ t.sites)
    (h : replaceCall text s = .ok t') : t.root.Passes i t'.root := by
  obtain ⟨r, hread, h⟩ := replaceCall_eq_ok h
  exact passes_replaceAt (.inl hm) (Fragment.fresh_of_readExpression hread)
    (Fragment.tokens_ne_nil_of_readExpression hread)
    (Kind.plain_of_isValue (Fragment.value_of_readExpression hread).2) hs h

/-- A remark is a comment, so no directive comes or goes with it. -/
theorem passes_withRemark (remark : String) (n : Node) : n.Passes i (withRemark remark n) := by
  refine Node.passes_mapFirst (Token.keepsWord_leading _) fun u hu => ?_
  have hleading : n.leading = u.leading := by
    rw [Node.leading, Node.firstToken?, hu]
    rfl
  simp only [Token.above, hleading, Trivia.directivesOf_append]
  exact List.sublist_append_right _ _

theorem passes_replaceAssertion {change : AssertionChange} (hm : s.node.top.Bears i.replaced)
    (hs : s ∈ t.sites) (h : replaceAssertion change s = .ok t') : t.root.Passes i t'.root := by
  obtain ⟨r, w, -, hw, rfl | ⟨remark, p, q, u, u', -, hu, -, -, hupdate, -⟩⟩ :=
    replaceAssertion_eq_ok hs h
  · exact passes_replaceCall hm hs hw
  · obtain ⟨m, m', hat, hok, hput⟩ := Tree.put_of_tryUpdate hupdate
    obtain rfl := Except.ok.inj hok
    exact (passes_replaceCall hm hs hw).trans (hput.passes hat (passes_withRemark remark m))

/-- The first of some nodes that take over the trivia around another one. -/
theorem exists_runWithTriviaOf {n first : Node} (hfirst : first.tokens ≠ []) (rest : List Node) :
    ∃ r rs, runWithTriviaOf n (first :: rest) = r :: rs ∧ r.tokens ≠ [] ∧ r.leading = n.leading := by
  have hledBy : ∀ m : Node, m.blank = first.blank →
      (m.withLeading n.leading).tokens ≠ [] ∧ (m.withLeading n.leading).leading = n.leading := by
    intro m hm
    have htokens := Node.tokens_ne_nil_of_blank hfirst hm
    exact ⟨Node.tokens_ne_nil_of_blank htokens (m.blank_mapFirst _),
      Node.leading_withLeading htokens _⟩
  cases rest with
  | nil => exact ⟨_, _, rfl, hledBy _ (first.blank_mapLast _)⟩
  | cons second rest => exact ⟨_, _, rfl, hledBy first rfl⟩

theorem passes_captureException {settings : Settings} {captured body : String}
    (hm : s.node.top.Bears i.replaced) (hs : s ∈ t.sites)
    (h : captureException settings captured body s = .ok t') : t.root.Passes i t'.root := by
  obtain ⟨-, first, rest, hread, h⟩ := captureException_eq_ok hs h
  obtain ⟨-, hat⟩ := Tree.mem_sites_iff.1 hs
  have hfresh : ∀ r ∈ runWithTriviaOf s.node (first :: rest), r.Fresh :=
    forall_mem_runWithTriviaOf (fun _ hr => hr.mapFirst _) (fun _ hr => hr.mapLast _)
      (Fragment.fresh_of_readStatements hread)
  have hkind : ∀ r ∈ runWithTriviaOf s.node (first :: rest), r.kind.IsPlain := by
    refine forall_mem_runWithTriviaOf (fun r hr => ?_) (fun r hr => ?_) fun r hr => ?_
    · rwa [(r.keeps_withLeading _).kind_eq]
    · rwa [(r.keeps_withTrailing _).kind_eq]
    · exact (Fragment.statement_of_readStatements hread r hr).plain
  obtain ⟨r, rs, hrun, htokens, hleading⟩ :=
    exists_runWithTriviaOf (n := s.node) (Fragment.tokens_ne_nil_of_readStatements hread) rest
  rw [hrun] at h hfresh hkind
  have hself := List.mem_cons_self (a := r) (l := rs)
  exact Tree.passes_replaceMany hat hm (hfresh r hself) htokens (hkind r hself) hleading
    (fun r' hr' => hfresh r' (List.mem_cons_of_mem _ hr')) h

/-! ### Markers -/

/-- A marker with another name was read as one and takes the place of one. -/
theorem renamed_is_attribute {name : String} {edit : ArgumentEdit} {r : Node}
    (h : renamed name edit s = .ok r) :
    r.kind = .attribute ∧ s.node.kind = .attribute ∧ r.tokens ≠ [] := by
  obtain ⟨hkind, code, hread⟩ := renamed_eq_ok h
  exact ⟨(Fragment.of_readAll Grammar.gives_attributeOf hread).2, hkind,
    Fragment.tokens_ne_nil_of_readAttribute hread⟩

theorem passes_withTriviaOf_renamed {name : String} {edit : ArgumentEdit} {r : Node}
    (hm : s.node.top.Bears i.renamed) (hr : renamed name edit s = .ok r) :
    s.node.Passes i (r.withTriviaOf s.node) := by
  obtain ⟨hattribute, hkind, htokens⟩ := renamed_is_attribute hr
  refine Node.passes_withTriviaOf (.inr ⟨hm, hattribute.trans hkind.symm⟩) (fresh_renamed hr).1
    htokens ?_
  rw [hattribute]
  exact ⟨nofun, rfl⟩

theorem passes_renamed {name : String} {edit : ArgumentEdit} {r : Node}
    (hm : s.node.top.Bears i.renamed) (hs : s ∈ t.sites) (hr : renamed name edit s = .ok r)
    (h : replaceAt s r = .ok t') : t.root.Passes i t'.root :=
  (put_replaceAt hs h).passes (Tree.mem_sites_iff.1 hs).2 (passes_withTriviaOf_renamed hm hr)

theorem passes_changeParameterMarker {name : String} {edit : ArgumentEdit}
    (hm : s.node.top.Bears i.renamed) (hs : s ∈ t.sites)
    (h : changeParameterMarker name edit s = .ok t') : t.root.Passes i t'.root := by
  obtain ⟨r, hr, h⟩ := changeParameterMarker_eq_ok h
  exact passes_renamed hm hs hr h

/-- The company of a marker goes behind its list, which holds a token. -/
theorem passes_changeMarker {change : MarkerChange} (hm : s.node.top.Bears i.renamed)
    (hs : s ∈ t.sites) (h : changeMarker change s = .ok t') : t.root.Passes i t'.root := by
  obtain ⟨r, hr, h | ⟨owner, index, j, list, company, w, u, u', -, hcompany, -, -, hu, hat, hinner,
    houter⟩⟩ := changeMarker_eq_ok hs h
  · exact passes_renamed hm hs hr h
  · have hrenamed := hinner.passes hat (passes_withTriviaOf_renamed hm hr)
    obtain ⟨c, hc, hmarker⟩ := Node.at?_cons_eq_some.1 hinner.at?
    refine houter.passes hu (hrenamed.trans (Node.passes_behind hc (Element.fills_of_hasTokens ?_)
      fun kid hkid => ?_))
    · obtain ⟨-, -, htokens⟩ := renamed_is_attribute hr
      rw [← Node.tokens_withTriviaOf_ne_nil s.node] at htokens
      simpa [Element.hasTokens, Node.tokens_around hmarker] using fun _ h => absurd h htokens
    · rw [Element.kids_nodes] at hkid
      obtain ⟨d, hd, rfl⟩ := List.mem_map.1 hkid
      exact (Node.fresh_iff.1 (fresh_companyOf hcompany d hd).1).1

/-! ### Removals -/

section Removals

variable (hm : s.node.top.Bears i.removed) (hs : s ∈ t.sites)

include hm hs

theorem passes_removeMember (h : removeMember s = .ok t') : t.root.Passes i t'.root :=
  Tree.passes_remove (Tree.mem_sites_iff.1 hs).2 (Node.lost_of_removed hm) (removeMember_eq_ok hs h).2

theorem passes_removeParameter (h : removeParameter s = .ok t') : t.root.Passes i t'.root := by
  obtain ⟨list, -, h⟩ := removeParameter_eq_ok hs h
  exact Tree.passes_removeItem (Tree.mem_sites_iff.1 hs).2 hm h

omit hs in
/-- A list whose only item goes. -/
theorem empties_of_single {list : Node} {kind : Kind} {j : Nat}
    (hlisting : list.kind.isListing = true) (hc : list.children[j]? = some (.node s.node))
    (hkind : s.node.kind = kind) (hsingle : ¬1 < (list.childrenOf kind).length)
    (hbars : ∀ c : Node, c.kind ≠ kind → list.kind.bars c.kind = true) :
    i.Empties list.top (Element.kids list.children) := by
  have hmem : ∀ c : Node, .node c ∈ list.children → c.kind = kind → c ∈ list.childrenOf kind :=
    fun c hc hc' => List.mem_filter.2 ⟨List.mem_filterMap.2 ⟨_, hc, rfl⟩, by simp [hc']⟩
  have hitem := List.mem_of_getElem? hc
  refine ⟨hlisting, ⟨s.node.top, Element.mem_kids.2 ⟨s.node, hitem, rfl⟩, hm⟩, ?_⟩
  rintro ⟨kid, hkid, hstays⟩
  obtain ⟨c, hc, rfl⟩ := Element.mem_kids.1 hkid
  by_cases hc' : c.kind = kind
  · obtain ⟨only, honly⟩ : ∃ only, list.childrenOf kind = [only] := by
      refine List.length_eq_one_iff.1 (Nat.le_antisymm (Nat.not_lt.1 hsingle) ?_)
      exact List.length_pos_of_mem (hmem s.node hitem hkind)
    have hc := hmem c hc hc'
    have hitem := hmem s.node hitem hkind
    rw [honly, List.mem_singleton] at hc hitem
    rw [hc, ← hitem] at hstays
    exact hstays.2.1 (hm.mono i.removed_subset_gone)
  · have hkept := hstays.1
    rw [show list.top.kind.bars c.top.kind = true from hbars c hc'] at hkept
    cases hkept

theorem passes_removeMarker (h : removeMarker s = .ok t') : t.root.Passes i t'.root := by
  obtain ⟨hmarker, list, hlist, h | ⟨hsingle, option, h⟩⟩ := removeMarker_eq_ok hs h
  · exact Tree.passes_removeItem (Tree.mem_sites_iff.1 hs).2 hm h
  · obtain ⟨hat, hlistKind, j, -, hc⟩ := child_of_parentOf hs hlist
    refine Tree.passes_remove hat (Node.lost_of_empties ?_) h
    refine empties_of_single hm (by rw [hlistKind]; rfl) hc hmarker hsingle fun c hother => ?_
    rw [hlistKind]
    simpa [Kind.bars] using hother

theorem passes_removeBaseType (h : removeBaseType s = .ok t') : t.root.Passes i t'.root := by
  obtain ⟨hbase, list, hlist, h | ⟨hsingle, w, hw, h⟩⟩ := removeBaseType_eq_ok hs h
  · exact Tree.passes_removeItem (Tree.mem_sites_iff.1 hs).2 hm h
  · obtain ⟨hat, hlistKind, j, -, hc⟩ := child_of_parentOf hs hlist
    have htrailing := Token.keepsWord_trailing fun _ => list.node.trailing
    obtain ⟨hpasses, hat⟩ :=
      Tree.passes_updateNear (i := i) .before ⟨htrailing, fun _ => rfl⟩ hat hw
    refine hpasses.trans (Tree.passes_remove hat (Node.lost_of_empties ?_) h)
    refine empties_of_single hm (by rw [hlistKind]; rfl) hc hbase hsingle fun c hother => ?_
    rw [hlistKind]
    simpa [Kind.bars] using hother

end Removals

end Edit

end Recast
