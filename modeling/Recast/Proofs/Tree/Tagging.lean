-- SUMMARY: Erasing the tags of a tree, and what putting a tag on a node changes: the tags at that node's path and nothing else.
import Recast.Analysis.Basic
import Recast.Proofs.Tree.Sites

/-! # Tagging

Two trees that are equal without their tags have the same nodes at the same paths, up to tags. A
tag that was put on one node only is found there, and nowhere else. -/

namespace Recast

/-! ## Erasing tags -/

mutual

/-- The node without the tags on it and below it. -/
def Node.untagged : Node → Node
  | ⟨kind, children, span, _⟩ => ⟨kind, Element.untaggedIn children, span, []⟩

/-- The part without tags. -/
def Element.untagged : Element → Element
  | .token t => .token t
  | .node n => .node n.untagged

/-- The parts without tags. -/
def Element.untaggedIn : List Element → List Element
  | [] => []
  | e :: es => e.untagged :: Element.untaggedIn es

end

theorem Element.untaggedIn_eq_map (es : List Element) : untaggedIn es = es.map untagged := by
  induction es with
  | nil => rfl
  | cons e es ih => simp [untaggedIn, ih]

mutual

theorem Node.tokens_untagged : (n : Node) → n.untagged.tokens = n.tokens
  | ⟨_, children, _, _⟩ => Element.tokensIn_untaggedIn children

theorem Element.tokens_untagged : (e : Element) → e.untagged.tokens = e.tokens
  | .token _ => rfl
  | .node n => n.tokens_untagged

theorem Element.tokensIn_untaggedIn : (es : List Element) →
    Element.tokensIn (Element.untaggedIn es) = Element.tokensIn es
  | [] => rfl
  | e :: es => by
    rw [Element.untaggedIn, Element.tokensIn_cons, Element.tokensIn_cons, e.tokens_untagged,
      Element.tokensIn_untaggedIn es]

end

namespace Node

theorem untagged_eq (n : Node) :
    n.untagged = ⟨n.kind, n.children.map Element.untagged, n.span, []⟩ := by
  obtain ⟨kind, children, span, tags⟩ := n
  rw [untagged, Element.untaggedIn_eq_map]

theorem at?_untagged (n : Node) (p : Path) : n.untagged.at? p = (n.at? p).map untagged := by
  induction p generalizing n with
  | nil => rfl
  | cons i p ih =>
    simp only [at?, untagged_eq n, List.getElem?_map]
    rcases n.children[i]? with _ | (t | c)
    · rfl
    · rfl
    · exact ih c

/-- The two nodes are the same but for tags. -/
def Alike (n m : Node) : Prop :=
  n.untagged = m.untagged

namespace Alike

variable {n m : Node}

theorem kind_eq (h : n.Alike m) : n.kind = m.kind := by
  rw [Alike, untagged_eq, untagged_eq] at h
  exact (Node.mk.inj h).1

theorem span_eq (h : n.Alike m) : n.span = m.span := by
  rw [Alike, untagged_eq, untagged_eq] at h
  exact (Node.mk.inj h).2.2.1

theorem tokens_eq (h : n.Alike m) : n.tokens = m.tokens := by
  rw [← n.tokens_untagged, ← m.tokens_untagged]
  exact congrArg Node.tokens h

theorem map_children (h : n.Alike m) :
    n.children.map Element.untagged = m.children.map Element.untagged := by
  rw [Alike, untagged_eq, untagged_eq] at h
  exact (Node.mk.inj h).2.1

theorem text_eq (h : n.Alike m) : n.text = m.text :=
  congrArg Token.textOf h.tokens_eq

theorem at? (h : n.Alike m) {p : Path} {c : Node} (hc : n.at? p = some c) :
    ∃ d, m.at? p = some d ∧ c.Alike d := by
  have hsame : (n.at? p).map untagged = (m.at? p).map untagged := by
    rw [← at?_untagged, ← at?_untagged]
    exact congrArg (Node.at? p) h
  rw [hc, Option.map_some, eq_comm, Option.map_eq_some_iff] at hsame
  obtain ⟨d, hd, hcd⟩ := hsame
  exact ⟨d, hd, hcd.symm⟩

end Alike

/-! ## Tags at paths -/

/-- The tags of the node at a path, none when there is no node. -/
def tagsAt (n : Node) (p : Path) : List Tag :=
  ((n.at? p).map tags).getD []

@[simp] theorem tagsAt_nil (n : Node) : n.tagsAt [] = n.tags := rfl

theorem tagsAt_cons (n : Node) (i : Nat) (p : Path) :
    n.tagsAt (i :: p) = ((n.children[i]?.bind Element.node?).map fun c => c.tagsAt p).getD [] := by
  rcases hchild : n.children[i]? with _ | (t | c)
  · simp [tagsAt, at?, hchild]
  · simp [tagsAt, at?, hchild, Element.node?]
  · simp [tagsAt, at?, hchild, Element.node?]

theorem mem_tagsAt {n : Node} {p : Path} {tag : Tag} :
    tag ∈ n.tagsAt p ↔ ∃ m, n.at? p = some m ∧ tag ∈ m.tags := by
  rcases hat : n.at? p with _ | m
  · simp [tagsAt, hat]
  · simp [tagsAt, hat]

theorem alike_withTag (n : Node) (tag : Tag) : (n.withTag tag).Alike n := by
  rw [Alike, untagged_eq, untagged_eq]
  rfl

/-- A child in the place of one that it is alike. -/
theorem alike_set_child {n c c' : Node} {i : Nat} (hc : n.children[i]? = some (.node c))
    (h : c'.Alike c) : (n.withChildren (n.children.set i (.node c'))).Alike n := by
  have hchildren : (n.children.set i (.node c')).map Element.untagged
      = n.children.map Element.untagged := by
    apply List.ext_getElem?
    intro j
    rw [List.getElem?_map, List.getElem?_map, List.getElem?_set]
    split
    · subst j
      have hlt : i < n.children.length := (List.getElem?_eq_some_iff.1 hc).1
      rw [if_pos hlt, hc]
      simp only [Option.map_some, Element.untagged]
      rw [h]
    · rfl
  rw [Alike, untagged_eq, untagged_eq n, withChildren]
  simp only
  rw [hchildren]

/-- A tag on the node at a path changes the tags there and nothing else. -/
theorem modifyAt_withTag {ε : Type} (missing : ε) (tag : Tag) {n m : Node} {p : Path}
    (hat : n.at? p = some m) :
    ∃ n', modifyAt missing (fun c => .ok (c.withTag tag)) p n = .ok n' ∧ n'.Alike n ∧
      ∀ q, n'.tagsAt q = if q = p then n.tagsAt q ++ [tag] else n.tagsAt q := by
  induction p generalizing n with
  | nil =>
    refine ⟨n.withTag tag, rfl, alike_withTag n tag, ?_⟩
    intro q
    cases q with
    | nil => rfl
    | cons j q =>
      rw [tagsAt_cons, if_neg (by simp), tagsAt_cons]
      rfl
  | cons i p ih =>
    obtain ⟨c, hc, hat⟩ := at?_cons_eq_some.1 hat
    obtain ⟨c', hc', halike, htags⟩ := ih hat
    refine ⟨n.withChildren (n.children.set i (.node c')), ?_, alike_set_child hc halike, ?_⟩
    · simp only [modifyAt, hc, hc']
      rfl
    · intro q
      cases q with
      | nil =>
        rw [if_neg (by simp)]
        rfl
      | cons j q =>
        have hlt : i < n.children.length := (List.getElem?_eq_some_iff.1 hc).1
        rw [tagsAt_cons, tagsAt_cons, withChildren, List.getElem?_set]
        -- The tags below another child are as they were.
        by_cases hij : i = j
        · subst j
          simp only [if_pos hlt, hc, Option.bind_some, Element.node?, Option.map_some,
            Option.getD_some, htags, List.cons.injEq, true_and, if_true]
        · have hne : j :: q ≠ i :: p := fun heq => hij (List.cons.inj heq).1.symm
          rw [if_neg hij, if_neg hne]

end Node

namespace Tree

/-- The tag is on the node at the path, and on no other. -/
def TaggedOnlyAt (t : Tree) (tag : Tag) (p : Path) : Prop :=
  ∀ q, tag ∈ t.root.tagsAt q ↔ q = p

/-- The second tree is the first with tags put on the nodes at paths. -/
structure Gains (t : Tree) (places : List (Tag × Path)) (t' : Tree) : Prop where
  alike : t'.root.Alike t.root
  mem_tagsAt : ∀ q tag, tag ∈ t'.root.tagsAt q ↔ tag ∈ t.root.tagsAt q ∨ (tag, q) ∈ places

theorem tag_eq_ok {t : Tree} {p : Path} {n : Node} (hat : t.root.at? p = some n) (tag : Tag) :
    ∃ t', t.tag p tag = .ok t' ∧ t.Gains [(tag, p)] t' := by
  obtain ⟨root, hroot, halike, htags⟩ :=
    Node.modifyAt_withTag (TreeError.invalidPath p) tag hat
  refine ⟨t.withRoot root, ?_, halike, ?_⟩
  · simp only [Tree.tag, update, tryUpdate, id_eq, hroot]
    rfl
  · intro q tag'
    show tag' ∈ root.tagsAt q ↔ _
    rw [htags]
    split
    · subst q
      simp
    · rename_i hne
      simp [hne]

namespace Gains

variable {t t' t'' : Tree} {places places' : List (Tag × Path)}

theorem append (h : t.Gains places t') (h' : t'.Gains places' t'') :
    t.Gains (places ++ places') t'' := by
  refine ⟨h'.alike.trans h.alike, fun q tag => ?_⟩
  rw [h'.mem_tagsAt, h.mem_tagsAt, List.mem_append, or_assoc]

/-- A new tag is where it was put and nowhere else. -/
theorem onlyAt_new (h : t.Gains places t') {tag : Tag} {p : Path} (hmem : (tag, p) ∈ places)
    (hnodup : (places.map Prod.fst).Nodup) (hfresh : ∀ q, tag ∉ t.root.tagsAt q) :
    t'.TaggedOnlyAt tag p := by
  intro q
  rw [h.mem_tagsAt]
  constructor
  · rintro (hold | hnew)
    · exact absurd hold (hfresh q)
    · exact congrArg Prod.snd (List.inj_on_of_nodup_map hnodup hnew hmem rfl)
  · rintro rfl
    exact .inr hmem

/-- A tag that was there before stays where it was. -/
theorem onlyAt_old (h : t.Gains places t') {tag : Tag} {p : Path} (hold : t.TaggedOnlyAt tag p)
    (hother : tag ∉ places.map Prod.fst) : t'.TaggedOnlyAt tag p := by
  intro q
  rw [h.mem_tagsAt, hold q]
  constructor
  · rintro (rfl | hmem)
    · rfl
    · exact absurd (List.mem_map_of_mem hmem) hother
  · exact .inl

end Gains

/-- A tag that occurs at one path only is found there. -/
theorem TaggedOnlyAt.findTagged {t : Tree} {tag : Tag} {p : Path} (h : t.TaggedOnlyAt tag p) :
    ∃ n, t.findTagged? tag = some ⟨t, p, n⟩ ∧ t.root.at? p = some n := by
  obtain ⟨n, hat, hmem⟩ := Node.mem_tagsAt.1 ((h p).2 rfl)
  have hsome : (t.root.search? (·.hasTag tag) fun _ => true).isSome :=
    Node.search?_isSome hat (by simpa [Node.hasTag] using hmem) (fun _ _ _ _ _ _ => rfl)
  obtain ⟨⟨q, m⟩, hfound⟩ := Option.isSome_iff_exists.1 hsome
  obtain ⟨hq, htag⟩ := Node.search?_sound hfound
  obtain rfl : q = p := (h q).1 (Node.mem_tagsAt.2 ⟨m, hq, by simpa [Node.hasTag] using htag⟩)
  refine ⟨m, ?_, hq⟩
  rw [findTagged?, hfound]
  rfl

theorem TaggedOnlyAt.countTagged {t : Tree} {tag : Tag} {p : Path} (h : t.TaggedOnlyAt tag p) :
    t.countTagged tag = 1 := by
  obtain ⟨n, hat, hmem⟩ := Node.mem_tagsAt.1 ((h p).2 rfl)
  let tagged := t.sites.filter fun s => s.node.hasTag tag
  have hpaths : ∀ q ∈ tagged.map Site.path, q = p := by
    intro q hq
    obtain ⟨s, hs, rfl⟩ := List.mem_map.1 hq
    obtain ⟨hsite, htag⟩ := List.mem_filter.1 hs
    obtain ⟨-, hsat⟩ := mem_sites_iff.1 hsite
    exact (h s.path).1 (Node.mem_tagsAt.2 ⟨s.node, hsat, by simpa [Node.hasTag] using htag⟩)
  have hnodup : (tagged.map Site.path).Nodup :=
    t.nodup_sites.sublist (List.filter_sublist.map Site.path)
  have hfound : (⟨t, p, n⟩ : Site) ∈ tagged :=
    List.mem_filter.2 ⟨mem_sites_of_at? hat, by simpa [Node.hasTag] using hmem⟩
  have hpos := List.length_pos_of_mem hfound
  rw [List.eq_replicate_of_mem hpaths, List.nodup_replicate, List.length_map] at hnodup
  show tagged.length = 1
  omega

theorem countTagged_eq_zero {t : Tree} {tag : Tag} (h : ∀ q, tag ∉ t.root.tagsAt q) :
    t.countTagged tag = 0 := by
  rw [countTagged, List.length_eq_zero_iff, List.filter_eq_nil_iff]
  intro s hs htag
  obtain ⟨-, hat⟩ := mem_sites_iff.1 hs
  exact h s.path (Node.mem_tagsAt.2 ⟨s.node, hat, by simpa [Node.hasTag] using htag⟩)

/-! ## Fresh tags -/

theorem le_foldl_max (tags : List Tag) (n : Nat) :
    n ≤ tags.foldl (fun n tag => max n (tag.id + 1)) n := by
  induction tags generalizing n with
  | nil => exact Nat.le_refl n
  | cons tag tags ih => exact Nat.le_trans (Nat.le_max_left ..) (ih _)

theorem lt_foldl_max {tags : List Tag} {tag : Tag} (h : tag ∈ tags) (n : Nat) :
    tag.id < tags.foldl (fun n tag => max n (tag.id + 1)) n := by
  induction tags generalizing n with
  | nil => cases h
  | cons u us ih =>
    rcases List.mem_cons.1 h with rfl | h
    · exact Nat.lt_of_lt_of_le (Nat.le_max_right n (tag.id + 1)) (le_foldl_max us _)
    · exact ih h _

theorem lt_freshTag {t : Tree} {tag : Tag} {p : Path} (h : tag ∈ t.root.tagsAt p) :
    tag.id < t.freshTag := by
  obtain ⟨n, hat, hmem⟩ := Node.mem_tagsAt.1 h
  exact lt_foldl_max (List.mem_flatMap.2 ⟨⟨t, p, n⟩, mem_sites_of_at? hat, hmem⟩) 0

/-- Two sites at the same path of two trees. -/
structure Twins (t u : Tree) (a b : Site) : Prop where
  left : a ∈ t.sites
  right : b ∈ u.sites
  path_eq : a.path = b.path

end Tree

/-! ## Sites of trees that are alike -/

namespace Tree.Twins

variable {t u : Tree} {a b : Site} (halike : t.root.Alike u.root)

include halike

theorem alike (h : Twins t u a b) : a.node.Alike b.node := by
  obtain ⟨-, ha⟩ := mem_sites_iff.1 h.left
  obtain ⟨-, hb⟩ := mem_sites_iff.1 h.right
  obtain ⟨n, hn, han⟩ := halike.at? ha
  rw [h.path_eq, hb] at hn
  rw [Option.some.inj hn]
  exact han

theorem kind_eq (h : Twins t u a b) : a.kind = b.kind :=
  (h.alike halike).kind_eq

theorem span_eq (h : Twins t u a b) : a.span = b.span :=
  (h.alike halike).span_eq

theorem goto? (h : Twins t u a b) (p : Path) : Option.Rel (Twins t u) (a.goto? p) (b.goto? p) := by
  rw [Site.goto?_of_mem h.left, Site.goto?_of_mem h.right]
  rcases ha : t.root.at? p with _ | n
  · rcases hb : u.root.at? p with _ | m
    · exact .none
    · obtain ⟨n, hn, -⟩ := Node.Alike.at? (Eq.symm halike) hb
      rw [ha] at hn
      cases hn
  · obtain ⟨m, hm, -⟩ := halike.at? ha
    rw [hm]
    exact .some ⟨mem_sites_of_at? ha, mem_sites_of_at? hm, rfl⟩

theorem parent? (h : Twins t u a b) : Option.Rel (Twins t u) a.parent? b.parent? := by
  rw [Site.parent?, Site.parent?, h.path_eq]
  rcases b.path.parent? with _ | p
  · exact .none
  · exact h.goto? halike p

/-- The nearest ancestors of a kind stand at the same path. -/
theorem ancestorWhere? (h : Twins t u a b) (accept : Kind → Bool) :
    Option.Rel (Twins t u) (a.ancestorWhere? accept) (b.ancestorWhere? accept) := by
  rw [Site.ancestorWhere?, Site.ancestorWhere?, Site.ancestors, Site.ancestors, h.path_eq]
  induction (List.range b.path.length).reverse with
  | nil => exact .none
  | cons depth depths ih =>
    have hgoto := h.goto? halike (b.path.take depth)
    generalize ha : a.goto? (b.path.take depth) = x at hgoto
    generalize hb : b.goto? (b.path.take depth) = y at hgoto
    cases hgoto with
    | none =>
      simp only [List.filterMap_cons, ha, hb]
      exact ih
    | @some c d hcd =>
      simp only [List.filterMap_cons, ha, hb, List.find?_cons, hcd.kind_eq halike]
      rcases accept d.kind with _ | _
      · exact ih
      · exact .some hcd

theorem isLocalFunction_eq (h : Twins t u a b) : a.isLocalFunction = b.isLocalFunction := by
  have hparent := h.parent? halike
  rw [Site.isLocalFunction, Site.isLocalFunction]
  generalize a.parent? = x at hparent
  generalize b.parent? = y at hparent
  cases hparent with
  | none => rfl
  | some hcd => simp only [Option.map_some, hcd.kind_eq halike]

end Tree.Twins

end Recast
