-- SUMMARY: Methods that no record of a plan touches come out of a run with the text that they had, in the order that they had.
import Mathlib.Data.List.Flatten
import Recast.Proofs.Edit.Sparing
import Recast.Proofs.Migration.Reprinting

/-! # Untouched methods

A method is left alone by a plan when no tag of the plan is in it and it stands in no node that a
record of the plan replaces or removes (`Site.UntouchedBy`, `RecordKind.takes`). An observer that
tells the text of such methods is spared by every record of the plan and by the imports: in a tree
that was read no method stands in an import, in the header of another method, or in a list of
markers or base types outside of a marker or base type. -/

namespace Recast

/-! ## Text and trivia -/

namespace Token

theorem textOf_modifyHead {f : Token → Token} (hf : LeadingOnly f) (ts : List Token) :
    textOf (ts.modifyHead f) = textOf ts := by
  rcases ts with _ | ⟨t, _ | ⟨u, ts⟩⟩
  · rfl
  · exact (hf t).1
  · simp only [List.modifyHead_cons, textOf, (hf t).1, (hf t).2]

theorem inner_concat {f : Token → Token} (hf : TrailingOnly f) (u x : Token) (ts : List Token) :
    textOf.inner u (ts ++ [f x]) = textOf.inner u (ts ++ [x]) := by
  induction ts generalizing u with
  | nil => simp [textOf.inner, (hf x).1, (hf x).2]
  | cons v ts ih => simp only [List.cons_append, textOf.inner, ih]

theorem textOf_modifyLast {f : Token → Token} (hf : TrailingOnly f) (ts : List Token) :
    textOf (ts.modifyLast f) = textOf ts := by
  rcases List.eq_nil_or_concat' ts with rfl | ⟨ts, x, rfl⟩
  · rfl
  · rw [List.modifyLast_concat]
    rcases ts with _ | ⟨t, _ | ⟨u, ts⟩⟩
    · exact (hf x).1
    · simp [textOf, textOf.inner, (hf x).1, (hf x).2]
    · simp only [List.cons_append, textOf, inner_concat hf]

end Token

namespace Node

theorem text_mapFirst {f : Token → Token} (hf : Token.LeadingOnly f) (n : Node) :
    (n.mapFirst f).text = n.text := by
  rw [text, tokens_mapFirst, Token.textOf_modifyHead hf]
  rfl

theorem text_mapLast {f : Token → Token} (hf : Token.TrailingOnly f) (n : Node) :
    (n.mapLast f).text = n.text := by
  rw [text, tokens_mapLast, Token.textOf_modifyLast hf]
  rfl

end Node

/-- Tells the kind and the tags of every node. -/
def Observer.ofTops : Observer Top where
  tell _ n := [n.top]
  tell_mapFirst _ n f _ := by rw [n.top_mapFirst f]
  tell_mapLast _ n f _ := by rw [n.top_mapLast f]

namespace Node

theorem tops_eq_see (n : Node) : n.tops = Observer.ofTops.see [] n := by
  rw [Observer.see_eq_flatMap, tops_eq_map, List.map_eq_flatMap]
  rfl

theorem tops_mapFirst {f : Token → Token} (hf : Token.LeadingOnly f) (n : Node) :
    (n.mapFirst f).tops = n.tops := by
  rw [tops_eq_see, tops_eq_see, Observer.see_mapFirst _ hf]

theorem tops_mapLast {f : Token → Token} (hf : Token.TrailingOnly f) (n : Node) :
    (n.mapLast f).tops = n.tops := by
  rw [tops_eq_see, tops_eq_see, Observer.see_mapLast _ hf]

end Node

/-! ## Barred ways -/

theorem barred_concat {way : List Top} {child parent : Top} :
    Barred (way ++ [child, parent]) ↔
      Barred (way ++ [child]) ∨ parent.kind.bars child.kind = true := by
  induction way with
  | nil => simp [Barred]
  | cons top way ih =>
    cases way with
    | nil => simp [Barred, or_comm]
    | cons top' way =>
      simp only [List.cons_append, Barred] at ih ⊢
      rw [ih, or_assoc]

/-- Every way through an import is barred. -/
theorem barred_of_import {bottom top : Top} {up : List Top} (hmem : top ∈ up)
    (hkind : top.kind = .usingDirective) : Barred (bottom :: up) := by
  obtain ⟨way, rest, rfl⟩ := List.append_of_mem hmem
  have hbars : ∀ child : Top, top.kind.bars child.kind = true := by
    intro child
    rw [hkind]
    rfl
  rcases List.eq_nil_or_concat' way with rfl | ⟨way, child, rfl⟩
  · exact .inl (hbars bottom)
  · have hbarred := barred_append (hbars child) (bottom :: way) rest
    simpa using hbarred

namespace Node

variable {n m : Node} {p : Path}

/-- In a tree that was read, only types and bare tokens stand on barred ways. -/
theorem Housed.not_barred (h : n.Housed) (hat : n.at? p = some m) (hm : m.kind.isDull = false) :
    ¬Barred (m.top :: n.above p) := by
  induction p generalizing n with
  | nil => exact id
  | cons i p ih =>
    obtain ⟨c, hc, hat⟩ := at?_cons_eq_some.1 hat
    have hmem : .node c ∈ n.children := List.mem_of_getElem? hc
    obtain ⟨way, hway⟩ := exists_cons_above hat
    have habove : m.top :: n.above (i :: p) = way ++ [c.top, n.top] := by
      rw [above, hc, ← List.cons_append, hway]
      simp
    rw [habove, barred_concat, ← hway]
    rintro (hbarred | hbars)
    · exact ih (h.child hmem) hat hbarred
    · have hdull := h.houses.dull c hmem hbars m.top (mem_tops.2 ⟨p, m, hat, rfl⟩)
      rw [show m.top.kind.isDull = false from hm] at hdull
      cases hdull

/-- What stands in a declaration is no file, namespace or import. -/
theorem Housed.isScope_eq_false (h : n.Housed) (hn : n.kind.isScope = false)
    (hat : n.at? p = some m) : m.kind.isScope = false := by
  induction p generalizing n with
  | nil =>
    obtain rfl := Option.some.inj hat
    exact hn
  | cons i p ih =>
    obtain ⟨c, hc, hat⟩ := at?_cons_eq_some.1 hat
    have hmem : .node c ∈ n.children := List.mem_of_getElem? hc
    refine ih (h.child hmem) (Bool.eq_false_iff.2 fun hscope => ?_) hat
    rw [h.houses.scope c hmem hscope] at hn
    cases hn

/-- What a node stands in is on the way to it. -/
theorem exists_of_mem_above {top : Top} (hat : n.at? p = some m) (h : top ∈ n.above p) :
    ∃ k u, k < p.length ∧ n.at? (p.take k) = some u ∧ u.top = top := by
  induction p generalizing n with
  | nil => cases h
  | cons i p ih =>
    obtain ⟨c, hc, hat⟩ := at?_cons_eq_some.1 hat
    simp only [above, hc, List.mem_append, List.mem_singleton] at h
    rcases h with h | rfl
    · obtain ⟨k, u, hk, hu, htop⟩ := ih hat h
      exact ⟨k + 1, u, Nat.succ_lt_succ hk, at?_cons_eq_some.2 ⟨c, hc, hu⟩, htop⟩
    · exact ⟨0, n, Nat.succ_pos _, rfl, rfl⟩

end Node

/-! ## What a plan leaves alone -/

namespace Plan

/-- The tags of the records of some kinds. -/
def tagsOf (kinds : RecordKind → Bool) (plan : Plan) : List Tag :=
  (plan.records.filter fun r => kinds r.kind).flatMap Record.tags

end Plan

/-- A method of a type in which no tag of a plan is, and which stands in no node with a tag of a
    record of some kinds. -/
structure Site.UntouchedBy (kinds : RecordKind → Bool) (plan : Plan) (s : Site) : Prop where
  isMethod : s.kind = .methodDeclaration
  inType : ∃ owner ∈ s.parent?, owner.kind.isTypeDeclaration = true
  untagged : ∀ d ∈ s.selfAndDescendants, ∀ tag ∈ plan.tags, tag ∉ d.node.tags
  spared : ∀ a ∈ s.ancestors, ∀ tag ∈ plan.tagsOf kinds, tag ∉ a.node.tags

instance (kinds : RecordKind → Bool) (plan : Plan) (s : Site) :
    Decidable (s.UntouchedBy kinds plan) :=
  decidable_of_iff
    ((s.kind = .methodDeclaration ∧ ∃ owner ∈ s.parent?, owner.kind.isTypeDeclaration = true) ∧
      (∀ d ∈ s.selfAndDescendants, ∀ tag ∈ plan.tags, tag ∉ d.node.tags) ∧
      ∀ a ∈ s.ancestors, ∀ tag ∈ plan.tagsOf kinds, tag ∉ a.node.tags)
    ⟨fun h => ⟨h.1.1, h.1.2, h.2.1, h.2.2⟩,
      fun h => ⟨⟨h.isMethod, h.inType⟩, h.untagged, h.spared⟩⟩

namespace Plan

/-- What is asked of an untouched method, in terms of what it stands in and what is in it. -/
structure Leaves (plan : Plan) (up : List Top) (n : Node) : Prop where
  isMethod : n.kind = .methodDeclaration
  inType : ∃ top ∈ up.head?, top.kind.isTypeDeclaration = true
  untagged : ∀ top ∈ n.tops, ¬top.Bears plan.tags ∧ top.kind ≠ .usingDirective
  spared : ∀ top ∈ up, ¬top.Bears (plan.tagsOf RecordKind.takes)
  unbarred : ¬Barred (n.top :: up)

variable (plan : Plan)

theorem leaves_congr {up : List Top} {n n' : Node} (htop : n'.top = n.top)
    (htops : n'.tops = n.tops) : plan.Leaves up n' ↔ plan.Leaves up n := by
  have hkind : n'.kind = n.kind := congrArg Top.kind htop
  constructor
  · intro h
    exact ⟨hkind ▸ h.isMethod, h.inType, htops ▸ h.untagged, h.spared, htop ▸ h.unbarred⟩
  · intro h
    exact ⟨hkind ▸ h.isMethod, h.inType, htops ▸ h.untagged, h.spared, htop ▸ h.unbarred⟩

open Classical in
/-- Tells the text of the methods that a plan leaves alone. -/
noncomputable def methodTexts : Observer String where
  tell up n := if plan.Leaves up n then [n.text] else []
  tell_mapFirst up n f hf := by
    simp only [plan.leaves_congr (n.top_mapFirst f) (n.tops_mapFirst hf), n.text_mapFirst hf]
  tell_mapLast up n f hf := by
    simp only [plan.leaves_congr (n.top_mapLast f) (n.tops_mapLast hf), n.text_mapLast hf]

variable {plan} {up : List Top} {n : Node}

theorem tell_methodTexts_of_not (h : ¬plan.Leaves up n) : plan.methodTexts.tell up n = [] :=
  if_neg h

theorem tell_methodTexts (h : plan.Leaves up n) : plan.methodTexts.tell up n = [n.text] :=
  if_pos h

/-- Nothing is told of a method in which a thing of some sort stands, when no untouched method has
    one in it. -/
theorem blindTo_methodTexts {Q : Top → Prop}
    (h : ∀ {up n top}, plan.Leaves up n → top ∈ n.tops → ¬Q top) :
    plan.methodTexts.BlindTo Q := by
  rintro up n n' ⟨top, htop, hQ⟩ -
  rw [tell_methodTexts_of_not fun hleaves => h hleaves htop hQ]
  exact List.nil_sublist _

theorem bears_tags {r : Record} (hr : r ∈ plan.records) {top : Top} (h : top.Bears r.tags) :
    top.Bears plan.tags := by
  obtain ⟨tag, htag, hbears⟩ := h
  refine ⟨tag, plan.perm_tags.mem_iff.2 (List.mem_flatMap.2 ⟨r, hr, htag⟩), hbears⟩

theorem sparedBy_methodTexts {r : Record} (hr : r ∈ plan.records) :
    plan.methodTexts.SparedBy r where
  blind := blindTo_methodTexts fun hleaves htop hbears =>
    (hleaves.untagged _ htop).1 (bears_tags hr hbears)
  taken := by
    rintro htakes up n ⟨top, htop, hbears⟩
    refine tell_methodTexts_of_not fun hleaves => ?_
    rcases List.mem_cons.1 htop with rfl | htop
    · exact (hleaves.untagged n.top (by simp [Node.tops_eq])).1 (bears_tags hr hbears)
    · obtain ⟨tag, htag, hbears⟩ := hbears
      exact hleaves.spared top htop ⟨tag, List.mem_flatMap.2
        ⟨r, List.mem_filter.2 ⟨hr, htakes⟩, htag⟩, hbears⟩
  barred _ _ _ hbarred := tell_methodTexts_of_not fun hleaves => hleaves.unbarred hbarred
  unlisted _ _ hlisting := tell_methodTexts_of_not fun hleaves => by
    rw [hleaves.isMethod] at hlisting
    cases hlisting

theorem sparedByImports_methodTexts : plan.methodTexts.SparedByImports where
  blind := blindTo_methodTexts fun hleaves htop => (hleaves.untagged _ htop).2
  taken := by
    rintro up n ⟨top, htop, hkind⟩
    refine tell_methodTexts_of_not fun hleaves => ?_
    rcases List.mem_cons.1 htop with rfl | htop
    · rw [show n.top.kind = .methodDeclaration from hleaves.isMethod] at hkind
      cases hkind
    · exact hleaves.unbarred (barred_of_import htop hkind)
  root _ := tell_methodTexts_of_not fun hleaves => by
    obtain ⟨top, htop, -⟩ := hleaves.inType
    cases htop

end Plan

/-- In a tree that was read, an untouched method is one that the plan leaves alone. -/
theorem Site.UntouchedBy.leaves {plan : Plan} {t : Tree} {s : Site} (ht : t.root.Housed)
    (hs : s ∈ t.sites)
    (h : s.UntouchedBy RecordKind.takes plan) : plan.Leaves (t.root.above s.path) s.node := by
  obtain ⟨rfl, hat⟩ := Tree.mem_sites_iff.1 hs
  have hmethod : s.node.kind = .methodDeclaration := h.isMethod
  refine ⟨hmethod, ?_, fun top htop => ⟨?_, ?_⟩, fun top htop => ?_, ?_⟩
  · obtain ⟨owner, howner, hkind⟩ := h.inType
    obtain ⟨i, hpath⟩ := Site.parent?_path hs howner
    obtain ⟨-, hat'⟩ := Tree.mem_sites_iff.1 (Site.parent?_mem hs howner)
    rw [hpath, Node.at?_append, hat'] at hat
    obtain ⟨c, hc, -⟩ := Node.at?_cons_eq_some.1 hat
    rw [hpath, Node.above_concat hat' hc]
    exact ⟨owner.node.top, rfl, hkind⟩
  · rintro ⟨tag, htag, hbears⟩
    obtain ⟨q, m, hm, rfl⟩ := Node.mem_tops.1 htop
    exact h.untagged _ (Site.mem_selfAndDescendants_of_at? hm) tag htag hbears
  · obtain ⟨q, m, hm, rfl⟩ := Node.mem_tops.1 htop
    intro hkind
    have hscope := (ht.at? hat).isScope_eq_false (by rw [hmethod]; rfl) hm
    rw [show m.kind = .usingDirective from hkind] at hscope
    cases hscope
  · rintro ⟨tag, htag, hbears⟩
    obtain ⟨k, u, hk, hu, rfl⟩ := Node.exists_of_mem_above hat htop
    exact h.spared _ (Site.mem_ancestors hs (Tree.mem_sites_of_at? hu) hk rfl) tag htag hbears
  · exact ht.not_barred hat (by rw [hmethod]; rfl)

/-- The texts of some sites of a tree, told node by node. -/
theorem Tree.map_text_filter (t : Tree) (wanted : Site → Bool) :
    (t.sites.filter wanted).map Site.text =
      t.root.nodes.flatMap fun (p, m) => if wanted ⟨t, p, m⟩ then [m.text] else [] := by
  rw [t.sites_eq, List.filter_map, List.map_map]
  generalize t.root.nodes = nodes
  induction nodes with
  | nil => rfl
  | cons pm nodes ih =>
    obtain ⟨p, m⟩ := pm
    rw [List.flatMap_cons, ← ih, List.filter_cons]
    cases hwanted : wanted ⟨t, p, m⟩ <;> simp [hwanted, Site.text]

/-- Untouched methods come out of a run with the text that they had, in the order that they had,
    whatever the plan does elsewhere. -/
theorem Plan.apply_spares_methods {source : String} {n : Node} {t : Tree}
    (hread : Node.parse source = .ok n) (ht : t.root.untagged = n.untagged) (plan : Plan)
    (settings : Settings) :
    let before := t.sites.filter fun s => s.UntouchedBy RecordKind.takes plan
    let after := (plan.apply settings t).tree.sites.filter fun s => s.kind == .methodDeclaration
    (before.map Site.text).Sublist (after.map Site.text) := by
  intro before after
  have halike : t.root.Alike n := ht
  have hhoused : t.root.Housed := (Node.housed_of_parse hread).of_shape halike.shape_eq.symm
  -- The observer tells the text of the methods that the plan leaves alone, before and after.
  have hseen : (before.map Site.text).Sublist (plan.methodTexts.see [] t.root) := by
    rw [Tree.map_text_filter, Observer.see_eq_flatMap]
    refine List.Sublist.flatMap_right _ fun pm hmem => ?_
    obtain ⟨p, m⟩ := pm
    have hs : ⟨t, p, m⟩ ∈ t.sites := Tree.mem_sites_of_at? (Node.mem_nodes.1 hmem)
    dsimp only
    split
    · rename_i huntouched
      have hleaves := (of_decide_eq_true huntouched).leaves hhoused hs
      rw [List.append_nil, tell_methodTexts hleaves]
    · exact List.nil_sublist _
  have hshown : (plan.methodTexts.see [] (plan.apply settings t).tree.root).Sublist
      (after.map Site.text) := by
    rw [Tree.map_text_filter, Observer.see_eq_flatMap]
    refine List.Sublist.flatMap_right _ fun pm _ => ?_
    obtain ⟨p, m⟩ := pm
    dsimp only
    by_cases hleaves : plan.Leaves (Node.above p (plan.apply settings t).tree.root ++ []) m
    · rw [tell_methodTexts hleaves, if_pos (by simp [Site.kind, hleaves.isMethod])]
    · rw [tell_methodTexts_of_not hleaves]
      exact List.nil_sublist _
  exact (hseen.trans (plan.see_apply hhoused.headed (fun _ => sparedBy_methodTexts)
    sparedByImports_methodTexts)).trans hshown

/-! ## Methods in nodes that are taken -/

/-- The tree with a tag on the node at a path, when there is such a node. -/
def Tree.tagged (t : Tree) (p : Path) (tag : Tag) : Tree :=
  (t.tag p tag).toOption.getD t

theorem Tree.untagged_tagged (t : Tree) (p : Path) (tag : Tag) :
    (t.tagged p tag).root.untagged = t.root.untagged := by
  unfold tagged
  cases h : t.tag p tag with
  | error e => rfl
  | ok t' =>
    obtain ⟨m, -, hat, -, -⟩ := put_of_tryUpdate h
    obtain ⟨w, hw, hgains⟩ := tag_eq_ok hat tag
    obtain rfl : t' = w := Except.ok.inj (h.symm.trans hw)
    exact hgains.alike

/-- The plan of one change, at the node with the tag 1. -/
def Plan.ofChange (change : Change) : Plan where
  source := "Old"
  target := "New"
  records := [⟨⟨1⟩, "", change⟩]

theorem Plan.apply_spares_methods_beside :
    ∃ n t, Node.parse "class C \x7b [Old] void A() \x7b \x7d void M() \x7b \x7d \x7d" = .ok n ∧
      t.root.untagged = n.untagged ∧
      let plan := Plan.ofChange .markerRemoval
      let before := t.sites.filter fun s => s.UntouchedBy RecordKind.takes plan
      let after := (plan.apply {} t).tree.sites.filter fun s => s.kind == .methodDeclaration
      before.map Site.text = ["void M() \x7b \x7d"] ∧
        (before.map Site.text).Sublist (after.map Site.text) := by
  have hbefore : (Node.parse
      "class C \x7b [Old] void A() \x7b \x7d void M() \x7b \x7d \x7d").toOption.map (fun n =>
        (((Tree.mk n {}).tagged [0, 4, 0, 1] ⟨1⟩).sites.filter fun s =>
          s.UntouchedBy RecordKind.takes (Plan.ofChange .markerRemoval)).map Site.text)
      = some ["void M() \x7b \x7d"] := by
    decide +kernel
  obtain ⟨n, hread, hbefore⟩ := exists_ok_of_map hbefore
  have ht := Tree.untagged_tagged ⟨n, {}⟩ [0, 4, 0, 1] ⟨1⟩
  exact ⟨n, _, hread, ht, hbefore,
    Plan.apply_spares_methods hread ht (Plan.ofChange .markerRemoval) {}⟩

/-- The kinds of records whose edits replace or remove a statement, a member or an expression. -/
def RecordKind.takesCode : RecordKind → Bool
  | .exceptionCapture | .callReplacement | .container | .assertion | .memberRemoval => true
  | _ => false

/-- Files in which a method stands in a marker, a base type or a parameter, with the path of that
    and a change that takes it. -/
def swallowing : List (String × Path × Change) :=
  let value := "() => \x7b record R() \x7b M F(); \x7d \x7d"
  [ ("class C \x7b [Old(" ++ value ++ ")] M A(); \x7d", [0, 4, 0, 1],
      .marker { name := "New", arguments := .remove }),
    ("class C \x7b M A([Old(" ++ value ++ ")] N b); \x7d", [0, 4, 3, 1, 0, 1],
      .parameterMarker "New" .remove),
    ("class C \x7b [Old(" ++ value ++ ")] M A(); \x7d", [0, 4, 0, 1], .markerRemoval),
    ("class C : B(" ++ value ++ ") \x7b \x7d", [0, 3, 1], .baseTypeRemoval "B"),
    ("class C \x7b C(N b = " ++ value ++ "); \x7d", [0, 4, 2, 1], .parameterRemoval "b" "N")]

/-- Each of the kinds whose edits take a marker, a base type or a parameter loses a method with
    it. -/
theorem lost_of_mem_swallowing : ∀ x ∈ swallowing, ∃ n t, Node.parse x.1 = .ok n ∧
    t.root.untagged = n.untagged ∧
    let plan := Plan.ofChange x.2.2
    let before := t.sites.filter fun s => s.UntouchedBy RecordKind.takesCode plan
    let after := (plan.apply {} t).tree.sites.filter fun s => s.kind == .methodDeclaration
    ¬(before.map Site.text).Sublist (after.map Site.text) := by
  have hlost : ∀ x ∈ swallowing, (Node.parse x.1).toOption.map (fun n =>
      let t := (Tree.mk n {}).tagged x.2.1 ⟨1⟩
      let plan := Plan.ofChange x.2.2
      let before := t.sites.filter fun s => s.UntouchedBy RecordKind.takesCode plan
      let after := (plan.apply {} t).tree.sites.filter fun s => s.kind == .methodDeclaration
      decide ((before.map Site.text).Sublist (after.map Site.text))) = some false := by
    decide +kernel
  intro x hx
  obtain ⟨n, hread, hlost⟩ := exists_ok_of_map (hlost x hx)
  exact ⟨n, _, hread, Tree.untagged_tagged ⟨n, {}⟩ x.2.1 ⟨1⟩, of_decide_eq_false hlost⟩

/-- It is not enough that a method stands in no statement, member or expression that is taken. -/
theorem not_spares_methods_swallowing : ¬∀ (source : String) (n : Node) (t : Tree) (plan : Plan)
    (settings : Settings), Node.parse source = .ok n → t.root.untagged = n.untagged →
    let before := t.sites.filter fun s => s.UntouchedBy RecordKind.takesCode plan
    let after := (plan.apply settings t).tree.sites.filter fun s => s.kind == .methodDeclaration
    (before.map Site.text).Sublist (after.map Site.text) := by
  intro h
  obtain ⟨n, t, hread, ht, hlost⟩ := lost_of_mem_swallowing _ (List.mem_cons_self ..)
  exact hlost (h _ n t _ {} hread ht)

end Recast
