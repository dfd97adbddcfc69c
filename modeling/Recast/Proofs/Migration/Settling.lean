-- SUMMARY: What a migration makes of the header of a method that is to change: the change is carried out unless the method is taken away before, and what is left of the method has the modifiers and the return type that the change asks for.
import Recast.Proofs.Analysis.Readiness

/-! # Settled headers

Every method that a plan changes the header of is ready for the change (`Framework.exists_ready`), so
the change is not refused and its result stays (`Ready.reads_apply`). Here this is said of the
method as it is found in the migrated tree (`SignatureChange.Landed`), which is there unless a record
that was carried out replaces or removes a node around it (`Plan.exists_tagged_or_covers`). -/

namespace Recast

/-! ## Tags in a migrated tree -/

/-- Tells that a tag is there, of the nodes below the whole file that are in no import. -/
def Observer.ofOutside (tag : Tag) : Observer Unit where
  tell up n := if tag ∈ n.top.tags ∧ up ≠ [] ∧ ∀ top ∈ n.top :: up, top.kind ≠ .usingDirective
    then [()] else []
  tell_mapFirst up n f _ := by rw [n.top_mapFirst f]
  tell_mapLast up n f _ := by rw [n.top_mapLast f]

theorem sparedByImports_ofOutside (tag : Tag) : (Observer.ofOutside tag).SparedByImports where
  blind up n n' _ htop := by
    simp only [Observer.ofOutside, htop]
    exact .refl _
  taken := by
    rintro up n ⟨top, htop, hkind⟩
    exact if_neg fun h => h.2.2 top htop hkind
  root _ := if_neg fun h => h.2.1 rfl

namespace Plan

variable {plan : Plan} {settings : Settings} {t : Tree}

/-- The imports leave the tags outside of imports where they are. -/
theorem exists_tagged_apply {tag : Tag} {p : Path} {m : Node} (hroot : t.root.tags = [])
    (hat : (t.after settings plan.ordered).root.at? p = some m) (htag : tag ∈ m.tags)
    (houtside : ∀ top ∈ m.top :: (t.after settings plan.ordered).root.above p,
      top.kind ≠ .usingDirective) :
    ∃ q u, (plan.apply settings t).tree.root.at? q = some u ∧ tag ∈ u.tags := by
  let o := Observer.ofOutside tag
  have hsee := plan.see_apply_of_after settings t (sparedByImports_ofOutside tag)
  -- The observer sees the tag wherever it is outside of imports, and imports hide nothing from it.
  by_contra hnone
  have hafter : o.see [] (plan.apply settings t).tree.root = [] :=
    (o.see_eq_nil []).2 fun q u hu => if_neg fun h => hnone ⟨q, u, hu, h.1⟩
  have hbefore : o.see [] (t.after settings plan.ordered).root = [] :=
    List.sublist_nil.1 (hafter ▸ hsee)
  have hbelow : (t.after settings plan.ordered).root.above p ≠ [] := by
    cases p with
    | nil =>
      obtain rfl := Option.some.inj hat
      rw [(Tree.after_top hroot _).2] at htag
      cases htag
    | cons i p =>
      obtain ⟨c, hc, -⟩ := Node.at?_cons_eq_some.1 hat
      simp [Node.above, hc]
  have htell := (o.see_eq_nil []).1 hbefore p m hat
  rw [List.append_nil] at htell
  have htold : o.tell ((t.after settings plan.ordered).root.above p) m = [()] :=
    if_pos ⟨htag, hbelow, houtside⟩
  rw [htell] at htold
  cases htold

/-- A record whose node takes the node of another is applied. -/
def Takes (plan : Plan) (settings : Settings) (t : Tree) (r : Record) : Prop :=
  ∃ (j : Nat) (outer : Record), plan.records[j]? = some outer ∧
    (plan.outcomes settings t)[j]? = some .applied ∧ outer.kind.takes = true ∧ outer.Covers t r

/-- A method with the tag of a record is in the migrated tree, or a record that is applied takes
    it. -/
theorem exists_tagged_or_covers {r : Record} {p : Path} {n : Node} (ht : t.root.Housed)
    (hroot : t.root.tags = []) (hat : t.root.at? p = some n) (htag : r.tag ∈ n.tags)
    (hkind : n.kind = .methodDeclaration) :
    (∃ q u, (plan.apply settings t).tree.root.at? q = some u ∧ r.tag ∈ u.tags) ∨
      plan.Takes settings t r := by
  have hbarred := ht.not_barred hat (by rw [hkind]; rfl)
  let taken : Top → Prop := fun top => ∃ before outer rest,
    plan.ordered = before ++ outer :: rest ∧
    outer.outcome settings (t.after settings before) = .applied ∧ outer.kind.takes = true ∧
    top.Bears outer.tags
  -- Either an applied record takes the method or something that it stands in, or it stays.
  by_cases hcovered : ∃ top ∈ n.top :: t.root.above p, taken top
  · obtain ⟨top, htop, before, outer, rest, hsplit, hlands, htakes, hbears⟩ := hcovered
    obtain ⟨j, hj, rfl⟩ := exists_turn hsplit
    refine .inr ⟨j, outer, hj, ?_, htakes, Record.covers_of_bears hat htag htop hbears⟩
    rw [getElem?_outcomes hj, hlands]
  · let gone : Top → Prop := fun top => taken top ∨ top.kind = .usingDirective
    have hstays : n.top.Stays (fun _ top => r.tag ∈ top.tags) gone True (t.root.above p) := by
      refine ⟨htag, ?_, ?_, fun _ => hbarred⟩
      · rw [show n.top.kind = .methodDeclaration from hkind]
        rfl
      · rintro top htop (htaken | himport)
        · exact hcovered ⟨top, htop, htaken⟩
        · rcases List.mem_cons.1 htop with rfl | htop
          · rw [show n.top.kind = .methodDeclaration from hkind] at himport
            cases himport
          · exact hbarred (barred_of_import htop himport)
    obtain ⟨q, m, hm, h⟩ := Tree.exists_stays_after ht.headed plan.sorted_ordered hat hstays
      (fun before outer rest hsplit hlands htakes top hbears =>
        .inl ⟨before, outer, rest, hsplit, hlands, htakes, hbears⟩) fun _ _ _ => trivial
    exact .inl (exists_tagged_apply hroot hm h.sort fun top htop himport =>
      h.kept top htop (.inr himport))

end Plan

/-! ## Headers in a migrated tree -/

namespace SignatureChange

/-- The modifiers that a change may replace. -/
def replaced (change : SignatureChange) : List String :=
  (if change.makePublic then Edit.accessModifiers else []) ++
    if change.addAsync then ["async"] else []

/-- A method with a header that is as a change asks for, made of one with some modifiers. -/
structure Landed (change : SignatureChange) (words : List String) (n : Node) : Prop where
  isMethod : n.kind = .methodDeclaration
  isAsync : change.addAsync = true → n.modifierWords.count "async" = 1 ∧
    ∃ type, (View.Method.mk n).returnType? = some type ∧ Settings.isWrapped {} type.text = true
  isPublic : change.makePublic = true → n.modifierWords.count "public" = 1 ∧
    ∀ word ∈ ["private", "protected", "internal"], word ∉ n.modifierWords
  /-- The other modifiers stay, in their order. -/
  others : n.modifierWords.filter (fun word => !change.replaced.contains word) =
    words.filter fun word => !change.replaced.contains word

variable {change : SignatureChange} {words : List String}

theorem mem_modifiersFrom {word : String} : word ∈ change.modifiersFrom words ↔
    (word ∈ words ∧ (change.makePublic = true → word ∉ Edit.accessModifiers)) ∨
    (change.makePublic = true ∧ word = "public") ∨ (change.addAsync = true ∧ word = "async") := by
  obtain ⟨addAsync, returnType, makePublic⟩ := change
  cases addAsync <;> cases makePublic <;> simp [modifiersFrom] <;> grind

theorem count_async_modifiersFrom (hasync : change.addAsync = true) (hfree : change.FreeIn words) :
    (change.modifiersFrom words).count "async" = 1 := by
  have hnone := hfree.isAsync hasync
  have hshown : (if change.makePublic then "public" :: words.filter fun word =>
      !Edit.accessModifiers.contains word else words).count "async" = 0 := by
    refine List.count_eq_zero.2 fun hmem => hnone ?_
    split at hmem
    · rcases List.mem_cons.1 hmem with heq | hmem
      · exact absurd heq (by decide)
      · exact (List.mem_filter.1 hmem).1
    · exact hmem
  rw [modifiersFrom, if_pos hasync, List.count_append, hshown]
  rfl

theorem count_public_modifiersFrom (hpublic : change.makePublic = true) :
    (change.modifiersFrom words).count "public" = 1 := by
  have hnone : (words.filter fun word => !Edit.accessModifiers.contains word).count "public" = 0 := by
    refine List.count_eq_zero.2 fun hmem => ?_
    have hother := (List.mem_filter.1 hmem).2
    cases hother
  rw [modifiersFrom, if_pos hpublic]
  split
  · rw [List.count_append, List.count_cons_self, hnone]
    rfl
  · rw [List.count_cons_self, hnone]

/-- The modifiers that a change does not replace stay in their order. -/
theorem filter_modifiersFrom (change : SignatureChange) (words : List String) :
    (change.modifiersFrom words).filter (fun word => !change.replaced.contains word) =
      words.filter fun word => !change.replaced.contains word := by
  have hshown : (if change.makePublic then "public" :: words.filter fun word =>
      !Edit.accessModifiers.contains word else words).filter
        (fun word => !change.replaced.contains word) =
      words.filter fun word => !change.replaced.contains word := by
    cases hpublic : change.makePublic with
    | false => rfl
    | true =>
      have haccess : ∀ word ∈ Edit.accessModifiers, word ∈ change.replaced := fun word hword =>
        List.mem_append_left _ (by rwa [if_pos hpublic])
      rw [if_pos rfl, List.filter_cons_of_neg (by simpa using haccess "public" (by decide)),
        List.filter_filter]
      refine List.filter_congr fun word _ => ?_
      -- a modifier that says who may use the method is replaced
      rw [Bool.and_eq_left_iff_imp]
      intro hother
      simp only [Bool.not_eq_true', List.contains_eq_mem, decide_eq_false_iff_not] at hother ⊢
      exact fun hword => hother (haccess word hword)
  rw [modifiersFrom]
  split
  · rename_i hasync
    have hreplaced : "async" ∈ change.replaced := by simp [replaced, hasync]
    rw [List.filter_append, hshown, List.filter_cons_of_neg (by simpa using hreplaced)]
    exact List.append_nil _
  · exact hshown

end SignatureChange

theorem Element.headerIn_eq_map (es : List Element) : headerIn es =
    ((es.filterMap node?).filter fun c => Kind.bars .methodDeclaration c.kind).map
      Node.headerPart := by
  induction es with
  | nil => rfl
  | cons e es ih =>
    unfold headerIn at ih ⊢
    cases e with
    | token u =>
      rw [List.filterMap_cons_none rfl, List.filterMap_cons_none rfl]
      exact ih
    | node c =>
      have hnode : (node c :: es).filterMap node? = c :: es.filterMap node? := rfl
      have hpart : (node c).headerPart? =
        if Kind.bars .methodDeclaration c.kind then some c.headerPart else none := rfl
      rw [hnode, List.filterMap_cons, List.filter_cons, hpart]
      cases Kind.bars .methodDeclaration c.kind with
      | true => exact congrArg _ ih
      | false => exact ih

/-- A method has the modifiers and the return type that its header shows. -/
theorem Head.Reads.exists_returnType {D : Top → Prop} {words : List String} {P : String → Prop}
    {n : Node} (h : (n.head true).Reads D words P) : n.modifierWords = words ∧
      ∃ type, (View.Method.mk n).returnType? = some type ∧ P type.text := by
  have hkind := h.isMethod
  obtain ⟨mods, type, hshows, hwords, htext⟩ := h
  have hparts := hshows.parts_eq
  rw [Node.head, if_pos ⟨rfl, hkind⟩] at hparts
  have hheader : (n.childNodes.filter fun c => Kind.bars .methodDeclaration c.kind).map
      Node.headerPart = [mods, type] := (Element.headerIn_eq_map n.children).symm.trans hparts
  obtain ⟨m, ms, hnodes, rfl, hrest⟩ := List.map_eq_cons_iff.1 hheader
  obtain ⟨v, vs, rfl, rfl, hvs⟩ := List.map_eq_cons_iff.1 hrest
  obtain rfl := List.map_eq_nil_iff.1 hvs
  obtain ⟨kind, hv, htype⟩ := hshows.type_kind
  have hm := hshows.mods_kind
  rw [Node.kind?_headerPart] at hm hv
  have hm : m.kind = .modifiers := Option.some.inj hm
  obtain rfl := Option.some.inj hv
  -- A search for parts of a header looks at these two only.
  have hfind : ∀ test : Node → Bool,
      (∀ c, test c = true → Kind.bars .methodDeclaration c.kind = true) →
      n.childNodes.find? test = [m, v].find? test := by
    intro test htest
    rw [← hnodes, List.find?_filter]
    refine congrArg (List.find? · _) (funext fun c => ?_)
    exact Bool.eq_iff_iff.2 ⟨fun hc => decide_eq_true ⟨htest c hc, hc⟩,
      fun hc => (of_decide_eq_true hc).2⟩
  constructor
  · have hchild : n.child? .modifiers = some m := by
      rw [Node.child?, hfind _ fun c hc => by rw [eq_of_beq hc]; rfl]
      simp [hm]
    rw [Node.modifierWords, hchild]
    exact hwords
  · refine ⟨v, ?_, htext⟩
    rw [View.Method.returnType?, Node.typeChild?, hfind _ fun c hc =>
      Kind.bars_of_isValue (Kind.isValue_of_isTypeName hc)]
    have hmods : m.kind.isTypeName = false := by
      rw [hm]
      rfl
    simp [hmods, htype]

/-- A header that has the modifiers that a change makes, and a return type that it settles for, is
    as the change asks for. -/
theorem SignatureChange.landed_of_reads {change : SignatureChange} {words : List String}
    {D : Top → Prop} {n : Node} (hfree : change.FreeIn words)
    (h : (n.head true).Reads D (change.modifiersFrom words) change.Settles) :
    change.Landed words n := by
  have hkind := h.isMethod
  obtain ⟨hwords, type, htype, hsettles⟩ := h.exists_returnType
  refine ⟨hkind, fun hasync => ⟨?_, type, htype, hsettles hasync⟩, fun hpublic => ⟨?_, ?_⟩, ?_⟩
  · rw [hwords]
    exact count_async_modifiersFrom hasync hfree
  · rw [hwords]
    exact count_public_modifiersFrom hpublic
  · intro word hword hmem
    rw [hwords, mem_modifiersFrom] at hmem
    rcases hmem with ⟨-, hother⟩ | ⟨-, rfl⟩ | ⟨-, rfl⟩
    · exact hother hpublic (List.mem_cons_of_mem _ hword)
    · exact absurd hword (by decide)
    · exact absurd hword (by decide)
  · rw [hwords]
    exact filter_modifiersFrom change words

/-! ## Migrations -/

/-- What becomes of the changes of headers in a migration. The edit of such a change is not refused:
    it is applied, or skipped when its method is in what a record that was applied before it took.
    At most one node of the migrated tree is the method, and it has the modifiers and the return
    type that the change asks for; there is none only when an applied record takes the method. -/
theorem migrateSource_settles_headers {f : Framework} {source : String} {o : Migration}
    (h : f.migrateSource {} source = .ok o) :
    ∃ t, Tree.parse source = .ok t ∧ o.plan = (f.analysis {} t).plan ∧
      let tree := (f.analysis {} t).tree
      let outcomes := o.plan.outcomes {} tree
      ∀ (i : Nat) (r : Record) (change : SignatureChange), o.plan.records[i]? = some r →
        r.change = .signature change →
        ∃ s ∈ t.sites, s.kind = .methodDeclaration ∧ tree.TaggedOnlyAt r.tag s.path ∧
          (outcomes[i]? = some .applied ∨
            outcomes[i]? = some .skipped ∧ o.plan.Loses {} tree i r) ∧
          (∀ u ∈ o.tree.sites, r.tag ∈ u.node.tags →
            change.Landed s.node.modifierWords u.node ∧
              ∀ v ∈ o.tree.sites, r.tag ∈ v.node.tags → u = v) ∧
          ((∃ u ∈ o.tree.sites, r.tag ∈ u.node.tags) ∨ o.plan.Takes {} tree r) := by
  obtain ⟨t, ht, hplan, htree⟩ := Framework.migrateSource_eq_ok h
  refine ⟨t, ht, hplan, ?_⟩
  intro tree outcomes i r change hr hchange
  have hread := Tree.readFrom_of_parse ht
  have hhoused := f.housed_analysis {} ht
  have hseated := f.seatedIn_analysis {} hread
  rw [← hplan] at hseated htree
  -- The record is at a method whose header is ready for the change when its turn comes.
  obtain ⟨s, hs, hkind, honly, hready⟩ :=
    f.exists_ready ht (hplan ▸ List.mem_of_getElem? hr) hchange
  rw [← hplan] at hready
  have hnodup := f.nodup_tags_analysis {} hread
  rw [← hplan] at hnodup
  obtain ⟨hnot_failed, hreads⟩ := hready.reads_apply hnodup hr hchange
  rw [← htree] at hreads
  obtain ⟨n, hat, htag⟩ := Node.mem_tagsAt.1 ((honly s.path).2 rfl)
  refine ⟨s, hs, hkind, honly, ?_, fun u hu htagged => ⟨?_, fun v hv htagged' => ?_⟩, ?_⟩
  · have hout : outcomes[i]? = some (r.outcome {} (tree.after {} (o.plan.before i))) :=
      Plan.getElem?_outcomes hr
    cases houtcome : r.outcome {} (tree.after {} (o.plan.before i)) with
    | applied => exact .inl (hout.trans (congrArg some houtcome))
    | failed => exact absurd houtcome hnot_failed
    | skipped =>
      have hskipped := hout.trans (congrArg some houtcome)
      exact .inr ⟨hskipped, Plan.loses_of_skipped hhoused hseated hr hskipped⟩
  · refine SignatureChange.landed_of_reads hready.free (hreads (u.node.head true) ?_)
    exact Node.mem_heads.2 ⟨u.path, u.node, (Tree.mem_sites_iff.1 hu).2, htagged, rfl⟩
  · have honce := hready.once_apply
    rw [← htree] at honce
    exact Tree.eq_of_path_eq hu hv (honce _ _ _ _ (Tree.mem_sites_iff.1 hu).2 htagged
      (Tree.mem_sites_iff.1 hv).2 htagged')
  · have hmethod : n.kind = .methodDeclaration := by
      obtain ⟨m, hm, halike⟩ := (f.alike_analysis {} hread).at? hat
      obtain rfl : s.node = m := Option.some.inj ((Tree.mem_sites_iff.1 hs).2.symm.trans hm)
      exact halike.kind_eq.trans hkind
    refine (Plan.exists_tagged_or_covers hhoused (Framework.analysis_root hread).2.1 hat htag
      hmethod).imp_left ?_
    rintro ⟨q, u, hu, htagged⟩
    rw [← htree] at hu
    exact ⟨⟨o.tree, q, u⟩, Tree.mem_sites_of_at? hu, htagged⟩

/-- A file with a private method that returns a number, is run before tests, and asserts. -/
def privateSetUp : String :=
  "using NUnit.Framework;\nclass T \x7b [SetUp] private static int M() " ++
    "\x7b Assert.IsTrue(x); \x7d \x7d"

/-- The method becomes public and asynchronous, and the number is wrapped. -/
theorem migrateSource_settles_headers_privateSetUp :
    ∃ o t, Framework.nUnit.migrateSource {} privateSetUp = .ok o ∧
      Tree.parse privateSetUp = .ok t ∧ o.source =
        "using TUnit.Core;\nusing TUnit.Assertions;\nusing TUnit.Assertions.Extensions;\n" ++
        "using System.Threading.Tasks;\n\nclass T \x7b [Before(HookType.Test)] " ++
        "public static async Task<int> M() \x7b await Assert.That(x).IsTrue(); \x7d \x7d" ∧
      ∃ r, o.plan.records[2]? = some r ∧ ∃ s ∈ t.sites, s.kind = .methodDeclaration ∧
        ∀ u ∈ o.tree.sites, r.tag ∈ u.node.tags →
          SignatureChange.Landed { addAsync := true, returnType := .wrap "int", makePublic := true }
            s.node.modifierWords u.node := by
  have hfacts : (Framework.nUnit.migrateSource {} privateSetUp).toOption.map (fun o =>
      (o.source, (o.plan.records[2]?).bind fun r => r.change.signature?)) = some
        ("using TUnit.Core;\nusing TUnit.Assertions;\nusing TUnit.Assertions.Extensions;\n" ++
          "using System.Threading.Tasks;\n\nclass T \x7b [Before(HookType.Test)] " ++
          "public static async Task<int> M() \x7b await Assert.That(x).IsTrue(); \x7d \x7d",
        some { addAsync := true, returnType := .wrap "int", makePublic := true }) := by
    decide +kernel
  obtain ⟨o, ho, hfacts⟩ := exists_ok_of_map hfacts
  obtain ⟨hsource, hrecord⟩ := Prod.mk.inj hfacts
  obtain ⟨r, hr, hchange⟩ := Option.bind_eq_some_iff.1 hrecord
  obtain ⟨t, ht, -, hsettles⟩ := migrateSource_settles_headers ho
  obtain ⟨s, hs, hkind, -, -, hlanded, -⟩ :=
    hsettles 2 r _ hr (Change.signature?_eq_some_iff.1 hchange)
  exact ⟨o, t, ho, ht, hsource, r, hr, s, hs, hkind, fun u hu htag => (hlanded u hu htag).1⟩

/-- A file with a method that is run before tests, in a function that an assertion takes. -/
def nestedSetUp : String :=
  "using NUnit.Framework;\nclass T \x7b void A() \x7b Assert.IsTrue(() => " ++
    "\x7b record R() \x7b [SetUp] void M() \x7b \x7d \x7d \x7d); \x7d \x7d"

/-- What takes the place of the assertion is made from its text, so the change of the method finds
    no node. -/
theorem not_applies_headers_nestedSetUp : ¬∀ (f : Framework) (source : String) (o : Migration)
    (t : Tree), f.migrateSource {} source = .ok o → Tree.parse source = .ok t →
    ∀ (i : Nat) (r : Record) (change : SignatureChange), o.plan.records[i]? = some r →
      r.change = .signature change →
      (o.plan.outcomes {} (f.analysis {} t).tree)[i]? = some .applied := by
  intro h
  have hfacts : (Tree.parse nestedSetUp).toOption.map (fun t =>
      let analysis := Framework.nUnit.analysis {} t
      ((analysis.plan.records[3]?).bind fun r => r.change.signature?,
        (analysis.plan.outcomes {} analysis.tree)[3]?)) =
      some (some { makePublic := true }, some .skipped) := by
    decide +kernel
  obtain ⟨t, ht, hfacts⟩ := exists_ok_of_map hfacts
  obtain ⟨hrecord, hskipped⟩ := Prod.mk.inj hfacts
  obtain ⟨r, hr, hchange⟩ := Option.bind_eq_some_iff.1 hrecord
  obtain ⟨o, ho, hplan, -⟩ := Framework.nUnit.exists_migrateSource {} ht
  have happlied := h .nUnit nestedSetUp o t ho ht 3 r _ (hplan ▸ hr)
    (Change.signature?_eq_some_iff.1 hchange)
  rw [hplan, hskipped] at happlied
  cases happlied

end Recast
