-- SUMMARY: Analysis only puts tags on the tree, and puts them on the nodes that the records of its plan were made for.
import Mathlib.Data.List.Perm.Basic
import Recast.Framework.Basic
import Recast.Proofs.Analysis.Recording

/-! # Analysis only annotates

All findings of a strategy are asked for by one of its hooks (`Strategy.Asked`), so every draft
that an analysis goes through is faithful. The findings about methods that await are read off the
working copy; they lead back to the tree because the two have the same nodes at the same paths. -/

namespace Recast

/-! ## The findings of rules -/

namespace Finding

theorem mem_ofAnswer {α : Type} {topic : Topic} {s : Site} {answer : Except Complaint α}
    {findings : α → List Finding} {f : Finding} (h : f ∈ ofAnswer topic s answer findings) :
    (∃ a, answer = .ok a ∧ f ∈ findings a) ∨ ∃ failure, f = .failure failure := by
  cases answer with
  | ok a => exact .inl ⟨a, rfl, h⟩
  | error complaint => exact .inr ⟨_, List.mem_singleton.1 h⟩

theorem mem_ofProposals {α : Type} {topic : Topic} {cx : Context} {rule : Rule (Option α)}
    {finding : Site → α → Finding} {candidates : List Site} {f : Finding}
    (h : f ∈ ofProposals topic cx rule finding candidates) :
    (∃ s ∈ candidates, ∃ a, rule cx s = .ok (some a) ∧ f = finding s a) ∨
      ∃ failure, f = .failure failure := by
  obtain ⟨s, hs, h⟩ := List.mem_flatMap.1 h
  rcases mem_ofAnswer h with ⟨proposal, hanswer, h⟩ | hfailure
  · obtain ⟨a, rfl, rfl⟩ : ∃ a, proposal = some a ∧ finding s a = f := by simpa using h
    exact .inl ⟨s, hs, a, hanswer, rfl⟩
  · exact .inr hfailure

theorem mem_ofRemovals {topic : Topic} {cx : Context} {rule : Rule Bool} {removal : Site → Change}
    {candidates : List Site} {f : Finding} (h : f ∈ ofRemovals topic cx rule removal candidates) :
    (∃ s ∈ candidates, rule cx s = .ok true ∧ f = .change topic s s.text (removal s)) ∨
      ∃ failure, f = .failure failure := by
  obtain ⟨s, hs, h⟩ := List.mem_flatMap.1 h
  rcases mem_ofAnswer h with ⟨removes, hanswer, h⟩ | hfailure
  · cases removes with
    | true => exact .inl ⟨s, hs, hanswer, List.mem_singleton.1 h⟩
    | false => cases h
  · exact .inr hfailure

end Finding

namespace Strategy

open Finding

section Findings

variable {strategy : Strategy} {cx : Context} {t : Tree} (hfinds : strategy.FindsSites t)
  {f : Finding}

include hfinds

theorem asked_assertion (h : f ∈ strategy.assertionFindings cx (.ofTree cx.model t) t) :
    f.Asked strategy cx t := by
  rcases mem_ofProposals h with ⟨s, hs, p, hanswer, rfl⟩ | ⟨failure, rfl⟩
  · exact ⟨hfinds.assertions s hs, rfl, rfl, .assertion hs hanswer⟩
  · trivial

theorem asked_marker (h : f ∈ strategy.markerFindings cx t) : f.Asked strategy cx t := by
  obtain ⟨s, hs, h⟩ := List.mem_flatMap.1 h
  have hsite := hfinds.markers s hs
  rcases mem_ofAnswer h with ⟨removes, hremoves, h⟩ | ⟨failure, rfl⟩
  · cases removes with
    | true =>
      obtain rfl := List.mem_singleton.1 h
      exact ⟨hsite, rfl, rfl, .markerRemoval hs hremoves⟩
    | false =>
      rcases mem_ofProposals h with ⟨u, hu, p, hanswer, rfl⟩ | ⟨failure, rfl⟩
      · obtain rfl := List.mem_singleton.1 hu
        exact ⟨hsite, rfl, rfl, .marker hs hremoves hanswer⟩
      · trivial
  · trivial

theorem asked_parameterMarker (h : f ∈ strategy.parameterMarkerFindings cx t) :
    f.Asked strategy cx t := by
  rcases mem_ofProposals h with ⟨s, hs, p, hanswer, rfl⟩ | ⟨failure, rfl⟩
  · exact ⟨hfinds.parameterMarkers s hs, rfl, rfl, .parameterMarker hs hanswer⟩
  · trivial

theorem asked_missingMarker (h : f ∈ strategy.missingMarkerFindings cx t) :
    f.Asked strategy cx t := by
  rcases mem_ofProposals h with ⟨s, hs, p, hanswer, rfl⟩ | ⟨failure, rfl⟩
  · exact ⟨hfinds.methods s hs, rfl, rfl, .missingMarker hs hanswer⟩
  · trivial

omit hfinds in
theorem baseTypesOf_mem {owner base : Site} (howner : owner ∈ t.sites)
    (h : base ∈ baseTypesOf owner) : base ∈ t.sites := by
  rw [baseTypesOf] at h
  rcases hlist : owner.child? .baseList with _ | list
  · rw [hlist] at h
    cases h
  · rw [hlist] at h
    exact Site.children_mem (Site.child?_mem howner hlist) (List.mem_filter.1 h).1

theorem asked_class (h : f ∈ strategy.classFindings cx t) : f.Asked strategy cx t := by
  obtain ⟨owner, howner, h⟩ := List.mem_flatMap.1 h
  have hsite := hfinds.classes owner howner
  rcases List.mem_append.1 h with h | h
  · rcases mem_ofRemovals h with ⟨base, hbase, hanswer, rfl⟩ | ⟨failure, rfl⟩
    · exact ⟨baseTypesOf_mem hsite hbase, rfl, rfl, .baseTypeRemoval howner hbase hanswer⟩
    · trivial
  · rcases mem_ofAnswer h with ⟨proposals, hanswer, h⟩ | ⟨failure, rfl⟩
    · obtain ⟨proposal, hproposed, rfl⟩ := List.mem_map.1 h
      cases proposal with
      | baseType written type =>
        exact ⟨hsite, rfl, rfl, .baseTypeAddition howner hanswer hproposed⟩
      | marker written marker => exact ⟨hsite, rfl, rfl, .classMarker howner hanswer hproposed⟩
      | methodMarker method p =>
        exact fun s htarget => .methodMarker howner hanswer hproposed htarget
      | signature method p =>
        simp only [classFinding]
        split
        · rename_i target htarget
          exact ⟨(Tree.findSpan?_mem htarget).1,
            fun change => .classSignature change howner hanswer hproposed htarget⟩
        · trivial
    · trivial

theorem asked_member (h : f ∈ strategy.memberFindings cx t) : f.Asked strategy cx t := by
  rcases mem_ofRemovals h with ⟨s, hs, hanswer, rfl⟩ | ⟨failure, rfl⟩
  · exact ⟨hfinds.members s hs, rfl, rfl, .memberRemoval hs hanswer⟩
  · trivial

theorem asked_constructorParameter (h : f ∈ strategy.constructorParameterFindings cx t) :
    f.Asked strategy cx t := by
  rcases mem_ofRemovals h with ⟨s, hs, hanswer, rfl⟩ | ⟨failure, rfl⟩
  · exact ⟨hfinds.constructorParameters s hs, rfl, rfl, .parameterRemoval hs hanswer⟩
  · trivial

theorem asked_call (h : f ∈ strategy.callFindings cx t) : f.Asked strategy cx t := by
  rcases mem_ofProposals h with ⟨s, hs, proposal, hanswer, rfl⟩ | ⟨failure, rfl⟩
  · have hsite := hfinds.calls s hs
    cases proposal with
    | replacement written text => exact ⟨hsite, rfl, rfl, .callReplacement hs hanswer⟩
    | capture written captured body =>
      simp only [callFinding]
      split
      · rename_i statement htarget
        exact ⟨(Site.ancestorWhere?_mem hsite htarget).1, rfl, rfl,
          .exceptionCapture hs hanswer htarget⟩
      · trivial
  · trivial

theorem asked_container (h : f ∈ strategy.containerFindings cx t) : f.Asked strategy cx t := by
  rcases mem_ofProposals h with ⟨s, hs, p, hanswer, rfl⟩ | ⟨failure, rfl⟩
  · exact ⟨hfinds.containers s hs, hs, hanswer⟩
  · trivial

/-- Everything that is found on the tree is asked for. -/
theorem asked_of_mem_findings (h : f ∈ strategy.findings cx (.ofTree cx.model t) t) :
    f.Asked strategy cx t := by
  simp only [findings, List.mem_append] at h
  rcases h with (((((((h | h) | h) | h) | h) | h) | h) | h) | h
  · exact asked_assertion hfinds h
  · exact asked_marker hfinds h
  · exact asked_parameterMarker hfinds h
  · exact asked_missingMarker hfinds h
  · exact asked_class hfinds h
  · exact asked_member hfinds h
  · exact asked_constructorParameter hfinds h
  · exact asked_call hfinds h
  · exact asked_container hfinds h

theorem asked_visibility (h : f ∈ strategy.visibilityFindings cx t) : f.Asked strategy cx t := by
  obtain ⟨s, hs, h⟩ := List.mem_flatMap.1 h
  rcases mem_ofAnswer h with ⟨needed, hanswer, h⟩ | ⟨failure, rfl⟩
  · cases needed with
    | true =>
      obtain rfl := List.mem_singleton.1 h
      exact ⟨hfinds.methods s hs, fun change => .visibility change hs hanswer⟩
    | false => cases h
  · trivial

end Findings

end Strategy

/-! ## Methods that await -/

theorem Change.assertion?_eq_some_iff {c : Change} {change : AssertionChange} :
    c.assertion? = some change ↔ c = .assertion change := by
  cases c <;> simp [assertion?]

namespace Draft

section Awaiting

variable {source : String} {strategy : Strategy} {cx : Context} {t : Tree} {d : Draft}

/-- The method around the node with a tag is the one around the site that the tag belongs to. -/
theorem methodAround?_eq {w : Tree} {tag : Tag} {s : Site} (hw : w.root.Alike t.root)
    (hs : s ∈ t.sites) (honly : w.TaggedOnlyAt tag s.path) :
    methodAround? w tag = (s.function?.filter fun f =>
      f.kind == .methodDeclaration && !f.isLocalFunction).bind Site.span := by
  obtain ⟨n, hfound, hat⟩ := honly.findTagged
  have htwins : w.Twins t ⟨w, s.path, n⟩ s := ⟨Tree.mem_sites_of_at? hat, hs, rfl⟩
  have hfunction := htwins.ancestorWhere? hw Kind.isFunctionLike
  rw [methodAround?, hfound, Option.bind_some, Site.function?, Site.function?]
  generalize Site.ancestorWhere? _ Kind.isFunctionLike = x at hfunction
  generalize s.ancestorWhere? Kind.isFunctionLike = y at hfunction
  cases hfunction with
  | none => rfl
  | @some a b hab =>
    simp only [Option.filter_some, hab.kind_eq hw, hab.isLocalFunction_eq hw]
    split
    · exact hab.span_eq hw
    · rfl

/-- An assertion that awaits in a plan was proposed so, at a site where code can await. -/
theorem awaits_of_fit {fixed : InterfaceMethods} {s : Site} {change : AssertionChange}
    (h : (Strategy.fitAssertion cx fixed s change).awaits = true) :
    change.awaits = true ∧ canAwait cx.settings fixed s = true := by
  rw [Strategy.fitAssertion] at h
  split at h
  · cases h
  · rename_i hfits
    exact ⟨h, by simpa [h] using hfits⟩

theorem asked_assertion_iff {s : Site} {change : AssertionChange} :
    strategy.Asked cx t s (.assertion change) ↔ ∃ p, s ∈ strategy.findAssertions t ∧
      strategy.assertion cx s = .ok (some p) ∧
      change = Strategy.fitAssertion cx (.ofTree cx.model t) s p.change := by
  constructor
  · intro h
    cases h with
    | @assertion s p candidate answer => exact ⟨p, candidate, answer, rfl⟩
  · rintro ⟨p, hcandidate, hanswer, rfl⟩
    exact .assertion hcandidate hanswer

/-- What is found about the method at a span, once the method is known. -/
theorem asyncFinding?_eq (settings : Settings) (fixed : InterfaceMethods) {method : Site}
    {span : Span} (hmethod : t.findSpan? .methodDeclaration span = some method) :
    asyncFinding? settings fixed t span = (View.Method.of? method.node).bind fun view =>
      if view.node.hasModifier settings.asyncKeyword || fixed.hasSite method then none
      else
        match asyncReturn settings view with
        | .ok returnType =>
          some (.signature .signature method ⟨method.header, { addAsync := true, returnType }⟩)
        | .error e => some (Finding.ofFailure .signature method e.message) := by
  rw [asyncFinding?, hmethod]
  rfl

/-- It is a failure or a change of the method's header. -/
theorem asyncFinding?_cases {settings : Settings} {fixed : InterfaceMethods} {method : Site}
    {span : Span} {f : Finding} (hmethod : t.findSpan? .methodDeclaration span = some method)
    (h : asyncFinding? settings fixed t span = some f) :
    (∃ failure, f = .failure failure) ∨ ∃ proposal, f = .signature .signature method proposal := by
  rw [asyncFinding?_eq settings fixed hmethod] at h
  obtain ⟨view, -, h⟩ := Option.bind_eq_some_iff.1 h
  split at h
  · cases h
  · split at h
    · exact .inr ⟨_, (Option.some.inj h).symm⟩
    · exact .inl ⟨_, (Option.some.inj h).symm⟩

theorem asked_async (ht : t.ReadFrom source) (hd : Faithful strategy cx t d) {f : Finding}
    (h : f ∈ d.asyncFindings cx.settings (.ofTree cx.model t) t) : f.Asked strategy cx t := by
  obtain ⟨span, hspan, hfinding⟩ := List.mem_filterMap.1 h
  rw [awaitingMethods, List.mem_eraseDups] at hspan
  obtain ⟨r, hr, hspan⟩ := List.mem_filterMap.1 hspan
  split at hspan
  · rename_i hawaits
    obtain ⟨s, hs, -, hasked, hplaces⟩ := hd.placed r hr
    have honly := (hplaces r.tag s.path (List.mem_cons_self ..)).2
    rw [methodAround?_eq hd.alike hs honly] at hspan
    obtain ⟨method, hmethod, hspan⟩ := Option.bind_eq_some_iff.1 hspan
    obtain ⟨hfunction, hmember⟩ := Option.filter_eq_some_iff.1 hmethod
    simp only [Bool.and_eq_true, beq_iff_eq, Bool.not_eq_true'] at hmember
    have hsite := (Site.ancestorWhere?_mem hs hfunction).1
    have hfound := ht.findSpan?_self hsite hspan
    rw [hmember.1] at hfound
    rcases asyncFinding?_cases hfound hfinding with ⟨failure, rfl⟩ | ⟨proposal, rfl⟩
    · trivial
    · rcases hchange : r.change.assertion? with _ | change
      · simp [hchange] at hawaits
      · rw [Change.assertion?_eq_some_iff.1 hchange] at hasked
        obtain ⟨p, hcandidate, hanswer, rfl⟩ := asked_assertion_iff.1 hasked
        rw [hchange] at hawaits
        obtain ⟨hproposed, hfits⟩ := awaits_of_fit hawaits
        exact ⟨hsite, fun change => .asyncSignature change hcandidate hanswer hproposed hfits
          hfunction hmember.1 hmember.2⟩
  · cases hspan

end Awaiting

end Draft

/-! ## The tags of a plan -/

/-- Sorting by kind keeps every entry. -/
theorem RecordKind.perm_sorted {α : Type} [DecidableEq α] (kind : α → RecordKind) (xs : List α) :
    (all.flatMap fun k => xs.filter fun x => kind x == k).Perm xs := by
  rw [List.perm_iff_count]
  intro x
  have hcount : (List.count x ∘ fun k => xs.filter fun y => kind y == k) =
      fun k => if kind x = k then xs.count x else 0 := by
    funext k
    simp only [Function.comp_apply]
    split
    · rename_i h
      exact List.count_filter (by simpa using h)
    · rename_i h
      exact List.count_eq_zero.2 fun hmem => h (by simpa using (List.mem_filter.1 hmem).2)
  rw [List.count_flatMap, hcount]
  cases kind x <;> simp [all]

theorem Plan.perm_ordered (p : Plan) : p.ordered.Perm p.records :=
  RecordKind.perm_sorted Record.kind p.records

theorem Plan.perm_tags (p : Plan) : p.tags.Perm (p.records.flatMap Record.tags) := by
  have hsplit : ∀ rs : List Record,
      (rs.map Record.tag ++ rs.flatMap fun r => r.change.partTags).Perm (rs.flatMap Record.tags) := by
    intro rs
    induction rs with
    | nil => exact .refl _
    | cons r rs ih =>
      simp only [List.map_cons, List.flatMap_cons, List.cons_append, Record.tags]
      refine .cons _ ?_
      refine List.Perm.trans ?_ (ih.append_left r.change.partTags)
      rw [← List.append_assoc, ← List.append_assoc]
      exact List.perm_append_comm.append_right _
  exact (hsplit p.ordered).trans (p.perm_ordered.flatMap_right _)

/-! ## The run of an analysis -/

namespace Strategy

variable (strategy : Strategy) (cx : Context) (t : Tree)

/-- The draft that an analysis starts with. -/
def started : Draft :=
  { tree := t
    plan := { source := strategy.source, target := strategy.target,
              failures := (InterfaceMethods.ofTree cx.model t).failures }
    next := t.freshTag }

/-- The draft once everything is recorded that can be read off the tree. -/
def found : Draft :=
  (strategy.started cx t).addAll (strategy.findings cx (.ofTree cx.model t) t)

/-- The draft once the methods that await are recorded. -/
def signed : Draft :=
  (strategy.found cx t).addAll
    ((strategy.found cx t).asyncFindings cx.settings (.ofTree cx.model t) t)

/-- The draft once the methods that have to become public are recorded. -/
def finished : Draft :=
  (strategy.signed cx t).addAll (strategy.visibilityFindings cx t)

theorem analyze_eq : strategy.analyze cx t =
    ⟨((strategy.finished cx t).withImports strategy).tree,
      ((strategy.finished cx t).withImports strategy).plan⟩ :=
  rfl

theorem analyze_tree : (strategy.analyze cx t).tree = (strategy.finished cx t).tree := by
  rw [analyze_eq, Draft.withImports]
  split <;> rfl

theorem analyze_records :
    (strategy.analyze cx t).plan.records = (strategy.finished cx t).plan.records := by
  rw [analyze_eq, Draft.withImports]
  split <;> rfl

variable {strategy cx t} {source : String}

theorem faithful_started : Draft.Faithful strategy cx t (strategy.started cx t) where
  alike := rfl
  below _ _ h := Tree.lt_freshTag h
  fresh_le := Nat.le_refl _
  placed _ h := nomatch h
  nodup := List.nodup_nil
  entered _ _ h := nomatch h

theorem faithful_found (ht : t.ReadFrom source) (hfinds : strategy.FindsSites t) :
    Draft.Faithful strategy cx t (strategy.found cx t) :=
  faithful_started.addAll ht fun _ hf => asked_of_mem_findings hfinds hf

theorem faithful_signed (ht : t.ReadFrom source) (hfinds : strategy.FindsSites t) :
    Draft.Faithful strategy cx t (strategy.signed cx t) := by
  have hfound : Draft.Faithful strategy cx t (strategy.found cx t) := faithful_found ht hfinds
  exact hfound.addAll ht fun _ hf => Draft.asked_async ht hfound hf

theorem faithful_finished (ht : t.ReadFrom source) (hfinds : strategy.FindsSites t) :
    Draft.Faithful strategy cx t (strategy.finished cx t) :=
  (faithful_signed ht hfinds).addAll ht fun _ hf => asked_visibility hfinds hf

/-- What holds at the start of an analysis and is preserved by its steps holds at its end. -/
theorem finished_induction {P : Draft → Prop} (ht : t.ReadFrom source)
    (hfinds : strategy.FindsSites t)
    (hstep : ∀ d d', Draft.Faithful strategy cx t d → Draft.Step strategy cx t d d' → P d → P d')
    (hstart : P (strategy.started cx t)) : P (strategy.finished cx t) := by
  have hfound : P (strategy.found cx t) := (faithful_started.addAll_induction ht
    (fun _ hf => asked_of_mem_findings hfinds hf) hstep hstart).2
  have hsigned : P (strategy.signed cx t) := ((faithful_found ht hfinds).addAll_induction ht
    (fun _ hf => Draft.asked_async ht (faithful_found ht hfinds) hf) hstep hfound).2
  exact ((faithful_signed ht hfinds).addAll_induction ht
    (fun _ hf => asked_visibility hfinds hf) hstep hsigned).2

end Strategy

namespace Draft.Faithful

variable {strategy : Strategy} {cx : Context} {t : Tree} {d : Draft}

/-- A tag of a record is new, and on one node of the working copy. -/
theorem tag_unique (h : d.Faithful strategy cx t) {r : Record} (hr : r ∈ d.plan.records) {tag : Tag}
    (htag : tag ∈ r.tags) : t.countTagged tag = 0 ∧ d.tree.countTagged tag = 1 := by
  obtain ⟨s, -, -, hasked, hplaces⟩ := h.placed r hr
  rw [← hasked.map_places] at htag
  obtain ⟨⟨tag, p⟩, hmem, rfl⟩ := List.mem_map.1 htag
  obtain ⟨hfresh, honly⟩ := hplaces tag p hmem
  refine ⟨Tree.countTagged_eq_zero fun q hq => ?_, honly.countTagged⟩
  exact absurd (Tree.lt_freshTag hq) (Nat.not_lt.2 hfresh)

end Draft.Faithful

theorem Tree.TaggedOnlyAt.path_eq {t : Tree} {tag : Tag} {p : Path} (h : t.TaggedOnlyAt tag p) :
    (t.findTagged? tag).map Site.path = some p := by
  obtain ⟨n, hfound, -⟩ := h.findTagged
  rw [hfound]
  rfl

/-- A container's tags lead to its declared type and to its creation. -/
theorem Strategy.Asked.container_places {strategy : Strategy} {cx : Context} {t w : Tree} {s : Site}
    {r : Record} {change : ContainerChange} (hasked : strategy.Asked cx t s r.change)
    (hplaces : ∀ tag p, (tag, p) ∈ r.places s → w.TaggedOnlyAt tag p)
    (hchange : r.change = .container change) :
    (∀ tag, change.typeTag = some tag → (Draft.declarationOf? s).isSome ∧
      (w.findTagged? tag).map Site.path = some s.path) ∧
    ∀ tag, change.creationTag = some tag → ∃ creation,
      (Draft.declarationOf? s).bind Draft.creationOf? = some creation ∧
      (w.findTagged? tag).map Site.path = some creation.path := by
  rw [hchange] at hasked
  cases hasked with
  | container candidate answer declared created =>
    constructor
    · rintro tag rfl
      refine ⟨declared.symm, (hplaces tag s.path ?_).path_eq⟩
      simp [Record.places, hchange, Change.places]
    · rintro tag rfl
      obtain ⟨creation, hcreation⟩ := Option.isSome_iff_exists.1 created.symm
      refine ⟨creation, hcreation, (hplaces tag creation.path ?_).path_eq⟩
      simp [Record.places, hchange, Change.places, hcreation]

/-- Analysis of a tree that was read puts tags on the tree and changes nothing else. The tags of its
    plan are new, each is on exactly one node, and that is the node that its record was made for, or
    the declared type or creation of a container. No node with a token is refused a tag, in no copy
    of the tree that differs from it in tags only. -/
theorem analyze_annotates {source : String} {reading : Nat} {t : Tree}
    (hparse : Tree.parse source reading = .ok t) (strategy : Strategy)
    (hfinds : strategy.FindsSites t) (cx : Context) :
    let result := strategy.analyze cx t
    (result.tree.root.untagged = t.root.untagged ∧ result.tree.source = source) ∧
    (result.plan.tags.Nodup ∧
      ∀ tag ∈ result.plan.tags, t.countTagged tag = 0 ∧ result.tree.countTagged tag = 1) ∧
    (∀ r ∈ result.plan.records, ∃ s ∈ t.sites, strategy.Asked cx t s r.change ∧
      (result.tree.findTagged? r.tag).map Site.path = some s.path ∧
      ∀ change, r.change = .container change →
        (∀ tag, change.typeTag = some tag → (Draft.declarationOf? s).isSome ∧
          (result.tree.findTagged? tag).map Site.path = some s.path) ∧
        ∀ tag, change.creationTag = some tag → ∃ creation,
          (Draft.declarationOf? s).bind Draft.creationOf? = some creation ∧
          (result.tree.findTagged? tag).map Site.path = some creation.path) ∧
    ∀ w : Tree, w.root.untagged = t.root.untagged → ∀ s ∈ t.sites, s.node.tokens ≠ [] → ∀ tag,
      ∃ w', Draft.attach w s tag = .ok w' ∧ w'.root.untagged = t.root.untagged := by
  have ht := Tree.readFrom_of_parse hparse
  have hd : Draft.Faithful strategy cx t (strategy.finished cx t) :=
    Strategy.faithful_finished ht hfinds
  have htree := strategy.analyze_tree cx t
  have hrecords := strategy.analyze_records cx t
  intro result
  -- The plan has the tags of its records, in another order.
  have hperm := result.plan.perm_tags
  rw [hrecords] at hperm
  refine ⟨⟨?_, ?_⟩, ⟨hperm.nodup_iff.2 hd.nodup, ?_⟩, ?_, ?_⟩
  · rw [htree]
    exact hd.alike
  · rw [htree, Tree.source, Node.source, hd.alike.tokens_eq]
    exact ht.source_eq
  · intro tag htag
    obtain ⟨r, hr, htag⟩ := List.mem_flatMap.1 (hperm.mem_iff.1 htag)
    rw [htree]
    exact hd.tag_unique hr htag
  · intro r hr
    rw [hrecords] at hr
    obtain ⟨s, hs, -, hasked, hplaces⟩ := hd.placed r hr
    have honly : ∀ tag p, (tag, p) ∈ r.places s → result.tree.TaggedOnlyAt tag p :=
      fun tag p hmem => htree ▸ (hplaces tag p hmem).2
    exact ⟨s, hs, hasked, (honly _ _ (List.mem_cons_self ..)).path_eq,
      fun change hchange => hasked.container_places honly hchange⟩
  · intro w hw s hs hne tag
    obtain ⟨w', hok, hgains⟩ := Draft.attach_eq_ok ht hw hs hne tag
    exact ⟨w', hok, hgains.alike.trans hw⟩

/-- The candidates of the frameworks are nodes of the tree. -/
theorem Framework.findsSites (f : Framework) (t : Tree) : f.strategy.FindsSites t := by
  have hfilter : ∀ {wanted : Site → Bool} (s : Site), s ∈ t.sitesWhere wanted → s ∈ t.sites :=
    fun s hs => (List.mem_filter.1 hs).1
  cases f <;>
    exact ⟨hfilter, hfilter, hfilter, hfilter, hfilter, hfilter, hfilter, hfilter, hfilter⟩

theorem analyze_annotates_sample :
    ∃ t, Tree.parse "using Xunit; class T \x7b [Fact] void A() \x7b Assert.True(b); \x7d \x7d" = .ok t ∧
      ∃ result, result = Framework.xUnit.strategy.analyze
          ⟨(SourceModel.build t Framework.xUnit.catalog).toSemanticModel, {}⟩ t ∧
        result.plan.tags.length = 3 ∧ result.plan.tags.Nodup ∧
        ∀ tag ∈ result.plan.tags, t.countTagged tag = 0 ∧ result.tree.countTagged tag = 1 := by
  have hlength : (Tree.parse
      "using Xunit; class T \x7b [Fact] void A() \x7b Assert.True(b); \x7d \x7d").toOption.map
      (fun t => (Framework.xUnit.strategy.analyze
        ⟨(SourceModel.build t Framework.xUnit.catalog).toSemanticModel, {}⟩ t).plan.tags.length)
      = some 3 := by
    decide +kernel
  rcases hparse : Tree.parse
    "using Xunit; class T \x7b [Fact] void A() \x7b Assert.True(b); \x7d \x7d" with e | t
  · rw [hparse] at hlength
    cases hlength
  · rw [hparse] at hlength
    obtain ⟨-, ⟨hnodup, hunique⟩, -, -⟩ := analyze_annotates hparse Framework.xUnit.strategy
      (Framework.xUnit.findsSites t)
      ⟨(SourceModel.build t Framework.xUnit.catalog).toSemanticModel, {}⟩
    exact ⟨t, rfl, _, rfl, Option.some.inj hlength, hnodup, hunique⟩

end Recast
