-- SUMMARY: What a draft goes through while findings are recorded: every record has a tag of its own on the node it was made for.
import Recast.Proofs.Tree.Spans

/-! # Recording findings

`Strategy.Asked` says which change a strategy asks for at which site of a tree, hook by hook.
`Draft.Step` says all that recording one finding can do to a draft, and `Draft.Faithful` is what
every step preserves: the working copy is the tree with tags, and the tags of each record are on
the nodes that the record was made for and on no others. -/

namespace Recast

/-! ## Attaching tags -/

namespace Draft

section Attach

variable {source : String} {t w w' : Tree} (ht : t.ReadFrom source) (hw : w.root.Alike t.root)

include ht hw

theorem attachAt_eq_ok {s : Site} {S : Span} (hs : s ∈ t.sites) (hS : s.span = some S)
    (tag : Tag) : ∃ w', attachAt w s.kind S tag = .ok w' ∧ w.Gains [(tag, s.path)] w' := by
  obtain ⟨-, hat⟩ := Tree.mem_sites_iff.1 hs
  obtain ⟨m, hfound, hm, -⟩ := ht.findSpan?_eq hw hat hS
  obtain ⟨w', hok, hgains⟩ := Tree.tag_eq_ok hm tag
  refine ⟨w', ?_, hgains⟩
  have hfound' : w.findSpan? s.kind S = some ⟨w, s.path, m⟩ := hfound
  simp only [attachAt, hfound', hok]
  rfl

/-- A node that holds a token gets its tag. -/
theorem attach_eq_ok {s : Site} (hs : s ∈ t.sites) (hne : s.node.tokens ≠ []) (tag : Tag) :
    ∃ w', attach w s tag = .ok w' ∧ w.Gains [(tag, s.path)] w' := by
  obtain ⟨-, hat⟩ := Tree.mem_sites_iff.1 hs
  obtain ⟨S, hS⟩ := ht.exists_span hat hne
  have hS' : s.span = some S := hS
  rw [attach, hS']
  exact attachAt_eq_ok ht hw hs hS tag

omit ht hw in
theorem span_of_attach {s : Site} {tag : Tag} (h : attach w s tag = .ok w') :
    ∃ S, s.span = some S := by
  rcases hS : s.span with _ | S
  · rw [attach, hS] at h
    cases h
  · exact ⟨S, rfl⟩

theorem gains_of_attach {s : Site} {tag : Tag} (hs : s ∈ t.sites)
    (h : attach w s tag = .ok w') : w.Gains [(tag, s.path)] w' := by
  obtain ⟨S, hS⟩ := span_of_attach h
  rw [attach, hS] at h
  obtain ⟨w'', hok, hgains⟩ := attachAt_eq_ok ht hw hs hS tag
  obtain rfl := Except.ok.inj (hok.symm.trans h)
  exact hgains

/-- A tag put on the node of a kind and span is on the node that the tree itself has there. -/
theorem gains_of_attachAt {kind : Kind} {S : Span} {tag : Tag} (h : attachAt w kind S tag = .ok w') :
    ∃ s, t.findSpan? kind S = some s ∧ s ∈ t.sites ∧ w.Gains [(tag, s.path)] w' := by
  rcases hfound : w.findSpan? kind S with _ | target
  · rw [attachAt, hfound] at h
    cases h
  · obtain ⟨hmem, hkind, hspan⟩ := Tree.findSpan?_mem hfound
    obtain ⟨-, hm⟩ := Tree.mem_sites_iff.1 hmem
    obtain ⟨n, hn, halike⟩ := Node.Alike.at? hw hm
    have hs := Tree.mem_sites_of_at? hn
    have hS : n.span = some S := halike.span_eq.symm.trans hspan
    have hkind : n.kind = kind := halike.kind_eq.symm.trans hkind
    obtain ⟨m, hself, hm, -⟩ := ht.findSpan?_eq rfl hn hS
    obtain rfl : n = m := by simpa [hn] using hm
    obtain ⟨w'', hok, hgains⟩ := attachAt_eq_ok ht hw hs hS tag
    have hok' : attachAt w kind S tag = .ok w'' := hkind ▸ hok
    obtain rfl := Except.ok.inj (hok'.symm.trans h)
    exact ⟨_, hkind ▸ hself, hs, hgains⟩

end Attach

end Draft

/-! ## What a strategy asks for -/

namespace Strategy

/-- The candidates of a strategy are nodes of the tree. -/
structure FindsSites (strategy : Strategy) (t : Tree) : Prop where
  assertions : ∀ s ∈ strategy.findAssertions t, s ∈ t.sites
  markers : ∀ s ∈ strategy.findMarkers t, s ∈ t.sites
  parameterMarkers : ∀ s ∈ strategy.findParameterMarkers t, s ∈ t.sites
  methods : ∀ s ∈ strategy.findMethods t, s ∈ t.sites
  classes : ∀ s ∈ strategy.findClasses t, s ∈ t.sites
  members : ∀ s ∈ strategy.findMembers t, s ∈ t.sites
  constructorParameters : ∀ s ∈ strategy.findConstructorParameters t, s ∈ t.sites
  calls : ∀ s ∈ strategy.findCalls t, s ∈ t.sites
  containers : ∀ s ∈ strategy.findContainers t, s ∈ t.sites

/-- The creation that the tags of a container refer to. -/
def creationAt? (s : Site) : Option Site :=
  (Draft.declarationOf? s).bind Draft.creationOf?

/-- The change that a strategy asks for at a site of a tree, hook by hook: at the candidate; for an
    exception capture at the first local declaration around it; for a method that a type asks for
    by its span, at that method; and for the header of a method that awaits, at that method. -/
inductive Asked (strategy : Strategy) (cx : Context) (t : Tree) : Site → Change → Prop where
  | assertion {s : Site} {p : Proposal AssertionChange}
      (candidate : s ∈ strategy.findAssertions t) (answer : strategy.assertion cx s = .ok (some p)) :
      Asked strategy cx t s (.assertion (fitAssertion cx (.ofTree cx.model t) s p.change))
  | markerRemoval {s : Site} (candidate : s ∈ strategy.findMarkers t)
      (answer : strategy.removesMarker cx s = .ok true) : Asked strategy cx t s .markerRemoval
  | marker {s : Site} {p : Proposal MarkerChange} (candidate : s ∈ strategy.findMarkers t)
      (stays : strategy.removesMarker cx s = .ok false)
      (answer : strategy.marker cx s = .ok (some p)) : Asked strategy cx t s (.marker p.change)
  | parameterMarker {s : Site} {p : Proposal (String × ArgumentEdit)}
      (candidate : s ∈ strategy.findParameterMarkers t)
      (answer : strategy.parameterMarker cx s = .ok (some p)) :
      Asked strategy cx t s (.parameterMarker p.change.1 p.change.2)
  | missingMarker {s : Site} {p : Proposal MarkedMethod} (candidate : s ∈ strategy.findMethods t)
      (answer : strategy.missingMarker cx s = .ok (some p)) :
      Asked strategy cx t s (.methodMarker p.change.marker p.change.returnType)
  | baseTypeRemoval {owner base : Site} (candidate : owner ∈ strategy.findClasses t)
      (listed : base ∈ baseTypesOf owner) (answer : strategy.removesBaseType cx base = .ok true) :
      Asked strategy cx t base (.baseTypeRemoval (baseTypeName base))
  | baseTypeAddition {s : Site} {proposals : List ClassProposal} {written type : String}
      (candidate : s ∈ strategy.findClasses t) (answer : strategy.classes cx s = .ok proposals)
      (proposed : .baseType written type ∈ proposals) :
      Asked strategy cx t s (.baseTypeAddition type)
  | classMarker {s : Site} {proposals : List ClassProposal} {written marker : String}
      (candidate : s ∈ strategy.findClasses t) (answer : strategy.classes cx s = .ok proposals)
      (proposed : .marker written marker ∈ proposals) : Asked strategy cx t s (.classMarker marker)
  | methodMarker {owner s : Site} {proposals : List ClassProposal} {method : Span}
      {p : Proposal MarkedMethod} (candidate : owner ∈ strategy.findClasses t)
      (answer : strategy.classes cx owner = .ok proposals)
      (proposed : .methodMarker method p ∈ proposals)
      (target : t.findSpan? .methodDeclaration method = some s) :
      Asked strategy cx t s (.methodMarker p.change.marker p.change.returnType)
  | classSignature {owner s : Site} {proposals : List ClassProposal} {method : Span}
      {p : Proposal SignatureChange} (change : SignatureChange)
      (candidate : owner ∈ strategy.findClasses t)
      (answer : strategy.classes cx owner = .ok proposals)
      (proposed : .signature method p ∈ proposals)
      (target : t.findSpan? .methodDeclaration method = some s) :
      Asked strategy cx t s (.signature change)
  | asyncSignature {call s : Site} {p : Proposal AssertionChange} (change : SignatureChange)
      (candidate : call ∈ strategy.findAssertions t)
      (answer : strategy.assertion cx call = .ok (some p)) (awaits : p.change.awaits = true)
      (fits : canAwait cx.settings (.ofTree cx.model t) call = true)
      (target : call.function? = some s) (isMethod : s.kind = .methodDeclaration)
      (isMember : s.isLocalFunction = false) : Asked strategy cx t s (.signature change)
  | visibility {s : Site} (change : SignatureChange) (candidate : s ∈ strategy.findMethods t)
      (answer : strategy.makesPublic cx s = .ok true) : Asked strategy cx t s (.signature change)
  | memberRemoval {s : Site} (candidate : s ∈ strategy.findMembers t)
      (answer : strategy.removesMember cx s = .ok true) :
      Asked strategy cx t s (.memberRemoval (memberName s))
  | parameterRemoval {s : Site} (candidate : s ∈ strategy.findConstructorParameters t)
      (answer : strategy.removesConstructorParameter cx s = .ok true) :
      Asked strategy cx t s (parameterRemoval s)
  | callReplacement {s : Site} {written text : String} (candidate : s ∈ strategy.findCalls t)
      (answer : strategy.call cx s = .ok (some (.replacement written text))) :
      Asked strategy cx t s (.callReplacement text)
  | exceptionCapture {s statement : Site} {written captured body : String}
      (candidate : s ∈ strategy.findCalls t)
      (answer : strategy.call cx s = .ok (some (.capture written captured body)))
      (target : s.ancestor? .localDeclarationStatement = some statement) :
      Asked strategy cx t statement (.exceptionCapture captured body)
  | container {s : Site} {p : ContainerProposal} {typeTag creationTag : Option Tag}
      (candidate : s ∈ strategy.findContainers t) (answer : strategy.container cx s = .ok (some p))
      (declared : typeTag.isSome = (Draft.declarationOf? s).isSome)
      (created : creationTag.isSome = (creationAt? s).isSome) :
      Asked strategy cx t s (.container ⟨p.element, p.container, typeTag, creationTag⟩)

/-- A header may be asked for in any form: what is asked for is merged in the end. -/
theorem Asked.signature {strategy : Strategy} {cx : Context} {t : Tree} {s : Site}
    {change : SignatureChange} (h : Asked strategy cx t s (.signature change))
    (other : SignatureChange) : Asked strategy cx t s (.signature other) := by
  cases h with
  | classSignature change candidate answer proposed target =>
    exact .classSignature other candidate answer proposed target
  | asyncSignature change candidate answer awaits fits target isMethod isMember =>
    exact .asyncSignature other candidate answer awaits fits target isMethod isMember
  | visibility change candidate answer => exact .visibility other candidate answer

end Strategy

/-! ## Where the tags of a record belong -/

/-- Where the tags of a change besides that of its record belong, for a change at a site: that of a
    declared type at the site, that of a creation at the creation. -/
def Change.places (s : Site) : Change → List (Tag × Path)
  | .container change =>
    (change.typeTag.toList.map fun tag => (tag, s.path)) ++
      (Strategy.creationAt? s).toList.flatMap fun creation =>
        change.creationTag.toList.map fun tag => (tag, creation.path)
  | _ => []

namespace Record

/-- The tags of a record: its own, then those of its parts. -/
def tags (r : Record) : List Tag :=
  r.tag :: r.change.partTags

/-- Where the tags of a record for a site belong. -/
def places (s : Site) (r : Record) : List (Tag × Path) :=
  (r.tag, s.path) :: r.change.places s

end Record

theorem Strategy.Asked.places_eq {strategy : Strategy} {cx : Context} {t : Tree} {s : Site}
    {change : Change} (h : strategy.Asked cx t s change) :
    (change.places s).map Prod.fst = change.partTags := by
  cases h with
  | @container s p typeTag creationTag candidate answer declared created =>
    simp only [Change.places, Change.partTags, List.map_append, List.map_map]
    rcases hcreation : creationAt? s with _ | creation
    · rw [hcreation] at created
      obtain rfl : creationTag = none := by simpa using created
      simp [Function.comp_def]
    · simp [Function.comp_def]
  | _ => rfl

theorem Strategy.Asked.map_places {strategy : Strategy} {cx : Context} {t : Tree} {s : Site}
    {r : Record} (h : strategy.Asked cx t s r.change) : (r.places s).map Prod.fst = r.tags := by
  rw [Record.places, Record.tags, List.map_cons, h.places_eq]

/-! ## Steps -/

/-- A finding that a strategy asks for. -/
def Finding.Asked (strategy : Strategy) (cx : Context) (t : Tree) : Finding → Prop
  | .failure _ => True
  | .change _ s _ asked =>
    s ∈ t.sites ∧ asked.partTags = [] ∧ asked.signature? = none ∧ strategy.Asked cx t s asked
  | .methodMarker _ method p => ∀ s, t.findSpan? .methodDeclaration method = some s →
    strategy.Asked cx t s (.methodMarker p.change.marker p.change.returnType)
  | .signature _ s _ => s ∈ t.sites ∧ ∀ change, strategy.Asked cx t s (.signature change)
  | .container s p =>
    s ∈ t.sites ∧ s ∈ strategy.findContainers t ∧ strategy.container cx s = .ok (some p)

namespace Draft

/-- What recording a finding can do to a draft: note a failure, merge a change of a header into the
    record that the method has, or add a record whose tags are new and are put where they belong. A
    record of a header is entered under the span of its method. -/
inductive Step (strategy : Strategy) (cx : Context) (t : Tree) (d : Draft) : Draft → Prop where
  | failed (failure : Failure) : Step strategy cx t d { d with plan := d.plan.fail failure }
  | merged {s : Site} {span : Span} {tag : Tag} (change : SignatureChange) (site : s ∈ t.sites)
      (span_eq : s.span = some span) (known : d.signatures.lookup span = some tag) :
      Step strategy cx t d
        { d with plan := { d.plan with records := d.plan.records.map (mergeInto tag change) } }
  | recorded {s : Site} {r : Record} {w : Tree} {next : Nat} {signatures : List (Span × Tag)}
      (site : s ∈ t.sites) (spanned : ∃ S, s.span = some S)
      (asked : strategy.Asked cx t s r.change) (gains : d.tree.Gains (r.places s) w)
      (nodup : r.tags.Nodup) (fresh : ∀ tag ∈ r.tags, d.next ≤ tag.id ∧ tag.id < next)
      (le_next : d.next ≤ next)
      (entry : signatures = d.signatures ∨ ∃ span change, r.change = .signature change ∧
        s.span = some span ∧ signatures = d.signatures ++ [(span, r.tag)]) :
      Step strategy cx t d { tree := w, plan := d.plan.push r, next, signatures }

section Steps

variable {source : String} {strategy : Strategy} {cx : Context} {t : Tree} {d : Draft}
  (ht : t.ReadFrom source) (hd : d.tree.root.Alike t.root)

omit ht hd in
/-- A record with one tag. -/
theorem step_keep {s : Site} {w : Tree} {written : String} {change : Change} (hs : s ∈ t.sites)
    (hspan : ∃ S, s.span = some S) (hasked : strategy.Asked cx t s change)
    (hparts : change.partTags = [])
    (hgains : d.tree.Gains [(⟨d.next⟩, s.path)] w) :
    Step strategy cx t d (d.keep w written change) := by
  have hplaces : change.places s = [] := List.map_eq_nil_iff.1 (hasked.places_eq.trans hparts)
  refine .recorded (s := s) (r := ⟨⟨d.next⟩, written, change⟩) hs hspan hasked ?_ ?_ ?_
    (Nat.le_succ _) (.inl rfl)
  · rw [Record.places, hplaces]
    exact hgains
  · simp [Record.tags, hparts]
  · simp [Record.tags, hparts]

include ht hd

omit ht hd in
theorem creationAt?_mem {s creation : Site} (hs : s ∈ t.sites)
    (h : Strategy.creationAt? s = some creation) : creation ∈ t.sites := by
  obtain ⟨declaration, hdeclaration, hcreation⟩ := Option.bind_eq_some_iff.1 h
  have hmem : declaration ∈ t.sites := by
    obtain ⟨parent, hparent, hdeclaration⟩ := Option.bind_eq_some_iff.1 hdeclaration
    have hparent := Site.parent?_mem hs hparent
    split at hdeclaration
    · obtain ⟨-, -, rfl⟩ := Option.map_eq_some_iff.1 hdeclaration
      exact hparent
    · obtain rfl := Option.some.inj hdeclaration
      exact hparent
    · obtain rfl := Option.some.inj hdeclaration
      exact hparent
    · cases hdeclaration
  obtain ⟨hvalue, -⟩ := Option.filter_eq_some_iff.1 hcreation
  obtain ⟨clause, hclause, hfirst⟩ := Option.bind_eq_some_iff.1 hvalue
  refine Site.firstChild?_mem ?_ hfirst
  split at hclause
  · obtain ⟨declarator, hdeclarator, hchild⟩ := List.exists_of_findSome?_eq_some hclause
    have hdeclarator := Site.children_mem hmem (List.mem_filter.1 hdeclarator).1
    exact Site.child?_mem hdeclarator hchild
  · exact Site.child?_mem hmem hclause
  · cases hclause

/-- The tags of a container go where they belong. -/
theorem gains_of_attachContainer {s : Site} {proposal : ContainerProposal} {w : Tree}
    {first : Nat} {change : ContainerChange} (hs : s ∈ t.sites)
    (h : attachContainer d.tree first s proposal = .ok (w, change)) :
    d.tree.Gains ((⟨first⟩, s.path) :: (Change.container change).places s) w ∧
      change = ⟨proposal.element, proposal.container,
        (declarationOf? s).map fun _ => ⟨first + 1⟩,
        (Strategy.creationAt? s).map fun _ => ⟨first + 2⟩⟩ := by
  -- One tag for the container, one for its declaration and one for its creation.
  obtain ⟨w₁, hw₁, h⟩ := ok_of_bind h
  have hgains₁ := gains_of_attach ht hd hs hw₁
  have halike₁ := hgains₁.alike.trans hd
  rcases hdeclaration : declarationOf? s with _ | declaration
  · have hnone : Strategy.creationAt? s = none := by
      rw [Strategy.creationAt?, hdeclaration]
      rfl
    simp only [hdeclaration, Option.bind_none, pure_bind] at h
    obtain ⟨rfl, rfl⟩ := Prod.mk.inj (Except.ok.inj h)
    exact ⟨by simpa [Change.places, hnone] using hgains₁, by rw [hnone]; rfl⟩
  · simp only [hdeclaration, Option.bind_some, pure_bind] at h
    obtain ⟨w₂, hw₂, h⟩ := ok_of_bind h
    have hgains₂ := hgains₁.append (gains_of_attach ht halike₁ hs hw₂)
    have halike₂ := hgains₂.alike.trans hd
    have hat : Strategy.creationAt? s = creationOf? declaration := by
      rw [Strategy.creationAt?, hdeclaration]
      rfl
    rcases hcreation : creationOf? declaration with _ | creation
    · simp only [hcreation] at h
      obtain ⟨rfl, rfl⟩ := Prod.mk.inj (Except.ok.inj h)
      rw [hcreation] at hat
      exact ⟨by simpa [Change.places, hat] using hgains₂, by rw [hat]; rfl⟩
    · simp only [hcreation] at h
      obtain ⟨w₃, hw₃, h⟩ := ok_of_bind h
      obtain ⟨rfl, rfl⟩ := Prod.mk.inj (Except.ok.inj h)
      rw [hcreation] at hat
      have hgains₃ := hgains₂.append
        (gains_of_attach ht halike₂ (creationAt?_mem hs hat) hw₃)
      exact ⟨by simpa [Change.places, hat] using hgains₃, by rw [hat]; rfl⟩

theorem step_record {topic : Topic} {s : Site} {written : String} {change : Change}
    (hs : s ∈ t.sites) (hasked : strategy.Asked cx t s change) (hparts : change.partTags = []) :
    Step strategy cx t d (d.record topic s written change) := by
  rw [record]
  split
  · rename_i w hattach
    exact step_keep hs (span_of_attach hattach) hasked hparts (gains_of_attach ht hd hs hattach)
  · exact .failed _

theorem step_sign {topic : Topic} {s : Site} {proposal : Proposal SignatureChange}
    (hs : s ∈ t.sites) (hasked : ∀ change, strategy.Asked cx t s (.signature change)) :
    Step strategy cx t d (d.sign topic s proposal) := by
  rw [sign]
  split
  · exact .failed _
  · rename_i span hspan
    split
    · rename_i tag htag
      exact .merged proposal.change hs hspan htag
    · split
      · rename_i w hattach
        refine .recorded (s := s) (r := ⟨⟨d.next⟩, proposal.written, .signature proposal.change⟩) hs
          ⟨span, hspan⟩ (hasked _) (gains_of_attach ht hd hs hattach) ?_ ?_ (Nat.le_succ _)
          (.inr ⟨span, proposal.change, rfl, hspan, rfl⟩)
        · simp [Record.tags, Change.partTags]
        · simp [Record.tags, Change.partTags, keep]
      · exact .failed _

theorem step_reshape {s : Site} {proposal : ContainerProposal} (hs : s ∈ t.sites)
    (hcandidate : s ∈ strategy.findContainers t)
    (hanswer : strategy.container cx s = .ok (some proposal)) :
    Step strategy cx t d (d.reshape s proposal) := by
  rw [reshape]
  split
  · rename_i w change hattach
    obtain ⟨hgains, rfl⟩ := gains_of_attachContainer ht hd hs hattach
    obtain ⟨w₁, hfirst, -⟩ := ok_of_bind hattach
    refine .recorded (s := s) (r := ⟨⟨d.next⟩, s.text, .container _⟩) hs (span_of_attach hfirst)
      (.container hcandidate hanswer (by simp) (by simp)) hgains ?_ ?_ (Nat.le_add_right ..)
      (.inl rfl)
    · rcases declarationOf? s with _ | _ <;> rcases Strategy.creationAt? s with _ | _ <;>
        simp [Record.tags, Change.partTags]
    · rcases declarationOf? s with _ | _ <;> rcases Strategy.creationAt? s with _ | _ <;>
        simp [Record.tags, Change.partTags]
  · exact .failed _

/-- Recording a finding that is asked for is a step. -/
theorem step_add {f : Finding} (hf : f.Asked strategy cx t) : Step strategy cx t d (d.add f) := by
  cases f with
  | failure failure => exact .failed failure
  | change topic s written change =>
    obtain ⟨hs, hparts, -, hasked⟩ := hf
    exact step_record ht hd hs hasked hparts
  | signature topic s proposal =>
    obtain ⟨hs, hasked⟩ := hf
    exact step_sign ht hd hs hasked
  | container s proposal =>
    obtain ⟨hs, hcandidate, hanswer⟩ := hf
    exact step_reshape ht hd hs hcandidate hanswer
  | methodMarker owner method proposal =>
    simp only [add]
    split
    · rename_i w hattach
      obtain ⟨s, htarget, hs, hgains⟩ := gains_of_attachAt ht hd hattach
      exact step_keep hs ⟨method, (Tree.findSpan?_mem htarget).2.2⟩ (hf s htarget) rfl hgains
    · exact .failed _

end Steps

/-! ## What every step preserves -/

/-- A merge changes a record of a header, and neither its tag nor anything else. -/
theorem mergeInto_cases (tag : Tag) (change : SignatureChange) (r : Record) :
    mergeInto tag change r = r ∨ ∃ first, r.change = .signature first ∧ r.tag = tag ∧
      mergeInto tag change r = { r with change := .signature (first.merge change) } := by
  rw [mergeInto]
  split
  · rename_i first hfirst
    split
    · rename_i htag
      exact .inr ⟨first, hfirst, htag, rfl⟩
    · exact .inl rfl
  · exact .inl rfl

theorem tags_mergeInto (tag : Tag) (change : SignatureChange) (r : Record) :
    (mergeInto tag change r).tags = r.tags := by
  rcases mergeInto_cases tag change r with h | ⟨first, hfirst, -, h⟩
  · rw [h]
  · rw [h, Record.tags, Record.tags, hfirst]
    rfl

/-- What holds of every draft that an analysis of the tree goes through. -/
structure Faithful (strategy : Strategy) (cx : Context) (t : Tree) (d : Draft) : Prop where
  alike : d.tree.root.Alike t.root
  below : ∀ q, ∀ tag ∈ d.tree.root.tagsAt q, tag.id < d.next
  fresh_le : t.freshTag ≤ d.next
  /-- The tags of a record are new and stand where they belong, and only there. -/
  placed : ∀ r ∈ d.plan.records, ∃ s ∈ t.sites, (∃ S, s.span = some S) ∧
    strategy.Asked cx t s r.change ∧
    ∀ tag p, (tag, p) ∈ r.places s → t.freshTag ≤ tag.id ∧ d.tree.TaggedOnlyAt tag p
  nodup : (d.plan.records.flatMap Record.tags).Nodup
  /-- A method that is entered has a record of its header. -/
  entered : ∀ span tag, (span, tag) ∈ d.signatures → ∃ r ∈ d.plan.records, r.tag = tag ∧
    (∃ change, r.change = .signature change) ∧
    ∃ s ∈ t.sites, s.span = some span ∧ d.tree.TaggedOnlyAt tag s.path

section Preservation

variable {strategy : Strategy} {cx : Context} {t : Tree} {d d' : Draft}

theorem Faithful.lt_next (h : Faithful strategy cx t d) {r : Record} (hr : r ∈ d.plan.records)
    {tag : Tag} (htag : tag ∈ r.tags) : tag.id < d.next := by
  obtain ⟨s, -, -, hasked, hplaces⟩ := h.placed r hr
  rw [← hasked.map_places] at htag
  obtain ⟨⟨tag, p⟩, hmem, rfl⟩ := List.mem_map.1 htag
  exact h.below p tag (((hplaces tag p hmem).2 p).2 rfl)

theorem Faithful.merged (h : Faithful strategy cx t d) (tag : Tag) (change : SignatureChange) :
    Faithful strategy cx t
      { d with plan := { d.plan with records := d.plan.records.map (mergeInto tag change) } } := by
  refine ⟨h.alike, h.below, h.fresh_le, ?_, ?_, ?_⟩
  · -- Merging changes what is asked for at a record, not its tags or places.
    intro r' hr'
    obtain ⟨r, hr, rfl⟩ := List.mem_map.1 hr'
    obtain ⟨s, hs, hspan, hasked, hplaces⟩ := h.placed r hr
    rcases mergeInto_cases tag change r with heq | ⟨first, hfirst, -, heq⟩
    · rw [heq]
      exact ⟨s, hs, hspan, hasked, hplaces⟩
    · rw [heq]
      rw [hfirst] at hasked
      refine ⟨s, hs, hspan, hasked.signature _, ?_⟩
      rw [Record.places, hfirst] at hplaces
      exact hplaces
  · rw [List.flatMap_map]
    simp only [tags_mergeInto]
    exact h.nodup
  · intro span tag' hentry
    obtain ⟨r, hr, htag, hsignature, hsite⟩ := h.entered span tag' hentry
    refine ⟨mergeInto tag change r, List.mem_map_of_mem hr, ?_, ?_, hsite⟩
    · rcases mergeInto_cases tag change r with heq | ⟨first, -, -, heq⟩
      · rw [heq, htag]
      · rw [heq]
        exact htag
    · rcases mergeInto_cases tag change r with heq | ⟨first, -, -, heq⟩
      · rw [heq]
        exact hsignature
      · rw [heq]
        exact ⟨_, rfl⟩

/-- Tags below the number of the next one are not among those of a new record. -/
theorem not_mem_new {r : Record} {next : Nat} (hfresh : ∀ tag ∈ r.tags, d.next ≤ tag.id ∧ tag.id < next)
    {tag : Tag} (hlt : tag.id < d.next) : tag ∉ r.tags := by
  intro hmem
  have := (hfresh tag hmem).1
  omega

/-- The tags of a new record leave those of the others where they are. -/
theorem Faithful.onlyAt_recorded (h : Faithful strategy cx t d) {s : Site} {r : Record} {w : Tree}
    {next : Nat} (hasked : strategy.Asked cx t s r.change) (hgains : d.tree.Gains (r.places s) w)
    (hfresh : ∀ tag ∈ r.tags, d.next ≤ tag.id ∧ tag.id < next) {tag : Tag} {p : Path}
    (hold : d.tree.TaggedOnlyAt tag p) : w.TaggedOnlyAt tag p := by
  refine hgains.onlyAt_old hold ?_
  rw [hasked.map_places]
  exact not_mem_new hfresh (h.below p tag ((hold p).2 rfl))

theorem Faithful.recorded (h : Faithful strategy cx t d) {s : Site} {r : Record} {w : Tree}
    {next : Nat} {signatures : List (Span × Tag)} (hs : s ∈ t.sites)
    (hspanned : ∃ S, s.span = some S) (hasked : strategy.Asked cx t s r.change)
    (hgains : d.tree.Gains (r.places s) w)
    (hnodup : r.tags.Nodup) (hfresh : ∀ tag ∈ r.tags, d.next ≤ tag.id ∧ tag.id < next)
    (hnext : d.next ≤ next)
    (hentry : signatures = d.signatures ∨ ∃ span change, r.change = .signature change ∧
      s.span = some span ∧ signatures = d.signatures ++ [(span, r.tag)]) :
    Faithful strategy cx t { tree := w, plan := d.plan.push r, next, signatures } := by
  have hnew : ∀ tag p, (tag, p) ∈ r.places s → tag ∈ r.tags := by
    intro tag p hmem
    rw [← hasked.map_places]
    exact List.mem_map_of_mem hmem
  have hkept : ∀ tag p, d.tree.TaggedOnlyAt tag p → w.TaggedOnlyAt tag p :=
    fun tag p hold => h.onlyAt_recorded hasked hgains hfresh hold
  -- The new tags are not below the next one, as all that are in the tree are.
  have hplaced : ∀ tag p, (tag, p) ∈ r.places s → w.TaggedOnlyAt tag p := by
    intro tag p hmem
    refine hgains.onlyAt_new hmem (hasked.map_places ▸ hnodup) fun q hq => ?_
    exact not_mem_new hfresh (h.below q tag hq) (hnew tag p hmem)
  refine ⟨hgains.alike.trans h.alike, ?_, Nat.le_trans h.fresh_le hnext, ?_, ?_, ?_⟩
  · intro q tag htag
    rcases (hgains.mem_tagsAt q tag).1 htag with hold | hplace
    · exact Nat.lt_of_lt_of_le (h.below q tag hold) hnext
    · exact (hfresh tag (hnew tag q hplace)).2
  · intro r' hr'
    rcases List.mem_append.1 hr' with hr' | hr'
    · obtain ⟨s', hs', hspan', hasked', hplaces⟩ := h.placed r' hr'
      exact ⟨s', hs', hspan', hasked', fun tag p hmem =>
        ⟨(hplaces tag p hmem).1, hkept tag p (hplaces tag p hmem).2⟩⟩
    · obtain rfl : r' = r := by simpa using hr'
      exact ⟨s, hs, hspanned, hasked, fun tag p hmem =>
        ⟨Nat.le_trans h.fresh_le (hfresh tag (hnew tag p hmem)).1, hplaced tag p hmem⟩⟩
  · show ((d.plan.records ++ [r]).flatMap Record.tags).Nodup
    rw [List.flatMap_append, List.nodup_append]
    refine ⟨h.nodup, by simpa using hnodup, ?_⟩
    rintro tag hold _ hlater rfl
    obtain ⟨r', hr', htag⟩ := List.mem_flatMap.1 hold
    exact not_mem_new hfresh (h.lt_next hr' htag) (by simpa using hlater)
  · intro span tag hmem
    have hcases : (span, tag) ∈ d.signatures ∨ ∃ change, r.change = .signature change ∧
        s.span = some span ∧ tag = r.tag := by
      rcases hentry with rfl | ⟨span', change, hchange, hspan, rfl⟩
      · exact .inl hmem
      · rcases List.mem_append.1 hmem with hmem | hmem
        · exact .inl hmem
        · obtain ⟨rfl, rfl⟩ : span = span' ∧ tag = r.tag := by simpa using hmem
          exact .inr ⟨change, hchange, hspan, rfl⟩
    rcases hcases with hold | ⟨change, hchange, hspan, rfl⟩
    · obtain ⟨r', hr', htag, hsignature, s', hs', hspan', honly⟩ := h.entered span tag hold
      exact ⟨r', List.mem_append_left _ hr', htag, hsignature, s', hs', hspan', hkept _ _ honly⟩
    · exact ⟨r, by simp [Plan.push], rfl, ⟨change, hchange⟩, s, hs, hspan,
        hplaced _ _ (List.mem_cons_self ..)⟩

theorem Faithful.step (h : Faithful strategy cx t d) (hstep : Step strategy cx t d d') :
    Faithful strategy cx t d' := by
  cases hstep with
  | failed failure => exact ⟨h.alike, h.below, h.fresh_le, h.placed, h.nodup, h.entered⟩
  | @merged s span tag change site span_eq known => exact h.merged tag change
  | recorded site spanned asked gains nodup fresh le_next entry =>
    exact h.recorded site spanned asked gains nodup fresh le_next entry

/-- What the steps of an analysis preserve is preserved by recording findings one after the
    other. -/
theorem Faithful.addAll_induction {source : String} {P : Draft → Prop} (ht : t.ReadFrom source)
    (h : Faithful strategy cx t d) {findings : List Finding}
    (hfindings : ∀ f ∈ findings, f.Asked strategy cx t)
    (hstep : ∀ d d', Faithful strategy cx t d → Step strategy cx t d d' → P d → P d') (hd : P d) :
    Faithful strategy cx t (d.addAll findings) ∧ P (d.addAll findings) := by
  induction findings generalizing d with
  | nil => exact ⟨h, hd⟩
  | cons f findings ih =>
    have hadd := step_add ht h.alike (hfindings f (List.mem_cons_self ..))
    exact ih (h.step hadd) (fun g hg => hfindings g (List.mem_cons_of_mem _ hg))
      (hstep d (d.add f) h hadd hd)

theorem Faithful.addAll {source : String} (ht : t.ReadFrom source)
    (h : Faithful strategy cx t d) {findings : List Finding}
    (hfindings : ∀ f ∈ findings, f.Asked strategy cx t) :
    Faithful strategy cx t (d.addAll findings) :=
  (h.addAll_induction (P := fun _ => True) ht hfindings (fun _ _ _ _ => id) trivial).1

end Preservation

end Draft

end Recast
