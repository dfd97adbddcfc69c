-- SUMMARY: What a record of a method header asks for: the requests that were made for the method, merged.
import Recast.Proofs.Analysis.Awaiting
import Recast.Proofs.Migration.Reprinting

/-! # Signing methods

Three passes ask for changes of headers: that of the types, that of the methods that await, and
that of visibility. What they ask for one method is merged into one record. So what every request
for a method has and a merge keeps (`SignatureChange.Kept`) is true of the records of a plan. -/

namespace Recast

/-! ## Views of sites -/

theorem View.TypeDeclaration.eq_of_of? {n : Node} {d : TypeDeclaration} (h : of? n = some d) :
    d = ⟨n⟩ := by
  unfold of? at h
  split at h
  · exact (Option.some.inj h).symm
  · cases h

theorem View.Method.of?_eq_some {n : Node} {m : Method} (h : of? n = some m) :
    n.kind = .methodDeclaration ∧ m = ⟨n⟩ := by
  unfold of? at h
  split at h
  · rename_i hkind
    exact ⟨eq_of_beq hkind, (Option.some.inj h).symm⟩
  · cases h

/-- The nodes right below a site are at sites too. -/
theorem Site.exists_of_mem_childNodes {t : Tree} {s : Site} (hs : s ∈ t.sites) {n : Node}
    (hn : n ∈ s.node.childNodes) : ∃ u ∈ t.sites, u.node = n := by
  obtain ⟨-, hat⟩ := Tree.mem_sites_iff.1 hs
  obtain ⟨e, he, hnode⟩ := List.mem_filterMap.1 hn
  obtain rfl : e = .node n := by
    cases e with
    | token t => cases hnode
    | node n => rw [Option.some.inj hnode]
  obtain ⟨i, hi⟩ := List.mem_iff_getElem?.1 he
  exact ⟨⟨t, s.path ++ [i], n⟩, Tree.mem_sites_of_at? (Node.at?_child hat hi), rfl⟩

/-! ## Requests -/

theorem Change.signature?_eq_some_iff {c : Change} {change : SignatureChange} :
    c.signature? = some change ↔ c = .signature change := by
  cases c <;> simp [signature?]

/-- A merge keeps what is said of the changes at a site. -/
def SignatureChange.Kept (Q : Site → SignatureChange → Prop) : Prop :=
  ∀ s first second, Q s first → Q s second → Q s (first.merge second)

namespace Draft

/-- The method at a site is entered with a tag. -/
def Enters (d : Draft) (s : Site) (tag : Tag) : Prop :=
  ∃ span, s.span = some span ∧ d.signatures.lookup span = some tag

/-- Every record of a header belongs to a method of the tree, which is entered with its tag, and `Q`
    is true of what it asks for. -/
def Signs (t : Tree) (Q : Site → SignatureChange → Prop) (d : Draft) : Prop :=
  ∀ r ∈ d.plan.records, ∀ change, r.change = .signature change →
    ∃ s ∈ t.sites, s.kind = .methodDeclaration ∧ d.tree.TaggedOnlyAt r.tag s.path ∧
      d.Enters s r.tag ∧ Q s change

section Steps

variable {source : String} {strategy : Strategy} {cx : Context} {t : Tree} {d : Draft}
  {Q : Site → SignatureChange → Prop}

/-- A finding that is not about a header adds no record of one. -/
theorem mem_of_mem_add_other {f : Finding} (hf : f.Asked strategy cx t)
    (hother : ∀ topic s p, f ≠ .signature topic s p) {r : Record}
    (hr : r ∈ (d.add f).plan.records) (hsignature : r.change.signature? ≠ none) :
    r ∈ d.plan.records := by
  have hpush : ∀ new : Record, new.change.signature? = none → r ∈ d.plan.records ++ [new] →
      r ∈ d.plan.records := by
    intro new hnew hmem
    rcases List.mem_append.1 hmem with hmem | hmem
    · exact hmem
    · rw [List.mem_singleton.1 hmem] at hsignature
      exact absurd hnew hsignature
  cases f with
  | failure failure => exact hr
  | change topic s written change =>
    obtain ⟨-, -, hnone, -⟩ := hf
    simp only [add, record] at hr
    split at hr
    · exact hpush _ hnone hr
    · exact hr
  | signature topic s p => exact absurd rfl (hother topic s p)
  | container s proposal =>
    simp only [add, reshape] at hr
    split at hr
    · exact hpush _ rfl hr
    · exact hr
  | methodMarker owner method proposal =>
    simp only [add] at hr
    split at hr
    · exact hpush _ rfl hr
    · exact hr

/-- The record that a method is entered with has its tag at that method. -/
theorem Faithful.onlyAt_of_entered (ht : t.ReadFrom source) (h : Faithful strategy cx t d)
    (hfinds : strategy.FindsSeats t) {s : Site} {span : Span} {tag : Tag} (hs : s ∈ t.sites)
    (hkind : s.kind = .methodDeclaration) (hspan : s.span = some span)
    (hknown : d.signatures.lookup span = some tag) : d.tree.TaggedOnlyAt tag s.path := by
  have hentry : (span, tag) ∈ d.signatures := mem_of_lookup hknown
  obtain ⟨r, hr, rfl, ⟨change, hchange⟩, u, hu, hu_span, hu_only⟩ := h.entered span tag hentry
  obtain ⟨v, hv, -, hasked, hv_only⟩ := h.onlyAt hr
  obtain rfl : v = u :=
    Tree.eq_of_path_eq hv hu ((hu_only v.path).1 ((hv_only v.path).2 rfl))
  rw [hchange] at hasked
  have hmethod : v.kind = .methodDeclaration :=
    List.mem_singleton.1 (hasked.kind_mem_seats hfinds)
  have hpath : v.path = s.path := ht.path_eq_of_span (Tree.mem_sites_iff.1 hv).2
    (Tree.mem_sites_iff.1 hs).2 (hmethod.trans hkind.symm) hu_span hspan
  rw [← hpath]
  exact hu_only

/-- Records that were there before stand for the same methods as before. -/
theorem Signs.onward {d' : Draft} (h : d.Signs t Q) (honward : d.Onward d') {r : Record}
    (hr : r ∈ d.plan.records) {change : SignatureChange} (hchange : r.change = .signature change) :
    ∃ s ∈ t.sites, s.kind = .methodDeclaration ∧ d'.tree.TaggedOnlyAt r.tag s.path ∧
      d'.Enters s r.tag ∧ Q s change := by
  obtain ⟨s, hs, hkind, honly, ⟨span, hspan, hentered⟩, hQ⟩ := h r hr change hchange
  exact ⟨s, hs, hkind, honward.tagged _ _ honly, ⟨span, hspan, honward.entered _ _ hentered⟩, hQ⟩

theorem Faithful.signs_sign (ht : t.ReadFrom source) (h : Faithful strategy cx t d)
    (hfinds : strategy.FindsSeats t) (hkept : SignatureChange.Kept Q) {topic : Topic} {s : Site}
    {p : Proposal SignatureChange} (hasked : (Finding.signature topic s p).Asked strategy cx t)
    (hp : Q s p.change) (hd : d.Signs t Q) : (d.sign topic s p).Signs t Q := by
  have hs := hasked.1
  have hkind : s.kind = .methodDeclaration :=
    List.mem_singleton.1 ((hasked.2 p.change).kind_mem_seats hfinds)
  have honward : d.Onward (d.sign topic s p) := h.onward (step_add ht h.alike hasked)
  rcases hspan : s.span with _ | span
  · simp only [sign, hspan]
    exact hd
  · rcases hknown : d.signatures.lookup span with _ | tag
    · rcases hattach : attach d.tree s ⟨d.next⟩ with e | w
      · simp only [sign, hspan, hknown, hattach]
        exact hd
      · rw [sign_new hspan hknown hattach] at honward ⊢
        intro r hr change hchange
        rcases List.mem_append.1 hr with hr | hr
        · exact hd.onward honward hr hchange
        · obtain rfl := List.mem_singleton.1 hr
          obtain rfl := Change.signature.inj hchange
          refine ⟨s, hs, hkind, h.onlyAt_next (gains_of_attach ht h.alike hs hattach),
            ⟨span, hspan, ?_⟩, hp⟩
          simp [List.lookup_append, hknown]
    · rw [sign_known hspan hknown]
      intro r hr change hchange
      obtain ⟨r, hold, rfl⟩ := List.mem_map.1 hr
      rcases mergeInto_cases tag p.change r with heq | ⟨first, hfirst, rfl, heq⟩
      · rw [heq] at hchange ⊢
        exact hd r hold change hchange
      · -- The record that is merged into has its tag at this very method.
        rw [heq] at hchange ⊢
        obtain rfl := Change.signature.inj hchange
        obtain ⟨u, hu, hu_kind, hu_only, hentered, hQ⟩ := hd r hold first hfirst
        have honly := h.onlyAt_of_entered ht hfinds hs hkind hspan hknown
        obtain rfl : u = s :=
          Tree.eq_of_path_eq hu hs ((honly u.path).1 ((hu_only u.path).2 rfl))
        exact ⟨u, hu, hu_kind, hu_only, hentered, hkept u first p.change hQ hp⟩

/-- One finding recorded. -/
theorem Faithful.signs_add (ht : t.ReadFrom source) (h : Faithful strategy cx t d)
    (hfinds : strategy.FindsSeats t) (hkept : SignatureChange.Kept Q) {f : Finding}
    (hasked : f.Asked strategy cx t)
    (hf : ∀ topic s p, f = .signature topic s p → Q s p.change) (hd : d.Signs t Q) :
    (d.add f).Signs t Q := by
  by_cases hsignature : ∃ topic s p, f = .signature topic s p
  · obtain ⟨topic, s, p, rfl⟩ := hsignature
    exact h.signs_sign ht hfinds hkept hasked (hf topic s p rfl) hd
  · intro r hr change hchange
    have hother : ∀ topic s p, f ≠ .signature topic s p :=
      fun topic s p heq => hsignature ⟨topic, s, p, heq⟩
    have hold := mem_of_mem_add_other hasked hother hr (by rw [hchange]; exact nofun)
    exact hd.onward (h.onward (step_add ht h.alike hasked)) hold hchange

/-- All findings of a list recorded. -/
theorem Faithful.signs_addAll (ht : t.ReadFrom source) (h : Faithful strategy cx t d)
    (hfinds : strategy.FindsSeats t) (hkept : SignatureChange.Kept Q) {findings : List Finding}
    (hasked : ∀ f ∈ findings, f.Asked strategy cx t)
    (hfindings : ∀ topic s p, .signature topic s p ∈ findings → Q s p.change)
    (hd : d.Signs t Q) : (d.addAll findings).Signs t Q := by
  induction findings generalizing d with
  | nil => exact hd
  | cons f findings ih =>
    have hf := hasked f (List.mem_cons_self ..)
    refine ih (h.step (step_add ht h.alike hf)) (fun g hg => hasked g (List.mem_cons_of_mem _ hg))
      (fun topic s p hmem => hfindings topic s p (List.mem_cons_of_mem _ hmem)) ?_
    refine h.signs_add ht hfinds hkept hf (fun topic s p heq => hfindings topic s p ?_) hd
    rw [heq]
    exact List.mem_cons_self ..

end Steps

end Draft

/-! ## The run of an analysis -/

namespace Strategy

variable {source : String} {strategy : Strategy} {cx : Context} {t : Tree}

/-- The only headers that are asked for before methods that await are looked at are those that the
    types ask for. -/
theorem signature_mem_findings {topic : Topic} {s : Site} {p : Proposal SignatureChange}
    (h : .signature topic s p ∈ strategy.findings cx (.ofTree cx.model t) t) :
    ∃ owner ∈ strategy.findClasses t, ∃ proposals, strategy.classes cx owner = .ok proposals ∧
      ∃ span, .signature span p ∈ proposals ∧ t.findSpan? .methodDeclaration span = some s := by
  -- Eight of the nine passes propose or remove something that is no header.
  have hproposed : ∀ {α : Type} {about : Topic} {rule : Rule (Option α)}
      {finding : Site → α → Finding} {candidates : List Site},
      .signature topic s p ∈ Finding.ofProposals about cx rule finding candidates →
      ∃ u a, finding u a = .signature topic s p := by
    intro α about rule finding candidates h
    rcases Finding.mem_ofProposals h with ⟨u, -, a, -, heq⟩ | ⟨failure, heq⟩
    · exact ⟨u, a, heq.symm⟩
    · cases heq
  have hremoved : ∀ {about : Topic} {rule : Rule Bool} {removal : Site → Change}
      {candidates : List Site},
      .signature topic s p ∉ Finding.ofRemovals about cx rule removal candidates := by
    intro about rule removal candidates h
    rcases Finding.mem_ofRemovals h with ⟨u, -, -, heq⟩ | ⟨failure, heq⟩
    · cases heq
    · cases heq
  simp only [findings, List.mem_append] at h
  rcases h with (((((((h | h) | h) | h) | h) | h) | h) | h) | h
  · obtain ⟨u, a, heq⟩ := hproposed h
    cases heq
  · obtain ⟨u, -, h⟩ := List.mem_flatMap.1 h
    rcases Finding.mem_ofAnswer h with ⟨removes, -, h⟩ | ⟨failure, heq⟩
    · cases removes with
      | true => cases List.mem_singleton.1 h
      | false =>
        obtain ⟨v, a, heq⟩ := hproposed h
        cases heq
    · cases heq
  · obtain ⟨u, a, heq⟩ := hproposed h
    cases heq
  · obtain ⟨u, a, heq⟩ := hproposed h
    cases heq
  · obtain ⟨owner, howner, h⟩ := List.mem_flatMap.1 h
    rcases List.mem_append.1 h with h | h
    · exact absurd h hremoved
    · rcases Finding.mem_ofAnswer h with ⟨proposals, hproposals, h⟩ | ⟨failure, heq⟩
      · obtain ⟨proposal, hproposal, heq⟩ := List.mem_map.1 h
        cases proposal with
        | signature span q =>
          simp only [classFinding] at heq
          split at heq
          · rename_i target htarget
            obtain ⟨-, rfl, rfl⟩ := Finding.signature.inj heq
            exact ⟨owner, howner, proposals, hproposals, span, hproposal, htarget⟩
          · cases heq
        | _ => cases heq
      · cases heq
  · exact absurd h hremoved
  · exact absurd h hremoved
  · obtain ⟨u, proposal, heq⟩ := hproposed h
    cases proposal with
    | replacement written text => cases heq
    | capture written captured body =>
      simp only [callFinding] at heq
      split at heq
      · cases heq
      · cases heq
  · obtain ⟨u, a, heq⟩ := hproposed h
    cases heq

/-- What is true of every request, and kept by merging, is true of the records of the plan. -/
theorem signs_finished {Q : Site → SignatureChange → Prop} (ht : t.ReadFrom source)
    (hsites : strategy.FindsSites t) (hseats : strategy.FindsSeats t)
    (hkept : SignatureChange.Kept Q)
    (hclasses : ∀ owner ∈ strategy.findClasses t, ∀ proposals,
      strategy.classes cx owner = .ok proposals → ∀ span p, .signature span p ∈ proposals →
      ∀ s, t.findSpan? .methodDeclaration span = some s → Q s p.change)
    (hasync : ∀ s ∈ t.sites, ∀ view, View.Method.of? s.node = some view →
      view.node.hasModifier cx.settings.asyncKeyword = false →
      (InterfaceMethods.ofTree cx.model t).hasSite s = false →
      ∀ returnType, asyncReturn cx.settings view = .ok returnType →
      Q s { addAsync := true, returnType })
    (hpublic : ∀ s ∈ strategy.findMethods t, strategy.makesPublic cx s = .ok true →
      Q s { makePublic := true }) : (strategy.finished cx t).Signs t Q := by
  -- Headers are asked for in three rounds: by types, for methods that await, and for visibility.
  have hfound : (strategy.found cx t).Signs t Q := by
    refine faithful_started.signs_addAll ht hseats hkept
      (fun _ hf => asked_of_mem_findings hsites hf) ?_ fun _ hr => nomatch hr
    intro topic s p hmem
    obtain ⟨owner, howner, proposals, hproposals, span, hp, hspan⟩ := signature_mem_findings hmem
    exact hclasses owner howner proposals hproposals span p hp s hspan
  have hsigned : (strategy.signed cx t).Signs t Q := by
    refine (faithful_found ht hsites).signs_addAll ht hseats hkept
      (fun _ hf => Draft.asked_async ht (faithful_found ht hsites) hf) ?_ hfound
    intro topic s p hmem
    obtain ⟨span, -, hfinding⟩ := List.mem_filterMap.1 hmem
    rcases hmethod : t.findSpan? .methodDeclaration span with _ | method
    · rw [Draft.asyncFinding?, hmethod] at hfinding
      cases hfinding
    · rw [Draft.asyncFinding?_eq cx.settings _ hmethod] at hfinding
      obtain ⟨view, hview, hfinding⟩ := Option.bind_eq_some_iff.1 hfinding
      split at hfinding
      · cases hfinding
      · rename_i hfree
        obtain ⟨hplain, hfree⟩ : view.node.hasModifier cx.settings.asyncKeyword = false ∧
            (InterfaceMethods.ofTree cx.model t).hasSite method = false := by simpa using hfree
        split at hfinding
        · rename_i returnType hreturn
          obtain ⟨-, rfl, rfl⟩ := Finding.signature.inj (Option.some.inj hfinding)
          exact hasync _ (Tree.findSpan?_mem hmethod).1 view hview hplain hfree returnType hreturn
        · cases Option.some.inj hfinding
  refine (faithful_signed ht hsites).signs_addAll ht hseats hkept
    (fun _ hf => asked_visibility hsites hf) ?_ hsigned
  intro topic s p hmem
  obtain ⟨u, hu, hmem⟩ := List.mem_flatMap.1 hmem
  rcases Finding.mem_ofAnswer hmem with ⟨needed, hanswer, hmem⟩ | ⟨failure, hfailure⟩
  · cases needed with
    | true =>
      obtain ⟨rfl, rfl, rfl⟩ := Finding.signature.inj (List.mem_singleton.1 hmem)
      exact hpublic s hu hanswer
    | false => cases hmem
  · cases hfailure

end Strategy

/-! ## The requests of the frameworks -/

namespace Framework

namespace XUnit

/-- Markers are all that is proposed for the base types of fixtures. -/
theorem eq_marker_of_mem_fixtureMarkers {cx : Context} {typeName : String} {bases : List Site}
    {found : List ClassProposal × Bool} (h : fixtureMarkers cx typeName bases = .ok found)
    {proposal : ClassProposal} (hmem : proposal ∈ found.1) :
    ∃ written marker, proposal = .marker written marker := by
  induction bases generalizing found with
  | nil =>
    obtain rfl := Except.ok.inj h
    cases hmem
  | cons base bases ih =>
    obtain ⟨removed, -, h⟩ := ok_of_bind h
    split at h
    · obtain ⟨fixture, -, h⟩ := ok_of_bind h
      obtain ⟨rest, hrest, h⟩ := ok_of_bind h
      obtain rfl := Except.ok.inj h
      rcases List.mem_cons.1 hmem with rfl | hmem
      · exact ⟨_, _, rfl⟩
      · exact ih hrest hmem
    · obtain ⟨rest, hrest, h⟩ := ok_of_bind h
      have hmarker := @ih rest hrest
      obtain rfl := Except.ok.inj h
      exact hmarker hmem
    · exact ih h hmem

/-- What is proposed for a type is a marker, a base type, or what one of its methods is proposed
    for. -/
theorem mem_classes {cx : Context} {owner : Site} {proposals : List ClassProposal}
    (h : classes cx owner = .ok proposals) {proposal : ClassProposal} (hmem : proposal ∈ proposals) :
    (∃ written marker, proposal = .marker written marker) ∨
    (∃ written type, proposal = .baseType written type) ∨
    ∃ declaration, View.TypeDeclaration.of? owner.node = some declaration ∧
      ∃ method ∈ declaration.methods, ∃ inTestClass,
        hookProposal? inTestClass method = some proposal := by
  unfold classes at h
  split at h
  · obtain rfl := Except.ok.inj h
    cases hmem
  · rename_i declaration hdeclaration
    obtain ⟨found, hfound, h⟩ := ok_of_bind h
    have hmarkers := @eq_marker_of_mem_fixtureMarkers _ _ _ _ hfound proposal
    simp only at h
    split at h
    · obtain rfl := Except.ok.inj h
      exact .inl (hmarkers hmem)
    · obtain rfl := Except.ok.inj h
      simp only [List.mem_append, List.mem_filterMap] at hmem
      -- Markers stand for fixtures, base types for the hooks of a type without tests.
      rcases hmem with (hmem | hmem) | ⟨method, hmethod, hhook⟩
      · exact .inl (hmarkers hmem)
      · split at hmem
        · cases hmem
        · obtain ⟨type, -, rfl⟩ := List.mem_map.1 hmem
          exact .inr (.inl ⟨_, _, rfl⟩)
      · exact .inr (.inr ⟨declaration, hdeclaration, method, hmethod, _, hhook⟩)

/-- What is proposed for a method of a type: a marker, with the wrapper when the method returns the
    value wrapper, or its header, then only. -/
theorem hookProposal?_cases {inTestClass : Bool} {method : View.Method} {proposal : ClassProposal}
    (h : hookProposal? inTestClass method = some proposal) :
    ∃ span written, method.node.span = some span ∧
      ((∃ marker returnType, proposal = .methodMarker span ⟨written, ⟨marker, returnType⟩⟩ ∧
        (returnType = none ∨ returnType = some "Task")) ∨
      (proposal = .signature span ⟨written, { returnType := .valueWrapperToWrapper }⟩ ∧
        method.returnType?.map Node.text = some "ValueTask")) := by
  obtain ⟨name, -, h⟩ := Option.bind_eq_some_iff.1 h
  obtain ⟨span, hspan, h⟩ := Option.bind_eq_some_iff.1 h
  obtain ⟨marker, -, h⟩ := Option.bind_eq_some_iff.1 h
  simp only at h
  refine ⟨span, name, hspan, ?_⟩
  split at h
  · refine .inl ⟨marker, _, (Option.some.inj h).symm, ?_⟩
    split
    · exact .inr rfl
    · exact .inl rfl
  · split at h
    · rename_i hreturns
      exact .inr ⟨(Option.some.inj h).symm, eq_of_beq (Bool.and_eq_true_iff.1 hreturns).2⟩
    · cases h

/-- A type asks for the header of a method of its own that returns the value wrapper. -/
theorem signature_mem_classes {cx : Context} {owner : Site} {proposals : List ClassProposal}
    (h : classes cx owner = .ok proposals) {span : Span} {p : Proposal SignatureChange}
    (hp : .signature span p ∈ proposals) :
    p.change = { returnType := .valueWrapperToWrapper } ∧
      ∃ declaration, View.TypeDeclaration.of? owner.node = some declaration ∧
        ∃ method ∈ declaration.methods, method.node.span = some span ∧
          method.returnType?.map Node.text = some "ValueTask" := by
  rcases mem_classes h hp with ⟨_, _, heq⟩ | ⟨_, _, heq⟩ |
    ⟨declaration, hdeclaration, method, hmethod, inTestClass, hhook⟩
  · cases heq
  · cases heq
  · obtain ⟨span', written, hspan, ⟨marker, returnType, heq, -⟩ | ⟨heq, hvalue⟩⟩ :=
      hookProposal?_cases hhook
    · cases heq
    · obtain ⟨rfl, rfl⟩ := ClassProposal.signature.inj heq
      exact ⟨rfl, declaration, hdeclaration, method, hmethod, hspan, hvalue⟩

/-- A marker that a type asks for comes with the wrapper, if with any return type. -/
theorem methodMarker_mem_classes {cx : Context} {owner : Site} {proposals : List ClassProposal}
    (h : classes cx owner = .ok proposals) {span : Span} {p : Proposal MarkedMethod}
    (hp : .methodMarker span p ∈ proposals) :
    p.change.returnType = none ∨ p.change.returnType = some "Task" := by
  rcases mem_classes h hp with ⟨_, _, heq⟩ | ⟨_, _, heq⟩ | ⟨_, _, _, _, _, hhook⟩
  · cases heq
  · cases heq
  · obtain ⟨span', written, -, ⟨marker, returnType, heq, htype⟩ | ⟨heq, -⟩⟩ :=
      hookProposal?_cases hhook
    · obtain ⟨-, rfl⟩ := ClassProposal.methodMarker.inj heq
      exact htype
    · cases heq

end XUnit

variable {source : String} {t : Tree} {settings : Settings}

/-- The header that a type asks for is that of a method that returns the value wrapper. -/
theorem signature_of_classes (f : Framework) (ht : t.ReadFrom source) {cx : Context} {owner : Site}
    (howner : owner ∈ t.sites) {proposals : List ClassProposal}
    (h : f.strategy.classes cx owner = .ok proposals) {span : Span} {p : Proposal SignatureChange}
    (hp : .signature span p ∈ proposals) {s : Site}
    (hs : t.findSpan? .methodDeclaration span = some s) :
    p.change = { returnType := .valueWrapperToWrapper } ∧
      (View.Method.mk s.node).returnType?.map Node.text = some "ValueTask" := by
  cases f with
  | nUnit =>
    obtain rfl := Except.ok.inj h
    cases hp
  | msTest =>
    obtain rfl := Except.ok.inj h
    cases hp
  | xUnit =>
    obtain ⟨hchange, declaration, hdeclaration, method, hmethod, hspan, htype⟩ :=
      XUnit.signature_mem_classes h hp
    obtain rfl := View.TypeDeclaration.eq_of_of? hdeclaration
    obtain ⟨node, hnode, hview⟩ := List.mem_filterMap.1 hmethod
    obtain ⟨hkind, rfl⟩ := View.Method.of?_eq_some hview
    obtain ⟨u, hu, rfl⟩ := Site.exists_of_mem_childNodes howner hnode
    have hfound := ht.findSpan?_self hu hspan
    have hmethodKind : u.kind = .methodDeclaration := hkind
    rw [hmethodKind, hs] at hfound
    obtain rfl := Option.some.inj hfound
    exact ⟨hchange, htype⟩

/-- What is true of all that the passes may ask for a method, and kept by merging, is true of the
    records of headers in a plan. -/
theorem signs_finished (f : Framework) (ht : t.ReadFrom source)
    {Q : Site → SignatureChange → Prop} (hkept : SignatureChange.Kept Q)
    (hvalue : ∀ s ∈ t.sites, (View.Method.mk s.node).returnType?.map Node.text = some "ValueTask" →
      Q s { returnType := .valueWrapperToWrapper })
    (hasync : ∀ s ∈ t.sites, ∀ view, View.Method.of? s.node = some view →
      view.node.hasModifier settings.asyncKeyword = false →
      (InterfaceMethods.ofTree (SourceModel.build t f.catalog).toSemanticModel t).hasSite s = false →
      ∀ returnType, asyncReturn settings view = .ok returnType →
      Q s { addAsync := true, returnType })
    (hpublic : ∀ s ∈ t.sites, s.node.hasModifier "public" = false → Q s { makePublic := true }) :
    (f.strategy.finished ⟨(SourceModel.build t f.catalog).toSemanticModel, settings⟩ t).Signs t Q := by
  have hsites := f.findsSites t
  refine Strategy.signs_finished ht hsites (f.findsSeats t) hkept ?_ hasync ?_
  · intro owner howner proposals hproposals span p hp s hs
    obtain ⟨heq, htype⟩ :=
      f.signature_of_classes ht (hsites.classes owner howner) hproposals hp hs
    rw [heq]
    exact hvalue s (Tree.findSpan?_mem hs).1 htype
  · intro s hs hanswer
    have hlacks : ∀ markers, lacksPublic markers s = true → s.node.hasModifier "public" = false := by
      intro markers h
      exact Bool.not_eq_true' _ ▸ (Bool.and_eq_true_iff.1 h).2
    refine hpublic s (hsites.methods s hs) ?_
    cases f with
    | nUnit => exact hlacks _ (Except.ok.inj hanswer)
    | msTest => exact hlacks _ (Except.ok.inj hanswer)
    | xUnit => cases hanswer

theorem signs_analysis (f : Framework) (ht : t.ReadFrom source)
    {Q : Site → SignatureChange → Prop} (hkept : SignatureChange.Kept Q)
    (hvalue : ∀ s ∈ t.sites, (View.Method.mk s.node).returnType?.map Node.text = some "ValueTask" →
      Q s { returnType := .valueWrapperToWrapper })
    (hasync : ∀ s ∈ t.sites, ∀ view, View.Method.of? s.node = some view →
      view.node.hasModifier settings.asyncKeyword = false →
      (InterfaceMethods.ofTree (SourceModel.build t f.catalog).toSemanticModel t).hasSite s = false →
      ∀ returnType, asyncReturn settings view = .ok returnType →
      Q s { addAsync := true, returnType })
    (hpublic : ∀ s ∈ t.sites, s.node.hasModifier "public" = false → Q s { makePublic := true })
    {r : Record} (hr : r ∈ (f.analysis settings t).plan.records) {change : SignatureChange}
    (hchange : r.change = .signature change) :
    ∃ s ∈ t.sites, s.kind = .methodDeclaration ∧
      (f.analysis settings t).tree.TaggedOnlyAt r.tag s.path ∧ Q s change := by
  rw [analysis, Strategy.analyze_records] at hr
  rw [analysis, Strategy.analyze_tree]
  obtain ⟨s, hs, hkind, honly, -, hQ⟩ :=
    f.signs_finished ht hkept hvalue hasync hpublic r hr change hchange
  exact ⟨s, hs, hkind, honly, hQ⟩

/-- A method has at most one record of its header. -/
theorem eq_of_signatures (f : Framework) (ht : t.ReadFrom source) {r r' : Record}
    (hr : r ∈ (f.analysis settings t).plan.records) (hr' : r' ∈ (f.analysis settings t).plan.records)
    {change change' : SignatureChange} (hchange : r.change = .signature change)
    (hchange' : r'.change = .signature change') {p : Path}
    (honly : (f.analysis settings t).tree.TaggedOnlyAt r.tag p)
    (honly' : (f.analysis settings t).tree.TaggedOnlyAt r'.tag p) : r.tag = r'.tag := by
  rw [analysis, Strategy.analyze_records] at hr hr'
  rw [analysis, Strategy.analyze_tree] at honly honly'
  have hsigns : (f.strategy.finished
      ⟨(SourceModel.build t f.catalog).toSemanticModel, settings⟩ t).Signs t fun _ _ => True :=
    f.signs_finished ht (fun _ _ _ _ _ => trivial) (fun _ _ _ => trivial)
      (fun _ _ _ _ _ _ _ _ => trivial) fun _ _ _ => trivial
  obtain ⟨s, hs, -, hs_only, ⟨span, hspan, hentered⟩, -⟩ := hsigns r hr change hchange
  obtain ⟨u, hu, -, hu_only, ⟨span', hspan', hentered'⟩, -⟩ := hsigns r' hr' change' hchange'
  have hs_path : p = s.path := (hs_only p).1 ((honly p).2 rfl)
  have hu_path : p = u.path := (hu_only p).1 ((honly' p).2 rfl)
  obtain rfl : s = u := Tree.eq_of_path_eq hs hu (hs_path.symm.trans hu_path)
  obtain rfl : span = span' := Option.some.inj (hspan.symm.trans hspan')
  exact Option.some.inj (hentered.symm.trans hentered')

end Framework

end Recast
