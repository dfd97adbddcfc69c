-- SUMMARY: All that is asked for of the header of one method comes to one record, which asks for everything at once.
import Recast.Proofs.Analysis.Signing
import Recast.Proofs.Grammar.Placement

/-! # Requests for headers

Three passes ask for changes of headers (`Strategy.requests`), each over candidates of its own, and a
draft enters the methods that have a record by their spans. At every moment the record of a method
asks for all that was asked for so far, and a method without requests is not entered
(`Draft.Holds`): a finding for the method adds its request, and all other findings leave the record
as it is. -/

namespace Recast

/-! ## Requests in one -/

namespace SignatureChange

/-- All requests of a list in one: what any of them asks for, with the return type of the first one
    that does not keep what is there. -/
def combine (requests : List SignatureChange) : SignatureChange where
  addAsync := requests.any addAsync
  returnType := ((requests.map returnType).find? fun edit => edit != .keep).getD .keep
  makePublic := requests.any makePublic

theorem combine_single (change : SignatureChange) : combine [change] = change := by
  obtain ⟨addAsync, returnType, makePublic⟩ := change
  by_cases h : returnType = .keep <;> simp [combine, h]

/-- A merge is one more request. -/
theorem combine_append (xs ys : List SignatureChange) :
    combine (xs ++ ys) = (combine xs).merge (combine ys) := by
  rcases hfirst : (xs.map returnType).find? (fun edit => edit != .keep) with _ | edit
  · simp [combine, merge, List.any_append, List.find?_append, hfirst]
  · have hedit : edit ≠ .keep := by simpa using List.find?_some hfirst
    simp [combine, merge, List.any_append, List.find?_append, hfirst, hedit]

end SignatureChange

/-- What a finding asks for of the header at a span. -/
def Finding.request? (span : Span) : Finding → Option SignatureChange
  | .signature _ method p => if method.span = some span then some p.change else none
  | _ => none

namespace Draft

/-! ## What a draft holds -/

/-- A draft holds requests for the method at a site: without any the method is not entered, and else
    it is entered with a record that asks for all of them. -/
inductive Holds (d : Draft) (s : Site) (span : Span) : List SignatureChange → Prop where
  | nothing (unknown : d.signatures.lookup span = none) : Holds d s span []
  | record {requests : List SignatureChange} {r : Record} (nonempty : requests ≠ [])
      (mem : r ∈ d.plan.records) (change : r.change = .signature (.combine requests))
      (known : d.signatures.lookup span = some r.tag) (only : d.tree.TaggedOnlyAt r.tag s.path) :
      Holds d s span requests

/-- Every record of a header is entered for the node that it was made for. -/
def Enlists (t : Tree) (d : Draft) : Prop :=
  ∀ r ∈ d.plan.records, ∀ change, r.change = .signature change →
    ∃ u ∈ t.sites, d.tree.TaggedOnlyAt r.tag u.path ∧ d.Enters u r.tag

section Steps

variable {source : String} {strategy : Strategy} {cx : Context} {t : Tree} {d d' : Draft} {s : Site}
  {span : Span} {requests : List SignatureChange}

theorem Holds.onward (h : d.Holds s span requests) (honward : d.Onward d')
    (hsignatures : d'.signatures.lookup span = d.signatures.lookup span)
    (hrecords : ∀ r ∈ d.plan.records, d.signatures.lookup span = some r.tag →
      r ∈ d'.plan.records) : d'.Holds s span requests := by
  cases h with
  | nothing unknown => exact .nothing (hsignatures.trans unknown)
  | record nonempty mem change known only =>
    exact .record nonempty (hrecords _ mem known) change (hsignatures.trans known)
      (honward.tagged _ _ only)

/-- A finding that is not about a header enters nothing and leaves the records. -/
theorem add_other {f : Finding} (hother : ∀ topic m p, f ≠ .signature topic m p) :
    (d.add f).signatures = d.signatures ∧ ∀ r ∈ d.plan.records, r ∈ (d.add f).plan.records := by
  cases f with
  | failure failure => exact ⟨rfl, fun r hr => hr⟩
  | signature topic m p => exact absurd rfl (hother topic m p)
  | change topic m written change =>
    simp only [add, record]
    split
    · exact ⟨rfl, fun r hr => List.mem_append_left _ hr⟩
    · exact ⟨rfl, fun r hr => hr⟩
  | container m proposal =>
    simp only [add, reshape]
    split
    · exact ⟨rfl, fun r hr => List.mem_append_left _ hr⟩
    · exact ⟨rfl, fun r hr => hr⟩
  | methodMarker owner method proposal =>
    simp only [add]
    split
    · exact ⟨rfl, fun r hr => List.mem_append_left _ hr⟩
    · exact ⟨rfl, fun r hr => hr⟩

theorem mergeInto_other {tag : Tag} {change : SignatureChange} {r : Record} (h : tag ≠ r.tag) :
    mergeInto tag change r = r := by
  rcases mergeInto_cases tag change r with heq | ⟨-, -, htag, -⟩
  · exact heq
  · exact absurd htag.symm h

theorem mergeInto_self {change first : SignatureChange} {r : Record}
    (h : r.change = .signature first) :
    mergeInto r.tag change r = { r with change := .signature (first.merge change) } := by
  simp only [mergeInto, h, if_true]

/-- A request for another span leaves what a draft holds. -/
theorem Faithful.holds_sign_other (ht : t.ReadFrom source) (h : Faithful strategy cx t d) {topic : Topic} {m : Site}
    {p : Proposal SignatureChange} (hasked : (Finding.signature topic m p).Asked strategy cx t)
    (hm : m.span ≠ some span) (hd : d.Holds s span requests) :
    (d.sign topic m p).Holds s span requests := by
  have honward : d.Onward (d.sign topic m p) := h.onward (step_add ht h.alike hasked)
  rcases hother : m.span with _ | other
  · refine hd.onward honward ?_ ?_ <;> simp only [sign, hother]
    · rfl
    · exact fun r hr _ => hr
  · have hne : span ≠ other := fun heq => hm (hother.trans (congrArg some heq.symm))
    rcases hknown : d.signatures.lookup other with _ | tag
    · rcases hattach : attach d.tree m ⟨d.next⟩ with e | w
      · refine hd.onward honward ?_ ?_ <;> simp only [sign, hother, hknown, hattach]
        · rfl
        · exact fun r hr _ => hr
      · rw [sign_new hother hknown hattach] at honward ⊢
        refine hd.onward honward ?_ fun r hr _ => List.mem_append_left _ hr
        have hbeq : (span == other) = false := beq_eq_false_iff_ne.2 hne
        simp only [List.lookup_append, List.lookup_cons, hbeq, List.lookup_nil, Option.or_none]
    · rw [sign_known hother hknown] at honward ⊢
      refine hd.onward honward rfl fun r hr hr_known => ?_
      -- The two records are of different nodes, since these have different spans.
      have htag : tag ≠ r.tag := by
        rintro rfl
        obtain ⟨-, -, -, -, u, hu, hu_span, hu_only⟩ := h.entered _ _ (mem_of_lookup hknown)
        obtain ⟨-, -, -, -, v, hv, hv_span, hv_only⟩ := h.entered _ _ (mem_of_lookup hr_known)
        obtain rfl : u = v := Tree.eq_of_path_eq hu hv ((hv_only u.path).1 ((hu_only u.path).2 rfl))
        exact hne (Option.some.inj (hv_span.symm.trans hu_span))
      exact List.mem_map.2 ⟨r, hr, mergeInto_other htag⟩

/-- A request for the method is held from then on. -/
theorem Faithful.holds_sign_self (ht : t.ReadFrom source) (h : Faithful strategy cx t d)
    (hs : s ∈ t.sites) (hspan : s.span = some span) {topic : Topic} {p : Proposal SignatureChange}
    (hd : d.Holds s span requests) :
    (d.sign topic s p).Holds s span (requests ++ [p.change]) := by
  have hcombine : SignatureChange.combine (requests ++ [p.change]) =
      (SignatureChange.combine requests).merge p.change := by
    rw [SignatureChange.combine_append, SignatureChange.combine_single]
  cases hd with
  | nothing unknown =>
    have hne := ht.tokens_ne_nil (Tree.mem_sites_iff.1 hs).2 hspan
    obtain ⟨w, hattach, hgains⟩ := attach_eq_ok ht h.alike hs hne ⟨d.next⟩
    rw [sign_new hspan unknown hattach]
    refine .record (r := ⟨⟨d.next⟩, p.written, .signature p.change⟩) (by simp)
      (List.mem_append_right _ (List.mem_singleton_self _)) ?_ ?_ (h.onlyAt_next hgains)
    · rw [List.nil_append, SignatureChange.combine_single]
    · simp [List.lookup_append, unknown]
  | @record _ r nonempty mem change known only =>
    rw [sign_known hspan known]
    refine .record (r := { r with change := .signature (.combine (requests ++ [p.change])) })
      (by simp) ?_ rfl known only
    rw [hcombine]
    exact List.mem_map.2 ⟨r, mem, mergeInto_self change⟩

/-- One finding recorded. The finding is about the method or about a node with another span. -/
theorem Faithful.holds_add (ht : t.ReadFrom source) (h : Faithful strategy cx t d)
    (hs : s ∈ t.sites) (hspan : s.span = some span) {f : Finding} (hasked : f.Asked strategy cx t)
    (hown : ∀ topic m p, f = .signature topic m p → m.span = some span → m = s)
    (hd : d.Holds s span requests) :
    (d.add f).Holds s span (requests ++ (f.request? span).toList) := by
  -- Only a finding about this very header changes what is held.
  by_cases hsignature : ∃ topic m p, f = .signature topic m p
  · obtain ⟨topic, m, p, rfl⟩ := hsignature
    by_cases hm : m.span = some span
    · obtain rfl := hown topic m p rfl hm
      rw [Finding.request?, if_pos hm]
      exact h.holds_sign_self ht hs hspan hd
    · rw [Finding.request?, if_neg hm, Option.toList_none, List.append_nil]
      exact h.holds_sign_other ht hasked hm hd
  · have hother : ∀ topic m p, f ≠ .signature topic m p :=
      fun topic m p heq => hsignature ⟨topic, m, p, heq⟩
    have hnone : f.request? span = none := by
      cases f with
      | signature topic m p => exact absurd rfl (hother topic m p)
      | _ => rfl
    obtain ⟨hsignatures, hrecords⟩ := add_other (d := d) hother
    rw [hnone, Option.toList_none, List.append_nil]
    exact hd.onward (h.onward (step_add ht h.alike hasked)) (by rw [hsignatures])
      fun r hr _ => hrecords r hr

/-- All findings of a list recorded. -/
theorem Faithful.holds_addAll (ht : t.ReadFrom source) (h : Faithful strategy cx t d)
    (hs : s ∈ t.sites) (hspan : s.span = some span) {findings : List Finding}
    (hasked : ∀ f ∈ findings, f.Asked strategy cx t)
    (hown : ∀ topic m p, .signature topic m p ∈ findings → m.span = some span → m = s)
    (hd : d.Holds s span requests) :
    (d.addAll findings).Holds s span (requests ++ findings.filterMap (·.request? span)) := by
  induction findings generalizing d requests with
  | nil =>
    rw [List.filterMap_nil, List.append_nil]
    exact hd
  | cons f findings ih =>
    have hf := hasked f (List.mem_cons_self ..)
    have hadd := h.holds_add ht hs hspan hf
      (fun topic m p heq => hown topic m p (heq ▸ List.mem_cons_self ..)) hd
    have hsplit : requests ++ (f :: findings).filterMap (·.request? span) =
        requests ++ (f.request? span).toList ++ findings.filterMap (·.request? span) := by
      rw [List.append_assoc, List.filterMap_cons]
      cases f.request? span <;> rfl
    rw [hsplit]
    exact ih (h.step (step_add ht h.alike hf)) (fun g hg => hasked g (List.mem_cons_of_mem _ hg))
      (fun topic m p hmem => hown topic m p (List.mem_cons_of_mem _ hmem)) hadd

/-! ## Other records -/

/-- A record that is not of a header stays. -/
theorem mem_add {f : Finding} {r : Record} (hr : r ∈ d.plan.records)
    (hother : r.change.signature? = none) : r ∈ (d.add f).plan.records := by
  by_cases hsignature : ∃ topic m p, f = .signature topic m p
  · obtain ⟨topic, m, p, rfl⟩ := hsignature
    simp only [add]
    rcases d.records_sign topic m p with heq | ⟨tag, heq⟩ | ⟨tag, heq⟩
    · rwa [heq]
    · rw [heq]
      refine List.mem_map.2 ⟨r, hr, ?_⟩
      rcases mergeInto_cases tag p.change r with hsame | ⟨first, hfirst, -, -⟩
      · exact hsame
      · rw [hfirst] at hother
        cases hother
    · rw [heq]
      exact List.mem_append_left _ hr
  · exact (add_other fun topic m p heq => hsignature ⟨topic, m, p, heq⟩).2 r hr

theorem mem_addAll {findings : List Finding} {r : Record} (hr : r ∈ d.plan.records)
    (hother : r.change.signature? = none) : r ∈ (d.addAll findings).plan.records := by
  induction findings generalizing d with
  | nil => exact hr
  | cons f findings ih => exact ih (mem_add hr hother)

/-- A change of a node with a span is in the plan in the end, for that node. -/
theorem Faithful.exists_recorded (ht : t.ReadFrom source) (h : Faithful strategy cx t d)
    {findings : List Finding} (hasked : ∀ f ∈ findings, f.Asked strategy cx t) {topic : Topic}
    {u : Site} {written : String} {change : Change} (hf : .change topic u written change ∈ findings)
    (hspan : u.span = some span) :
    ∃ r ∈ (d.addAll findings).plan.records, r.change = change ∧
      (d.addAll findings).tree.TaggedOnlyAt r.tag u.path := by
  obtain ⟨d₁, later, hd₁, hturn, hlater⟩ := h.exists_turn ht hasked hf
  obtain ⟨hu, -, hother, -⟩ := hasked _ hf
  have hne := ht.tokens_ne_nil (Tree.mem_sites_iff.1 hu).2 hspan
  obtain ⟨w, hattach, hgains⟩ := attach_eq_ok ht hd₁.alike hu hne ⟨d₁.next⟩
  have hadd : d₁.add (.change topic u written change) = d₁.keep w written change := by
    simp only [add, record, hattach]
  have hadded := hd₁.step (step_add ht hd₁.alike (hasked _ hf))
  rw [hturn]
  rw [hadd] at hadded ⊢
  exact ⟨⟨⟨d₁.next⟩, written, change⟩,
    mem_addAll (List.mem_append_right _ (List.mem_singleton_self _)) hother, rfl,
    (hadded.onward_addAll ht hlater).tagged _ _ (hd₁.onlyAt_next hgains)⟩

/-! ## One record a method -/

theorem Enlists.onward (h : d.Enlists t) (honward : d.Onward d') {r : Record}
    (hr : r ∈ d.plan.records) {change : SignatureChange} (hchange : r.change = .signature change) :
    ∃ u ∈ t.sites, d'.tree.TaggedOnlyAt r.tag u.path ∧ d'.Enters u r.tag := by
  obtain ⟨u, hu, honly, other, hspan, hentered⟩ := h r hr change hchange
  exact ⟨u, hu, honward.tagged _ _ honly, other, hspan, honward.entered _ _ hentered⟩

theorem Faithful.enlists_sign (ht : t.ReadFrom source) (h : Faithful strategy cx t d)
    {topic : Topic} {m : Site} {p : Proposal SignatureChange}
    (hasked : (Finding.signature topic m p).Asked strategy cx t) (hd : d.Enlists t) :
    (d.sign topic m p).Enlists t := by
  have honward : d.Onward (d.sign topic m p) := h.onward (step_add ht h.alike hasked)
  rcases hspan : m.span with _ | other
  · simp only [sign, hspan]
    exact hd
  · rcases hknown : d.signatures.lookup other with _ | tag
    · rcases hattach : attach d.tree m ⟨d.next⟩ with e | w
      · simp only [sign, hspan, hknown, hattach]
        exact hd
      · rw [sign_new hspan hknown hattach] at honward ⊢
        intro r hr change hchange
        rcases List.mem_append.1 hr with hr | hr
        · exact hd.onward honward hr hchange
        · obtain rfl := List.mem_singleton.1 hr
          refine ⟨m, hasked.1, h.onlyAt_next (gains_of_attach ht h.alike hasked.1 hattach), other,
            hspan, ?_⟩
          simp [List.lookup_append, hknown]
    · rw [sign_known hspan hknown]
      intro r hr change hchange
      obtain ⟨r, hold, rfl⟩ := List.mem_map.1 hr
      rcases mergeInto_cases tag p.change r with heq | ⟨first, hfirst, -, heq⟩
      · rw [heq] at hchange ⊢
        exact hd r hold change hchange
      · rw [heq]
        exact hd r hold first hfirst

theorem Faithful.enlists_addAll (ht : t.ReadFrom source) (h : Faithful strategy cx t d)
    {findings : List Finding} (hasked : ∀ f ∈ findings, f.Asked strategy cx t)
    (hd : d.Enlists t) : (d.addAll findings).Enlists t := by
  induction findings generalizing d with
  | nil => exact hd
  | cons f findings ih =>
    have hf := hasked f (List.mem_cons_self ..)
    have hstep := step_add ht h.alike hf
    refine ih (h.step hstep) (fun g hg => hasked g (List.mem_cons_of_mem _ hg)) ?_
    by_cases hsignature : ∃ topic m p, f = .signature topic m p
    · obtain ⟨topic, m, p, rfl⟩ := hsignature
      exact h.enlists_sign ht hf hd
    · intro r hr change hchange
      have hother : ∀ topic m p, f ≠ .signature topic m p :=
        fun topic m p heq => hsignature ⟨topic, m, p, heq⟩
      have hold := mem_of_mem_add_other hf hother hr (by rw [hchange]; exact nofun)
      exact hd.onward (h.onward hstep) hold hchange

end Steps

end Draft

/-! ## What the passes ask for -/

/-- What a proposal for a type asks for of the header of a method. -/
def ClassProposal.request? (s : Site) : ClassProposal → Option SignatureChange
  | .signature method p => if s.span = some method then some p.change else none
  | _ => none

namespace Strategy

section Requests

variable (strategy : Strategy) (cx : Context) (t : Tree) (s : Site)

/-- What the types of a tree ask for of the header of a method. -/
def classRequests : List SignatureChange :=
  (strategy.findClasses t).flatMap fun owner =>
    match strategy.classes cx owner with
    | .ok proposals => proposals.filterMap (ClassProposal.request? s)
    | .error _ => []

/-- True for a call that the plan has an assertion for that awaits. -/
def awaitsAt (call : Site) : Bool :=
  match strategy.assertion cx call with
  | .ok (some p) => (fitAssertion cx (.ofTree cx.model t) call p.change).awaits && call.span.isSome
  | _ => false

/-- What the assertions that await ask for of the header of the method of a type that is around
    them: that it becomes asynchronous, unless it is so, an interface fixes it, or its return type
    cannot be told. -/
def asyncRequests : List SignatureChange :=
  let isAround := (strategy.findAssertions t).any fun call =>
    strategy.awaitsAt cx t call && call.function?.map Site.path == some s.path
  let isFixed := s.isLocalFunction || s.node.hasModifier cx.settings.asyncKeyword ||
    (InterfaceMethods.ofTree cx.model t).hasSite s
  if isAround && !isFixed then
    match asyncReturn cx.settings ⟨s.node⟩ with
    | .ok returnType => [{ addAsync := true, returnType }]
    | .error _ => []
  else []

/-- What the target framework asks for of the header of a method. -/
def publicRequests : List SignatureChange :=
  (strategy.findMethods t).flatMap fun u =>
    match strategy.makesPublic cx u with
    | .ok true => if u.path = s.path then [{ makePublic := true }] else []
    | _ => []

/-- All that is asked for of the header of a method, in the order of the passes. -/
def requests : List SignatureChange :=
  strategy.classRequests cx t s ++ strategy.asyncRequests cx t s ++ strategy.publicRequests cx t s

end Requests

variable {source : String} {strategy : Strategy} {cx : Context} {t : Tree} {s : Site} {span : Span}

/-! ### Types -/

/-- Proposals that are about no header ask for none. -/
theorem filterMap_ofProposals {α : Type} {topic : Topic} {rule : Rule (Option α)}
    {finding : Site → α → Finding} {candidates : List Site}
    (h : ∀ u a, (finding u a).request? span = none) :
    (Finding.ofProposals topic cx rule finding candidates).filterMap (·.request? span) = [] := by
  refine List.filterMap_eq_nil_iff.2 fun f hf => ?_
  rcases Finding.mem_ofProposals hf with ⟨u, -, a, -, rfl⟩ | ⟨failure, rfl⟩
  · exact h u a
  · rfl

theorem filterMap_ofRemovals {topic : Topic} {rule : Rule Bool} {removal : Site → Change}
    {candidates : List Site} :
    (Finding.ofRemovals topic cx rule removal candidates).filterMap (·.request? span) = [] := by
  refine List.filterMap_eq_nil_iff.2 fun f hf => ?_
  rcases Finding.mem_ofRemovals hf with ⟨u, -, -, rfl⟩ | ⟨failure, rfl⟩ <;> rfl

theorem filterMap_markerFindings :
    (strategy.markerFindings cx t).filterMap (·.request? span) = [] := by
  rw [markerFindings, List.filterMap_flatMap, List.flatMap_eq_nil_iff]
  intro u _
  rw [markerFinding]
  rcases strategy.removesMarker cx u with complaint | _ | _
  · rfl
  · exact filterMap_ofProposals fun _ _ => rfl
  · rfl

theorem request?_callFinding (u : Site) (proposal : CallProposal) :
    (callFinding u proposal).request? span = none := by
  cases proposal with
  | replacement written text => rfl
  | capture written captured body =>
    rw [callFinding]
    split <;> rfl

/-- What a type proposes for a method is asked for at the method. -/
theorem request?_classFinding (ht : t.ReadFrom source) (hs : s ∈ t.sites)
    (hkind : s.kind = .methodDeclaration) (hspan : s.span = some span) (owner : Site)
    (proposal : ClassProposal) :
    (classFinding t owner proposal).request? span = proposal.request? s := by
  cases proposal with
  | signature method p =>
    simp only [classFinding, ClassProposal.request?, hspan, Option.some.injEq]
    rcases hfound : t.findSpan? .methodDeclaration method with _ | target
    · -- The method itself has its span, so this one is of no method.
      have hne : span ≠ method := by
        rintro rfl
        rw [← hkind, ht.findSpan?_self hs hspan] at hfound
        cases hfound
      simp only [hne, if_false]
      rfl
    · have htarget := (Tree.findSpan?_mem hfound).2.2
      simp only [Finding.request?, htarget, Option.some.injEq, eq_comm]
  | _ => rfl

theorem filterMap_classFindings (ht : t.ReadFrom source) (hs : s ∈ t.sites)
    (hkind : s.kind = .methodDeclaration) (hspan : s.span = some span) :
    (strategy.classFindings cx t).filterMap (·.request? span) = strategy.classRequests cx t s := by
  rw [classFindings, classRequests, List.filterMap_flatMap]
  congr 1
  funext owner
  rw [classFindingsAt, List.filterMap_append, filterMap_ofRemovals, List.nil_append]
  rcases strategy.classes cx owner with complaint | proposals
  · rfl
  · simp only [Finding.ofAnswer, List.filterMap_map]
    congr 1
    funext proposal
    exact request?_classFinding ht hs hkind hspan owner proposal

/-- Before the methods that await are looked at, only types ask for headers. -/
theorem filterMap_findings (ht : t.ReadFrom source) (hs : s ∈ t.sites)
    (hkind : s.kind = .methodDeclaration) (hspan : s.span = some span) :
    (strategy.findings cx (.ofTree cx.model t) t).filterMap (·.request? span) =
      strategy.classRequests cx t s := by
  have hassertions : (strategy.assertionFindings cx (.ofTree cx.model t) t).filterMap
      (·.request? span) = [] := filterMap_ofProposals fun _ _ => rfl
  have hparameters : (strategy.parameterMarkerFindings cx t).filterMap (·.request? span) = [] :=
    filterMap_ofProposals fun _ _ => rfl
  have hmissing : (strategy.missingMarkerFindings cx t).filterMap (·.request? span) = [] :=
    filterMap_ofProposals fun _ _ => rfl
  have hmembers : (strategy.memberFindings cx t).filterMap (·.request? span) = [] :=
    filterMap_ofRemovals
  have hconstructors : (strategy.constructorParameterFindings cx t).filterMap (·.request? span) = [] :=
    filterMap_ofRemovals
  have hcalls : (strategy.callFindings cx t).filterMap (·.request? span) = [] :=
    filterMap_ofProposals request?_callFinding
  have hcontainers : (strategy.containerFindings cx t).filterMap (·.request? span) = [] :=
    filterMap_ofProposals fun _ _ => rfl
  simp only [findings, List.filterMap_append, hassertions, filterMap_markerFindings, hparameters,
    hmissing, filterMap_classFindings ht hs hkind hspan, hmembers, hconstructors, hcalls, hcontainers,
    List.nil_append, List.append_nil]

/-! ### Assertions that await -/

/-- Only one element of a list without repetitions can be the one that is looked for. -/
theorem filterMap_eraseDups {α β : Type} [DecidableEq α] (a : α) (b? : Option β) (xs : List α) :
    (xs.eraseDups.filterMap fun x => if x = a then b? else none) =
      if a ∈ xs then b?.toList else [] := by
  match xs with
  | [] => rfl
  | x :: xs =>
    rw [List.eraseDups_cons, List.filterMap_cons]
    have ih := filterMap_eraseDups a b? (xs.filter fun y => !y == x)
    rw [ih]
    by_cases hx : x = a
    · subst hx
      have hnot : x ∉ xs.filter fun y => !y == x := by simp
      rw [if_pos rfl, if_neg hnot, if_pos (List.mem_cons_self ..)]
      cases b? <;> rfl
    · have hmem : a ∈ xs.filter (fun y => !y == x) ↔ a ∈ x :: xs := by
        simp [Ne.symm hx]
      rw [if_neg hx]
      simp only [hmem]
termination_by xs.length
decreasing_by exact Nat.lt_succ_of_le (List.length_filter_le ..)

theorem awaitsAt_iff {call : Site} : strategy.awaitsAt cx t call = true ↔
    ∃ p, strategy.assertion cx call = .ok (some p) ∧
      (fitAssertion cx (.ofTree cx.model t) call p.change).awaits = true ∧
      ∃ S, call.span = some S := by
  unfold awaitsAt
  split
  · rename_i p hanswer
    simp [hanswer, Option.isSome_iff_exists]
  · rename_i hnone
    simp only [Bool.false_eq_true, false_iff]
    rintro ⟨p, hanswer, -⟩
    exact hnone p hanswer

/-- A method awaits when it is the method of a type around an assertion that does. -/
theorem mem_awaitingMethods (ht : t.ReadFrom source) (hfinds : strategy.FindsSites t)
    (hs : s ∈ t.sites) (hkind : s.kind = .methodDeclaration) (hspan : s.span = some span) :
    span ∈ (strategy.found cx t).awaitingMethods ↔ s.isLocalFunction = false ∧
      ∃ call ∈ strategy.findAssertions t, strategy.awaitsAt cx t call = true ∧
        call.function? = some s := by
  have hfound : Draft.Faithful strategy cx t (strategy.found cx t) := faithful_found ht hfinds
  rw [Draft.awaitingMethods, List.mem_eraseDups, List.mem_filterMap]
  constructor
  · rintro ⟨r, hr, hmethod⟩
    split at hmethod
    · rename_i hawaits
      obtain ⟨call, hcall, hcall_span, hasked, honly⟩ := hfound.onlyAt hr
      -- The tag is looked up in the working copy, where the function around it is the same.
      rw [Draft.methodAround?_eq hfound.alike hcall honly] at hmethod
      obtain ⟨f, hfunction, hf_span⟩ := Option.bind_eq_some_iff.1 hmethod
      obtain ⟨hfunction, hmember⟩ := Option.filter_eq_some_iff.1 hfunction
      simp only [Bool.and_eq_true, beq_iff_eq, Bool.not_eq_true'] at hmember
      have hf := (Site.ancestorWhere?_mem hcall hfunction).1
      obtain rfl : f = s := Tree.eq_of_path_eq hf hs <| ht.path_eq_of_span
        (Tree.mem_sites_iff.1 hf).2 (Tree.mem_sites_iff.1 hs).2 (hmember.1.trans hkind.symm)
        hf_span hspan
      rcases hchange : r.change.assertion? with _ | change
      · simp [hchange] at hawaits
      · rw [Change.assertion?_eq_some_iff.1 hchange] at hasked
        obtain ⟨p, hcandidate, hanswer, rfl⟩ := Draft.asked_assertion_iff.1 hasked
        rw [hchange] at hawaits
        exact ⟨hmember.2, call, hcandidate, awaitsAt_iff.2 ⟨p, hanswer, hawaits, hcall_span⟩,
          hfunction⟩
    · cases hmethod
  · rintro ⟨hmember, call, hcandidate, hawaits, hfunction⟩
    obtain ⟨p, hanswer, hawaits, S, hS⟩ := awaitsAt_iff.1 hawaits
    have hfinding : .change .assertion call p.written
        (.assertion (fitAssertion cx (.ofTree cx.model t) call p.change)) ∈
          strategy.findings cx (.ofTree cx.model t) t := by
      simp only [findings, List.append_assoc]
      refine List.mem_append_left _ (List.mem_flatMap.2 ⟨call, hcandidate, ?_⟩)
      rw [hanswer]
      exact List.mem_singleton_self _
    obtain ⟨r, hr, hchange, honly⟩ := faithful_started.exists_recorded ht
      (fun _ hf => asked_of_mem_findings hfinds hf) hfinding hS
    refine ⟨r, hr, ?_⟩
    have hassertion : (r.change.assertion?.map AssertionChange.awaits).getD false = true := by
      rw [hchange]
      exact hawaits
    rw [if_pos hassertion, Draft.methodAround?_eq hfound.alike (hfinds.assertions _ hcandidate) honly,
      hfunction]
    simp [Option.filter_some, hkind, hmember, hspan]

theorem filterMap_asyncFindings (ht : t.ReadFrom source) (hfinds : strategy.FindsSites t)
    (hs : s ∈ t.sites) (hkind : s.kind = .methodDeclaration) (hspan : s.span = some span) :
    ((strategy.found cx t).asyncFindings cx.settings (.ofTree cx.model t) t).filterMap
      (·.request? span) = strategy.asyncRequests cx t s := by
  have hself : t.findSpan? .methodDeclaration span = some s := hkind ▸ ht.findSpan?_self hs hspan
  -- Only the finding for the span of the method is about the method.
  have hspans : (fun S => (Draft.asyncFinding? cx.settings (.ofTree cx.model t) t S).bind
      (·.request? span)) = fun S => if S = span then
        (Draft.asyncFinding? cx.settings (.ofTree cx.model t) t span).bind (·.request? span)
        else none := by
    funext S
    by_cases hS : S = span
    · rw [if_pos hS, hS]
    · rw [if_neg hS, Option.bind_eq_none_iff]
      intro f hf
      rcases hfound : t.findSpan? .methodDeclaration S with _ | method
      · rw [Draft.asyncFinding?, hfound] at hf
        cases hf
      · rcases Draft.asyncFinding?_cases hfound hf with ⟨failure, rfl⟩ | ⟨p, rfl⟩
        · rfl
        · have hmethod := (Tree.findSpan?_mem hfound).2.2
          exact if_neg (by simpa [hmethod] using hS)
  have haround : ((strategy.findAssertions t).any fun call => strategy.awaitsAt cx t call &&
      call.function?.map Site.path == some s.path) = true ↔
        ∃ call ∈ strategy.findAssertions t, strategy.awaitsAt cx t call = true ∧
          call.function? = some s := by
    simp only [List.any_eq_true, Bool.and_eq_true, beq_iff_eq]
    refine exists_congr fun call => and_congr_right fun hcall => and_congr_right fun _ => ?_
    constructor
    · intro hpath
      obtain ⟨f, hf, hpath⟩ := Option.map_eq_some_iff.1 hpath
      have hf_mem := (Site.ancestorWhere?_mem (hfinds.assertions _ hcall) hf).1
      rw [hf, Tree.eq_of_path_eq hf_mem hs hpath]
    · intro hfunction
      rw [hfunction]
      rfl
  have hmem : span ∈ (strategy.found cx t).awaitingMethods ↔ _ :=
    mem_awaitingMethods ht hfinds hs hkind hspan
  rw [← haround, Draft.awaitingMethods, List.mem_eraseDups] at hmem
  rw [Draft.asyncFindings, List.filterMap_filterMap, hspans, Draft.awaitingMethods,
    filterMap_eraseDups, Draft.asyncFinding?_eq _ _ hself, Site.method?_eq hkind, Option.bind_some, asyncRequests]
  generalize ((strategy.findAssertions t).any fun call => strategy.awaitsAt cx t call &&
    call.function?.map Site.path == some s.path) = isAround at hmem ⊢
  generalize hfixed : (s.node.hasModifier cx.settings.asyncKeyword ||
    (InterfaceMethods.ofTree cx.model t).hasSite s) = isFixed
  by_cases hawaiting : s.isLocalFunction = false ∧ isAround = true
  · obtain ⟨hlocal, rfl⟩ := hawaiting
    simp only [if_pos (hmem.2 ⟨hlocal, rfl⟩), hlocal, Bool.true_and, Bool.false_or, hfixed]
    rcases isFixed with _ | _
    · rcases asyncReturn cx.settings ⟨s.node⟩ with e | returnType
      · rfl
      · simp [Finding.request?, hspan]
    · rfl
  · have hquiet : (isAround && !(s.isLocalFunction || isFixed)) = false := by
      rcases isAround with _ | _ <;> rcases hlocal : s.isLocalFunction with _ | _
      · rfl
      · rfl
      · exact absurd ⟨hlocal, rfl⟩ hawaiting
      · rfl
    simp only [if_neg fun hin => hawaiting (hmem.1 hin), Bool.or_assoc, hfixed, hquiet,
      Bool.false_eq_true, if_false]

/-! ### Visibility -/

theorem filterMap_visibilityFindings (hs : s ∈ t.sites) (hspan : s.span = some span)
    (hfinds : strategy.FindsSites t)
    (hown : ∀ u ∈ strategy.findMethods t, u.span = some span → u = s) :
    (strategy.visibilityFindings cx t).filterMap (·.request? span) =
      strategy.publicRequests cx t s := by
  rw [visibilityFindings, publicRequests, List.filterMap_flatMap, List.flatMap_def, List.flatMap_def]
  congr 1
  refine List.map_congr_left fun u hu => ?_
  have hsame : u.span = some span ↔ u.path = s.path := by
    constructor
    · intro h
      rw [hown u hu h]
    · intro h
      rw [Tree.eq_of_path_eq (hfinds.methods u hu) hs h, hspan]
  rcases strategy.makesPublic cx u with complaint | _ | _
  · rfl
  · rfl
  · by_cases hpath : u.path = s.path
    · simp [Finding.ofAnswer, Finding.request?, hpath, hsame.2 hpath]
    · have hne : u.span ≠ some span := fun h => hpath (hsame.1 h)
      simp [Finding.ofAnswer, Finding.request?, hpath, hne]

/-! ## The records of headers -/

/-- Everything that is asked for of the header of a method is held in the end, when no other kind of
    node with its place is among the candidates for visibility. -/
theorem holds_finished (ht : t.ReadFrom source) (hfinds : strategy.FindsSites t) (hs : s ∈ t.sites)
    (hkind : s.kind = .methodDeclaration) (hspan : s.span = some span)
    (hmethods : ∀ u ∈ strategy.findMethods t, u.span = some span → u.kind = .methodDeclaration) :
    (strategy.finished cx t).Holds s span (strategy.requests cx t s) := by
  have hown : ∀ {f : Finding}, f.Asked strategy cx t → ∀ topic m p, f = .signature topic m p →
      m.span = some span → m = s := by
    rintro f hf topic m p rfl hm_span
    obtain ⟨hm, hasked⟩ := hf
    -- Types and assertions ask for methods alone, so that the span tells which one it is.
    have hm_kind : m.kind = .methodDeclaration := by
      cases hasked p.change with
      | classSignature change candidate answer proposed target =>
        exact (Tree.findSpan?_mem target).2.1
      | asyncSignature change candidate answer awaits fits target isMethod isMember => exact isMethod
      | visibility change candidate answer => exact hmethods m candidate hm_span
    exact Tree.eq_of_path_eq hm hs <| ht.path_eq_of_span (Tree.mem_sites_iff.1 hm).2
      (Tree.mem_sites_iff.1 hs).2 (hm_kind.trans hkind.symm) hm_span hspan
  have hpublic : ∀ u ∈ strategy.findMethods t, u.span = some span → u = s := by
    intro u hu hu_span
    have hu_mem := hfinds.methods u hu
    exact Tree.eq_of_path_eq hu_mem hs <| ht.path_eq_of_span (Tree.mem_sites_iff.1 hu_mem).2
      (Tree.mem_sites_iff.1 hs).2 ((hmethods u hu hu_span).trans hkind.symm) hu_span hspan
  have hfound : (strategy.found cx t).Holds s span (strategy.classRequests cx t s) := by
    have hasked : ∀ f ∈ strategy.findings cx (.ofTree cx.model t) t, f.Asked strategy cx t :=
      fun f hf => asked_of_mem_findings hfinds hf
    rw [← filterMap_findings ht hs hkind hspan]
    exact faithful_started.holds_addAll ht hs hspan hasked
      (fun topic m p hf => hown (hasked _ hf) topic m p rfl) (.nothing rfl)
  have hsigned : (strategy.signed cx t).Holds s span
      (strategy.classRequests cx t s ++ strategy.asyncRequests cx t s) := by
    have hfaithful : Draft.Faithful strategy cx t (strategy.found cx t) := faithful_found ht hfinds
    have hasked := fun f => Draft.asked_async (f := f) ht hfaithful
    rw [← filterMap_asyncFindings ht hfinds hs hkind hspan]
    exact hfaithful.holds_addAll ht hs hspan hasked
      (fun topic m p hf => hown (hasked _ hf) topic m p rfl) hfound
  have hasked : ∀ f ∈ strategy.visibilityFindings cx t, f.Asked strategy cx t :=
    fun f hf => asked_visibility hfinds hf
  rw [requests, ← filterMap_visibilityFindings hs hspan hfinds hpublic]
  exact (faithful_signed ht hfinds).holds_addAll ht hs hspan hasked
    (fun topic m p hf => hown (hasked _ hf) topic m p rfl) hsigned

theorem enlists_finished (ht : t.ReadFrom source) (hfinds : strategy.FindsSites t) :
    (strategy.finished cx t).Enlists t := by
  have hfound : (strategy.found cx t).Enlists t := faithful_started.enlists_addAll ht
    (fun _ hf => asked_of_mem_findings hfinds hf) fun _ hr => nomatch hr
  have hsigned : (strategy.signed cx t).Enlists t := (faithful_found ht hfinds).enlists_addAll ht
    (fun _ hf => Draft.asked_async ht (faithful_found ht hfinds) hf) hfound
  exact (faithful_signed ht hfinds).enlists_addAll ht (fun _ hf => asked_visibility hfinds hf) hsigned

end Strategy

namespace Draft

variable {source : String} {strategy : Strategy} {cx : Context} {t : Tree} {d : Draft}

/-- Records are told apart by their tags. -/
theorem Faithful.nodup_tag (h : Faithful strategy cx t d) : (d.plan.records.map Record.tag).Nodup := by
  rw [List.Nodup, List.pairwise_map]
  refine (List.nodup_flatMap.1 h.nodup).2.imp fun hdisjoint htag => ?_
  exact hdisjoint (List.mem_cons_self ..) (htag ▸ List.mem_cons_self ..)

/-- A node has one record of its header at most. -/
theorem Enlists.tag_unique (h : d.Enlists t) {r r' : Record} (hr : r ∈ d.plan.records)
    (hr' : r' ∈ d.plan.records) {change change' : SignatureChange}
    (hchange : r.change = .signature change) (hchange' : r'.change = .signature change')
    {p : Path} (hp : (d.tree.findTagged? r.tag).map Site.path = some p)
    (hp' : (d.tree.findTagged? r'.tag).map Site.path = some p) : r.tag = r'.tag := by
  obtain ⟨u, hu, honly, span, hspan, hentered⟩ := h r hr change hchange
  obtain ⟨v, hv, hv_only, span', hspan', hentered'⟩ := h r' hr' change' hchange'
  have hu_path := Option.some.inj (honly.path_eq.symm.trans hp)
  have hv_path := Option.some.inj (hv_only.path_eq.symm.trans hp')
  obtain rfl : u = v := Tree.eq_of_path_eq hu hv (hu_path.trans hv_path.symm)
  obtain rfl : span = span' := Option.some.inj (hspan.symm.trans hspan')
  exact Option.some.inj (hentered.symm.trans hentered')

end Draft

namespace Analysis

variable {result : Analysis} {p : Path} {change : SignatureChange}

/-- The node that a record of a header is about, with what is to become of it. -/
def header? (result : Analysis) (r : Record) : Option (Path × SignatureChange) :=
  r.change.signature?.bind fun change =>
    (result.tree.findTagged? r.tag).map fun target => (target.path, change)

/-- The nodes that the records of headers are about, with what is to become of them. -/
def headers (result : Analysis) : List (Path × SignatureChange) :=
  result.plan.records.filterMap result.header?

theorem header?_eq_some_iff {r : Record} : result.header? r = some (p, change) ↔
    r.change = .signature change ∧ (result.tree.findTagged? r.tag).map Site.path = some p := by
  simp only [header?, Option.bind_eq_some_iff, Option.map_eq_some_iff, Prod.mk.injEq,
    Change.signature?_eq_some_iff]
  constructor
  · rintro ⟨c, hchange, target, htarget, hpath, rfl⟩
    exact ⟨hchange, target, htarget, hpath⟩
  · rintro ⟨hchange, target, htarget, hpath⟩
    exact ⟨change, hchange, target, htarget, hpath, rfl⟩

theorem mem_headers : (p, change) ∈ result.headers ↔ ∃ r ∈ result.plan.records,
    r.change = .signature change ∧ (result.tree.findTagged? r.tag).map Site.path = some p := by
  simp only [headers, List.mem_filterMap, header?_eq_some_iff]

end Analysis

/-! ## Methods have places -/

/-- The words of a type are not empty. -/
theorem Grammar.Spelled.ne_nil {construct : Construct} {ts : List Token}
    (h : Spelled construct ts)
    (hconstruct : construct ∈ [Construct.simple, .path, .stem, .type]) : ts ≠ [] := by
  induction h with
  | name | generic | aliased | predefined | tuple => exact List.cons_ne_nil _ _
  | plain _ ih => exact ih (by decide)
  | named _ ih => exact ih (by decide)
  | qualified => simp
  | suffixed _ _ ih => simp [ih (by decide)]
  | omitted | argument | element | labelled | last | more => simp at hconstruct

/-- A method of a tree that was read stands somewhere: it has a return type. -/
theorem Site.exists_span_of_method {source : String} {reading : Nat} {t : Tree} {s : Site}
    (hparse : Tree.parse source reading = .ok t) (hs : s ∈ t.sites)
    (hkind : s.kind = .methodDeclaration) : ∃ span, s.span = some span := by
  obtain ⟨-, hat⟩ := Tree.mem_sites_iff.1 hs
  obtain ⟨lists, mods, type, rest, hchildren, -, -, hspelled, -⟩ :=
    ((Tree.formed_of_parse hparse).at? hat).forms.typed hkind
  refine (Tree.readFrom_of_parse hparse).exists_span hat fun hnil => ?_
  refine hspelled.ne_nil (by decide) (List.eq_nil_of_subset_nil fun token htoken => ?_)
  rw [← hnil, Node.tokens_eq, hchildren]
  exact Element.mem_tokensIn (by simp) (show token ∈ (Element.node type).tokens from htoken)

/-- What is asked for of the header of a method comes to one record. For any tree that was read, any
    strategy whose candidates are nodes of the tree, any model and any settings: every record of a
    header is about a node, no two are about the same one, and a method has a record exactly when
    something was asked for, by a type, by an assertion that awaits, or for the sake of visibility.
    The record asks for all of it, with the first return type in this order. This is so for every
    method such that no node of another kind with the same span is a candidate for visibility. -/
theorem Strategy.analyze_merges_requests {source : String} {reading : Nat} {t : Tree}
    (hparse : Tree.parse source reading = .ok t) (strategy : Strategy)
    (hfinds : strategy.FindsSites t) (cx : Context) :
    let result := strategy.analyze cx t
    (∀ r ∈ result.plan.records, ∀ change, r.change = .signature change →
      ∃ s ∈ t.sites, result.tree.TaggedOnlyAt r.tag s.path ∧ (s.path, change) ∈ result.headers) ∧
    (result.headers.map Prod.fst).Nodup ∧
    ∀ s ∈ t.sites, s.kind = .methodDeclaration →
      (∀ u ∈ strategy.findMethods t, u.span = s.span → u.kind = .methodDeclaration) →
      ∀ change, (s.path, change) ∈ result.headers ↔
        strategy.requests cx t s ≠ [] ∧ change = .combine (strategy.requests cx t s) := by
  have ht := Tree.readFrom_of_parse hparse
  have hd : Draft.Faithful strategy cx t (strategy.finished cx t) := faithful_finished ht hfinds
  have hlisted : (strategy.finished cx t).Enlists t := enlists_finished ht hfinds
  have htree := strategy.analyze_tree cx t
  have hrecords := strategy.analyze_records cx t
  intro result
  refine ⟨?_, ?_, ?_⟩
  · intro r hr change hchange
    obtain ⟨s, hs, honly, -⟩ := hlisted r (hrecords ▸ hr) change hchange
    refine ⟨s, hs, htree ▸ honly, Analysis.mem_headers.2 ⟨r, hr, hchange, ?_⟩⟩
    rw [htree]
    exact honly.path_eq
  · rw [List.Nodup, List.pairwise_map, Analysis.headers, List.pairwise_filterMap, hrecords]
    refine (List.pairwise_map.1 hd.nodup_tag).imp_of_mem ?_
    rintro r r' hr hr' htag ⟨p, change⟩ hheader ⟨p', change'⟩ hheader' rfl
    obtain ⟨hchange, hp⟩ := Analysis.header?_eq_some_iff.1 hheader
    obtain ⟨hchange', hp'⟩ := Analysis.header?_eq_some_iff.1 hheader'
    rw [htree] at hp hp'
    exact htag (hlisted.tag_unique hr hr' hchange hchange' hp hp')
  · intro s hs hkind hmethods change
    obtain ⟨span, hspan⟩ := Site.exists_span_of_method hparse hs hkind
    have hheld : (strategy.finished cx t).Holds s span (strategy.requests cx t s) :=
      holds_finished ht hfinds hs hkind hspan (hspan ▸ hmethods)
    rw [Analysis.mem_headers, hrecords, htree]
    generalize strategy.requests cx t s = requests at hheld ⊢
    cases hheld with
    | nothing unknown =>
      -- A record of the method would be entered under its span.
      refine iff_of_false ?_ fun h => h.1 rfl
      rintro ⟨r, hr, hchange, hpath⟩
      obtain ⟨u, hu, honly, other, hother, hentered⟩ := hlisted r hr change hchange
      obtain rfl : u = s :=
        Tree.eq_of_path_eq hu hs (Option.some.inj (honly.path_eq.symm.trans hpath))
      obtain rfl : other = span := Option.some.inj (hother.symm.trans hspan)
      rw [unknown] at hentered
      cases hentered
    | @record _ held nonempty mem hheld known only =>
      constructor
      · -- Another record of the method would be entered under the same span.
        rintro ⟨r, hr, hchange, hpath⟩
        have htag := hlisted.tag_unique hr mem hchange hheld hpath only.path_eq
        obtain rfl := List.inj_on_of_nodup_map hd.nodup_tag hr mem htag
        exact ⟨nonempty, Change.signature.inj (hchange.symm.trans hheld)⟩
      · rintro ⟨-, rfl⟩
        exact ⟨held, mem, hheld, only.path_eq⟩

/-- A method that awaits and is not public. -/
def requestSource : String :=
  "using NUnit.Framework; class T \x7b [SetUp] void A() \x7b Assert.IsTrue(x); \x7d \x7d"

theorem Strategy.analyze_merges_requests_async :
    ∃ t, Tree.parse requestSource = .ok t ∧ ∃ cx : Context, ∃ s ∈ t.sites,
      s.kind = .methodDeclaration ∧
      Framework.nUnit.strategy.requests cx t s =
        [{ addAsync := true, returnType := .voidToWrapper }, { makePublic := true }] ∧
      (s.path, ⟨true, .voidToWrapper, true⟩) ∈ (Framework.nUnit.strategy.analyze cx t).headers := by
  have hfacts : (Tree.parse requestSource).toOption.map (fun t => do
      let s ← t.sites.find? fun s => s.kind == .methodDeclaration
      return Framework.nUnit.strategy.requests
        ⟨(SourceModel.build t Framework.nUnit.catalog).toSemanticModel, {}⟩ t s) =
        some (some [{ addAsync := true, returnType := .voidToWrapper }, { makePublic := true }]) := by
    decide +kernel
  obtain ⟨t, hparse, hfacts⟩ := exists_ok_of_map hfacts
  obtain ⟨s, hfind, hrequests⟩ := Option.bind_eq_some_iff.1 hfacts
  have hrequests := Option.some.inj hrequests
  have hs := List.mem_of_find?_eq_some hfind
  have hkind : s.kind = .methodDeclaration := by simpa using List.find?_some hfind
  obtain ⟨-, -, hheaders⟩ := Strategy.analyze_merges_requests hparse Framework.nUnit.strategy
    (Framework.nUnit.findsSites t)
    ⟨(SourceModel.build t Framework.nUnit.catalog).toSemanticModel, {}⟩
  have hmethods : ∀ u ∈ Framework.nUnit.strategy.findMethods t, u.span = s.span →
      u.kind = .methodDeclaration := by
    intro u hu _
    simpa using (List.mem_filter.1 hu).2
  refine ⟨t, hparse, _, s, hs, hkind, hrequests, (hheaders s hs hkind hmethods _).2 ⟨?_, ?_⟩⟩
  · rw [hrequests]
    exact List.cons_ne_nil _ _
  · rw [hrequests]
    rfl

/-- A strategy that looks for methods among files too, and needs all that it finds to be public. -/
def wideStrategy : Strategy where
  source := "Old"
  target := "New"
  findMethods := Tree.sitesOf [.compilationUnit, .methodDeclaration]
  makesPublic := fun _ _ => .ok true

/-- A file that is a candidate takes the request for a method with the same span. -/
theorem Strategy.not_merges_requests_file :
    ∃ t, Tree.parse "void M() \x7b \x7d" = .ok t ∧ wideStrategy.FindsSites t ∧
      ∃ cx : Context, ∃ s ∈ t.sites, s.kind = .methodDeclaration ∧
        wideStrategy.requests cx t s = [{ makePublic := true }] ∧
        ∀ change, (s.path, change) ∉ (wideStrategy.analyze cx t).headers := by
  have hfacts : (Tree.parse "void M() \x7b \x7d").toOption.map (fun t => do
      let cx : Context := ⟨(SourceModel.build t {}).toSemanticModel, {}⟩
      let s ← t.sites.find? fun s => s.kind == .methodDeclaration
      return (s.path, wideStrategy.requests cx t s,
        (wideStrategy.analyze cx t).headers.map Prod.fst)) =
        some (some ([0], [{ makePublic := true }], [[]])) := by
    decide +kernel
  obtain ⟨t, hparse, hfacts⟩ := exists_ok_of_map hfacts
  obtain ⟨s, hfind, hfacts⟩ := Option.bind_eq_some_iff.1 hfacts
  simp only [Option.pure_def, Option.some.injEq, Prod.mk.injEq] at hfacts
  obtain ⟨hpath, hrequests, hheaders⟩ := hfacts
  have hfilter : ∀ {wanted : Site → Bool} (u : Site), u ∈ t.sitesWhere wanted → u ∈ t.sites :=
    fun u hu => (List.mem_filter.1 hu).1
  refine ⟨t, hparse, ⟨hfilter, hfilter, hfilter, hfilter, hfilter, hfilter, hfilter, hfilter, hfilter⟩,
    _, s, List.mem_of_find?_eq_some hfind, by simpa using List.find?_some hfind, hrequests, ?_⟩
  intro change hmem
  have hfirst := List.mem_map_of_mem (f := Prod.fst) hmem
  rw [hheaders, List.mem_singleton, hpath] at hfirst
  cases hfirst

end Recast
