-- SUMMARY: No assertion of a plan awaits outside of asynchronous code, and one that has to wait instead is worded so.
import Recast.Proofs.Analysis.Annotation

/-! # Code that awaits

Two passes have a say in this. An assertion is let await where code can (`canAwait`), and a later
pass looks the assertions up again in the working copy and asks for the headers of the methods
around them. They agree on what the method is because the copy has the nodes of the tree at their
paths, and what the second pass records stays recorded: `Draft.Onward` is what every step respects. -/

namespace Recast

/-! ## Asynchronous code -/

/-- A plan makes a method asynchronous: the header of that method is the one that a record changes,
    as its tag in the tree of the analysis tells. -/
def Plan.MakesAsync (p : Plan) (w : Tree) (f : Site) : Prop :=
  ∃ r ∈ p.records, ∃ change, r.change = .signature change ∧ change.addAsync = true ∧
    w.TaggedOnlyAt r.tag f.path

/-- A plan says that a method could not be made asynchronous. -/
def Plan.RefusesAsync (p : Plan) (f : Site) : Prop :=
  ∃ failure ∈ p.failures, failure.phase = .analysis .signature ∧ failure.written = f.text

/-- The code of a function is asynchronous, or will be once the plan is carried out, or the plan says
    why not. -/
inductive Analysis.AwaitsIn (result : Analysis) (settings : Settings) (f : Site) : Prop where
  | lambda (isLambda : f.kind.isLambda = true)
      (isAsync : f.node.hasToken settings.asyncKeyword = true)
  | localFunction {owner : Site} (isMethod : f.kind = .methodDeclaration)
      (parent : f.parent? = some owner) (isLocal : owner.kind.isTypeDeclaration = false)
      (isAsync : f.node.hasModifier settings.asyncKeyword = true)
  | method {owner : Site} (isMethod : f.kind = .methodDeclaration)
      (parent : f.parent? = some owner) (isMember : owner.kind.isTypeDeclaration = true)
      (byValue : (View.Method.mk f.node).hasByReference = false)
      (isAsync : f.node.hasModifier settings.asyncKeyword = true ∨
        result.plan.MakesAsync result.tree f ∨ result.plan.RefusesAsync f)

namespace Site

/-- In a tree that was read, only the root has no parent. -/
theorem exists_parent {source : String} {t : Tree} {s : Site} (ht : t.ReadFrom source)
    (hs : s ∈ t.sites) (hkind : s.kind ≠ .compilationUnit) : ∃ owner, s.parent? = some owner := by
  obtain ⟨-, hat⟩ := Tree.mem_sites_iff.1 hs
  rcases List.eq_nil_or_concat s.path with hnil | ⟨p, i, hpath⟩
  · rw [hnil] at hat
    have hroot : t.root = s.node := Option.some.inj hat
    exact absurd ((congrArg Node.kind hroot).symm.trans ht.kind_eq) hkind
  · rw [List.concat_eq_append] at hpath
    rw [hpath, Node.at?_append] at hat
    obtain ⟨n, hn, -⟩ := Option.bind_eq_some_iff.1 hat
    refine ⟨⟨t, p, n⟩, ?_⟩
    rw [parent?, hpath, Path.parent?_child, Option.bind_some, goto?_of_mem hs, hn]
    rfl

theorem isLocalFunction_eq {s owner : Site} (h : s.parent? = some owner) :
    s.isLocalFunction = !owner.kind.isTypeDeclaration := by
  rw [isLocalFunction, h]
  rfl

/-- A site of a method is viewed as one. -/
theorem method?_eq {s : Site} (h : s.kind = .methodDeclaration) :
    View.Method.of? s.node = some ⟨s.node⟩ :=
  if_pos (beq_iff_eq.2 h)

end Site

/-- Code can await in a lambda or local function that is asynchronous, and in a method without
    by-reference parameters that is asynchronous or free to become so. -/
theorem canAwait_cases {settings : Settings} {fixed : InterfaceMethods} {s : Site}
    (h : canAwait settings fixed s = true) : ∃ f, s.function? = some f ∧
      ((f.kind.isLambda = true ∧ f.node.hasToken settings.asyncKeyword = true) ∨
      f.kind = .methodDeclaration ∧
        ((f.isLocalFunction = true ∧ f.node.hasModifier settings.asyncKeyword = true) ∨
        f.isLocalFunction = false ∧ (View.Method.mk f.node).hasByReference = false ∧
          (f.node.hasModifier settings.asyncKeyword = true ∨ fixed.hasSite f = false))) := by
  rw [canAwait] at h
  split at h
  · cases h
  · rename_i f hfunction
    refine ⟨f, hfunction, ?_⟩
    by_cases hkind : f.kind = .methodDeclaration
    · simp only [Site.method?_eq hkind, canAwaitIn] at h
      refine .inr ⟨hkind, ?_⟩
      rcases hlocal : f.isLocalFunction with _ | _
      · rw [hlocal] at h
        simp only [Bool.false_eq_true, if_false, Bool.and_eq_true, Bool.or_eq_true,
          Bool.not_eq_true'] at h
        exact .inr ⟨rfl, h⟩
      · rw [hlocal] at h
        exact .inl ⟨rfl, h⟩
    · have hview : View.Method.of? f.node = none := by
        have hnode : f.node.kind ≠ .methodDeclaration := hkind
        simp [View.Method.of?, hnode]
      simp only [hview, Bool.and_eq_true] at h
      exact .inl h

/-! ## Assertions that wait -/

theorem Text.after?_eq_some_iff {head text rest : String} :
    after? head text = some rest ↔ text = head ++ rest := by
  rw [after?, Option.map_eq_some_iff]
  constructor
  · rintro ⟨cs, hcs, rfl⟩
    have htext := dropHead?_eq_some_iff.1 hcs
    rw [← String.ofList_toList (s := text), htext, String.ofList_append, String.ofList_toList]
  · rintro rfl
    exact ⟨rest.toList, dropHead?_eq_some_iff.2 (String.toList_append ..), String.ofList_toList⟩

namespace Strategy

/-- A proposal that awaits and is in the plan without doing so waits instead: the prefix that awaits
    is replaced by a wait at the end. Words without the prefix stay as they are. -/
theorem fitAssertion_waits {cx : Context} {fixed : InterfaceMethods} {s : Site}
    {change : AssertionChange} (hproposed : change.awaits = true)
    (hwaits : (fitAssertion cx fixed s change).awaits = false) :
    (∀ rest, change.replacement = cx.settings.awaitPrefix ++ rest →
      fitAssertion cx fixed s change =
        { change with replacement := rest ++ cx.settings.blockingWait, awaits := false }) ∧
    ((∀ rest, change.replacement ≠ cx.settings.awaitPrefix ++ rest) →
      fitAssertion cx fixed s change = { change with awaits := false }) := by
  have hfit : fitAssertion cx fixed s change = blocking cx.settings change := by
    rw [fitAssertion]
    split
    · rfl
    · rename_i hfits
      rw [fitAssertion, if_neg hfits, hproposed] at hwaits
      cases hwaits
  rw [hfit]
  constructor
  · intro rest hrest
    rw [blocking, Text.after?_eq_some_iff.2 hrest]
  · intro hnone
    rcases hafter : Text.after? cx.settings.awaitPrefix change.replacement with _ | rest
    · rw [blocking, hafter]
    · exact absurd (Text.after?_eq_some_iff.1 hafter) (hnone rest)

end Strategy

/-! ## What stays recorded -/

namespace Draft

/-- What a later draft keeps of an earlier one: its tags, its failures, the methods that are made
    asynchronous and those that are entered. -/
structure Onward (d d' : Draft) : Prop where
  tagged : ∀ tag p, d.tree.TaggedOnlyAt tag p → d'.tree.TaggedOnlyAt tag p
  failures : ∀ failure ∈ d.plan.failures, failure ∈ d'.plan.failures
  makesAsync : ∀ f, d.plan.MakesAsync d.tree f → d'.plan.MakesAsync d'.tree f
  entered : ∀ span tag, d.signatures.lookup span = some tag → d'.signatures.lookup span = some tag

theorem Onward.refl (d : Draft) : d.Onward d :=
  ⟨fun _ _ h => h, fun _ h => h, fun _ h => h, fun _ _ h => h⟩

theorem Onward.trans {d d' d'' : Draft} (h : d.Onward d') (h' : d'.Onward d'') : d.Onward d'' :=
  ⟨fun tag p hold => h'.tagged tag p (h.tagged tag p hold),
    fun failure hmem => h'.failures failure (h.failures failure hmem),
    fun f hf => h'.makesAsync f (h.makesAsync f hf),
    fun span tag hold => h'.entered span tag (h.entered span tag hold)⟩

/-- A merge takes nothing back. -/
theorem makesAsync_merged {p : Plan} {w : Tree} {f : Site} (tag : Tag) (change : SignatureChange)
    (h : p.MakesAsync w f) :
    { p with records := p.records.map (mergeInto tag change) }.MakesAsync w f := by
  obtain ⟨r, hr, first, hfirst, hasync, honly⟩ := h
  have hmem := List.mem_map_of_mem (f := mergeInto tag change) hr
  rcases mergeInto_cases tag change r with heq | ⟨first', hfirst', -, heq⟩
  · rw [heq] at hmem
    exact ⟨r, hmem, first, hfirst, hasync, honly⟩
  · rw [heq] at hmem
    obtain rfl : first = first' := Change.signature.inj (hfirst.symm.trans hfirst')
    refine ⟨_, hmem, first.merge change, rfl, ?_, honly⟩
    rw [SignatureChange.merge, hasync]
    rfl

section Run

variable {source : String} {strategy : Strategy} {cx : Context} {t : Tree} {d d' : Draft}

theorem Faithful.onward (h : Faithful strategy cx t d) (hstep : Step strategy cx t d d') :
    d.Onward d' := by
  cases hstep with
  | failed failure =>
    exact ⟨fun _ _ hold => hold, fun _ hmem => List.mem_append_left _ hmem, fun _ hf => hf,
      fun _ _ hold => hold⟩
  | @merged s span tag change site span_eq known =>
    exact ⟨fun _ _ hold => hold, fun _ hmem => hmem, fun f hf => makesAsync_merged tag change hf,
      fun _ _ hold => hold⟩
  | recorded site spanned asked gains nodup fresh le_next entry =>
    refine ⟨fun tag p hold => h.onlyAt_recorded asked gains fresh hold, fun _ hmem => hmem, ?_, ?_⟩
    · rintro f ⟨r', hr', change, hchange, hasync, honly⟩
      exact ⟨r', List.mem_append_left _ hr', change, hchange, hasync,
        h.onlyAt_recorded asked gains fresh honly⟩
    · intro span tag hold
      rcases entry with rfl | ⟨new, change, -, -, rfl⟩
      · exact hold
      · rw [List.lookup_append, hold, Option.some_or]

theorem Faithful.onward_addAll (ht : t.ReadFrom source) (h : Faithful strategy cx t d)
    {findings : List Finding} (hfindings : ∀ f ∈ findings, f.Asked strategy cx t) :
    d.Onward (d.addAll findings) :=
  (h.addAll_induction (P := d.Onward) ht hfindings
    (fun _ _ hfaithful hstep honward => honward.trans (hfaithful.onward hstep)) (.refl d)).2

/-- A finding of a list is recorded at some moment. -/
theorem Faithful.exists_turn (ht : t.ReadFrom source) (h : Faithful strategy cx t d)
    {findings : List Finding} (hfindings : ∀ f ∈ findings, f.Asked strategy cx t) {f : Finding}
    (hf : f ∈ findings) :
    ∃ d₁ later, Faithful strategy cx t d₁ ∧ d.addAll findings = (d₁.add f).addAll later ∧
      ∀ g ∈ later, g.Asked strategy cx t := by
  obtain ⟨before, after, rfl⟩ := List.append_of_mem hf
  exact ⟨d.addAll before, after, h.addAll ht fun g hg => hfindings g (List.mem_append_left _ hg),
    List.foldl_append .., fun g hg =>
      hfindings g (List.mem_append_right _ (List.mem_cons_of_mem _ hg))⟩

/-- The draft holds what a finding of the list added to it, whatever came before and after. -/
theorem Faithful.exists_added (ht : t.ReadFrom source) (h : Faithful strategy cx t d)
    {findings : List Finding} (hfindings : ∀ f ∈ findings, f.Asked strategy cx t) {f : Finding}
    (hf : f ∈ findings) :
    ∃ d₁, Faithful strategy cx t d₁ ∧ (d₁.add f).Onward (d.addAll findings) := by
  obtain ⟨d₁, later, hd₁, hturn, hlater⟩ := h.exists_turn ht hfindings hf
  have hadded := hd₁.step (step_add ht hd₁.alike (hfindings f hf))
  rw [hturn]
  exact ⟨d₁, hd₁, hadded.onward_addAll ht hlater⟩

/-- A request for a header leaves the records, merges into one of them, or adds one. -/
theorem records_sign (d : Draft) (topic : Topic) (m : Site) (p : Proposal SignatureChange) :
    (d.sign topic m p).plan.records = d.plan.records ∨
      (∃ tag, (d.sign topic m p).plan.records = d.plan.records.map (mergeInto tag p.change)) ∨
      ∃ tag, (d.sign topic m p).plan.records =
        d.plan.records ++ [⟨tag, p.written, .signature p.change⟩] := by
  rw [sign]
  split
  · exact .inl rfl
  · split
    · exact .inr (.inl ⟨_, rfl⟩)
    · split
      · exact .inr (.inr ⟨_, rfl⟩)
      · exact .inl rfl

/-- A finding about a header leaves all other records alone. -/
theorem mem_of_mem_add {f : Finding}
    (hf : (∃ failure, f = .failure failure) ∨ ∃ topic s p, f = .signature topic s p) {r : Record}
    (hr : r ∈ (d.add f).plan.records) (hother : r.change.signature? = none) :
    r ∈ d.plan.records := by
  rcases hf with ⟨failure, rfl⟩ | ⟨topic, s, p, rfl⟩
  · exact hr
  · simp only [add] at hr
    rcases d.records_sign topic s p with heq | ⟨tag, heq⟩ | ⟨tag, heq⟩
    · rwa [heq] at hr
    · rw [heq] at hr
      obtain ⟨r', hr', rfl⟩ := List.mem_map.1 hr
      rcases mergeInto_cases tag p.change r' with hsame | ⟨first, -, -, hmerged⟩
      · rwa [hsame]
      · rw [hmerged] at hother
        cases hother
    · rw [heq] at hr
      rcases List.mem_append.1 hr with hr | hr
      · exact hr
      · obtain rfl := List.mem_singleton.1 hr
        cases hother

theorem mem_of_mem_addAll {findings : List Finding} (hfindings : ∀ f ∈ findings,
      (∃ failure, f = .failure failure) ∨ ∃ topic s p, f = .signature topic s p) {r : Record}
    (hr : r ∈ (d.addAll findings).plan.records) (hother : r.change.signature? = none) :
    r ∈ d.plan.records := by
  induction findings generalizing d with
  | nil => exact hr
  | cons f findings ih =>
    have hr := ih (fun g hg => hfindings g (List.mem_cons_of_mem _ hg)) hr
    exact mem_of_mem_add (hfindings f (List.mem_cons_self ..)) hr hother

end Run

/-! ## Headers of methods that await -/

section Headers

variable {source : String} {strategy : Strategy} {cx : Context} {t : Tree} {d : Draft}

theorem Faithful.onlyAt (h : Faithful strategy cx t d) {r : Record} (hr : r ∈ d.plan.records) :
    ∃ s ∈ t.sites, (∃ S, s.span = some S) ∧ strategy.Asked cx t s r.change ∧
      d.tree.TaggedOnlyAt r.tag s.path := by
  obtain ⟨s, hs, hspan, hasked, hplaces⟩ := h.placed r hr
  exact ⟨s, hs, hspan, hasked, (hplaces r.tag s.path (List.mem_cons_self ..)).2⟩

/-- The next tag is on a node alone once it is put there. -/
theorem Faithful.onlyAt_next (h : Faithful strategy cx t d) {w : Tree} {p : Path}
    (hgains : d.tree.Gains [(⟨d.next⟩, p)] w) : w.TaggedOnlyAt ⟨d.next⟩ p :=
  hgains.onlyAt_new (List.mem_singleton_self _) (List.nodup_singleton _) fun q hq =>
    absurd (h.below q _ hq) (Nat.lt_irrefl _)

theorem sign_known {m : Site} {S : Span} {tag : Tag} {topic : Topic} {p : Proposal SignatureChange}
    (hspan : m.span = some S) (hknown : d.signatures.lookup S = some tag) : d.sign topic m p =
      { d with plan := { d.plan with records := d.plan.records.map (mergeInto tag p.change) } } := by
  simp only [sign, hspan, hknown]

theorem sign_new {m : Site} {S : Span} {w : Tree} {topic : Topic} {p : Proposal SignatureChange}
    (hspan : m.span = some S) (hknown : d.signatures.lookup S = none)
    (hattach : attach d.tree m ⟨d.next⟩ = .ok w) : d.sign topic m p =
      { d.keep w p.written (.signature p.change) with
        signatures := d.signatures ++ [(S, ⟨d.next⟩)] } := by
  simp only [sign, hspan, hknown, hattach]

omit d in
/-- Without changes of visibility, only headers of methods are asked for. -/
theorem isMethod_of_asked (hquiet : ∀ s, strategy.makesPublic cx s = .ok false) {s : Site}
    {change : SignatureChange} (h : strategy.Asked cx t s (.signature change)) :
    s.kind = .methodDeclaration := by
  cases h with
  | classSignature change candidate answer proposed target => exact (Tree.findSpan?_mem target).2.1
  | asyncSignature change candidate answer awaits fits target isMethod isMember => exact isMethod
  | visibility change candidate answer =>
    rw [hquiet s] at answer
    cases answer

/-- A method whose header is asked to become asynchronous does so, whether it has a record already or
    gets one. -/
theorem Faithful.makesAsync_sign (ht : t.ReadFrom source) (h : Faithful strategy cx t d)
    (hquiet : ∀ s, strategy.makesPublic cx s = .ok false) {m : Site} {S : Span} {topic : Topic}
    {p : Proposal SignatureChange} (hm : m ∈ t.sites) (hkind : m.kind = .methodDeclaration)
    (hspan : m.span = some S) (hasync : p.change.addAsync = true) :
    (d.sign topic m p).plan.MakesAsync (d.sign topic m p).tree m := by
  obtain ⟨-, hat⟩ := Tree.mem_sites_iff.1 hm
  rcases hknown : d.signatures.lookup S with _ | tag
  · obtain ⟨w, hattach, hgains⟩ := attach_eq_ok ht h.alike hm (ht.tokens_ne_nil hat hspan) ⟨d.next⟩
    rw [sign_new hspan hknown hattach]
    refine ⟨⟨⟨d.next⟩, p.written, .signature p.change⟩, ?_, p.change, rfl, hasync,
      h.onlyAt_next hgains⟩
    exact List.mem_append_right _ (List.mem_singleton_self _)
  · have hentry : (S, tag) ∈ d.signatures := mem_of_lookup hknown
    obtain ⟨r, hr, rfl, ⟨first, hfirst⟩, s, hs, hs_span, hs_only⟩ := h.entered S tag hentry
    -- The record is of the same method: its site is a method too, and has the same span.
    obtain ⟨u, hu, -, hasked, hu_only⟩ := h.onlyAt hr
    have hsame : u.path = s.path := (hs_only u.path).1 ((hu_only u.path).2 rfl)
    obtain rfl : u = s := Tree.eq_of_path_eq hu hs hsame
    rw [hfirst] at hasked
    have hmethod := isMethod_of_asked hquiet hasked
    have hpath : u.path = m.path := ht.path_eq_of_span (Tree.mem_sites_iff.1 hs).2 hat
      (hmethod.trans hkind.symm) hs_span hspan
    have hmem := List.mem_map_of_mem (f := mergeInto r.tag p.change) hr
    have hmerged : mergeInto r.tag p.change r =
        { r with change := .signature (first.merge p.change) } := by
      simp [mergeInto, hfirst]
    rw [hmerged] at hmem
    rw [sign_known hspan hknown]
    refine ⟨_, hmem, first.merge p.change, rfl, ?_, hpath ▸ hs_only⟩
    rw [SignatureChange.merge, hasync, Bool.or_true]

/-- The method around an assertion that awaits is asynchronous, or made so, or refused. -/
theorem Faithful.awaiting_method (ht : t.ReadFrom source) (h : Faithful strategy cx t d)
    (hquiet : ∀ s, strategy.makesPublic cx s = .ok false) {r : Record} {change : AssertionChange}
    {s f : Site} (hr : r ∈ d.plan.records) (hchange : r.change = .assertion change)
    (hawaits : change.awaits = true) (hs : s ∈ t.sites) (honly : d.tree.TaggedOnlyAt r.tag s.path)
    (hspan : ∃ S, s.span = some S) (hfunction : s.function? = some f)
    (hkind : f.kind = .methodDeclaration) (hmember : f.isLocalFunction = false)
    (hfree : f.node.hasModifier cx.settings.asyncKeyword = true ∨
      (InterfaceMethods.ofTree cx.model t).hasSite f = false) {d' : Draft}
    (hd' : d' = d.addAll (d.asyncFindings cx.settings (.ofTree cx.model t) t)) :
    f.node.hasModifier cx.settings.asyncKeyword = true ∨
      d'.plan.MakesAsync d'.tree f ∨ d'.plan.RefusesAsync f := by
  obtain ⟨hf, -, rest, hpath⟩ := Site.ancestorWhere?_mem hs hfunction
  obtain ⟨-, hf_at⟩ := Tree.mem_sites_iff.1 hf
  -- The method has a span, for the assertion below it has one.
  obtain ⟨S, hS⟩ : ∃ S, f.span = some S := by
    obtain ⟨S₀, hS₀⟩ := hspan
    obtain ⟨-, hs_at⟩ := Tree.mem_sites_iff.1 hs
    rw [hpath, Node.at?_append, hf_at] at hs_at
    obtain ⟨S, hS, -⟩ := ht.span_contains hf_at hs_at hS₀
    exact ⟨S, hS⟩
  have hawaiting : S ∈ d.awaitingMethods := by
    rw [awaitingMethods, List.mem_eraseDups]
    refine List.mem_filterMap.2 ⟨r, hr, ?_⟩
    rw [hchange, if_pos (by simpa [Change.assertion?] using hawaits),
      methodAround?_eq h.alike hs honly, hfunction]
    simp [Option.filter_some, hkind, hmember, hS]
  by_cases hasync : f.node.hasModifier cx.settings.asyncKeyword = true
  · exact .inl hasync
  · right
    have hfound := ht.findSpan?_self hf hS
    rw [hkind] at hfound
    have hguard : (f.node.hasModifier cx.settings.asyncKeyword ||
        (InterfaceMethods.ofTree cx.model t).hasSite f) = false := by
      simp [hasync, hfree.resolve_left hasync]
    have hfinding := asyncFinding?_eq cx.settings (.ofTree cx.model t) hfound
    simp only [Site.method?_eq hkind, Option.bind_some, hguard, Bool.false_eq_true, if_false]
      at hfinding
    have hasked : ∀ x ∈ d.asyncFindings cx.settings (.ofTree cx.model t) t,
        x.Asked strategy cx t := fun x hx => asked_async ht h hx
    rcases hreturn : asyncReturn cx.settings ⟨f.node⟩ with e | returnType
    · simp only [hreturn] at hfinding
      have hmem := List.mem_filterMap.2 ⟨S, hawaiting, hfinding⟩
      obtain ⟨d₁, -, honward⟩ := h.exists_added ht hasked hmem
      have hlast := List.mem_append_right d₁.plan.failures (List.mem_singleton_self
        (⟨.analysis .signature, e.message, f.text⟩ : Failure))
      exact .inr ⟨_, hd' ▸ honward.failures _ hlast, rfl, rfl⟩
    · simp only [hreturn] at hfinding
      have hmem := List.mem_filterMap.2 ⟨S, hawaiting, hfinding⟩
      obtain ⟨d₁, hd₁, honward⟩ := h.exists_added ht hasked hmem
      have hmade := honward.makesAsync f (hd₁.makesAsync_sign ht hquiet hf hkind hS rfl)
      exact .inl (hd' ▸ hmade)

end Headers

end Draft

/-! ## The run of an analysis -/

namespace Strategy

variable {source : String} {strategy : Strategy} {cx : Context} {t : Tree}

/-- A strategy with no say on visibility. What is found before visibility is looked at is the same. -/
def quiet (strategy : Strategy) : Strategy :=
  { strategy with makesPublic := fun _ _ => .ok false }

theorem quiet_found : strategy.quiet.found cx t = strategy.found cx t := rfl

theorem FindsSites.quiet (h : strategy.FindsSites t) : strategy.quiet.FindsSites t :=
  ⟨h.assertions, h.markers, h.parameterMarkers, h.methods, h.classes, h.members,
    h.constructorParameters, h.calls, h.containers⟩

/-- The assertions of a finished draft were found on the tree. -/
theorem mem_found_of_finished {r : Record} {change : AssertionChange}
    (hr : r ∈ (strategy.finished cx t).plan.records) (hchange : r.change = .assertion change) :
    r ∈ (strategy.found cx t).plan.records := by
  have hother : r.change.signature? = none := by rw [hchange]; rfl
  refine Draft.mem_of_mem_addAll ?_ (Draft.mem_of_mem_addAll ?_ hr hother) hother
  · intro f hf
    obtain ⟨span, -, hfinding⟩ := List.mem_filterMap.1 hf
    rcases hmethod : t.findSpan? .methodDeclaration span with _ | method
    · rw [Draft.asyncFinding?, hmethod] at hfinding
      cases hfinding
    · rcases Draft.asyncFinding?_cases hmethod hfinding with hfailure | ⟨proposal, rfl⟩
      · exact .inl hfailure
      · exact .inr ⟨_, _, _, rfl⟩
  · intro f hf
    obtain ⟨s, -, hf⟩ := List.mem_flatMap.1 hf
    rcases Finding.mem_ofAnswer hf with ⟨needed, -, hf⟩ | hfailure
    · cases needed with
      | true => exact .inr ⟨_, _, _, List.mem_singleton.1 hf⟩
      | false => cases hf
    · exact .inl hfailure

/-- What is found stays so while methods are signed. -/
theorem onward_signed (ht : t.ReadFrom source) (hfinds : strategy.FindsSites t) :
    (strategy.found cx t).Onward (strategy.signed cx t) := by
  have hfound : Draft.Faithful strategy cx t (strategy.found cx t) := faithful_found ht hfinds
  exact hfound.onward_addAll ht fun _ hf => Draft.asked_async ht hfound hf

/-- What is signed stays so to the end. -/
theorem onward_finished (ht : t.ReadFrom source) (hfinds : strategy.FindsSites t) :
    (strategy.signed cx t).Onward (strategy.finished cx t) := by
  have hsigned : Draft.Faithful strategy cx t (strategy.signed cx t) := faithful_signed ht hfinds
  exact hsigned.onward_addAll ht fun _ hf => asked_visibility hfinds hf

theorem makesAsync_of_finished {f : Site}
    (h : (strategy.finished cx t).plan.MakesAsync (strategy.finished cx t).tree f) :
    (strategy.analyze cx t).plan.MakesAsync (strategy.analyze cx t).tree f := by
  obtain ⟨r, hr, hmade⟩ := h
  rw [← strategy.analyze_records cx t] at hr
  rw [← strategy.analyze_tree cx t] at hmade
  exact ⟨r, hr, hmade⟩

theorem refusesAsync_of_finished {f : Site} (h : (strategy.finished cx t).plan.RefusesAsync f) :
    (strategy.analyze cx t).plan.RefusesAsync f := by
  obtain ⟨failure, hmem, hrefused⟩ := h
  refine ⟨failure, ?_, hrefused⟩
  rw [analyze_eq, Draft.withImports]
  split
  · exact hmem
  · exact List.mem_append_left _ hmem

end Strategy

/-- No assertion awaits outside of asynchronous code, for any tree that was read and any strategy
    whose candidates are nodes of that tree. An assertion of the plan belongs to a candidate that the
    strategy made a proposal for. If it awaits, the function around that candidate is an
    asynchronous lambda or local function, or a method without by-reference parameters that is
    asynchronous, is made so by the plan, or is refused in the plan. If the proposal awaits and the
    record does not, the record waits instead. -/
theorem analyze_awaits_in_async {source : String} {reading : Nat} {t : Tree}
    (hparse : Tree.parse source reading = .ok t) (strategy : Strategy)
    (hfinds : strategy.FindsSites t) (cx : Context) :
    let result := strategy.analyze cx t
    ∀ r ∈ result.plan.records, ∀ change, r.change = .assertion change →
      ∃ s ∈ strategy.findAssertions t, ∃ p, strategy.assertion cx s = .ok (some p) ∧
        (result.tree.findTagged? r.tag).map Site.path = some s.path ∧
        (change.awaits = true → ∃ f, s.function? = some f ∧ result.AwaitsIn cx.settings f) ∧
        (p.change.awaits = true → change.awaits = false →
          (∀ rest, p.change.replacement = cx.settings.awaitPrefix ++ rest → change =
            { p.change with replacement := rest ++ cx.settings.blockingWait, awaits := false }) ∧
          ((∀ rest, p.change.replacement ≠ cx.settings.awaitPrefix ++ rest) →
            change = { p.change with awaits := false })) := by
  intro result r hr change hchange
  have ht := Tree.readFrom_of_parse hparse
  rw [strategy.analyze_records] at hr
  have hr := Strategy.mem_found_of_finished hr hchange
  have hfound : Draft.Faithful strategy.quiet cx t (strategy.found cx t) := by
    rw [← Strategy.quiet_found]
    exact Strategy.faithful_found ht hfinds.quiet
  have honward : (strategy.signed cx t).Onward (strategy.finished cx t) :=
    Strategy.onward_finished ht hfinds
  obtain ⟨s, hs, hspan, hasked, honly⟩ := hfound.onlyAt hr
  have hasked' := hchange ▸ hasked
  obtain ⟨p, hcandidate, hanswer, rfl⟩ := Draft.asked_assertion_iff.1 hasked'
  refine ⟨s, hcandidate, p, hanswer, ?_, ?_, Strategy.fitAssertion_waits⟩
  · rw [strategy.analyze_tree]
    -- The tag is put on while assertions are found and stays on the same node to the end.
    have hfinal := ((Strategy.onward_signed ht hfinds).trans honward).tagged r.tag s.path honly
    exact hfinal.path_eq
  · intro hawaits
    obtain ⟨-, hfits⟩ := Draft.awaits_of_fit hawaits
    -- The function around the call decides: a lambda or local function has to be asynchronous
    -- itself, a method may be made so.
    obtain ⟨f, hfunction, hcases⟩ := canAwait_cases hfits
    refine ⟨f, hfunction, ?_⟩
    have hf := (Site.ancestorWhere?_mem hs hfunction).1
    rcases hcases with ⟨hlambda, hasync⟩ | ⟨hkind, hcases⟩
    · exact .lambda hlambda hasync
    · obtain ⟨owner, howner⟩ := Site.exists_parent ht hf (by rw [hkind]; decide)
      have hlocal := Site.isLocalFunction_eq howner
      rcases hcases with ⟨hislocal, hasync⟩ | ⟨hmember, hbyValue, hfree⟩
      · exact .localFunction hkind howner (by simpa [hislocal] using hlocal) hasync
      · refine .method hkind howner (by simpa [hmember] using hlocal) hbyValue ?_
        have hsigned : f.node.hasModifier cx.settings.asyncKeyword = true ∨
            (strategy.signed cx t).plan.MakesAsync (strategy.signed cx t).tree f ∨
            (strategy.signed cx t).plan.RefusesAsync f :=
          hfound.awaiting_method ht (fun _ => rfl) hr hchange hawaits hs honly hspan hfunction
            hkind hmember hfree rfl
        rcases hsigned with hasync | hmade | ⟨failure, hmem, hrefused⟩
        · exact .inl hasync
        · exact .inr (.inl (Strategy.makesAsync_of_finished (honward.makesAsync f hmade)))
        · exact .inr (.inr (Strategy.refusesAsync_of_finished
            ⟨failure, honward.failures failure hmem, hrefused⟩))

theorem analyze_awaits_in_async_sample :
    ∃ t, Tree.parse ("using Xunit; class T \x7b T() \x7b Assert.True(b); \x7d " ++
        "[Fact] void A() \x7b Assert.True(b); \x7d \x7d") = .ok t ∧
      ∃ result, result = Framework.xUnit.strategy.analyze
          ⟨(SourceModel.build t Framework.xUnit.catalog).toSemanticModel, {}⟩ t ∧
        result.plan.assertions.map AssertionChange.awaits = [false, true] ∧
        ∃ s ∈ Framework.xUnit.strategy.findAssertions t, ∃ f, s.function? = some f ∧
          result.AwaitsIn {} f := by
  have hawaits : (Tree.parse ("using Xunit; class T \x7b T() \x7b Assert.True(b); \x7d " ++
      "[Fact] void A() \x7b Assert.True(b); \x7d \x7d")).toOption.map
      (fun t => (Framework.xUnit.strategy.analyze
        ⟨(SourceModel.build t Framework.xUnit.catalog).toSemanticModel, {}⟩
        t).plan.assertions.map AssertionChange.awaits) = some [false, true] := by
    decide +kernel
  rcases hparse : Tree.parse ("using Xunit; class T \x7b T() \x7b Assert.True(b); \x7d " ++
    "[Fact] void A() \x7b Assert.True(b); \x7d \x7d") with e | t
  · rw [hparse] at hawaits
    cases hawaits
  · rw [hparse] at hawaits
    have hlist := Option.some.inj hawaits
    obtain ⟨change, hmem, hchange⟩ := List.mem_map.1 (hlist ▸ (by decide : true ∈ [false, true]))
    obtain ⟨r, hr, hassertion⟩ := List.mem_filterMap.1 hmem
    obtain ⟨s, hs, p, -, -, hasync, -⟩ := analyze_awaits_in_async hparse Framework.xUnit.strategy
      (Framework.xUnit.findsSites t) _ r hr change (Change.assertion?_eq_some_iff.1 hassertion)
    exact ⟨t, rfl, _, rfl, hlist, s, hs, hasync hchange⟩

end Recast
