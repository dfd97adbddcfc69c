-- SUMMARY: What carrying out a plan does to bound trees: a record loosens a suffix or keeps all of them bound, and a run of records, imports and banner keeps them bound when no record loosens one.
import Mathlib.Data.List.Induction
import Recast.Proofs.Analysis.Annotation
import Recast.Proofs.Edit.Editing

/-! # Plans and suffixes

A run carries out the records of a plan one after the other. Whether a record loosens a suffix
depends on the tree at its turn. The root of an analysed tree bears no tag, so no record replaces
it, and what the imports need of it holds to the end. -/

namespace Recast

/-! ## Records -/

/-- A record whose change, at its turn, puts something that is not primary where a suffix
    follows. -/
def Record.Loosens (settings : Settings) (r : Record) (t : Tree) : Prop :=
  ∃ s, t.findTagged? r.tag = some s ∧ r.change.Loosens settings s

namespace Progress

variable {settings : Settings} {p : Progress} {r : Record}

/-- What a step does: it keeps the root, and all suffixes bound unless the record loosens one. -/
theorem step_tree (hroot : p.tree.root.tags = []) :
    ((p.step settings r).tree.root.kind = p.tree.root.kind ∧
      (p.step settings r).tree.root.tags = p.tree.root.tags) ∧
    (¬r.Loosens settings p.tree → p.tree.root.Keeps (p.step settings r).tree.root) := by
  unfold step
  split
  · exact ⟨⟨rfl, rfl⟩, fun _ => .refl _⟩
  · rename_i s hfound
    split
    · rename_i t' happly
      obtain ⟨hs, -⟩ := Tree.findTagged?_mem hfound
      have hp := Edit.path_ne_nil_of_findTagged? hroot hfound
      obtain ⟨htop, hkeeps⟩ := Change.apply_eq_ok hs hp hroot happly
      exact ⟨htop, fun hloose => hkeeps fun h => hloose ⟨s, hfound, h⟩⟩
    · exact ⟨⟨rfl, rfl⟩, fun _ => .refl _⟩

/-- The change of a call leaves all suffixes bound exactly when it loosens none. -/
theorem bound_step_iff {text : String} (hroot : p.tree.root.tags = []) (hbound : p.tree.root.Bound)
    (htext : r.change.text? = some text) :
    (p.step settings r).tree.root.Bound ↔ ¬r.Loosens settings p.tree := by
  constructor
  · rintro h ⟨s, hfound, hloose⟩
    obtain ⟨hs, -⟩ := Tree.findTagged?_mem hfound
    obtain ⟨t', happly, hloose⟩ := Change.exists_apply_of_loosens hs hbound htext hloose
    simp only [step, hfound, happly] at h
    exact hloose h
  · exact fun hloose => ((step_tree hroot).2 hloose).bound hbound

end Progress

/-- The tree after some records were carried out. -/
def Tree.after (settings : Settings) (t : Tree) (records : List Record) : Tree :=
  (records.foldl (Progress.step settings) (.start t)).tree

namespace Tree

variable {settings : Settings} {t : Tree}

theorem after_concat (records : List Record) (r : Record) : t.after settings (records ++ [r]) =
    ((records.foldl (Progress.step settings) (.start t)).step settings r).tree := by
  rw [after, List.foldl_append]
  rfl

theorem after_top (hroot : t.root.tags = []) (records : List Record) :
    (t.after settings records).root.kind = t.root.kind ∧
      (t.after settings records).root.tags = [] := by
  induction records using List.reverseRecOn with
  | nil => exact ⟨rfl, hroot⟩
  | append_singleton records r ih =>
    obtain ⟨hkind, htags⟩ := (@Progress.step_tree settings _ r ih.2).1
    rw [after_concat]
    exact ⟨hkind.trans ih.1, htags.trans ih.2⟩

/-- Records that loosen no suffix at their turns keep all of them bound. -/
theorem keeps_after (hroot : t.root.tags = []) {records : List Record}
    (h : ∀ before r rest, records = before ++ r :: rest →
      ¬r.Loosens settings (t.after settings before)) :
    t.root.Keeps (t.after settings records).root := by
  induction records using List.reverseRecOn with
  | nil => exact .refl _
  | append_singleton records r ih =>
    rw [after_concat]
    have hearlier := ih fun before r' rest hsplit =>
      h before r' (rest ++ [r]) (by rw [hsplit, List.append_assoc, List.cons_append])
    exact hearlier.trans ((Progress.step_tree (after_top hroot records).2).2 (h records r [] rfl))

end Tree

/-! ## Imports -/

namespace Edit

variable {t t' : Tree}

theorem bound_importDirective {space : String} {directive : Node}
    (h : importDirective space = .ok directive) : directive.Bound := by
  obtain ⟨name, hname, rfl⟩ := importDirective_eq_ok h
  exact Node.bound_ofChildren rfl (Element.boundIn_token (Element.boundIn_cons
    (Fragment.bound_of_readName hname) (Element.boundIn_token Element.boundIn_nil)))

theorem keeps_addImport {space : String} (hkind : t.root.kind = .compilationUnit)
    (h : addImport t space = .ok t') : t.root.Keeps t'.root := by
  obtain ⟨directive, hdirective, h⟩ := addImport_eq_ok h
  have hbound : ∀ leading, (directive.withLeading leading).Bound := fun _ =>
    (directive.keeps_withLeading _).bound (bound_importDirective hdirective)
  obtain honTop | ⟨last, owner, index, u, -, -, -, -, -, hinsert⟩ := h
  · obtain ⟨header, rest, -, hroot⟩ := onTop_eq_ok honTop
    have hbelow := t.root.keeps_withLeading rest
    rw [hroot]
    refine hbelow.trans (Node.keeps_withChildren (by rw [hbelow.kind_eq, hkind]; rfl) ?_)
    exact fun hroot => Element.boundIn_cons (hbound header) hroot.children
  · exact Tree.keeps_insert (fun _ _ _ => Nat.succ_pos _)
      (Element.boundIn_cons (hbound _) Element.boundIn_nil) hinsert

end Edit

theorem ImportDelta.keeps_apply {t : Tree} (hkind : t.root.kind = .compilationUnit)
    (delta : ImportDelta) : t.root.Keeps (delta.apply t).1.root := by
  refine apply_induction (P := fun w => t.root.Keeps w.root) ?_ ?_ delta (.refl _)
  · intro w w' s option hs himport hremove hkeeps
    refine hkeeps.trans (Tree.keeps_remove (Tree.mem_sites_iff.1 hs).2 ?_ hremove)
    rw [himport]
    rfl
  · intro w w' space hadd hkeeps
    exact hkeeps.trans (Edit.keeps_addImport (hkeeps.kind_eq.trans hkind) hadd)

/-! ## Plans -/

/-- A plan none of whose records loosens a suffix at its turn keeps all of them bound. -/
theorem Plan.keeps_apply {plan : Plan} {settings : Settings} {t : Tree}
    (hkind : t.root.kind = .compilationUnit) (hroot : t.root.tags = [])
    (h : ∀ before r rest, plan.ordered = before ++ r :: rest →
      ¬r.Loosens settings (t.after settings before)) :
    t.root.Keeps (plan.apply settings t).tree.root := by
  have hrecords := Tree.keeps_after hroot h
  have hedits : t.root.Keeps (plan.applyEdits settings t).tree.root :=
    hrecords.trans (plan.imports.keeps_apply (hrecords.kind_eq.trans hkind))
  simp only [apply]
  split
  · refine hedits.trans (Node.keeps_mapFirst ?_ _)
    intro u
    rfl
  · exact hedits

/-! ## Analysed trees -/

/-- The kinds of nodes that records of a kind are made for. -/
def RecordKind.seats : RecordKind → List Kind
  | .exceptionCapture => [.localDeclarationStatement]
  | .callReplacement | .assertion => [.invocationExpression]
  | .container => [.genericName]
  | .signature | .methodMarker => [.methodDeclaration]
  | .marker | .parameterMarker | .markerRemoval => [.attribute]
  | .baseTypeRemoval => [.baseType]
  | .baseTypeAddition | .classMarker => [.classDeclaration, .recordDeclaration, .structDeclaration]
  | .memberRemoval => [.fieldDeclaration, .propertyDeclaration]
  | .parameterRemoval => [.parameter]

/-- No record is made for a whole file. -/
theorem RecordKind.compilationUnit_not_mem_seats (kind : RecordKind) :
    .compilationUnit ∉ kind.seats := by
  cases kind <;> decide

namespace Strategy

/-- The candidates of a strategy are of the kinds that records are made for. -/
structure FindsSeats (strategy : Strategy) (t : Tree) : Prop where
  assertions : ∀ s ∈ strategy.findAssertions t, s.kind ∈ RecordKind.assertion.seats
  markers : ∀ s ∈ strategy.findMarkers t, s.kind ∈ RecordKind.marker.seats
  parameterMarkers : ∀ s ∈ strategy.findParameterMarkers t,
    s.kind ∈ RecordKind.parameterMarker.seats
  methods : ∀ s ∈ strategy.findMethods t, s.kind ∈ RecordKind.signature.seats
  classes : ∀ s ∈ strategy.findClasses t, s.kind ∈ RecordKind.classMarker.seats
  members : ∀ s ∈ strategy.findMembers t, s.kind ∈ RecordKind.memberRemoval.seats
  constructorParameters : ∀ s ∈ strategy.findConstructorParameters t,
    s.kind ∈ RecordKind.parameterRemoval.seats
  calls : ∀ s ∈ strategy.findCalls t, s.kind ∈ RecordKind.callReplacement.seats
  containers : ∀ s ∈ strategy.findContainers t, s.kind ∈ RecordKind.container.seats

variable {strategy : Strategy} {cx : Context} {t : Tree} {s : Site} {change : Change}

theorem kind_of_mem_baseTypesOf {owner base : Site} (h : base ∈ baseTypesOf owner) :
    base.kind = .baseType := by
  rw [baseTypesOf] at h
  rcases hlist : owner.child? .baseList with _ | list
  · rw [hlist] at h
    cases h
  · rw [hlist] at h
    exact eq_of_beq (List.mem_filter.1 h).2

/-- A change is asked for at a node of a kind that such records are made for. -/
theorem Asked.kind_mem_seats (h : strategy.Asked cx t s change) (hfinds : strategy.FindsSeats t) :
    s.kind ∈ change.kind.seats := by
  cases h with
  | assertion candidate answer => exact hfinds.assertions s candidate
  | markerRemoval candidate answer => exact hfinds.markers s candidate
  | marker candidate stays answer => exact hfinds.markers s candidate
  | parameterMarker candidate answer => exact hfinds.parameterMarkers s candidate
  | missingMarker candidate answer => exact hfinds.methods s candidate
  | baseTypeRemoval candidate listed answer =>
    exact List.mem_singleton.2 (kind_of_mem_baseTypesOf listed)
  | baseTypeAddition candidate answer proposed => exact hfinds.classes s candidate
  | classMarker candidate answer proposed => exact hfinds.classes s candidate
  | methodMarker candidate answer proposed target =>
    exact List.mem_singleton.2 (Tree.findSpan?_mem target).2.1
  | classSignature change candidate answer proposed target =>
    exact List.mem_singleton.2 (Tree.findSpan?_mem target).2.1
  | asyncSignature change candidate answer awaits fits target isMethod isMember =>
    exact List.mem_singleton.2 isMethod
  | visibility change candidate answer => exact hfinds.methods s candidate
  | memberRemoval candidate answer => exact hfinds.members s candidate
  | parameterRemoval candidate answer => exact hfinds.constructorParameters s candidate
  | callReplacement candidate answer => exact hfinds.calls s candidate
  | exceptionCapture candidate answer target =>
    have hkind := List.find?_some target
    exact List.mem_singleton.2 (eq_of_beq hkind)
  | container candidate answer declared created => exact hfinds.containers s candidate

theorem Asked.kind_ne (h : strategy.Asked cx t s change) (hfinds : strategy.FindsSeats t) :
    s.kind ≠ .compilationUnit := by
  intro hkind
  exact change.kind.compilationUnit_not_mem_seats (hkind ▸ h.kind_mem_seats hfinds)

theorem creationAt?_kind_ne {creation : Site} (h : creationAt? s = some creation) :
    creation.kind ≠ .compilationUnit := by
  obtain ⟨declaration, -, hcreation⟩ := Option.bind_eq_some_iff.1 h
  obtain ⟨-, hwanted⟩ := Option.filter_eq_some_iff.1 hcreation
  intro hkind
  simp [hkind] at hwanted

theorem path_ne_nil_of_kind {source : String} (ht : t.ReadFrom source) (hs : s ∈ t.sites)
    (hkind : s.kind ≠ .compilationUnit) : s.path ≠ [] := by
  intro hpath
  obtain ⟨-, hat⟩ := Tree.mem_sites_iff.1 hs
  rw [hpath] at hat
  exact hkind ((congrArg Node.kind (Option.some.inj hat)).symm.trans ht.kind_eq)

/-- The tags of a record stand below the root. -/
theorem Asked.places_ne_nil {source : String} {r : Record} (ht : t.ReadFrom source)
    (h : strategy.Asked cx t s r.change) (hfinds : strategy.FindsSeats t) (hs : s ∈ t.sites) :
    ∀ tag, (tag, []) ∉ r.places s := by
  intro tag hmem
  have hsite := path_ne_nil_of_kind ht hs (h.kind_ne hfinds)
  rcases List.mem_cons.1 hmem with heq | hmem
  · exact hsite (congrArg Prod.snd heq).symm
  · unfold Change.places at hmem
    split at hmem
    · rcases List.mem_append.1 hmem with hmem | hmem
      · obtain ⟨_, -, heq⟩ := List.mem_map.1 hmem
        exact hsite (congrArg Prod.snd heq)
      · obtain ⟨creation, hcreation, hmem⟩ := List.mem_flatMap.1 hmem
        obtain ⟨_, -, heq⟩ := List.mem_map.1 hmem
        have hcreation := Option.mem_toList.1 hcreation
        exact path_ne_nil_of_kind ht (Draft.creationAt?_mem hs hcreation)
          (creationAt?_kind_ne hcreation) (congrArg Prod.snd heq)
    · cases hmem

/-- Analysis puts no tag on the root. -/
theorem analyze_root {source : String} (ht : t.ReadFrom source) (hsites : strategy.FindsSites t)
    (hfinds : strategy.FindsSeats t) : (strategy.analyze cx t).tree.root.tags = [] := by
  rw [analyze_tree]
  refine finished_induction (P := fun d => d.tree.root.tags = []) ht hsites ?_ ht.built.tags_eq
  intro d d' _ hstep hd
  cases hstep with
  | failed failure => exact hd
  | merged change site span_eq known => exact hd
  | @recorded s r w next signatures site spanned asked gains nodup fresh le_next entry =>
    refine List.eq_nil_iff_forall_not_mem.2 fun tag htag => ?_
    have htag : tag ∈ w.root.tagsAt [] := htag
    rw [gains.mem_tagsAt, Node.tagsAt_nil, hd] at htag
    rcases htag with htag | htag
    · cases htag
    · exact asked.places_ne_nil ht hfinds site tag htag

end Strategy

/-- The candidates of the frameworks are of the kinds that records are made for. -/
theorem Framework.findsSeats (f : Framework) (t : Tree) : f.strategy.FindsSeats t := by
  have hof : ∀ {kinds : List Kind}, ∀ s ∈ t.sitesOf kinds, s.kind ∈ kinds := by
    intro kinds s hs
    exact List.contains_iff_mem.1 (List.mem_filter.1 hs).2
  have hmarkers : ∀ {listed : Site → Bool},
      ∀ s ∈ t.sitesWhere fun s => s.kind == .attribute && listed s, s.kind ∈ [Kind.attribute] := by
    intro listed s hs
    have hkind := (Bool.and_eq_true_iff.1 (List.mem_filter.1 hs).2).1
    exact List.mem_singleton.2 (eq_of_beq hkind)
  have hmembers : ∀ s ∈ t.sitesWhere Site.isDataMember,
      s.kind ∈ [Kind.fieldDeclaration, .propertyDeclaration] := by
    intro s hs
    have hkind := (Bool.and_eq_true_iff.1 (List.mem_filter.1 hs).2).1
    simpa using hkind
  have hparameters : ∀ s ∈ t.sitesWhere Site.isConstructorParameter,
      s.kind ∈ [Kind.parameter] := by
    intro s hs
    have hkind := (Bool.and_eq_true_iff.1 (List.mem_filter.1 hs).2).1
    exact List.mem_singleton.2 (eq_of_beq hkind)
  -- The frameworks differ in the names that they look for, not in the kinds.
  cases f <;>
    exact ⟨hof, hmarkers, hmarkers, hof, hof, hmembers, hparameters, hof, hof⟩

end Recast
