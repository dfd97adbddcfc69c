-- SUMMARY: The banner of a migration counts each failure once: a line for each phase that failed, in the order of the first failures, and the file of the same run without a banner below.
import Mathlib.Algebra.GroupWithZero.Nat
import Recast.Proofs.Migration.Directives
import Recast.Proofs.Plan.Weeding

/-! # The report on top of a file

The failures of a run are counted one by one. A failure goes up in the group of its phase, where
that stands, or opens a group at the end (`Banner.enter_cases`). So after each failure the groups
count those so far (`Banner.Counts`), whatever their number and order.

The banner that is written from the groups goes in front of all that a run without a banner comes
to, since no edit asks whether one is wanted. -/

namespace Recast

namespace Banner

/-! ## Counting failures -/

/-- Groups that count failures: there is one for each phase that failed, in the order of the first
    failures, and it tells how many failures of its phase there are. -/
structure Counts (failures : List Failure) (gs : List Group) : Prop where
  phases : ∀ p, p ∈ gs.map Group.phase ↔ ∃ f ∈ failures, f.phase = p
  ordered : (gs.map Group.phase).Pairwise fun p q =>
    failures.findIdx (·.phase == p) < failures.findIdx (·.phase == q)
  counted : ∀ g ∈ gs, g.count = failures.countP (·.phase == g.phase)
  total : (gs.map Group.count).sum = failures.length

variable {failures : List Failure} {gs : List Group} {f : Failure}

/-- A failure is counted in the group of its phase, where that stands, or in a new one. -/
theorem enter_cases (gs : List Group) (f : Failure) :
    (∃ pre g post, gs = pre ++ g :: post ∧ g.phase = f.phase ∧
      enter gs f = pre ++ ⟨g.phase, g.count + 1⟩ :: post) ∨
    (∀ g ∈ gs, g.phase ≠ f.phase) ∧ enter gs f = gs ++ [⟨f.phase, 1⟩] := by
  induction gs with
  | nil => exact .inr ⟨List.forall_mem_nil _, rfl⟩
  | cons g gs ih =>
    by_cases hphase : g.phase = f.phase
    · exact .inl ⟨[], g, gs, rfl, hphase, by rw [enter, if_pos hphase]; rfl⟩
    · rw [enter, if_neg hphase]
      rcases ih with ⟨pre, h, post, rfl, hh, henter⟩ | ⟨hnone, henter⟩
      · exact .inl ⟨g :: pre, h, post, rfl, hh, by rw [henter]; rfl⟩
      · exact .inr ⟨List.forall_mem_cons.2 ⟨hphase, hnone⟩, by rw [henter]; rfl⟩

theorem failed_concat {p : Phase} : (∃ f' ∈ failures ++ [f], f'.phase = p) ↔
    (∃ f' ∈ failures, f'.phase = p) ∨ f.phase = p := by
  simp [or_and_right, exists_or]

namespace Counts

theorem nil : Counts [] [] :=
  ⟨by simp, .nil, List.forall_mem_nil _, rfl⟩

theorem nodup (h : Counts failures gs) : (gs.map Group.phase).Nodup :=
  h.ordered.imp fun hlt => by
    rintro rfl
    exact Nat.lt_irrefl _ hlt

/-- No other group is of the phase of a group. -/
theorem other_phase {pre post : List Group} {g g' : Group} (h : Counts failures (pre ++ g :: post))
    (hg' : g' ∈ pre ++ post) : g'.phase ≠ g.phase := by
  have hnodup := h.nodup
  rw [List.map_append, List.map_cons, List.nodup_middle, List.nodup_cons, ← List.map_append]
    at hnodup
  exact fun heq => hnodup.1 (heq ▸ List.mem_map_of_mem hg')

/-- A later failure is not the first one of a phase that failed before. -/
theorem findIdx_concat (h : Counts failures gs) (f : Failure) {p : Phase}
    (hp : p ∈ gs.map Group.phase) :
    (failures ++ [f]).findIdx (·.phase == p) = failures.findIdx (·.phase == p) ∧
      failures.findIdx (·.phase == p) < failures.length := by
  obtain ⟨f', hf', rfl⟩ := (h.phases p).1 hp
  have hlt := List.findIdx_lt_length_of_exists (p := (·.phase == f'.phase)) ⟨f', hf', by simp⟩
  rw [List.findIdx_append, if_pos hlt]
  exact ⟨rfl, hlt⟩

/-- The phases that failed before stay in their order. -/
theorem ordered_concat (h : Counts failures gs) (f : Failure) :
    (gs.map Group.phase).Pairwise fun p q =>
      (failures ++ [f]).findIdx (·.phase == p) < (failures ++ [f]).findIdx (·.phase == q) := by
  refine h.ordered.imp_of_mem fun hp hq hlt => ?_
  rw [(h.findIdx_concat f hp).1, (h.findIdx_concat f hq).1]
  exact hlt

/-- A group of another phase has still all its failures. -/
theorem counted_concat (h : Counts failures gs) {g : Group} (hg : g ∈ gs) (hne : g.phase ≠ f.phase) :
    g.count = (failures ++ [f]).countP (·.phase == g.phase) := by
  rw [h.counted g hg, List.countP_append]
  simp [hne.symm]

/-- A group counts one failure more when that is of its phase. -/
theorem raised {pre post : List Group} {g : Group} (h : Counts failures (pre ++ g :: post))
    (hphase : g.phase = f.phase) :
    Counts (failures ++ [f]) (pre ++ ⟨g.phase, g.count + 1⟩ :: post) := by
  have hphases : (pre ++ ⟨g.phase, g.count + 1⟩ :: post).map Group.phase =
      (pre ++ g :: post).map Group.phase := by simp
  refine ⟨fun p => ?_, ?_, ?_, ?_⟩
  · have hmem : ∃ f' ∈ failures, f'.phase = g.phase := (h.phases g.phase).1 (by simp)
    rw [hphases, h.phases, failed_concat]
    exact ⟨.inl, Or.rec id fun hp => hp ▸ hphase ▸ hmem⟩
  · rw [hphases]
    exact h.ordered_concat f
  · have hother : ∀ g' ∈ pre ++ post, g'.count = (failures ++ [f]).countP (·.phase == g'.phase) := by
      intro g' hg'
      refine h.counted_concat ?_ (hphase ▸ h.other_phase hg')
      rcases List.mem_append.1 hg' with hpre | hpost
      · exact List.mem_append_left _ hpre
      · exact List.mem_append_right _ (List.mem_cons_of_mem _ hpost)
    -- No other group is of the phase, so one count goes up.
    have hself : g.count + 1 = (failures ++ [f]).countP (·.phase == g.phase) := by
      rw [h.counted g (by simp), List.countP_append]
      simp [hphase]
    intro g' hg'
    rcases List.mem_append.1 hg' with hpre | hrest
    · exact hother g' (List.mem_append_left _ hpre)
    · rcases List.mem_cons.1 hrest with rfl | hpost
      · exact hself
      · exact hother g' (List.mem_append_right _ hpost)
  · have htotal := h.total
    simp only [List.map_append, List.map_cons, List.sum_append, List.sum_cons, List.length_append,
      List.length_singleton] at htotal ⊢
    omega

/-- The first failure of a phase opens a group behind the others. -/
theorem opened (h : Counts failures gs) (hnew : ∀ g ∈ gs, g.phase ≠ f.phase) :
    Counts (failures ++ [f]) (gs ++ [⟨f.phase, 1⟩]) := by
  have hfirst : ∀ f' ∈ failures, f'.phase ≠ f.phase := by
    intro f' hf' heq
    obtain ⟨g, hg, hphase⟩ := List.mem_map.1 ((h.phases f'.phase).2 ⟨f', hf', rfl⟩)
    exact hnew g hg (hphase.trans heq)
  refine ⟨fun p => ?_, ?_, ?_, ?_⟩
  · rw [failed_concat, List.map_append, List.mem_append, h.phases]
    simp [eq_comm]
  · rw [List.map_append, List.pairwise_append]
    refine ⟨h.ordered_concat f, List.pairwise_singleton _ _, ?_⟩
    intro p hp q hq
    obtain rfl : q = f.phase := by simpa using hq
    -- The first failure of the phase is the last of all.
    have hlast : (failures ++ [f]).findIdx (·.phase == f.phase) = failures.length := by
      rw [List.findIdx_append, List.findIdx_eq_length_of_false (by simpa using hfirst)]
      simp
    rw [(h.findIdx_concat f hp).1, hlast]
    exact (h.findIdx_concat f hp).2
  · intro g hg
    rcases List.mem_append.1 hg with hg | hg
    · exact h.counted_concat hg (hnew g hg)
    · obtain rfl := List.mem_singleton.1 hg
      rw [List.countP_append, List.countP_eq_zero.2 (by simpa using hfirst)]
      simp
  · simp [h.total]

/-- One failure counted. -/
theorem enter (h : Counts failures gs) (f : Failure) :
    Counts (failures ++ [f]) (Banner.enter gs f) := by
  rcases enter_cases gs f with ⟨pre, g, post, rfl, hphase, henter⟩ | ⟨hnew, henter⟩
  · rw [henter]
    exact h.raised hphase
  · rw [henter]
    exact h.opened hnew

end Counts

/-- The groups of failures count them. -/
theorem counts_groups (failures : List Failure) : Counts failures (groups failures) := by
  induction failures using List.reverseRecOn with
  | nil => exact .nil
  | append_singleton failures f ih =>
    rw [groups, List.foldl_append]
    exact ih.enter f

example : groups ([.assertion, .marker, .assertion].map fun topic => ⟨.analysis topic, "", ""⟩) =
    [⟨.analysis .assertion, 2⟩, ⟨.analysis .marker, 1⟩] := by
  decide

/-- The lines tell the phases that failed apart. -/
theorem Counts.nodup_names (h : Counts failures gs) : (gs.map fun g => g.phase.name).Nodup := by
  have hnodup := h.nodup.map fun _ _ => Phase.name_injective
  rwa [List.map_map] at hnodup

/-- There is a banner when there is a failure. -/
theorem lines?_eq (label : String) (failures : List Failure) : lines? label failures =
    if failures = [] then none
    else some ([rule, title label] ++ (groups failures).map (groupLine label) ++ [rule]) := by
  have hempty : (groups failures).isEmpty = true ↔ failures = [] := by
    rw [List.isEmpty_iff]
    constructor
    · intro hnone
      have htotal := (counts_groups failures).total
      rw [hnone] at htotal
      exact List.length_eq_zero_iff.1 htotal.symm
    · rintro rfl
      rfl
  simp only [lines?, hempty]

/-! ## What is put on top -/

theorem textOf_trivia (lines : List String) :
    Trivia.textOf (trivia lines) = Text.concat (lines.map (· ++ "\n")) ++ "\n" := by
  induction lines with
  | nil => rfl
  | cons line lines ih =>
    rw [trivia, List.flatMap_cons, List.append_assoc, ← trivia, Trivia.textOf_append, ih]
    simp [Trivia.text, Trivia.newline, String.append_assoc]

/-- The lines and an empty one come before all that the tree prints. -/
theorem source_putOnTop {t : Tree} (lines : List String) (hne : t.root.tokens ≠ []) :
    (putOnTop lines t).source = Text.concat (lines.map (· ++ "\n")) ++ "\n" ++ t.source := by
  obtain ⟨u, us, htokens⟩ := List.exists_cons_of_ne_nil hne
  rw [Tree.source, Node.source, tokens_putOnTop lines htokens, Tree.source, Node.source, htokens,
    ← textOf_trivia]
  simp [Token.source, String.append_assoc]

end Banner

namespace Plan

variable {plan : Plan} {settings : Settings} {t : Tree}

theorem applyEdits_quiet :
    plan.applyEdits { settings with emitBanner := false } t = plan.applyEdits settings t := by
  rw [applyEdits, Progress.step_quiet]
  rfl

theorem apply_quiet :
    plan.apply { settings with emitBanner := false } t = plan.applyEdits settings t := by
  rw [← applyEdits_quiet]
  rfl

/-- A file that was read has a token after any plan without a record for the whole of it. -/
theorem tokens_applyEdits_ne_nil {source : String} {reading : Nat} {parsed : Tree}
    (hparse : Tree.parse source reading = .ok parsed) (halike : t.root.Alike parsed.root)
    (htags : t.root.tags = []) : (plan.applyEdits settings t).tree.root.tokens ≠ [] := by
  have hread := Tree.readFrom_of_parse hparse
  have hhoused : t.root.Housed := (Tree.formed_of_parse hparse).housed.of_shape halike.shape_eq.symm
  have hfile : t.root.FileLike :=
    ⟨halike.kind_eq.trans hread.kind_eq, halike.closedIn hread.closedIn, hhoused.flat⟩
  have hafter := plan.fileLike_after settings hfile hhoused.headed htags
  have hhands : (t.after settings plan.ordered).root.HandsOn (plan.applyEdits settings t).tree.root :=
    plan.imports.handsOn_apply hafter
  rw [Node.tokens_eq]
  exact Node.tokensIn_ne_nil_of_closedIn hhands.file.closed

/-- With a failure, a run that is to report it puts the lines on top of the tree. -/
theorem tree_apply_of_failures (hemit : settings.emitBanner = true)
    (hne : plan.failures ++ (plan.applyEdits settings t).failures ≠ []) :
    let label := plan.bannerLabel settings
    (plan.apply settings t).tree = Banner.putOnTop ([Banner.rule, Banner.title label] ++
      (Banner.groups (plan.failures ++ (plan.applyEdits settings t).failures)).map
        (Banner.groupLine label) ++ [Banner.rule]) (plan.applyEdits settings t).tree := by
  simp only [apply, hemit, Banner.lines?_eq, if_neg hne]

/-- A run that is to report on top of the file has the failures of one that is not. When there are
    none, neither in the plan nor from the run, both come to the same tree. Else the file begins with
    the lines of the banner, each of them ended, and an empty line; below stands what the other run
    prints, if it has a token, as any file has that was read. Between the first two lines and the
    last there is one for each phase that failed, in the order of the first failures, those of the
    plan before those of the run. It shows the name of its phase, which no other line does, and the
    number of the failures of its phase, and these numbers come to that of all failures. -/
theorem apply_reports (plan : Plan) (t : Tree) (hemit : settings.emitBanner = true) :
    let run := plan.apply settings t
    let quiet := plan.apply { settings with emitBanner := false } t
    let failures := plan.failures ++ run.failures
    let label := settings.targetLabel.getD plan.target
    (run.failures = quiet.failures ∧ run.tally = quiet.tally) ∧
    (failures = [] → run.tree = quiet.tree) ∧
    (failures ≠ [] → quiet.tree.root.tokens ≠ [] → ∃ gs, Banner.Counts failures gs ∧
      (gs.map fun g => g.phase.name).Nodup ∧
      let rule := "// ============================================================"
      let title := "// " ++ label ++ " Migration: Some items require manual attention"
      let lines := [rule, title] ++ gs.map (fun g =>
        "// TODO: " ++ label ++ " migration - " ++ g.phase.name ++ ": " ++ toString g.count ++
          " item(s) could not be converted") ++ [rule]
      run.tree.source = Text.concat (lines.map (· ++ "\n")) ++ "\n" ++ quiet.tree.source) ∧
    ∀ source reading parsed, Tree.parse source reading = .ok parsed → t.root.Alike parsed.root →
      t.root.tags = [] → quiet.tree.root.tokens ≠ [] := by
  intro run quiet failures label
  have hquiet : quiet = plan.applyEdits settings t := apply_quiet
  obtain ⟨htally, hfailures⟩ : run.tally = quiet.tally ∧ run.failures = quiet.failures :=
    hquiet ▸ plan.tally_apply
  have hall : failures = plan.failures ++ (plan.applyEdits settings t).failures := by
    rw [← hquiet, ← hfailures]
  refine ⟨⟨hfailures, htally⟩, fun hnone => ?_, fun hsome hne => ?_, ?_⟩
  · rw [hquiet, ← apply_of_no_failures (hall ▸ hnone)]
  · have hcounts := Banner.counts_groups failures
    refine ⟨Banner.groups failures, hcounts, hcounts.nodup_names, ?_⟩
    intro rule title lines
    have htree : run.tree = Banner.putOnTop lines (plan.applyEdits settings t).tree := by
      rw [tree_apply_of_failures hemit (hall ▸ hsome), ← hall, Banner.rule_eq, Banner.title_eq,
        funext (Banner.groupLine_eq _)]
      rfl
    rw [hquiet] at hne ⊢
    rw [htree, Banner.source_putOnTop lines hne]
  · intro source reading parsed hparse halike htags
    rw [hquiet]
    exact tokens_applyEdits_ne_nil hparse halike htags

/-- A plan with failures of two phases in turn, and with a marker that cannot be read. -/
def failing : Plan :=
  let failures := [.assertion, .marker, .assertion].map fun topic =>
    { phase := .analysis topic, description := "unsupported", written := "" }
  push { source := "xUnit", target := "TUnit", failures } ⟨⟨0⟩, "void M", .methodMarker "A(" none⟩

/-- What a run of it on a class with one method prints. -/
def reported : String :=
  "// ============================================================\n" ++
  "// TUnit Migration: Some items require manual attention\n" ++
  "// TODO: TUnit migration - AssertionAnalysis: 2 item(s) could not be converted\n" ++
  "// TODO: TUnit migration - MarkerAnalysis: 1 item(s) could not be converted\n" ++
  "// TODO: TUnit migration - MethodMarkerAddition: 1 item(s) could not be converted\n" ++
  "// ============================================================\n\n" ++
  "class C \x7b void M() \x7b \x7d \x7d"

theorem apply_reports_failing : ∃ parsed t,
    Tree.parse "class C \x7b void M() \x7b \x7d \x7d" = .ok parsed ∧ t.root.Alike parsed.root ∧
    t.root.tags = [] ∧
    let run := failing.apply {} t
    let quiet := failing.apply { emitBanner := false } t
    let failures := failing.failures ++ run.failures
    run.failures.map Failure.phase = [.edit .methodMarker] ∧ failures ≠ [] ∧
    quiet.tree.root.tokens ≠ [] ∧ quiet.tree.source = "class C \x7b void M() \x7b \x7d \x7d" ∧
    run.tree.source = reported ∧
    ∃ gs, Banner.Counts failures gs ∧ (gs.map fun g => g.phase.name).Nodup ∧
      let rule := "// ============================================================"
      let title := "// " ++ "TUnit" ++ " Migration: Some items require manual attention"
      let lines := [rule, title] ++ gs.map (fun g =>
        "// TODO: " ++ "TUnit" ++ " migration - " ++ g.phase.name ++ ": " ++ toString g.count ++
          " item(s) could not be converted") ++ [rule]
      run.tree.source = Text.concat (lines.map (· ++ "\n")) ++ "\n" ++ quiet.tree.source := by
  let tagged (parsed : Tree) : Tree := parsed.tagAll [(⟨0⟩, [0, 4])]
  obtain ⟨parsed, hparsed, hsample⟩ := exists_ok_of_map
    (x := Tree.parse "class C \x7b void M() \x7b \x7d \x7d")
    (f := fun parsed => ((tagged parsed).root.tags,
      (failing.apply {} (tagged parsed)).failures.map Failure.phase,
      (failing.apply { emitBanner := false } (tagged parsed)).tree.source,
      (failing.apply {} (tagged parsed)).tree.source))
    (b := ([], [.edit .methodMarker], "class C \x7b void M() \x7b \x7d \x7d", reported))
    (by decide +kernel)
  obtain ⟨htags, hphases, hsource, htext⟩ : _ ∧ _ ∧ _ ∧ _ := by
    simpa only [Prod.mk.injEq] using hsample
  have halike : (tagged parsed).root.Alike parsed.root := parsed.alike_tagAll _
  obtain ⟨-, -, hreport, htokens⟩ := @apply_reports {} failing (tagged parsed) rfl
  have hne := htokens _ _ parsed hparsed halike htags
  have hsome : ∀ failures, failing.failures ++ failures ≠ [] := fun _ => List.cons_ne_nil _ _
  exact ⟨parsed, _, hparsed, halike, htags, hphases, hsome _, hne, hsource, htext,
    hreport (hsome _) hne⟩

end Plan

end Recast
