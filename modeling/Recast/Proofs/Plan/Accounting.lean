-- SUMMARY: The outcome of every record of a plan at its turn, the tally of a run as a count of outcomes, and that a plan without the records that do not land comes to the same tree.
import Recast.Proofs.Plan.Carrying

/-! # Accounts of a run

Each pushed record has one turn. What becomes of it there depends on the tree that the records
before it left (`Record.outcome`): it is skipped when no node carries its tag, and otherwise its
edit goes through or is refused. The tally of a run counts these outcomes (`Plan.tally_eq`), and
only records whose edit goes through change the tree, so a plan reduced to them comes to the same
tree (`Plan.after_landing`).

A plan may hold the same record twice, so a record is named by its number among the pushed ones.
Facts about a run are proved along the turns (`Plan.turns_induction`). -/

namespace Recast

/-! ## Outcomes -/

/-- What becomes of a record at its turn. -/
inductive Outcome where
  | applied
  | skipped
  | failed
  deriving DecidableEq, Repr

/-- What becomes of a record when its turn comes with a tree. -/
def Record.outcome (settings : Settings) (r : Record) (t : Tree) : Outcome :=
  match t.findTagged? r.tag with
  | none => .skipped
  | some s =>
    match r.change.apply settings s with
    | .ok _ => .applied
    | .error _ => .failed

theorem Tree.findTagged?_eq_none {t : Tree} {tag : Tag} :
    t.findTagged? tag = none ↔ ∀ p n, t.root.at? p = some n → tag ∉ n.tags := by
  constructor
  · intro h p n hat htag
    have hfound : (t.root.search? (·.hasTag tag) fun _ => true).isSome :=
      Node.search?_isSome hat (by simpa [Node.hasTag] using htag) (fun _ _ _ _ _ _ => rfl)
    rw [findTagged?, Option.map_eq_none_iff] at h
    rw [h] at hfound
    cases hfound
  · intro h
    cases hfound : t.findTagged? tag with
    | none => rfl
    | some s =>
      obtain ⟨hs, htag⟩ := Tree.findTagged?_mem hfound
      obtain ⟨-, hat⟩ := Tree.mem_sites_iff.1 hs
      exact absurd (by simpa [Node.hasTag] using htag) (h _ _ hat)

/-- A record is skipped exactly when no node carries its tag. -/
theorem Record.outcome_eq_skipped {settings : Settings} {r : Record} {t : Tree} :
    r.outcome settings t = .skipped ↔ ∀ p n, t.root.at? p = some n → r.tag ∉ n.tags := by
  rw [← Tree.findTagged?_eq_none, outcome]
  split
  · rename_i hnone
    simp [hnone]
  · rename_i s hfound
    rw [hfound]
    split <;> simp

namespace Tally

/-- One more record of an outcome. -/
def add (tally : Tally) : Outcome → Tally
  | .applied => { tally with applied := tally.applied + 1 }
  | .skipped => { tally with skipped := tally.skipped + 1 }
  | .failed => { tally with failed := tally.failed + 1 }

/-- How often each outcome is among some. -/
def ofOutcomes (outcomes : List Outcome) : Tally where
  applied := outcomes.count .applied
  skipped := outcomes.count .skipped
  failed := outcomes.count .failed

theorem ofOutcomes_concat (outcomes : List Outcome) (o : Outcome) :
    ofOutcomes (outcomes ++ [o]) = (ofOutcomes outcomes).add o := by
  cases o <;> simp [ofOutcomes, add]

theorem ofOutcomes_perm {xs ys : List Outcome} (h : xs.Perm ys) : ofOutcomes xs = ofOutcomes ys := by
  simp only [ofOutcomes, h.count_eq]

/-- Every outcome is counted once. -/
theorem total_ofOutcomes (outcomes : List Outcome) :
    (ofOutcomes outcomes).applied + (ofOutcomes outcomes).skipped + (ofOutcomes outcomes).failed =
      outcomes.length := by
  induction outcomes using List.reverseRecOn with
  | nil => rfl
  | append_singleton outcomes o ih =>
    rw [ofOutcomes_concat, List.length_append, List.length_singleton, ← ih]
    cases o <;> simp only [add] <;> omega

end Tally

namespace Progress

/-- The tally counts some outcomes, and the refused edits are the failures. -/
structure Accounts (p : Progress) (outcomes : List Outcome) : Prop where
  tally_eq : p.tally = .ofOutcomes outcomes
  failures_eq : p.failures.length = p.tally.failed
  phases : ∀ f ∈ p.failures, f.phase ≠ .importEdit

theorem Accounts.step {settings : Settings} {p : Progress} {outcomes : List Outcome}
    (h : p.Accounts outcomes) (r : Record) :
    (p.step settings r).Accounts (outcomes ++ [r.outcome settings p.tree]) := by
  cases hfound : p.tree.findTagged? r.tag with
  | none =>
    simp only [Progress.step, Record.outcome, hfound]
    exact ⟨by rw [Tally.ofOutcomes_concat, ← h.tally_eq]; rfl, h.failures_eq, h.phases⟩
  | some s =>
    cases happly : r.change.apply settings s with
    | ok t =>
      simp only [Progress.step, Record.outcome, hfound, happly]
      exact ⟨by rw [Tally.ofOutcomes_concat, ← h.tally_eq]; rfl, h.failures_eq, h.phases⟩
    | error e =>
      simp only [Progress.step, Record.outcome, hfound, happly]
      refine ⟨by rw [Tally.ofOutcomes_concat, ← h.tally_eq]; rfl, ?_, fun f hf => ?_⟩
      · rw [List.length_append, h.failures_eq]
        rfl
      · rcases List.mem_append.1 hf with hf | hf
        · exact h.phases f hf
        · simp [List.mem_singleton.1 hf]

variable (settings : Settings) (p : Progress) (r : Record)

/-- The tree after a step depends on the tree before it alone. -/
theorem tree_step : (p.step settings r).tree = p.tree.after settings [r] := by
  cases hfound : p.tree.findTagged? r.tag with
  | none => simp only [Tree.after, List.foldl_cons, List.foldl_nil, step, start, hfound]
  | some s =>
    cases happly : r.change.apply settings s <;>
      simp only [Tree.after, List.foldl_cons, List.foldl_nil, step, start, hfound, happly]

end Progress

namespace Tree

variable {settings : Settings}

theorem after_concat_eq (t : Tree) (records : List Record) (r : Record) :
    t.after settings (records ++ [r]) = (t.after settings records).after settings [r] := by
  rw [after_concat, Progress.tree_step]
  rfl

/-- A record that does not land leaves the tree as it was. -/
theorem after_of_outcome {t : Tree} {r : Record} (h : r.outcome settings t ≠ .applied) :
    t.after settings [r] = t := by
  cases hfound : t.findTagged? r.tag with
  | none => simp only [after, List.foldl_cons, List.foldl_nil, Progress.step, Progress.start, hfound]
  | some s =>
    cases happly : r.change.apply settings s with
    | ok t' => exact absurd (by simp only [Record.outcome, hfound, happly]) h
    | error e =>
      simp only [after, List.foldl_cons, List.foldl_nil, Progress.step, Progress.start, hfound,
        happly]

/-- A record that lands is carried out at the node with its tag. -/
theorem apply_of_outcome {t : Tree} {r : Record} (h : r.outcome settings t = .applied) :
    ∃ s, t.findTagged? r.tag = some s ∧
      r.change.apply settings s = .ok (t.after settings [r]) := by
  cases hfound : t.findTagged? r.tag with
  | none => simp only [Record.outcome, hfound, reduceCtorEq] at h
  | some s =>
    cases happly : r.change.apply settings s with
    | error e => simp only [Record.outcome, hfound, happly, reduceCtorEq] at h
    | ok t' =>
      refine ⟨s, rfl, ?_⟩
      simp only [happly, after, List.foldl_cons, List.foldl_nil, Progress.step, Progress.start,
        hfound]

/-- What is kept by each record that lands, when it is carried out at its turn, is kept by the
    run. -/
theorem after_induction {P : Tree → Prop} {t : Tree} {records : List Record} (start : P t)
    (step : ∀ {before r rest s t'}, records = before ++ r :: rest →
      r.outcome settings (t.after settings before) = .applied →
      s ∈ (t.after settings before).sites → r.tag ∈ s.node.tags →
      r.change.apply settings s = .ok t' → P (t.after settings before) → P t') :
    P (t.after settings records) := by
  induction records using List.reverseRecOn with
  | nil => exact start
  | append_singleton records r ih =>
    have hbefore : P (t.after settings records) := ih fun hsplit =>
      step (by rw [hsplit, List.append_assoc, List.cons_append])
    rw [after_concat_eq]
    by_cases houtcome : r.outcome settings (t.after settings records) = .applied
    · obtain ⟨s, hfound, happly⟩ := apply_of_outcome houtcome
      obtain ⟨hs, htag⟩ := findTagged?_mem hfound
      exact step rfl houtcome hs (by simpa [Node.hasTag] using htag) happly hbefore
    · rw [after_of_outcome houtcome]
      exact hbefore

end Tree

/-! ## Turns -/

namespace Plan

/-- The records with their numbers, in the order in which they are carried out. -/
def turns (plan : Plan) : List (Record × Nat) :=
  RecordKind.all.flatMap fun k => plan.records.zipIdx.filter fun turn => turn.1.kind == k

/-- The records that are carried out before the one with a number. -/
def before (plan : Plan) (i : Nat) : List Record :=
  (plan.turns.takeWhile fun turn => turn.2 != i).map Prod.fst

/-- What becomes of a record with its number in a run of the plan on a tree. -/
def outcome (plan : Plan) (settings : Settings) (t : Tree) (turn : Record × Nat) : Outcome :=
  turn.1.outcome settings (t.after settings (plan.before turn.2))

/-- What becomes of each of the pushed records, in the order in which they were pushed. -/
def outcomes (plan : Plan) (settings : Settings) (t : Tree) : List Outcome :=
  plan.records.zipIdx.map (plan.outcome settings t)

/-- The plan without the records that do not land: those that are skipped and those that fail. -/
def landing (plan : Plan) (settings : Settings) (t : Tree) : Plan :=
  { plan with
    records := (plan.records.zipIdx.filter fun turn =>
      plan.outcome settings t turn == .applied).map Prod.fst }

variable (plan : Plan)

theorem perm_turns : plan.turns.Perm plan.records.zipIdx :=
  RecordKind.perm_sorted (fun turn : Record × Nat => turn.1.kind) plan.records.zipIdx

theorem map_fst_turns : plan.turns.map Prod.fst = plan.ordered := by
  have hkind : ∀ k, (plan.records.zipIdx.filter fun turn => turn.1.kind == k).map Prod.fst =
      plan.recordsOf k := by
    intro k
    rw [recordsOf, ← List.zipIdx_map_fst 0 plan.records, List.filter_map, List.zipIdx_map_fst]
    rfl
  rw [turns, ordered, List.map_flatMap]
  exact congrArg RecordKind.all.flatMap (funext hkind)

theorem nodup_numbers : (plan.turns.map Prod.snd).Nodup := by
  rw [(plan.perm_turns.map Prod.snd).nodup_iff, List.zipIdx_map_snd]
  exact List.nodup_range'

variable {plan}

theorem mem_turns {r : Record} {i : Nat} : (r, i) ∈ plan.turns ↔ plan.records[i]? = some r := by
  rw [plan.perm_turns.mem_iff, List.mem_zipIdx_iff_getElem?]

/-- Before a turn come the turns in front of it. -/
theorem before_eq {earlier later : List (Record × Nat)} {r : Record} {i : Nat}
    (h : plan.turns = earlier ++ (r, i) :: later) : plan.before i = earlier.map Prod.fst := by
  have hnodup := plan.nodup_numbers
  rw [h, List.map_append, List.map_cons, List.nodup_append] at hnodup
  obtain ⟨-, -, hdisjoint⟩ := hnodup
  have hearlier : ∀ turn ∈ earlier, (turn.2 != i) = true := by
    intro turn hturn
    simpa using hdisjoint turn.2 (List.mem_map_of_mem hturn) i (List.mem_cons_self ..)
  rw [before, h, List.takeWhile_append_of_pos hearlier]
  simp

/-- The turn of a record in the run. -/
theorem exists_ordered_eq {r : Record} {i : Nat} (h : plan.records[i]? = some r) :
    ∃ rest, plan.ordered = plan.before i ++ r :: rest := by
  obtain ⟨earlier, later, hsplit⟩ := List.append_of_mem (mem_turns.2 h)
  refine ⟨later.map Prod.fst, ?_⟩
  rw [before_eq hsplit, ← map_fst_turns, hsplit]
  simp

/-- What holds before the first turn and is handed on from turn to turn holds after the last. -/
theorem turns_induction {P : List (Record × Nat) → Prop} (nil : P [])
    (next : ∀ earlier r i, plan.records[i]? = some r → plan.before i = earlier.map Prod.fst →
      P earlier → P (earlier ++ [(r, i)])) : P plan.turns := by
  have hprefixes : ∀ earlier later, plan.turns = earlier ++ later → P earlier := by
    intro earlier
    induction earlier using List.reverseRecOn with
    | nil => exact fun _ _ => nil
    | append_singleton earlier turn ih =>
      intro later hsplit
      rw [List.append_assoc, List.singleton_append] at hsplit
      refine next earlier turn.1 turn.2 (mem_turns.1 ?_) (before_eq hsplit) (ih _ hsplit)
      rw [hsplit]
      exact List.mem_append_right _ (List.mem_cons_self ..)
  exact hprefixes plan.turns [] (List.append_nil _).symm

/-! ## The tally of a run -/

section Run

variable (plan) (settings : Settings) (t : Tree)

/-- The tally of the records counts their outcomes. -/
theorem accounts_records : (plan.ordered.foldl (Progress.step settings) (.start t)).Accounts
    (plan.outcomes settings t) := by
  have hturns : ((plan.turns.map Prod.fst).foldl (Progress.step settings) (.start t)).Accounts
      (plan.turns.map (plan.outcome settings t)) := by
    refine turns_induction (P := fun earlier =>
      ((earlier.map Prod.fst).foldl (Progress.step settings) (.start t)).Accounts
        (earlier.map (plan.outcome settings t))) ⟨rfl, rfl, by simp [Progress.start]⟩ ?_
    intro earlier r i hr hbefore ih
    have houtcome : plan.outcome settings t (r, i) = r.outcome settings
        ((earlier.map Prod.fst).foldl (Progress.step settings) (.start t)).tree := by
      rw [outcome, hbefore]
      rfl
    rw [List.map_append, List.map_append, List.foldl_append, List.map_singleton,
      List.map_singleton, houtcome]
    exact ih.step r
  have hperm := Tally.ofOutcomes_perm (plan.perm_turns.map (plan.outcome settings t))
  rw [map_fst_turns] at hturns
  exact ⟨hturns.tally_eq.trans hperm, hturns.failures_eq, hturns.phases⟩

/-- The records that do not land leave no trace in the tree. -/
theorem after_landing :
    t.after settings (plan.landing settings t).ordered = t.after settings plan.ordered := by
  have hordered : (plan.landing settings t).ordered =
      (plan.turns.filter fun turn => plan.outcome settings t turn == .applied).map Prod.fst := by
    rw [turns, ordered, List.filter_flatMap, List.map_flatMap]
    refine congrArg RecordKind.all.flatMap (funext fun k => ?_)
    rw [recordsOf, landing, List.filter_map, List.filter_filter, List.filter_filter]
    simp only [Function.comp_def, Bool.and_comm]
  rw [hordered, ← map_fst_turns]
  refine turns_induction (P := fun earlier => t.after settings ((earlier.filter fun turn =>
    plan.outcome settings t turn == .applied).map Prod.fst) =
      t.after settings (earlier.map Prod.fst)) rfl ?_
  intro earlier r i hr hbefore ih
  rw [List.filter_append, List.map_append, List.map_append, List.map_singleton,
    Tree.after_concat_eq, ← ih]
  by_cases hlands : plan.outcome settings t (r, i) = .applied
  · rw [List.filter_cons_of_pos (by simp [hlands])]
    exact Tree.after_concat_eq ..
  · rw [List.filter_cons_of_neg (by simp [hlands]), List.filter_nil, List.map_nil, List.append_nil,
      ih, Tree.after_of_outcome]
    rwa [outcome, hbefore] at hlands

end Run

end Plan

/-! ## Imports and banner -/

theorem Edit.phase_requireImport {state : Tree × List Failure} {space : String}
    (h : ∀ f ∈ state.2, f.phase = .importEdit) :
    ∀ f ∈ (requireImport state space).2, f.phase = .importEdit := by
  obtain ⟨t, failures⟩ := state
  simp only [requireImport]
  split
  · exact h
  · split
    · exact h
    · intro f hf
      rcases List.mem_append.1 hf with hf | hf
      · exact h f hf
      · rw [List.mem_singleton.1 hf]

theorem ImportDelta.phase_apply (delta : ImportDelta) (t : Tree) :
    ∀ f ∈ (delta.apply t).2, f.phase = .importEdit := by
  unfold apply
  split
  · simp
  · exact List.foldlRecOn 
      (motive := fun state : Tree × List Failure => ∀ f ∈ state.2, f.phase = .importEdit) _ _
      (by simp) fun _ h _ _ => Edit.phase_requireImport h

/-- Import failures come on top of what is counted, and can be told from refused edits. -/
theorem Progress.Accounts.changeImports {p : Progress} {outcomes : List Outcome}
    (h : p.Accounts outcomes) (delta : ImportDelta) :
    let next := p.changeImports delta
    let count := (next.failures.filter fun f => f.phase == .importEdit).length
    next.tally = { Tally.ofOutcomes outcomes with failed := outcomes.count .failed + count } ∧
      next.failures.length = next.tally.failed := by
  have hedits : (p.failures.filter fun f => f.phase == .importEdit) = [] :=
    List.filter_eq_nil_iff.2 fun f hf => by simpa using h.phases f hf
  have himports : ((delta.apply p.tree).2.filter fun f => f.phase == .importEdit) =
      (delta.apply p.tree).2 :=
    List.filter_eq_self.2 fun f hf => by simpa using delta.phase_apply p.tree f hf
  simp only [Progress.changeImports, List.filter_append, hedits, himports, List.nil_append,
    List.length_append, h.failures_eq, h.tally_eq, Tally.ofOutcomes, and_self]

/-- No edit asks for the banner. -/
theorem Progress.step_quiet (settings : Settings) :
    step { settings with emitBanner := false } = step settings := by
  have hchange : ∀ (change : Change) (s : Site),
      change.apply { settings with emitBanner := false } s = change.apply settings s := by
    intro change s
    cases change <;> rfl
  funext p r
  simp only [step, hchange]

namespace Plan

variable {plan : Plan} {settings : Settings} {t : Tree}

/-- The banner changes the tree alone. -/
theorem tally_apply : (plan.apply settings t).tally = (plan.applyEdits settings t).tally ∧
    (plan.apply settings t).failures = (plan.applyEdits settings t).failures := by
  simp only [apply]
  split <;> exact ⟨rfl, rfl⟩

/-- Without failures there is nothing to put on top. -/
theorem apply_of_no_failures (h : plan.failures ++ (plan.applyEdits settings t).failures = []) :
    plan.apply settings t = plan.applyEdits settings t := by
  have hlines : Banner.lines? (plan.bannerLabel settings)
      (plan.failures ++ (plan.applyEdits settings t).failures) = none := by
    rw [h]
    rfl
  cases hemit : settings.emitBanner <;> simp only [apply, hlines, hemit]

theorem after_quiet (records : List Record) :
    t.after { settings with emitBanner := false } records = t.after settings records := by
  rw [Tree.after, Progress.step_quiet]
  rfl

/-- Without a banner, a run comes to what the records and then the imports leave. -/
theorem tree_apply_quiet : (plan.apply { settings with emitBanner := false } t).tree =
    (plan.imports.apply (t.after settings plan.ordered)).1 := by
  rw [← after_quiet]
  rfl

theorem records_foldl_push (records : List Record) (plan : Plan) :
    records.foldl push plan = { plan with records := plan.records ++ records } := by
  induction records generalizing plan with
  | nil => simp
  | cons r records ih => simp [ih, push]

/-- The accounts of a run of a plan with some pushed records. Every one of them is counted once,
    and import failures come on top; the failures are those that are counted. A record is skipped
    when no node carries its tag at its turn, and one that does not land leaves the tree as it
    was, so that the plan without those comes to the same tree. -/
theorem apply_accounts (source target : String) (imports : ImportDelta) (failures : List Failure)
    (records : List Record) (settings : Settings) (t : Tree) :
    let plan := records.foldl push { source, target, imports, failures }
    let run := plan.apply settings t
    let importFailures := run.failures.filter fun f => f.phase == .importEdit
    let quiet := { settings with emitBanner := false }
    (run.tally.applied + run.tally.skipped + run.tally.failed =
        records.length + importFailures.length ∧
      run.failures.length = run.tally.failed) ∧
    (run.tally.applied = (plan.outcomes settings t).count .applied ∧
      run.tally.skipped = (plan.outcomes settings t).count .skipped ∧
      run.tally.failed = (plan.outcomes settings t).count .failed + importFailures.length) ∧
    (∀ i r, records[i]? = some r →
      let turn := t.after settings (plan.before i)
      (∃ rest, plan.ordered = plan.before i ++ r :: rest) ∧
      (plan.outcomes settings t)[i]? = some (r.outcome settings turn) ∧
      ((∀ p n, turn.root.at? p = some n → r.tag ∉ n.tags) →
        r.outcome settings turn = .skipped) ∧
      (r.outcome settings turn ≠ .applied →
        t.after settings (plan.before i ++ [r]) = turn)) ∧
    ((plan.landing settings t).apply quiet t).tree = (plan.apply quiet t).tree := by
  intro plan run importFailures quiet
  have hrecords : plan.records = records := by
    simp only [plan, records_foldl_push, List.nil_append]
  -- The tally of the records, to which the imports add their failures; a banner adds nothing.
  obtain ⟨htally, hfailures⟩ := (plan.accounts_records settings t).changeImports plan.imports
  rw [show (Progress.changeImports _ plan.imports) = plan.applyEdits settings t from rfl,
    ← tally_apply.1, ← tally_apply.2] at htally hfailures
  have hlength : (plan.outcomes settings t).length = records.length := by
    rw [outcomes, List.length_map, List.length_zipIdx, hrecords]
  refine ⟨⟨?_, hfailures⟩, ⟨by rw [htally]; rfl, by rw [htally]; rfl, by rw [htally]⟩, ?_, ?_⟩
  · rw [← hlength, ← Tally.total_ofOutcomes, htally]
    exact (Nat.add_assoc ..).symm
  · intro i r hr turn
    rw [← hrecords] at hr
    refine ⟨exists_ordered_eq hr, ?_, Record.outcome_eq_skipped.2, fun hnot => ?_⟩
    · simp [outcomes, outcome, hr, turn]
    · rw [Tree.after_concat_eq, Tree.after_of_outcome hnot]
  · rw [tree_apply_quiet, tree_apply_quiet, after_landing]
    rfl

end Plan

end Recast
