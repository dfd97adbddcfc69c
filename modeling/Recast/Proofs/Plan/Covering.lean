-- SUMMARY: A record of a migration is skipped only when its node is in that of a record that was carried out before it and took that node away; every other record is applied or reported.
import Recast.Proofs.Plan.Untouched

/-! # Covered records

Records are made for every candidate of a tree, those in other candidates too. One whose node is in
a node that an earlier record replaces or removes is covered by that record (`Record.Covers`): what
is put in the place of the node is made from its text, and the tag of the inner record goes. Nothing
else makes a record lose its node. The tag of a node stays through a run of records as long as no
record that takes its node has a tag on the way up from there (`Tree.exists_tagged_after`). -/

namespace Recast

/-! ## Refused edits -/

namespace Progress

variable {settings : Settings}

/-- Failures stay reported. -/
theorem failures_step (p : Progress) (r : Record) :
    p.failures <+: (p.step settings r).failures := by
  unfold step
  split
  · exact List.prefix_rfl
  · split
    · exact List.prefix_rfl
    · exact List.prefix_append ..

theorem failures_foldl (records : List Record) (p : Progress) :
    p.failures <+: (records.foldl (step settings) p).failures := by
  induction records generalizing p with
  | nil => exact List.prefix_rfl
  | cons r records ih => exact (failures_step p r).trans (ih _)

/-- A refused edit is reported. -/
theorem exists_failure_step {p : Progress} {r : Record}
    (h : r.outcome settings p.tree = .failed) : ∃ failure ∈ (p.step settings r).failures,
      failure.phase = .edit r.kind ∧ failure.written = r.written := by
  cases hfound : p.tree.findTagged? r.tag with
  | none => simp only [Record.outcome, hfound, reduceCtorEq] at h
  | some s =>
    cases happly : r.change.apply settings s with
    | ok t => simp only [Record.outcome, hfound, happly, reduceCtorEq] at h
    | error e =>
      refine ⟨⟨.edit r.kind, e.message, r.written⟩, ?_, rfl, rfl⟩
      simp only [step, hfound, happly]
      exact List.mem_append_right _ (List.mem_singleton_self _)

end Progress

namespace Plan

variable {plan : Plan} {settings : Settings} {t : Tree}

theorem exists_failure_apply {before rest : List Record} {r : Record}
    (hsplit : plan.ordered = before ++ r :: rest)
    (h : r.outcome settings (t.after settings before) = .failed) :
    ∃ failure ∈ (plan.apply settings t).failures,
      failure.phase = .edit r.kind ∧ failure.written = r.written := by
  obtain ⟨failure, hmem, hfailure⟩ := Progress.exists_failure_step h
  refine ⟨failure, ?_, hfailure⟩
  have hrun : failure ∈ (rest.foldl (Progress.step settings) _).failures :=
    (Progress.failures_foldl rest _).subset hmem
  rw [tally_apply.2]
  refine List.mem_append_left _ ?_
  rwa [hsplit, List.foldl_append, List.foldl_cons]

theorem skipped_apply :
    (plan.apply settings t).tally.skipped = (plan.outcomes settings t).count .skipped := by
  obtain ⟨htally, -⟩ := (plan.accounts_records settings t).changeImports plan.imports
  rw [tally_apply.1]
  exact congrArg Tally.skipped htally

/-- What is carried out has its own turn. -/
theorem exists_turn {earlier rest : List Record} {r : Record}
    (h : plan.ordered = earlier ++ r :: rest) :
    ∃ j, plan.records[j]? = some r ∧ plan.before j = earlier := by
  rw [← map_fst_turns] at h
  obtain ⟨turns, turns', hturns, rfl, hrest⟩ := List.map_eq_append_iff.1 h
  obtain ⟨⟨_, j⟩, later, rfl, rfl, -⟩ := List.map_eq_cons_iff.1 hrest
  refine ⟨j, mem_turns.1 ?_, before_eq hturns⟩
  rw [hturns]
  exact List.mem_append_right _ (List.mem_cons_self ..)

/-- What was carried out before a record had its own turn. -/
theorem exists_turn_of_before {i : Nat} {earlier between : List Record} {r : Record}
    (h : plan.before i = earlier ++ r :: between) :
    ∃ j, plan.records[j]? = some r ∧ plan.before j = earlier := by
  have hsplit := List.takeWhile_append_dropWhile
    (p := fun turn : Record × Nat => turn.2 != i) (l := plan.turns)
  have hordered := congrArg (List.map Prod.fst) hsplit
  rw [map_fst_turns, List.map_append] at hordered
  rw [before] at h
  rw [h, List.append_assoc, List.cons_append] at hordered
  exact exists_turn hordered.symm

end Plan

/-! ## Tags that stay -/

/-- A node of a sort, on whose way up nothing is that is gone, and that is in no construct that is
    stripped, if some are. -/
structure Top.Stays (P : List Top → Top → Prop) (gone : Top → Prop) (stripped : Prop)
    (up : List Top) (top : Top) : Prop where
  sort : P up top
  unlisted : top.kind.isListing = false
  kept : ∀ x ∈ top :: up, ¬gone x
  unbarred : stripped → ¬Barred (top :: up)

section Staying

variable (P : List Top → Top → Prop) (gone : Top → Prop) (stripped : Prop)

open Classical in
/-- Tells that a node of a sort is there, of those that stay. -/
noncomputable def Observer.ofStaying : Observer Unit where
  tell up n := if n.top.Stays P gone stripped up then [()] else []
  tell_mapFirst up n f _ := by rw [n.top_mapFirst f]
  tell_mapLast up n f _ := by rw [n.top_mapLast f]

variable {P gone stripped} {up : List Top} {n : Node}

theorem tell_ofStaying (h : n.top.Stays P gone stripped up) :
    (Observer.ofStaying P gone stripped).tell up n = [()] :=
  if_pos h

theorem tell_ofStaying_of_not (h : ¬n.top.Stays P gone stripped up) :
    (Observer.ofStaying P gone stripped).tell up n = [] :=
  if_neg h

theorem sparedBy_ofStaying {r : Record}
    (htaken : r.kind.takes = true → ∀ top : Top, top.Bears r.tags → gone top)
    (hstrips : r.kind.strips = true → stripped) :
    (Observer.ofStaying P gone stripped).SparedBy r where
  blind up n n' _ htop := by
    by_cases h : n.top.Stays P gone stripped up
    · rw [tell_ofStaying h, tell_ofStaying (htop ▸ h)]
    · rw [tell_ofStaying_of_not h]
      exact List.nil_sublist _
  taken := by
    rintro htakes up n ⟨top, htop, hbears⟩
    exact tell_ofStaying_of_not fun h => h.kept top htop (htaken htakes top hbears)
  barred hr _ _ hbarred := tell_ofStaying_of_not fun h => h.unbarred (hstrips hr) hbarred
  unlisted _ n hlisting := tell_ofStaying_of_not fun h => by
    rw [show n.kind.isListing = false from h.unlisted] at hlisting
    cases hlisting

end Staying

/-- A node that stays is left by a run of records, when those that land and take their node take
    what is gone. -/
theorem Tree.exists_stays_after {settings : Settings} {t : Tree} {records : List Record} {p : Path}
    {n : Node} {P : List Top → Top → Prop} {gone : Top → Prop} {stripped : Prop} (ht : t.root.Headed)
    (hsorted : records.Pairwise fun a b => a.kind.rank ≤ b.kind.rank)
    (hat : t.root.at? p = some n) (hstays : n.top.Stays P gone stripped (t.root.above p))
    (hgone : ∀ before r rest, records = before ++ r :: rest →
      r.outcome settings (t.after settings before) = .applied → r.kind.takes = true →
      ∀ top : Top, top.Bears r.tags → gone top)
    (hstripped : ∀ r ∈ records, r.kind.strips = true → stripped) :
    ∃ q m, (t.after settings records).root.at? q = some m ∧
      m.top.Stays P gone stripped ((t.after settings records).root.above q) := by
  let o := Observer.ofStaying P gone stripped
  have hsaves : o.Saves t.root (t.after settings records).root := by
    refine saves_after ht hsorted fun before r rest hsplit hlands => sparedBy_ofStaying ?_ ?_
    · exact hgone before r rest hsplit hlands
    · exact hstripped r (by simp [hsplit])
  by_contra hnone
  have hafter : o.see [] (t.after settings records).root = [] := by
    refine (o.see_eq_nil []).2 fun q m hm => tell_ofStaying_of_not fun h => hnone ⟨q, m, hm, ?_⟩
    rwa [List.append_nil] at h
  have hbefore : o.see [] t.root = [] := List.sublist_nil.1 (hafter ▸ hsaves [])
  have htell := (o.see_eq_nil []).1 hbefore p n hat
  rw [List.append_nil, tell_ofStaying hstays] at htell
  cases htell

/-- A tag stays in the tree through a run of records, unless one of those that land and take their
    node has a tag on the way up from it. Its node must not be a list that goes with its last item,
    nor be in a construct that header edits rewrite when there are such edits. -/
theorem Tree.exists_tagged_after {settings : Settings} {t : Tree} {records : List Record} {p : Path}
    {n : Node} {tag : Tag} (ht : t.root.Headed)
    (hsorted : records.Pairwise fun a b => a.kind.rank ≤ b.kind.rank)
    (hat : t.root.at? p = some n) (htag : tag ∈ n.tags) (hlisting : n.kind.isListing = false)
    (hbarred : ∀ r ∈ records, r.kind.strips = true → ¬Barred (n.top :: t.root.above p))
    (hkept : ∀ before r rest, records = before ++ r :: rest →
      r.outcome settings (t.after settings before) = .applied → r.kind.takes = true →
      ∀ top ∈ n.top :: t.root.above p, ¬top.Bears r.tags) :
    ∃ q m, (t.after settings records).root.at? q = some m ∧ tag ∈ m.tags := by
  let gone : Top → Prop := fun top => ∃ before r rest, records = before ++ r :: rest ∧
    r.outcome settings (t.after settings before) = .applied ∧ r.kind.takes = true ∧
    top.Bears r.tags
  let stripped : Prop := ∃ r ∈ records, r.kind.strips = true
  have hstays : n.top.Stays (fun _ top => tag ∈ top.tags) gone stripped (t.root.above p) := by
    refine ⟨htag, hlisting, ?_, fun ⟨r, hr, hstrips⟩ => hbarred r hr hstrips⟩
    rintro top htop ⟨before, r, rest, hsplit, hlands, htakes, hbears⟩
    exact hkept before r rest hsplit hlands htakes top htop hbears
  obtain ⟨q, m, hm, h⟩ := exists_stays_after ht hsorted hat hstays
    (fun before r rest hsplit hlands htakes top hbears =>
      ⟨before, r, rest, hsplit, hlands, htakes, hbears⟩)
    fun r hr hstrips => ⟨r, hr, hstrips⟩
  exact ⟨q, m, hm, h.sort⟩

/-! ## Records in other records -/

/-- The node of the inner record is in a node of the outer one, or is one. -/
def Record.Covers (t : Tree) (outer inner : Record) : Prop :=
  ∃ s ∈ t.sites, (∃ tag ∈ outer.tags, tag ∈ s.node.tags) ∧
    ∃ d ∈ s.selfAndDescendants, inner.tag ∈ d.node.tags

theorem Record.covers_of_bears {t : Tree} {outer inner : Record} {p : Path} {n : Node} {top : Top}
    (hat : t.root.at? p = some n) (htag : inner.tag ∈ n.tags)
    (htop : top ∈ n.top :: t.root.above p) (hbears : top.Bears outer.tags) :
    outer.Covers t inner := by
  have hfound : ∃ q q' u, p = q ++ q' ∧ t.root.at? q = some u ∧ u.top = top := by
    rcases List.mem_cons.1 htop with rfl | htop
    · exact ⟨p, [], n, (List.append_nil p).symm, hat, rfl⟩
    · obtain ⟨k, u, -, hu, rfl⟩ := Node.exists_of_mem_above hat htop
      exact ⟨p.take k, p.drop k, u, (List.take_append_drop k p).symm, hu, rfl⟩
  obtain ⟨q, q', u, rfl, hu, rfl⟩ := hfound
  rw [Node.at?_append, hu] at hat
  exact ⟨⟨t, q, u⟩, Tree.mem_sites_of_at? hu, hbears, _, Site.mem_selfAndDescendants_of_at? hat,
    htag⟩

namespace RecordKind

theorem isListing_of_mem_seats {kind : RecordKind} {seat : Kind} (h : seat ∈ kind.seats) :
    seat.isListing = false := by
  revert seat
  cases kind <;> decide

/-- Only containers are types; they are carried out before all records that strip a header. -/
theorem isDull_of_mem_seats {kind later : RecordKind} {seat : Kind} (hstrips : kind.strips = true)
    (hrank : kind.rank ≤ later.rank) (h : seat ∈ later.seats) : seat.isDull = false := by
  have hlater : signature.rank ≤ later.rank := by
    refine Nat.le_trans ?_ hrank
    cases kind <;> first | decide | cases hstrips
  revert seat
  cases later <;> first | decide | exact absurd hlater (by decide)

end RecordKind

namespace Plan

/-- Every record has its tag on a node of a kind that such records are made for. -/
def SeatedIn (plan : Plan) (t : Tree) : Prop :=
  ∀ r ∈ plan.records, ∃ p n, t.root.at? p = some n ∧ r.tag ∈ n.tags ∧ n.kind ∈ r.kind.seats

/-- A record with its number was carried out after one that covers it was applied and took its
    node. -/
def Loses (plan : Plan) (settings : Settings) (t : Tree) (i : Nat) (r : Record) : Prop :=
  ∃ (j : Nat) (outer : Record), plan.records[j]? = some outer ∧ outer ∈ plan.before i ∧
    (plan.outcomes settings t)[j]? = some .applied ∧ outer.kind.takes = true ∧ outer.Covers t r

variable {plan : Plan} {settings : Settings} {t : Tree} {r : Record}

/-- A seated record of a housed tree that is skipped is covered by one that landed before it and
    took its node. -/
theorem exists_covers_of_skipped {before rest : List Record} (ht : t.root.Housed)
    (hseated : plan.SeatedIn t) (hsplit : plan.ordered = before ++ r :: rest)
    (h : r.outcome settings (t.after settings before) = .skipped) :
    ∃ earlier outer between, before = earlier ++ outer :: between ∧
      outer.outcome settings (t.after settings earlier) = .applied ∧ outer.kind.takes = true ∧
      outer.Covers t r := by
  obtain ⟨p, n, hat, htag, hseat⟩ := hseated r (mem_ordered.1 (by simp [hsplit]))
  have hsorted := plan.sorted_ordered
  rw [hsplit, List.pairwise_append] at hsorted
  obtain ⟨hbefore, -, hlater⟩ := hsorted
  have hbarred : ∀ r' ∈ before, r'.kind.strips = true → ¬Barred (n.top :: t.root.above p) := by
    intro r' hr' hstrips
    have hrank := hlater r' hr' r (List.mem_cons_self ..)
    exact ht.not_barred hat (RecordKind.isDull_of_mem_seats hstrips hrank hseat)
  by_contra hnone
  obtain ⟨q, m, hm, hstays⟩ := Tree.exists_tagged_after ht.headed hbefore hat htag
    (RecordKind.isListing_of_mem_seats hseat) hbarred
    fun earlier outer between heq hlands htakes top htop hbears => hnone
      ⟨earlier, outer, between, heq, hlands, htakes, Record.covers_of_bears hat htag htop hbears⟩
  exact Record.outcome_eq_skipped.1 h q m hm hstays

theorem getElem?_outcomes {i : Nat} (hr : plan.records[i]? = some r) :
    (plan.outcomes settings t)[i]? =
      some (r.outcome settings (t.after settings (plan.before i))) := by
  simp [outcomes, outcome, hr]

theorem loses_of_skipped {i : Nat} (ht : t.root.Housed) (hseated : plan.SeatedIn t)
    (hr : plan.records[i]? = some r) (h : (plan.outcomes settings t)[i]? = some .skipped) :
    plan.Loses settings t i r := by
  rw [getElem?_outcomes hr] at h
  obtain ⟨rest, hsplit⟩ := exists_ordered_eq hr
  obtain ⟨earlier, outer, between, hbefore, hlands, htakes, hcovers⟩ :=
    exists_covers_of_skipped ht hseated hsplit (Option.some.inj h)
  obtain ⟨j, hj, rfl⟩ := exists_turn_of_before hbefore
  refine ⟨j, outer, hj, ?_, ?_, htakes, hcovers⟩
  · rw [hbefore]
    exact List.mem_append_right _ (List.mem_cons_self ..)
  · rw [getElem?_outcomes hj, hlands]

/-- A record whose edit is refused is reported. -/
theorem exists_failure_of_failed {i : Nat} (hr : plan.records[i]? = some r)
    (h : (plan.outcomes settings t)[i]? = some .failed) :
    ∃ failure ∈ (plan.apply settings t).failures,
      failure.phase = .edit r.kind ∧ failure.written = r.written := by
  rw [getElem?_outcomes hr] at h
  obtain ⟨rest, hsplit⟩ := exists_ordered_eq hr
  exact exists_failure_apply hsplit (Option.some.inj h)

/-- None is skipped when no record is in a node of another that takes its node. -/
theorem skipped_eq_zero (ht : t.root.Housed) (hseated : plan.SeatedIn t)
    (h : ∀ (i j : Nat) (inner outer : Record), i ≠ j → plan.records[i]? = some inner →
      plan.records[j]? = some outer → outer.kind.takes = true → ¬outer.Covers t inner) :
    (plan.outcomes settings t).count .skipped = 0 := by
  refine List.count_eq_zero.2 fun hmem => ?_
  obtain ⟨i, hskipped⟩ := List.mem_iff_getElem?.1 hmem
  have hi : i < plan.records.length := by
    simpa [outcomes] using (List.getElem?_eq_some_iff.1 hskipped).1
  have hr := List.getElem?_eq_getElem hi
  obtain ⟨j, outer, hj, -, hlands, htakes, hcovers⟩ := loses_of_skipped ht hseated hr hskipped
  refine h i j _ outer ?_ hr hj htakes hcovers
  rintro rfl
  rw [hskipped] at hlands
  cases hlands

end Plan

/-! ## Migrations -/

namespace Framework

variable {f : Framework} {settings : Settings} {source : String} {o : Migration} {t : Tree}

theorem migrateSource_run (h : f.migrateSource settings source = .ok o) :
    ∃ t, Tree.parse source = .ok t ∧ o.plan = (f.analysis settings t).plan ∧
      o.tally = (o.plan.apply settings (f.analysis settings t).tree).tally ∧
      o.editFailures = (o.plan.apply settings (f.analysis settings t).tree).failures := by
  obtain ⟨t, ht, h⟩ := ok_of_bind h
  obtain rfl := Except.ok.inj h
  exact ⟨t, ht, rfl, rfl, rfl⟩

theorem housed_analysis (f : Framework) (settings : Settings)
    (hparse : Tree.parse source = .ok t) : (f.analysis settings t).tree.root.Housed := by
  have halike := f.alike_analysis settings (Tree.readFrom_of_parse hparse)
  exact (Tree.formed_of_parse hparse).housed.of_shape halike.shape_eq.symm

/-- Analysis makes records for nodes of the right kinds. -/
theorem seatedIn_analysis (f : Framework) (settings : Settings) (ht : t.ReadFrom source) :
    (f.analysis settings t).plan.SeatedIn (f.analysis settings t).tree := by
  intro r hr
  obtain ⟨d, hrecords, htree, hd⟩ := f.faithful_analysis settings ht
  rw [hrecords] at hr
  rw [htree]
  obtain ⟨s, hs, -, hasked, hplaces⟩ := hd.placed r hr
  have honly := (hplaces r.tag s.path (List.mem_cons_self ..)).2
  obtain ⟨n, hat, htag⟩ := Node.mem_tagsAt.1 ((honly s.path).2 rfl)
  obtain ⟨m, hm, halike⟩ := Node.Alike.at? hd.alike hat
  obtain ⟨-, hs⟩ := Tree.mem_sites_iff.1 hs
  obtain rfl : s.node = m := Option.some.inj (hs.symm.trans hm)
  refine ⟨s.path, n, hat, htag, ?_⟩
  rw [halike.kind_eq]
  exact hasked.kind_mem_seats (f.findsSeats t)

end Framework

/-- What becomes of the records of a migration. Each of them is applied, or its edit is refused and
    reported, or it is skipped; and it is skipped only when its node is in that of a record that
    was applied before it and took that node. So none is skipped when no record covers another. -/
theorem migrateSource_skips_covered {f : Framework} {settings : Settings} {source : String}
    {o : Migration} (h : f.migrateSource settings source = .ok o) :
    ∃ t, Tree.parse source = .ok t ∧ o.plan = (f.analysis settings t).plan ∧
      let tree := (f.analysis settings t).tree
      let outcomes := o.plan.outcomes settings tree
      o.tally.skipped = outcomes.count .skipped ∧
      (∀ (i : Nat) (r : Record), o.plan.records[i]? = some r →
        outcomes[i]? = some .applied ∨
        (outcomes[i]? = some .failed ∧ ∃ failure ∈ o.editFailures,
          failure.phase = .edit r.kind ∧ failure.written = r.written) ∨
        (outcomes[i]? = some .skipped ∧ o.plan.Loses settings tree i r)) ∧
      ((∀ (i j : Nat) (inner outer : Record), i ≠ j → o.plan.records[i]? = some inner →
          o.plan.records[j]? = some outer → outer.kind.takes = true → ¬outer.Covers tree inner) →
        o.tally.skipped = 0) := by
  obtain ⟨t, ht, hplan, htally, hfailures⟩ := Framework.migrateSource_run h
  have hhoused := f.housed_analysis settings ht
  have hseated := f.seatedIn_analysis settings (Tree.readFrom_of_parse ht)
  rw [← hplan] at hseated
  have hskipped := (congrArg Tally.skipped htally).trans Plan.skipped_apply
  refine ⟨t, ht, hplan, hskipped, fun i r hr => ?_, fun hnone => ?_⟩
  · obtain ⟨outcome, hout⟩ : ∃ outcome, (o.plan.outcomes settings
        (f.analysis settings t).tree)[i]? = some outcome := ⟨_, Plan.getElem?_outcomes hr⟩
    cases outcome with
    | applied => exact .inl hout
    | failed => exact .inr (.inl ⟨hout, hfailures ▸ Plan.exists_failure_of_failed hr hout⟩)
    | skipped => exact .inr (.inr ⟨hout, Plan.loses_of_skipped hhoused hseated hr hout⟩)
  · exact hskipped.trans (Plan.skipped_eq_zero hhoused hseated hnone)

/-- A file with an assertion in a function that another assertion takes. -/
def nestedAssertion : String :=
  "using Xunit;\nclass T \x7b void A() \x7b Assert.All(xs, x => Assert.True(x)); \x7d \x7d"

/-- What takes the place of the outer assertion is made from its text, so the record of the inner
    one finds no node. -/
theorem skipped_nestedAssertion :
    ∃ o, Framework.xUnit.migrateSource {} nestedAssertion = .ok o ∧ o.tally.skipped = 1 := by
  have hskipped : (Framework.xUnit.migrateSource {} nestedAssertion).toOption.map
      (fun o => o.tally.skipped) = some 1 := by
    decide +kernel
  exact exists_ok_of_map hskipped

theorem migrateSource_skips_covered_nestedAssertion :
    ∃ o t, Framework.xUnit.migrateSource {} nestedAssertion = .ok o ∧
      Tree.parse nestedAssertion = .ok t ∧ o.tally.skipped = 1 ∧
      ∃ i r, o.plan.records[i]? = some r ∧
        o.plan.Loses {} (Framework.xUnit.analysis {} t).tree i r := by
  obtain ⟨o, ho, hone⟩ := skipped_nestedAssertion
  obtain ⟨t, ht, -, hcount, hrecords, -⟩ := migrateSource_skips_covered ho
  refine ⟨o, t, ho, ht, hone, ?_⟩
  rw [hone] at hcount
  obtain ⟨i, hi⟩ := List.mem_iff_getElem?.1 (List.count_pos_iff.1 (hcount ▸ Nat.one_pos))
  have hlt : i < o.plan.records.length := by
    simpa [Plan.outcomes] using (List.getElem?_eq_some_iff.1 hi).1
  have hr := List.getElem?_eq_getElem hlt
  refine ⟨i, _, hr, ?_⟩
  rcases hrecords i _ hr with happlied | ⟨hfailed, -⟩ | ⟨-, hloses⟩
  · rw [hi] at happlied
    cases happlied
  · rw [hi] at hfailed
    cases hfailed
  · exact hloses

theorem not_skips_nothing_nestedAssertion : ¬∀ (f : Framework) (source : String) (o : Migration),
    f.migrateSource {} source = .ok o → o.tally.skipped = 0 := by
  intro h
  obtain ⟨o, ho, hone⟩ := skipped_nestedAssertion
  rw [h .xUnit nestedAssertion o ho] at hone
  cases hone

end Recast
