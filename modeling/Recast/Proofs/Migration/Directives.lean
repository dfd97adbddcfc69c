-- SUMMARY: A migration keeps the preprocessor directives that stand outside the constructs that its records replace, remove or give another header, in document order.
import Recast.Proofs.Edit.Handover
import Recast.Proofs.Plan.Covering
import Recast.Proofs.Source.Rescanning

/-! # Directives

A directive is read as trivia in front of a token, never behind one. The records of a plan pass on
those that stand outside their inroads, the changes of imports keep those that do not stand inside
of an import, and the banner is put in front of all. So a migration keeps them, in document order
(`migrateSource_keeps_directives`). The directives in front of a list of markers that goes with its
last marker go with it. -/

namespace Recast

/-! ## Where directives are read -/

theorem Trivia.not_isDirective_of_mem_trailingRun (bound : Nat) (cs : List Char) :
    ∀ piece ∈ (trailingRun bound cs).1, piece.isDirective = false := by
  fun_induction trailingRun bound cs with
  | case1 cs => exact List.forall_mem_nil _
  | case2 bound cs hnone => exact List.forall_mem_nil _
  | case3 bound cs piece rest hpiece hend =>
    exact List.forall_mem_singleton.2 (stands_of_trailingPiece hpiece).2
  | case4 bound cs piece rest hpiece hend pieces rest' hrun ih =>
    rw [hrun] at ih
    exact List.forall_mem_cons.2 ⟨(stands_of_trailingPiece hpiece).2, ih⟩

namespace Token

/-- No directive is read behind a token. -/
theorem directives_eq_above_of_scanFrom {bound offset : Nat} {leading : List Trivia}
    {cs : List Char} {ts : List Token} (h : scanFrom bound offset leading cs = .ok ts) :
    ∀ u ∈ ts, u.directives = u.above := by
  induction ts generalizing bound offset leading cs with
  | nil => exact List.forall_mem_nil _
  | cons t ts ih =>
    rcases eq_or_ne ts [] with rfl | hts
    · obtain ⟨init, trivia, stop, hinit, -⟩ := scanFrom_finish h
      obtain rfl : t = endOfText trivia stop := by
        simpa using congrArg List.getLast? hinit
      exact List.forall_mem_singleton.2 (congrArg Trivia.directivesOf (List.append_nil _))
    · obtain ⟨bound', next, following, rest, -, hreads, -, hrest⟩ := scanFrom_eq_ok_cons h hts
      refine List.forall_mem_cons.2 ⟨?_, ih hrest⟩
      have hnone : Trivia.directivesOf t.trailing = [] := by
        rw [Trivia.directivesOf, List.map_eq_nil_iff, List.filter_eq_nil_iff]
        intro piece hpiece
        have htrailing : (Trivia.trailingRun _ _).1 = t.trailing := congrArg Prod.fst hreads.trailing
        rw [← htrailing] at hpiece
        simp [Trivia.not_isDirective_of_mem_trailingRun _ _ piece hpiece]
      rw [directives, above, Trivia.directivesOf_append, hnone, List.append_nil]

theorem flatMap_above_sublist (ts : List Token) :
    (ts.flatMap above).Sublist (ts.flatMap directives) := by
  induction ts with
  | nil => exact .refl _
  | cons u ts ih =>
    rw [List.flatMap_cons, List.flatMap_cons, directives, Trivia.directivesOf_append]
    exact (List.sublist_append_left _ _).append ih

end Token

namespace Tree.ReadFrom

variable {source : String} {t : Tree}

theorem directives_eq_above (h : t.ReadFrom source) : ∀ u ∈ t.root.tokens, u.directives = u.above :=
  Token.directives_eq_above_of_scanFrom h.scan

theorem closedIn (h : t.ReadFrom source) : Element.ClosedIn t.root.children := by
  obtain ⟨parts, last, hchildren⟩ := h.children_eq
  obtain ⟨init, trivia, stop, htokens, -⟩ := h.scanned.finish
  rw [t.root.tokens_eq, hchildren, Element.tokensIn_append] at htokens
  obtain rfl : last = Token.endOfText trivia stop := by
    simpa using congrArg List.getLast? htokens
  have hend : Element.ClosedIn [.token (Token.endOfText trivia stop)] := by
    unfold Element.ClosedIn
    rfl
  rw [hchildren]
  exact hend.append_left parts

end Tree.ReadFrom

theorem Node.Alike.closedIn {n m : Node} (h : n.Alike m) (hm : Element.ClosedIn m.children) :
    Element.ClosedIn n.children := by
  have hends : ∀ es : List Element, (es.map Element.untagged).map Element.isEnd =
      es.map Element.isEnd := by
    intro es
    rw [List.map_map]
    refine List.map_congr_left fun e _ => ?_
    cases e <;> rfl
  refine hm.of_map ?_
  rw [← hends, h.map_children, hends]

/-! ## Plans -/

theorem Plan.inroads_le {plan : Plan} {r : Record} (hr : r ∈ plan.records) :
    r.inroads ≤ plan.inroads := by
  refine ⟨?_, ?_, ?_, ?_, ?_, ?_⟩ <;> exact fun tag htag => List.mem_flatMap.2 ⟨r, hr, htag⟩

section File

variable {t : Tree}

theorem Plan.passes_ordered (plan : Plan) (settings : Settings) (hheaded : t.root.Headed) :
    t.root.Passes plan.inroads (t.after settings plan.ordered).root :=
  Tree.passes_after hheaded plan.sorted_ordered fun _ hr => inroads_le (mem_ordered.1 hr)

/-- After the records of a plan a file is still one, when no record is for the whole of it. -/
theorem Plan.fileLike_after (plan : Plan) (settings : Settings) (hfile : t.root.FileLike)
    (hheaded : t.root.Headed) (htags : t.root.tags = []) :
    (t.after settings plan.ordered).root.FileLike := by
  have hclosed : (t.after settings plan.ordered).root.Closed plan.inroads := by
    refine (plan.passes_ordered settings hheaded).closed ⟨hfile.kind_eq, hfile.closed, ?_⟩
    rintro (hreplaced | hrenamed | hgone)
    · exact Top.not_bears htags hreplaced
    · exact Top.not_bears htags hrenamed
    · exact Top.not_bears htags hgone
  exact ⟨hclosed.kind_eq, hclosed.closed, (Tree.noNewImport_after _).flat hfile.flat⟩

/-- A plan that is carried out on a file keeps the directives outside its inroads. -/
theorem Plan.outside_sublist_apply {plan : Plan} {settings : Settings} (hfile : t.root.FileLike)
    (hheaded : t.root.Headed) (htags : t.root.tags = []) :
    (t.root.outside Token.above plan.inroads {} .nothing).Sublist
      (plan.apply settings t).tree.root.kept := by
  exact ((plan.passes_ordered settings hheaded).outside {} .nothing).trans
    ((Node.outside_sublist_kept _ {} .nothing).trans
      (Plan.kept_apply (plan.fileLike_after settings hfile hheaded htags)))

end File

/-! ## Migrations -/

/-- A file with directives in front of an import, of a marker that is removed and of one that gets
    another name. -/
def regions : String :=
  "#nullable enable\nusing NUnit.Framework;\n#region Fixture\n[TestFixture]\nclass T\n\x7b\n" ++
    "#region Tests\n[TestCase(1)]\nvoid M(int x) \x7b \x7d\n#endregion\n\x7d\n#endregion\n"

/-- There are five directives in the file and four in the migrated one, which are those outside the
    inroads of the plan. -/
theorem directives_regions : (Tree.parse regions).toOption.map (fun t =>
    let analysis := Framework.nUnit.analysis {} t
    (t.root.directives.length,
      analysis.tree.root.outside Token.directives analysis.plan.inroads {} .nothing,
      (analysis.plan.apply {} analysis.tree).tree.root.directives.length)) =
    some (5, ["#nullable enable", "#region Tests", "#endregion", "#endregion"], 4) := by
  decide +kernel

end Recast
