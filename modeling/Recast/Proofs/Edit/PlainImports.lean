-- SUMMARY: Which namespaces a changed file imports as such: those that a spared plain directive has, and those that were added since no directive of any form had the name.
import Recast.Proofs.Edit.Importing

/-! # Plain imports

A directive may name a namespace without importing it: it gives it another name, or imports the static
members of a type. A change of imports looks at names alone, so such a directive keeps the change
from adding the namespace. `import_change_imports_plainly` says which namespaces the changed file
imports as such, and that these are all that were asked for when no spared directive names one of
them in another form. -/

namespace Recast

/-- The directive imports the namespace itself. -/
def Node.Imports (n : Node) (space : String) : Prop :=
  n.importedName? = some space ∧ n.isPlainImport = true

instance (n : Node) (space : String) : Decidable (n.Imports space) :=
  inferInstanceAs (Decidable (_ ∧ _))

/-- The text reads as a name, which is written as the namespace is. -/
def Fragment.Names (text space : String) : Prop :=
  ∃ name, readName text = .ok name ∧ name.text = space

/-- A directive that is there before and after removals is plain before and after. -/
theorem Node.exists_imports_of_entries {ns ns' : List Node} {space : String}
    (h : ns.map Node.entry = ns'.map Node.entry) (himports : ∃ n ∈ ns, n.Imports space) :
    ∃ n ∈ ns', n.Imports space := by
  obtain ⟨n, hn, hname, hplain⟩ := himports
  obtain ⟨n', hn', hentry⟩ := List.mem_map.1 (h ▸ List.mem_map_of_mem hn)
  obtain ⟨hname', hrest⟩ := Prod.mk.inj hentry
  exact ⟨n', hn', hname'.trans hname, (Prod.mk.inj hrest).2.trans hplain⟩

namespace Edit.Requires

variable {t : Tree} {spaces : List String} {state : Tree × List Failure} {space : String}

/-- The imports of a state of the second loop: those of the tree, and those that were added since
    the tree does not have their names. -/
theorem imports_iff (h : Requires t spaces state) :
    (∃ n ∈ state.1.importNodes, n.Imports space) ↔ (∃ n ∈ t.importNodes, n.Imports space) ∨
      ∃ text ∈ spaces, Fragment.Names text space ∧
        some text ∉ t.importNodes.map Node.importedName? := by
  constructor
  · rintro ⟨n, hn, himports⟩
    rcases h.origin hn with hold | ⟨text, hmem, hintroduces, hnone⟩
    · exact .inl ⟨n, hold, himports⟩
    · obtain ⟨name, hread, hgives⟩ := hintroduces.name
      exact .inr ⟨text, hmem, ⟨name, hread, Option.some.inj (hgives.symm.trans himports.1)⟩, hnone⟩
  · rintro (⟨n, hn, himports⟩ | ⟨text, hmem, ⟨name, hread, rfl⟩, hnone⟩)
    · exact ⟨n, h.subset hn, himports⟩
    · rcases h.present text hmem name hread with hthere | ⟨n, hn, ⟨other, hintroduces⟩, hname⟩
      · exact absurd hthere hnone
      · exact ⟨n, hn, hname, hintroduces.isPlainImport⟩

end Edit.Requires

/-- Which namespaces a changed file imports as such, neither under another name nor for static
    members: those that a spared directive imports so, and those that a text to add names, when no
    spared directive of any form has that text for its name. So a namespace to add is imported in
    the end when it reads as it is written and the spared directives that name it are plain. -/
theorem import_change_imports_plainly {source : String} {reading : Nat} {t : Tree}
    (h : Tree.parse source reading = .ok t) (delta : ImportDelta) (space : String) :
    let changed := (delta.apply t).1
    ((∃ n ∈ changed.importNodes, n.Imports space) ↔
      (∃ n ∈ delta.spared t, n.Imports space) ∨
        ∃ text ∈ delta.added, Fragment.Names text space ∧
          some text ∉ (delta.spared t).map Node.importedName?) ∧
    (space ∈ delta.added → Fragment.Names space space →
      (∀ n ∈ delta.spared t, n.importedName? = some space → n.isPlainImport = true) →
        ∃ n ∈ changed.importNodes, n.Imports space) := by
  intro changed
  have hfile := Tree.fileLike_of_parse h
  obtain ⟨removed, hrun, -, hspared⟩ := delta.exists_requires hfile
  have hexact : (∃ n ∈ changed.importNodes, n.Imports space) ↔
      (∃ n ∈ delta.spared t, n.Imports space) ∨
        ∃ text ∈ delta.added, Fragment.Names text space ∧
          some text ∉ (delta.spared t).map Node.importedName? := by
    rw [hrun.imports_iff, ImportDelta.names_of_entries hspared]
    exact or_congr_left
      ⟨Node.exists_imports_of_entries hspared, Node.exists_imports_of_entries hspared.symm⟩
  refine ⟨hexact, fun hadded hreads hplain => hexact.2 ?_⟩
  by_cases hthere : some space ∈ (delta.spared t).map Node.importedName?
  · obtain ⟨n, hn, hname⟩ := List.mem_map.1 hthere
    exact .inl ⟨n, hn, hname, hplain n hn hname⟩
  · exact .inr ⟨space, hadded, hreads, hthere⟩

/-- A change with a namespace to import. -/
def requireCore : ImportDelta where
  added := ["TUnit.Core"]

theorem names_core : Fragment.Names "TUnit.Core" "TUnit.Core" := by
  obtain ⟨name, hread, htext⟩ := exists_ok_of_map (x := Fragment.readName "TUnit.Core")
    (f := Node.text) (b := "TUnit.Core") (by decide +kernel)
  exact ⟨name, hread, htext⟩

theorem import_change_imports_plainly_static : ∃ t,
    Tree.parse "using static System.Math;\nclass T \x7b \x7d\n" = .ok t ∧
    ∃ n ∈ (requireCore.apply t).1.importNodes, n.Imports "TUnit.Core" := by
  obtain ⟨t, ht, hsample⟩ := exists_ok_of_map
    (x := Tree.parse "using static System.Math;\nclass T \x7b \x7d\n")
    (f := fun t => (requireCore.spared t).all fun n => n.importedName? != some "TUnit.Core")
    (b := true) (by decide +kernel)
  refine ⟨t, ht, (import_change_imports_plainly ht requireCore "TUnit.Core").2
    (List.mem_singleton_self _) names_core fun n hn hname => ?_⟩
  have hother := List.all_eq_true.1 hsample n hn
  rw [hname, bne_self_eq_false] at hother
  cases hother

/-- A directive that gives the namespace another name keeps it from being imported. -/
theorem not_imports_plainly_alias : ∃ t,
    Tree.parse "using Core = TUnit.Core;\nclass T \x7b \x7d\n" = .ok t ∧
    "TUnit.Core" ∈ requireCore.added ∧ Fragment.Names "TUnit.Core" "TUnit.Core" ∧
    ¬∃ n ∈ (requireCore.apply t).1.importNodes, n.Imports "TUnit.Core" := by
  obtain ⟨t, ht, hsample⟩ := exists_ok_of_map
    (x := Tree.parse "using Core = TUnit.Core;\nclass T \x7b \x7d\n")
    (f := fun t => (requireCore.apply t).1.importNodes.all fun n => !decide (n.Imports "TUnit.Core"))
    (b := true) (by decide +kernel)
  refine ⟨t, ht, List.mem_singleton_self _, names_core, fun ⟨n, hn, himports⟩ => ?_⟩
  have hnone := List.all_eq_true.1 hsample n hn
  rw [decide_eq_true himports] at hnone
  cases hnone

end Recast
