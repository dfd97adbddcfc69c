-- SUMMARY: No method that implements a member of an interface that its base list reaches is made asynchronous.
import Recast.Proofs.Analysis.Signing
import Recast.Proofs.Types.Reaching

/-! # Methods that implement interfaces

A method is looked at when it names an interface or its type has a base list; when it then
implements a member of an interface that is reached (`SourceModel.Implements`), it is left as it
is by the analysis. -/

namespace Recast

/-! ## Methods that stay as they are -/

namespace InterfaceMethods

theorem spans_addMethod {model : SemanticModel} {found : InterfaceMethods} {s : Site} :
    found.spans ⊆ (addMethod model found s).spans := by
  unfold addMethod
  split
  · exact List.subset_append_left _ _
  · exact fun _ => id
  · exact fun _ => id

theorem spans_foldl {model : SemanticModel} (sites : List Site) (found : InterfaceMethods) :
    found.spans ⊆ (sites.foldl (addMethod model) found).spans := by
  induction sites generalizing found with
  | nil => exact fun _ => id
  | cons s sites ih => exact fun _ h => ih _ (spans_addMethod h)

/-- A method that the model says implements an interface is among those found. -/
theorem mem_spans_foldl {model : SemanticModel} {sites : List Site} {found : InterfaceMethods}
    {s : Site} {span : Span} (hs : s ∈ sites) (hspan : s.span = some span)
    (himplements : model.implementsInterface s = .ok true) :
    span ∈ (sites.foldl (addMethod model) found).spans := by
  induction sites generalizing found with
  | nil => cases hs
  | cons u sites ih =>
    rcases List.mem_cons.1 hs with rfl | hs
    · have hadded : span ∈ (addMethod model found s).spans := by
        unfold addMethod
        rw [himplements, hspan]
        exact List.mem_append_right _ (List.mem_singleton_self span)
      exact spans_foldl sites _ hadded
    · exact ih hs

end InterfaceMethods

theorem Site.hasChild_of_child? {s u : Site} {kind : Kind} (h : s.child? kind = some u) :
    s.node.hasChild kind = true := by
  obtain ⟨i, -, -, hchild⟩ := exists_of_mem_children (List.mem_of_find?_eq_some h)
  have hmem : u.node ∈ s.node.childNodes :=
    List.mem_filterMap.2 ⟨_, List.mem_of_getElem? hchild, rfl⟩
  have hkind : (u.kind == kind) = true :=
    List.find?_some (p := fun c : Site => c.kind == kind) h
  exact List.find?_isSome.2 ⟨u.node, hmem, hkind⟩

namespace SourceModel.Implements

variable {m : SourceModel} {s : Site} {method : View.Method}

/-- A method that implements a member is looked at: it names the interface or its type has a base
    list. -/
theorem isCandidate (h : m.Implements s method) (hmethod : View.Method.of? s.node = some method) :
    InterfaceMethods.isCandidate s = true := by
  unfold InterfaceMethods.isCandidate
  simp only [hmethod]
  rcases h with hexplicit | ⟨name, -, owner, hparent, hkind, first, ⟨list, hlist, -⟩, -⟩
  · rw [hexplicit, Bool.or_true]
  · rw [hparent, Option.map_some, hkind, Site.hasChild_of_child? hlist]
    rfl

theorem hasSite (hm : m.Sourced) (h : m.Implements s method) (hs : s ∈ m.tree.sites)
    (hmethod : View.Method.of? s.node = some method) {span : Span} (hspan : s.span = some span) :
    (InterfaceMethods.ofTree m.toSemanticModel m.tree).hasSite s = true := by
  have hmem : span ∈ (InterfaceMethods.ofTree m.toSemanticModel m.tree).spans :=
    InterfaceMethods.mem_spans_foldl (List.mem_filter.2 ⟨hs, h.isCandidate hmethod⟩) hspan
      ((implementsInterface_eq_true_iff hm hs hmethod).2 h)
  unfold InterfaceMethods.hasSite
  rw [hspan]
  exact List.contains_iff_mem.2 hmem

end SourceModel.Implements

/-- No method that implements a member of an interface is made asynchronous: neither one that names
    the interface, nor one with the name of a member of an interface that the base list of its type
    names, or that is reached from there over what the entries of the catalog list. -/
theorem analysis_spares_implementations {source : String} {reading : Nat} {t : Tree}
    (hparse : Tree.parse source reading = .ok t) (f : Framework) (settings : Settings) {s : Site}
    (hs : s ∈ t.sites) {method : View.Method} (hmethod : View.Method.of? s.node = some method)
    (h : (SourceModel.build t f.catalog).Implements s method) :
    ∀ r ∈ (f.analysis settings t).plan.records, ∀ change, r.change = .signature change →
      ((f.analysis settings t).tree.findTagged? r.tag).map Site.path = some s.path →
      change.addAsync = false := by
  intro r hr change hchange hat
  have ht := Tree.readFrom_of_parse hparse
  have hfree : ∃ u ∈ t.sites, u.kind = .methodDeclaration ∧
      (f.analysis settings t).tree.TaggedOnlyAt r.tag u.path ∧ (change.addAsync = true →
        (InterfaceMethods.ofTree (SourceModel.build t f.catalog).toSemanticModel t).hasSite u =
          false) := by
    refine f.signs_analysis (Q := fun u change => change.addAsync = true →
      (InterfaceMethods.ofTree (SourceModel.build t f.catalog).toSemanticModel t).hasSite u = false)
      ht ?_ (fun _ _ _ => nofun) (fun u _ _ _ _ hfree _ _ _ => hfree) (fun _ _ _ => nofun) hr hchange
    intro u first second hfirst hsecond hasync
    rcases Bool.or_eq_true_iff.1 hasync with hasync | hasync
    · exact hfirst hasync
    · exact hsecond hasync
  obtain ⟨u, hu, hkind, honly, hfree⟩ := hfree
  obtain rfl : u = s := Tree.eq_of_path_eq hu hs (Option.some.inj (honly.path_eq.symm.trans hat))
  obtain ⟨span, hspan⟩ : ∃ span, u.span = some span := by
    rw [Framework.analysis, Strategy.analyze_records] at hr
    rw [Framework.analysis, Strategy.analyze_tree] at honly
    obtain ⟨v, hv, hspan, -, hv_only⟩ := (Strategy.faithful_finished ht (f.findsSites t)).onlyAt hr
    obtain rfl : v = u := Tree.eq_of_path_eq hv hu ((honly v.path).1 ((hv_only v.path).2 rfl))
    exact hspan
  by_contra hasync
  have hfixed : (InterfaceMethods.ofTree (SourceModel.build t f.catalog).toSemanticModel t).hasSite
      u = true := h.hasSite (SourceModel.sourced_build t f.catalog) hs hmethod hspan
  rw [hfree (Bool.of_not_eq_false hasync)] at hfixed
  cases hfixed

/-- A class that lists an interface of its file. -/
def directSource : String :=
  "using NUnit.Framework; interface I \x7b void M(); \x7d " ++
    "class T : I \x7b public void M() \x7b Assert.IsTrue(x); \x7d \x7d"

theorem analysis_spares_implementations_direct :
    ∃ t, Tree.parse directSource = .ok t ∧ ∃ s ∈ t.sites, ∃ method,
      View.Method.of? s.node = some method ∧
      (SourceModel.build t Framework.nUnit.catalog).Implements s method ∧
      ∀ r ∈ (Framework.nUnit.analysis {} t).plan.records, ∀ change, r.change = .signature change →
        ((Framework.nUnit.analysis {} t).tree.findTagged? r.tag).map Site.path = some s.path →
        change.addAsync = false := by
  have hfacts : (Tree.parse directSource).toOption.map (fun t => do
      let s ← t.get? [2, 5]
      let method ← View.Method.of? s.node
      return (SourceModel.build t Framework.nUnit.catalog).implementsMember s method) =
        some (some true) := by
    decide +kernel
  obtain ⟨t, hparse, hfacts⟩ := exists_ok_of_map hfacts
  obtain ⟨s, hs, hfacts⟩ := Option.bind_eq_some_iff.1 hfacts
  obtain ⟨method, hmethod, hfacts⟩ := Option.bind_eq_some_iff.1 hfacts
  have himplements := (SourceModel.implementsMember_eq_true_iff
    (SourceModel.sourced_build t Framework.nUnit.catalog)).1 (Option.some.inj hfacts)
  have hsite := Tree.mem_sites_of_get? hs
  exact ⟨t, hparse, s, hsite, method, hmethod, himplements,
    analysis_spares_implementations hparse .nUnit {} hsite hmethod himplements⟩

/-! ## Interfaces that interfaces list -/

namespace SourceModel

/-- The declarations in the file that the base list of a declaration names. -/
def baseDeclarations (m : SourceModel) (declaration : Site) : List Site :=
  (((declaration.child? .baseList).map Site.children).getD []).filterMap fun base =>
    ((m.resolve? base).toOption).join.bind m.declaration?

end SourceModel

/-- A class whose interface lists the one with the method. -/
def inheritedSource : String :=
  "using NUnit.Framework; interface A \x7b void M(); \x7d interface B : A \x7b \x7d " ++
    "class T : B \x7b public void M() \x7b Assert.IsTrue(x); \x7d \x7d"

/-- The walk does not follow the base lists of the interfaces that a file declares. -/
theorem not_spares_inherited :
    ∃ t, Tree.parse inheritedSource = .ok t ∧ ∃ s ∈ t.sites, ∃ method owner interface,
      View.Method.of? s.node = some method ∧ method.node.hasModifier "async" = false ∧
      s.parent? = some owner ∧
      Relation.TransGen (fun d d' =>
        d' ∈ (SourceModel.build t Framework.nUnit.catalog).baseDeclarations d) owner interface ∧
      interface.kind = .interfaceDeclaration ∧
      (∃ declaration, View.TypeDeclaration.of? interface.node = some declaration ∧
        ∃ other ∈ declaration.methods, other.name? = method.name?) ∧
      ∃ r ∈ (Framework.nUnit.analysis {} t).plan.records, ∃ change, r.change = .signature change ∧
        ((Framework.nUnit.analysis {} t).tree.findTagged? r.tag).map Site.path = some s.path ∧
        change.addAsync = true := by
  have hfacts : (Tree.parse inheritedSource).toOption.map (fun t => do
      let m := SourceModel.build t Framework.nUnit.catalog
      let result := Framework.nUnit.analysis {} t
      let s ← t.get? [3, 5]
      let method ← View.Method.of? s.node
      let owner ← s.parent?
      let middle ← (m.baseDeclarations owner).head?
      let interface ← (m.baseDeclarations middle).head?
      let declaration ← View.TypeDeclaration.of? interface.node
      let other ← declaration.methods.head?
      let r ← result.plan.records[1]?
      let change ← r.change.signature?
      let target ← result.tree.findTagged? r.tag
      return decide (method.node.hasModifier "async" = false ∧
        interface.kind = .interfaceDeclaration ∧ other.name? = method.name? ∧
        target.path = s.path ∧ change.addAsync = true)) = some (some true) := by
    decide +kernel
  obtain ⟨t, hparse, hfacts⟩ := exists_ok_of_map hfacts
  simp only [Option.bind_eq_bind, Option.bind_eq_some_iff, Option.pure_def, Option.some.injEq,
    decide_eq_true_eq] at hfacts
  obtain ⟨s, hs, method, hmethod, owner, howner, middle, hmiddle, interface, hinterface,
    declaration, hdeclaration, other, hother, r, hr, change, hchange, target, htarget,
    hplain, hkind, hname, hpath, hasync⟩ := hfacts
  refine ⟨t, hparse, s, Tree.mem_sites_of_get? hs, method, owner, interface, hmethod, hplain, howner,
    .tail (.single (List.mem_of_mem_head? hmiddle)) (List.mem_of_mem_head? hinterface), hkind,
    ⟨declaration, hdeclaration, other, List.mem_of_mem_head? hother, hname⟩, r,
    List.mem_of_getElem? hr, change, Change.signature?_eq_some_iff.1 hchange, ?_, hasync⟩
  rw [htarget, Option.map_some, hpath]

end Recast
