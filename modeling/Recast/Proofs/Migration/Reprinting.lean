-- SUMMARY: When a migrated file reads back as the tree that it was printed from, and how an edit spoils that: a suffix binds more tightly than the expression put in front of it.
import Recast.Proofs.Grammar.Composing
import Recast.Proofs.Plan.Carrying

/-! # Reading a migrated file back

A migrated tree is printed and never read again. What is printed reads back as the tree when each
piece of it does by itself: each statement and member, and what stands in front of the bodies that
hold them. So a piece is all that has to be looked at to tell whether an edit to it is sound. It need
not be: a record may put an expression that it read from text in the place of a call, and the call
may be what a suffix follows. No tree that was read has a suffix behind something that is not
primary, so then the printed file means something else than the tree. -/

namespace Recast

/-! ## Shapes, tags and texts -/

mutual

theorem Node.shape_untagged : (n : Node) → n.untagged.shape = n.shape
  | ⟨kind, children, span, tags⟩ => by
    simp only [Node.untagged, Node.shape, Element.shapesIn_untaggedIn children]

theorem Element.shape_untagged : (e : Element) → e.untagged.shape = e.shape
  | .token t => rfl
  | .node n => by simp only [Element.untagged, Element.shape, Node.shape_untagged n]

theorem Element.shapesIn_untaggedIn : (es : List Element) →
    Element.shapesIn (Element.untaggedIn es) = Element.shapesIn es
  | [] => rfl
  | e :: es => by
    simp only [Element.untaggedIn, Element.shapesIn_cons, Element.shape_untagged e,
      Element.shapesIn_untaggedIn es]

end

/-- Tags do not show in the shape. -/
theorem Node.Alike.shape_eq {n m : Node} (h : n.Alike m) : n.shape = m.shape := by
  rw [← n.shape_untagged, ← m.shape_untagged, h]

mutual

theorem Node.texts_of_shape : {n m : Node} → n.shape = m.shape →
    n.tokens.map Token.text = m.tokens.map Token.text
  | ⟨_, _, _, _⟩, ⟨_, _, _, _⟩, h => Element.texts_of_shapesIn (Shape.node.inj h).2

theorem Element.texts_of_shapesIn : {xs ys : List Element} →
    Element.shapesIn xs = Element.shapesIn ys →
    (Element.tokensIn xs).map Token.text = (Element.tokensIn ys).map Token.text
  | [], [], _ => rfl
  | .token t :: xs, .token u :: ys, h => by
    obtain ⟨hhead, htail⟩ := List.cons.inj h
    simp [Shape.token.inj hhead, Element.texts_of_shapesIn htail]
  | .node n :: xs, .node m :: ys, h => by
    obtain ⟨hhead, htail⟩ := List.cons.inj h
    simp [Node.texts_of_shape hhead, Element.texts_of_shapesIn htail]
  | .token t :: xs, .node m :: ys, h => by
    obtain ⟨hhead, -⟩ := List.cons.inj h
    rw [Element.shape_token, Element.shape_node, Node.shape_eq] at hhead
    cases hhead
  | .node n :: xs, .token u :: ys, h => by
    obtain ⟨hhead, -⟩ := List.cons.inj h
    rw [Element.shape_token, Element.shape_node, Node.shape_eq] at hhead
    cases hhead

end

/-! ## Reading back -/

namespace Migration

/-- The migrated file reads back as the tree that it was printed from. -/
def ReadsBack (o : Migration) : Prop :=
  ∃ t, Tree.parse o.source = .ok t ∧ t.root.shape = o.tree.root.shape

theorem ReadsBack.bound {o : Migration} (h : o.ReadsBack) : o.tree.root.Bound := by
  obtain ⟨t, hparse, hshape⟩ := h
  exact (Tree.readFrom_of_parse hparse).built.bound.of_shape hshape

theorem ReadsBack.texts_eq {o : Migration} (h : o.ReadsBack) : ∃ ts, Token.scan o.source = .ok ts ∧
    ts.map Token.text = o.tree.root.tokens.map Token.text := by
  obtain ⟨t, hparse, hshape⟩ := h
  exact ⟨t.root.tokens, (Tree.readFrom_of_parse hparse).scan, Node.texts_of_shape hshape⟩

/-- The printed file, cut into pieces as the tree has them, is read as the tree piece by piece: the
    members of the file, and of bodies up to `depth` deep their items and what stands in front of
    them. -/
def readsInPieces (o : Migration) (depth : Nat) : Bool :=
  match Token.scan o.source, o.tree.root.shape with
  | .ok ts, .node .compilationUnit parts => Shape.composesFile depth parts (.ofTokens ts)
  | _, _ => false

theorem readsBack_of_pieces {o : Migration} {depth : Nat} (h : o.readsInPieces depth = true) :
    o.ReadsBack := by
  simp only [readsInPieces] at h
  split at h
  · rename_i ts parts hscan hshape
    have hlength : (Cursor.ofTokens ts).ahead.length < ts.length + 1 := by
      simp only [Cursor.ofTokens, List.length_dropLast]
      omega
    obtain ⟨n, d, hunit, hn⟩ := Grammar.compilationUnit_of_composesFile
      (Token.scanned_of_scan hscan).closed h hlength
    refine ⟨⟨n, {}⟩, ?_, hn.trans hshape.symm⟩
    simp only [Tree.parse, Node.parse, Grammar.readWith, hscan, bind, Except.bind, hunit]
    rfl
  · cases h

end Migration

namespace Framework

variable {f : Framework} {settings : Settings} {source : String} {o : Migration} {t : Tree}

/-- The analysis that a migration of a tree carries out. -/
def analysis (f : Framework) (settings : Settings) (t : Tree) : Analysis :=
  f.strategy.analyze ⟨(SourceModel.build t f.catalog).toSemanticModel, settings⟩ t

theorem migrateSource_eq_ok (h : f.migrateSource settings source = .ok o) :
    ∃ t, Tree.parse source = .ok t ∧ o.plan = (f.analysis settings t).plan ∧
      o.tree = ((f.analysis settings t).plan.apply settings (f.analysis settings t).tree).tree := by
  obtain ⟨t, ht, h⟩ := ok_of_bind h
  obtain rfl := Except.ok.inj h
  exact ⟨t, ht, rfl, rfl⟩

/-- A file that can be read is migrated. -/
theorem exists_migrateSource (f : Framework) (settings : Settings)
    (ht : Tree.parse source = .ok t) :
    ∃ o, f.migrateSource settings source = .ok o ∧ o.plan = (f.analysis settings t).plan ∧
      o.tree =
        ((f.analysis settings t).plan.apply settings (f.analysis settings t).tree).tree := by
  unfold migrateSource Strategy.migrateSource
  rw [ht]
  exact ⟨_, rfl, rfl, rfl⟩

/-- What an analysis gives is a draft that it went through. -/
theorem faithful_analysis (f : Framework) (settings : Settings) (ht : t.ReadFrom source) :
    ∃ d : Draft, (f.analysis settings t).plan.records = d.plan.records ∧
      (f.analysis settings t).tree = d.tree ∧
      d.Faithful f.strategy ⟨(SourceModel.build t f.catalog).toSemanticModel, settings⟩ t :=
  ⟨_, Strategy.analyze_records .., Strategy.analyze_tree ..,
    Strategy.faithful_finished ht (f.findsSites t)⟩

theorem alike_analysis (f : Framework) (settings : Settings) (ht : t.ReadFrom source) :
    (f.analysis settings t).tree.root.Alike t.root := by
  obtain ⟨d, -, htree, hd⟩ := f.faithful_analysis settings ht
  rw [htree]
  exact hd.alike

/-- The tree that a plan is carried out on is a file without a tag, all of whose suffixes are
    bound. -/
theorem analysis_root (ht : t.ReadFrom source) :
    (f.analysis settings t).tree.root.kind = .compilationUnit ∧
      (f.analysis settings t).tree.root.tags = [] ∧ (f.analysis settings t).tree.root.Bound := by
  have halike := f.alike_analysis settings ht
  have hroot : (f.analysis settings t).tree.root.tags = [] :=
    Strategy.analyze_root ht (f.findsSites t) (f.findsSeats t)
  exact ⟨halike.kind_eq.trans ht.kind_eq, hroot, ht.built.bound.of_shape halike.shape_eq.symm⟩

end Framework

/-- A file in which the value of an assertion is used. -/
def usedValue : String :=
  "using NUnit.Framework;\n" ++
    "class T \x7b void A() \x7b var m = Assert.Throws<X>(() => F()).Message; \x7d \x7d"

/-- What takes the place of the assertion awaits, and a member of its value is accessed. -/
theorem not_bound_usedValue :
    ∃ o, Framework.nUnit.migrateSource {} usedValue = .ok o ∧ ¬o.tree.root.Bound := by
  let access : Path := [1, 4, 4, 1, 0, 1, 1, 1]
  have hkinds : (Framework.nUnit.migrateSource {} usedValue).toOption.map
      (fun o => ((o.tree.root.at? access).map Node.kind,
        (o.tree.root.at? (access ++ [0])).map Node.kind))
      = some (some .memberAccessExpression, some .awaitExpression) := by
    decide +kernel
  obtain ⟨o, hrun, hkinds⟩ := exists_ok_of_map hkinds
  obtain ⟨haccess, hoperand⟩ := Prod.mk.inj hkinds
  obtain ⟨u, hu, hukind⟩ := Option.map_eq_some_iff.1 haccess
  obtain ⟨c, hc, hckind⟩ := Option.map_eq_some_iff.1 hoperand
  refine ⟨o, hrun, fun hbound => ?_⟩
  have hprimary := hbound.operandAt ⟨access, u, rfl, hu, by rw [hukind]; rfl⟩ hc
  rw [hckind] at hprimary
  cases hprimary

/-- A file in which no value of an assertion is used. -/
def unusedValue : String :=
  "using NUnit.Framework;\n" ++
    "class T \x7b [Test] void A() \x7b var m = F(); Assert.That(m, Is.EqualTo(1)); \x7d \x7d"

/-- A file with a line break in an argument that the migration keeps in a remark. -/
def brokenRemark : String :=
  "using Xunit; class T \x7b void A() \x7b Assert.Equal(1.0, x, F(\n0)); \x7d \x7d"

/-- What stands behind the line break in the remark is printed as code. -/
theorem not_texts_eq_brokenRemark :
    ∃ o, Framework.xUnit.migrateSource {} brokenRemark = .ok o ∧ ∀ ts,
      Token.scan o.source = .ok ts → ts.map Token.text ≠ o.tree.root.tokens.map Token.text := by
  have hlengths : (Framework.xUnit.migrateSource {} brokenRemark).toOption.map
      (fun o => (Token.scan o.source).toOption.map List.length == some o.tree.root.tokens.length)
      = some false := by
    decide +kernel
  obtain ⟨o, ho, hlengths⟩ := exists_ok_of_map hlengths
  refine ⟨o, ho, fun ts hts htexts => ?_⟩
  have hlength : ts.length = o.tree.root.tokens.length := by
    simpa using congrArg List.length htexts
  simp [hts, Except.toOption, hlength] at hlengths

end Recast
