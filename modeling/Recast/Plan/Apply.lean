-- SUMMARY: Carrying out a plan: each record is applied at the node with its tag, or skipped, or becomes a failure; then the imports change and the banner is put on top.
import Recast.Edit.BaseType
import Recast.Edit.Call
import Recast.Edit.Container
import Recast.Edit.Import
import Recast.Edit.Marker
import Recast.Edit.Removal
import Recast.Edit.Signature
import Recast.Plan.Banner
import Recast.Plan.Basic

/-! # Carrying out a plan

A plan is carried out on a tree that bears its tags. A record whose tag is not in the tree, since
an earlier edit took the node away, is skipped. A record whose edit is refused becomes a failure
and leaves the tree as it was. So records do not disturb each other, and each of them is counted
once: as applied, skipped or failed. -/

namespace Recast

/-- Carries out a change at the site of its node. -/
def Change.apply (settings : Settings) : Change → Site → Except EditError Tree
  | .exceptionCapture captured body => Edit.captureException settings captured body
  | .callReplacement replacement => Edit.replaceCall replacement
  | .container change => Edit.reshapeContainer settings change
  | .assertion change => Edit.replaceAssertion change
  | .signature change => Edit.changeSignature settings change
  | .methodMarker text returnType => Edit.addMethodMarker text returnType
  | .marker change => Edit.changeMarker change
  | .parameterMarker name arguments => Edit.changeParameterMarker name arguments
  | .markerRemoval => Edit.removeMarker
  | .baseTypeRemoval _ => Edit.removeBaseType
  | .baseTypeAddition type => Edit.addBaseType type
  | .classMarker text => Edit.addClassMarker text
  | .memberRemoval _ => Edit.removeMember
  | .parameterRemoval .. => Edit.removeParameter

/-- How many records were applied, skipped, and failed. -/
structure Tally where
  applied : Nat := 0
  skipped : Nat := 0
  failed : Nat := 0
  deriving DecidableEq, Repr

/-- A plan in the course of being carried out. -/
structure Progress where
  tree : Tree
  /-- The edits that were refused. -/
  failures : List Failure := []
  tally : Tally := {}

namespace Progress

/-- Nothing done yet. -/
def start (tree : Tree) : Progress :=
  { tree }

/-- One record carried out. -/
def step (settings : Settings) (p : Progress) (record : Record) : Progress :=
  match p.tree.findTagged? record.tag with
  | none => { p with tally := { p.tally with skipped := p.tally.skipped + 1 } }
  | some site =>
    match record.change.apply settings site with
    | .ok tree => { p with tree, tally := { p.tally with applied := p.tally.applied + 1 } }
    | .error e =>
      { p with
        failures := p.failures ++ [⟨.edit record.kind, e.message, record.written⟩]
        tally := { p.tally with failed := p.tally.failed + 1 } }

/-- The imports changed. -/
def changeImports (p : Progress) (delta : ImportDelta) : Progress :=
  let (tree, failures) := delta.apply p.tree
  { tree
    failures := p.failures ++ failures
    tally := { p.tally with failed := p.tally.failed + failures.length } }

end Progress

namespace Plan

/-- The name of the target in the banner. -/
def bannerLabel (plan : Plan) (settings : Settings) : String :=
  settings.targetLabel.getD plan.target

/-- The records and imports of a plan carried out. -/
def applyEdits (plan : Plan) (settings : Settings) (tree : Tree) : Progress :=
  (plan.ordered.foldl (Progress.step settings) (.start tree)).changeImports plan.imports

/-- A plan carried out, with the banner on top when something failed and a banner is wanted. -/
def apply (plan : Plan) (settings : Settings) (tree : Tree) : Progress :=
  let done := plan.applyEdits settings tree
  let banner? := Banner.lines? (plan.bannerLabel settings) (plan.failures ++ done.failures)
  match settings.emitBanner, banner? with
  | true, some lines => { done with tree := Banner.putOnTop lines done.tree }
  | _, _ => done

end Plan

end Recast
