-- SUMMARY: Migrations: a tree is analysed with a strategy and the plan is carried out on it.
import Recast.Analysis.Basic
import Recast.Plan.Apply
import Recast.Types.SourceModel

/-! # Migrations

A migration is an analysis followed by carrying out its plan. Only reading the file can fail;
everything else that goes wrong is a failure in the result. -/

namespace Recast

/-- What became of a file. -/
structure Migration where
  tree : Tree
  plan : Plan
  /-- The edits that were refused. What analysis could not do is in the plan. -/
  editFailures : List Failure
  tally : Tally

namespace Migration

/-- The migrated file. -/
def source (m : Migration) : String :=
  m.tree.source

/-- The failures of analysis, then those of the edits. -/
def failures (m : Migration) : List Failure :=
  m.plan.failures ++ m.editFailures

def hasFailures (m : Migration) : Bool :=
  !m.failures.isEmpty

end Migration

namespace Strategy

/-- The migration of a tree. -/
def migrate (strategy : Strategy) (cx : Context) (t : Tree) : Migration :=
  let analysis := strategy.analyze cx t
  let result := analysis.plan.apply cx.settings analysis.tree
  ⟨result.tree, analysis.plan, result.failures, result.tally⟩

/-- The migration of a file, with a catalog of the types that it uses. -/
def migrateSource (strategy : Strategy) (catalog : Catalog) (settings : Settings) (source : String) :
    Except ParseError Migration := do
  let t ← Tree.parse source
  return strategy.migrate ⟨(SourceModel.build t catalog).toSemanticModel, settings⟩ t

end Strategy

end Recast
