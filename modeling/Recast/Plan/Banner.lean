-- SUMMARY: The banner: a comment on top of a file that counts the failures of each phase.
import Recast.Plan.Failure
import Recast.Tree.Edit

/-! # The failure banner

When something could not be changed, the file says so on top: a head of two lines, a line for
each phase with failures, in the order in which the phases first failed, and a closing rule. -/

namespace Recast.Banner

/-- A phase with failures, and how many of them there are. -/
structure Group where
  phase : Phase
  count : Nat
  deriving DecidableEq, Repr

/-- The groups with one more failure: that of its phase counts it, or else a new one comes last. -/
def enter : List Group → Failure → List Group
  | [], f => [⟨f.phase, 1⟩]
  | g :: gs, f =>
    if g.phase = f.phase then ⟨g.phase, g.count + 1⟩ :: gs else g :: enter gs f

/-- The failures by phase, in the order in which the phases first failed. -/
def groups (failures : List Failure) : List Group :=
  failures.foldl enter []

/-- The line above and below the banner. -/
def rule : String :=
  "// " ++ String.ofList (List.replicate 60 '=')

/-- The line that says what the banner is about. -/
def title (label : String) : String :=
  s!"// {label} Migration: Some items require manual attention"

/-- The line of a phase. -/
def groupLine (label : String) (g : Group) : String :=
  s!"// TODO: {label} migration - {g.phase.name}: {g.count} item(s) could not be converted"

/-- The line above and below, in full. -/
theorem rule_eq : rule = "// ============================================================" := by
  decide

/-- The title names the framework that the file migrates to. -/
theorem title_eq (label : String) :
    title label = "// " ++ label ++ " Migration: Some items require manual attention" := by
  simp only [title, String.append_assoc]
  rfl

/-- The line of a group tells the name of its phase and how many failures it counts. -/
theorem groupLine_eq (label : String) (g : Group) :
    groupLine label g = "// TODO: " ++ label ++ " migration - " ++ g.phase.name ++ ": " ++
      toString g.count ++ " item(s) could not be converted" := by
  simp only [groupLine, String.append_assoc]
  rfl

/-- The lines of the banner, when there is a failure. -/
def lines? (label : String) (failures : List Failure) : Option (List String) :=
  if (groups failures).isEmpty then none
  else some ([rule, title label] ++ (groups failures).map (groupLine label) ++ [rule])

/-- The lines as comments, with an empty line after them. -/
def trivia (lines : List String) : List Trivia :=
  lines.flatMap (fun line => [.comment line, Trivia.newline]) ++ [Trivia.newline]

/-- The tree with lines of comment on top. -/
def putOnTop (lines : List String) (t : Tree) : Tree :=
  t.withRoot (t.root.mapFirst fun u => { u with leading := trivia lines ++ u.leading })

end Recast.Banner
