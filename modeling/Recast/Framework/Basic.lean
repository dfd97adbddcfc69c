-- SUMMARY: The source frameworks: their names, namespaces, catalogs and strategies, which one a file is written for, and the migration of a file.
import Recast.Framework.MSTest
import Recast.Framework.NUnit
import Recast.Framework.XUnit
import Recast.Migration

/-! # Frameworks

Files written for one of three test frameworks can be migrated. Which one a file is written for
is told by its imports. -/

namespace Recast

/-- A framework that files can be migrated from. -/
inductive Framework where
  | xUnit
  | nUnit
  | msTest
  deriving DecidableEq, Repr

/-- A name that no framework has. -/
structure UnknownFramework where
  name : String
  deriving DecidableEq, Repr

def UnknownFramework.message (e : UnknownFramework) : String :=
  s!"Unknown framework: {e.name} (expected xunit, nunit or mstest)"

namespace Framework

def all : List Framework :=
  [.xUnit, .nUnit, .msTest]

/-- The name as its users write it. -/
def displayName : Framework → String
  | .xUnit => "xUnit"
  | .nUnit => "NUnit"
  | .msTest => "MSTest"

/-- The name in small letters. -/
def name (f : Framework) : String :=
  Text.lower f.displayName

/-- The framework with a name; capitals do not matter. -/
def ofName (name : String) : Except UnknownFramework Framework :=
  match all.find? fun f => f.name == Text.lower name with
  | some f => .ok f
  | none => .error ⟨name⟩

/-- The namespace whose import shows that a file is written for the framework. -/
def rootSpace : Framework → String
  | .xUnit => XUnit.space
  | .nUnit => NUnit.space
  | .msTest => MSTest.space

def catalog : Framework → Catalog
  | .xUnit => XUnit.catalog
  | .nUnit => NUnit.catalog
  | .msTest => MSTest.catalog

def strategy : Framework → Strategy
  | .xUnit => XUnit.strategy
  | .nUnit => NUnit.strategy
  | .msTest => MSTest.strategy

/-! ## What an assertion takes over -/

/-- How many arguments, from the first one on, the replacement of a call is made from. -/
def reads : Framework → MethodSymbol → View.Invocation → Nat
  | .xUnit, method, call => (XUnit.treatment? method).elim 0 (XUnit.Treatment.reads call)
  | .nUnit, method, call => NUnit.reads method call
  | .msTest, method, call => (MSTest.treatment? method).elim 0 (MSTest.Treatment.reads call)

/-- The message of a call that is found by its name or by being a string. -/
def message? : Framework → MethodSymbol → View.Invocation → Option String
  | .xUnit, method, call => (XUnit.treatment? method).bind (XUnit.Treatment.message? call)
  | .nUnit, _, _ => none
  | .msTest, method, call => (MSTest.treatment? method).bind (MSTest.Treatment.message? call)

/-- The remark on what is left to be done by hand after a call. -/
def remark? : Framework → MethodSymbol → View.Invocation → Option String
  | .xUnit, method, call =>
    (XUnit.treatment? method).bind (XUnit.Treatment.remark? method.name call)
  | .nUnit, method, call => NUnit.remark? method call
  | .msTest, _, _ => none

/-- The values that are taken over from a call. -/
def taken (f : Framework) (method : MethodSymbol) (call : View.Invocation) : List String :=
  call.argumentTexts.take (f.reads method call) ++ (f.message? method call).toList

/-- The arguments that a call loses without notice: they are not taken over and there is no
    remark. -/
def dropped (f : Framework) (method : MethodSymbol) (call : View.Invocation) :
    List View.Argument :=
  if (f.remark? method call).isSome then []
  else call.arguments.filter fun a => !(f.taken method call).contains a.valueText

/-- True for the methods with an argument that is translated itself: a constraint, or a check of
    each item. -/
def translates : Framework → MethodSymbol → Bool
  | .xUnit, method => method.name == "All"
  | .nUnit, method => NUnit.isGeneral method && method.name == "That"
  | .msTest, _ => false

/-! ## Migration -/

/-- The first framework that a file imports from. -/
def detect? (t : Tree) : Option Framework :=
  let names := t.imports.filterMap fun s => s.node.importedName?
  all.find? fun f => names.any (Text.isUnder f.rootSpace)

/-- The migration of a file that is written for the framework. -/
def migrateSource (f : Framework) (settings : Settings) (source : String) :
    Except ParseError Migration :=
  f.strategy.migrateSource f.catalog settings source

end Framework

end Recast
