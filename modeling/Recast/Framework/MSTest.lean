-- SUMMARY: The rules for files written for MSTest.
import Recast.Framework.Assertion

/-! # MSTest

Assertions about plain values name the expected one first; those about collections and strings
name the actual one first. A message is a string after the arguments, or a named argument. -/

namespace Recast.Framework.MSTest

def space : String := "Microsoft.VisualStudio.TestTools.UnitTesting"

/-! ## Catalog -/

def assertMethods : List String :=
  ["AreEqual", "AreNotEqual", "AreSame", "AreNotSame", "IsTrue", "IsFalse", "IsNull", "IsNotNull",
    "IsInstanceOfType", "IsNotInstanceOfType", "ThrowsException", "ThrowsExceptionAsync", "Fail",
    "Inconclusive"]

def collectionMethods : List String :=
  ["AreEqual", "AreNotEqual", "AreEquivalent", "AreNotEquivalent", "Contains", "DoesNotContain",
    "IsSubsetOf", "IsNotSubsetOf", "AllItemsAreUnique", "AllItemsAreNotNull",
    "AllItemsAreInstancesOfType"]

def stringMethods : List String :=
  ["Contains", "StartsWith", "EndsWith", "Matches", "DoesNotMatch"]

def markers : List String :=
  ["TestClass", "TestMethod", "DataTestMethod", "DataRow", "DynamicData", "TestInitialize",
    "TestCleanup", "ClassInitialize", "ClassCleanup", "AssemblyInitialize", "AssemblyCleanup",
    "TestCategory", "Priority", "Owner", "Ignore", "Timeout", "ExpectedException", "Description"]

/-- The types of the framework. -/
def catalog : Catalog where
  types :=
    [ (TypeInfo.ofClass space "Assert").withMethods assertMethods true,
      (TypeInfo.ofClass space "CollectionAssert").withMethods collectionMethods true,
      (TypeInfo.ofClass space "StringAssert").withMethods stringMethods true,
      TypeInfo.ofClass space "TestContext" ]
    ++ (markers.map fun name => TypeInfo.ofClass space (name ++ "Attribute"))

/-! ## Assertions -/

/-- What becomes of an assertion. -/
inductive Treatment where
  | form (form : Form)
  /-- As the form says; no message is taken over. -/
  | silent (form : Form)
  /-- The type of a value is checked against the type argument or the second argument. -/
  | typeTest (check : String)
  | throws
  /-- Another call with all arguments. -/
  | becomes (callee : String)
  deriving DecidableEq, Repr

/-- The assertions about plain values. -/
def treatments : List (String × Treatment) :=
  [("AreEqual", .form (.expecting "IsEqualTo")), ("AreNotEqual", .form (.expecting "IsNotEqualTo")),
    ("AreSame", .form (.expecting "IsSameReferenceAs")),
    ("AreNotSame", .form (.expecting "IsNotSameReferenceAs")),
    ("IsTrue", .form (.about "IsTrue()")), ("IsFalse", .form (.about "IsFalse()")),
    ("IsNull", .form (.about "IsNull()")), ("IsNotNull", .form (.about "IsNotNull()")),
    ("IsInstanceOfType", .typeTest "IsAssignableTo"),
    ("IsNotInstanceOfType", .typeTest "IsNotAssignableTo"),
    ("ThrowsException", .throws), ("ThrowsExceptionAsync", .throws),
    ("Fail", .becomes "Assert.Fail"), ("Inconclusive", .becomes "Skip.Test")]

/-- The assertions about collections. -/
def collectionTreatments : List (String × Treatment) :=
  [("AreEqual", .form (.expecting "IsEquivalentTo")),
    ("AreEquivalent", .form (.expecting "IsEquivalentTo")),
    ("AreNotEqual", .form (.expecting "IsNotEquivalentTo")),
    ("AreNotEquivalent", .form (.expecting "IsNotEquivalentTo")),
    ("Contains", .form (.comparing "Contains")),
    ("DoesNotContain", .form (.comparing "DoesNotContain")),
    ("IsSubsetOf", .form (.comparing "IsSubsetOf")),
    ("IsNotSubsetOf", .form (.comparing "IsNotSubsetOf")),
    ("AllItemsAreUnique", .form (.about "HasDistinctItems()")),
    ("AllItemsAreNotNull", .form (.about "All(x => x != null)")),
    ("AllItemsAreInstancesOfType", .silent (.actualFirst "All(x => " ".IsInstanceOfType(x))"))]

/-- The assertions about strings. -/
def stringTreatments : List (String × Treatment) :=
  stringMethods.map fun name => (name, .form (.comparing name))

/-- The assertions of a class. -/
def treatmentsOf : String → List (String × Treatment)
  | "CollectionAssert" => collectionTreatments
  | "StringAssert" => stringTreatments
  | _ => treatments

/-- What becomes of the call of an assertion. -/
def Treatment.convert (cx : Context) (assertion : String) (s : Site) (call : View.Invocation) :
    Treatment → Except Complaint (Proposal AssertionChange)
  | .form f => f.convert cx assertion s call.argumentTexts (message? call)
  | .silent f => f.convert cx assertion s call.argumentTexts fun _ => none
  | .typeTest check =>
    match call.argumentTexts, call.typeArguments with
    | [], _ => object (.tooFewArguments assertion 1 0)
    | actual :: _, type :: _ =>
      return awaited assertion s (assertThat cx actual s!"{check}<{type}>()" (message? call 2))
    | actual :: type :: _, [] =>
      return awaited assertion s (assertThat cx actual s!"{check}({type})" (message? call 2))
    | [_], [] => object (.namesNo s!"Assert.{assertion}" "type")
  | .throws =>
    match call.argumentTexts, call.typeArguments with
    | [], _ => object (.tooFewArguments assertion 1 0)
    | _ :: _, [] => object (.without s!"Assert.{assertion}" "an exception type")
    | action :: _, exception :: _ => return awaited assertion s (assertThrows cx exception action)
  | .becomes callee =>
    let arguments := Text.joinWith ", " call.argumentTexts
    return plain assertion s s!"{callee}({arguments})"
where
  /-- The message of a call: a named argument, or a string at an index. -/
  message? (call : View.Invocation) (index : Nat) : Option String :=
    stringMessage? ["message"] call.arguments index

/-- What becomes of the calls of a method. -/
def treatment? (method : MethodSymbol) : Option Treatment :=
  (treatmentsOf method.owner.name).lookup method.name

namespace Treatment

/-- How many arguments, from the first one on, a replacement is made from. -/
def reads (call : View.Invocation) : Treatment → Nat
  | .form f | .silent f => f.arity
  | .typeTest _ => if call.typeArguments.isEmpty then 2 else 1
  | .throws => 1
  | .becomes _ => call.arguments.length

/-- The message that a replacement is given. -/
def message? (call : View.Invocation) : Treatment → Option String
  | .form f => stringMessage? ["message"] call.arguments f.arity
  | .typeTest _ => stringMessage? ["message"] call.arguments 2
  | _ => none

variable {treatment : Treatment} {cx : Context} {assertion : String} {s : Site}
  {call : View.Invocation} {p : Proposal AssertionChange}

/-- No treatment leaves anything to be done by hand. -/
theorem remark_convert (h : treatment.convert cx assertion s call = .ok p) :
    p.change.remark = none := by
  cases treatment with
  | form form => exact Form.remark_convert h
  | silent form =>
    have hform : form.convert cx assertion s call.argumentTexts (fun _ => none) = .ok p := h
    exact Form.remark_convert hform
  | typeTest check =>
    simp only [convert] at h
    split at h <;> cases h <;> rfl
  | throws =>
    simp only [convert] at h
    split at h <;> cases h
    rfl
  | becomes callee => cases h; rfl

end Treatment

/-- The classes whose methods are assertions. -/
def assertClasses : List String :=
  ["Assert", "CollectionAssert", "StringAssert"]

/-- What becomes of a call. -/
def assertion : Rule (Option (Proposal AssertionChange)) := fun cx s =>
  match View.Invocation.of? s.node with
  | none => .ok none
  | some call =>
    if !((receiverName? call).map assertClasses.contains).getD false then .ok none
    else do
      match ← frameworkCall? cx (assertClasses.map (Text.qualify space)) s with
      | none => return none
      | some method =>
        match (treatmentsOf method.owner.name).lookup method.name with
        | some treatment => some <$> treatment.convert cx method.name s call
        | none => object (.noCounterpart s!"{method.owner.name}.{method.name}")

/-! ## Markers -/

def removesMarker : Rule Bool := fun cx s => do
  return (← markerName? cx space s) == some "TestClass"

/-- What becomes of a marker of the framework. -/
def markerChange? (marker : View.Attribute) (name : String) :
    Except Complaint (Option MarkerChange) :=
  let first? := (positionalValues marker).head?
  let first := require (.without name "a value") first?
  match name with
  | "TestMethod" | "DataTestMethod" => return bareMarker "Test"
  | "DataRow" => return some { name := "Arguments" }
  | "DynamicData" => return markerWith "MethodDataSource" (inParentheses (← first))
  | "TestInitialize" => return markerWith "Before" (hookScope "Test")
  | "TestCleanup" => return markerWith "After" (hookScope "Test")
  | "ClassInitialize" => return markerWith "Before" (hookScope "Class")
  | "ClassCleanup" => return markerWith "After" (hookScope "Class")
  | "AssemblyInitialize" => return markerWith "Before" (hookScope "Assembly")
  | "AssemblyCleanup" => return markerWith "After" (hookScope "Assembly")
  | "TestCategory" => return markerWith "Property" (property "Category" (← first))
  | "Priority" => return markerWith "Property" (property "Priority" ("\"" ++ (← first) ++ "\""))
  | "Owner" | "Description" => return markerWith "Property" (property name (← first))
  | "Ignore" => return markerWith "Skip" (inParentheses (first?.getD "\"Ignored\""))
  | "Timeout" => return some { name := "Timeout" }
  | "ExpectedException" => object .expectedException
  | _ => return none

def marker : Rule (Option (Proposal MarkerChange)) := fun cx s => do
  match ← marker? cx space s with
  | none => return none
  | some (name, view) => return (← markerChange? view name).map fun change => ⟨s.text, change⟩

/-- The markers of methods that run before and after tests. -/
def lifecycleMarkers : List String :=
  ["TestInitialize", "TestCleanup", "ClassInitialize", "ClassCleanup", "AssemblyInitialize",
    "AssemblyCleanup"]

/-! ## The strategy -/

def strategy : Strategy where
  source := "MSTest"
  target := "TUnit"
  assertion := assertion
  removesMarker := removesMarker
  marker := marker
  makesPublic _ s := .ok (lacksPublic lifecycleMarkers s)
  imports plan := .ok (importsFor "Microsoft.VisualStudio.TestTools" plan)

end Recast.Framework.MSTest
