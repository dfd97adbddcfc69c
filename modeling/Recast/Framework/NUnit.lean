-- SUMMARY: The rules for files written for NUnit.
import Recast.Framework.Assertion
import Recast.Framework.Constraint

/-! # NUnit

Assertions come as constraints, `Assert.That(actual, Is.EqualTo(x))`, in the classic form,
`Assert.AreEqual(x, actual)`, and in helper classes for strings and collections. A message may
follow the arguments of any of them. -/

namespace Recast.Framework.NUnit

def space : String := "NUnit.Framework"

/-- Where later versions keep the classic forms and the helpers. -/
def legacySpace : String := "NUnit.Framework.Legacy"

/-! ## Catalog -/

def classicMethods : List String :=
  ["AreEqual", "AreNotEqual", "AreSame", "AreNotSame", "IsTrue", "IsFalse", "True", "False",
    "IsNull", "IsNotNull", "Null", "NotNull", "IsEmpty", "IsNotEmpty", "Greater", "GreaterOrEqual",
    "Less", "LessOrEqual", "Contains", "Zero", "NotZero", "Positive", "Negative", "IsNaN",
    "IsInstanceOf", "IsNotInstanceOf"]

def assertMethods : List String :=
  ["That", "Multiple", "Throws", "ThrowsAsync", "Catch", "CatchAsync", "DoesNotThrow",
    "DoesNotThrowAsync", "Pass", "Fail", "Ignore", "Inconclusive", "Warn"]

def stringMethods : List String :=
  ["Contains", "DoesNotContain", "StartsWith", "DoesNotStartWith", "EndsWith", "DoesNotEndWith",
    "AreEqualIgnoringCase", "AreNotEqualIgnoringCase", "IsMatch", "DoesNotMatch"]

def collectionMethods : List String :=
  ["AreEqual", "AreNotEqual", "AreEquivalent", "AreNotEquivalent", "Contains", "DoesNotContain",
    "IsSubsetOf", "IsNotSubsetOf", "IsSupersetOf", "IsNotSupersetOf", "AllItemsAreUnique",
    "AllItemsAreNotNull", "AllItemsAreInstancesOfType", "IsEmpty", "IsNotEmpty", "IsOrdered"]

def markers : List String :=
  ["Test", "Theory", "TestCase", "TestCaseSource", "TestFixture", "SetUp", "TearDown",
    "OneTimeSetUp", "OneTimeTearDown", "Category", "Ignore", "Explicit", "Description", "Author",
    "Repeat", "Retry", "Timeout", "NonParallelizable", "Parallelizable", "Apartment",
    "Combinatorial", "Sequential", "Platform", "FixtureLifeCycle", "Range", "Values",
    "ValueSource"]

/-- The types of the framework. -/
def catalog : Catalog where
  types :=
    [ (TypeInfo.ofClass space "Assert").withMethods (assertMethods ++ classicMethods) true,
      (TypeInfo.ofClass legacySpace "ClassicAssert").withMethods classicMethods true,
      TypeInfo.ofClass space "Is", TypeInfo.ofClass space "Has", TypeInfo.ofClass space "Does",
      TypeInfo.ofClass space "Throws" ]
    ++ ([space, legacySpace].flatMap fun home =>
      [ (TypeInfo.ofClass home "StringAssert").withMethods stringMethods true,
        (TypeInfo.ofClass home "CollectionAssert").withMethods collectionMethods true ])
    ++ (markers.map fun name => TypeInfo.ofClass space (name ++ "Attribute"))

/-- The types whose methods are assertions. -/
def assertTypes : List String :=
  ["NUnit.Framework.Assert", "NUnit.Framework.Legacy.ClassicAssert",
    "NUnit.Framework.StringAssert", "NUnit.Framework.Legacy.StringAssert",
    "NUnit.Framework.CollectionAssert", "NUnit.Framework.Legacy.CollectionAssert"]

/-! ## Assertions -/

/-- What becomes of an assertion. -/
inductive Treatment where
  /-- A condition, or a value and a constraint. -/
  | constraint
  /-- Two values are compared, perhaps with a tolerance. -/
  | equality (check : String)
  | form (form : Form)
  /-- The type of a value is checked against the type argument. -/
  | typeTest (check : String)
  | throws
  /-- Another call with the first argument, or with a given one when there is none. -/
  | becomes (callee absent : String)
  /-- The assertion means the same in the target framework. -/
  | stays
  deriving DecidableEq, Repr

/-- The assertions of the classic form. -/
def treatments : List (String × Treatment) :=
  [("That", .constraint), ("AreEqual", .equality "IsEqualTo"),
    ("AreNotEqual", .equality "IsNotEqualTo"),
    ("AreSame", .form (.expecting "IsSameReferenceAs")),
    ("AreNotSame", .form (.expecting "IsNotSameReferenceAs")),
    ("IsTrue", .form (.about "IsTrue()")), ("True", .form (.about "IsTrue()")),
    ("IsFalse", .form (.about "IsFalse()")), ("False", .form (.about "IsFalse()")),
    ("IsNull", .form (.about "IsNull()")), ("Null", .form (.about "IsNull()")),
    ("IsNotNull", .form (.about "IsNotNull()")), ("NotNull", .form (.about "IsNotNull()")),
    ("IsEmpty", .form (.about "IsEmpty()")), ("IsNotEmpty", .form (.about "IsNotEmpty()")),
    ("Zero", .form (.about "IsZero()")), ("NotZero", .form (.about "IsNotZero()")),
    ("Positive", .form (.about "IsPositive()")), ("Negative", .form (.about "IsNegative()")),
    ("IsNaN", .form (.about "IsNaN()")), ("Greater", .form (.comparing "IsGreaterThan")),
    ("GreaterOrEqual", .form (.comparing "IsGreaterThanOrEqualTo")),
    ("Less", .form (.comparing "IsLessThan")),
    ("LessOrEqual", .form (.comparing "IsLessThanOrEqualTo")),
    ("Contains", .form (.expecting "Contains")),
    ("IsInstanceOf", .typeTest "IsAssignableTo"),
    ("IsNotInstanceOf", .typeTest "IsNotAssignableTo"),
    ("Throws", .throws), ("ThrowsAsync", .throws), ("Catch", .throws), ("CatchAsync", .throws),
    ("DoesNotThrow", .form (.about "ThrowsNothing()")),
    ("DoesNotThrowAsync", .form (.about "ThrowsNothing()")),
    ("Fail", .becomes "Fail.Test" "\"\""),
    ("Inconclusive", .becomes "Skip.Test" "\"Test inconclusive\""),
    ("Ignore", .becomes "Skip.Test" "\"Ignored\""), ("Multiple", .stays)]

/-- The assertions about strings. -/
def stringForms : List (String × Form) :=
  [("Contains", .expecting "Contains"), ("DoesNotContain", .expecting "DoesNotContain"),
    ("StartsWith", .expecting "StartsWith"), ("DoesNotStartWith", .expecting "DoesNotStartWith"),
    ("EndsWith", .expecting "EndsWith"), ("DoesNotEndWith", .expecting "DoesNotEndWith"),
    ("IsMatch", .expecting "Matches"), ("DoesNotMatch", .expecting "DoesNotMatch"),
    ("AreEqualIgnoringCase",
      .expectedFirst "IsEqualTo(" ", StringComparison.OrdinalIgnoreCase)"),
    ("AreNotEqualIgnoringCase",
      .expectedFirst "IsNotEqualTo(" ", StringComparison.OrdinalIgnoreCase)")]

/-- The assertions about collections. -/
def collectionForms : List (String × Form) :=
  [("AreEqual", .expecting "IsEquivalentTo"), ("AreEquivalent", .expecting "IsEquivalentTo"),
    ("AreNotEqual", .expecting "IsNotEquivalentTo"),
    ("AreNotEquivalent", .expecting "IsNotEquivalentTo"),
    ("Contains", .comparing "Contains"), ("DoesNotContain", .comparing "DoesNotContain"),
    ("IsSubsetOf", .comparing "IsSubsetOf"), ("IsNotSubsetOf", .comparing "IsNotSubsetOf"),
    ("IsSupersetOf", .comparing "IsSupersetOf"), ("IsNotSupersetOf", .comparing "IsNotSupersetOf"),
    ("AllItemsAreUnique", .about "HasDistinctItems()"),
    ("AllItemsAreNotNull", .about "All(x => x != null)"),
    ("AllItemsAreInstancesOfType", .actualFirst "All(x => " ".IsInstanceOfType(x))"),
    ("IsEmpty", .about "IsEmpty()"), ("IsNotEmpty", .about "IsNotEmpty()"),
    ("IsOrdered", .about "IsInOrder()")]

/-- A condition with a message, or a value with a constraint and a message. -/
def convertThat (cx : Context) (s : Site) (call : View.Invocation) :
    Except Complaint (Proposal AssertionChange) := do
  let arguments := call.argumentTexts
  let actual ← require (.tooFewArguments "That" 1 arguments.length) arguments.head?
  match (call.arguments[1]?.bind View.Argument.expression?).filter fun e => !isStringLiteral e with
  | none => return awaited "That" s (assertThat cx actual "IsTrue()" arguments[1]?)
  | some constraint =>
    match Check.of? constraint with
    | some (.that check) => return awaited "That" s (assertThat cx actual check arguments[2]?)
    | some (.throws exception) => return awaited "That" s (assertThrows cx exception actual)
    | none =>
      let remark := todo "Complex NUnit constraint. Manual conversion required."
      return withRemark (plain "That" s s.text) remark

/-- What becomes of the call of an assertion. -/
def Treatment.convert (cx : Context) (assertion : String) (s : Site) (call : View.Invocation) :
    Treatment → Except Complaint (Option (Proposal AssertionChange))
  | .constraint => some <$> convertThat cx s call
  | .equality check =>
    match call.argumentTexts with
    | expected :: actual :: rest =>
      let check := s!"{check}({expected})"
      let tolerance? := (call.arguments[2]?.bind View.Argument.expression?).filter fun e =>
        !isStringLiteral e
      match tolerance?, rest with
      | some _, tolerance :: rest =>
        return awaited assertion s
          (assertThat cx actual s!"{check}.Within({tolerance})" rest.head?)
      | _, _ => return awaited assertion s (assertThat cx actual check rest.head?)
    | arguments => object (.tooFewArguments assertion 2 arguments.length)
  | .form f =>
    some <$> f.convert cx assertion s call.argumentTexts fun index => call.argumentTexts[index]?
  | .typeTest check => do
    let type ← require (.genericFormOnly assertion) call.typeArguments.head?
    some <$> (Form.about s!"{check}<{type}>()").convert cx assertion s call.argumentTexts
      fun index => call.argumentTexts[index]?
  | .throws => do
    let arguments := call.argumentTexts
    let action ← require (.tooFewArguments assertion 1 arguments.length) arguments.head?
    return awaited assertion s (assertThrows cx (call.typeArguments.head?.getD "Exception") action)
  | .becomes callee absent =>
    let argument := call.argumentTexts.head?.getD absent
    return plain assertion s s!"{callee}({argument})"
  | .stays => return none

/-- What becomes of the call of an assertion in a helper class. -/
def convertHelper (cx : Context) (helper assertion : String) (s : Site) (call : View.Invocation) :
    Except Complaint (Proposal AssertionChange) :=
  let forms := if helper == "StringAssert" then stringForms else collectionForms
  match forms.lookup assertion with
  | some form =>
    form.convert cx assertion s call.argumentTexts fun index => call.argumentTexts[index]?
  | none => object (.noCounterpart s!"{helper}.{assertion}")

/-- The third argument, when it is a tolerance and no message. -/
def tolerance? (call : View.Invocation) : Option Node :=
  (call.arguments[2]?.bind View.Argument.expression?).filter fun e => !isStringLiteral e

namespace Treatment

/-- How many arguments, from the first one on, a replacement is made from. A message counts as
    one of them, since it is known by its place. -/
def reads (call : View.Invocation) : Treatment → Nat
  | .constraint => 3
  | .equality _ => if (tolerance? call).isSome then 4 else 3
  | .form f => f.arity + 1
  | .typeTest _ => 2
  | .throws | .becomes .. => 1
  | .stays => 0

/-- The remark on what is left to be done by hand. -/
def remark? (call : View.Invocation) : Treatment → Option String
  | .constraint => do
    let constraint ←
      (call.arguments[1]?.bind View.Argument.expression?).filter fun e => !isStringLiteral e
    match Check.of? constraint with
    | some _ => none
    | none => todo "Complex NUnit constraint. Manual conversion required."
  | _ => none

variable {treatment : Treatment} {cx : Context} {assertion : String} {s : Site}
  {call : View.Invocation} {p : Proposal AssertionChange}

/-- A proposal has the remark of its treatment. -/
theorem remark_convert (h : treatment.convert cx assertion s call = .ok (some p)) :
    p.change.remark = treatment.remark? call := by
  cases treatment with
  | constraint =>
    simp only [convert, convertThat] at h
    simp only [remark?]
    cases hfirst : call.argumentTexts.head? with
    | none => rw [hfirst] at h; cases h
    | some actual =>
      rw [hfirst] at h
      cases hconstraint :
          (call.arguments[1]?.bind View.Argument.expression?).filter fun e => !isStringLiteral e with
      | none => rw [hconstraint] at h; cases h; rfl
      | some constraint =>
        simp only [hconstraint] at h
        simp only [Option.bind_eq_bind, Option.bind_some]
        cases hcheck : Check.of? constraint with
        | none => rw [hcheck] at h; cases h; rfl
        | some check => cases check <;> (rw [hcheck] at h; cases h; rfl)
  | equality check =>
    simp only [convert] at h
    split at h
    · split at h <;> cases h <;> rfl
    · cases h
  | form form => exact Form.remark_map_convert h
  | typeTest check =>
    simp only [convert] at h
    cases htype : call.typeArguments.head? with
    | none => rw [htype] at h; cases h
    | some type => rw [htype] at h; exact Form.remark_map_convert h
  | throws =>
    simp only [convert] at h
    cases hfirst : call.argumentTexts.head? with
    | none => rw [hfirst] at h; cases h
    | some action => rw [hfirst] at h; cases h; rfl
  | becomes callee absent => cases h; rfl
  | stays => cases h

end Treatment

/-- True for a class of the assertions that are not about strings or collections only. -/
def isGeneral (method : MethodSymbol) : Bool :=
  ["Assert", "ClassicAssert"].contains method.owner.name

/-- The form of the assertions in a helper class. -/
def helperForm? (method : MethodSymbol) : Option Form :=
  (if method.owner.name == "StringAssert" then stringForms else collectionForms).lookup method.name

/-- How many arguments, from the first one on, the replacement of a call is made from. -/
def reads (method : MethodSymbol) (call : View.Invocation) : Nat :=
  if isGeneral method then (treatments.lookup method.name).elim 0 (Treatment.reads call)
  else (helperForm? method).elim 0 fun form => form.arity + 1

/-- The remark on what is left to be done by hand after a call. -/
def remark? (method : MethodSymbol) (call : View.Invocation) : Option String :=
  if isGeneral method then (treatments.lookup method.name).bind (Treatment.remark? call) else none

/-- What becomes of a call. -/
def assertion : Rule (Option (Proposal AssertionChange)) := fun cx s =>
  match View.Invocation.of? s.node with
  | none => .ok none
  | some call =>
    let classes := ["Assert", "ClassicAssert", "StringAssert", "CollectionAssert"]
    if !((receiverName? call).map classes.contains).getD false then .ok none
    else do
      match ← frameworkCall? cx assertTypes s with
      | none => return none
      | some method =>
        if ["Assert", "ClassicAssert"].contains method.owner.name then
          match treatments.lookup method.name with
          | some treatment => treatment.convert cx method.name s call
          | none => object (.noCounterpart s!"Assert.{method.name}")
        else some <$> convertHelper cx method.owner.name method.name s call

/-! ## Markers -/

/-- The markers that have no counterpart. -/
def removedMarkers : List String :=
  ["TestFixture", "Combinatorial", "Sequential", "Platform", "FixtureLifeCycle"]

/-- True when the first value of a marker ends with a word. -/
def firstEndsWith (marker : View.Attribute) (word : String) : Bool :=
  ((positionalValues marker).head?.map fun value => Text.endsWith value word).getD false

/-- A scope of no parallel tests is kept, and so is the apartment of a single thread; a fixture
    with arguments keeps them. -/
def removesMarker : Rule Bool := fun cx s => do
  match ← marker? cx space s with
  | none => return false
  | some ("TestFixture", view) => return view.arguments.isEmpty
  | some ("Parallelizable", view) => return !firstEndsWith view "None"
  | some ("Apartment", view) => return !firstEndsWith view "STA"
  | some (name, _) => return removedMarkers.contains name

/-- The named arguments that become properties, as markers beside a changed one. -/
def withProperties (marker : View.Attribute) (change : MarkerChange) : MarkerChange :=
  ["Description", "Author"].foldl (fun change name =>
    besideWhen change "Property" ((namedValue? marker name).map (property name))) change

/-- A test case becomes its arguments, with markers beside it for what is named. -/
def testCase (marker : View.Attribute) : Except Complaint MarkerChange :=
  if (marker.named? "ExpectedResult").isSome then
    object (.noCounterpart "TestCase with ExpectedResult")
  else
    let displayName := (namedValue? marker "TestName").map ("DisplayName = " ++ ·)
    let values := Text.joinWith ", " (positionalValues marker ++ displayName.toList)
    let edit := if marker.arguments.isEmpty then .remove else .replace (inParentheses values)
    let category := (namedValue? marker "Category").map inParentheses
    let skip := (namedValue? marker "Ignore" <|> namedValue? marker "IgnoreReason").map inParentheses
    let reason := (namedValue? marker "ExplicitReason").map (property "ExplicitReason")
    let change : MarkerChange := { name := "Arguments", arguments := edit }
    let change := besideWhen (besideWhen change "Category" category) "Skip" skip
    let change := withProperties marker change
    let change :=
      if reason.isSome || namedValue? marker "Explicit" == some "true" then
        beside change "Explicit" none
      else change
    .ok (besideWhen change "Property" reason)

/-- What becomes of a marker of the framework. -/
def markerChange? (marker : View.Attribute) (name : String) :
    Except Complaint (Option MarkerChange) :=
  match name with
  | "Test" | "Theory" =>
    if (marker.named? "ExpectedResult").isSome then
      object (.noCounterpart "Test with ExpectedResult")
    else return withProperties marker (bareMarker "Test")
  | "TestCase" => some <$> testCase marker
  | "TestFixture" => return if marker.arguments.isEmpty then none else some { name := "Arguments" }
  | "TestCaseSource" => return some { name := "MethodDataSource" }
  | "SetUp" => return markerWith "Before" (hookScope "Test")
  | "TearDown" => return markerWith "After" (hookScope "Test")
  | "OneTimeSetUp" => return markerWith "Before" (hookScope "Class")
  | "OneTimeTearDown" => return markerWith "After" (hookScope "Class")
  | "Category" | "Repeat" | "Retry" | "Timeout" => return some { name }
  | "Ignore" => return some { name := "Skip" }
  | "Explicit" =>
    return besideWhen (bareMarker "Explicit") "Property"
      ((positionalValues marker).head?.map (property "ExplicitReason"))
  | "Description" | "Author" => do
    let value ← require (.without name "a value") (positionalValues marker).head?
    return markerWith "Property" (property name value)
  | "NonParallelizable" => return some { name := "NotInParallel" }
  | "Parallelizable" =>
    return if firstEndsWith marker "None" then some (bareMarker "NotInParallel") else none
  | "Apartment" =>
    return if firstEndsWith marker "STA" then some (bareMarker "TestExecutor<STAThreadExecutor>")
      else none
  | _ => return none

def marker : Rule (Option (Proposal MarkerChange)) := fun cx s => do
  match ← marker? cx space s with
  | none => return none
  | some (name, view) => return (← markerChange? view name).map fun change => ⟨s.text, change⟩

/-! ## Markers of parameters -/

/-- The types that a range can be of, besides `int`. -/
def rangeTypes : List String :=
  ["long", "float", "double", "decimal", "short", "byte"]

/-- The type that the ending of a number stands for. -/
def literalType? (literal : String) : Option String :=
  let digits := String.ofList (literal.toList.dropWhile (· == '-'))
  let small := Text.lower digits
  if Text.endsWith small "l" then some "long"
  else if Text.endsWith small "f" then some "float"
  else if Text.endsWith small "m" then some "decimal"
  else if Text.endsWith small "d" || Text.contains digits "." then some "double"
  else none

/-- The type of a range: that of its first bound, or else of its parameter. -/
def rangeType (first : Option String) (parameter : Option View.Parameter) : String :=
  let declared := (parameter.bind View.Parameter.type?).map Node.text
  ((first.bind literalType?) <|> declared.filter rangeTypes.contains).getD "int"

def parameterMarker : Rule (Option (Proposal (String × ArgumentEdit))) := fun cx s => do
  let renamed (name : String) : Proposal (String × ArgumentEdit) := ⟨s.text, name, .keep⟩
  match ← marker? cx space s with
  | some ("Range", view) =>
    let parameter := (s.ancestor? .parameter).bind fun p => View.Parameter.of? p.node
    let type := rangeType (positionalValues view).head? parameter
    return some (renamed s!"MatrixRange<{type}>")
  | some ("Values", _) => return some (renamed "Matrix")
  | some ("ValueSource", _) => return some (renamed "MatrixSourceMethod")
  | _ => return none

/-! ## Methods -/

/-- A method with test cases is a test, marked as one or not. -/
def missingMarker : Rule (Option (Proposal MarkedMethod)) := fun _ s =>
  let names := markerNames s.node
  let hasCases := names.any ["TestCase", "TestCaseSource"].contains
  let isMarked := names.any ["Test", "Theory"].contains
  if hasCases && !isMarked then
    .ok (some ⟨((View.Method.of? s.node).bind View.Method.name?).getD "", ⟨"Test", none⟩⟩)
  else .ok none

/-- The markers of methods that run before and after tests. -/
def lifecycleMarkers : List String :=
  ["SetUp", "TearDown", "OneTimeSetUp", "OneTimeTearDown"]

/-! ## The strategy -/

def imports (plan : Plan) : ImportDelta :=
  let delta := importsFor "NUnit" plan
  let ignoresCase := plan.assertions.any fun a => Text.contains a.replacement "StringComparison."
  if ignoresCase then delta.add "System" else delta

def strategy : Strategy where
  source := "NUnit"
  target := "TUnit"
  assertion := assertion
  removesMarker := removesMarker
  marker := marker
  parameterMarker := parameterMarker
  missingMarker := missingMarker
  makesPublic _ s := .ok (lacksPublic lifecycleMarkers s)
  imports plan := .ok (imports plan)

end Recast.Framework.NUnit
