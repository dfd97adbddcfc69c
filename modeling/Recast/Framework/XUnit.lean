-- SUMMARY: The rules for files written for xUnit.
import Recast.Framework.Assertion

/-! # xUnit

Assertions name the expected value first. Fixtures are interfaces that a test class lists, which
become markers or hooks; output goes through a helper that the class gets in its constructor and
that gives way to the console; rows of test data are kept in a container type of their own. -/

namespace Recast.Framework.XUnit

def space : String := "Xunit"

def outputHelper : String := "Xunit.Abstractions.ITestOutputHelper"

/-! ## Catalog -/

def assertMethods : List String :=
  ["Equal", "NotEqual", "StrictEqual", "NotStrictEqual", "True", "False", "Null", "NotNull", "Same",
    "NotSame", "Empty", "NotEmpty", "Single", "Contains", "DoesNotContain", "StartsWith",
    "EndsWith", "Matches", "DoesNotMatch", "InRange", "NotInRange", "IsType", "IsNotType",
    "IsAssignableFrom", "Throws", "ThrowsAsync", "ThrowsAny", "ThrowsAnyAsync", "Fail", "All",
    "Collection", "Distinct", "Equivalent", "Subset", "Superset", "ProperSubset", "ProperSuperset"]

def markers : List String :=
  ["Fact", "Theory", "InlineData", "MemberData", "ClassData", "Trait", "Collection",
    "CollectionDefinition"]

/-- The types of the framework. -/
def catalog : Catalog where
  types :=
    [ (TypeInfo.ofClass space "Assert").withMethods assertMethods true,
      (TypeInfo.ofClass space "Record").withMethods ["Exception", "ExceptionAsync"] true,
      (TypeInfo.ofInterface space "IClassFixture").withArity 1,
      (TypeInfo.ofInterface space "ICollectionFixture").withArity 1,
      (TypeInfo.ofInterface space "IAsyncLifetime").withMethods ["InitializeAsync", "DisposeAsync"],
      (TypeInfo.ofInterface "Xunit.Abstractions" "ITestOutputHelper").withMethods ["WriteLine"] ]
    ++ (markers.map fun name => TypeInfo.ofClass space (name ++ "Attribute"))
    ++ ([1, 2, 3, 4, 5].map fun arity => (TypeInfo.ofClass space "TheoryData").withArity arity)

/-! ## Assertions -/

/-- What becomes of an assertion. -/
inductive Treatment where
  /-- Two values are compared. What a third argument asks for is not taken over. -/
  | equality (check : String)
  /-- A condition is checked, perhaps with a message. -/
  | condition (check : String)
  | form (form : Form)
  /-- A value is compared with two bounds. -/
  | range (check : String)
  /-- The type of a value is checked against the type argument. -/
  | typeTest (check : String)
  | throwsAny
  /-- The assertion means the same in the target framework. -/
  | stays
  | fail
  /-- Each item is checked. -/
  | all
  /-- Each item has a check of its own. -/
  | collection
  deriving DecidableEq, Repr

def treatments : List (String × Treatment) :=
  [("Equal", .equality "IsEqualTo"), ("NotEqual", .equality "IsNotEqualTo"),
    ("StrictEqual", .equality "IsStrictlyEqualTo"),
    ("NotStrictEqual", .equality "IsNotStrictlyEqualTo"),
    ("True", .condition "IsTrue()"), ("False", .condition "IsFalse()"),
    ("Null", .form (.about "IsNull()")), ("NotNull", .form (.about "IsNotNull()")),
    ("Empty", .form (.about "IsEmpty()")), ("NotEmpty", .form (.about "IsNotEmpty()")),
    ("Single", .form (.about "HasSingleItem()")), ("Distinct", .form (.about "HasDistinctItems()")),
    ("Same", .form (.expecting "IsSameReferenceAs")),
    ("NotSame", .form (.expecting "IsNotSameReferenceAs")),
    ("Contains", .form (.expecting "Contains")),
    ("DoesNotContain", .form (.expecting "DoesNotContain")),
    ("StartsWith", .form (.expecting "StartsWith")), ("EndsWith", .form (.expecting "EndsWith")),
    ("Matches", .form (.expecting "Matches")), ("DoesNotMatch", .form (.expecting "DoesNotMatch")),
    ("Equivalent", .form (.expecting "IsEquivalentTo")),
    ("InRange", .range "IsInRange"), ("NotInRange", .range "IsNotInRange"),
    ("IsType", .typeTest "IsTypeOf"), ("IsNotType", .typeTest "IsNotTypeOf"),
    ("IsAssignableFrom", .typeTest "IsAssignableTo"),
    ("ThrowsAny", .throwsAny), ("ThrowsAnyAsync", .throwsAny),
    ("Throws", .stays), ("ThrowsAsync", .stays), ("Fail", .fail), ("All", .all),
    ("Collection", .collection)]

/-- The predicate of a lambda that asserts a condition of its parameter. -/
def predicateOf? (lambda : Node) : Option String := do
  if lambda.kind != .simpleLambdaExpression then none
  let parameter ← lambda.child? .parameter
  let body ← lambda.childNodes.getLast?.bind View.Invocation.of?
  if body.callee?.map Node.text != some "Assert.True" then none
  match body.argumentTexts with
  | [condition] => return s!"{parameter.text} => {condition}"
  | _ => none

/-- What becomes of the call of an assertion. -/
def Treatment.convert (cx : Context) (assertion : String) (s : Site) (call : View.Invocation) :
    Treatment → Except Complaint (Option (Proposal AssertionChange))
  | .equality check => do
    let arguments := call.argumentTexts
    let proposal ← (Form.expecting check).convert cx assertion s arguments fun _ => none
    match arguments[2]? with
    | none => return proposal
    | some third =>
      let what := s!"the {third} argument of Assert.{assertion} was not converted"
      return withRemark proposal (todo what)
  | .condition check =>
    some <$> (Form.about check).convert cx assertion s call.argumentTexts
      (stringMessage? ["userMessage", "message"] call.arguments)
  | .form f => some <$> f.convert cx assertion s call.argumentTexts fun _ => none
  | .range check =>
    match call.argumentTexts with
    | actual :: low :: high :: _ =>
      return awaited assertion s (assertThat cx actual s!"{check}({low}, {high})")
    | arguments => object (.tooFewArguments assertion 3 arguments.length)
  | .typeTest check =>
    match call.typeArguments, call.argumentTexts with
    | [type], actual :: _ => return awaited assertion s (assertThat cx actual s!"{check}<{type}>()")
    | [_], [] => object (.tooFewArguments assertion 1 0)
    | _, _ => object (.genericFormOnly assertion)
  | .throwsAny =>
    let check :=
      match call.typeArguments with
      | type :: _ => s!"Throws<{type}>()"
      | [] => "ThrowsException()"
    some <$> (Form.about check).convert cx assertion s call.argumentTexts fun _ => none
  | .stays => return none
  | .fail =>
    let arguments := Text.joinWith ", " call.argumentTexts
    return plain assertion s s!"Assert.Fail({arguments})"
  | .all =>
    match call.argumentTexts with
    | items :: check :: _ =>
      match (call.arguments[1]?.bind View.Argument.expression?).bind predicateOf? with
      | some predicate => return awaited assertion s (assertThat cx items s!"All({predicate})")
      | none =>
        let proposal := awaited assertion s (assertThat cx items s!"All({check})")
        return withRemark proposal (todo "All() expects a predicate returning bool")
    | arguments => object (.tooFewArguments assertion 2 arguments.length)
  | .collection =>
    match call.argumentTexts with
    | items :: inspectors =>
      let proposal := awaited assertion s (assertThat cx items s!"HasCount({inspectors.length})")
      return withRemark proposal
        (todo "Assert.Collection element inspectors need manual conversion")
    | [] => object (.tooFewArguments assertion 1 0)

/-- What becomes of the calls of a method. -/
def treatment? (method : MethodSymbol) : Option Treatment :=
  treatments.lookup method.name

namespace Treatment

/-- How many arguments, from the first one on, a replacement is made from. -/
def reads (call : View.Invocation) : Treatment → Nat
  | .equality _ | .all => 2
  | .condition _ | .typeTest _ | .throwsAny | .collection => 1
  | .form f => f.arity
  | .range _ => 3
  | .stays => 0
  | .fail => call.arguments.length

/-- The message that a replacement is given. -/
def message? (call : View.Invocation) : Treatment → Option String
  | .condition _ => stringMessage? ["userMessage", "message"] call.arguments 1
  | _ => none

/-- The remark on what is left to be done by hand. -/
def remark? (assertion : String) (call : View.Invocation) : Treatment → Option String
  | .equality _ => call.argumentTexts[2]?.map fun third =>
    todo s!"the {third} argument of Assert.{assertion} was not converted"
  | .all =>
    match (call.arguments[1]?.bind View.Argument.expression?).bind predicateOf? with
    | some _ => none
    | none => some (todo "All() expects a predicate returning bool")
  | .collection => some (todo "Assert.Collection element inspectors need manual conversion")
  | _ => none

variable {treatment : Treatment} {cx : Context} {assertion : String} {s : Site}
  {call : View.Invocation} {p : Proposal AssertionChange}

/-- A proposal has the remark of its treatment. -/
theorem remark_convert (h : treatment.convert cx assertion s call = .ok (some p)) :
    p.change.remark = treatment.remark? assertion call := by
  cases treatment with
  | equality check =>
    simp only [convert] at h
    cases hform : (Form.expecting check).convert cx assertion s call.argumentTexts fun _ => none with
    | error complaint => rw [hform] at h; cases h
    | ok proposal =>
      rw [hform] at h
      simp only [remark?]
      cases hthird : call.argumentTexts[2]? with
      | none =>
        rw [hthird] at h
        cases h
        exact Form.remark_convert hform
      | some third =>
        rw [hthird] at h
        cases h
        rfl
  | condition check => exact Form.remark_map_convert h
  | form form => exact Form.remark_map_convert h
  | range check =>
    simp only [convert] at h
    split at h <;> cases h
    rfl
  | typeTest check =>
    simp only [convert] at h
    split at h <;> cases h
    rfl
  | throwsAny => exact Form.remark_map_convert h
  | stays => cases h
  | fail =>
    cases h
    rfl
  | all =>
    simp only [convert] at h
    simp only [remark?]
    split at h
    · split at h <;> cases h <;> rfl
    · cases h
  | collection =>
    simp only [convert] at h
    split at h <;> cases h
    rfl

end Treatment

/-- What becomes of a call. An exception that someone reads is left where it is. -/
def assertion : Rule (Option (Proposal AssertionChange)) := fun cx s =>
  match View.Invocation.of? s.node with
  | none => .ok none
  | some call =>
    if receiverName? call != some "Assert" then .ok none
    else do
      match ← frameworkCall? cx ["Xunit.Assert"] s with
      | none => return none
      | some method =>
        let isStatement := (s.parent?.map fun p => p.kind == .expressionStatement).getD false
        if !isStatement && Text.startsWith method.name "Throws" then return none
        match treatments.lookup method.name with
        | some treatment => treatment.convert cx method.name s call
        | none => object (.noCounterpart s!"Assert.{method.name}")

/-! ## Markers -/

def removesMarker : Rule Bool := fun cx s => do
  return (← markerName? cx space s) == some "Collection"

/-- What becomes of a marker of the framework. -/
def markerChange? (marker : View.Attribute) : String → Except Complaint (Option MarkerChange)
  | "Fact" | "Theory" =>
    return besideWhen (bareMarker "Test") "Skip" ((namedValue? marker "Skip").map inParentheses)
  | "InlineData" => return some { name := "Arguments" }
  | "Trait" => return some { name := "Property" }
  | "MemberData" => do
    let member ← require (.namesNo "MemberData" "member") (positionalValues marker).head?
    return markerWith "MethodDataSource" <|
      match namedValue? marker "MemberType" with
      | some owner => s!"({owner}, {member})"
      | none => inParentheses member
  | "ClassData" => do
    let type ← require (.namesNo "ClassData" "type") (positionalValues marker).head?
    return markerWith "MethodDataSource" s!"({type}, \"GetEnumerator\")"
  | "CollectionDefinition" => return bareMarker "System.Obsolete"
  | _ => return none

def marker : Rule (Option (Proposal MarkerChange)) := fun cx s => do
  match ← marker? cx space s with
  | none => return none
  | some (name, view) => return (← markerChange? view name).map fun change => ⟨s.text, change⟩

/-! ## Types -/

/-- The interfaces that have no counterpart. -/
def fixtureInterfaces : List String :=
  ["IClassFixture", "ICollectionFixture", "IAsyncLifetime"]

def baseName? (base : Site) : Option String :=
  (View.BaseType.of? base.node).bind View.BaseType.shortName?

def removesBaseType : Rule Bool := fun cx base => do
  let isFixture := ((baseName? base).map fixtureInterfaces.contains).getD false
  match ← cx.resolveType base with
  | some symbol => return isFixture && symbol.isIn space
  | none => return isFixture

/-- The fixture that a base type names as its type argument. -/
def fixtureOf? (base : Site) : Option String := do
  let type ← (View.BaseType.of? base.node).bind View.BaseType.type?
  let name ←
    if type.kind == .qualifiedName then type.childNodes.getLast?.bind View.GenericName.of?
    else View.GenericName.of? type
  return (← name.arguments.head?).text

/-- The markers for the fixtures among the base types of a type, and whether it has hooks. -/
def fixtureMarkers (cx : Context) (typeName : String) :
    List Site → Except Complaint (List ClassProposal × Bool)
  | [] => .ok ([], false)
  | base :: bases => do
    let removed ← removesBaseType cx base
    match removed, baseName? base with
    | true, some "IClassFixture" =>
      let fixture ← require (.without "IClassFixture" "a type argument") (fixtureOf? base)
      let (proposals, hasHooks) ← fixtureMarkers cx typeName bases
      return (.marker typeName s!"ClassDataSource<{fixture}>(Shared = SharedType.PerClass)"
        :: proposals, hasHooks)
    | true, some "IAsyncLifetime" => do
      let (proposals, _) ← fixtureMarkers cx typeName bases
      return (proposals, true)
    | _, _ => fixtureMarkers cx typeName bases

def hasTests (declaration : View.TypeDeclaration) : Bool :=
  declaration.methods.any fun m => (markerNames m.node).any ["Fact", "Theory", "Test"].contains

/-- The marker of a method that runs before or after each test. -/
def hookMarker? : String → Option String
  | "InitializeAsync" => some "Before(Test)"
  | "DisposeAsync" => some "After(Test)"
  | _ => none

/-- What becomes of a method of a type with hooks. In a class with tests it gets a marker; in any
    other one it implements an interface of the target framework, which may need another header. -/
def hookProposal? (inTestClass : Bool) (method : View.Method) : Option ClassProposal := do
  let name ← method.name?
  let span ← method.node.span
  let marker ← hookMarker? name
  let returnsValue := method.returnType?.map Node.text == some "ValueTask"
  if inTestClass then
    return .methodMarker span ⟨name, ⟨marker, if returnsValue then some "Task" else none⟩⟩
  else if name == "InitializeAsync" && returnsValue then
    return .signature span ⟨name, { returnType := .valueWrapperToWrapper }⟩
  else none

def classes : Rule (List ClassProposal) := fun cx s =>
  match View.TypeDeclaration.of? s.node with
  | none => .ok []
  | some declaration => do
    let name := declaration.name?.getD ""
    let bases := ((s.child? .baseList).map fun list =>
      list.children.filter fun b => b.kind == .baseType).getD []
    let (proposals, hasHooks) ← fixtureMarkers cx name bases
    if !hasHooks then return proposals
    let inTestClass := hasTests declaration
    let interfaces := if inTestClass then [] else
      ["IAsyncInitializer", "IAsyncDisposable"].map (ClassProposal.baseType name)
    return proposals ++ interfaces ++ declaration.methods.filterMap (hookProposal? inTestClass)

/-! ## The output helper -/

/-- True for a site that names the type of the output helper. -/
def isOutputHelper (cx : Context) (type : Site) : Except Complaint Bool :=
  if type.text == "ITestOutputHelper" then .ok true
  else do return ((← cx.resolveType type).map (·.is outputHelper)).getD false

/-- The declared type of a field or property. -/
def memberType? (member : Site) : Option Site :=
  if member.kind == .fieldDeclaration then (member.child? .variableDeclaration).bind Site.typeChild?
  else member.typeChild?

def removesMember : Rule Bool := fun cx s =>
  match memberType? s with
  | some type => isOutputHelper cx type
  | none => .ok false

def removesConstructorParameter : Rule Bool := fun cx s =>
  match s.typeChild? with
  | some type => isOutputHelper cx type
  | none => .ok false

/-- True for a name that output helpers usually have. -/
def isOutputName (name : String) : Bool :=
  let bare := Text.lower (String.ofList (name.toList.dropWhile (· == '_')))
  bare == "output" || Text.endsWith bare "outputhelper"

/-- A line that is written through the output helper goes to the console. -/
def outputCall (cx : Context) (s : Site) (call : View.Invocation) :
    Except Complaint (Option CallProposal) :=
  let receiver? := (s.firstChild?.filter fun c => c.kind == .memberAccessExpression).bind
    Site.firstChild?
  match receiver?, call.methodName? == some "WriteLine" with
  | some receiver, true => do
    let isTyped := ((← cx.typeOf receiver).map (·.is outputHelper)).getD false
    let isNamed := ((receiverName? call).map isOutputName).getD false
    if !(isTyped || isNamed) then return none
    let arguments := (call.argumentList?.map Node.text).getD "()"
    return some (.replacement s.text s!"Console.WriteLine{arguments}")
  | _, _ => .ok none

/-! ## Captured exceptions -/

/-- The variable that a site is the initial value of. -/
def initialized? (s : Site) : Option Site :=
  (((s.parent?.filter fun p => p.kind == .equalsValueClause).bind Site.parent?).filter fun d =>
    d.kind == .variableDeclarator)

/-- A variable that is declared with a captured exception is assigned in a `try` statement. -/
def captureCall (cx : Context) (s : Site) (call : View.Invocation) :
    Except Complaint (Option CallProposal) := do
  match ← frameworkCall? cx ["Xunit.Record"] s, initialized? s with
  | some _, some declarator =>
    let captured ← require .noDeclaratorName declarator.identifier?
    let lambda? := ((call.arguments.head?.bind View.Argument.expression?).filter fun e =>
      e.kind.isLambda)
    match lambda? with
    | none => return none
    | some lambda =>
      let body ← require .noLambdaBody lambda.childNodes.getLast?
      return some (.capture s.text captured body.text)
  | _, _ => return none

def call : Rule (Option CallProposal) := fun cx s =>
  match View.Invocation.of? s.node with
  | none => .ok none
  | some view =>
    if receiverName? view == some "Record" && view.methodName? == some "Exception" then
      captureCall cx s view
    else outputCall cx s view

/-! ## Rows of test data -/

/-- A container of rows becomes a sequence. Where it is created, it changes with its declaration. -/
def container : Rule (Option ContainerProposal) := fun cx s =>
  match View.GenericName.of? s.node with
  | none => .ok none
  | some name =>
    let isCreated := (s.parent?.map fun p =>
      p.kind == .objectCreationExpression || p.kind == .arrayCreationExpression).getD false
    if name.name? != some "TheoryData" || isCreated then .ok none
    else do
      if ((← cx.resolveType s).map fun symbol => !symbol.isIn space).getD false then return none
      match name.arguments.map Node.text with
      | [] => object (.without "TheoryData" "type arguments")
      | [single] => return some ⟨single, "IEnumerable"⟩
      | several =>
        let items := Text.joinWith ", " several
        return some ⟨inParentheses items, "IEnumerable"⟩

/-! ## The strategy -/

def imports (plan : Plan) : ImportDelta :=
  let delta := importsFor space plan
  if plan.hasRecord [.container] then delta.add "System.Collections.Generic" else delta

def strategy : Strategy where
  source := "xUnit"
  target := "TUnit"
  assertion := assertion
  removesMarker := removesMarker
  marker := marker
  removesBaseType := removesBaseType
  classes := classes
  removesMember := removesMember
  removesConstructorParameter := removesConstructorParameter
  call := call
  container := container
  imports plan := .ok (imports plan)

end Recast.Framework.XUnit
