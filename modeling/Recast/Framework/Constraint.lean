-- SUMMARY: Constraints of NUnit: chains such as `Is.Not.EqualTo(5).Within(2)`, and the checks that they stand for.
import Recast.View.Basic

/-! # Constraints

A constraint is written as a chain of names, of which some are called. Most chains stand for one
check of the target framework; a last link `Within` adds a tolerance to the check of the rest.
Chains that stand for none are left to a human. -/

namespace Recast.Framework

/-- A name in a chain, with its type arguments and, when it is called, its arguments. -/
structure Link where
  name : String
  typeArguments : List String := []
  arguments : Option (List String) := none
  deriving DecidableEq, Repr

namespace Link

/-- The link that a name makes. -/
def ofName? (n : Node) : Option Link :=
  match n.kind with
  | .identifierName => n.identifier?.map fun name => { name }
  | .genericName =>
    match n.identifier?, View.GenericName.of? n with
    | some name, some generic => some { name, typeArguments := generic.arguments.map Node.text }
    | _, _ => none
  | _ => none

/-- An argument of a link that is called. -/
def argument? (l : Link) (index : Nat) : Option String :=
  l.arguments.bind fun arguments => arguments[index]?

/-- A check of a link's first argument. -/
def withArgument? (l : Link) (check : String) : Option String :=
  (l.argument? 0).map fun x => s!"{check}({x})"

/-- A check of a link's only type argument. -/
def withType? (l : Link) (check : String) : Option String :=
  match l.typeArguments with
  | [type] => some s!"{check}<{type}>()"
  | _ => none

end Link

namespace Chain

/-! ## Reading -/

/-- The chain with its last link called, which it must not be yet. -/
def called? (arguments : List String) (chain : List Link) : Option (List Link) :=
  match chain.getLast? with
  | some { name, typeArguments, arguments := none } =>
    some (chain.dropLast ++ [{ name, typeArguments, arguments := some arguments }])
  | _ => none

/-- The links of an expression, looked for at most `bound` calls and accesses down. -/
def within? : (bound : Nat) → Node → Option (List Link)
  | 0, _ => none
  | bound + 1, n =>
    match n.kind with
    | .identifierName | .genericName => (Link.ofName? n).map fun link => [link]
    | .memberAccessExpression =>
      match n.childNodes with
      | left :: name :: _ => do return (← within? bound left) ++ [← Link.ofName? name]
      | _ => none
    | .invocationExpression => do
      let call ← View.Invocation.of? n
      called? call.argumentTexts (← within? bound (← call.callee?))
    | _ => none

/-- The links of an expression. -/
def of? (n : Node) : Option (List Link) :=
  within? n.size n

end Chain

/-! ## Checks -/

/-- What a constraint stands for. -/
inductive Check where
  /-- A check of the actual value. -/
  | that (check : String)
  /-- The actual value is an action that throws. -/
  | throws (exception : String)
  deriving DecidableEq, Repr

/-- How the last link of a chain makes a check, when it is called. -/
inductive CalledCheck where
  | argument (check : String)
  | generic (check : String)
  | range
  | count
  | throws
  deriving DecidableEq, Repr

namespace Check

/-- The chains that end in a call. -/
def calledChains : List (List String × CalledCheck) :=
  [(["Is", "EqualTo"], .argument "IsEqualTo"),
    (["Is", "Not", "EqualTo"], .argument "IsNotEqualTo"),
    (["Is", "SameAs"], .argument "IsSameReferenceAs"),
    (["Is", "Not", "SameAs"], .argument "IsNotSameReferenceAs"),
    (["Is", "EquivalentTo"], .argument "IsEquivalentTo"),
    (["Is", "Not", "EquivalentTo"], .argument "IsNotEquivalentTo"),
    (["Is", "InstanceOf"], .generic "IsAssignableTo"),
    (["Is", "AssignableTo"], .generic "IsAssignableTo"),
    (["Is", "TypeOf"], .generic "IsTypeOf"),
    (["Is", "Not", "InstanceOf"], .generic "IsNotAssignableTo"),
    (["Is", "Not", "AssignableTo"], .generic "IsNotAssignableTo"),
    (["Is", "Not", "TypeOf"], .generic "IsNotTypeOf"),
    (["Is", "GreaterThan"], .argument "IsGreaterThan"),
    (["Is", "Not", "LessThanOrEqualTo"], .argument "IsGreaterThan"),
    (["Is", "GreaterThanOrEqualTo"], .argument "IsGreaterThanOrEqualTo"),
    (["Is", "Not", "LessThan"], .argument "IsGreaterThanOrEqualTo"),
    (["Is", "LessThan"], .argument "IsLessThan"),
    (["Is", "Not", "GreaterThanOrEqualTo"], .argument "IsLessThan"),
    (["Is", "LessThanOrEqualTo"], .argument "IsLessThanOrEqualTo"),
    (["Is", "Not", "GreaterThan"], .argument "IsLessThanOrEqualTo"),
    (["Is", "InRange"], .range),
    (["Does", "StartWith"], .argument "StartsWith"),
    (["Does", "EndWith"], .argument "EndsWith"),
    (["Does", "Contain"], .argument "Contains"),
    (["Has", "Member"], .argument "Contains"),
    (["Does", "Match"], .argument "Matches"),
    (["Does", "Not", "StartWith"], .argument "DoesNotStartWith"),
    (["Does", "Not", "EndWith"], .argument "DoesNotEndWith"),
    (["Does", "Not", "Contain"], .argument "DoesNotContain"),
    (["Has", "No", "Member"], .argument "DoesNotContain"),
    (["Does", "Not", "Match"], .argument "DoesNotMatch"),
    (["Has", "Count", "EqualTo"], .count),
    (["Has", "Length", "EqualTo"], .count),
    (["Throws", "TypeOf"], .throws),
    (["Throws", "InstanceOf"], .throws)]

/-- The chains that end in a property. -/
def propertyChains : List (List String × Check) :=
  [(["Throws", "Exception"], .throws "Exception"),
    (["Throws", "Nothing"], .that "ThrowsNothing()"),
    (["Is", "True"], .that "IsTrue()"), (["Is", "False"], .that "IsFalse()"),
    (["Is", "Null"], .that "IsNull()"), (["Is", "Not", "Null"], .that "IsNotNull()"),
    (["Is", "Empty"], .that "IsEmpty()"), (["Is", "Not", "Empty"], .that "IsNotEmpty()"),
    (["Is", "Positive"], .that "IsPositive()"), (["Is", "Negative"], .that "IsNegative()"),
    (["Is", "Zero"], .that "IsZero()"), (["Is", "Not", "Zero"], .that "IsNotZero()"),
    (["Is", "NaN"], .that "IsNaN()"), (["Is", "Not", "NaN"], .that "IsNotNaN()"),
    (["Is", "Ordered"], .that "IsInOrder()"),
    (["Is", "Ordered", "Ascending"], .that "IsInOrder()"),
    (["Is", "Ordered", "Descending"], .that "IsInDescendingOrder()"),
    (["Is", "Unique"], .that "HasDistinctItems()")]

/-- The check that a called link makes. -/
def ofCall? (last : Link) : CalledCheck → Option Check
  | .argument check => (last.withArgument? check).map .that
  | .generic check => (last.withType? check).map .that
  | .range =>
    match last.argument? 0, last.argument? 1 with
    | some low, some high => some (.that s!"IsInRange({low}, {high})")
    | _, _ => none
  | .count => (last.withArgument? "Count().IsEqualTo").map .that
  | .throws =>
    match last.typeArguments with
    | [type] => some (.throws type)
    | _ => none

/-- The check of a chain without a tolerance at its end. -/
def ofNames? (chain : List Link) : Option Check :=
  let names := chain.map Link.name
  chain.getLast?.bind fun last =>
    if last.arguments.isSome then (calledChains.lookup names).bind (ofCall? last)
    else propertyChains.lookup names

/-- A check with a tolerance. -/
def tolerate? (tolerance : Link) : Check → Option Check
  | .that check => (tolerance.argument? 0).map fun x => .that s!"{check}.Within({x})"
  | .throws _ => none

/-- The check of a chain that is given from its end. -/
def ofReversed? : List Link → Option Check
  | [] => none
  | [only] => ofNames? [only]
  | last :: inner :: rest =>
    if last.name == "Within" then (ofReversed? (inner :: rest)).bind (tolerate? last)
    else ofNames? (last :: inner :: rest).reverse

/-- The check that a constraint stands for. -/
def of? (constraint : Node) : Option Check :=
  (Chain.of? constraint).bind fun chain => ofReversed? chain.reverse

end Check

end Recast.Framework
