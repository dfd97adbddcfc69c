-- SUMMARY: The assertions of the target framework, and the forms in which the assertions of source frameworks take their arguments.
import Recast.Framework.Rule

/-! # Assertions

The target framework asserts by `await Assert.That(actual).check`, perhaps followed by
`.Because(message)`. Most assertions of the source frameworks differ only in which argument is
the actual value and in the name of the check; their form says so. -/

namespace Recast.Framework

/-! ## Replacements -/

/-- The assertion that an actual value passes a check. -/
def assertThat (cx : Context) (actual check : String) (because : Option String := none) : String :=
  let reason := (because.map fun message => s!".Because({message})").getD ""
  s!"{cx.settings.awaitPrefix}Assert.That({actual}).{check}{reason}"

/-- The assertion that an action throws. -/
def assertThrows (cx : Context) (exception action : String) : String :=
  s!"{cx.settings.awaitPrefix}Assert.ThrowsAsync<{exception}>({action})"

/-- A call becomes an assertion that awaits. -/
def awaited (kind : String) (s : Site) (replacement : String) : Proposal AssertionChange :=
  ⟨s.text, { kind, replacement, awaits := true }⟩

/-- A call becomes another one that does not await. -/
def plain (kind : String) (s : Site) (replacement : String) : Proposal AssertionChange :=
  ⟨s.text, { kind, replacement }⟩

/-- The remark that something is left to be done by hand. -/
def todo (what : String) : String :=
  "// TODO: TUnit migration - " ++ what

/-- The proposal with a remark. -/
def withRemark (proposal : Proposal AssertionChange) (remark : String) : Proposal AssertionChange :=
  { proposal with change := { proposal.change with remark := some remark } }

/-! ## Arguments -/

/-- Objects to an assertion with fewer arguments than it needs. -/
def requireArguments (assertion : String) (wanted : Nat) (arguments : List String) :
    Except Complaint Unit :=
  if arguments.length < wanted then
    object (.tooFewArguments assertion wanted arguments.length)
  else .ok ()

/-- True for a string written in place. -/
def isStringLiteral (expression : Node) : Bool :=
  expression.kind == .literalExpression
    && (expression.firstToken?.map fun t => t.kind == .string || t.kind == .interpolated).getD false

/-- The message of an assertion: the argument with one of the names, or the string written at an
    index. -/
def stringMessage? (names : List String) (arguments : List View.Argument) (index : Nat) :
    Option String :=
  let isNamed (a : View.Argument) : Bool := (a.name?.map names.contains).getD false
  match arguments.find? isNamed with
  | some a => some a.valueText
  | none =>
    ((arguments[index]?.filter fun a => a.name?.isNone).bind View.Argument.expression?).bind
      fun e => if isStringLiteral e then some e.text else none

/-! ## Forms -/

/-- Which argument of an assertion is the actual value, and what is checked of it. The expected
    value, when there is one, stands between the two parts of the check. -/
inductive Form where
  | about (check : String)
  | expectedFirst (opening closing : String)
  | actualFirst (opening closing : String)
  deriving DecidableEq, Repr

namespace Form

/-- The expected value comes first and is the argument of the check. -/
def expecting (check : String) : Form :=
  .expectedFirst (check ++ "(") ")"

/-- The actual value comes first and the other one is the argument of the check. -/
def comparing (check : String) : Form :=
  .actualFirst (check ++ "(") ")"

/-- How many arguments an assertion of the form needs. A message may follow them. -/
def arity : Form → Nat
  | .about _ => 1
  | .expectedFirst .. | .actualFirst .. => 2

/-- The actual value and the check that arguments come to. -/
def read? : Form → List String → Option (String × String)
  | .about check, actual :: _ => some (actual, check)
  | .expectedFirst opening closing, expected :: actual :: _ =>
    some (actual, opening ++ expected ++ closing)
  | .actualFirst opening closing, actual :: expected :: _ =>
    some (actual, opening ++ expected ++ closing)
  | _, _ => none

theorem isSome_read? (form : Form) (arguments : List String) :
    (form.read? arguments).isSome = true ↔ form.arity ≤ arguments.length := by
  cases form <;> cases arguments with
  | nil => simp [read?, arity]
  | cons _ rest => cases rest <;> simp [read?, arity]

/-- The assertion of the target framework for one of a form. `message?` gives the message that
    stands at an index. -/
def convert (form : Form) (cx : Context) (assertion : String) (s : Site) (arguments : List String)
    (message? : Nat → Option String) : Except Complaint (Proposal AssertionChange) := do
  let (actual, check) ←
    require (.tooFewArguments assertion form.arity arguments.length) (form.read? arguments)
  return awaited assertion s (assertThat cx actual check (message? form.arity))

variable {form : Form} {cx : Context} {assertion : String} {s : Site} {arguments : List String}
  {message? : Nat → Option String} {p : Proposal AssertionChange}

/-- Nothing is left to be done by hand. -/
theorem remark_convert (h : form.convert cx assertion s arguments message? = .ok p) :
    p.change.remark = none := by
  unfold convert at h
  cases hread : form.read? arguments with
  | none => rw [hread] at h; cases h
  | some pair => rw [hread] at h; cases h; rfl

theorem remark_map_convert
    (h : some <$> form.convert cx assertion s arguments message? = .ok (some p)) :
    p.change.remark = none := by
  cases hconvert : form.convert cx assertion s arguments message? with
  | error complaint => rw [hconvert] at h; cases h
  | ok proposal =>
    rw [hconvert] at h
    cases h
    exact remark_convert hconvert

end Form

end Recast.Framework
