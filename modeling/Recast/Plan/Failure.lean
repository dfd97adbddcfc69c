-- SUMMARY: The phases of a migration, and failures: what could not be changed, in which phase and why.
import Recast.Plan.Record

/-! # Failures

A migration goes on when something cannot be changed and records a failure instead. A failure
names the phase it arose in: the analysis of a topic, the edit that carries out a kind of record,
or the edit of the imports. -/

namespace Recast

/-- What analysis looks for. -/
inductive Topic where
  | assertion
  | marker
  | parameterMarker
  | missingMarker
  | baseType
  | member
  | constructorParameter
  | call
  | container
  | signature
  | visibility
  | imports
  deriving DecidableEq, Repr

namespace Topic

def all : List Topic :=
  [.assertion, .marker, .parameterMarker, .missingMarker, .baseType, .member, .constructorParameter,
    .call, .container, .signature, .visibility, .imports]

def name : Topic → String
  | .assertion => "AssertionAnalysis"
  | .marker => "MarkerAnalysis"
  | .parameterMarker => "ParameterMarkerAnalysis"
  | .missingMarker => "MissingMarkerAnalysis"
  | .baseType => "BaseTypeAnalysis"
  | .member => "MemberAnalysis"
  | .constructorParameter => "ConstructorParameterAnalysis"
  | .call => "InvocationAnalysis"
  | .container => "GenericContainerAnalysis"
  | .signature => "MethodSignatureAnalysis"
  | .visibility => "VisibilityAnalysis"
  | .imports => "ImportAnalysis"

end Topic

/-- A step of a migration. -/
inductive Phase where
  /-- Looking for what is to be changed. -/
  | analysis (topic : Topic)
  /-- Carrying out records of a kind. -/
  | edit (kind : RecordKind)
  /-- Adding and removing imports. -/
  | importEdit
  deriving DecidableEq, Repr

namespace Phase

def all : List Phase :=
  Topic.all.map .analysis ++ RecordKind.all.map .edit ++ [.importEdit]

/-- The name of a phase in reports. Additions and removals are named as their records are, the
    other edits by what they transform. -/
def name : Phase → String
  | .analysis topic => topic.name
  | .edit .signature => "MethodSignatureTransformation"
  | .edit .exceptionCapture => "ExceptionCaptureTransformation"
  | .edit .callReplacement => "InvocationReplacementTransformation"
  | .edit .container => "GenericContainerTransformation"
  | .edit .assertion => "AssertionTransformation"
  | .edit .marker => "MarkerTransformation"
  | .edit .parameterMarker => "ParameterMarkerTransformation"
  | .edit kind => kind.name
  | .importEdit => "ImportTransformation"

def ofName? (name : String) : Option Phase :=
  all.find? fun p => p.name == name

/-- A phase is found by its name. -/
theorem ofName?_name (p : Phase) : ofName? p.name = some p := by
  cases p with
  | analysis topic => cases topic <;> decide
  | edit kind => cases kind <;> decide
  | importEdit => decide

/-- No two phases have the same name. -/
theorem name_injective {p q : Phase} (h : p.name = q.name) : p = q := by
  rw [← Option.some.injEq, ← ofName?_name p, h, ofName?_name]

def isAnalysis : Phase → Bool
  | .analysis _ => true
  | _ => false

end Phase

/-- Something that could not be changed. -/
structure Failure where
  phase : Phase
  description : String
  /-- The text that was found. -/
  written : String
  deriving DecidableEq, Repr

/-- A failure in one line. -/
def Failure.render (f : Failure) : String :=
  s!"{f.phase.name}: {f.description}"

end Recast
