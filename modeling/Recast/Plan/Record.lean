-- SUMMARY: Records: one planned change each, with the tag of the node it is for and the text that was found there.
import Recast.Tree.Node

/-! # Records

A record says what is to become of one node. It names the node by a tag, keeps the text that was
found there, and carries all that is needed to carry the change out later, when nothing is known
of the program but its tree.

Records come in kinds. `RecordKind.all` lists them in the order in which they are carried out. -/

namespace Recast

/-! ## Kinds -/

/-- What sort of change a record asks for. -/
inductive RecordKind where
  | exceptionCapture
  | callReplacement
  | container
  | assertion
  | signature
  | methodMarker
  | marker
  | parameterMarker
  | markerRemoval
  | baseTypeRemoval
  | baseTypeAddition
  | classMarker
  | memberRemoval
  | parameterRemoval
  deriving DecidableEq, Repr

namespace RecordKind

/-- All kinds, in the order in which records are carried out. -/
def all : List RecordKind :=
  [.exceptionCapture, .callReplacement, .container, .assertion, .signature, .methodMarker, .marker,
    .parameterMarker, .markerRemoval, .baseTypeRemoval, .baseTypeAddition, .classMarker,
    .memberRemoval, .parameterRemoval]

theorem mem_all (k : RecordKind) : k ∈ all := by
  cases k <;> decide

theorem nodup_all : all.Nodup := by
  decide

/-- The name of a kind in reports. -/
def name : RecordKind → String
  | .exceptionCapture => "ExceptionCapture"
  | .callReplacement => "InvocationReplacement"
  | .container => "GenericContainer"
  | .assertion => "Assertion"
  | .signature => "MethodSignatureChange"
  | .methodMarker => "MethodMarkerAddition"
  | .marker => "Marker"
  | .parameterMarker => "ParameterMarker"
  | .markerRemoval => "MarkerRemoval"
  | .baseTypeRemoval => "BaseTypeRemoval"
  | .baseTypeAddition => "BaseTypeAddition"
  | .classMarker => "ClassMarkerAddition"
  | .memberRemoval => "MemberRemoval"
  | .parameterRemoval => "ConstructorParameterRemoval"

end RecordKind

/-! ## Changes -/

/-- What becomes of the argument list of a marker. -/
inductive ArgumentEdit where
  | keep
  | remove
  /-- This argument list, parentheses included, takes its place. -/
  | replace (text : String)
  deriving DecidableEq, Repr

/-- What becomes of the return type of a method. -/
inductive ReturnEdit where
  | keep
  /-- `void` becomes the wrapper. -/
  | voidToWrapper
  /-- A type `T` becomes the wrapper of `T`. -/
  | wrap (type : String)
  /-- The value wrapper becomes the wrapper, its type arguments stay. -/
  | valueWrapperToWrapper
  deriving DecidableEq, Repr

/-- An assertion call becomes another expression. -/
structure AssertionChange where
  /-- The name of the assertion. -/
  kind : String
  replacement : String
  /-- True when the replacement awaits, so that its method has to be asynchronous. -/
  awaits : Bool := false
  /-- A comment for the line above the statement. -/
  remark : Option String := none
  deriving DecidableEq, Repr

/-- A marker put beside a changed one. -/
structure ExtraMarker where
  name : String
  /-- The argument list with parentheses, when there is one. -/
  arguments : Option String := none
  deriving DecidableEq, Repr

/-- A marker gets another name and perhaps other arguments and company. -/
structure MarkerChange where
  name : String
  arguments : ArgumentEdit := .keep
  additional : List ExtraMarker := []
  deriving DecidableEq, Repr

/-- A method header changes. -/
structure SignatureChange where
  addAsync : Bool := false
  returnType : ReturnEdit := .keep
  makePublic : Bool := false
  deriving DecidableEq, Repr

namespace SignatureChange

/-- Both changes in one. The return type is the first one's, unless that keeps it. -/
def merge (first second : SignatureChange) : SignatureChange where
  addAsync := first.addAsync || second.addAsync
  returnType := if first.returnType = .keep then second.returnType else first.returnType
  makePublic := first.makePublic || second.makePublic

/-- True when nothing changes. -/
def isNoop (c : SignatureChange) : Bool :=
  !c.addAsync && !c.makePublic && c.returnType == .keep

theorem isNoop_iff (c : SignatureChange) : c.isNoop = true ↔ c = {} := by
  obtain ⟨addAsync, returnType, makePublic⟩ := c
  cases addAsync <;> cases makePublic <;> simp [isNoop]

theorem merge_assoc (a b c : SignatureChange) : (a.merge b).merge c = a.merge (b.merge c) := by
  by_cases h : a.returnType = .keep <;> simp [merge, h, Bool.or_assoc]

end SignatureChange

/-- A container of rows becomes a sequence type, and what creates it an array of rows. -/
structure ContainerChange where
  /-- The type of a row, a tuple when the container has several type arguments. -/
  element : String
  /-- The name of the sequence type. -/
  container : String
  /-- Names the declared type, when the container is one. -/
  typeTag : Option Tag := none
  /-- Names the expression that creates the container, when there is one. -/
  creationTag : Option Tag := none
  deriving DecidableEq, Repr

/-- What is to become of a node. -/
inductive Change where
  /-- A declaration that captures an exception becomes a variable and a `try` statement. -/
  | exceptionCapture (captured body : String)
  /-- A call becomes another expression. -/
  | callReplacement (replacement : String)
  | container (change : ContainerChange)
  | assertion (change : AssertionChange)
  | signature (change : SignatureChange)
  /-- A method gets a marker, given without brackets, and perhaps another return type. -/
  | methodMarker (marker : String) (returnType : Option String)
  | marker (change : MarkerChange)
  /-- The marker of a parameter gets another name. -/
  | parameterMarker (name : String) (arguments : ArgumentEdit)
  | markerRemoval
  | baseTypeRemoval (type : String)
  | baseTypeAddition (type : String)
  /-- A type gets a marker, given without brackets. -/
  | classMarker (marker : String)
  | memberRemoval (name : String)
  | parameterRemoval (name type : String)
  deriving DecidableEq, Repr

namespace Change

def kind : Change → RecordKind
  | .exceptionCapture .. => .exceptionCapture
  | .callReplacement _ => .callReplacement
  | .container _ => .container
  | .assertion _ => .assertion
  | .signature _ => .signature
  | .methodMarker .. => .methodMarker
  | .marker _ => .marker
  | .parameterMarker .. => .parameterMarker
  | .markerRemoval => .markerRemoval
  | .baseTypeRemoval _ => .baseTypeRemoval
  | .baseTypeAddition _ => .baseTypeAddition
  | .classMarker _ => .classMarker
  | .memberRemoval _ => .memberRemoval
  | .parameterRemoval .. => .parameterRemoval

def assertion? : Change → Option AssertionChange
  | .assertion change => some change
  | _ => none

def signature? : Change → Option SignatureChange
  | .signature change => some change
  | _ => none

/-- The tags of a change besides that of its record: those of the parts of a container. -/
def partTags : Change → List Tag
  | .container change => change.typeTag.toList ++ change.creationTag.toList
  | _ => []

end Change

/-! ## Records -/

/-- A planned change of the node with a tag. -/
structure Record where
  tag : Tag
  /-- The text that was found. -/
  written : String
  change : Change
  deriving DecidableEq, Repr

def Record.kind (r : Record) : RecordKind :=
  r.change.kind

end Recast
