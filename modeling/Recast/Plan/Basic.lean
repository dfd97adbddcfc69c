-- SUMMARY: Plans: the records made for one file, the imports that come and go, and the failures met on the way.
import Recast.Plan.Failure
import Recast.Plan.Import

/-! # Plans

A plan is what the analysis of a file comes to. It keeps its records in the order in which they
were made; `Plan.ordered` lists them in the order in which they are carried out, which sorts them
by kind and keeps the order of making within a kind. -/

namespace Recast

/-- What is to be done with a file. -/
structure Plan where
  /-- The name of the framework that the file is written for. -/
  source : String
  /-- The name of the framework that it is to be written for. -/
  target : String
  /-- The records in the order in which they were made. -/
  records : List Record := []
  imports : ImportDelta := {}
  failures : List Failure := []
  deriving DecidableEq, Repr

namespace Plan

/-- The plan with one more record. -/
def push (p : Plan) (record : Record) : Plan :=
  { p with records := p.records ++ [record] }

/-- The plan with one more failure. -/
def fail (p : Plan) (failure : Failure) : Plan :=
  { p with failures := p.failures ++ [failure] }

/-- The records of a kind. -/
def recordsOf (p : Plan) (kind : RecordKind) : List Record :=
  p.records.filter fun r => r.kind == kind

/-- The records in the order in which they are carried out. -/
def ordered (p : Plan) : List Record :=
  RecordKind.all.flatMap p.recordsOf

theorem mem_ordered {p : Plan} {r : Record} : r ∈ p.ordered ↔ r ∈ p.records := by
  simp [ordered, recordsOf, RecordKind.mem_all]

/-- The assertion changes, in the order of their records. -/
def assertions (p : Plan) : List AssertionChange :=
  p.records.filterMap fun r => r.change.assertion?

/-- The changes of method headers, in the order of their records. -/
def signatures (p : Plan) : List SignatureChange :=
  p.records.filterMap fun r => r.change.signature?

/-- True when there is a record of one of the kinds. -/
def hasRecord (p : Plan) (kinds : List RecordKind) : Bool :=
  p.records.any fun r => kinds.contains r.kind

/-- How many records there are of each kind. -/
def summary (p : Plan) : List (RecordKind × Nat) :=
  RecordKind.all.map fun kind => (kind, (p.recordsOf kind).length)

/-- All tags that the plan refers to: those of the records, then those of parts of containers. -/
def tags (p : Plan) : List Tag :=
  p.ordered.map Record.tag ++ p.ordered.flatMap fun r => r.change.partTags

/-- True when there is something to change. -/
def hasRecords (p : Plan) : Bool :=
  !p.records.isEmpty

def hasFailures (p : Plan) : Bool :=
  !p.failures.isEmpty

end Plan

end Recast
