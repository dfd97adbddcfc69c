-- SUMMARY: Decoding of JSON values into records, enumerations, lists and plain data.
import Recast.Json.Basic

/-! # Decoding

A record is written as an object, or as an array of its fields in order. An object may hold other
keys, which are ignored with what they hold; a key of the record may not be repeated, and each key
of the object itself has to be a text. A field that has a default may be missing. -/

namespace Recast.JsonValue

/-- A string. -/
def asText? : JsonValue → Option String
  | .text value => value
  | _ => none

def asBool? : JsonValue → Option Bool
  | .bool value => some value
  | _ => none

/-- The value of a run of decimal digits. -/
def digitsValue (cs : List Char) : Nat :=
  cs.foldl (fun n c => n * 10 + (c.toNat - '0'.toNat)) 0

/-- A count: a whole number without sign, fraction or exponent that fits into 64 bits. -/
def asCount? : JsonValue → Option Nat
  | .number digits =>
    if digits.toList.all Text.isAsciiDigit && digitsValue digits.toList < UInt64.size then
      some (digitsValue digits.toList)
    else none
  | _ => none

/-- A list of decoded items. -/
def asList? {α : Type} (item : JsonValue → Option α) : JsonValue → Option (List α)
  | .array items => items.mapM item
  | _ => none

/-- A value, or `null` for none. -/
def asOption? {α : Type} (item : JsonValue → Option α) : JsonValue → Option (Option α)
  | .null => some none
  | value => (item value).map some

/-- One of several names: as a string, or as an object with the name as its only key over
    `null`. -/
def asName? {α : Type} (names : List (String × α)) : JsonValue → Option α
  | .text (some name) => names.lookup name
  | .object [(some name, .null)] => names.lookup name
  | _ => none

/-- The fields of a record in the order of their names, each of which may be missing. -/
def fields? (names : List String) : JsonValue → Option (List (Option JsonValue))
  | .object entries =>
    if entries.all (fun (key, _) => key.isSome)
        && names.all (fun name => (entries.filter fun (key, _) => key == some name).length ≤ 1) then
      some (names.map fun name => entries.lookup (some name))
    else none
  | .array items =>
    if items.length ≤ names.length then some ((List.range names.length).map fun i => items[i]?)
    else none
  | _ => none

/-- A field that has to be there. -/
def required {α : Type} (decode : JsonValue → Option α) (field : Option JsonValue) : Option α :=
  field.bind decode

/-- A field with a default. -/
def orDefault {α : Type} (decode : JsonValue → Option α) (fallback : α) :
    Option JsonValue → Option α
  | none => some fallback
  | some value => decode value

end Recast.JsonValue
