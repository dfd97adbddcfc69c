-- SUMMARY: Catalogs of types declared outside a file: look-up by namespace, name and arity, merging, and reading from JSON.
import Recast.Settings

/-! # Catalogs

A catalog describes types that a file uses and does not declare. Its entries are told apart by
namespace, name and arity. Adding an entry replaces the one with the same identity; merging adds
the entries of another catalog one after the other, so those win. -/

namespace Recast

/-- What kind of type it is. -/
inductive TypeKind where
  | classType
  | struct
  | interface
  | enum
  | record
  deriving DecidableEq, Repr

namespace TypeKind

def name : TypeKind → String
  | .classType => "class"
  | .struct => "struct"
  | .interface => "interface"
  | .enum => "enum"
  | .record => "record"

def all : List TypeKind :=
  [.classType, .struct, .interface, .enum, .record]

end TypeKind

/-- What kind of member it is. -/
inductive MemberKind where
  | method
  | property
  | field
  deriving DecidableEq, Repr

namespace MemberKind

def name : MemberKind → String
  | .method => "method"
  | .property => "property"
  | .field => "field"

def all : List MemberKind :=
  [.method, .property, .field]

end MemberKind

/-- A member of a type. -/
structure MemberInfo where
  name : String
  kind : MemberKind
  isStatic : Bool := false
  /-- The full name of the member's type, of the result for a method. -/
  typeName : Option String := none
  deriving DecidableEq, Repr

/-- A type. -/
structure TypeInfo where
  /-- The namespace of the type, empty for none. -/
  space : String
  name : String
  arity : Nat := 0
  kind : TypeKind
  /-- The known members. None at all means that members are not listed and any name is taken. -/
  members : List MemberInfo := []
  /-- The full names of the interfaces that the type lists. -/
  interfaces : List String := []
  deriving DecidableEq, Repr

namespace TypeInfo

/-- A class without listed members. -/
def ofClass (space name : String) : TypeInfo :=
  { space, name, kind := .classType }

/-- An interface without listed members. -/
def ofInterface (space name : String) : TypeInfo :=
  { space, name, kind := .interface }

/-- The type with further methods. -/
def withMethods (t : TypeInfo) (names : List String) (isStatic : Bool := false) : TypeInfo :=
  { t with members := t.members ++ names.map fun name => { name, kind := .method, isStatic } }

/-- The type with another arity. -/
def withArity (t : TypeInfo) (arity : Nat) : TypeInfo :=
  { t with arity }

/-- The type with a further interface. -/
def implementing (t : TypeInfo) (interface : String) : TypeInfo :=
  { t with interfaces := t.interfaces ++ [interface] }

def fullName (t : TypeInfo) : String :=
  Text.qualify t.space t.name

/-- The first member with a name. -/
def member? (t : TypeInfo) (name : String) : Option MemberInfo :=
  t.members.find? fun m => m.name == name

/-- True when the type has the member, or its members are not listed. -/
def accepts (t : TypeInfo) (name : String) : Bool :=
  t.members.isEmpty || (t.member? name).isSome

/-- True when the entry has this identity. -/
def hasIdentity (t : TypeInfo) (space name : String) (arity : Nat) : Bool :=
  t.space == space && t.name == name && t.arity == arity

end TypeInfo

/-- Types declared elsewhere. -/
structure Catalog where
  types : List TypeInfo := []
  deriving DecidableEq, Repr

namespace Catalog

/-- The entries with one replaced or added at the end. -/
def addTo (info : TypeInfo) : List TypeInfo → List TypeInfo
  | [] => [info]
  | t :: ts =>
    if t.hasIdentity info.space info.name info.arity then info :: ts else t :: addTo info ts

/-- The catalog with an entry in the place of the one with the same identity. -/
def add (c : Catalog) (info : TypeInfo) : Catalog :=
  ⟨addTo info c.types⟩

/-- The catalog with all entries of another added. -/
def merge (c other : Catalog) : Catalog :=
  other.types.foldl add c

/-- The entry with an identity. -/
def lookup? (c : Catalog) (space name : String) (arity : Nat) : Option TypeInfo :=
  c.types.find? fun t => t.hasIdentity space name arity

/-- The first entry of least arity. -/
def leastArity? : List TypeInfo → Option TypeInfo
  | [] => none
  | t :: ts =>
    match leastArity? ts with
    | none => some t
    | some u => if t.arity ≤ u.arity then some t else some u

/-- The entry of least arity with a full name. -/
def lookupFullName? (c : Catalog) (fullName : String) : Option TypeInfo :=
  let (space, name) := Text.splitName fullName
  leastArity? (c.types.filter fun t => t.space == space && t.name == name)

/-- True when a type lies in the namespace or below it. -/
def hasNamespace (c : Catalog) (space : String) : Bool :=
  c.types.any fun t => Text.isUnder space t.space

/-! ## Reading -/

def memberOfJson? (value : JsonValue) : Option MemberInfo := do
  match ← value.fields? ["name", "kind", "is_static", "type_name"] with
  | [name, kind, isStatic, typeName] =>
    return {
      name := ← JsonValue.required JsonValue.asText? name
      kind := ← JsonValue.required
        (JsonValue.asName? (MemberKind.all.map fun k => (k.name, k))) kind
      isStatic := ← JsonValue.orDefault JsonValue.asBool? false isStatic
      typeName := ← JsonValue.orDefault (JsonValue.asOption? JsonValue.asText?) none typeName }
  | _ => none

def typeOfJson? (value : JsonValue) : Option TypeInfo := do
  match ← value.fields? ["namespace", "name", "arity", "kind", "members", "interfaces"] with
  | [space, name, arity, kind, members, interfaces] =>
    return {
      space := ← JsonValue.required JsonValue.asText? space
      name := ← JsonValue.required JsonValue.asText? name
      arity := ← JsonValue.orDefault JsonValue.asCount? 0 arity
      kind := ← JsonValue.required (JsonValue.asName? (TypeKind.all.map fun k => (k.name, k))) kind
      members := ← JsonValue.orDefault (JsonValue.asList? memberOfJson?) [] members
      interfaces := ← JsonValue.orDefault (JsonValue.asList? JsonValue.asText?) [] interfaces }
  | _ => none

def ofJson? (value : JsonValue) : Option Catalog := do
  match ← value.fields? ["types"] with
  | [types] => return ⟨← JsonValue.required (JsonValue.asList? typeOfJson?) types⟩
  | _ => none

/-- A catalog from a text. Its entries are taken as they stand, identities are not compared. -/
def parse (source : String) : Except SettingsError Catalog :=
  match (JsonValue.parse? source).bind ofJson? with
  | some catalog => .ok catalog
  | none => .error .malformed

end Catalog

end Recast
