-- SUMMARY: The settings of a migration: the words that replacement text is made of, and how they are read from JSON.
import Recast.Json.Decode

/-! # Settings

The settings name the words of the target code: the modifier and the operator of asynchronous
code, the types that wrap a result, the parts of an exception capture. Each has a default. -/

namespace Recast

/-- What a migration can be told. -/
structure Settings where
  /-- The modifier of methods that await. -/
  asyncKeyword : String := "async"
  /-- The operator in front of awaited text. -/
  awaitKeyword : String := "await"
  /-- What is appended to text that cannot be awaited. -/
  blockingWait : String := ".Wait()"
  /-- The return type of methods that await. -/
  wrapper : String := "Task"
  /-- The value type that the wrapper takes the place of. -/
  valueWrapper : String := "ValueTask"
  /-- The namespace of both wrappers. -/
  wrapperNamespace : String := "System.Threading.Tasks"
  /-- The type of the variable that an exception capture declares. -/
  exceptionType : String := "Exception"
  /-- The variable of the catch clause of an exception capture. -/
  catchVariable : String := "e"
  /-- One level of indentation. -/
  indent : String := "    "
  /-- The label of the failure banner, the name of the target framework when unset. -/
  targetLabel : Option String := none
  /-- Put the failure banner on top of the file when something failed. -/
  emitBanner : Bool := true
  deriving DecidableEq, Repr

/-- Why settings or a catalog could not be had. -/
inductive SettingsError where
  /-- The text is not what was asked for. -/
  | malformed
  /-- There is no such file. -/
  | unreadable
  deriving DecidableEq, Repr

namespace Settings

/-- The keys of the settings, in order. -/
def keys : List String :=
  ["async_keyword", "await_keyword", "blocking_wait", "wrapper", "value_wrapper",
    "wrapper_namespace", "exception_type", "catch_variable", "indent", "target_label",
    "emit_banner"]

/-- Settings from JSON; missing keys take their defaults. -/
def ofJson? (value : JsonValue) : Option Settings := do
  let standard : Settings := {}
  match ← value.fields? keys with
  | [asyncKeyword, awaitKeyword, blockingWait, wrapper, valueWrapper, wrapperNamespace,
      exceptionType, catchVariable, indent, targetLabel, emitBanner] =>
    let text := JsonValue.orDefault JsonValue.asText?
    return {
      asyncKeyword := ← text standard.asyncKeyword asyncKeyword
      awaitKeyword := ← text standard.awaitKeyword awaitKeyword
      blockingWait := ← text standard.blockingWait blockingWait
      wrapper := ← text standard.wrapper wrapper
      valueWrapper := ← text standard.valueWrapper valueWrapper
      wrapperNamespace := ← text standard.wrapperNamespace wrapperNamespace
      exceptionType := ← text standard.exceptionType exceptionType
      catchVariable := ← text standard.catchVariable catchVariable
      indent := ← text standard.indent indent
      targetLabel := ← JsonValue.orDefault (JsonValue.asOption? JsonValue.asText?)
        standard.targetLabel targetLabel
      emitBanner := ← JsonValue.orDefault JsonValue.asBool? standard.emitBanner emitBanner }
  | _ => none

/-- Settings from a text. -/
def parse (source : String) : Except SettingsError Settings :=
  match (JsonValue.parse? source).bind ofJson? with
  | some settings => .ok settings
  | none => .error .malformed

/-- Settings from what a file holds, when it can be read. -/
def ofFile : Option String → Except SettingsError Settings
  | some source => parse source
  | none => .error .unreadable

/-- The await operator as it stands in front of an expression. -/
def awaitPrefix (s : Settings) : String :=
  s.awaitKeyword ++ " "

/-- True when a type is one of the wrappers, plain or with type arguments, perhaps qualified. -/
def isWrapped (s : Settings) (type : String) : Bool :=
  let bare := (Text.after? (s.wrapperNamespace ++ ".") type).getD type
  [s.wrapper, s.valueWrapper].any fun name =>
    bare == name || ((Text.after? name bare).map (Text.startsWith · "<")).getD false

end Settings

end Recast
