import DiskLayers.Json.Reader
import DiskLayers.Json.Printer
import DiskLayers.Script.Operation

/-!
# Operations as JSON

An operation is a record whose field `kind` tells which other fields it has.  Other fields are
ignored.  A list of the kind and the values of the fields is accepted as well, and so is a
directive that is the only name of a record with an empty value.

* `Operation.toJson`    the record of an operation
* `Operation.ofJson?`   the operation of a record
* `Operation.read?`     the operation of a JSON text
-/

namespace DiskLayers.Operation

def toJson : Operation → Json
  | .base reference =>
    .ofFields [("kind", .ofString "base"), ("reference", .ofString reference)]
  | .mutate command =>
    .ofFields [("kind", .ofString "mutate"), ("command", .ofString command)]
  | .finalize command =>
    .ofFields [("kind", .ofString "finalize"), ("command", .ofString command)]
  | .metadata d text =>
    .ofFields
      [("kind", .ofString "metadata"), ("directive", .ofString d.keyword), ("text", .ofString text)]

/-- the directive a value names -/
def directiveOfJson? : Json → Option Directive
  | .text (some word) => Directive.ofKeyword? word
  | .record [(some word, .null)] => Directive.ofKeyword? word
  | .record [(some word, .record [])] => Directive.ofKeyword? word
  | _ => none

/-- the operation of a kind and the values of its fields -/
def ofKind? (kind : String) (field : Nat → String → Option Json) : Option Operation :=
  match kind with
  | "base" => do
    let value ← field 0 "reference"
    return .base (← value.toString?)
  | "mutate" => do
    let value ← field 0 "command"
    return .mutate (← value.toString?)
  | "finalize" => do
    let value ← field 0 "command"
    return .finalize (← value.toString?)
  | "metadata" => do
    let d ← field 0 "directive"
    let value ← field 1 "text"
    return .metadata (← directiveOfJson? d) (← value.toString?)
  | _ => none

/-- the number of fields of a kind -/
def fieldCount (kind : String) : Nat := if kind = "metadata" then 2 else 1

/-- lists and records may be nested this deep -/
def maxDepth : Nat := 127

/-- the operation of a record or a list -/
def ofJson? (value : Json) : Option Operation :=
  if value.isSound && value.depth ≤ maxDepth then
    match value with
    | .record fields => do
      let kind ← (← Json.field? "kind" fields).toString?
      ofKind? kind fun _ name => Json.field? name fields
    | .list (.text (some kind) :: values) =>
      if values.length = fieldCount kind then ofKind? kind fun i _ => values[i]? else none
    | _ => none
  else none

def read? (text : String) : Option Operation := (Json.parse? text).bind ofJson?

end DiskLayers.Operation
