import DiscoveryGrpc.Json.Basic
import DiscoveryGrpc.Json.Printer

/-!
# Schemas as they are written

A declaration is a schema of a document before anything about it is checked: every member may be
missing, and an absent member differs from an empty one. `Declaration.read` reads it from JSON,
`Declaration.toJson` writes it with its members sorted by key.

Two declarations describe the same structure when they agree up to documentation. The canonical
text of a declaration is the compact JSON of what is left without documentation; inline schemas are
recognised by it.
-/

namespace DiscoveryGrpc.Api

/-- The members of a schema that are not schemas themselves. -/
structure Attributes where
  id : Option String := none
  type : Option String := none
  reference : Option String := none
  description : Option String := none
  format : Option String := none
  enumValues : Option (List String) := none
  enumDescriptions : Option (List String) := none
  required : Option Bool := none
  repeated : Option Bool := none
  deprecated : Option Bool := none
  location : Option String := none
  pattern : Option String := none
  default : Option String := none
  deriving DecidableEq, Repr

/-- A schema as it is written. -/
structure Declaration extends Attributes where
  properties : Option (List (String × Declaration)) := none
  items : Option Declaration := none
  additional : Option Declaration := none

namespace Declaration

/-! ## Reading -/

/-- The keys of a schema, in the order in which an array gives their values. -/
def keys : List String :=
  ["id", "type", "$ref", "description", "format", "properties", "items", "additionalProperties",
    "enum", "enumDescriptions", "required", "repeated", "deprecated", "location", "pattern",
    "default"]

/-- The attributes in a record, with a budget of levels for the lists among them. -/
def readAttributes (budget : Nat) (r : Json.Record) : Option Attributes := do
  return {
    id := ← r.optional "id" Json.text?
    type := ← r.optional "type" Json.text?
    reference := ← r.optional "$ref" Json.text?
    description := ← r.optional "description" Json.text?
    format := ← r.optional "format" Json.text?
    enumValues := ← r.optional "enum" (Json.list? Json.text? budget)
    enumDescriptions := ← r.optional "enumDescriptions" (Json.list? Json.text? budget)
    required := ← r.optional "required" Json.flag?
    repeated := ← r.optional "repeated" Json.flag?
    deprecated := ← r.optional "deprecated" Json.flag?
    location := ← r.optional "location" Json.text?
    pattern := ← r.optional "pattern" Json.text?
    default := ← r.optional "default" Json.text? }

mutual

/-- The declaration that a value holds, within a budget of levels. -/
def read : Nat → Json → Option Declaration
  | 0, _ => none
  | budget + 1, v => do
    let r ← v.record? keys keys.length
    let attributes ← readAttributes budget r
    let properties ← r.optional "properties" (readTable budget)
    let items ← r.optional "items" (read budget)
    let additional ← r.optional "additionalProperties" (read budget)
    return { attributes with properties, items, additional }

/-- The declarations by name that a value holds, within a budget of levels. -/
def readTable : Nat → Json → Option (Table Declaration)
  | 0, _ => none
  | budget + 1, v => Json.table? (read budget) (budget + 1) v

end

/-! ## Writing -/

/-- The member for an attribute that is there. -/
def member (key : String) (write : α → Json) (value? : Option α) : Option (String × Json) :=
  value?.map fun value => (key, write value)

/-- A list of texts. -/
def textList (texts : List String) : Json := .array (texts.map .string)

mutual

/-- The JSON of a declaration, its members sorted by key. -/
def toJson : Declaration → Json
  | ⟨a, properties, items, additional⟩ =>
    .object ([
      member "$ref" .string a.reference,
      (optionToJson additional).map ("additionalProperties", ·),
      member "default" .string a.default,
      member "deprecated" .bool a.deprecated,
      member "description" .string a.description,
      member "enum" textList a.enumValues,
      member "enumDescriptions" textList a.enumDescriptions,
      member "format" .string a.format,
      member "id" .string a.id,
      (optionToJson items).map ("items", ·),
      member "location" .string a.location,
      member "pattern" .string a.pattern,
      (optionTableToJson properties).map ("properties", ·),
      member "repeated" .bool a.repeated,
      member "required" .bool a.required,
      member "type" .string a.type].reduceOption)

/-- The JSON of a declaration that may be missing. -/
def optionToJson : Option Declaration → Option Json
  | none => none
  | some d => some (toJson d)

/-- The JSON of a table of declarations that may be missing. -/
def optionTableToJson : Option (List (String × Declaration)) → Option Json
  | none => none
  | some ds => some (.object (tableToJson ds))

/-- The members for a table of declarations. -/
def tableToJson : List (String × Declaration) → List (String × Json)
  | [] => []
  | (name, d) :: ds => (name, toJson d) :: tableToJson ds

end

/-! ## The structure without its documentation -/

mutual

/-- The declaration without any description, at any depth. Names of properties are no
documentation, whatever they are. -/
def undocumented : Declaration → Declaration
  | ⟨a, properties, items, additional⟩ =>
    { a with
      description := none
      enumDescriptions := none
      properties := optionTableUndocumented properties
      items := optionUndocumented items
      additional := optionUndocumented additional }

/-- A declaration that may be missing, without documentation. -/
def optionUndocumented : Option Declaration → Option Declaration
  | none => none
  | some d => some (undocumented d)

/-- A table of declarations that may be missing, without documentation. -/
def optionTableUndocumented :
    Option (List (String × Declaration)) → Option (List (String × Declaration))
  | none => none
  | some ds => some (tableUndocumented ds)

/-- A table of declarations without documentation. -/
def tableUndocumented : List (String × Declaration) → List (String × Declaration)
  | [] => []
  | (name, d) :: ds => (name, undocumented d) :: tableUndocumented ds

end

/-- The text that describes the structure of a declaration. -/
def canonical (d : Declaration) : String := d.undocumented.toJson.compact

end Declaration

end DiscoveryGrpc.Api
