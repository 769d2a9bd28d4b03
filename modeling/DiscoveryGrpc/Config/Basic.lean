import DiscoveryGrpc.Json.Reader
import DiscoveryGrpc.Json.Printer
import DiscoveryGrpc.Fault

/-!
# Configurations

A configuration keeps the message names of inline schemas from one run to the next. It lists, for
each schema by its canonical text, the names it is known by and the locations where it has each.

What it says is a set of uses: this schema has this name at this location. The normal form is built
from the uses alone, so two configurations with the same uses have the same normal form, and this
is how they are compared and written.
-/

namespace DiscoveryGrpc

/-- An inline schema with its names and their locations. -/
structure InlineSchema where
  schema : String
  locations : Table (List String)
  deriving DecidableEq, Repr

/-- What is kept for the next run. -/
structure Config where
  converterVersion : String := ""
  apiVersion : String := ""
  discoveryRevision : String := ""
  inlineSchemas : List InlineSchema := []
  deriving DecidableEq, Repr

namespace Config

/-- The version of this converter, written into every configuration. -/
def currentVersion : String := "0.1.0"

/-! ## Uses -/

/-- A schema has a name at a location. -/
structure Use where
  schema : String
  name : String
  location : String
  deriving DecidableEq, Repr

/-- The uses of an inline schema, by name. -/
def usesOf (s : InlineSchema) : List Use :=
  s.locations.flatMap fun (name, locations) => locations.map fun l => ⟨s.schema, name, l⟩

/-- The uses that a configuration lists. -/
def uses (c : Config) : List Use := c.inlineSchemas.flatMap usesOf

/-- Locations by name by schema. -/
abbrev Grouping := Table (Table NameSet)

namespace Grouping

/-- Adds a use. -/
def add (g : Grouping) (u : Use) : Grouping :=
  let names := (g.get? u.schema).getD []
  let locations := (names.get? u.name).getD []
  g.insert u.schema (names.insert u.name (NameSet.insert u.location locations))

/-- The grouping of a list of uses. -/
def ofUses (us : List Use) : Grouping := us.foldl add []

/-- The inline schemas of a grouping. -/
def inlineSchemas (g : Grouping) : List InlineSchema :=
  g.map fun (schema, locations) => ⟨schema, locations⟩

end Grouping

/-- The configuration with everything sorted, once each. -/
def normalized (c : Config) : Config :=
  { c with inlineSchemas := (Grouping.ofUses c.uses).inlineSchemas }

/-- Whether two configurations say the same. -/
def same (a b : Config) : Bool := a.normalized == b.normalized

/-! ## Text -/

/-- The inline schema that a value holds. Both members have to be there. -/
def readInlineSchema (v : Json) : Option InlineSchema := do
  let r ← v.record? ["schema", "locations"] 2
  let paths := Json.list? Json.text? Json.depthLimit
  return {
    schema := ← r.required "schema" Json.text?
    locations := ← r.required "locations" (Json.table? paths Json.depthLimit) }

/-- The configuration that a value holds. Absent members are empty. No configuration nests as deep
as the limit, so nothing is counted here. -/
def ofJson? (v : Json) : Option Config := do
  let r ← v.record? ["converterVersion", "apiVersion", "discoveryRevision", "inlineSchemas"] 0
  let schemas := Json.list? readInlineSchema Json.depthLimit
  return {
    converterVersion := ← r.orElse "converterVersion" "" Json.text?
    apiVersion := ← r.orElse "apiVersion" "" Json.text?
    discoveryRevision := ← r.orElse "discoveryRevision" "" Json.text?
    inlineSchemas := ← r.orElse "inlineSchemas" [] schemas }

/-- The configuration that a text holds. -/
def ofText (text : String) : Except Fault Config :=
  match (Json.ofText? text).bind ofJson? with
  | none => .error .unreadableConfig
  | some c => .ok c

/-- The JSON of a configuration as it is. -/
def toJson (c : Config) : Json :=
  .object [
    ("converterVersion", .string c.converterVersion),
    ("apiVersion", .string c.apiVersion),
    ("discoveryRevision", .string c.discoveryRevision),
    ("inlineSchemas", .array (c.inlineSchemas.map fun s =>
      .object [
        ("schema", .string s.schema),
        ("locations", .object (s.locations.map fun (name, paths) =>
          (name, .array (paths.map .string))))]))]

/-- The text of a configuration: the pretty JSON of its normal form. -/
def toText (c : Config) : String := c.normalized.toJson.pretty

/-! ## Files -/

/-- The content of the file that keeps a configuration. -/
def fileContent (c : Config) : String := c.toText ++ "\n"

/-- The configuration in a file, given what reading the file at the path came to. -/
def ofFile (path : String) : Except String String → Except Fault Config
  | .error reason => .error (.unreadableFile path reason)
  | .ok content => ofText content

/-- What writing a configuration came to, given what writing the file at the path came to. -/
def written (path : String) : Except String Unit → Except Fault Unit
  | .error reason => .error (.unwritableFile path reason)
  | .ok () => .ok ()

end Config

end DiscoveryGrpc
