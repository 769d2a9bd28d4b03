import DiscoveryGrpc.Config.Basic
import DiscoveryGrpc.Event

/-!
# The registry of inline schemas

During a run the registry gives every inline schema its message name and records where it is used.
The name is the one that the loaded configuration has for the location; failing that, the one that
the same schema got first in this run; failing that, the default of the caller.

At the end the registry is compared with the loaded configuration. Every inconsistency is reported,
and only if there is none the uses of the run become the configuration for the next one.
-/

namespace DiscoveryGrpc

/-- What a location was registered with. -/
structure Registration where
  name : String
  schema : String
  deriving DecidableEq, Repr

/-- The inline schemas of a run. -/
structure Registry where
  /-- The configured names by location. -/
  configured : Table String := []
  /-- What was registered, by location. -/
  registrations : Table Registration := []
  /-- The first name of every schema in this run. -/
  firstNames : Table String := []
  /-- Inconsistencies noticed on the way, first to last. -/
  problems : List Config.Drift := []

namespace Registry

/-- The registry of a run without a configuration. -/
def empty : Registry := {}

/-! ## Loading -/

/-- Loads a use, with the problem that its location was there already. -/
def load (loaded : Table String × List Config.Drift) (u : Config.Use) :
    Table String × List Config.Drift :=
  let (configured, problems) := loaded
  let problems := match configured.get? u.location with
    | some first => problems ++ [.ambiguous u.location first u.name]
    | none => problems
  (configured.insert u.location u.name, problems)

/-- The registry of a run that follows a configuration. A location must not be listed twice. -/
def ofConfig (c : Config) : Except Fault Registry :=
  match c.uses.foldl load ([], []) with
  | (configured, []) => .ok { configured }
  | (_, problems) => .error (.ambiguousConfig problems)

/-- The note on a registry that was loaded. -/
def loadedEvent (r : Registry) : Event := .loadedConfig r.configured.length

/-! ## Names and registrations -/

/-- The name for the schema at a location. -/
def messageName (r : Registry) (location schema default : String) : String :=
  match r.configured.get? location with
  | some name => name
  | none => (r.firstNames.get? schema).getD default

/-- Records that the schema at a location has a name. A location is recorded once; a second time is
a problem and changes nothing else. -/
def register (r : Registry) (location name schema : String) : Registry :=
  match r.registrations.get? location with
  | some existing =>
    { r with problems := r.problems ++ [.repeated location existing.name name] }
  | none =>
    { r with
      registrations := r.registrations.insert location ⟨name, schema⟩
      firstNames :=
        if r.firstNames.has schema then r.firstNames else r.firstNames.insert schema name }

/-! ## The check at the end -/

/-- The uses of the run, by location. -/
def uses (r : Registry) : List Config.Use :=
  r.registrations.map fun (location, g) => ⟨g.schema, g.name, location⟩

/-- Configured locations that were not used. -/
def unused (r : Registry) : List Config.Drift :=
  (r.configured.filter fun c => !r.registrations.has c.1).map fun (location, name) =>
    .unused location name

/-- The schemas of every name. -/
def schemasByName (r : Registry) : Table NameSet :=
  r.uses.foldl (fun t u => t.insert u.name (NameSet.insert u.schema ((t.get? u.name).getD []))) []

/-- Names with several schemas. -/
def sharedNames (r : Registry) : List Config.Drift :=
  r.schemasByName.filterMap fun (name, schemas) =>
    if 1 < schemas.length then some (.sharedName name schemas.length) else none

/-- The names and locations of every schema. -/
def grouping (r : Registry) : Config.Grouping := Config.Grouping.ofUses r.uses

/-- Schemas with several names. -/
def manyNames (r : Registry) : List Config.Drift :=
  r.grouping.filterMap fun (_, names) =>
    if 1 < names.length then some (.manyNames names) else none

/-- Every inconsistency of the run. -/
def drift (r : Registry) : List Config.Drift :=
  r.problems ++ r.unused ++ r.sharedNames ++ r.manyNames

/-- The configuration for the next run. -/
def toConfig (r : Registry) (apiVersion revision : String) : Except Fault Config :=
  match r.drift with
  | [] =>
    .ok {
      converterVersion := Config.currentVersion
      apiVersion
      discoveryRevision := revision
      inlineSchemas := r.grouping.inlineSchemas }
  | problems => .error (.configDrift problems)

end Registry

end DiscoveryGrpc
