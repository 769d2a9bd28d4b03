import DiscoveryGrpc.Proto.File

/-!
# Imports of a proto file

A file imports what its options and its well known types are defined in, and nothing else.
-/

namespace DiscoveryGrpc.Proto

namespace Imports

/-- The file that defines an option. -/
def ofSetting? (name : String) : Option String :=
  if name = Setting.http then some "google/api/annotations.proto"
  else if name = Setting.methodSignature || name = Setting.defaultHost
      || name = Setting.oauthScopes || name = Setting.apiVersion then
    some "google/api/client.proto"
  else if name = Setting.fieldBehavior then some "google/api/field_behavior.proto"
  else if name = Setting.resourceDefinition then some "google/api/resource.proto"
  else if name = Setting.operationService || name = Setting.operationPolling then
    some "google/cloud/extended_operations.proto"
  else none

/-- The file that defines a type. -/
def ofType? : FieldType → Option String
  | .primitive .any => some "google/protobuf/any.proto"
  | .primitive .struct | .primitive .value | .primitive .listValue =>
    some "google/protobuf/struct.proto"
  | _ => none

/-- The files that the options of a list are defined in. -/
def ofSettings (settings : List Setting) : List String :=
  settings.filterMap fun s => ofSetting? s.name

/-- The files that a field needs. -/
def ofField (f : Field) : List String :=
  ofSettings f.settings ++ (f.type :: f.keyType.toList).filterMap ofType?

/-- The files that a service needs. -/
def ofService (s : Service) : List String :=
  ofSettings s.settings ++ s.rpcs.values.flatMap fun r => ofSettings r.settings

end Imports

/-- The imports of a file in order. Members of enums need none. -/
def File.imports (f : File) : NameSet :=
  NameSet.ofList (Imports.ofSettings f.settings
    ++ f.services.values.flatMap Imports.ofService
    ++ f.messages.values.flatMap fun m => m.fields.flatMap Imports.ofField)

end DiscoveryGrpc.Proto
