import DiscoveryGrpc.Conversion.Rpc

/-!
# From resources to services

A resource with methods becomes a service, unless it is ignored or none of its methods remains. Its
options say where it is served, which scopes its methods need and which version they have; the
version has to be the same for all methods of the resource.
-/

namespace DiscoveryGrpc.Conversion

open Proto Api

/-- The message to be left out that the body of a method refers to, if there is one. -/
def ignoredReference? (ignored : NameSet) (m : Method) : Option String :=
  let bodies := m.request.toList ++ m.response.toList
  let names := (bodies.filter (·.isReference)).filterMap fun s =>
    (messageName s.reference).toOption
  names.find? (ignored.contains ·)

/-- The version that all methods of a service have. -/
def commonVersion (service : String) (ms : List Method) : Except Fault String :=
  match NameSet.ofList (ms.map (·.apiVersion)) with
  | [] => .ok ""
  | [version] => .ok version
  | versions => .error (.apiVersions service versions)

/-- What a service has so far: rpcs by name, and the scopes of their methods. -/
structure Draft where
  rpcs : Table Rpc := []
  scopes : NameSet := []

/-- Adds a method to a service, unless it uses a message to be left out. -/
def addMethod (opts : Options) (document : Document) (service : String) (d : Draft) (m : Method) :
    Build Draft := do
  match ignoredReference? opts.ignoredNames m with
  | some message =>
    note (.skippingMethod m.id message)
    return d
  | none =>
    let r ← rpcOf opts document service m
    return ⟨d.rpcs.insert r.name r, d.scopes.insertAll m.scopes⟩

/-- An option with a value, unless the value is empty. -/
def settingUnlessEmpty (name value : String) : List Setting :=
  if value.isEmpty then [] else [.string name value]

/-- The options of a service. -/
def serviceSettings (host : String) (scopes : NameSet) (version : String) : List Setting :=
  settingUnlessEmpty Setting.defaultHost host
    ++ (if scopes.isEmpty then [] else [.string Setting.oauthScopes (",".intercalate scopes)])
    ++ settingUnlessEmpty Setting.apiVersion version

/-- Adds the service for a resource to those made before. -/
def addService (opts : Options) (document : Document) (services : Table Service)
    (resource : String × List Method) : Build (Table Service) := do
  let (key, methods) := resource
  let name ← serviceName key
  if opts.ignoredServices.contains key || opts.ignoredServices.contains name then
    note (.ignoringService name)
    return services
  let version ← commonVersion name methods
  let draft ← methods.foldlM (addMethod opts document name) {}
  if draft.rpcs.isEmpty then return services
  let settings := serviceSettings document.defaultHost draft.scopes version
  return services.insert name { name, settings, rpcs := draft.rpcs }

end DiscoveryGrpc.Conversion
