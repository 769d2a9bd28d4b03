import DiscoveryGrpc.Conversion.Field
import DiscoveryGrpc.Conversion.Template
import DiscoveryGrpc.Api.Document

/-!
# From methods to rpcs

A method becomes an rpc with a request message of its own: a field per parameter, and one for the
body. Without a response the rpc gets an empty response message. Its options are the http rule and
the signature, which lists the required parameters and the body. A method whose path has an
expansion may define a resource.
-/

namespace DiscoveryGrpc.Conversion

open Proto Api

/-! ## Resources -/

/-- The pattern of a collection: its name, and a variable for one of its elements. -/
def collectionPattern (collection : String) : Except Fault String := do
  let name ← Name.ofIdentifier? (Identifier.singular collection)
  return collection ++ "/\x7b" ++ name.lowerUnderscore ++ "\x7d"

/-- The resource type of the elements of a collection. -/
def resourceType (document collection : String) : Except Fault String := do
  let name ← Name.ofIdentifier? (Identifier.singular collection)
  return s!"{document}.googleapis.com/{name.upperCamel}"

/-- Adds the definition of the resource that a flat path names, unless its type is defined. -/
def addResource (document flatPath : String) : Build Unit := do
  let some pattern := Template.firstPattern? flatPath.toList | return
  match Template.collections? (Text.splitBy (· == '/') pattern) with
  | none => note (.noResource (String.ofList pattern))
  | some collections =>
    let collections := collections.map String.ofList
    let patterns ← collections.mapM fun c => (collectionPattern c : Build String)
    let type ← resourceType document (collections.getLastD "")
    let w ← get
    unless w.resources.any (·.property? "type" == some (.string type)) do
      let definition := Setting.group Setting.resourceDefinition
        [("type", .string type), ("pattern", .string ("/".intercalate patterns))]
      set { w with resources := w.resources ++ [definition] }

/-! ## Options of an rpc -/

/-- The http rule of a method, with the field of its body. -/
def httpRule (servicePath : String) (m : Method) (body? : Option String) :
    Except Fault Setting := do
  let verb := String.ofList (m.httpMethod.toList.map Char.toLower)
  unless ["get", "put", "post", "delete", "patch"].contains verb do
    throw (.httpMethod m.id m.httpMethod)
  let template ← Template.withFieldNames s!"/{servicePath}{m.flatPath}"
  return .group Setting.http
    ((verb, .string template) :: (body?.map fun body => ("body", .string body)).toList)

/-- The signature of a method: its required parameters and its body. -/
def signature (m : Method) (body? : Option String) : Except Fault (List Setting) := do
  let names ← m.requiredParameters.mapM fieldName
  match names ++ body?.toList with
  | [] => return []
  | names => return [.string Setting.methodSignature (",".intercalate names)]

/-! ## Messages of an rpc -/

/-- The message that a body is of: the one it refers to, or the one named like it. -/
def bodyMessage (s : Schema) : Except Fault String :=
  messageName (if s.isReference then s.reference else s.identifier)

/-- The field for the body of a request. -/
def bodyField (s : Schema) : Except Fault Field := do
  let type ← bodyMessage s
  let name ← Name.ofIdentifier? type
  return {
    name := (name.append (.ofWord "resource")).lowerUnderscore
    type := .reference type
    settings := [Setting.required]
    description := "The body resource for this request" }

/-- Adds the field for the body, if there is one. The result has its name. -/
def addBody (request : Message) : Option Schema → Except Fault (Message × Option String)
  | none => return (request, none)
  | some s => do
    let f ← bodyField s
    return (← addUniqueField request f, some f.name)

/-- The message that an rpc gives: that of the response, or an empty one with a name. -/
def outputOf (emptyName description : String) : Option Schema → Build String
  | some s => bodyMessage s
  | none => do
    let _ ← addMessage { name := emptyName, description }
    return emptyName

/-- The collection in the name of the request: plural only for methods that page through it. -/
def collectionName (m : Method) : String :=
  if m.isPlural then m.collection else Identifier.singular m.collection

/-- The rpc for a method of a service. -/
def rpcOf (opts : Options) (document : Document) (service : String) (m : Method) : Build Rpc := do
  let verb ← Name.ofIdentifier? m.verb
  let base := verb.append (← Name.ofIdentifier? (collectionName m))
  let name := verb.upperCamel
  let input := (base.append (.ofWord "request")).upperCamel
  let request ← addProperties opts m.parameters {
    name := input
    description :=
      s!"A request message for {service}.{name}. See the method description for details." }
  let (request, body?) ← addBody request m.request
  let _ ← addMessage request
  let output ← outputOf (base.append (.ofWord "response")).upperCamel
    s!"A response message for {service}.{name}." m.response
  let http ← httpRule document.servicePath m body?
  let signature ← signature m body?
  if m.hasExpansion then addResource document.name m.flatPath
  return { name, input, output, description := m.description, settings := http :: signature }

end DiscoveryGrpc.Conversion
