import DiscoveryGrpc.Api.Schema
import DiscoveryGrpc.Api.Path

/-!
# Methods

A method of a resource, as it is written and as it is after checking: its path is normalised, its
parameters and bodies are schemas, and the names of its required parameters are listed in calling
order.
-/

namespace DiscoveryGrpc.Api

/-! ## As written -/

/-- A method as it is written. -/
structure MethodDeclaration where
  id : Option String
  path : Option String
  flatPath : Option String
  httpMethod : Option String
  description : Option String
  parameters : Option (Table Declaration)
  parameterOrder : Option (List String)
  request : Option Declaration
  response : Option Declaration
  scopes : Option (List String)
  apiVersion : Option String

namespace MethodDeclaration

/-- The keys of a method, in the order in which an array gives their values. -/
def keys : List String :=
  ["id", "path", "flatPath", "httpMethod", "description", "parameters", "parameterOrder",
    "request", "response", "scopes", "apiVersion"]

/-- The method that a value holds, within a budget of levels. -/
def read : Nat → Json → Option MethodDeclaration
  | 0, _ => none
  | budget + 1, v => do
    let r ← v.record? keys keys.length
    return {
      id := ← r.optional "id" Json.text?
      path := ← r.optional "path" Json.text?
      flatPath := ← r.optional "flatPath" Json.text?
      httpMethod := ← r.optional "httpMethod" Json.text?
      description := ← r.optional "description" Json.text?
      parameters := ← r.optional "parameters" (Declaration.readTable budget)
      parameterOrder := ← r.optional "parameterOrder" (Json.list? Json.text? budget)
      request := ← r.optional "request" (Declaration.read budget)
      response := ← r.optional "response" (Declaration.read budget)
      scopes := ← r.optional "scopes" (Json.list? Json.text? budget)
      apiVersion := ← r.optional "apiVersion" Json.text? }

end MethodDeclaration

/-! ## Checked -/

/-- A method. -/
structure Method where
  /-- The dotted id, such as `lakes.projects.lakes.get`. -/
  id : String
  /-- The dotted key of the resource that declares the method. -/
  resource : String
  description : String
  httpMethod : String
  path : String
  /-- The path that the http rule of the method is made of. -/
  flatPath : String
  parameters : Table Schema
  parameterOrder : List String
  request : Option Schema
  response : Option Schema
  scopes : List String
  apiVersion : String

namespace Method

/-- The parameters that are part of the path. -/
def pathParameters (m : Method) : Table Schema :=
  m.parameters.filter fun p => p.2.location == some .path

/-- The parameters that are not part of the path. -/
def queryParameters (m : Method) : Table Schema :=
  m.parameters.filter fun p => p.2.location != some .path

/-- The names of the required parameters: those that the parameter order lists, as often as it
lists them, then the others by name. -/
def requiredParameters (m : Method) : List String :=
  let isRequired (name : String) : Bool := (m.parameters.get? name).any (·.required)
  let ordered := m.parameterOrder.filter isRequired
  ordered ++ m.parameters.names.filter fun name => isRequired name && !ordered.contains name

/-- Methods that page through a collection take a `maxResults`. -/
def isPlural (m : Method) : Bool := m.parameters.has "maxResults"

/-- The segments of the id, last one first. -/
def idSegments (m : Method) : List String := (Text.segments '.' m.id).reverse

/-- The last segment of the id, such as `get`. -/
def verb (m : Method) : String := m.idSegments.headD ""

/-- The collection that the method works on: the segment of the id before the last one, or the
last segment of the resource. -/
def collection (m : Method) : String :=
  match m.idSegments with
  | _ :: collection :: _ => collection
  | _ => (Text.segments '.' m.resource).getLastD ""

/-- Whether the path has an expansion. -/
def hasExpansion (m : Method) : Bool := Path.hasExpansion m.path

/-- The body of a method at the place with a key. -/
def bodyOf (id key : String) : Option Declaration → Except Fault (Option Schema)
  | none => return none
  | some d => return some (← Schema.ofDeclaration (.ofMethod id key) key d)

/-- The method that a declaration stands for under a key of a resource. -/
def ofDeclaration (document resource key : String) (d : MethodDeclaration) :
    Except Fault Method := do
  let id := d.id.getD s!"{document}.{resource}.{key}"
  let some path := d.path | throw (.noPath id)
  let flatPath ← match d.flatPath with
    | some flat => normalizePath path flat
    | none => pure (plainPath path)
  let parameters ← (d.parameters.getD []).mapM fun (name, p) => do
    let s ← Schema.ofDeclaration (.ofMethod id name) name p
    return (name, s)
  let request ← bodyOf id "request" d.request
  let response ← bodyOf id "response" d.response
  return {
    id, resource, path, flatPath, parameters, request, response
    description := d.description.getD ""
    httpMethod := d.httpMethod.getD "GET"
    parameterOrder := d.parameterOrder.getD []
    scopes := d.scopes.getD []
    apiVersion := d.apiVersion.getD "" }

end Method

end DiscoveryGrpc.Api
