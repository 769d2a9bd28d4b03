import DiscoveryGrpc.Api.Document

/-!
# Documents in an arena

A document can be kept in two lists, one of its schemas and one of its methods, in the order in
which they are read. Schemas and methods are known by their places in these lists. A schema has
links to the schemas that it owns, and knows what it belongs to.

A schema is put down before the ones that it owns, and gets its links when these are there. A method
knows its place before it is put down, because its schemas belong to it, and they come first.

`place?` goes up from a schema and finds out where in the document it stands; `schema?` goes down
and puts a tree together. Both look up one schema after the other, within a budget of levels. They
have no result if the budget runs out, or if what they look up is not there.
-/

namespace DiscoveryGrpc.Api

namespace Arena

/-! ## Schemas and methods -/

/-- What a schema belongs to directly. -/
inductive Parent
  | document
  | schema (id : Nat)
  | method (id : Nat)
  deriving DecidableEq, Repr

/-- A schema with its links. -/
structure Node where
  parent : Parent
  key : String
  id : String
  type : SchemaType
  format : String
  reference : String
  description : String
  properties : Table Nat
  items : Option Nat
  additional : Option Nat
  enumValues : List String
  enumDescriptions : List String
  required : Bool
  repeated : Bool
  deprecated : Bool
  location : Option Location
  canonical : String
  deriving DecidableEq, Repr

namespace Node

/-- The schema that a declaration stands for, without links. The type is checked before the
location. -/
def ofDeclaration (parent : Parent) (key : String) (d : Declaration) : Except Fault Node := do
  let type ← SchemaType.ofText d.type
  let location ← Location.ofText d.location
  return {
    parent, key, type, location
    id := d.id.getD ""
    format := d.format.getD ""
    reference := d.reference.getD ""
    description := d.description.getD ""
    properties := []
    items := none
    additional := none
    enumValues := d.enumValues.getD []
    enumDescriptions := d.enumDescriptions.getD []
    required := d.required.getD false
    repeated := d.repeated.getD false
    deprecated := d.deprecated.getD false
    canonical := d.canonical }

/-- All links of a schema. -/
def links (n : Node) : List Nat := n.properties.values ++ n.items.toList ++ n.additional.toList

/-- What a schema that stands at a place says of itself. -/
def headAt (n : Node) (place : Place) : SchemaHead where
  place := place
  key := n.key
  id := n.id
  type := n.type
  format := n.format
  reference := n.reference
  description := n.description
  enumValues := n.enumValues
  enumDescriptions := n.enumDescriptions
  required := n.required
  repeated := n.repeated
  deprecated := n.deprecated
  location := n.location
  canonical := n.canonical

end Node

/-- A method with the places of its schemas. -/
structure MethodNode where
  id : String
  resource : String
  description : String
  httpMethod : String
  path : String
  flatPath : String
  parameters : Table Nat
  pathParameters : Table Nat
  queryParameters : Table Nat
  parameterOrder : List String
  requiredParameters : List String
  request : Option Nat
  response : Option Nat
  scopes : List String
  apiVersion : String
  deriving DecidableEq, Repr

/-- The places of all schemas of a method. -/
def MethodNode.schemas (m : MethodNode) : List Nat :=
  m.parameters.values ++ m.request.toList ++ m.response.toList

end Arena

/-- A document in an arena. -/
structure Arena where
  nodes : List Arena.Node := []
  methods : List Arena.MethodNode := []
  /-- The schemas at the top level by key. -/
  schemas : Table Nat := []
  /-- The methods of every resource that has some, by the dotted key of the resource. -/
  resources : Table (List Nat) := []
  deriving DecidableEq, Repr

namespace Arena

/-! ## Putting things down -/

mutual

/-- Puts down a schema and all that it owns: its properties by key, then its items, then its
additional properties. The result has the place of the schema. -/
def addSchema (parent : Parent) (key : String) :
    Declaration → List Node → Except Fault (List Node × Nat)
  | ⟨a, properties, items, additional⟩, nodes => do
    let id := nodes.length
    let node ← Node.ofDeclaration parent key ⟨a, properties, items, additional⟩
    let (nodes, properties) ← addOptionTable (.schema id) properties (nodes ++ [node])
    let (nodes, items) ← addOption (.schema id) key items nodes
    let (nodes, additional) ← addOption (.schema id) key additional nodes
    return (nodes.modify id fun n => { n with properties, items, additional }, id)

/-- Puts down a schema that may be missing. -/
def addOption (parent : Parent) (key : String) :
    Option Declaration → List Node → Except Fault (List Node × Option Nat)
  | none, nodes => return (nodes, none)
  | some d, nodes => do
    let (nodes, id) ← addSchema parent key d nodes
    return (nodes, some id)

/-- Puts down the schemas of a table that may be missing. -/
def addOptionTable (parent : Parent) :
    Option (List (String × Declaration)) → List Node → Except Fault (List Node × Table Nat)
  | none, nodes => return (nodes, [])
  | some ds, nodes => addTable parent ds nodes

/-- Puts down the schemas of a table. -/
def addTable (parent : Parent) :
    List (String × Declaration) → List Node → Except Fault (List Node × Table Nat)
  | [], nodes => return (nodes, [])
  | (key, d) :: ds, nodes => do
    let (nodes, id) ← addSchema parent key d nodes
    let (nodes, ids) ← addTable parent ds nodes
    return (nodes, (key, id) :: ids)

end

/-- Whether the parameter at a place is part of the path. -/
def isInPath (nodes : List Node) (id : Nat) : Bool :=
  (nodes[id]?.bind (·.location)) == some .path

/-- The names of the required parameters: those that the parameter order lists, as often as it
lists them, then the others by name. -/
def requiredNames (nodes : List Node) (parameters : Table Nat) (order : List String) :
    List String :=
  let isRequired (name : String) : Bool :=
    (parameters.get? name).any fun id => nodes[id]?.any (·.required)
  let ordered := order.filter isRequired
  ordered ++ parameters.names.filter fun name => isRequired name && !ordered.contains name

/-- Puts down a method of a resource, after its parameters and its bodies. The result has the place
of the method. -/
def addMethod (document resource key : String) (d : MethodDeclaration) (a : Arena) :
    Except Fault (Arena × Nat) := do
  let method := a.methods.length
  let id := d.id.getD s!"{document}.{resource}.{key}"
  let some path := d.path | throw (.noPath id)
  let flatPath ← match d.flatPath with
    | some flat => normalizePath path flat
    | none => pure (plainPath path)
  let (nodes, parameters) ← addTable (.method method) (d.parameters.getD []) a.nodes
  let pathParameters := parameters.filter fun p => isInPath nodes p.2
  let queryParameters := parameters.filter fun p => !isInPath nodes p.2
  let parameterOrder := d.parameterOrder.getD []
  let requiredParameters := requiredNames nodes parameters parameterOrder
  let (nodes, request) ← addOption (.method method) "request" d.request nodes
  let (nodes, response) ← addOption (.method method) "response" d.response nodes
  let m : MethodNode := {
    id, resource, path, flatPath, parameters, pathParameters, queryParameters, parameterOrder
    requiredParameters, request, response
    description := d.description.getD ""
    httpMethod := d.httpMethod.getD "GET"
    scopes := d.scopes.getD []
    apiVersion := d.apiVersion.getD "" }
  return ({ a with nodes, methods := a.methods ++ [m] }, method)

/-- Puts down the methods of a resource. The result has their places. -/
def addMethods (document resource : String) :
    List (String × MethodDeclaration) → Arena → Except Fault (Arena × List Nat)
  | [], a => return (a, [])
  | (key, d) :: ds, a => do
    let (a, id) ← addMethod document resource key d a
    let (a, ids) ← addMethods document resource ds a
    return (a, id :: ids)

mutual

/-- Puts down a resource with a dotted key: its own methods, then what is nested in it. -/
def addResource (document key : String) : ResourceDeclaration → Arena → Except Fault Arena
  | ⟨methods, resources⟩, a => do
    let (a, ids) ← addMethods document key (methods.getD []) a
    let a := if ids.isEmpty then a else { a with resources := a.resources.insert key ids }
    addResourceOption document key resources a

/-- Puts down the resources nested under a dotted key, where there may be none. -/
def addResourceOption (document key : String) :
    Option (List (String × ResourceDeclaration)) → Arena → Except Fault Arena
  | none, a => return a
  | some ds, a => addResourceTable document (key ++ ".") ds a

/-- Puts down the resources in a table whose keys follow a prefix. -/
def addResourceTable (document start : String) :
    List (String × ResourceDeclaration) → Arena → Except Fault Arena
  | [], a => return a
  | (key, d) :: ds, a => do
    let a ← addResource document (start ++ key) d a
    addResourceTable document start ds a

end

/-- The arena for a document as it is written. -/
def ofDeclaration (d : DocumentDeclaration) : Except Fault Arena := do
  let name := d.name.getD ""
  let version := d.version.getD ""
  if name.isEmpty || version.isEmpty then throw .unnamedDocument
  let (nodes, schemas) ← addTable .document (d.schemas.getD []) []
  addResourceTable name "" (d.resources.getD []) { nodes, schemas }

/-- The arena for the document that a text holds. -/
def ofText (text : String) : Except Fault Arena := do
  ofDeclaration (← DocumentDeclaration.ofText text)

/-! ## The way up -/

/-- The structural path of the schema at a place. Items and values share the path of their owner. -/
def path? (a : Arena) : (budget : Nat) → (id : Nat) → Option String
  | 0, _ => none
  | budget + 1, id => do
    let n ← a.nodes[id]?
    match n.parent with
    | .document => return "schemas." ++ n.key
    | .method m => return s!"methods.{(← a.methods[m]?).id}.{n.key}"
    | .schema p =>
      let parent ← a.nodes[p]?
      let path ← a.path? budget p
      return if parent.items == some id || parent.additional == some id then path
        else s!"{path}.{n.key}"

/-- The place of the top level schema around the schema at a place, if that is not part of a
method. -/
def root? (a : Arena) : (budget : Nat) → (id : Nat) → Option (Option Nat)
  | 0, _ => none
  | budget + 1, id => do
    let n ← a.nodes[id]?
    match n.parent with
    | .document => return some id
    | .schema p => a.root? budget p
    | .method _ => return none

/-- What the schema at a place belongs to. -/
def owner? (a : Arena) (budget id : Nat) : Option Owner := do
  let n ← a.nodes[id]?
  match n.parent with
  | .document => return .document
  | .schema p => return .schema (← a.path? budget p)
  | .method m => return .method (← a.methods[m]?).id

/-- Where in the document the schema at a place stands. -/
def place? (a : Arena) (budget id : Nat) : Option Place := do
  let root ← a.root? budget id
  return {
    path := ← a.path? budget id
    owner := ← a.owner? budget id
    root := ← root.mapM fun r => (a.nodes[r]?).map (·.key) }

/-! ## The way down -/

/-- The schema at a place, with all that it owns. -/
def schema? (a : Arena) : (budget : Nat) → (id : Nat) → Option Schema
  | 0, _ => none
  | budget + 1, id => do
    let n ← a.nodes[id]?
    let place ← a.place? a.nodes.length id
    let properties ← n.properties.mapValues? (a.schema? budget)
    let items ← n.items.mapM (a.schema? budget)
    let additional ← n.additional.mapM (a.schema? budget)
    return { n.headAt place with properties, items, additional }

/-- The schemas in a table of places, by key. -/
def schemaTable? (a : Arena) (ids : Table Nat) : Option (Table Schema) :=
  ids.mapValues? (a.schema? a.nodes.length)

/-- The method at a place, with its schemas. -/
def method? (a : Arena) (id : Nat) : Option Method := do
  let m ← a.methods[id]?
  return {
    id := m.id
    resource := m.resource
    description := m.description
    httpMethod := m.httpMethod
    path := m.path
    flatPath := m.flatPath
    parameters := ← a.schemaTable? m.parameters
    parameterOrder := m.parameterOrder
    request := ← m.request.mapM (a.schema? a.nodes.length)
    response := ← m.response.mapM (a.schema? a.nodes.length)
    scopes := m.scopes
    apiVersion := m.apiVersion }

/-- The methods in a table of places, by the dotted key of their resource. -/
def methodTable? (a : Arena) (ids : Table (List Nat)) : Option (Table (List Method)) :=
  ids.mapValues? fun ids => ids.mapM a.method?

end Arena

end DiscoveryGrpc.Api
