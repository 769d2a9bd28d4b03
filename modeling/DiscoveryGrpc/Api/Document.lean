import DiscoveryGrpc.Api.Method
import DiscoveryGrpc.Json.Reader
import DiscoveryGrpc.Event

/-!
# Discovery documents

A document has schemas by name and resources by dotted key, each with its methods. Resources are
written as a tree; `Document.resources` has them flat, and leaves out those without methods. A
document is read from JSON in two steps: the text into a declaration, which knows nothing but the
shape, and the declaration into a document, where everything in it is checked.
-/

namespace DiscoveryGrpc.Api

/-! ## As written -/

/-- A resource as it is written. -/
structure ResourceDeclaration where
  methods : Option (List (String × MethodDeclaration))
  resources : Option (List (String × ResourceDeclaration))

namespace ResourceDeclaration

/-- The keys of a resource, in the order in which an array gives their values. -/
def keys : List String := ["methods", "resources"]

mutual

/-- The resource that a value holds, within a budget of levels. -/
def read : Nat → Json → Option ResourceDeclaration
  | 0, _ => none
  | budget + 1, v => do
    let r ← v.record? keys keys.length
    let methods ← r.optional "methods" (Json.table? (MethodDeclaration.read (budget - 1)) budget)
    let resources ← r.optional "resources" (readTable budget)
    return { methods, resources }

/-- The resources by key that a value holds, within a budget of levels. -/
def readTable : Nat → Json → Option (Table ResourceDeclaration)
  | 0, _ => none
  | budget + 1, v => Json.table? (read budget) (budget + 1) v

end

end ResourceDeclaration

/-- A document as it is written. -/
structure DocumentDeclaration where
  name : Option String
  version : Option String
  revision : Option String
  title : Option String
  description : Option String
  rootUrl : Option String
  servicePath : Option String
  schemas : Option (Table Declaration)
  resources : Option (Table ResourceDeclaration)

namespace DocumentDeclaration

/-- The keys of a document, in the order in which an array gives their values. -/
def keys : List String :=
  ["name", "version", "revision", "title", "description", "rootUrl", "servicePath", "schemas",
    "resources"]

/-- The document that a value holds. -/
def ofJson? (v : Json) : Option DocumentDeclaration := do
  let r ← v.record? keys keys.length
  let budget := Json.depthLimit - 1
  return {
    name := ← r.optional "name" Json.text?
    version := ← r.optional "version" Json.text?
    revision := ← r.optional "revision" Json.text?
    title := ← r.optional "title" Json.text?
    description := ← r.optional "description" Json.text?
    rootUrl := ← r.optional "rootUrl" Json.text?
    servicePath := ← r.optional "servicePath" Json.text?
    schemas := ← r.optional "schemas" (Declaration.readTable budget)
    resources := ← r.optional "resources" (ResourceDeclaration.readTable budget) }

/-- The document that a text holds. -/
def ofText (text : String) : Except Fault DocumentDeclaration :=
  match Json.ofText? text with
  | none => .error .unreadableDocument
  | some v =>
    match ofJson? v with
    | none => .error .unreadableDocument
    | some d => .ok d

end DocumentDeclaration

/-! ## Checked -/

/-- A document. -/
structure Document where
  name : String
  version : String
  revision : String
  title : String
  description : String
  rootUrl : String
  servicePath : String
  /-- The schemas at the top level by key. -/
  schemas : Table Schema
  /-- The methods of every resource that has some, by the dotted key of the resource. -/
  resources : Table (List Method)

namespace Document

mutual

/-- The resources in a declaration with a dotted key, as pairs in the order of the declaration:
its own methods, then what is nested in it. -/
def flatten (document key : String) :
    ResourceDeclaration → Except Fault (List (String × List Method))
  | ⟨methods, resources⟩ => do
    let own ← (methods.getD []).mapM fun (name, m) => Method.ofDeclaration document key name m
    let nested ← flattenOption document key resources
    return if own.isEmpty then nested else (key, own) :: nested

/-- The resources nested under a dotted key, where there may be none. -/
def flattenOption (document key : String) :
    Option (List (String × ResourceDeclaration)) → Except Fault (List (String × List Method))
  | none => return []
  | some ds => flattenTable document (key ++ ".") ds

/-- The resources in a table whose keys follow a prefix. -/
def flattenTable (document start : String) :
    List (String × ResourceDeclaration) → Except Fault (List (String × List Method))
  | [] => return []
  | (key, d) :: ds => do
    let here ← flatten document (start ++ key) d
    return here ++ (← flattenTable document start ds)

end

/-- The document that a declaration stands for. It has to have a name and a version; then its
schemas are checked by key, then its resources. -/
def ofDeclaration (d : DocumentDeclaration) : Except Fault Document := do
  let name := d.name.getD ""
  let version := d.version.getD ""
  if name.isEmpty || version.isEmpty then throw .unnamedDocument
  let schemas ← (d.schemas.getD []).mapM fun (key, s) => do
    let s ← Schema.ofDeclaration (.topLevel key) key s
    return (key, s)
  let resources ← flattenTable name "" (d.resources.getD [])
  return {
    name, version, schemas
    revision := d.revision.getD ""
    title := d.title.getD ""
    description := d.description.getD ""
    rootUrl := d.rootUrl.getD ""
    servicePath := d.servicePath.getD ""
    resources := Table.ofList resources }

/-- The document that a text holds. -/
def ofText (text : String) : Except Fault Document := do
  ofDeclaration (← DocumentDeclaration.ofText text)

/-- The note on a document that has been read. -/
def readEvent (d : Document) : Event :=
  .readDocument d.name d.version d.schemas.length d.resources.length

/-- The schema at the top level that a schema refers to, or the schema itself if it refers to
none. -/
def dereference (d : Document) (s : Schema) : Option Schema :=
  if s.isReference then d.schemas.get? s.reference else some s

/-- What follows the first `://` of an address, if it has one. -/
def afterScheme? : List Char → Option (List Char)
  | ':' :: '/' :: '/' :: cs => some cs
  | _ :: cs => afterScheme? cs
  | [] => none

/-- The host that serves the api: the root address without scheme and final slashes. -/
def defaultHost (d : Document) : String :=
  let address := d.rootUrl.toList
  let host := (afterScheme? address).getD address
  String.ofList (host.reverse.dropWhile (· == '/')).reverse

end Document

end DiscoveryGrpc.Api
