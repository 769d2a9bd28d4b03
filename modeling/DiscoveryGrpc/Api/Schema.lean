import DiscoveryGrpc.Api.Declaration
import DiscoveryGrpc.Fault

/-!
# Schemas

A schema is a declaration whose type and location have been checked, as a tree: it owns the
schemas of its properties, of its items and of its additional properties. Every node knows its
place, which gives its structural path, its owner and the top level schema that it is nested in.

The items of an array and the values of a map have no key of their own. They take the key of their
owner, and share its path: an inline object in an array is named after the array.
-/

namespace DiscoveryGrpc.Api

/-- The type of a schema. A schema that only refers to another one has none. -/
inductive SchemaType
  | any
  | array
  | boolean
  | empty
  | integer
  | number
  | object
  | string
  deriving DecidableEq, Repr

namespace SchemaType

/-- How a type is written. -/
def label : SchemaType → String
  | any => "any"
  | array => "array"
  | boolean => "boolean"
  | empty => "empty"
  | integer => "integer"
  | number => "number"
  | object => "object"
  | string => "string"

/-- The type that a declaration names. -/
def ofText : Option String → Except Fault SchemaType
  | none => .ok empty
  | some name =>
    match name with
    | "" => .ok empty
    | "any" => .ok any
    | "array" => .ok array
    | "boolean" => .ok boolean
    | "integer" => .ok integer
    | "number" => .ok number
    | "object" => .ok object
    | "string" => .ok string
    | other => .error (.schemaType other)

end SchemaType

/-- The part of a request that a parameter belongs to. -/
inductive Location
  | path
  | query
  deriving DecidableEq, Repr

namespace Location

/-- How a location is written. -/
def label : Location → String
  | path => "path"
  | query => "query"

/-- The location that a declaration names, if it names one. -/
def ofText : Option String → Except Fault (Option Location)
  | none => .ok none
  | some name =>
    match name with
    | "path" => .ok (some path)
    | "query" => .ok (some query)
    | other => .error (.parameterLocation other)

end Location

/-! ## Places -/

/-- What a schema belongs to directly. -/
inductive Owner
  | document
  | schema (path : String)
  | method (id : String)
  deriving DecidableEq, Repr

/-- Where in a document a schema stands. -/
structure Place where
  /-- The structural path, such as `schemas.Lake.info`. -/
  path : String
  owner : Owner
  /-- The key of the top level schema around it, if it is not part of a method. -/
  root : Option String
  deriving DecidableEq, Repr

namespace Place

/-- The place of a schema at the top level of a document. -/
def topLevel (key : String) : Place where
  path := "schemas." ++ key
  owner := .document
  root := some key

/-- The place of a parameter or a body of a method. -/
def ofMethod (id key : String) : Place where
  path := s!"methods.{id}.{key}"
  owner := .method id
  root := none

/-- The place of a property of the schema at a place. -/
def property (p : Place) (key : String) : Place where
  path := s!"{p.path}.{key}"
  owner := .schema p.path
  root := p.root

/-- The place of the items or values of the schema at a place. -/
def element (p : Place) : Place where
  path := p.path
  owner := .schema p.path
  root := p.root

end Place

/-! ## The tree -/

/-- What a schema says of itself. -/
structure SchemaHead where
  place : Place
  key : String
  id : String
  type : SchemaType
  format : String
  reference : String
  description : String
  enumValues : List String
  enumDescriptions : List String
  required : Bool
  repeated : Bool
  deprecated : Bool
  location : Option Location
  /-- The text that describes the structure of the schema, documentation left out. -/
  canonical : String
  deriving DecidableEq, Repr

/-- A schema. -/
structure Schema extends SchemaHead where
  /-- The table of the schemas of the properties. -/
  properties : List (String × Schema)
  /-- The schema of the elements of an array. -/
  items : Option Schema
  /-- The schema of the values of a map. -/
  additional : Option Schema

namespace SchemaHead

/-- The declared id, or the key where there is none. -/
def identifier (h : SchemaHead) : String := if h.id.isEmpty then h.key else h.id

/-- Whether the schema lists its values. -/
def isEnum (h : SchemaHead) : Bool := !h.enumValues.isEmpty

/-- Whether the schema refers to one at the top level. -/
def isReference (h : SchemaHead) : Bool := !h.reference.isEmpty

end SchemaHead

namespace Schema

/-- Whether a schema describes values by name. -/
def isMap (s : Schema) : Bool := s.additional.isSome

/-- Whether a schema has named properties, so that a message can be made of it. -/
def isObject (s : Schema) : Bool := s.type == .object && !s.isMap

/-! ## Checking a declaration -/

/-- The head of a checked schema. The type is checked before the location. -/
def headOf (place : Place) (key : String) (d : Declaration) : Except Fault SchemaHead := do
  let type ← SchemaType.ofText d.type
  let location ← Location.ofText d.location
  return {
    place, key, type, location
    id := d.id.getD ""
    format := d.format.getD ""
    reference := d.reference.getD ""
    description := d.description.getD ""
    enumValues := d.enumValues.getD []
    enumDescriptions := d.enumDescriptions.getD []
    required := d.required.getD false
    repeated := d.repeated.getD false
    deprecated := d.deprecated.getD false
    canonical := d.canonical }

mutual

/-- The schema that a declaration stands for at a place. A node is checked before the schemas it
owns: its properties by key, then its items, then its additional properties. -/
def ofDeclaration (place : Place) (key : String) : Declaration → Except Fault Schema
  | ⟨a, properties, items, additional⟩ => do
    let head ← headOf place key ⟨a, properties, items, additional⟩
    let properties ← ofOptionTable place properties
    let items ← ofOption place key items
    let additional ← ofOption place key additional
    return { head with properties, items, additional }

/-- The items or values of the schema at a place. -/
def ofOption (place : Place) (key : String) :
    Option Declaration → Except Fault (Option Schema)
  | none => return none
  | some d => return some (← ofDeclaration place.element key d)

/-- The properties of the schema at a place, where it may have none. -/
def ofOptionTable (place : Place) :
    Option (List (String × Declaration)) → Except Fault (List (String × Schema))
  | none => return []
  | some ds => ofTable place ds

/-- The properties of the schema at a place. -/
def ofTable (place : Place) :
    List (String × Declaration) → Except Fault (List (String × Schema))
  | [] => return []
  | (key, d) :: ds => do
    let s ← ofDeclaration (place.property key) key d
    return (key, s) :: (← ofTable place ds)

end

end Schema

end DiscoveryGrpc.Api
