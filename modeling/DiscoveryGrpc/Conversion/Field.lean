import DiscoveryGrpc.Conversion.Workspace
import DiscoveryGrpc.Api.Schema

/-!
# From schemas to fields

Every property of an object becomes a field. Its type is a reference, a primitive type, an enum
nested in the message of the field, or a message made of the inline object. An array is a repeated
field and an object with additional properties a map; the elements of both must not be arrays or
maps themselves.

The type of a field comes first, with everything it adds to the workspace, then its name.
-/

namespace DiscoveryGrpc.Conversion

open Proto Api

/-! ## Primitive types and enums -/

/-- The primitive type for a schema type and format. -/
def primitiveType (type : SchemaType) (format : String) : Primitive :=
  match type, format with
  | .boolean, _ => .bool
  | .integer, "uint32" => .uint32
  | .integer, "int64" => .int64
  | .integer, "uint64" => .uint64
  | .integer, _ => .int32
  | .number, "float" => .float
  | .number, _ => .double
  | _, "int64" => .int64
  | _, "uint64" => .uint64
  | _, "byte" => .bytes
  | _, _ => .string

/-- The member of an enum that stands for no value. -/
def undefinedMember (enum : String) : Except Fault Field := do
  let name ← Name.ofIdentifier? enum
  return {
    name := "UNDEFINED_" ++ name.upperUnderscore
    type := .primitive .unformatted
    first := true
    description := "A value indicating that the enum field is not set." }

/-- Values with their descriptions; a value may have none. -/
def withDescriptions : List String → List String → List (String × String)
  | [], _ => []
  | v :: vs, [] => (v, "") :: withDescriptions vs []
  | v :: vs, d :: ds => (v, d) :: withDescriptions vs ds

/-- Adds the member for a value to an enum. A member that is there already is noted. -/
def addMember (e : Message) (value : String × String) : Build Message := do
  let name ← enumMemberName value.1
  let member : Field := { name, type := .primitive .unformatted, description := value.2 }
  match e.addField? member with
  | some e => return e
  | none =>
    note (.repeatedEnumValue e.name value.1)
    return e

/-- The enum of a schema that lists its values. -/
def enumOf (h : SchemaHead) (name : String) : Build Message := do
  let undefined ← undefinedMember name
  let start := ({ name, isEnum := true, description := h.description } : Message).addField undefined
  (withDescriptions h.enumValues h.enumDescriptions).foldlM addMember start

/-- Nests an enum in a message. A different one with its name is a fault. -/
def nestEnum (owner e : Message) : Except Fault Message :=
  match owner.enum? e.name with
  | none => .ok (owner.addEnum e)
  | some existing =>
    if existing.same e then .ok owner else .error (.enumCollision owner.name e.name)

/-- The type of a schema that lists its values, and the message with the enum. -/
def enumType (opts : Options) (h : SchemaHead) (owner : Message) : Build (FieldType × Message) := do
  let name ← messageName h.identifier
  let e ← enumOf h name
  let owner ← nestEnum owner e
  return (if opts.enumsAsStrings then .primitive .string else .enum name, owner)

/-! ## Inline messages -/

/-- The type of an object that `make` makes a message of. An object without an id is an inline
schema, whose name is that of the registry. -/
def inlineType (h : SchemaHead) (make : String → Build Message) : Build FieldType := do
  let default ← messageName h.identifier
  let inline := h.id.isEmpty
  let registry := (← get).registry
  let name := if inline then registry.messageName h.place.path h.canonical default else default
  let m ← make name
  if (← addMessage m) && inline then
    modify fun w => { w with registry := w.registry.register h.place.path name h.canonical }
  return .message name

/-! ## Types of values -/

/-- The type of a single value, and the message with the enum it may need. -/
def valueType (opts : Options) (h : SchemaHead) (make : String → Build Message) (owner : Message) :
    Build (FieldType × Message) := do
  if h.isReference then return (.reference (← messageName h.reference), owner)
  match h.type with
  | .string =>
    if h.isEnum then enumType opts h owner
    else return (.primitive (primitiveType h.type h.format), owner)
  | .boolean | .integer | .number => return (.primitive (primitiveType h.type h.format), owner)
  | .any =>
    match Primitive.wellKnown? h.format with
    | some p => return (.primitive p, owner)
    | none => throw (.anySchema h.place.path)
  | .object => return (← inlineType h make, owner)
  | .array => throw (.nestedArray h.place.path)
  | .empty => throw (.untyped h.place.path)

/-- Whether values of a schema stand under names of their own choice. -/
def isMapField (h : SchemaHead) (additional : Option Schema) : Bool :=
  h.type == .object && additional.isSome

/-- The field for a schema whose values have a type. -/
def fieldWithType (h : SchemaHead) (isMap : Bool) (type : FieldType) : Except Fault Field := do
  let name ← fieldName h.key
  let repeated := h.type == .array || isMap || h.repeated
  return {
    name, type, repeated
    optional := !repeated && !h.required
    keyType := if isMap then some (.primitive .string) else none
    settings := (if h.required then [Setting.required] else [])
      ++ (if h.deprecated then [.scalar Setting.deprecated (.bool true)] else [])
    description := h.description }

mutual

/-- The field for a property or parameter of a message, and the message with the enum that the
field may need. -/
def fieldOf (opts : Options) : Schema → Message → Build (Field × Message)
  | ⟨h, properties, items, additional⟩, owner => do
    let (type, owner) ←
      if h.type == .array then elementType opts h.place.path .items items owner
      else if isMapField h additional then
        elementType opts h.place.path .additionalProperties additional owner
      else
        valueType opts h
          (fun name => addProperties opts properties { name, description := h.description })
          owner
    return (← fieldWithType h (isMapField h additional) type, owner)

/-- The type of the elements of an array or map at a path. -/
def elementType (opts : Options) (path : String) (slot : ElementSlot) :
    Option Schema → Message → Build (FieldType × Message)
  | none, _ => throw (.noElement path slot)
  | some ⟨h, properties, _, additional⟩, owner =>
    if !h.isReference && (h.type == .array || additional.isSome) then
      throw (.nestedElement path slot)
    else
      valueType opts h
        (fun name => addProperties opts properties { name, description := h.description }) owner

/-- Adds the fields for properties to a message, by key. -/
def addProperties (opts : Options) : List (String × Schema) → Message → Build Message
  | [], m => return m
  | (_, s) :: rest, m => do
    let (f, m) ← fieldOf opts s m
    let m ← addUniqueField m f
    addProperties opts rest m

end

/-- The message with a name that is made of an object. -/
def messageOf (opts : Options) (s : Schema) (name : String) : Build Message :=
  addProperties opts s.properties { name, description := s.description }

end DiscoveryGrpc.Conversion
