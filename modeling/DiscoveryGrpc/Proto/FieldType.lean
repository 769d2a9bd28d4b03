/-!
# Types of fields

A field has a primitive type, or names a message or an enum. While a file is being built a type may
also be a bare reference, of which it is not known yet what it names.
-/

namespace DiscoveryGrpc.Text

/-- The text behind a beginning, if it has that beginning. -/
def after? (start s : String) : Option String :=
  if start.toList.isPrefixOf s.toList then some (String.ofList (s.toList.drop start.length))
  else none

end DiscoveryGrpc.Text

namespace DiscoveryGrpc.Proto

/-- The scalar types and the well known messages. -/
inductive Primitive
  /-- The type of enum members, which have none of their own. -/
  | unformatted
  | bool
  | string
  | bytes
  | int32
  | int64
  | uint32
  | uint64
  | float
  | double
  | any
  | struct
  | value
  | listValue
  deriving DecidableEq, Repr

namespace Primitive

/-- Every primitive type, in the order in which a name is looked up. -/
def all : List Primitive :=
  [unformatted, bool, string, bytes, int32, int64, uint32, uint64, float, double, any, struct,
    value, listValue]

/-- The name of a type in a proto file. -/
def name : Primitive → String
  | unformatted => ""
  | bool => "bool"
  | string => "string"
  | bytes => "bytes"
  | int32 => "int32"
  | int64 => "int64"
  | uint32 => "uint32"
  | uint64 => "uint64"
  | float => "float"
  | double => "double"
  | any => "google.protobuf.Any"
  | struct => "google.protobuf.Struct"
  | value => "google.protobuf.Value"
  | listValue => "google.protobuf.ListValue"

/-- The type with a name. -/
def ofName? (name : String) : Option Primitive := all.find? (·.name == name)

/-- The well known message with a name, with or without its package. -/
def wellKnown? (name : String) : Option Primitive :=
  match (Text.after? "google.protobuf." name).getD name with
  | "Any" => some any
  | "Struct" => some struct
  | "Value" => some value
  | "ListValue" => some listValue
  | _ => none

/-- Whether a type is a well known message. -/
def isWellKnown : Primitive → Bool
  | any | struct | value | listValue => true
  | _ => false

end Primitive

/-- The type of a field. -/
inductive FieldType
  | primitive (p : Primitive)
  /-- A name that is not resolved yet. -/
  | reference (name : String)
  /-- A message of the file. -/
  | message (name : String)
  /-- An enum nested in the message of the field. -/
  | enum (name : String)
  deriving DecidableEq, Repr

namespace FieldType

/-- The name that is written for a type. -/
def name : FieldType → String
  | primitive p => p.name
  | reference name | message name | enum name => name

end FieldType

end DiscoveryGrpc.Proto
