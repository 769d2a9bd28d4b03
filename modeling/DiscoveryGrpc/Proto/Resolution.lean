import DiscoveryGrpc.Proto.File
import DiscoveryGrpc.Fault

/-!
# Resolving the types of a file

Once a file has been read as a whole, every type name in it can be looked up. A name is a primitive
type, an enum nested in the message of the field, or a message of the file, in this order. The
package of the file may stand before a message or an enum, and the name of the message before an
enum nested in it. A name that is none of these is a fault; the first one, by message and field,
is reported.
-/

namespace DiscoveryGrpc.Proto

namespace Resolution

/-- A name without the package of the file. -/
def localName (package name : String) : String := (Text.after? (package ++ ".") name).getD name

/-- A name without the message it is nested in. -/
def nestedName (owner name : String) : String := (Text.after? (owner ++ ".") name).getD name

/-- The type that a name stands for in a message. -/
def lookup? (f : File) (owner : Message) (name : String) : Option FieldType :=
  let outer := localName f.package name
  let inner := nestedName owner.name outer
  match Primitive.ofName? name with
  | some .unformatted | none =>
    if owner.hasEnum inner then some (.enum inner)
    else if f.messages.has outer then some (.message outer)
    else none
  | some p => some (.primitive p)

/-- The type that a type of a field of a message stands for. -/
def resolveType (f : File) (owner : Message) (fieldName : String) :
    FieldType → Except Fault FieldType
  | .reference name =>
    match lookup? f owner name with
    | some type => .ok type
    | none => .error (.unknownFieldType owner.name fieldName name)
  | type => .ok type

/-- A field with its types resolved, the type of its values first. -/
def resolveField (f : File) (owner : Message) (x : Field) : Except Fault Field := do
  let type ← resolveType f owner x.name x.type
  let keyType ← match x.keyType with
    | none => pure none
    | some key => some <$> resolveType f owner x.name key
  return { x with type, keyType }

/-- A message with the types of its fields resolved. -/
def resolveMessage (f : File) (m : Message) : Except Fault Message := do
  return { m with fields := Field.sort (← m.fields.mapM (resolveField f m)) }

/-- The message that an rpc names. -/
def resolveRpcMessage (f : File) (service rpc name : String) : Except Fault String :=
  let outer := localName f.package name
  if f.messages.has outer then .ok outer else .error (.unknownRpcMessage service rpc outer)

/-- An rpc with its messages resolved. -/
def resolveRpc (f : File) (service : String) (r : Rpc) : Except Fault Rpc := do
  let input ← resolveRpcMessage f service r.name r.input
  let output ← resolveRpcMessage f service r.name r.output
  return { r with input, output }

/-- A table with every value resolved, in the order of the names. -/
def resolveTable (resolve : α → Except Fault α) (t : Table α) : Except Fault (Table α) :=
  t.mapM fun (name, x) => do return (name, ← resolve x)

/-- A service with the messages of its rpcs resolved. -/
def resolveService (f : File) (s : Service) : Except Fault Service := do
  return { s with rpcs := ← resolveTable (resolveRpc f s.name) s.rpcs }

end Resolution

/-- A file with all its types resolved, those of messages before those of services. -/
def File.resolved (f : File) : Except Fault File := do
  let messages ← Resolution.resolveTable (Resolution.resolveMessage f) f.messages
  let services ← Resolution.resolveTable (Resolution.resolveService f) f.services
  return { f with messages, services }

end DiscoveryGrpc.Proto
