import DiscoveryGrpc.Conversion.Workspace

/-!
# Resolving references

When all messages are there, every reference to one of them becomes its type. A field that refers to
a message to be left out, and that was not generated anyhow, is dropped. What still refers to
nothing is dangling, and so is an rpc whose request or response is missing; all of it is reported
together.
-/

namespace DiscoveryGrpc.Conversion

open Proto

/-- A type with a reference to a known message resolved. -/
def resolveType (known : NameSet) : FieldType → FieldType
  | .reference name => if known.contains name then .message name else .reference name
  | type => type

/-- Whether a field goes because its message is left out. -/
def isDropped (known ignored : NameSet) (f : Field) : Bool :=
  match f.type with
  | .reference name => !known.contains name && ignored.contains name
  | _ => false

/-- A message with its references resolved and the fields for messages that are left out gone. -/
def resolveMessage (known ignored : NameSet) (m : Message) : Message :=
  (m.retainFields (!isDropped known ignored ·)).updateFields fun f =>
    { f with type := resolveType known f.type, keyType := f.keyType.map (resolveType known) }

/-- The notes on fields that go. -/
def droppedFields (known ignored : NameSet) (m : Message) : Log :=
  (m.fields.filter (isDropped known ignored)).map fun f => .droppingField m.name f.name

/-- The fields of a message that still refer to nothing. -/
def danglingFields (m : Message) : List Dangling :=
  m.fields.filterMap fun f =>
    match f.type with
    | .reference name => some (.field m.name f.name name)
    | _ => none

/-- The messages of a service that are missing. -/
def danglingRpcs (known : NameSet) (s : Service) : List Dangling :=
  s.rpcs.values.flatMap fun r =>
    ([r.input, r.output].filter (!known.contains ·)).map fun name => .rpc s.name r.name name

/-- Resolves all references of the messages made so far, and checks those of the services. -/
def resolveReferences (ignored : NameSet) (services : Table Service) : Build Unit := do
  let w ← get
  let known := w.messages.names
  let messages := w.messages.mapValues (resolveMessage known ignored)
  set { w with
    messages
    log := w.log ++ w.messages.values.flatMap (droppedFields known ignored) }
  match messages.values.flatMap danglingFields ++ services.values.flatMap (danglingRpcs known) with
  | [] => return
  | uses => throw (.danglingReferences uses)

end DiscoveryGrpc.Conversion
