import DiscoveryGrpc.Config.Registry
import DiscoveryGrpc.Name.Identifier
import DiscoveryGrpc.Proto.File

/-!
# The state of a conversion

A conversion collects messages by name and resource definitions, registers inline schemas and takes
notes. It can fail at any step; what has been registered and noted until then stays, because a
registry may serve several conversions.
-/

namespace DiscoveryGrpc

open Proto

/-- What a conversion is asked to do. -/
structure Options where
  /-- The package is this, followed by the name and the version of the api. -/
  packagePrefix : String := "google.cloud"
  /-- Resource keys or service names to leave out. -/
  ignoredServices : List String := []
  /-- Schemas at the top level to leave out, with the fields and methods that use them. -/
  ignoredMessages : List String := []
  /-- Whether fields with enums are strings; the enums stay. -/
  enumsAsStrings : Bool := false
  deriving DecidableEq, Repr

namespace Options

/-- The message names of the schemas to leave out. -/
def ignoredNames (o : Options) : NameSet :=
  NameSet.ofList (o.ignoredMessages.map fun key =>
    match messageName key with
    | .ok name => name
    | .error _ => key)

end Options

namespace Conversion

/-- What a conversion has made so far. -/
structure Workspace where
  registry : Registry
  messages : Table Message := []
  resources : List Setting := []
  log : Log := []

/-- A step of a conversion. -/
abbrev Build := EStateM Fault Workspace

instance : MonadLift (Except Fault) Build where
  monadLift
    | .ok a => pure a
    | .error fault => throw fault

/-- Takes a note. -/
def note (e : Event) : Build Unit := modify fun w => { w with log := w.log ++ [e] }

/-- The one message that may be generated twice: `Errors` with a field that holds `Errors`. -/
def isErrors (m : Message) : Bool :=
  m.name == "Errors" && m.fields.any (·.type == .message "Errors")

/-- Adds a message, unless the same one is there. A different one with its name is a fault, but for
`Errors`, of which the first one stays. The result says whether the message is there now. -/
def addMessage (m : Message) : Build Bool := do
  let w ← get
  match w.messages.get? m.name with
  | none =>
    set { w with messages := w.messages.insert m.name m }
    return true
  | some existing =>
    if existing.same m then return true
    else if isErrors m then
      note (.keepingMessage m.name)
      return false
    else throw (.messageCollision m.name)

/-- Adds a field to a message that has none with its name. -/
def addUniqueField (m : Message) (f : Field) : Except Fault Message :=
  match m.addField? f with
  | some m => .ok m
  | none => .error (.fieldCollision m.name f.name)

end Conversion

end DiscoveryGrpc
