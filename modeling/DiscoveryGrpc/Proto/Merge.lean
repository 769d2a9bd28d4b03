import DiscoveryGrpc.Proto.File
import DiscoveryGrpc.Event

/-!
# Merging an earlier file into a new one

Clients depend on what an earlier file had. Merging brings it back into a new file: fields that are
missing, fields that had more options or another optionality, and method signatures, which go
before the new ones. A field comes back only if its types still exist. Everything new stays, and no
message, service, rpc or enum comes back as a whole.
-/

namespace DiscoveryGrpc.Proto

namespace Merge

/-! ## Fields -/

/-- An old type as a type of the new file, if it still exists there. A reference can only mean a
message. -/
def remapType? (messages : NameSet) (owner : Message) : FieldType → Option FieldType
  | .primitive p => some (.primitive p)
  | .message name | .reference name =>
    if messages.contains name then some (.message name) else none
  | .enum name => if owner.hasEnum name then some (.enum name) else none

/-- An old field with its types as types of the new file. -/
def remapField? (messages : NameSet) (owner : Message) (f : Field) : Option Field := do
  let type ← remapType? messages owner f.type
  let keyType ← match f.keyType with
    | none => some none
    | some key => (remapType? messages owner key).map some
  return { f with type, keyType }

/-- What merging into a message comes to: the message, how many fields came back, and the notes. -/
structure Outcome where
  message : Message
  restored : Nat
  log : Log

namespace Outcome

/-- Nothing has come back yet. -/
def start (m : Message) : Outcome := ⟨m, 0, []⟩

/-- A field has come back. -/
def restore (o : Outcome) (m : Message) : Outcome :=
  { o with message := m, restored := o.restored + 1 }

/-- Something is noted. -/
def note (o : Outcome) (e : Event) : Outcome := { o with log := o.log ++ [e] }

end Outcome

/-- Whether the old field had something that the new one lacks. -/
def supersedes (old new : Field) : Bool :=
  new.settings.length < old.settings.length || old.optional != new.optional

/-- Merges one field of the old message with a name into the new one. -/
def mergeField (messages : NameSet) (oldName : String) (o : Outcome) (old : Field) : Outcome :=
  match o.message.field? old.name, remapField? messages o.message old with
  | none, some f => o.restore (o.message.addField f)
  | none, none => o.note (.droppingOldField oldName old.name)
  | some new, some f =>
    if supersedes old new then
      o.restore (o.message.putField { f with description := new.description })
    else o
  | some _, none => o

/-! ## Messages -/

mutual

/-- Merges an old message into a new one: its enums first, then its fields. -/
def mergeMessage (messages : NameSet) (o : Outcome) : Message → Outcome
  | ⟨name, _, _, fields, enums⟩ =>
    fields.foldl (mergeField messages name) (mergeEnums messages o enums)

/-- Merges the enums of an old message into those of a new one. -/
def mergeEnums (messages : NameSet) (o : Outcome) : List (String × Message) → Outcome
  | [] => o
  | (_, old) :: rest =>
    match o.message.enum? old.name with
    | none => mergeEnums messages o rest
    | some new =>
      let merged := mergeMessage messages { o with message := new } old
      let enums := Table.insert old.name merged.message o.message.enums
      mergeEnums messages { merged with message := { o.message with enums } } rest

end

/-! ## Signatures -/

/-- Whether an option is a method signature. -/
def isSignature (s : Setting) : Bool := s.name == Setting.methodSignature

/-- The options of a new rpc with the signatures of the old one. All signatures stand where the
first new one stood, or at the end: the old ones, then the new ones that are not among them. -/
def mergeSignatures (old new : List Setting) : List Setting :=
  let kept := old.filter isSignature
  if kept.isEmpty then new
  else
    let added := (new.filter isSignature).foldl
      (fun all s => if all.contains s then all else all ++ [s]) kept
    new.takeWhile (!isSignature ·) ++ added
      ++ (new.dropWhile (!isSignature ·)).filter (!isSignature ·)

/-- Merges an old rpc into the rpcs of a new service. -/
def mergeRpc (rpcs : Table Rpc) (old : Rpc) : Table Rpc :=
  rpcs.modify old.name fun new => { new with settings := mergeSignatures old.settings new.settings }

/-- Merges an old service into new ones. -/
def mergeService (services : Table Service) (old : Service) : Table Service :=
  services.modify old.name fun new => { new with rpcs := old.rpcs.values.foldl mergeRpc new.rpcs }

/-! ## Files -/

/-- What merging into a file comes to so far. -/
structure Progress where
  messages : Table Message
  restored : Nat := 0
  log : Log := []

/-- Merges an old message into new ones. -/
def mergeInto (names : NameSet) (p : Progress) (old : Message) : Progress :=
  match p.messages.get? old.name with
  | none => { p with log := p.log ++ [.lostMessage old.name] }
  | some new =>
    let o := mergeMessage names ⟨new, p.restored, p.log⟩ old
    ⟨p.messages.insert old.name o.message, o.restored, o.log⟩

end Merge

/-- Merges an old file into a new one, with the notes on it. -/
def File.merge (new old : File) : File × Log :=
  let start : Merge.Progress := { messages := new.messages }
  let p := old.messages.values.foldl (Merge.mergeInto new.messages.names) start
  let services := old.services.values.foldl Merge.mergeService new.services
  ({ new with messages := p.messages, services },
    p.log ++ [.merged new.package p.restored])

end DiscoveryGrpc.Proto
