import DiscoveryGrpc.Conversion.Workspace

/-!
# Conflicting enums

The members of an enum share the scope of the message that the enum is nested in, so two enums of a
message with a common member cannot both stay. They are removed, and fields with their type become
strings.
-/

namespace DiscoveryGrpc.Conversion

open Proto

/-- Whether two enums have a member of the same name. -/
def shareMember (a b : Message) : Bool :=
  a.fields.any fun f => b.fields.any (·.name == f.name)

/-- The enums of a message that share a member with another one, by name. -/
def conflictingEnums (m : Message) : NameSet :=
  Table.names (m.enums.filter fun e =>
    m.enums.any fun other => other.1 != e.1 && shareMember e.2 other.2)

/-- A type, which is a string instead of an enum that was removed. -/
def withoutEnums (removed : NameSet) : FieldType → FieldType
  | .enum name => if removed.contains name then .primitive .string else .enum name
  | type => type

/-- A message without the enums of a set. -/
def removeEnums (removed : NameSet) (m : Message) : Message :=
  (removed.foldl Message.removeEnum m).updateFields fun f =>
    { f with type := withoutEnums removed f.type }

/-- A message without its conflicting enums. -/
def removeConflicts (m : Message) : Message :=
  let conflicting := conflictingEnums m
  if conflicting.isEmpty then m else removeEnums conflicting m

/-- The note on a message with conflicting enums. -/
def conflictNote (m : Message) : Log :=
  let conflicting := conflictingEnums m
  if conflicting.isEmpty then [] else [.removingEnums conflicting m.name]

/-- Removes the conflicting enums of the messages made so far. -/
def removeConflictingEnums : Build Unit :=
  modify fun w => { w with
    messages := w.messages.mapValues removeConflicts
    log := w.log ++ w.messages.values.flatMap conflictNote }

end DiscoveryGrpc.Conversion
