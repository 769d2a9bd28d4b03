import DiscoveryGrpc.Proofs.Table
import DiscoveryGrpc.Proofs.Proto.Field
import DiscoveryGrpc.Proto.File

/-!
# Strings for enums

A message with strings for enums has the fields and the nested enums that it had, but where a field
held an enum it holds a string. Names and places of fields stay, so whatever is done with the fields
of a message can be done before or after.
-/

namespace DiscoveryGrpc.Proto

/-- A type, which is a string if it was an enum. -/
def FieldType.withStrings : FieldType → FieldType
  | .enum _ => .primitive .string
  | type => type

/-- A field, which holds a string if it held an enum. -/
def Field.withStrings (f : Field) : Field := { f with type := f.type.withStrings }

/-- A message with strings for enums as types of its fields. The enums stay. -/
def Message.withStrings (m : Message) : Message :=
  { m with fields := m.fields.map Field.withStrings }

/-- A file with strings for enums as types of fields, and the same otherwise. -/
def File.withStrings (f : File) : File :=
  { f with messages := f.messages.mapValues Message.withStrings }

namespace Message

variable {m m' : Message}

theorem undocumented_withStrings (m : Message) :
    m.withStrings.undocumented = m.undocumented.withStrings := by
  rw [undocumented_eq, undocumented_eq m, withStrings, withStrings, List.map_map, List.map_map]
  rfl

/-- The same messages are the same with strings for enums. Different ones may be, too. -/
theorem same_withStrings (h : m.same m' = true) : m.withStrings.same m'.withStrings = true := by
  rw [same, undocumented_withStrings, undocumented_withStrings, beq_iff_eq.1 h]
  exact beq_self_eq_true _

theorem field?_withStrings (m : Message) (name : String) :
    m.withStrings.field? name = (m.field? name).map Field.withStrings := by
  rw [field?, withStrings, List.find?_map]
  rfl

theorem addField?_withStrings (m : Message) (f : Field) :
    m.withStrings.addField? f.withStrings = (m.addField? f).map withStrings := by
  rw [addField?, addField?, field?_withStrings, Option.isSome_map]
  change (if (m.field? f.name).isSome then _ else _) = _
  split
  · rfl
  · exact congrArg (fun fields => some { m with fields })
      (Field.insert_map Field.withStrings (fun _ => rfl) (fun _ => rfl) f m.fields)

theorem updateFields_withStrings {change : Field → Field}
    (h : ∀ f, change f.withStrings = (change f).withStrings) (m : Message) :
    m.withStrings.updateFields change = (m.updateFields change).withStrings := by
  have hmap : (m.fields.map Field.withStrings).map change =
      (m.fields.map change).map Field.withStrings := by
    rw [List.map_map, List.map_map]
    exact List.map_congr_left fun f _ => h f
  refine congrArg (fun fields => { m with fields }) ?_
  exact (congrArg Field.sort hmap).trans
    (Field.sort_map Field.withStrings (fun _ => rfl) (fun _ => rfl) _)

theorem retainFields_withStrings {keep : Field → Bool} (h : ∀ f, keep f.withStrings = keep f)
    (m : Message) : m.withStrings.retainFields keep = (m.retainFields keep).withStrings :=
  congrArg (fun fields => { m with fields }) (Field.filter_map h m.fields)

end Message

end DiscoveryGrpc.Proto
