import DiscoveryGrpc.Table
import DiscoveryGrpc.Proto.Field

/-!
# Messages and enums

Messages and enums are one type: a name, fields or members in order, and the enums nested inside.
Every operation that can change the place of a field sorts again, so the order in which fields were
added never shows.

Two messages are the same when they agree up to their descriptions: `undocumented` takes the
descriptions away, and `same` compares what is left.
-/

namespace DiscoveryGrpc.Proto

/-- A message or an enum. -/
structure Message where
  name : String
  /-- Whether this is an enum, whose fields are its members. -/
  isEnum : Bool := false
  description : String := ""
  /-- The fields in order. -/
  fields : List Field := []
  /-- The table of nested enums. -/
  enums : List (String × Message) := []

namespace Message

/-! ## Operations on fields -/

/-- The field with a name. -/
def field? (m : Message) (name : String) : Option Field := m.fields.find? (·.name == name)

/-- Adds a field, unless one with its name is there: then there is no result. -/
def addField? (m : Message) (f : Field) : Option Message :=
  if (m.field? f.name).isSome then none else some { m with fields := f.insert m.fields }

/-- Adds a field, unless one with its name is there. -/
def addField (m : Message) (f : Field) : Message := (m.addField? f).getD m

/-- Adds a field in place of those with its name. -/
def putField (m : Message) (f : Field) : Message :=
  { m with fields := f.insert (m.fields.filter (·.name != f.name)) }

/-- Removes the first field with a name. -/
def removeField (m : Message) (name : String) : Message :=
  { m with fields := m.fields.eraseP (·.name == name) }

/-- Changes every field; the order is restored afterwards. -/
def updateFields (m : Message) (change : Field → Field) : Message :=
  { m with fields := Field.sort (m.fields.map change) }

/-- Keeps the fields that pass a test. -/
def retainFields (m : Message) (keep : Field → Bool) : Message :=
  { m with fields := m.fields.filter keep }

/-! ## Operations on enums -/

/-- Nests an enum, in place of the one with its name. -/
def addEnum (m e : Message) : Message := { m with enums := Table.insert e.name e m.enums }

/-- Removes a nested enum. -/
def removeEnum (m : Message) (name : String) : Message :=
  { m with enums := Table.erase m.enums name }

/-- The nested enum with a name. -/
def enum? (m : Message) (name : String) : Option Message := Table.get? m.enums name

/-- Whether an enum with a name is nested. -/
def hasEnum (m : Message) (name : String) : Bool := Table.has m.enums name

/-! ## Comparison -/

mutual

/-- Equality can be decided. -/
def decEq : (a b : Message) → Decidable (a = b)
  | ⟨name, isEnum, description, fields, enums⟩,
    ⟨name', isEnum', description', fields', enums'⟩ =>
    if h : name = name' ∧ isEnum = isEnum' ∧ description = description' ∧ fields = fields' then
      match decEqTable enums enums' with
      | isTrue h' => isTrue (by obtain ⟨rfl, rfl, rfl, rfl⟩ := h; rw [h'])
      | isFalse h' => isFalse (by intro e; cases e; exact h' rfl)
    else isFalse (by intro e; cases e; exact h ⟨rfl, rfl, rfl, rfl⟩)

/-- Equality of tables of messages can be decided. -/
def decEqTable : (a b : List (String × Message)) → Decidable (a = b)
  | [], [] => isTrue rfl
  | [], _ :: _ => isFalse (by simp)
  | _ :: _, [] => isFalse (by simp)
  | (k, m) :: t, (k', m') :: t' =>
    if h : k = k' then
      match decEq m m' with
      | isTrue h₁ =>
        match decEqTable t t' with
        | isTrue h₂ => isTrue (by rw [h, h₁, h₂])
        | isFalse h₂ => isFalse (by intro e; cases e; exact h₂ rfl)
      | isFalse h₁ => isFalse (by intro e; cases e; exact h₁ rfl)
    else isFalse (by intro e; cases e; exact h rfl)

end

instance : DecidableEq Message := decEq

mutual

/-- The message without descriptions, its fields and enums included. -/
def undocumented : Message → Message
  | ⟨name, isEnum, _, fields, enums⟩ =>
    ⟨name, isEnum, "", fields.map Field.undocumented, tableUndocumented enums⟩

/-- A table of messages without descriptions. -/
def tableUndocumented : List (String × Message) → List (String × Message)
  | [] => []
  | (k, m) :: t => (k, undocumented m) :: tableUndocumented t

end

theorem tableUndocumented_eq (t : Table Message) :
    tableUndocumented t = t.mapValues undocumented := by
  induction t with
  | nil => rfl
  | cons e t ih => rw [tableUndocumented, ih]; rfl

/-- Whether two messages agree up to their descriptions. -/
def same (a b : Message) : Bool := a.undocumented == b.undocumented

end Message

end DiscoveryGrpc.Proto
