import DiscoveryGrpc.Proofs.Conversion.Replay
import DiscoveryGrpc.Proofs.Conversion.Registered

/-!
# The course of a conversion

Properties become fields of a message one after another. The value of a property may be an object of
its own, and then a message is made of that first, in the same way. `Filled` is the tree of what
happens on the way: one rule for a value that has a plain type, one for a nested object. A
computation that succeeds has such a tree (`filled_of_addProperties`), and what is said about
messages and their fields is proved by induction on it.

Messages stay where they are once they have been added (`Grows`). `Makes` says that a conversion
makes a message of an object somewhere between two workspaces, and `Gives` that it does so for a
nested object, under the name that such an object is given.
-/

namespace DiscoveryGrpc

open Proto Api

namespace Api.Schema

/-- Whether values of a property stand under names of their own choice. -/
def isMapField (s : Schema) : Bool := Conversion.isMapField s.toSchemaHead s.additional

/-- The schema of the single values of a property: that of the items of an array or of the values of
a map, and the schema of the property itself otherwise. -/
def value? (s : Schema) : Option Schema :=
  if s.type == .array then s.items
  else if s.isMapField then s.additional
  else some s

/-- Whether a message is made of a schema where it stands: it has named properties and does not
refer to another schema. -/
def isNested (s : Schema) : Bool := s.isObject && !s.isReference

theorem sizeOf_value? {s v : Schema} (h : s.value? = some v) :
    sizeOf v.properties < sizeOf s := by
  obtain ⟨head, properties, items, additional⟩ := s
  unfold value? at h
  split at h
  · obtain rfl : items = some v := h
    cases v
    simp
    omega
  · split at h
    · obtain rfl : additional = some v := h
      cases v
      simp
      omega
    · obtain rfl := Option.some.inj h
      simp
      omega

end Api.Schema

namespace Conversion

variable {opts : Options} {w w' : Workspace} {α β : Type}

/-! ## Computations that succeed -/

theorem lift_eq_ok_iff {x : Except Fault α} {a : α} :
    (liftM x : Build α) w = .ok a w' ↔ x = .ok a ∧ w = w' := by
  cases x with
  | error fault => exact iff_of_false nofun nofun
  | ok b =>
    change EStateM.Result.ok b w = .ok a w' ↔ _
    simp

/-- A computation that needs no workspace comes first. -/
theorem lift_bind_eq_ok_iff {x : Except Fault α} {f : α → Build β} {b : β} :
    (liftM x >>= f : Build β) w = .ok b w' ↔ ∃ a, x = .ok a ∧ f a w = .ok b w' := by
  rw [bind_eq_ok_iff]
  constructor
  · rintro ⟨a, w₁, hlift, hf⟩
    obtain ⟨hx, hw⟩ := lift_eq_ok_iff.1 hlift
    exact ⟨a, hx, hw ▸ hf⟩
  · rintro ⟨a, hx, hf⟩
    exact ⟨a, w, lift_eq_ok_iff.2 ⟨hx, rfl⟩, hf⟩

theorem pure_eq_ok_iff {a b : α} : (pure a : Build α) w = .ok b w' ↔ a = b ∧ w = w' := by
  change EStateM.Result.ok a w = .ok b w' ↔ _
  simp

theorem not_throw_eq_ok {fault : Fault} {a : α} : (throw fault : Build α) w ≠ .ok a w' := nofun

/-- What one after another computation of a list keeps, all of them keep. -/
theorem foldlM_keeps {P : Workspace → Prop} {f : β → α → Build β} {xs : List α} {b c : β}
    (hf : ∀ b, ∀ x ∈ xs, ∀ w c w', f b x w = .ok c w' → P w → P w')
    (h : xs.foldlM f b w = .ok c w') (hw : P w) : P w' := by
  induction xs generalizing b w with
  | nil =>
    obtain ⟨-, rfl⟩ := pure_eq_ok_iff.1 h
    exact hw
  | cons x xs ih =>
    rw [List.foldlM_cons] at h
    obtain ⟨b₁, w₁, hx, hxs⟩ := bind_eq_ok_iff.1 h
    exact ih (fun b y hy => hf b y (List.mem_cons_of_mem _ hy)) hxs
      (hf b x List.mem_cons_self w b₁ w₁ hx hw)

theorem forM_keeps {P : Workspace → Prop} {f : α → Build PUnit} {xs : List α} {u : PUnit}
    (hf : ∀ x ∈ xs, ∀ w u w', f x w = .ok u w' → P w → P w')
    (h : xs.forM f w = .ok u w') (hw : P w) : P w' := by
  induction xs generalizing w with
  | nil =>
    obtain ⟨-, rfl⟩ := pure_eq_ok_iff.1 h
    exact hw
  | cons x xs ih =>
    obtain ⟨_, w₁, hx, hxs⟩ := bind_eq_ok_iff.1 h
    exact ih (fun y hy => hf y (List.mem_cons_of_mem _ hy)) hxs
      (hf x List.mem_cons_self w _ w₁ hx hw)

/-- What leads somewhere and succeeds has got there. -/
theorem Leads.of_ok {x : Build α} {Q : α → Workspace → Prop} {a : α}
    (h : Leads .any x w Q) (hx : x w = .ok a w') : Steps .any w w' ∧ Q a w' := by
  have hrun := h.run ⟨fun _ _ => trivial, fun _ _ => trivial⟩
  rw [hx] at hrun
  exact hrun

theorem admits_any (h : SchemaHead) : Naming.any.Admits h :=
  ⟨fun _ _ => trivial, fun _ _ => trivial⟩

/-! ## Messages stay -/

/-- Every message of a workspace is in another one, too, under the same name. -/
def Grows (w w' : Workspace) : Prop :=
  ∀ n m, w.messages.get? n = some m → w'.messages.get? n = some m

theorem Grows.refl (w : Workspace) : Grows w w := fun _ _ h => h

theorem Grows.trans {w₁ w₂ w₃ : Workspace} (h : Grows w₁ w₂) (h' : Grows w₂ w₃) : Grows w₁ w₃ :=
  fun n m hm => h' n m (h n m hm)

theorem Grows.of_eq (h : w'.messages = w.messages) : Grows w w' := fun _ _ hm => h ▸ hm

theorem Steps.grows {N : Naming} (h : Steps N w w') : Grows w w' := by
  induction h with
  | refl => exact .refl _
  | tail _ hstep ih =>
    refine ih.trans ?_
    cases hstep with
    | addMessage m hnew =>
      intro n existing hn
      dsimp only
      rw [Table.get?_insert, if_neg, hn]
      rintro rfl
      rw [Table.has_of_get? hn] at hnew
      cases hnew
    | _ => exact fun _ _ hn => hn

/-- Adding a message succeeds in three ways. -/
theorem addMessage_eq_ok {m : Message} {kept : Bool} (h : addMessage m w = .ok kept w') :
    (kept = true ∧ w.messages.get? m.name = none ∧
      w' = { w with messages := w.messages.insert m.name m }) ∨
    (∃ existing, w.messages.get? m.name = some existing ∧ kept = true ∧ existing.same m = true ∧
      w' = w) ∨
    (∃ existing, w.messages.get? m.name = some existing ∧ kept = false ∧
      existing.same m = false ∧ isErrors m = true ∧ w'.messages = w.messages) := by
  rw [addMessage_apply] at h
  cases hget : w.messages.get? m.name with
  | none =>
    rw [hget] at h
    cases h
    exact .inl ⟨rfl, rfl, rfl⟩
  | some existing =>
    rw [hget] at h
    dsimp only at h
    split at h
    · rename_i hsame
      cases h
      exact .inr (.inl ⟨existing, rfl, rfl, hsame, rfl⟩)
    · rename_i hsame
      split at h
      · rename_i herrors
        cases h
        exact .inr (.inr ⟨existing, rfl, rfl, by simpa using hsame, herrors, rfl⟩)
      · cases h

theorem grows_of_addMessage {m : Message} {kept : Bool} (h : addMessage m w = .ok kept w') :
    Grows w w' := by
  rcases addMessage_eq_ok h with ⟨-, hnone, rfl⟩ | ⟨_, -, -, -, rfl⟩ | ⟨_, -, -, -, -, hw⟩
  · intro n existing hn
    dsimp only
    rw [Table.get?_insert, if_neg, hn]
    rintro rfl
    rw [hnone] at hn
    cases hn
  · exact .refl _
  · exact .of_eq hw

/-- A message that is kept is there, up to descriptions. -/
theorem exists_of_addMessage {m : Message} (h : addMessage m w = .ok true w') :
    ∃ stored, w'.messages.get? m.name = some stored ∧ stored.same m = true := by
  rcases addMessage_eq_ok h with ⟨-, -, rfl⟩ | ⟨stored, hstored, -, hsame, rfl⟩ | ⟨_, -, hkept, -⟩
  · exact ⟨m, by simp [Table.get?_insert], by simp [Message.same]⟩
  · exact ⟨stored, hstored, hsame⟩
  · cases hkept

/-! ## Types of values -/

/-- What a type is when it does not need a message of its own, given how types are written that name
a message or an enum. -/
inductive PlainType (reference enum : String → FieldType) (v : Schema) : FieldType → Prop
  | reference {n : String} (href : v.isReference = true) (hn : messageName v.reference = .ok n) :
      PlainType reference enum v (reference n)
  | scalar (hown : v.isReference = false)
      (htype : v.type ∈ [.boolean, .integer, .number] ∨ v.type = .string ∧ v.isEnum = false) :
      PlainType reference enum v (.primitive (primitiveType v.type v.format))
  | wellKnown {p : Primitive} (hown : v.isReference = false) (htype : v.type = .any)
      (hp : Primitive.wellKnown? v.format = some p) : PlainType reference enum v (.primitive p)
  | enum {n : String} (hown : v.isReference = false) (htype : v.type = .string)
      (henum : v.isEnum = true) (hn : messageName v.identifier = .ok n) :
      PlainType reference enum v (enum n)

theorem PlainType.not_nested {reference enum : String → FieldType} {v : Schema} {t : FieldType}
    (h : PlainType reference enum v t) : ¬v.isNested = true := by
  cases h with
  | reference href => simp [Schema.isNested, href]
  | scalar hown htype =>
    rcases htype with htype | ⟨htype, -⟩
    · simp only [List.mem_cons, List.not_mem_nil, or_false] at htype
      rcases htype with htype | htype | htype <;> simp [Schema.isNested, Schema.isObject, htype]
    · simp [Schema.isNested, Schema.isObject, htype]
  | wellKnown _ htype => simp [Schema.isNested, Schema.isObject, htype]
  | enum _ htype => simp [Schema.isNested, Schema.isObject, htype]

/-- The type of a field with an enum while messages are made. -/
def enumMade (opts : Options) (n : String) : FieldType :=
  if opts.enumsAsStrings then .primitive .string else .enum n

theorem messages_addMember {e e' : Message} {value : String × String}
    (h : addMember e value w = .ok e' w') : w'.messages = w.messages := by
  obtain ⟨name, -, h⟩ := lift_bind_eq_ok_iff.1 h
  cases hadd : e.addField? { name, type := .primitive .unformatted, description := value.2 } with
  | some e₁ =>
    simp only [hadd] at h
    rw [(pure_eq_ok_iff.1 h).2]
  | none =>
    simp only [hadd] at h
    obtain ⟨_, w₂, hnote, h⟩ := bind_eq_ok_iff.1 h
    obtain ⟨-, rfl⟩ := pure_eq_ok_iff.1 h
    cases hnote
    rfl

theorem messages_enumOf {head : SchemaHead} {name : String} {e : Message}
    (h : enumOf head name w = .ok e w') : w'.messages = w.messages := by
  obtain ⟨undefined, -, h⟩ := lift_bind_eq_ok_iff.1 h
  exact foldlM_keeps (P := fun w₁ => w₁.messages = w.messages)
    (fun _ _ _ _ _ _ h hw => (messages_addMember h).trans hw) h rfl

theorem fields_nestEnum {owner owner' e : Message} (h : nestEnum owner e = .ok owner') :
    owner'.name = owner.name ∧ owner'.fields = owner.fields := by
  unfold nestEnum at h
  split at h
  · obtain rfl := Except.ok.inj h
    exact ⟨rfl, rfl⟩
  · split at h
    · obtain rfl := Except.ok.inj h
      exact ⟨rfl, rfl⟩
    · cases h

/-- What the type of a value comes to if no message is made of it. Only enums are added to the
message of the field, and only notes are taken. -/
structure Plain (opts : Options) (v : Schema) (owner : Message) (w : Workspace) (t : FieldType)
    (owner' : Message) (w' : Workspace) : Prop where
  type : PlainType .reference (enumMade opts) v t
  name : owner'.name = owner.name
  fields : owner'.fields = owner.fields
  messages : w'.messages = w.messages

theorem plain_of_enumType {v : Schema} {owner : Message} {r : FieldType × Message}
    (hown : v.isReference = false) (htype : v.type = .string) (henum : v.isEnum = true)
    (h : enumType opts v.toSchemaHead owner w = .ok r w') : Plain opts v owner w r.1 r.2 w' := by
  obtain ⟨name, hname, h⟩ := lift_bind_eq_ok_iff.1 h
  obtain ⟨e, w₂, he, h⟩ := bind_eq_ok_iff.1 h
  obtain ⟨owner', hnest, h⟩ := lift_bind_eq_ok_iff.1 h
  obtain ⟨rfl, rfl⟩ := pure_eq_ok_iff.1 h
  exact {
    type := .enum hown htype henum hname
    name := (fields_nestEnum hnest).1
    fields := (fields_nestEnum hnest).2
    messages := messages_enumOf he }

theorem plain_of_pure {v : Schema} {owner : Message} {t : FieldType} {r : FieldType × Message}
    (ht : PlainType .reference (enumMade opts) v t)
    (h : (pure (t, owner) : Build (FieldType × Message)) w = .ok r w') :
    Plain opts v owner w r.1 r.2 w' := by
  obtain ⟨rfl, rfl⟩ := pure_eq_ok_iff.1 h
  exact ⟨ht, rfl, rfl, rfl⟩

/-- The type of a value is plain, or it is that of a message made of the value. -/
theorem valueType_eq_ok {v : Schema} {make : String → Build Message} {owner : Message}
    {r : FieldType × Message}
    (hobject : v.isReference = false → v.type = .object → v.isMap = false)
    (h : valueType opts v.toSchemaHead make owner w = .ok r w') :
    Plain opts v owner w r.1 r.2 w' ∨
      v.isNested = true ∧ r.2 = owner ∧ inlineType v.toSchemaHead make w = .ok r.1 w' := by
  unfold valueType at h
  split at h
  · rename_i href
    obtain ⟨n, hn, h⟩ := lift_bind_eq_ok_iff.1 h
    exact .inl (plain_of_pure (.reference href hn) h)
  · rename_i hown
    have hown : v.isReference = false := by simpa using hown
    cases htype : v.type with
    | string =>
      simp only [htype] at h
      split at h
      · rename_i henum
        exact .inl (plain_of_enumType hown htype henum h)
      · rename_i henum
        exact .inl (plain_of_pure (.scalar hown (.inr ⟨htype, by simpa using henum⟩)) (htype ▸ h))
    | boolean | integer | number =>
      simp only [htype] at h
      exact .inl (plain_of_pure (.scalar hown (.inl (by simp [htype]))) (htype ▸ h))
    | any =>
      simp only [htype] at h
      cases hp : Primitive.wellKnown? v.format with
      | some p =>
        simp only [hp] at h
        exact .inl (plain_of_pure (.wellKnown hown htype hp) h)
      | none =>
        simp only [hp] at h
        exact absurd h not_throw_eq_ok
    | object =>
      simp only [htype] at h
      obtain ⟨t, w₁, ht, h⟩ := bind_eq_ok_iff.1 h
      obtain ⟨rfl, rfl⟩ := pure_eq_ok_iff.1 h
      refine .inr ⟨?_, rfl, ht⟩
      simp [Schema.isNested, Schema.isObject, hown, htype, hobject hown htype]
    | array | empty =>
      simp only [htype] at h
      exact absurd h not_throw_eq_ok

/-- The name for the message of a nested object, given what is registered. -/
def givenName (r : Registry) (v : Schema) : Except Fault String := do
  let default ← messageName v.identifier
  return if v.id.isEmpty then r.messageName v.place.path v.canonical default else default

/-- A message is made of a nested object under its name and added. -/
theorem inlineType_eq_ok {v : Schema} {make : String → Build Message} {t : FieldType}
    (h : inlineType v.toSchemaHead make w = .ok t w') :
    ∃ name m w₁ kept w₂, givenName w.registry v = .ok name ∧ make name w = .ok m w₁ ∧
      addMessage m w₁ = .ok kept w₂ ∧ w'.messages = w₂.messages ∧ t = .message name := by
  obtain ⟨default, hdefault, h⟩ := lift_bind_eq_ok_iff.1 h
  rw [get_bind_apply] at h
  obtain ⟨m, w₁, hmake, h⟩ := bind_eq_ok_iff.1 h
  obtain ⟨kept, w₂, hadd, h⟩ := bind_eq_ok_iff.1 h
  refine ⟨_, m, w₁, kept, w₂, ?_, hmake, hadd, ?_⟩
  · rw [givenName, hdefault]
    rfl
  · split at h
    · obtain ⟨_, w₃, hregister, h⟩ := bind_eq_ok_iff.1 h
      obtain ⟨rfl, rfl⟩ := pure_eq_ok_iff.1 h
      cases hregister
      exact ⟨rfl, rfl⟩
    · obtain ⟨rfl, rfl⟩ := pure_eq_ok_iff.1 h
      exact ⟨rfl, rfl⟩

/-! ## Fields of a message -/

theorem elementType_eq_ok {path : String} {slot : ElementSlot} {element : Option Schema}
    {owner : Message} {r : FieldType × Message}
    (h : elementType opts path slot element owner w = .ok r w') :
    ∃ v, element = some v ∧ (v.isReference = false → v.isMap = false) ∧
      valueType opts v.toSchemaHead (messageOf opts v) owner w = .ok r w' := by
  cases element with
  | none => exact absurd h not_throw_eq_ok
  | some v =>
    obtain ⟨head, properties, items, additional⟩ := v
    rw [elementType] at h
    split at h
    · exact absurd h not_throw_eq_ok
    · rename_i hnested
      refine ⟨_, rfl, fun hown => ?_, h⟩
      change head.isReference = false at hown
      have hnone : additional.isSome = false := by
        simp only [hown, Bool.not_false, Bool.true_and, Bool.or_eq_true, not_or] at hnested
        simpa using hnested.2
      exact hnone

/-- The field for a property is made of the type of its single values. -/
theorem fieldOf_eq_ok {s : Schema} {owner : Message} {r : Field × Message}
    (h : fieldOf opts s owner w = .ok r w') :
    ∃ v t, s.value? = some v ∧ (v.isReference = false → v.type = .object → v.isMap = false) ∧
      valueType opts v.toSchemaHead (messageOf opts v) owner w = .ok (t, r.2) w' ∧
      fieldWithType s.toSchemaHead s.isMapField t = .ok r.1 := by
  obtain ⟨head, properties, items, additional⟩ := s
  have hend : ∀ {x : Build (FieldType × Message)},
      (x >>= fun p => do
        let f ← liftM (fieldWithType head (isMapField head additional) p.1)
        pure (f, p.2)) w = .ok r w' →
      ∃ t, x w = .ok (t, r.2) w' ∧
        fieldWithType head (isMapField head additional) t = .ok r.1 := by
    intro x h
    obtain ⟨⟨t, owner'⟩, w₁, hvalue, h⟩ := bind_eq_ok_iff.1 h
    obtain ⟨f, hf, h⟩ := lift_bind_eq_ok_iff.1 h
    obtain ⟨rfl, rfl⟩ := pure_eq_ok_iff.1 h
    exact ⟨t, hvalue, hf⟩
  rw [fieldOf] at h
  split at h
  · rename_i harray
    obtain ⟨t, hvalue, hx⟩ := hend h
    obtain ⟨v, rfl, hmap, hvalue⟩ := elementType_eq_ok hvalue
    exact ⟨v, t, by rw [Schema.value?, if_pos harray], fun hown _ => hmap hown, hvalue, hx⟩
  · rename_i harray
    split at h
    · rename_i hismap
      obtain ⟨t, hvalue, hx⟩ := hend h
      obtain ⟨v, rfl, hmap, hvalue⟩ := elementType_eq_ok hvalue
      refine ⟨v, t, ?_, fun hown _ => hmap hown, hvalue, hx⟩
      exact (if_neg harray).trans (if_pos hismap)
    · rename_i hismap
      obtain ⟨t, hvalue, hx⟩ := hend h
      refine ⟨_, t, (if_neg harray).trans (if_neg hismap), fun _ htype => ?_, hvalue, hx⟩
      have hnone : head.type = .object → additional.isSome = false := by
        simpa [isMapField] using hismap
      exact hnone htype

/-- The fields for properties are added to a message, which others are made for on the way. -/
inductive Filled (opts : Options) :
    List (String × Schema) → Message → Workspace → Message → Workspace → Prop
  | nil (m : Message) (w : Workspace) : Filled opts [] m w m w
  | plain {key : String} {s v : Schema} {rest : List (String × Schema)} {t : FieldType}
      {x : Field} {m m₁ m₂ m' : Message} {w w₁ w' : Workspace}
      (hvalue : s.value? = some v) (hplain : Plain opts v m w t m₁ w₁)
      (hfield : fieldWithType s.toSchemaHead s.isMapField t = .ok x)
      (hadd : m₁.addField? x = some m₂) (hrest : Filled opts rest m₂ w₁ m' w') :
      Filled opts ((key, s) :: rest) m w m' w'
  | nested {key name : String} {s v : Schema} {rest : List (String × Schema)} {x : Field}
      {kept : Bool} {m m₂ m' made : Message} {w w₁ w₂ w₃ w' : Workspace}
      (hvalue : s.value? = some v) (hnested : v.isNested = true)
      (hname : givenName w.registry v = .ok name) (hmake : messageOf opts v name w = .ok made w₁)
      (hmade : Filled opts v.properties { name, description := v.description } w made w₁)
      (hkept : addMessage made w₁ = .ok kept w₂) (hmessages : w₃.messages = w₂.messages)
      (hfield : fieldWithType s.toSchemaHead s.isMapField (.message name) = .ok x)
      (hadd : m.addField? x = some m₂) (hrest : Filled opts rest m₂ w₃ m' w') :
      Filled opts ((key, s) :: rest) m w m' w'

theorem filled_of_addProperties : (ps : List (String × Schema)) → (m : Message) →
    (w : Workspace) → (m' : Message) → (w' : Workspace) → addProperties opts ps m w = .ok m' w' →
    Filled opts ps m w m' w'
  | [], m, w, m', w', h => by
    obtain ⟨rfl, rfl⟩ := pure_eq_ok_iff.1 h
    exact .nil m w
  | (key, s) :: rest, m, w, m', w', h => by
    rw [addProperties] at h
    obtain ⟨⟨x, m₁⟩, w₁, hfield, h⟩ := bind_eq_ok_iff.1 h
    obtain ⟨m₂, hadd, h⟩ := lift_bind_eq_ok_iff.1 h
    have hadd := eq_ok_addUniqueField hadd
    have hrest := filled_of_addProperties rest m₂ w₁ m' w' h
    obtain ⟨v, t, hv, hobject, hvalue, hx⟩ := fieldOf_eq_ok hfield
    rcases valueType_eq_ok hobject hvalue with hplain | ⟨hnested, rfl, hinline⟩
    · exact .plain hv hplain hx hadd hrest
    · obtain ⟨name, made, w₃, kept, w₄, hname, hmake, hkept, hw, rfl⟩ := inlineType_eq_ok hinline
      have hmade := filled_of_addProperties v.properties _ w made w₃ hmake
      exact .nested hv hnested hname hmake hmade hkept hw hx hadd hrest
termination_by ps => sizeOf ps
decreasing_by
  · simp
  · have := Schema.sizeOf_value? hv
    simp
    omega

theorem filled_of_messageOf {s : Schema} {name : String} {m : Message}
    (h : messageOf opts s name w = .ok m w') :
    Filled opts s.properties { name, description := s.description } w m w' :=
  filled_of_addProperties _ _ _ _ _ h

variable {ps : List (String × Schema)} {m m' : Message}

theorem Filled.grows (h : Filled opts ps m w m' w') : Grows w w' := by
  induction h with
  | nil => exact .refl _
  | plain _ hplain _ _ _ ih => exact (Grows.of_eq hplain.messages).trans ih
  | nested _ _ _ _ _ hkept hmessages _ _ _ ihmade ihrest =>
    exact ((ihmade.trans (grows_of_addMessage hkept)).trans (.of_eq hmessages)).trans ihrest

theorem name_of_addField? {x : Field} (h : m.addField? x = some m') : m'.name = m.name := by
  rw [(Message.of_addField? h).2]

theorem Filled.name (h : Filled opts ps m w m' w') : m'.name = m.name := by
  induction h with
  | nil => rfl
  | plain _ hplain _ hadd _ ih => rw [ih, name_of_addField? hadd, hplain.name]
  | nested _ _ _ _ _ _ _ _ hadd _ _ ih => rw [ih, name_of_addField? hadd]

/-! ## Messages that are made on the way -/

/-- Between two workspaces a message is made of an object, at one where the registry is `r`, and
added under a name, where it is kept or passed through. -/
def Makes (opts : Options) (start final : Workspace) (r : Registry) (s : Schema) (name : String)
    (kept : Bool) : Prop :=
  ∃ w m w₁ w₂, Grows start w ∧ w.registry = r ∧ messageOf opts s name w = .ok m w₁ ∧
    addMessage m w₁ = .ok kept w₂ ∧ Grows w₂ final

/-- Between two workspaces a message is made of a nested object, under a name given to it. -/
def Gives (opts : Options) (start final : Workspace) (v : Schema) (name : String) : Prop :=
  ∃ r kept, givenName r v = .ok name ∧ Makes opts start final r v name kept

variable {start final : Workspace}

/-- Of every nested object among the values of properties a message is made. -/
theorem Filled.exists_gives (h : Filled opts ps m w m' w') (hstart : Grows start w)
    (hfinal : Grows w' final) {p : String × Schema} (hp : p ∈ ps) {v : Schema}
    (hv : p.2.value? = some v) (hnested : v.isNested = true) :
    ∃ name, Gives opts start final v name := by
  induction h with
  | nil => cases hp
  | @plain key s u rest t x m m₁ m₂ m' w w₁ w' hvalue hplain hfield hadd hrest ih =>
    rcases List.mem_cons.1 hp with rfl | hp
    · obtain rfl := Option.some.inj (hvalue.symm.trans hv)
      exact absurd hnested hplain.type.not_nested
    · exact ih (hstart.trans (.of_eq hplain.messages)) hfinal hp
  | @nested key name s u rest x kept m m₂ m' made w w₁ w₂ w₃ w' hvalue hnested' hname hmake hmade
      hkept hmessages hfield hadd hrest ihmade ihrest =>
    have hw₃ : Grows w₂ w₃ := .of_eq hmessages
    rcases List.mem_cons.1 hp with rfl | hp
    · obtain rfl := Option.some.inj (hvalue.symm.trans hv)
      exact ⟨name, _, kept, hname, w, made, w₁, w₂, hstart, rfl, hmake, hkept,
        (hw₃.trans hrest.grows).trans hfinal⟩
    · exact ihrest (((hstart.trans hmade.grows).trans (grows_of_addMessage hkept)).trans hw₃)
        hfinal hp

theorem Makes.exists_gives {r : Registry} {s : Schema} {name : String} {kept : Bool}
    (h : Makes opts start final r s name kept) {p : String × Schema} (hp : p ∈ s.properties)
    {v : Schema} (hv : p.2.value? = some v) (hnested : v.isNested = true) :
    ∃ name, Gives opts start final v name := by
  obtain ⟨w, m, w₁, w₂, hstart, -, hmake, hkept, hfinal⟩ := h
  exact (filled_of_messageOf hmake).exists_gives hstart ((grows_of_addMessage hkept).trans hfinal)
    hp hv hnested

end Conversion

end DiscoveryGrpc
