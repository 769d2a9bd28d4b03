import DiscoveryGrpc.Proofs.Proto.Field
import DiscoveryGrpc.Proofs.Proto.Numbering
import DiscoveryGrpc.Proofs.Proto.Tokens

/-!
# Writable files

A file is writable if its text can stand for it: everything in it has a name of the right form and
is stored under this name, fields and tables are in order, types are known, options have values
that are read back, and enums have one first member. Each part has its own predicate, with one
field per condition.

A known type is primitive or has the name of a message or an enum, so its name is a word and none of
the keywords of a message (`FieldType.Known.name_not_mem`). What a writable file may still have is a
message as the type of a field whose message nests an enum of the same name; a file without such
fields is `Unshadowed`.
-/

namespace DiscoveryGrpc.Proto

open Lexeme (isWord isWordStart isWordPart isInt64 isSpellable)

/-! ## Names -/

/-- Characters of a name behind the first. -/
def isNamePart (c : Char) : Bool := c.isAlphanum || c == '_'

/-- Whether a text can name a field, a member, a service or a method. -/
def isName (s : String) : Bool :=
  match s.toList with
  | [] => false
  | c :: cs => isWordStart c && cs.all isNamePart

/-- Whether a text can name a message or an enum. -/
def isTypeName (s : String) : Bool :=
  match s.toList with
  | [] => false
  | c :: cs => c.isUpper && cs.all isNamePart

theorem isWordPart_of_isNamePart {c : Char} (h : isNamePart c = true) : isWordPart c = true := by
  rw [isWordPart, ← isNamePart, h, Bool.true_or]

theorem isName_of_isTypeName {s : String} (h : isTypeName s = true) : isName s = true := by
  unfold isTypeName at h
  unfold isName
  cases hs : s.toList with
  | nil =>
    rw [hs] at h
    cases h
  | cons c cs =>
    rw [hs] at h
    obtain ⟨hc, hp⟩ := Bool.and_eq_true_iff.1 h
    have ha : c.isAlpha = true := Bool.or_eq_true_iff.2 (.inl hc)
    simp [isWordStart, ha, hp]

theorem isWord_of_isName {s : String} (h : isName s = true) : isWord s = true := by
  unfold isName at h
  unfold isWord
  cases hs : s.toList with
  | nil =>
    rw [hs] at h
    cases h
  | cons c cs =>
    rw [hs] at h
    obtain ⟨hc, hp⟩ := Bool.and_eq_true_iff.1 h
    have hp' := fun x hx => isWordPart_of_isNamePart (List.all_eq_true.1 hp x hx)
    exact Bool.and_eq_true_iff.2 ⟨hc, List.all_eq_true.2 hp'⟩

theorem isWord_of_isTypeName {s : String} (h : isTypeName s = true) : isWord s = true :=
  isWord_of_isName (isName_of_isTypeName h)

/-- The words that do not begin the type of a field where one may begin. -/
def fieldKeywords : List String :=
  ["option", "reserved", "enum", "message", "optional", "repeated"]

/-! ## Options -/

/-- A value that is read back: a bare word is none of the truth values, a number has 64 bits. -/
def SettingValue.Writable : SettingValue → Prop
  | literal w => isWord w = true ∧ w ≠ "true" ∧ w ≠ "false"
  | int i => isInt64 i = true
  | string _ | bool _ => True

/-- An option set to values that are read back, all of them under words. -/
def SettingBody.Writable : SettingBody → Prop
  | scalar v => v.Writable
  | group entries => ∀ e ∈ entries, isWord e.1 = true ∧ e.2.Writable

/-- An option that is read back. -/
@[mk_iff]
structure Setting.Writable (s : Setting) : Prop where
  name : isWord s.name = true
  body : s.body.Writable

/-! ## Messages and enums -/

/-- A type that is known in a message of a file. -/
def FieldType.Known (f : File) (m : Message) : FieldType → Prop
  | primitive p => p ≠ .unformatted
  | reference _ => False
  | message n => f.messages.has n = true
  | enum n => m.hasEnum n = true

/-- A field of a message that is read back. -/
@[mk_iff]
structure Field.Writable (f : File) (m : Message) (x : Field) : Prop where
  name : isName x.name = true
  type : x.type.Known f m
  keyType : ∀ key ∈ x.keyType, key.Known f m
  map_repeated : x.isMap = true → x.repeated = true
  not_both : ¬(x.repeated = true ∧ x.optional = true)
  not_first : x.first = false
  settings : ∀ s ∈ x.settings, s.Writable

/-- A member of an enum that is read back. -/
@[mk_iff]
structure Field.WritableMember (x : Field) : Prop where
  name : isName x.name = true
  not_keyword : x.name ≠ "option" ∧ x.name ≠ "reserved"
  type : x.type = .primitive .unformatted
  keyType : x.keyType = none
  not_repeated : x.repeated = false
  not_optional : x.optional = false
  settings : ∀ s ∈ x.settings, s.Writable

/-- An enum with members that are read back. If it has members, just one of them is the first. -/
@[mk_iff]
structure Message.ProperEnum (e : Message) : Prop where
  isEnum : e.isEnum = true
  no_enums : e.enums = []
  members : ∀ x ∈ e.fields, x.WritableMember
  distinct : Field.Distinct e.fields
  one_first : e.fields ≠ [] → (e.fields.filter (·.first)).length = 1

/-- A nested enum that is read back. -/
@[mk_iff]
structure Message.WritableEnum (e : Message) : Prop extends e.ProperEnum where
  name : isTypeName e.name = true

/-- A message of a file that is read back. -/
@[mk_iff]
structure Message.Writable (f : File) (m : Message) : Prop where
  not_enum : m.isEnum = false
  name : isTypeName m.name = true
  fields : ∀ x ∈ m.fields, x.Writable f m
  distinct : Field.Distinct m.fields
  named : Table.Named Message.name m.enums
  enums : ∀ e ∈ Table.values m.enums, e.WritableEnum

/-! ## Services and files -/

/-- A method that is read back. -/
@[mk_iff]
structure Rpc.Writable (f : File) (r : Rpc) : Prop where
  name : isName r.name = true
  input : f.messages.has r.input = true
  output : f.messages.has r.output = true
  settings : ∀ s ∈ r.settings, s.Writable

/-- A service that is read back. -/
@[mk_iff]
structure Service.Writable (f : File) (s : Service) : Prop where
  name : isName s.name = true
  settings : ∀ x ∈ s.settings, x.Writable
  named : Table.Named Rpc.name s.rpcs
  rpcs : ∀ r ∈ s.rpcs.values, r.Writable f

/-- A file that is read back, apart from types that an enum shadows. -/
@[mk_iff]
structure File.Writable (f : File) : Prop where
  package : f.package = "" ∨ isWord f.package = true
  source : f.source.OnLines
  settings : ∀ s ∈ f.settings, s.Writable
  namedMessages : Table.Named Message.name f.messages
  messages : ∀ m ∈ f.messages.values, m.Writable f
  namedServices : Table.Named Service.name f.services
  services : ∀ s ∈ f.services.values, s.Writable f

/-- A type that a nested enum of the same name does not shadow. -/
def FieldType.Unshadowed (m : Message) : FieldType → Prop
  | message n => m.hasEnum n = false
  | _ => True

/-- No field of a message has a type that an enum nested in the message shadows. -/
def Message.Unshadowed (m : Message) : Prop :=
  ∀ x ∈ m.fields, x.type.Unshadowed m ∧ ∀ key ∈ x.keyType, key.Unshadowed m

/-- No message as the type of a field shares its name with an enum nested in the message of the
field. -/
def File.Unshadowed (f : File) : Prop := ∀ m ∈ f.messages.values, m.Unshadowed

/-! ### Deciding it -/

instance : (v : SettingValue) → Decidable v.Writable
  | .literal w => inferInstanceAs (Decidable (isWord w = true ∧ w ≠ "true" ∧ w ≠ "false"))
  | .int i => inferInstanceAs (Decidable (isInt64 i = true))
  | .string _ | .bool _ => .isTrue trivial

instance : (b : SettingBody) → Decidable b.Writable
  | .scalar v => inferInstanceAs (Decidable v.Writable)
  | .group entries =>
    inferInstanceAs (Decidable (∀ e ∈ entries, isWord e.1 = true ∧ e.2.Writable))

instance (f : File) (m : Message) : (t : FieldType) → Decidable (t.Known f m)
  | .primitive p => inferInstanceAs (Decidable (p ≠ .unformatted))
  | .reference _ => .isFalse id
  | .message n => inferInstanceAs (Decidable (f.messages.has n = true))
  | .enum n => inferInstanceAs (Decidable (m.hasEnum n = true))

instance (m : Message) : (t : FieldType) → Decidable (t.Unshadowed m)
  | .message n => inferInstanceAs (Decidable (m.hasEnum n = false))
  | .primitive _ | .reference _ | .enum _ => .isTrue trivial

instance (s : Setting) : Decidable s.Writable := decidable_of_iff' _ (Setting.writable_iff s)

instance (f : File) (m : Message) (x : Field) : Decidable (x.Writable f m) :=
  decidable_of_iff' _ (Field.writable_iff f m x)

instance (x : Field) : Decidable x.WritableMember := decidable_of_iff' _ (Field.writableMember_iff x)

instance (e : Message) : Decidable e.ProperEnum := decidable_of_iff' _ (Message.properEnum_iff e)

instance (e : Message) : Decidable e.WritableEnum :=
  decidable_of_iff' _ (Message.writableEnum_iff e)

instance (f : File) (m : Message) : Decidable (m.Writable f) :=
  decidable_of_iff' _ (Message.writable_iff f m)

instance (f : File) (r : Rpc) : Decidable (r.Writable f) :=
  decidable_of_iff' _ (Rpc.writable_iff f r)

instance (f : File) (s : Service) : Decidable (s.Writable f) :=
  decidable_of_iff' _ (Service.writable_iff f s)

instance (f : File) : Decidable f.Writable := decidable_of_iff' _ (File.writable_iff f)

instance (m : Message) : Decidable m.Unshadowed :=
  inferInstanceAs (Decidable (∀ x ∈ m.fields, x.type.Unshadowed m ∧ ∀ key ∈ x.keyType, _))

instance (f : File) : Decidable f.Unshadowed :=
  inferInstanceAs (Decidable (∀ m ∈ f.messages.values, _))

/-! ## Names of known types -/

theorem isWord_primitive {p : Primitive} (h : p ≠ .unformatted) : isWord p.name = true := by
  cases p with
  | unformatted => exact absurd rfl h
  | _ => decide

namespace File.Writable

variable {f : File}

theorem isTypeName_of_has (hf : f.Writable) {n : String} (h : f.messages.has n = true) :
    isTypeName n = true := by
  obtain ⟨m, hm⟩ := Table.exists_get? h
  rw [← hf.namedMessages.name_eq hm]
  exact (hf.messages m (Table.mem_values_of_get? hm)).name

end File.Writable

theorem Message.Writable.isTypeName_of_hasEnum {f : File} {m : Message} (hm : m.Writable f)
    {n : String} (h : m.hasEnum n = true) : isTypeName n = true := by
  obtain ⟨e, he⟩ := Table.exists_get? h
  rw [← hm.named.name_eq he]
  exact (hm.enums e (Table.mem_values_of_get? he)).name

/-- A known type is a primitive one, or it has the name of a message or an enum. -/
theorem FieldType.Known.name_cases {f : File} {m : Message} (hf : f.Writable) (hm : m.Writable f)
    {t : FieldType} (h : t.Known f m) :
    (∃ p, t = .primitive p ∧ p ≠ .unformatted) ∨ isTypeName t.name = true := by
  cases t with
  | primitive p => exact .inl ⟨p, rfl, h⟩
  | reference n => exact h.elim
  | message n => exact .inr (hf.isTypeName_of_has h)
  | enum n => exact .inr (hm.isTypeName_of_hasEnum h)

/-- No keyword of a message is the name of a known type. -/
theorem FieldType.Known.name_not_mem {f : File} {m : Message} (hf : f.Writable)
    (hm : m.Writable f) {t : FieldType} (h : t.Known f m) : t.name ∉ fieldKeywords := by
  rcases h.name_cases hf hm with ⟨p, rfl, -⟩ | ht
  · cases p <;> decide
  · have hk : ∀ w ∈ fieldKeywords, isTypeName w = false := by decide
    exact fun hmem => Bool.false_ne_true ((hk _ hmem).symm.trans ht)

theorem FieldType.Known.isWord_name {f : File} {m : Message} (hf : f.Writable) (hm : m.Writable f)
    {t : FieldType} (h : t.Known f m) : isWord t.name = true := by
  rcases h.name_cases hf hm with ⟨p, rfl, hp⟩ | ht
  · exact isWord_primitive hp
  · exact isWord_of_isTypeName ht

end DiscoveryGrpc.Proto
