import DiscoveryGrpc.Proofs.Name
import DiscoveryGrpc.Conversion.Field

/-!
# Messages in the making

What holds of a message while a conversion builds it. A type may still be a reference, of which it
is not known whether it names a message, and the names are those that a `Naming` allows: which ones
these are depends on the document, and nothing here does.

`Message.Drafted` is kept by everything that a conversion does to a message: adding a field
(`Drafted.addField`), nesting an enum (`Drafted.addEnum`), and adding other messages
(`Drafted.mono`).
-/

namespace DiscoveryGrpc

/-- The names that messages, enums and methods may have, and those that fields may have. -/
structure Naming where
  type : String → Prop
  field : String → Prop

namespace Proto

/-- An option about long running operations names a service. -/
def Setting.Targets (services : Table Service) (s : Setting) : Prop :=
  s.name = Setting.operationService →
    ∃ n ∈ s.value?.bind SettingValue.string?, services.has n = true

instance (services : Table Service) (s : Setting) : Decidable (s.Targets services) :=
  inferInstanceAs (Decidable (_ → ∃ n ∈ s.value?.bind SettingValue.string?, services.has n = true))

/-- An option in the making, where some services may be named. -/
structure Setting.Drafted (services : Table Service) (s : Setting) : Prop where
  writable : s.Writable
  targets : s.Targets services

theorem Setting.Drafted.mono {services services' : Table Service} {s : Setting}
    (h : s.Drafted services) (hservices : ∀ n, services.has n = true → services'.has n = true) :
    s.Drafted services' :=
  ⟨h.writable, fun hname =>
    have ⟨n, hn, hhas⟩ := h.targets hname
    ⟨n, hn, hservices n hhas⟩⟩

/-- An option of another name. -/
theorem Setting.drafted_of_ne {services : Table Service} {s : Setting} (h : s.Writable)
    (hne : s.name ≠ Setting.operationService) : s.Drafted services :=
  ⟨h, fun hname => absurd hname hne⟩

/-- What may be the type of a field while the messages of a file are made. -/
def FieldType.Drafted (known : Table Message) (m : Message) : FieldType → Prop
  | primitive p => p ≠ .unformatted
  | reference _ => True
  | message n => known.has n = true
  | enum n => m.hasEnum n = true

/-- A field of a message in the making. -/
structure Field.Drafted (N : Naming) (known : Table Message) (m : Message) (x : Field) :
    Prop where
  name : N.field x.name
  type : x.type.Drafted known m
  keyType : ∀ key ∈ x.keyType, key = .primitive .string
  map_repeated : x.isMap = true → x.repeated = true
  not_both : ¬(x.repeated = true ∧ x.optional = true)
  not_first : x.first = false
  settings : ∀ s ∈ x.settings, s.Drafted []

/-- An enum in the making, of which no member has options. -/
structure Message.DraftedEnum (N : Naming) (e : Message) : Prop extends e.ProperEnum where
  name : N.type e.name
  bare : ∀ x ∈ e.fields, x.settings = []

/-- A message in the making. -/
structure Message.Drafted (N : Naming) (known : Table Message) (m : Message) : Prop where
  not_enum : m.isEnum = false
  name : N.type m.name
  fields : ∀ x ∈ m.fields, x.Drafted N known m
  distinct : Field.Distinct m.fields
  named : Table.Named Message.name m.enums
  enums : ∀ e ∈ Table.values m.enums, e.DraftedEnum N

variable {N : Naming} {known known' : Table Message} {m m' : Message}

theorem FieldType.Drafted.mono {t : FieldType} (h : t.Drafted known m)
    (hknown : ∀ n, known.has n = true → known'.has n = true)
    (henums : ∀ n, m.hasEnum n = true → m'.hasEnum n = true) : t.Drafted known' m' := by
  cases t with
  | primitive p => exact h
  | reference n => trivial
  | message n => exact hknown n h
  | enum n => exact henums n h

theorem Field.Drafted.mono {x : Field} (h : x.Drafted N known m)
    (hknown : ∀ n, known.has n = true → known'.has n = true)
    (henums : ∀ n, m.hasEnum n = true → m'.hasEnum n = true) : x.Drafted N known' m' :=
  { h with type := h.type.mono hknown henums }

namespace Message

/-! ## Operations on messages -/

theorem Drafted.mono (h : m.Drafted N known)
    (hknown : ∀ n, known.has n = true → known'.has n = true) : m.Drafted N known' :=
  { h with fields := fun x hx => (h.fields x hx).mono hknown fun _ hn => hn }

theorem Drafted.empty {name : String} (hname : N.type name) (description : String) :
    ({ name, description } : Message).Drafted N known where
  not_enum := rfl
  name := hname
  fields := by simp
  distinct := ⟨List.Pairwise.nil, List.nodup_nil⟩
  named := .nil _
  enums := by simp [Table.values]

theorem Drafted.addField (h : m.Drafted N known) {f : Field} (hf : f.Drafted N known m)
    (hadd : m.addField? f = some m') : m'.Drafted N known := by
  obtain ⟨hnew, rfl⟩ := of_addField? hadd
  refine { h with fields := fun x hx => ?_, distinct := h.distinct.insert hnew }
  rcases Field.mem_insert.1 hx with rfl | hx
  · exact hf.mono (fun _ hn => hn) fun _ hn => hn
  · exact (h.fields x hx).mono (fun _ hn => hn) fun _ hn => hn

theorem hasEnum_addEnum (m e : Message) (n : String) :
    (m.addEnum e).hasEnum n = (n == e.name || m.hasEnum n) :=
  Table.has_insert ..

theorem Drafted.addEnum (h : m.Drafted N known) {e : Message} (he : e.DraftedEnum N) :
    (m.addEnum e).Drafted N known := by
  have hmono : ∀ n, m.hasEnum n = true → (m.addEnum e).hasEnum n = true := fun n hn => by
    rw [hasEnum_addEnum, hn, Bool.or_true]
  refine { h with
    fields := fun x hx => (h.fields x hx).mono (fun _ hn => hn) hmono
    named := h.named.insert e
    enums := fun x hx => ?_ }
  rcases Table.mem_values_insert hx with rfl | hx
  · exact he
  · exact h.enums x hx

/-! ## Changing all fields or enums -/

theorem distinct_sort {fs : List Field} (h : (fs.map (·.name)).Nodup) :
    Field.Distinct (Field.sort fs) :=
  ⟨Field.sorted_sort fs, ((Field.sort_perm fs).map (·.name)).nodup_iff.2 h⟩

theorem Drafted.retainFields (h : m.Drafted N known) (keep : Field → Bool) :
    (m.retainFields keep).Drafted N known :=
  { h with
    fields := fun x hx => (h.fields x (List.mem_filter.1 hx).1).mono (fun _ hn => hn)
      fun _ hn => hn
    distinct := ⟨h.distinct.sorted.filter _, h.distinct.nodup.sublist (List.filter_sublist.map _)⟩ }

theorem mem_updateFields {change : Field → Field} {x : Field} :
    x ∈ (m.updateFields change).fields ↔ ∃ y ∈ m.fields, change y = x := by
  rw [updateFields, (Field.sort_perm _).mem_iff, List.mem_map]

theorem Drafted.updateFields (h : m.Drafted N known) {change : Field → Field}
    (hname : ∀ x, (change x).name = x.name)
    (hchange : ∀ x ∈ m.fields, x.Drafted N known m → (change x).Drafted N known m) :
    (m.updateFields change).Drafted N known := by
  refine { h with fields := fun x hx => ?_, distinct := distinct_sort ?_ }
  · obtain ⟨y, hy, rfl⟩ := mem_updateFields.1 hx
    exact (hchange y hy (h.fields y hy)).mono (fun _ hn => hn) fun _ hn => hn
  · have hnames : (m.fields.map change).map (·.name) = m.fields.map (·.name) := by
      rw [List.map_map]
      exact List.map_congr_left fun x _ => hname x
    exact hnames ▸ h.distinct.nodup

/-- Enums can go if no field has them as its type. -/
theorem Drafted.filterEnums (h : m.Drafted N known) {keep : String × Message → Bool}
    (hused : ∀ x ∈ m.fields, ∀ n, x.type = .enum n →
      Table.has (m.enums.filter keep) n = true) :
    ({ m with enums := m.enums.filter keep } : Message).Drafted N known := by
  refine { h with
    fields := fun x hx => { h.fields x hx with type := ?_ }
    named := ⟨h.named.sorted.filter _, fun e he => h.named.own e (List.mem_filter.1 he).1⟩
    enums := fun e he => ?_ }
  · have htype := (h.fields x hx).type
    cases hx' : x.type with
    | enum n => exact hused x hx n hx'
    | _ =>
      rw [hx'] at htype
      exact htype
  · obtain ⟨entry, hentry, rfl⟩ := List.mem_map.1 he
    exact h.enums entry.2 (Table.mem_values_of_mem (List.mem_filter.1 hentry).1)

end Message

end Proto

end DiscoveryGrpc
