import DiscoveryGrpc.Proofs.Proto.Legible

/-!
# What is left of a file in its text

Descriptions, the source of the file and which kind of type the name of a type stands for are lost
in a text. So much is lost of every file, and `File.unresolved` is what is left of one of which
nothing else is.

Of a legible file more can be lost, and `File.asRead` is what is left of it. A field that is
repeated is not written as optional. The member in front of an enum is written as its first, whether
it is marked or not. A field without a label begins with its type, so if the type has the name of a
keyword, it is lost (`Field.isSkipped`) or the text cannot be read at all (`Field.isStuck`).

A file is clear if all this does not happen (`File.Clear.asRead_eq`). Writable files are.
-/

namespace DiscoveryGrpc.Proto

/-! ## What is read -/

/-- A type by its name alone. -/
def FieldType.unresolved (t : FieldType) : FieldType := .reference t.name

namespace Field

/-- A field as it is read. -/
def unresolved (x : Field) : Field :=
  { x.undocumented with type := x.type.unresolved, keyType := x.keyType.map (·.unresolved) }

/-- A legible field as it is read. -/
def asRead (x : Field) : Field := { x.unresolved with optional := x.optional && !x.repeated }

/-- Whether a field begins with its type: it is no map and has no label. -/
def isPlain (x : Field) : Bool := !x.isMap && !x.repeated && !x.optional

/-- Whether a field is taken for a statement that is skipped. -/
def isSkipped (x : Field) : Bool :=
  x.isPlain && (x.type.name == "option" || x.type.name == "reserved")

/-- Whether a field is taken for something that it is not. -/
def isStuck (x : Field) : Bool :=
  x.isPlain && ["enum", "message", "optional", "repeated"].contains x.type.name

/-- A field whose text is taken for this field: it has at most one label, and if it has none, its
type has not the name of a keyword. -/
@[mk_iff]
structure Clear (x : Field) : Prop where
  type_name : x.isPlain = true → x.type.name ∉ fieldKeywords
  not_both : ¬(x.repeated = true ∧ x.optional = true)

/-- A numbered member of an enum as it is read. -/
def asMember (x : Nat × Field) : Field := { x.2.undocumented with first := x.1 = 0 }

/-- Members of which the one in front is marked as the first one, and no other. -/
def marked : List Field → List Field
  | [] => []
  | x :: fs => { x with first := true } :: fs.map ({ · with first := false })

end Field

namespace Message

/-- A message as it is read. The members of its enums have no types to resolve. -/
def unresolved (m : Message) : Message :=
  { name := m.name
    isEnum := m.isEnum
    fields := m.fields.map Field.unresolved
    enums := Table.mapValues Message.undocumented m.enums }

/-- A legible enum as it is read. -/
def enumAsRead (e : Message) : Message :=
  { name := e.name
    isEnum := true
    fields := Field.sort ((Field.marked e.fields).map Field.undocumented) }

/-- A legible message as it is read. -/
def asRead (m : Message) : Message :=
  { name := m.name
    fields := (m.fields.filter (!·.isSkipped)).map Field.asRead
    enums := Table.mapValues Message.enumAsRead m.enums }

/-- Whether a message cannot be read. -/
def isStuck (m : Message) : Bool := m.fields.any (·.isStuck)

/-- An enum with members of which one is the first. -/
def OneFirst (e : Message) : Prop := e.fields ≠ [] → (e.fields.filter (·.first)).length = 1

/-- A message in which every text is taken for what was written. -/
structure Clear (m : Message) : Prop where
  fields : ∀ x ∈ m.fields, x.Clear
  enums : ∀ e ∈ Table.values m.enums, e.OneFirst

end Message

/-- Whether a method is taken for a stream. -/
def Rpc.isStuck (r : Rpc) : Bool := r.input == "stream" || r.output == "stream"

/-- Whether a service cannot be read. -/
def Service.isStuck (s : Service) : Bool := s.rpcs.values.any (·.isStuck)

namespace File

/-- A file as it is read. -/
def unresolved (f : File) : File :=
  { package := f.package
    messages := f.messages.mapValues Message.unresolved
    services := f.services.mapValues Service.undocumented
    settings := f.settings }

/-- A legible file as it is read. -/
def asRead (f : File) : File :=
  { package := f.package
    messages := f.messages.mapValues Message.asRead
    services := f.services.mapValues Service.undocumented
    settings := f.settings }

/-- Whether a file cannot be read. -/
def isStuck (f : File) : Bool :=
  f.messages.values.any (·.isStuck) || f.services.values.any (·.isStuck)

/-- A file in which every text is taken for what was written. -/
structure Clear (f : File) : Prop where
  messages : ∀ m ∈ f.messages.values, m.Clear
  services : ∀ s ∈ f.services.values, s.isStuck = false

end File

/-! ### Clear files -/

namespace Field

variable {x : Field}

theorem Clear.isStuck_eq_false (hx : x.Clear) : x.isStuck = false := by
  cases hp : x.isPlain with
  | false => rw [isStuck, hp, Bool.false_and]
  | true =>
    have := hx.type_name hp
    simp_all [isStuck, fieldKeywords]

theorem Clear.isSkipped_eq_false (hx : x.Clear) : x.isSkipped = false := by
  cases hp : x.isPlain with
  | false => rw [isSkipped, hp, Bool.false_and]
  | true =>
    have := hx.type_name hp
    simp_all [isSkipped, fieldKeywords]

/-- What no reading is misled by has no keyword for its type. -/
theorem type_name_of_eq_false (hstuck : x.isStuck = false) (hskip : x.isSkipped = false)
    (hp : x.isPlain = true) : x.type.name ∉ fieldKeywords := by
  simp_all [isStuck, isSkipped, fieldKeywords]

theorem Clear.asRead_eq (hx : x.Clear) : x.asRead = x.unresolved := by
  have hboth := hx.not_both
  obtain ⟨name, type, repeated, optional, keyType, settings, description, first⟩ := x
  cases repeated <;> cases optional <;> simp_all [asRead, unresolved, undocumented]

/-- The one member marked first is in front already. -/
theorem marked_eq {fs : List Field} (hfs : Distinct fs)
    (hone : fs ≠ [] → (fs.filter (·.first)).length = 1) : marked fs = fs := by
  cases fs with
  | nil => rfl
  | cons x fs =>
    have hone := hone (List.cons_ne_nil _ _)
    have hle := (List.pairwise_cons.1 hfs.sorted).1
    have hx : x.first = true := by
      obtain ⟨z, hz⟩ := List.exists_mem_of_length_pos (hone ▸ Nat.one_pos)
      obtain ⟨hz, hzf⟩ := List.mem_filter.1 hz
      rcases List.mem_cons.1 hz with rfl | hz
      · exact hzf
      · have := hle z hz
        cases hxf : x.first <;> simp_all [le]
    have hrest : fs.filter (·.first) = [] := by simpa [hx] using hone
    have hmap : fs.map ({ · with first := false }) = fs := by
      refine (List.map_congr_left fun y hy => ?_).trans (List.map_id fs)
      have hy : y.first = false := by simpa using List.filter_eq_nil_iff.1 hrest y hy
      simp [← hy]
    rw [marked, hmap]
    simp [← hx]

end Field

theorem Message.enumAsRead_eq {e : Message} (he : e.LegibleEnum) (hone : e.OneFirst) :
    e.enumAsRead = e.undocumented := by
  have hsort := he.distinct.sort_map Field.undocumented (fun _ => rfl) fun _ => rfl
  simp [enumAsRead, Field.marked_eq he.distinct hone, hsort, undocumented_eq, he.isEnum,
    he.no_enums]

theorem Message.Clear.isStuck_eq_false {m : Message} (hm : m.Clear) : m.isStuck = false := by
  simpa [isStuck] using fun x hx => (hm.fields x hx).isStuck_eq_false

/-- No field of a clear message is skipped. -/
theorem Message.Clear.filter_eq {m : Message} (hc : m.Clear) :
    m.fields.filter (!·.isSkipped) = m.fields :=
  List.filter_eq_self.2 fun x hx => by simp [(hc.fields x hx).isSkipped_eq_false]

theorem Message.Clear.asRead_eq {m : Message} (hm : m.Legible) (hc : m.Clear) :
    m.asRead = m.unresolved := by
  have hfields : m.fields.map Field.asRead = m.fields.map Field.unresolved :=
    List.map_congr_left fun x hx => (hc.fields x hx).asRead_eq
  have henums : Table.mapValues enumAsRead m.enums = Table.mapValues undocumented m.enums :=
    Table.mapValues_inj.2 fun e he => enumAsRead_eq (hm.enums e he) (hc.enums e he)
  simp [asRead, unresolved, hc.filter_eq, hfields, henums, hm.not_enum]

theorem File.Clear.isStuck_eq_false {f : File} (hf : f.Clear) : f.isStuck = false := by
  rw [isStuck, Bool.or_eq_false_iff]
  exact ⟨by simpa using fun m hm => (hf.messages m hm).isStuck_eq_false, by simpa using hf.services⟩

theorem File.Clear.asRead_eq {f : File} (hf : f.Legible) (hc : f.Clear) :
    f.asRead = f.unresolved := by
  have hmessages : f.messages.mapValues Message.asRead = f.messages.mapValues Message.unresolved :=
    Table.mapValues_inj.2 fun m hm => (hc.messages m hm).asRead_eq (hf.messages m hm)
  rw [asRead, unresolved, hmessages]

theorem Field.Writable.clear {f : File} {m : Message} {x : Field} (hf : f.Writable)
    (hm : m.Writable f) (hx : x.Writable f m) : x.Clear where
  type_name _ := hx.type.name_not_mem hf hm
  not_both := hx.not_both

theorem File.Writable.clear {f : File} (hf : f.Writable) : f.Clear where
  messages m hm :=
    have hm := hf.messages m hm
    { fields x hx := (hm.fields x hx).clear hf hm
      enums e he := (hm.enums e he).one_first }
  services s hs := by
    have hstream : ∀ n, f.messages.has n = true → n ≠ "stream" := by
      rintro n hn rfl
      exact absurd (hf.isTypeName_of_has hn) (by decide)
    have hrpcs : ∀ r ∈ s.rpcs.values, r.isStuck = false := by
      intro r hr
      have hr := (hf.services s hs).rpcs r hr
      simp [Rpc.isStuck, hstream _ hr.input, hstream _ hr.output]
    simpa [Service.isStuck] using hrpcs

end DiscoveryGrpc.Proto
