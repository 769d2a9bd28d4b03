import DiscoveryGrpc.Proofs.Proto.Reading
import DiscoveryGrpc.Proto.Resolution

/-!
# Resolving what was read

The name of a type of a writable file is looked up as that type again (`lookup?_name`), with one
exception: where a message nests an enum, the name of that enum means the enum, so a message of the
same name is lost as a type. `File.reread` is a file with its types looked up in this way, and
`File.resolved_unresolved` says that resolving what was read gives it. Nothing is lost just if no
enum shadows a message (`File.same_reread_iff`).
-/

namespace DiscoveryGrpc.Proto

/-! ## What is resolved -/

/-- The type that the name of a type means in a message. -/
def FieldType.reread (m : Message) : FieldType → FieldType
  | message n => if m.hasEnum n then .enum n else .message n
  | t => t

/-- A field of a message with the types that their names mean. -/
def Field.reread (m : Message) (x : Field) : Field :=
  { x.undocumented with type := x.type.reread m, keyType := x.keyType.map (·.reread m) }

/-- A message with the types that their names mean. -/
def Message.reread (m : Message) : Message :=
  { m.undocumented with fields := m.fields.map (Field.reread m) }

/-- A file with the types that their names mean. -/
def File.reread (f : File) : File :=
  { f.undocumented with messages := f.messages.mapValues Message.reread }

/-- A field with its types replaced. -/
def Field.retyped (g : FieldType → FieldType) (x : Field) : Field :=
  { x.undocumented with type := g x.type, keyType := x.keyType.map g }

/-- A message with the types of its fields replaced. -/
def Message.retyped (g : FieldType → FieldType) (m : Message) : Message :=
  { m.undocumented with fields := m.fields.map (Field.retyped g) }

/-! ## Looking up names -/

namespace Resolution

theorem after?_dot {start s : String} (h : '.' ∉ s.toList) :
    Text.after? (start ++ ".") s = none := by
  rw [Text.after?, if_neg]
  intro hp
  have hp := List.isPrefixOf_iff_prefix.1 hp
  exact h (hp.subset (by simp))

theorem localName_eq {package name : String} (h : '.' ∉ name.toList) :
    localName package name = name := by
  rw [localName, after?_dot h]
  rfl

theorem nestedName_eq {owner name : String} (h : '.' ∉ name.toList) :
    nestedName owner name = name := by
  rw [nestedName, after?_dot h]
  rfl

end Resolution

theorem Message.hasEnum_unresolved (m : Message) (n : String) :
    m.unresolved.hasEnum n = m.hasEnum n := Table.has_mapValues ..

theorem File.has_unresolved (f : File) (n : String) :
    f.unresolved.messages.has n = f.messages.has n := Table.has_mapValues ..

/-- A name is looked up in the names of the package, the messages and the enums alone. -/
theorem lookup?_congr {f f' : File} {m m' : Message} (hpackage : f'.package = f.package)
    (hhas : ∀ n, f'.messages.has n = f.messages.has n) (hname : m'.name = m.name)
    (henum : ∀ n, m'.hasEnum n = m.hasEnum n) (name : String) :
    Resolution.lookup? f' m' name = Resolution.lookup? f m name := by
  simp [Resolution.lookup?, hpackage, hhas, hname, henum]

theorem lookup?_unresolved (f : File) (m : Message) (name : String) :
    Resolution.lookup? f.unresolved m.unresolved name = Resolution.lookup? f m name := by
  refine lookup?_congr ?_ f.has_unresolved ?_ m.hasEnum_unresolved name <;> rfl

/-- The names of the types of a message are looked up as the types that a function gives. -/
structure Message.Means (f : File) (m : Message) (g : FieldType → FieldType) : Prop where
  type : ∀ x ∈ m.fields, Resolution.lookup? f m x.type.name = some (g x.type)
  keyType : ∀ x ∈ m.fields, ∀ key ∈ x.keyType, Resolution.lookup? f m key.name = some (g key)

/-- The name of a message is looked up as this message. -/
def File.Finds (f : File) (name : String) : Prop :=
  Resolution.localName f.package name = name ∧ f.messages.has name = true

theorem File.finds_unresolved (f : File) (name : String) :
    f.unresolved.Finds name ↔ f.Finds name := by
  rw [Finds, has_unresolved]
  rfl

/-! ## Resolving everything -/

namespace Resolution

variable {f : File} {m : Message} {g : FieldType → FieldType}

theorem resolveType_unresolved {t t' : FieldType} (h : lookup? f m t.name = some t')
    (name : String) : resolveType f.unresolved m.unresolved name t.unresolved = .ok t' := by
  simp [resolveType, FieldType.unresolved, lookup?_unresolved, h]

theorem resolveField_unresolved (h : m.Means f g) {x : Field} (hx : x ∈ m.fields) :
    resolveField f.unresolved m.unresolved x.unresolved = .ok (x.retyped g) := by
  have htype := resolveType_unresolved (h.type x hx)
  have hkey := h.keyType x hx
  obtain ⟨name, type, repeated, optional, keyType, settings, description, first⟩ := x
  cases keyType with
  | none => simp_all [resolveField, Field.unresolved, Field.retyped, Field.undocumented]
  | some key =>
    have hkey := resolveType_unresolved (hkey key rfl)
    simp_all [resolveField, Field.unresolved, Field.retyped, Field.undocumented]
    rfl

/-- If a step succeeds on every element of a list, so does going through the list. -/
theorem mapM_eq_map {α β : Type} {f : α → Except Fault β} {g : α → β} {xs : List α}
    (h : ∀ x ∈ xs, f x = .ok (g x)) : xs.mapM f = .ok (xs.map g) := by
  induction xs with
  | nil => rfl
  | cons x xs ih =>
    rw [List.mapM_cons, h x List.mem_cons_self, ih fun y hy => h y (List.mem_cons_of_mem _ hy)]
    rfl

theorem resolveTable_mapValues {α β : Type} {resolve : β → Except Fault β} {f g : α → β}
    {t : Table α} (h : ∀ x ∈ t.values, resolve (f x) = .ok (g x)) :
    resolveTable resolve (t.mapValues f) = .ok (t.mapValues g) := by
  rw [resolveTable, Table.mapValues, List.mapM_map]
  refine mapM_eq_map fun e he => ?_
  simp [h e.2 (Table.mem_values_of_mem he)]

theorem resolveMessage_unresolved (hm : Field.Distinct m.fields) (h : m.Means f g) :
    resolveMessage f.unresolved m.unresolved = .ok (m.retyped g) := by
  have hfields : m.unresolved.fields.mapM (resolveField f.unresolved m.unresolved)
      = .ok (m.fields.map (Field.retyped g)) := by
    rw [Message.unresolved, List.mapM_map]
    exact mapM_eq_map fun x hx => resolveField_unresolved h hx
  have hsort : Field.sort (m.fields.map (Field.retyped g)) = m.fields.map (Field.retyped g) :=
    hm.sort_map (Field.retyped g) (fun _ => rfl) fun _ => rfl
  simp [resolveMessage, hfields, hsort, Message.retyped, Message.undocumented_eq]
  simp [Message.unresolved]

theorem resolveRpcMessage_eq_ok_iff {service rpc name : String} :
    resolveRpcMessage f service rpc name = .ok name ↔ f.Finds name := by
  rw [resolveRpcMessage, File.Finds]
  by_cases hhas : f.messages.has (localName f.package name) = true
  · rw [if_pos hhas, Except.ok.injEq]
    exact ⟨fun h => ⟨h, h ▸ hhas⟩, fun h => h.1⟩
  · rw [if_neg hhas]
    exact ⟨nofun, fun h => absurd (h.1.symm ▸ h.2) hhas⟩

theorem resolveRpc_undocumented {r : Rpc} (hinput : f.Finds r.input) (houtput : f.Finds r.output)
    (service : String) : resolveRpc f service r.undocumented = .ok r.undocumented := by
  have hinput : resolveRpcMessage f service r.name r.input = .ok r.input :=
    resolveRpcMessage_eq_ok_iff.2 hinput
  have houtput : resolveRpcMessage f service r.name r.output = .ok r.output :=
    resolveRpcMessage_eq_ok_iff.2 houtput
  simp [resolveRpc, Rpc.undocumented, hinput, houtput]
  rfl

theorem resolveService_undocumented {s : Service}
    (h : ∀ r ∈ s.rpcs.values, f.Finds r.input ∧ f.Finds r.output) :
    resolveService f s.undocumented = .ok s.undocumented := by
  have hrpcs := resolveTable_mapValues (t := s.rpcs)
    fun r hr => resolveRpc_undocumented (h r hr).1 (h r hr).2 s.name
  simp [resolveService, Service.undocumented, hrpcs]

end Resolution

/-- What was read is resolved, each name of a type as what it means. -/
theorem File.resolved_unresolved_of_means {f : File} {g : Message → FieldType → FieldType}
    (hdistinct : ∀ m ∈ f.messages.values, Field.Distinct m.fields)
    (hmeans : ∀ m ∈ f.messages.values, m.Means f (g m))
    (hfinds : ∀ s ∈ f.services.values, ∀ r ∈ s.rpcs.values, f.Finds r.input ∧ f.Finds r.output) :
    f.unresolved.resolved
      = .ok { f.undocumented with messages := f.messages.mapValues fun m => m.retyped (g m) } := by
  have hmessages := Resolution.resolveTable_mapValues (t := f.messages)
    fun m hm => Resolution.resolveMessage_unresolved (hdistinct m hm) (hmeans m hm)
  have hservices : Resolution.resolveTable (Resolution.resolveService f.unresolved)
      (f.services.mapValues Service.undocumented)
      = .ok (f.services.mapValues Service.undocumented) :=
    Resolution.resolveTable_mapValues fun s hs =>
      Resolution.resolveService_undocumented fun r hr => by
        simpa only [finds_unresolved] using hfinds s hs r hr
  have hm : f.unresolved.messages = f.messages.mapValues Message.unresolved := rfl
  have hs : f.unresolved.services = f.services.mapValues Service.undocumented := rfl
  rw [resolved, hm, hmessages, hs, hservices]
  rfl

/-! ## Writable files -/

theorem not_mem_dot {s : String} (h : isTypeName s = true) : '.' ∉ s.toList := by
  unfold isTypeName at h
  split at h
  · cases h
  · rename_i c cs hs
    obtain ⟨hc, hp⟩ := Bool.and_eq_true_iff.1 h
    rw [hs]
    intro hm
    rcases List.mem_cons.1 hm with rfl | hm
    · revert hc
      decide
    · have := List.all_eq_true.1 hp '.' hm
      revert this
      decide

/-- No primitive type has the name of a message or an enum. -/
theorem ofName?_eq_none {s : String} (h : isTypeName s = true) : Primitive.ofName? s = none := by
  have hall : ∀ p ∈ Primitive.all, isTypeName p.name = false := by decide
  refine List.find?_eq_none.2 fun p hp hn => ?_
  have hn : p.name = s := by simpa using hn
  exact Bool.false_ne_true ((hall p hp).symm.trans (hn ▸ h))

theorem ofName?_name (p : Primitive) : Primitive.ofName? p.name = some p := by
  cases p <;> decide

/-- The name of a known type is looked up as this type, or as the enum that shadows it. -/
theorem lookup?_name {f : File} {m : Message} (hf : f.Writable) (hm : m.Writable f)
    {t : FieldType} (h : t.Known f m) : Resolution.lookup? f m t.name = some (t.reread m) := by
  have hlocal : ∀ {n : String}, isTypeName n = true → Resolution.lookup? f m n
      = if m.hasEnum n then some (.enum n)
        else if f.messages.has n then some (.message n) else none := by
    intro n hn
    have hdot := not_mem_dot hn
    simp [Resolution.lookup?, ofName?_eq_none hn, Resolution.localName_eq hdot,
      Resolution.nestedName_eq hdot]
  cases t with
  | primitive p =>
    have hp : p ≠ .unformatted := h
    simp only [Resolution.lookup?, FieldType.name, ofName?_name]
    cases p <;> first | exact absurd rfl hp | rfl
  | reference n => exact h.elim
  | message n =>
    have hn : f.messages.has n = true := h
    rw [FieldType.name, hlocal (hf.isTypeName_of_has hn), hn, FieldType.reread]
    split <;> rfl
  | enum n =>
    have hn : m.hasEnum n = true := h
    rw [FieldType.name, hlocal (hm.isTypeName_of_hasEnum hn), if_pos hn]
    rfl

theorem Message.Writable.means {f : File} {m : Message} (hf : f.Writable) (hm : m.Writable f) :
    m.Means f (·.reread m) where
  type x hx := lookup?_name hf hm (hm.fields x hx).type
  keyType x hx key hkey := lookup?_name hf hm ((hm.fields x hx).keyType key hkey)

theorem File.Writable.finds {f : File} (hf : f.Writable) {name : String}
    (h : f.messages.has name = true) : f.Finds name :=
  ⟨Resolution.localName_eq (not_mem_dot (hf.isTypeName_of_has h)), h⟩

/-- What was read of a writable file is resolved, each name of a type as what it means. -/
theorem File.resolved_unresolved {f : File} (hf : f.Writable) :
    f.unresolved.resolved = .ok f.reread :=
  resolved_unresolved_of_means (g := fun m => (·.reread m))
    (fun m hm => (hf.messages m hm).distinct) (fun m hm => (hf.messages m hm).means hf)
    fun s hs r hr =>
      have hr := (hf.services s hs).rpcs r hr
      ⟨hf.finds hr.input, hf.finds hr.output⟩

/-! ## When nothing is lost -/

theorem FieldType.reread_eq_iff {m : Message} {t : FieldType} :
    t.reread m = t ↔ t.Unshadowed m := by
  cases t with
  | message n =>
    simp only [reread, Unshadowed]
    split <;> simp_all
  | _ => simp [reread, Unshadowed]

theorem Field.reread_eq_iff {m : Message} {x : Field} :
    x.reread m = x.undocumented ↔ x.type.Unshadowed m ∧ ∀ key ∈ x.keyType, key.Unshadowed m := by
  obtain ⟨name, type, repeated, optional, keyType, settings, description, first⟩ := x
  cases keyType <;> simp [reread, undocumented, FieldType.reread_eq_iff]

theorem Message.reread_eq_iff {m : Message} : m.reread = m.undocumented ↔ m.Unshadowed := by
  rw [Unshadowed, reread, undocumented_eq]
  simp only [mk.injEq, true_and, and_true, List.map_inj_left]
  exact forall₂_congr fun x _ => Field.reread_eq_iff

theorem Message.undocumented_reread (m : Message) : m.reread.undocumented = m.reread := by
  have henums := congrArg enums m.undocumented_undocumented
  rw [undocumented_eq, undocumented_eq] at henums
  rw [undocumented_eq, reread, undocumented_eq]
  simp only [mk.injEq, true_and]
  exact ⟨by simp [Field.reread, Field.undocumented, Function.comp_def], henums⟩

theorem File.reread_eq_iff {f : File} : f.reread = f.undocumented ↔ f.Unshadowed := by
  rw [Unshadowed, reread, undocumented]
  simp only [mk.injEq, true_and, and_true, Table.mapValues_inj]
  exact forall₂_congr fun m _ => Message.reread_eq_iff

theorem Service.undocumented_undocumented (s : Service) :
    s.undocumented.undocumented = s.undocumented := by
  rw [undocumented, undocumented, Table.mapValues_mapValues]
  rfl

theorem File.undocumented_undocumented (f : File) :
    f.undocumented.undocumented = f.undocumented := by
  simp [undocumented, Table.mapValues_mapValues, Service.undocumented_undocumented,
    Message.undocumented_undocumented]

theorem File.undocumented_reread (f : File) : f.reread.undocumented = f.reread := by
  simp [reread, undocumented, Table.mapValues_mapValues, Service.undocumented_undocumented,
    Message.undocumented_reread]

/-- The file with the types that their names mean is the same just if no enum shadows a
message. -/
theorem File.same_reread_iff {f : File} : f.reread.same f = true ↔ f.Unshadowed := by
  rw [same, beq_iff_eq, undocumented_reread, reread_eq_iff]

end DiscoveryGrpc.Proto
