import DiscoveryGrpc.Proofs.Proto.Field
import DiscoveryGrpc.Proofs.Table
import DiscoveryGrpc.Proto.File

/-!
# Well-formed files

In a well-formed file everything is in order and stored under its own name, and no two fields of a
message or members of an enum have one name. So a field is found under its name
(`Message.field?_eq_some_iff`), and what look-up gives determines the fields of a message
(`Field.Distinct.ext`).
-/

namespace DiscoveryGrpc.Proto

namespace Message

/-- The fields have different names and are in order, the enums are stored under their own names,
and so it is in the enums. -/
inductive WellFormed : Message → Prop
  | intro {m : Message} (fields : Field.Distinct m.fields)
      (named : Table.Named Message.name m.enums)
      (enums : ∀ e ∈ Table.values m.enums, WellFormed e) : WellFormed m

namespace WellFormed

variable {m : Message}

theorem fields (h : m.WellFormed) : Field.Distinct m.fields := by
  cases h
  assumption

theorem named (h : m.WellFormed) : Table.Named Message.name m.enums := by
  cases h
  assumption

theorem enums (h : m.WellFormed) : ∀ e ∈ Table.values m.enums, e.WellFormed := by
  cases h
  assumption

end WellFormed

theorem wellFormed_iff (m : Message) : m.WellFormed ↔ Field.Distinct m.fields ∧
    Table.Named Message.name m.enums ∧ ∀ e ∈ Table.values m.enums, e.WellFormed :=
  ⟨fun h => ⟨h.fields, h.named, h.enums⟩, fun ⟨hf, hn, he⟩ => .intro hf hn he⟩

mutual

/-- Whether a message is well formed can be decided. -/
def decWellFormed : (m : Message) → Decidable m.WellFormed
  | ⟨name, isEnum, description, fields, enums⟩ =>
    have := decWellFormedTable enums
    decidable_of_iff' _ (wellFormed_iff ⟨name, isEnum, description, fields, enums⟩)

/-- Whether all messages of a table are well formed can be decided. -/
def decWellFormedTable : (t : List (String × Message)) →
    Decidable (∀ m ∈ Table.values t, m.WellFormed)
  | [] => .isTrue (by simp [Table.values])
  | (_, m) :: t =>
    have := decWellFormed m
    have := decWellFormedTable t
    decidable_of_iff' (m.WellFormed ∧ ∀ x ∈ Table.values t, x.WellFormed) List.forall_mem_cons

end

instance (m : Message) : Decidable m.WellFormed := decWellFormed m

/-! ## Parts -/

theorem eta (m : Message) : ⟨m.name, m.isEnum, m.description, m.fields, m.enums⟩ = m := by
  cases m
  rfl

/-- Messages are equal if both differ from one message in fields and enums only, and agree in
these. -/
theorem eq_of_parts {base m m' : Message}
    (h : m = { base with fields := m.fields, enums := m.enums })
    (h' : m' = { base with fields := m'.fields, enums := m'.enums })
    (hfields : m.fields = m'.fields) (henums : m.enums = m'.enums) : m = m' := by
  rw [h, hfields, henums]
  exact h'.symm

/-! ## Looking up fields -/

theorem mem_putField {m : Message} {f g : Field} :
    g ∈ (m.putField f).fields ↔ g = f ∨ g ∈ m.fields ∧ g.name ≠ f.name := by
  simp [putField, Field.mem_insert]

theorem distinct_putField {m : Message} (h : Field.Distinct m.fields) (f : Field) :
    Field.Distinct (m.putField f).fields := by
  have hrest : Field.Distinct (m.fields.filter (·.name != f.name)) :=
    ⟨h.sorted.filter _, h.nodup.sublist (List.filter_sublist.map _)⟩
  exact hrest.insert fun g hg => by simpa using (List.mem_filter.1 hg).2

/-- If no two fields have one name, every field is found under its name. -/
theorem field?_eq_some_iff {m : Message} (h : (m.fields.map (·.name)).Nodup) {name : String}
    {f : Field} : m.field? name = some f ↔ f ∈ m.fields ∧ f.name = name := by
  constructor
  · intro hf
    exact ⟨List.mem_of_find?_eq_some hf, by simpa using List.find?_some hf⟩
  · rintro ⟨hf, rfl⟩
    cases hg : m.field? f.name with
    | none => exact absurd rfl (field?_eq_none.1 hg f hf)
    | some g =>
      have hmem := List.mem_of_find?_eq_some hg
      have hname : g.name = f.name := by simpa using List.find?_some hg
      rw [List.inj_on_of_nodup_map h hmem hf hname]

/-- A field that is put into a message is found there, and all others are as they were. -/
theorem field?_putField {m : Message} (h : Field.Distinct m.fields) (f : Field) (name : String) :
    (m.putField f).field? name = if name = f.name then some f else m.field? name := by
  refine Option.ext fun g => ?_
  rw [field?_eq_some_iff (distinct_putField h f).nodup, mem_putField]
  by_cases hn : name = f.name
  · simp only [hn, if_true, Option.some.injEq]
    constructor
    · rintro ⟨rfl | hg, hname⟩
      · rfl
      · exact absurd hname hg.2
    · rintro rfl
      exact ⟨.inl rfl, rfl⟩
  · rw [if_neg hn, field?_eq_some_iff h.nodup]
    constructor
    · rintro ⟨rfl | hg, hname⟩
      · exact absurd hname.symm hn
      · exact ⟨hg.1, hname⟩
    · exact fun hg => ⟨.inr ⟨hg.1, fun h => hn (hg.2.symm.trans h)⟩, hg.2⟩

end Message

/-- Fields of different names are determined by what is found under each name. -/
theorem Field.Distinct.ext {m m' : Message} (h : Distinct m.fields) (h' : Distinct m'.fields)
    (hfield : ∀ name, m.field? name = m'.field? name) : m.fields = m'.fields := by
  refine h.eq_of_perm h' ((List.perm_ext_iff_of_nodup ?_ ?_).2 fun f => ?_)
  · exact h.nodup.of_map _
  · exact h'.nodup.of_map _
  · have hf : m.field? f.name = some f ↔ f ∈ m.fields ∧ f.name = f.name :=
      Message.field?_eq_some_iff h.nodup
    have hf' : m'.field? f.name = some f ↔ f ∈ m'.fields ∧ f.name = f.name :=
      Message.field?_eq_some_iff h'.nodup
    rw [hfield f.name] at hf
    simpa using hf.symm.trans hf'

/-- A file in which everything is in order and stored under its own name, and in which fields of one
message have different names. -/
@[mk_iff]
structure File.WellFormed (f : File) : Prop where
  messages : f.messages.Named Message.name
  wellFormed : ∀ m ∈ f.messages.values, m.WellFormed
  services : f.services.Named Service.name
  rpcs : ∀ s ∈ f.services.values, s.rpcs.Named Rpc.name

instance (f : File) : Decidable f.WellFormed := decidable_of_iff' _ (File.wellFormed_iff f)

end DiscoveryGrpc.Proto
