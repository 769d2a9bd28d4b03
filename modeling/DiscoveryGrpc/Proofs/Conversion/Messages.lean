import DiscoveryGrpc.Proofs.Conversion.Steps
import DiscoveryGrpc.Proofs.Api.Schema
import DiscoveryGrpc.Conversion.Document

/-!
# The steps that make messages

One statement for each function that makes a message of a schema, from single notes up to
`addSchema`: it leads by steps to a result that is drafted, which means that its types are known
where it ends. The functions for fields call each other along the schema, and so do their
statements (`leads_fieldOf`).
-/

namespace DiscoveryGrpc

open Proto Api

/-- The names that the head of a schema gives are allowed. -/
structure Naming.Admits (N : Naming) (h : SchemaHead) : Prop where
  type : ∀ n, messageName h.identifier = .ok n → N.type n
  field : ∀ n, fieldName h.key = .ok n → N.field n

namespace Conversion

variable {N : Naming} {w w' : Workspace}

/-! ## Notes and messages -/

theorem leads_note (e : Event) : Leads N (note e) w fun _ _ => True :=
  Leads.modify (.note w e) trivial

/-- A message that is added is there afterwards, or another one with its name is. -/
theorem leads_addMessage {m : Message} (hm : m.Drafted N w.messages) :
    Leads N (addMessage m) w fun _ w' => w'.messages.has m.name = true := by
  refine Leads.get_bind ?_
  split
  · rename_i hnone
    have hnew : w.messages.has m.name = false := by
      rw [← Table.isSome_get?, hnone]
      rfl
    refine Leads.bind (Leads.set (Q := fun _ w' => w'.messages.has m.name = true)
      (.addMessage w m hnew hm) ?_) fun _ w' _ h => Leads.pure h
    simp [Table.has_insert]
  · rename_i existing hsome
    have hhas := Table.has_of_get? hsome
    split
    · exact Leads.pure hhas
    · split
      · exact Leads.bind (leads_note _) fun _ w' hs _ => Leads.pure (hs.has hhas)
      · exact Leads.throw _

theorem eq_ok_addUniqueField {m m' : Message} {f : Field} (h : addUniqueField m f = .ok m') :
    m.addField? f = some m' := by
  rw [addUniqueField] at h
  split at h
  · rename_i h'
    rw [h', Except.ok.inj h]
  · cases h

/-! ## Enums -/

/-- A member of an enum, the first one or another one. -/
theorem writableMember_of_name {name description : String} (h : IsMemberName name) (first : Bool) :
    Field.WritableMember
      { name, type := .primitive .unformatted, first, description } where
  name := h.isName
  not_keyword := h.not_keyword
  type := rfl
  keyType := rfl
  not_repeated := rfl
  not_optional := rfl
  settings := by simp

/-- An enum while its members are added: the first one is there. -/
structure Enumerating (name : String) (e : Message) : Prop where
  isEnum : e.isEnum = true
  name : e.name = name
  no_enums : e.enums = []
  members : ∀ x ∈ e.fields, x.WritableMember
  distinct : Field.Distinct e.fields
  one_first : (e.fields.filter (·.first)).length = 1
  bare : ∀ x ∈ e.fields, x.settings = []

theorem Enumerating.drafted {name : String} {e : Message} (h : Enumerating name e)
    (hname : N.type name) : e.DraftedEnum N :=
  { h with one_first := fun _ => h.one_first, name := h.name ▸ hname }

theorem Enumerating.addField {name : String} {e e' : Message} (h : Enumerating name e) {x : Field}
    (hx : x.WritableMember) (hfirst : x.first = false) (hbare : x.settings = [])
    (hadd : e.addField? x = some e') :
    Enumerating name e' := by
  obtain ⟨hnew, rfl⟩ := Message.of_addField? hadd
  refine { h with
    members := fun y hy => ?_
    distinct := h.distinct.insert hnew
    one_first := ?_
    bare := fun y hy => ?_ }
  · rcases Field.mem_insert.1 hy with rfl | hy
    · exact hx
    · exact h.members y hy
  · have hperm := (Field.insert_perm x e.fields).filter (·.first)
    rw [hperm.length_eq, List.filter_cons_of_neg (by simp [hfirst])]
    exact h.one_first
  · rcases Field.mem_insert.1 hy with rfl | hy
    · exact hbare
    · exact h.bare y hy

theorem enumerating_start {name identifier : String} {undefined : Field}
    (h : undefinedMember identifier = .ok undefined) (description : String) :
    Enumerating name (({ name, isEnum := true, description } : Message).addField undefined) := by
  obtain ⟨n, hn, h⟩ := Except.bind_eq_ok_iff.1 h
  obtain rfl := Except.ok.inj h
  exact {
    isEnum := rfl
    name := rfl
    no_enums := rfl
    members := by
      simpa [Message.addField, Message.addField?, Message.field?, Field.insert]
        using writableMember_of_name (isMemberName_undefined (Name.clean_of_ofIdentifier? hn)) true
    distinct := ⟨List.pairwise_singleton .., List.nodup_singleton _⟩
    one_first := rfl
    bare := by simp [Message.addField, Message.addField?, Message.field?, Field.insert] }

theorem leads_addMember {name : String} {e : Message} (he : Enumerating name e)
    (value : String × String) :
    Leads N (addMember e value) w fun e' _ => Enumerating name e' := by
  refine Leads.bind (Leads.lift (Q := fun name _ => IsMemberName name)
    fun _ h => isMemberName_enumMemberName h) fun member w' _ hmember => ?_
  dsimp only
  split
  · rename_i e' hadd
    exact Leads.pure (he.addField (writableMember_of_name hmember false) rfl rfl hadd)
  · exact Leads.bind (leads_note _) fun _ _ _ _ => Leads.pure he

theorem leads_enumOf (h : SchemaHead) (name : String) :
    Leads N (enumOf h name) w fun e _ => Enumerating name e := by
  refine Leads.bind (Leads.lift (Q := fun undefined _ => undefinedMember name = .ok undefined)
    fun _ h => h) fun undefined w' _ hundefined => ?_
  exact Leads.foldlM (fun value _ e w'' _ he => leads_addMember he value)
    (enumerating_start hundefined _)

/-- What making a type for a field of a message gives: the type is drafted in the message that
comes with it, which still is the same message otherwise. -/
def Typed (N : Naming) (owner : Message) (r : FieldType × Message) (w : Workspace) : Prop :=
  r.1.Drafted w.messages r.2 ∧ r.2.Drafted N w.messages ∧ r.2.name = owner.name

theorem leads_enumType {opts : Options} {h : SchemaHead} (hN : N.Admits h) {owner : Message}
    (ho : owner.Drafted N w.messages) :
    Leads N (enumType opts h owner) w (Typed N owner) := by
  refine Leads.bind (Leads.lift (Q := fun name _ => N.type name) fun n hn => hN.type n hn)
    fun name w₁ h₁ hname => ?_
  refine Leads.bind (leads_enumOf h name) fun e w₂ h₂ he => ?_
  have ho := ho.mono fun n => Steps.has (h₁.trans h₂)
  have hnested : ∀ owner', nestEnum owner e = .ok owner' →
      owner'.Drafted N w₂.messages ∧ owner'.name = owner.name ∧ owner'.hasEnum name = true := by
    intro owner' hnest
    rw [nestEnum, he.name] at hnest
    split at hnest
    · obtain rfl := Except.ok.inj hnest
      refine ⟨ho.addEnum (he.drafted hname), rfl, ?_⟩
      rw [Message.hasEnum_addEnum, he.name, beq_self_eq_true, Bool.true_or]
    · rename_i existing hsome
      split at hnest
      · obtain rfl := Except.ok.inj hnest
        exact ⟨ho, rfl, Table.has_of_get? hsome⟩
      · cases hnest
  refine Leads.bind (Leads.lift (Q := fun owner' w => owner'.Drafted N w.messages ∧
    owner'.name = owner.name ∧ owner'.hasEnum name = true) hnested) fun owner' w₃ _ hn => ?_
  refine Leads.pure ⟨?_, hn.1, hn.2.1⟩
  dsimp only
  split
  · exact fun h => Primitive.noConfusion h
  · exact hn.2.2

/-! ## Inline messages and types of values -/

/-- What making a message with a name gives. -/
def Made (N : Naming) (name : String) (m : Message) (w : Workspace) : Prop :=
  m.Drafted N w.messages ∧ m.name = name

theorem allowed_messageName {r : Registry} (hr : r.Allowed N) {default : String}
    (hd : N.type default) (path schema : String) : N.type (r.messageName path schema default) := by
  unfold Registry.messageName
  split
  · rename_i name hname
    exact hr.configured name (Table.mem_values_of_get? hname)
  · cases hfirst : r.firstNames.get? schema with
    | none => exact hd
    | some name => exact hr.firstNames name (Table.mem_values_of_get? hfirst)

theorem leads_inlineType {h : SchemaHead} (hN : N.Admits h) {make : String → Build Message}
    (hmake : ∀ name w', N.type name → Steps N w w' → Leads N (make name) w' (Made N name)) :
    Leads N (inlineType h make) w fun t w' => ∃ n, t = .message n ∧ w'.messages.has n = true := by
  refine Leads.bind (Leads.lift (Q := fun name _ => N.type name) fun n hn => hN.type n hn)
    fun default w₁ h₁ hdefault => ?_
  refine Leads.get_bind (Leads.of_allowed fun hallowed => ?_)
  -- the name is the configured one, if there is one for the path
  obtain ⟨name, hname, htype, hconfigured⟩ : ∃ name,
      (if h.id.isEmpty then w₁.registry.messageName h.place.path h.canonical default else default)
        = name ∧ N.type name ∧ (h.id.isEmpty = true →
          ∀ n ∈ w₁.registry.configured.get? h.place.path, name = n) := by
    refine ⟨_, rfl, ?_, fun hinline n hn => ?_⟩
    · split
      · exact allowed_messageName hallowed hdefault _ _
      · exact hdefault
    · rw [if_pos hinline, Registry.messageName_of_get? hn]
  simp only [hname]
  refine Leads.bind (hmake name w₁ htype h₁) fun m w₂ h₂ hm => ?_
  refine Leads.bind (leads_addMessage hm.1) fun added w₃ h₃ hhas => ?_
  rw [hm.2] at hhas
  split
  · rename_i hadded
    have hinline := (Bool.and_eq_true_iff.1 hadded).2
    refine Leads.bind (Leads.modify (Q := fun _ w => w.messages.has name = true)
      (.register w₃ h.place.path name h.canonical htype (fun n hn => ?_) hhas) hhas)
      fun _ w₄ _ hhas => Leads.pure ⟨name, rfl, hhas⟩
    rw [Steps.configured (h₂.trans h₃)] at hn
    exact hconfigured hinline n hn
  · exact Leads.pure ⟨name, rfl, hhas⟩

theorem primitiveType_ne (type : SchemaType) (format : String) :
    primitiveType type format ≠ .unformatted := by
  unfold primitiveType
  split <;> simp

theorem wellKnown?_ne {format : String} {p : Primitive} (h : Primitive.wellKnown? format = some p) :
    p ≠ .unformatted := by
  unfold Primitive.wellKnown? at h
  split at h <;> cases h <;> simp

theorem leads_primitive {owner : Message} (ho : owner.Drafted N w.messages) {p : Primitive}
    (hp : p ≠ .unformatted) :
    Leads N (pure (.primitive p, owner) : Build (FieldType × Message)) w (Typed N owner) :=
  Leads.pure ⟨hp, ho, rfl⟩

theorem leads_valueType {opts : Options} {h : SchemaHead} (hN : N.Admits h)
    {make : String → Build Message} {owner : Message} (ho : owner.Drafted N w.messages)
    (hmake : ∀ name w', N.type name → Steps N w w' → Leads N (make name) w' (Made N name)) :
    Leads N (valueType opts h make owner) w (Typed N owner) := by
  unfold valueType
  split
  · exact Leads.bind (Leads.lift (Q := fun _ _ => True) fun _ _ => trivial)
      fun n w' hs _ => Leads.pure ⟨trivial, ho.mono fun n => hs.has, rfl⟩
  · split
    · split
      · exact leads_enumType hN ho
      · exact leads_primitive ho (primitiveType_ne _ _)
    · exact leads_primitive ho (primitiveType_ne _ _)
    · exact leads_primitive ho (primitiveType_ne _ _)
    · exact leads_primitive ho (primitiveType_ne _ _)
    · split
      · rename_i p hp
        exact leads_primitive ho (wellKnown?_ne hp)
      · exact Leads.throw _
    · refine Leads.bind (leads_inlineType hN hmake) fun t w' hs ht => ?_
      obtain ⟨n, rfl, hn⟩ := ht
      exact Leads.pure ⟨hn, ho.mono fun n => hs.has, rfl⟩
    · exact Leads.throw _
    · exact Leads.throw _

/-! ## Fields -/

theorem drafted_fieldWithType {h : SchemaHead} (hN : N.Admits h) {isMap : Bool}
    {type : FieldType} {m : Message} {known : Table Message} (htype : type.Drafted known m)
    {f : Field} (hf : fieldWithType h isMap type = .ok f) : f.Drafted N known m := by
  obtain ⟨name, hname, hf⟩ := Except.bind_eq_ok_iff.1 hf
  obtain rfl := Except.ok.inj hf
  refine {
    name := hN.field name hname
    type := htype
    keyType := ?_
    map_repeated := ?_
    not_both := ?_
    not_first := rfl
    settings := ?_ }
  · cases isMap <;> simp
  · cases isMap <;> simp [Field.isMap]
  · rintro ⟨hrepeated, hoptional⟩
    dsimp only at hrepeated hoptional
    rw [hrepeated] at hoptional
    cases hoptional
  · have hrequired : Setting.required.Drafted [] := Setting.drafted_of_ne (by decide) (by decide)
    have hdeprecated : (Setting.scalar Setting.deprecated (.bool true)).Drafted [] :=
      Setting.drafted_of_ne (by decide) (by decide)
    intro s hs
    rcases List.mem_append.1 hs with hs | hs
    · split at hs <;> simp_all
    · split at hs <;> simp_all

/-- What making a field of a message gives. -/
def Fielded (N : Naming) (owner : Message) (r : Field × Message) (w : Workspace) : Prop :=
  r.1.Drafted N w.messages r.2 ∧ r.2.Drafted N w.messages ∧ r.2.name = owner.name

mutual

theorem leads_fieldOf (opts : Options) : (s : Schema) → s.All N.Admits → (owner : Message) →
    (w : Workspace) → owner.Drafted N w.messages →
    Leads N (fieldOf opts s owner) w (Fielded N owner)
  | ⟨h, properties, items, additional⟩, ⟨hN, hproperties, hitems, hadditional⟩, owner, w, ho => by
    have hend : ∀ r w', Steps N w w' → Typed N owner r w' → Leads N (do
        let f ← liftM (fieldWithType h (isMapField h additional) r.1)
        pure (f, r.2)) w' (Fielded N owner) := fun r w' _ hr => by
      refine Leads.bind (Leads.lift (Q := fun f w => f.Drafted N w.messages r.2) fun f hf =>
        drafted_fieldWithType hN hr.1 hf) fun f w'' hs hf => ?_
      exact Leads.pure ⟨hf, hr.2.1.mono fun n => hs.has, hr.2.2⟩
    rw [fieldOf]
    split
    · exact Leads.bind (leads_elementType opts items hitems _ _ owner w ho) hend
    · split
      · exact Leads.bind (leads_elementType opts additional hadditional _ _ owner w ho) hend
      · exact Leads.bind (leads_valueType hN ho fun name w' hname _ =>
          leads_addProperties opts properties hproperties _ name w' (.empty hname _) rfl) hend

theorem leads_elementType (opts : Options) : (s : Option Schema) →
    Schema.AllOption N.Admits s → (path : String) → (slot : ElementSlot) → (owner : Message) →
    (w : Workspace) → owner.Drafted N w.messages →
    Leads N (elementType opts path slot s owner) w (Typed N owner)
  | none, _, _, _, _, _, _ => Leads.throw _
  | some ⟨h, properties, _, additional⟩, ⟨hN, hproperties, _, _⟩, path, slot, owner, w, ho => by
    rw [elementType]
    split
    · exact Leads.throw _
    · exact leads_valueType hN ho fun name w' hname _ =>
        leads_addProperties opts properties hproperties _ name w' (.empty hname _) rfl

theorem leads_addProperties (opts : Options) : (ps : List (String × Schema)) →
    Schema.AllTable N.Admits ps → (m : Message) → (name : String) → (w : Workspace) →
    m.Drafted N w.messages → m.name = name →
    Leads N (addProperties opts ps m) w (Made N name)
  | [], _, m, name, w, hm, hname => Leads.pure ⟨hm, hname⟩
  | (_, s) :: rest, ⟨hs, hrest⟩, m, name, w, hm, hname => by
    rw [addProperties]
    refine Leads.bind (leads_fieldOf opts s hs m w hm) fun r w₁ h₁ hr => ?_
    refine Leads.bind (Leads.lift (Q := Made N name) fun m' hadd => ?_) fun m' w₂ h₂ hm' => ?_
    · have hadd := eq_ok_addUniqueField hadd
      refine ⟨hr.2.1.addField hr.1 hadd, ?_⟩
      rw [(Message.of_addField? hadd).2]
      exact hr.2.2.trans hname
    · exact leads_addProperties opts rest hrest m' name w₂ hm'.1 hm'.2

end

theorem leads_messageOf {opts : Options} {s : Schema} (hs : s.All N.Admits) {name : String}
    (hname : N.type name) : Leads N (messageOf opts s name) w (Made N name) := by
  obtain ⟨h, properties, items, additional⟩ := s
  exact leads_addProperties opts properties hs.2.1 _ name w (.empty hname _) rfl

/-- The message for a schema at the top level. -/
theorem leads_addSchema {opts : Options} {entry : String × Schema} (hs : entry.2.All N.Admits) :
    Leads N (addSchema opts entry) w fun _ _ => True := by
  obtain ⟨key, s⟩ := entry
  have hN : N.Admits s.toSchemaHead := by
    cases s
    exact hs.1
  unfold addSchema
  dsimp only
  split
  · exact leads_note _
  · split
    · exact leads_note _
    · refine Leads.bind (Leads.lift (Q := fun name _ => N.type name) fun n hn => hN.type n hn)
        fun name w₁ _ hname => ?_
      refine Leads.bind (leads_messageOf hs hname) fun m w₂ _ hm => ?_
      exact Leads.bind (leads_addMessage hm.1) fun _ _ _ _ => Leads.pure trivial

end Conversion

end DiscoveryGrpc
