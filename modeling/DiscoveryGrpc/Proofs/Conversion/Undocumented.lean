import DiscoveryGrpc.Proofs.Api.Undocumented
import DiscoveryGrpc.Proofs.Conversion.Agreement
import DiscoveryGrpc.Proofs.Conversion.Replay
import DiscoveryGrpc.Conversion.Document

/-!
# Documentation does not influence a conversion

Descriptions go from schemas and methods to messages, fields and rpcs, and nothing is decided by
them: each part of a conversion agrees with the same part for what it is given without
documentation. So the conversion of a document agrees with that of the document without
documentation (`agree_fileOf`).
-/

namespace DiscoveryGrpc

open Proto Api

namespace Conversion

variable {m m' e e' owner owner' : Message} {f g : Field}

/-! ## Messages -/

theorem name_eq_of_undocumented (h : m.undocumented = m'.undocumented) : m.name = m'.name := by
  rw [← m.undocumented_name, h, m'.undocumented_name]

theorem undocumented_described (name : String) (isEnum : Bool) (d d' : String) :
    ({ name, isEnum, description := d } : Message).undocumented =
      ({ name, isEnum, description := d' } : Message).undocumented := by
  rw [Message.undocumented_eq, Message.undocumented_eq]

theorem isErrors_undocumented (m : Message) : isErrors m.undocumented = isErrors m := by
  rw [isErrors, isErrors, Message.undocumented_name, Message.undocumented_fields, List.any_map]
  rfl

theorem same_eq_of_undocumented (he : e.undocumented = e'.undocumented)
    (hm : m.undocumented = m'.undocumented) : e.same m = e'.same m' := by
  rw [Message.same, he, hm, Message.same]

/-- Messages that differ in descriptions only collide with the same messages. -/
theorem agree_addMessage (h : m.undocumented = m'.undocumented) :
    Agree id (addMessage m) (addMessage m') where
  run {w w'} hw := by
    obtain ⟨hregistry, hmessages, hresources⟩ := Workspace.undocumented_eq_iff.1 hw
    have hget : (w.messages.get? m.name).map Message.undocumented =
        (w'.messages.get? m.name).map Message.undocumented := by
      rw [← Table.get?_mapValues, hmessages, Table.get?_mapValues]
    have herrors : isErrors m = isErrors m' := by
      rw [← isErrors_undocumented, h, isErrors_undocumented]
    rw [addMessage_apply, addMessage_apply, ← name_eq_of_undocumented h, ← herrors]
    rcases none_or_some_of_map_eq hget with ⟨hm, hm'⟩ | ⟨existing, existing', hm, hm', hexisting⟩
    · rw [hm, hm']
      refine .ok rfl (Workspace.undocumented_eq_iff.2 ⟨hregistry, ?_, hresources⟩)
      rw [Table.mapValues_insert, Table.mapValues_insert, hmessages, h]
    · rw [hm, hm']
      dsimp only
      rw [same_eq_of_undocumented hexisting h]
      split
      · exact .ok rfl hw
      · split
        · exact .ok rfl (Workspace.undocumented_eq_iff.2 ⟨hregistry, hmessages, hresources⟩)
        · exact .error ..

theorem addField?_agree (hm : m.undocumented = m'.undocumented)
    (hf : f.undocumented = g.undocumented) :
    (m.addField? f).map Message.undocumented = (m'.addField? g).map Message.undocumented := by
  rw [← Message.addField?_undocumented, hm, hf, Message.addField?_undocumented]

theorem addUniqueField_agree (hm : m.undocumented = m'.undocumented)
    (hf : f.undocumented = g.undocumented) :
    (addUniqueField m f).map Message.undocumented =
      (addUniqueField m' g).map Message.undocumented := by
  have hname : f.name = g.name := congrArg (·.name) hf
  rw [addUniqueField, addUniqueField, name_eq_of_undocumented hm, hname]
  rcases none_or_some_of_map_eq (addField?_agree hm hf) with ⟨h, h'⟩ | ⟨n, n', h, h', hn⟩
  · rw [h, h']
  · rw [h, h']
    exact congrArg Except.ok hn

/-! ## Enums -/

theorem agree_addMember (h : e.undocumented = e'.undocumented) {v v' : String × String}
    (hv : v.1 = v'.1) : Agree Message.undocumented (addMember e v) (addMember e' v') := by
  rw [addMember, addMember, hv]
  refine .lift_bind _ fun name => ?_
  have hadd := addField?_agree h
    (f := { name, type := .primitive .unformatted, description := v.2 })
    (g := { name, type := .primitive .unformatted, description := v'.2 }) rfl
  dsimp only
  rcases none_or_some_of_map_eq hadd with ⟨hn, hn'⟩ | ⟨n, n', hn, hn', hnn⟩
  · rw [hn, hn']
    exact (agree_note _ _).same_bind fun _ => .pure h
  · rw [hn, hn']
    exact .pure hnn

theorem withDescriptions_nil (values descriptions : List String) :
    withDescriptions values [] = (withDescriptions values descriptions).map fun v => (v.1, "") := by
  induction values generalizing descriptions with
  | nil => rfl
  | cons v vs ih =>
    cases descriptions with
    | nil => exact congrArg ((v, "") :: ·) (ih [])
    | cons d ds => exact congrArg ((v, "") :: ·) (ih ds)

theorem agree_enumOf (h : SchemaHead) (name : String) :
    Agree Message.undocumented (enumOf h name) (enumOf h.undocumented name) := by
  have hvalues : withDescriptions h.undocumented.enumValues h.undocumented.enumDescriptions =
      (withDescriptions h.enumValues h.enumDescriptions).map fun v => (v.1, "") :=
    withDescriptions_nil h.enumValues h.enumDescriptions
  have hstart : ({ name, isEnum := true, description := h.description } : Message).undocumented =
      ({ name, isEnum := true, description := h.undocumented.description } :
        Message).undocumented := undocumented_described ..
  simp only [enumOf, hvalues]
  refine .lift_bind _ fun undefined => ?_
  refine Agree.foldlM (fun v _ e e' he => ?_) ?_
  · exact agree_addMember he rfl
  · rw [← Message.addField_undocumented, hstart, Message.addField_undocumented]

theorem nestEnum_agree (ho : owner.undocumented = owner'.undocumented)
    (he : e.undocumented = e'.undocumented) :
    (nestEnum owner e).map Message.undocumented =
      (nestEnum owner' e').map Message.undocumented := by
  have henum : (owner.enum? e.name).map Message.undocumented =
      (owner'.enum? e.name).map Message.undocumented := by
    rw [← Message.enum?_undocumented, ho, Message.enum?_undocumented]
  rw [nestEnum, nestEnum, ← name_eq_of_undocumented he, ← name_eq_of_undocumented ho]
  rcases none_or_some_of_map_eq henum with ⟨h, h'⟩ | ⟨x, x', h, h', hx⟩
  · rw [h, h']
    refine congrArg Except.ok ?_
    rw [← Message.addEnum_undocumented, ho, he, Message.addEnum_undocumented]
  · rw [h, h']
    dsimp only
    rw [same_eq_of_undocumented hx he]
    split
    · exact congrArg Except.ok ho
    · rfl

/-! ## Types and fields -/

/-- What is seen of a type and the message that the type is for. -/
def seenType (r : FieldType × Message) : FieldType × Message := (r.1, r.2.undocumented)

/-- What is seen of a field and the message that the field is for. -/
def seenField (r : Field × Message) : Field × Message := (r.1.undocumented, r.2.undocumented)

theorem agree_enumType (opts : Options) (h : SchemaHead)
    (ho : owner.undocumented = owner'.undocumented) :
    Agree seenType (enumType opts h owner) (enumType opts h.undocumented owner') := by
  rw [enumType, enumType]
  refine .lift_bind _ fun name => (agree_enumOf h name).bind fun e e' he => ?_
  refine (Agree.lift (nestEnum_agree ho he)).bind fun o o' ho => .pure ?_
  exact congrArg (Prod.mk _) ho

theorem agree_registerAdded (p schema name : String) (added : Bool) :
    Agree id (registerAdded p schema name added) (registerAdded p schema name added) := by
  rw [registerAdded]
  split
  · refine (Agree.modify fun w w' hw => ?_).same_bind fun _ => .pure rfl
    obtain ⟨hregistry, hrest⟩ := Workspace.undocumented_eq_iff.1 hw
    exact Workspace.undocumented_eq_iff.2 ⟨congrArg (·.register p name schema) hregistry, hrest⟩
  · exact .pure rfl

/-- An inline schema gets the same name: the registry knows it by its canonical text. -/
theorem agree_inlineType (h : SchemaHead) {make make' : String → Build Message}
    (hmake : ∀ name, Agree Message.undocumented (make name) (make' name)) :
    Agree id (inlineType h make) (inlineType h.undocumented make') := by
  cases hid : h.id.isEmpty with
  | true =>
    rw [inlineType_of_inline hid, inlineType_of_inline (h := h.undocumented) hid]
    refine .lift_bind _ fun default => .get_bind fun w w' hw => ?_
    rw [(Workspace.undocumented_eq_iff.1 hw).1]
    refine (hmake _).bind fun m m' hm => (agree_addMessage hm).same_bind fun added => ?_
    exact agree_registerAdded ..
  | false =>
    rw [inlineType_of_id hid, inlineType_of_id (h := h.undocumented) hid]
    refine .lift_bind _ fun name => .get_bind fun _ _ _ => (hmake name).bind fun m m' hm => ?_
    exact (agree_addMessage hm).same_bind fun _ => .pure rfl

theorem agree_valueType (opts : Options) (h : SchemaHead) {make make' : String → Build Message}
    (hmake : ∀ name, Agree Message.undocumented (make name) (make' name))
    (ho : owner.undocumented = owner'.undocumented) :
    Agree seenType (valueType opts h make owner) (valueType opts h.undocumented make' owner') := by
  have hpure (t : FieldType) : Agree seenType (pure (t, owner)) (pure (t, owner')) :=
    .pure (congrArg (Prod.mk t) ho)
  unfold valueType
  simp only [SchemaHead.undocumented_type, SchemaHead.undocumented_place,
    SchemaHead.undocumented_format, SchemaHead.undocumented_reference,
    SchemaHead.undocumented_isReference, SchemaHead.undocumented_isEnum]
  refine .ite (fun _ => .lift_bind _ fun name => hpure (.reference name)) fun _ => ?_
  generalize h.type = type
  cases type with
  | string => exact .ite (fun _ => agree_enumType opts h ho) fun _ => hpure _
  | boolean | integer | number => exact hpure _
  | any =>
    cases Primitive.wellKnown? h.format with
    | some p => exact hpure _
    | none => exact .throw _
  | object => exact (agree_inlineType h hmake).same_bind fun type => hpure type
  | array | empty => exact .throw _

theorem fieldWithType_undocumented (h : SchemaHead) (isMap : Bool) (type : FieldType) :
    (fieldWithType h isMap type).map Field.undocumented =
      (fieldWithType h.undocumented isMap type).map Field.undocumented := by
  rw [fieldWithType, fieldWithType, SchemaHead.undocumented_key]
  cases fieldName h.key <;> rfl

theorem isMapField_undocumented (h : SchemaHead) (additional : Option Schema) :
    isMapField h.undocumented (Schema.optionUndocumented additional) = isMapField h additional := by
  cases additional <;> rfl

mutual

/-- The field of a property does not depend on documentation but for its description. -/
theorem agree_fieldOf (opts : Options) : (s : Schema) → (owner owner' : Message) →
    owner.undocumented = owner'.undocumented →
    Agree seenField (fieldOf opts s owner) (fieldOf opts s.undocumented owner')
  | ⟨h, properties, items, additional⟩, owner, owner', ho => by
    -- what is done with the type is the same for arrays, maps and single values
    have hend (isMap : Bool) : ∀ r r' : FieldType × Message, seenType r = seenType r' →
        Agree seenField (do return (← fieldWithType h isMap r.1, r.2))
          (do return (← fieldWithType h.undocumented isMap r'.1, r'.2)) := by
      rintro ⟨type, owner⟩ ⟨type', owner'⟩ hr
      obtain ⟨rfl, ho⟩ := Prod.mk.inj hr
      refine (Agree.lift (fieldWithType_undocumented h isMap type)).bind fun f f' hf => .pure ?_
      exact congrArg₂ Prod.mk hf ho
    rw [Schema.undocumented, fieldOf, fieldOf, isMapField_undocumented]
    simp only [SchemaHead.undocumented_type, SchemaHead.undocumented_place]
    refine .ite (fun _ => (agree_elementType opts items _ _ owner owner' ho).bind (hend _))
      fun _ => ?_
    refine .ite (fun _ => (agree_elementType opts additional _ _ owner owner' ho).bind (hend _))
      fun _ => ?_
    exact (agree_valueType opts h (fun name => agree_addProperties opts properties _ _
      (undocumented_described name false _ _)) ho).bind (hend _)

theorem agree_elementType (opts : Options) : (s : Option Schema) → (path : String) →
    (slot : ElementSlot) → (owner owner' : Message) → owner.undocumented = owner'.undocumented →
    Agree seenType (elementType opts path slot s owner)
      (elementType opts path slot (Schema.optionUndocumented s) owner')
  | none, _, _, _, _, _ => .throw _
  | some ⟨h, properties, _, additional⟩, path, slot, owner, owner', ho => by
    have hmap : (Schema.optionUndocumented additional).isSome = additional.isSome := by
      cases additional <;> rfl
    rw [Schema.optionUndocumented, Schema.undocumented, elementType, elementType, hmap]
    simp only [SchemaHead.undocumented_type, SchemaHead.undocumented_isReference]
    refine .ite (fun _ => .throw _) fun _ => ?_
    exact agree_valueType opts h (fun name => agree_addProperties opts properties _ _
      (undocumented_described name false _ _)) ho

theorem agree_addProperties (opts : Options) : (ps : List (String × Schema)) → (m m' : Message) →
    m.undocumented = m'.undocumented →
    Agree Message.undocumented (addProperties opts ps m)
      (addProperties opts (Schema.tableUndocumented ps) m')
  | [], _, _, hm => .pure hm
  | (_, s) :: rest, m, m', hm => by
    rw [Schema.tableUndocumented, addProperties, addProperties]
    refine (agree_fieldOf opts s m m' hm).bind fun r r' hr => ?_
    obtain ⟨hf, hm⟩ := Prod.mk.inj hr
    exact (Agree.lift (addUniqueField_agree hm hf)).bind fun n n' hn =>
      agree_addProperties opts rest n n' hn

end

theorem agree_messageOf (opts : Options) (s : Schema) (name : String) :
    Agree Message.undocumented (messageOf opts s name) (messageOf opts s.undocumented name) := by
  obtain ⟨h, properties, items, additional⟩ := s
  rw [Schema.undocumented]
  exact agree_addProperties opts properties _ _ (undocumented_described name false _ _)

theorem agree_addSchema (opts : Options) (key : String) (s : Schema) :
    Agree id (addSchema opts (key, s)) (addSchema opts (key, s.undocumented)) := by
  have hidentifier : s.undocumented.identifier = s.identifier := by
    rw [Schema.undocumented_toSchemaHead]
    rfl
  simp only [addSchema, Schema.undocumented_isObject, hidentifier]
  refine .ite (fun _ => agree_note _ _) fun _ => .ite (fun _ => agree_note _ _) fun _ => ?_
  refine .lift_bind _ fun name => (agree_messageOf opts s name).bind fun m m' hm => ?_
  exact (agree_addMessage hm).same_bind fun _ => .pure rfl

/-! ## Rpcs -/

theorem agree_addResource (document flatPath : String) :
    Agree id (addResource document flatPath) (addResource document flatPath) := by
  unfold addResource
  split
  · split
    · exact agree_note _ _
    · refine Agree.same_bind (.mapM fun c _ => .lift rfl) fun patterns => ?_
      refine .lift_bind _ fun type => .get_bind fun w w' hw => ?_
      obtain ⟨hregistry, hmessages, hresources⟩ := Workspace.undocumented_eq_iff.1 hw
      rw [hresources]
      refine .ite (fun _ => .pure rfl) fun _ => .set ?_
      exact Workspace.undocumented_eq_iff.2 ⟨hregistry, hmessages, rfl⟩
  · exact .pure rfl

theorem requiredParameters_undocumented (m : Method) :
    m.undocumented.requiredParameters = m.requiredParameters := by
  have hrequired (name : String) : (m.undocumented.parameters.get? name).any (·.required) =
      (m.parameters.get? name).any (·.required) := by
    change ((m.parameters.mapValues Schema.undocumented).get? name).any _ = _
    simp only [Table.get?_mapValues, Option.any_map, Schema.undocumented_toSchemaHead]
    rfl
  have hnames : m.undocumented.parameters.names = m.parameters.names := Table.names_mapValues ..
  simp only [Method.requiredParameters, hrequired, hnames]
  rfl

theorem signature_undocumented (m : Method) (body? : Option String) :
    signature m.undocumented body? = signature m body? := by
  rw [signature, signature, requiredParameters_undocumented]

theorem bodyMessage_undocumented (s : Schema) : bodyMessage s.undocumented = bodyMessage s := by
  rw [bodyMessage, Schema.undocumented_toSchemaHead]
  rfl

theorem bodyField_undocumented (s : Schema) : bodyField s.undocumented = bodyField s := by
  rw [bodyField, bodyField, bodyMessage_undocumented]

/-- What is seen of a request and the name of its field for the body. -/
def seenBody (r : Message × Option String) : Message × Option String := (r.1.undocumented, r.2)

theorem addBody_agree (hm : m.undocumented = m'.undocumented) (s? : Option Schema) :
    (addBody m s?).map seenBody = (addBody m' (s?.map Schema.undocumented)).map seenBody := by
  cases s? with
  | none => exact congrArg (fun m => Except.ok (m, none)) hm
  | some s =>
    rw [Option.map_some, addBody, addBody, bodyField_undocumented]
    exact Except.map_bind_congr fun f =>
      Except.map_bind_eq (addUniqueField_agree hm rfl) fun n n' hn =>
        congrArg (fun n => Except.ok (n, some f.name)) hn

theorem agree_outputOf (emptyName description : String) (s? : Option Schema) :
    Agree id (outputOf emptyName description s?)
      (outputOf emptyName description (s?.map Schema.undocumented)) := by
  cases s? with
  | none => exact (agree_addMessage rfl).same_bind fun _ => .pure rfl
  | some s =>
    rw [Option.map_some, outputOf, outputOf, bodyMessage_undocumented]
    exact .lift rfl

theorem collectionName_undocumented (m : Method) :
    collectionName m.undocumented = collectionName m := by
  have hplural : m.undocumented.isPlural = m.isPlural := Table.has_mapValues ..
  rw [collectionName, collectionName, hplural]
  rfl

/-- The rpc of a method has its description and is the same otherwise. -/
theorem agree_rpcOf (opts : Options) (d : Document) (service : String) (m : Method) :
    Agree Rpc.undocumented (rpcOf opts d service m)
      (rpcOf opts d.undocumented service m.undocumented) := by
  have hparameters : m.undocumented.parameters = Schema.tableUndocumented m.parameters :=
    (Schema.tableUndocumented_eq m.parameters).symm
  have hverb : m.undocumented.verb = m.verb := rfl
  rw [rpcOf, rpcOf, collectionName_undocumented, hparameters, hverb]
  refine .lift_bind _ fun verb => .lift_bind _ fun collection => ?_
  refine (agree_addProperties opts m.parameters _ _ rfl).bind fun request request' hrequest => ?_
  refine (Agree.lift (addBody_agree hrequest m.request)).bind fun r r' hr => ?_
  obtain ⟨request, body?⟩ := r
  obtain ⟨request', body?'⟩ := r'
  obtain ⟨hrequest, rfl⟩ := Prod.mk.inj hr
  refine (agree_addMessage hrequest).same_bind fun _ => ?_
  refine (agree_outputOf _ _ m.response).same_bind fun output => ?_
  refine .lift_bind _ fun http => ?_
  rw [signature_undocumented]
  refine .lift_bind _ fun signature => ?_
  exact .ite (fun _ => (agree_addResource d.name m.flatPath).same_bind fun _ => .pure rfl)
    fun _ => .pure rfl

/-! ## Services -/

theorem ignoredReference?_undocumented (ignored : NameSet) (m : Method) :
    ignoredReference? ignored m.undocumented = ignoredReference? ignored m := by
  have hbodies : m.undocumented.request.toList ++ m.undocumented.response.toList =
      (m.request.toList ++ m.response.toList).map Schema.undocumented := by
    rw [List.map_append, ← Option.toList_map, ← Option.toList_map]
    rfl
  simp only [ignoredReference?, hbodies, List.filter_map, List.filterMap_map, Function.comp_def,
    Schema.undocumented_toSchemaHead, SchemaHead.undocumented_isReference,
    SchemaHead.undocumented_reference]

theorem commonVersion_undocumented (service : String) (ms : List Method) :
    commonVersion service (ms.map Method.undocumented) = commonVersion service ms := by
  rw [commonVersion, commonVersion, List.map_map]
  rfl

/-- What a service has so far, without descriptions. -/
def Draft.undocumented (d : Draft) : Draft :=
  { d with rpcs := d.rpcs.mapValues Rpc.undocumented }

theorem agree_addMethod (opts : Options) (document : Document) (service : String) (m : Method)
    {d d' : Draft} (h : d.undocumented = d'.undocumented) :
    Agree Draft.undocumented (addMethod opts document service d m)
      (addMethod opts document.undocumented service d' m.undocumented) := by
  obtain ⟨hrpcs, hscopes⟩ := Draft.mk.inj h
  rw [addMethod, addMethod, ignoredReference?_undocumented]
  cases ignoredReference? opts.ignoredNames m with
  | some message => exact (agree_note _ _).same_bind fun _ => .pure h
  | none =>
    refine (agree_rpcOf opts document service m).bind fun r r' hr => .pure ?_
    have hname : r.name = r'.name := congrArg (·.name) hr
    rw [Draft.undocumented, Draft.undocumented, hscopes, hname, Table.mapValues_insert,
      Table.mapValues_insert, hrpcs, hr]
    rfl

theorem agree_addMethods (opts : Options) (document : Document) (service : String)
    (ms : List Method) :
    Agree Draft.undocumented (ms.foldlM (addMethod opts document service) {})
      ((ms.map Method.undocumented).foldlM (addMethod opts document.undocumented service) {}) :=
  .foldlM (fun m _ _ _ hd => agree_addMethod opts document service m hd) rfl

theorem agree_addService (opts : Options) (document : Document) (key : String) (ms : List Method)
    {services services' : Table Service}
    (h : services.mapValues Service.undocumented = services'.mapValues Service.undocumented) :
    Agree (Table.mapValues Service.undocumented) (addService opts document services (key, ms))
      (addService opts document.undocumented services' (key, ms.map Method.undocumented)) := by
  simp only [addService, commonVersion_undocumented]
  refine .lift_bind _ fun name => .ite (fun _ => ?_) fun _ => ?_
  · exact (agree_note _ _).same_bind fun _ => .pure h
  · refine .lift_bind _ fun version => ?_
    refine (agree_addMethods opts document name ms).bind fun d d' hd => ?_
    obtain ⟨hrpcs, hscopes⟩ := Draft.mk.inj hd
    have hempty : d.rpcs.isEmpty = d'.rpcs.isEmpty := by
      rw [← List.isEmpty_map, ← Table.mapValues, hrpcs, Table.mapValues, List.isEmpty_map]
    rw [hempty, hscopes]
    refine .ite (fun _ => .pure h) fun _ => .pure ?_
    rw [Table.mapValues_insert, Table.mapValues_insert, h, Service.undocumented,
      Service.undocumented, hrpcs]
    rfl

/-! ## The end of a conversion -/

theorem isDropped_undocumented (known ignored : NameSet) (f : Field) :
    isDropped known ignored f.undocumented = isDropped known ignored f := rfl

theorem resolveMessage_undocumented (known ignored : NameSet) (m : Message) :
    resolveMessage known ignored m.undocumented =
      (resolveMessage known ignored m).undocumented := by
  rw [resolveMessage, resolveMessage, Message.retainFields_undocumented fun f =>
    congrArg not (isDropped_undocumented known ignored f)]
  refine Message.updateFields_undocumented (fun f => ?_) _
  rfl

theorem danglingFields_undocumented (m : Message) :
    danglingFields m.undocumented = danglingFields m := by
  rw [danglingFields, danglingFields, Message.undocumented_fields, List.filterMap_map,
    Message.undocumented_name]
  rfl

theorem danglingRpcs_undocumented (known : NameSet) (s : Service) :
    danglingRpcs known s.undocumented = danglingRpcs known s := by
  rw [danglingRpcs, danglingRpcs, Service.undocumented, Table.values_mapValues, List.flatMap_map]
  rfl

theorem agree_resolveReferences (ignored : NameSet) {services services' : Table Service}
    (h : services.mapValues Service.undocumented = services'.mapValues Service.undocumented) :
    Agree id (resolveReferences ignored services) (resolveReferences ignored services') := by
  refine .get_bind fun w w' hw => ?_
  obtain ⟨hregistry, hmessages, hresources⟩ := Workspace.undocumented_eq_iff.1 hw
  have hnames : w.messages.names = w'.messages.names := by
    rw [← Table.names_mapValues Message.undocumented, hmessages, Table.names_mapValues]
  -- what is left of the messages is the same, so the same references dangle
  have hresolved := Table.mapValues_eq_of_comm
    (resolveMessage_undocumented w'.messages.names ignored) hmessages
  have hdangling := congrArg₂ (· ++ ·)
    (Table.flatMap_values_eq danglingFields_undocumented hresolved)
    (Table.flatMap_values_eq (danglingRpcs_undocumented w'.messages.names) h)
  dsimp only at hdangling ⊢
  rw [hnames]
  refine Agree.same_bind (.set ?_) fun _ => ?_
  · exact Workspace.undocumented_eq_iff.2 ⟨hregistry, hresolved, hresources⟩
  · rw [hdangling]
    split
    · exact .pure rfl
    · exact .throw _

theorem shareMember_undocumented (a b : Message) :
    shareMember a.undocumented b.undocumented = shareMember a b := by
  simp only [shareMember, Message.undocumented_fields, List.any_map, Function.comp_def]
  rfl

theorem conflictingEnums_undocumented (m : Message) :
    conflictingEnums m.undocumented = conflictingEnums m := by
  simp only [conflictingEnums, Message.undocumented_enums, Table.names, Table.mapValues,
    List.filter_map, List.any_map, List.map_map, Function.comp_def, shareMember_undocumented]

theorem removeEnums_undocumented (removed : NameSet) (m : Message) :
    removeEnums removed m.undocumented = (removeEnums removed m).undocumented := by
  have hfold : ∀ m : Message, removed.foldl Message.removeEnum m.undocumented =
      (removed.foldl Message.removeEnum m).undocumented := fun m =>
    List.foldl_hom Message.undocumented (fun m name => Message.removeEnum_undocumented m name)
  rw [removeEnums, removeEnums, hfold]
  refine Message.updateFields_undocumented (fun f => ?_) _
  rfl

theorem removeConflicts_undocumented (m : Message) :
    removeConflicts m.undocumented = (removeConflicts m).undocumented := by
  rw [removeConflicts, removeConflicts, conflictingEnums_undocumented, removeEnums_undocumented]
  exact (apply_ite Message.undocumented ..).symm

theorem agree_removeConflictingEnums : Agree id removeConflictingEnums removeConflictingEnums :=
  .modify fun w w' hw => by
    obtain ⟨hregistry, hmessages, hresources⟩ := Workspace.undocumented_eq_iff.1 hw
    exact Workspace.undocumented_eq_iff.2
      ⟨hregistry, Table.mapValues_eq_of_comm removeConflicts_undocumented hmessages, hresources⟩

theorem operationTarget_undocumented (request? : Option Message) :
    operationTarget (request?.map Message.undocumented) = operationTarget request? := by
  simp only [operationTarget, Option.any_map, Message.field?_undocumented, Option.isSome_map]

theorem operationSettings_undocumented (messages : Table Message) (operationServices : NameSet)
    (service : String) (r : Rpc) :
    operationSettings (messages.mapValues Message.undocumented) operationServices service
      r.undocumented = operationSettings messages operationServices service r := by
  simp only [operationSettings, Table.get?_mapValues, operationTarget_undocumented]
  rfl

theorem withOperations_undocumented (messages : Table Message) (operationServices : NameSet)
    (s : Service) :
    withOperations (messages.mapValues Message.undocumented) operationServices s.undocumented =
      (withOperations messages operationServices s).undocumented := by
  simp only [withOperations, Service.undocumented]
  rw [Table.mapValues_comm]
  intro r
  rw [operationSettings_undocumented]
  rfl

theorem addOperations_undocumented (messages : Table Message) (services : Table Service) :
    addOperations (messages.mapValues Message.undocumented)
        (services.mapValues Service.undocumented) =
      (addOperations messages services).mapValues Service.undocumented := by
  rw [addOperations, addOperations, Table.names_mapValues]
  exact Table.mapValues_comm (withOperations_undocumented messages _) services

/-- The conversion of a document does not depend on documentation but for descriptions. -/
theorem agree_fileOf (opts : Options) (d : Document) :
    Agree File.undocumented (fileOf opts d) (fileOf opts d.undocumented) := by
  rw [fileOf, fileOf]
  refine (Agree.forM fun e _ => agree_addSchema opts e.1 e.2).same_bind fun _ => ?_
  refine Agree.bind (.foldlM (fun e _ s s' hs => agree_addService opts d e.1 e.2 hs) rfl)
    fun services services' hservices => ?_
  refine (agree_resolveReferences _ hservices).same_bind fun _ => ?_
  refine agree_removeConflictingEnums.same_bind fun _ => .get_bind fun w w' hw => ?_
  obtain ⟨-, hmessages, hresources⟩ := Workspace.undocumented_eq_iff.1 hw
  refine (agree_note _ _).same_bind fun _ => .pure ?_
  rw [File.undocumented, File.undocumented]
  dsimp only
  rw [← addOperations_undocumented, ← addOperations_undocumented, hmessages, hservices, hresources]
  rfl

end Conversion

end DiscoveryGrpc
