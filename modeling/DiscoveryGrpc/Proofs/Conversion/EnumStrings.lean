import DiscoveryGrpc.Conversion.Document
import DiscoveryGrpc.Proofs.Seen
import DiscoveryGrpc.Proofs.Conversion.Course
import DiscoveryGrpc.Proofs.Proto.EnumStrings

/-!
# A conversion that keeps enums as strings

With strings for enums a conversion makes the same messages, but for the types of fields. Messages
that had been different may be the same now. This matters for `Errors` alone: two others of one name
would have collided, and a conversion that succeeds has met none. So if it makes no `Errors` either,
it does the same with strings for enums.

`Mirrors see x y` says this of a computation `x` and the same one with strings for enums. There is
one rule for each way to put computations together.
-/

namespace DiscoveryGrpc

open Proto Api

/-- The same options, but for strings for enums. -/
def Options.withStrings (opts : Options) : Options := { opts with enumsAsStrings := true }

namespace Conversion

/-- A workspace with strings for enums. -/
def Workspace.withStrings (w : Workspace) : Workspace :=
  { w with messages := w.messages.mapValues Message.withStrings }

variable {α β γ δ : Type}

/-- Whenever a computation succeeds, and there is no `Errors` at the end, there was none before, and
another computation does the same in the workspace with strings for enums. -/
structure Mirrors (see : α → β) (x : Build α) (y : Build β) : Prop where
  run : ∀ {w a w'}, x w = .ok a w' → w'.messages.has "Errors" = false →
    w.messages.has "Errors" = false ∧ y w.withStrings = .ok (see a) w'.withStrings

namespace Mirrors

variable {see : α → β} {see' : γ → δ} {x : Build α} {y : Build β}

theorem pure {a : α} {b : β} (h : see a = b) : Mirrors see (pure a) (pure b) where
  run hx herrors := by
    cases hx
    exact ⟨herrors, congrArg (EStateM.Result.ok · _) h.symm⟩

theorem throw (fault : Fault) : Mirrors see (throw fault) y := ⟨nofun⟩

theorem lift {x : Except Fault α} {y : Except Fault β} (h : y = x.map see) :
    Mirrors see (liftM x) (liftM y) := by
  subst h
  cases x with
  | error fault => exact throw fault
  | ok a => exact pure rfl

theorem bind {f : α → Build γ} {g : β → Build δ} (hx : Mirrors see x y)
    (hf : ∀ a, Mirrors see' (f a) (g (see a))) : Mirrors see' (x >>= f) (y >>= g) where
  run h herrors := by
    obtain ⟨a, w₁, hxa, hfa⟩ := bind_eq_ok_iff.1 h
    obtain ⟨herrors, hg⟩ := (hf a).run hfa herrors
    obtain ⟨herrors, hy⟩ := hx.run hxa herrors
    exact ⟨herrors, (bind_apply_of_ok g hy).trans hg⟩

/-- A result that depends on nothing. -/
theorem lift_same (x : Except Fault α) : Mirrors id (liftM x : Build α) (liftM x) :=
  lift (by cases x <;> rfl)

theorem lift_bind (x : Except Fault α) {f : α → Build γ} {g : α → Build δ}
    (hf : ∀ a, Mirrors see' (f a) (g a)) : Mirrors see' (liftM x >>= f) (liftM x >>= g) :=
  (lift_same x).bind hf

theorem ite {c : Prop} [Decidable c] {x' : Build α} {y' : Build β} (h : c → Mirrors see x y)
    (h' : ¬c → Mirrors see x' y') : Mirrors see (if c then x else x') (if c then y else y') := by
  split
  · exact h ‹c›
  · exact h' ‹¬c›

theorem get_bind {f : Workspace → Build α} {g : Workspace → Build β}
    (hf : ∀ w, Mirrors see (f w) (g w.withStrings)) : Mirrors see (get >>= f) (get >>= g) :=
  ⟨fun {w _ _} => (hf w).run (w := w)⟩

/-- A change that keeps the names of the messages. -/
theorem modify {change change' : Workspace → Workspace}
    (hnames : ∀ w n, (change w).messages.has n = w.messages.has n)
    (h : ∀ w, change' w.withStrings = (change w).withStrings) :
    Mirrors id (modify change : Build PUnit) (modify change') where
  run {w a w'} hx herrors := by
    cases hx
    exact ⟨(hnames w _).symm.trans herrors, congrArg (EStateM.Result.ok _) (h w)⟩

theorem forM {xs : List α} {f g : α → Build PUnit} (h : ∀ x ∈ xs, Mirrors id (f x) (g x)) :
    Mirrors id (xs.forM f) (xs.forM g) := by
  induction xs with
  | nil => exact pure rfl
  | cons x xs ih =>
    obtain ⟨hx, hxs⟩ := List.forall_mem_cons.1 h
    exact hx.bind fun _ => ih hxs

theorem foldlM {xs : List γ} {f g : α → γ → Build α} (h : ∀ x ∈ xs, ∀ a, Mirrors id (f a x) (g a x))
    (a : α) : Mirrors id (xs.foldlM f a) (xs.foldlM g a) := by
  induction xs generalizing a with
  | nil => exact pure rfl
  | cons x xs ih =>
    obtain ⟨hx, hxs⟩ := List.forall_mem_cons.1 h
    rw [List.foldlM_cons, List.foldlM_cons]
    exact (hx a).bind fun b => ih hxs b

theorem mapM {xs : List α} {f : α → Build γ} (h : ∀ x ∈ xs, Mirrors id (f x) (f x)) :
    Mirrors id (xs.mapM f) (xs.mapM f) := by
  induction xs with
  | nil => exact pure rfl
  | cons x xs ih =>
    obtain ⟨hx, hxs⟩ := List.forall_mem_cons.1 h
    rw [List.mapM_cons]
    exact hx.bind fun y => (ih hxs).bind fun ys => pure rfl

end Mirrors

theorem mirrors_note (e : Event) : Mirrors id (note e) (note e) :=
  .modify (fun _ _ => rfl) fun _ => rfl

/-! ## Messages -/

/-- Messages that are the same still are, and others than `Errors` have to be. -/
theorem mirrors_addMessage (m : Message) :
    Mirrors id (addMessage m) (addMessage m.withStrings) where
  run {w a w'} h herrors := by
    have hstrings := addMessage_apply m.withStrings w.withStrings
    have hget : w.withStrings.messages.get? m.withStrings.name =
        (w.messages.get? m.name).map Message.withStrings := Table.get?_mapValues ..
    rw [hget] at hstrings
    rcases addMessage_eq_ok h with ⟨rfl, hnone, rfl⟩ | ⟨existing, hsome, rfl, hsame, rfl⟩ |
      ⟨existing, hsome, -, -, hisErrors, hmessages⟩
    · dsimp only at herrors
      rw [Table.has_insert, Bool.or_eq_false_iff] at herrors
      refine ⟨herrors.2, hstrings.trans ?_⟩
      rw [hnone]
      refine congrArg (fun messages => EStateM.Result.ok true { w with messages }) ?_
      exact (Table.mapValues_insert ..).symm
    · refine ⟨herrors, hstrings.trans ?_⟩
      rw [hsome]
      exact if_pos (Message.same_withStrings hsame)
    · have hname : m.name = "Errors" := by
        rw [isErrors, Bool.and_eq_true, beq_iff_eq] at hisErrors
        exact hisErrors.1
      rw [hmessages, ← hname, Table.has_of_get? hsome] at herrors
      cases herrors

theorem addUniqueField_withStrings (m : Message) (f : Field) :
    addUniqueField m.withStrings f.withStrings =
      (addUniqueField m f).map Message.withStrings := by
  rw [addUniqueField, addUniqueField, Message.addField?_withStrings]
  cases m.addField? f <;> rfl

/-! ## Enums -/

theorem mirrors_enumOf (h : SchemaHead) (name : String) :
    Mirrors id (enumOf h name) (enumOf h name) := by
  refine .lift_bind _ fun undefined => .foldlM (fun value _ e => ?_) _
  refine .lift_bind _ fun name => ?_
  dsimp only
  split
  · exact .pure rfl
  · exact (mirrors_note _).bind fun _ => .pure rfl

theorem nestEnum_withStrings (owner e : Message) :
    nestEnum owner.withStrings e = (nestEnum owner e).map Message.withStrings := by
  have henum : owner.withStrings.enum? e.name = owner.enum? e.name := rfl
  rw [nestEnum, nestEnum, henum]
  cases owner.enum? e.name with
  | none => rfl
  | some existing =>
    dsimp only
    split <;> rfl

/-- The enum is nested as before, and the type is a string. -/
theorem mirrors_enumType (opts : Options) (h : SchemaHead) (owner : Message) :
    Mirrors (Prod.map FieldType.withStrings Message.withStrings) (enumType opts h owner)
      (enumType opts.withStrings h owner.withStrings) := by
  refine .lift_bind _ fun name => (mirrors_enumOf h name).bind fun e => ?_
  refine (Mirrors.lift (nestEnum_withStrings owner e)).bind fun owner => .pure ?_
  have htype : FieldType.withStrings (if opts.enumsAsStrings then .primitive .string else .enum name)
      = .primitive .string := by
    split <;> rfl
  exact congrArg (·, owner.withStrings) htype

/-! ## Types and fields -/

theorem mirrors_registerAdded (p schema name : String) (added : Bool) :
    Mirrors FieldType.withStrings (registerAdded p schema name added)
      (registerAdded p schema name added) := by
  rw [registerAdded]
  split
  · have hregister : Mirrors id
        (modify fun w => { w with registry := w.registry.register p name schema } : Build PUnit)
        (modify fun w => { w with registry := w.registry.register p name schema }) :=
      .modify (fun _ _ => rfl) fun _ => rfl
    exact hregister.bind fun _ => .pure rfl
  · exact .pure rfl

/-- An inline schema gets the same name: the registry is the same. -/
theorem mirrors_inlineType (h : SchemaHead) {make make' : String → Build Message}
    (hmake : ∀ name, Mirrors Message.withStrings (make name) (make' name)) :
    Mirrors FieldType.withStrings (inlineType h make) (inlineType h make') := by
  cases hid : h.id.isEmpty with
  | true =>
    rw [inlineType_of_inline hid, inlineType_of_inline hid]
    refine .lift_bind _ fun default => .get_bind fun w => (hmake _).bind fun m => ?_
    exact (mirrors_addMessage m).bind fun added => mirrors_registerAdded ..
  | false =>
    rw [inlineType_of_id hid, inlineType_of_id hid]
    refine .lift_bind _ fun name => .get_bind fun w => (hmake name).bind fun m => ?_
    exact (mirrors_addMessage m).bind fun _ => .pure rfl

theorem mirrors_valueType (opts : Options) (h : SchemaHead) {make make' : String → Build Message}
    (hmake : ∀ name, Mirrors Message.withStrings (make name) (make' name)) (owner : Message) :
    Mirrors (Prod.map FieldType.withStrings Message.withStrings) (valueType opts h make owner)
      (valueType opts.withStrings h make' owner.withStrings) := by
  unfold valueType
  refine .ite (fun _ => .lift_bind _ fun name => .pure rfl) fun _ => ?_
  cases h.type with
  | string => exact .ite (fun _ => mirrors_enumType opts h owner) fun _ => .pure rfl
  | boolean | integer | number => exact .pure rfl
  | any =>
    cases Primitive.wellKnown? h.format with
    | some p => exact .pure rfl
    | none => exact .throw _
  | object => exact (mirrors_inlineType h hmake).bind fun type => .pure rfl
  | array | empty => exact .throw _

theorem fieldWithType_withStrings (h : SchemaHead) (isMap : Bool) (type : FieldType) :
    fieldWithType h isMap type.withStrings =
      (fieldWithType h isMap type).map Field.withStrings := by
  rw [fieldWithType, fieldWithType]
  cases fieldName h.key <;> rfl

mutual

/-- The field of a property has a string for an enum, and is the same otherwise. -/
theorem mirrors_fieldOf (opts : Options) : (s : Schema) → (owner : Message) →
    Mirrors (Prod.map Field.withStrings Message.withStrings) (fieldOf opts s owner)
      (fieldOf opts.withStrings s owner.withStrings)
  | ⟨h, properties, items, additional⟩, owner => by
    -- what is done with the type is the same for arrays, maps and single values
    have hend (isMap : Bool) (r : FieldType × Message) :
        Mirrors (Prod.map Field.withStrings Message.withStrings)
          (do return (← fieldWithType h isMap r.1, r.2))
          (do return (← fieldWithType h isMap r.1.withStrings, r.2.withStrings)) :=
      (Mirrors.lift (fieldWithType_withStrings h isMap r.1)).bind fun f => .pure rfl
    rw [fieldOf, fieldOf]
    refine .ite (fun _ => (mirrors_elementType opts items _ _ owner).bind (hend _)) fun _ => ?_
    refine .ite (fun _ => (mirrors_elementType opts additional _ _ owner).bind (hend _)) fun _ => ?_
    exact (mirrors_valueType opts h (fun name => mirrors_addProperties opts properties _)
      owner).bind (hend _)

theorem mirrors_elementType (opts : Options) : (s : Option Schema) → (path : String) →
    (slot : ElementSlot) → (owner : Message) →
    Mirrors (Prod.map FieldType.withStrings Message.withStrings)
      (elementType opts path slot s owner)
      (elementType opts.withStrings path slot s owner.withStrings)
  | none, _, _, _ => .throw _
  | some ⟨h, properties, _, additional⟩, path, slot, owner => by
    rw [elementType, elementType]
    refine .ite (fun _ => .throw _) fun _ => ?_
    exact mirrors_valueType opts h (fun name => mirrors_addProperties opts properties _) owner

theorem mirrors_addProperties (opts : Options) : (ps : List (String × Schema)) → (m : Message) →
    Mirrors Message.withStrings (addProperties opts ps m)
      (addProperties opts.withStrings ps m.withStrings)
  | [], m => .pure rfl
  | (_, s) :: rest, m => by
    rw [addProperties, addProperties]
    refine (mirrors_fieldOf opts s m).bind fun r => ?_
    exact (Mirrors.lift (addUniqueField_withStrings r.2 r.1)).bind fun m =>
      mirrors_addProperties opts rest m

end

theorem mirrors_addSchema (opts : Options) (entry : String × Schema) :
    Mirrors id (addSchema opts entry) (addSchema opts.withStrings entry) := by
  obtain ⟨key, s⟩ := entry
  rw [addSchema, addSchema]
  refine .ite (fun _ => mirrors_note _) fun _ => .ite (fun _ => mirrors_note _) fun _ => ?_
  refine .lift_bind _ fun name => (mirrors_addProperties opts s.properties _).bind fun m => ?_
  exact (mirrors_addMessage m).bind fun _ => .pure rfl

/-! ## Services -/

theorem mirrors_addResource (document flatPath : String) :
    Mirrors id (addResource document flatPath) (addResource document flatPath) := by
  unfold addResource
  split
  · split
    · exact mirrors_note _
    · refine Mirrors.bind (.mapM fun c _ => .lift_same _) fun patterns => ?_
      refine .lift_bind _ fun type => ⟨fun {w _ _} h herrors => ?_⟩
      rw [get_bind_apply] at h ⊢
      split at h
      · rename_i hdefined
        cases h
        exact ⟨herrors, congrFun (if_pos hdefined) w.withStrings⟩
      · rename_i hnew
        cases h
        exact ⟨herrors, congrFun (if_neg hnew) w.withStrings⟩
  · exact .pure rfl

/-- The field for a body holds no enum. -/
theorem withStrings_of_bodyField {s : Schema} {f : Field} (h : bodyField s = .ok f) :
    f.withStrings = f := by
  obtain ⟨type, -, h⟩ := Except.bind_eq_ok_iff.1 h
  obtain ⟨name, -, h⟩ := Except.bind_eq_ok_iff.1 h
  cases h
  rfl

theorem addBody_withStrings (m : Message) (s? : Option Schema) :
    addBody m.withStrings s? = (addBody m s?).map (Prod.map Message.withStrings id) := by
  cases s? with
  | none => rfl
  | some s =>
    rw [addBody, addBody]
    cases hf : bodyField s with
    | error fault => rfl
    | ok f =>
      have hadd := addUniqueField_withStrings m f
      rw [withStrings_of_bodyField hf] at hadd
      change (addUniqueField m.withStrings f >>= fun m => pure (m, some f.name)) =
        (addUniqueField m f >>= fun m => pure (m, some f.name)).map _
      exact Except.bind_eq_map hadd fun m => rfl

theorem mirrors_outputOf (emptyName description : String) (s? : Option Schema) :
    Mirrors id (outputOf emptyName description s?) (outputOf emptyName description s?) := by
  cases s? with
  | none => exact (mirrors_addMessage _).bind fun _ => .pure rfl
  | some s => exact .lift_same _

theorem mirrors_rpcOf (opts : Options) (d : Document) (service : String) (m : Method) :
    Mirrors id (rpcOf opts d service m) (rpcOf opts.withStrings d service m) := by
  rw [rpcOf, rpcOf]
  refine .lift_bind _ fun verb => .lift_bind _ fun collection => ?_
  refine (mirrors_addProperties opts m.parameters _).bind fun request => ?_
  refine (Mirrors.lift (addBody_withStrings request m.request)).bind fun r => ?_
  refine (mirrors_addMessage r.1).bind fun _ => ?_
  refine (mirrors_outputOf _ _ m.response).bind fun output => ?_
  refine .lift_bind _ fun http => .lift_bind _ fun signature => ?_
  exact .ite (fun _ => (mirrors_addResource d.name m.flatPath).bind fun _ => .pure rfl)
    fun _ => .pure rfl

theorem mirrors_addMethod (opts : Options) (document : Document) (service : String) (d : Draft)
    (m : Method) :
    Mirrors id (addMethod opts document service d m)
      (addMethod opts.withStrings document service d m) := by
  have hignored : opts.withStrings.ignoredNames = opts.ignoredNames := rfl
  rw [addMethod, addMethod, hignored]
  cases ignoredReference? opts.ignoredNames m with
  | some message => exact (mirrors_note _).bind fun _ => .pure rfl
  | none => exact (mirrors_rpcOf opts document service m).bind fun r => .pure rfl

theorem mirrors_addService (opts : Options) (document : Document) (services : Table Service)
    (resource : String × List Method) :
    Mirrors id (addService opts document services resource)
      (addService opts.withStrings document services resource) := by
  obtain ⟨key, methods⟩ := resource
  rw [addService, addService]
  refine .lift_bind _ fun name => .ite (fun _ => ?_) fun _ => ?_
  · exact (mirrors_note _).bind fun _ => .pure rfl
  · refine .lift_bind _ fun version => ?_
    refine (Mirrors.foldlM (fun m _ d => mirrors_addMethod opts document name d m) {}).bind
      fun d => ?_
    exact .ite (fun _ => .pure rfl) fun _ => .pure rfl

/-! ## The end of a conversion -/

theorem isDropped_withStrings (known ignored : NameSet) (f : Field) :
    isDropped known ignored f.withStrings = isDropped known ignored f := by
  rw [isDropped, isDropped, Field.withStrings]
  cases f.type <;> rfl

theorem resolveMessage_withStrings (known ignored : NameSet) (m : Message) :
    resolveMessage known ignored m.withStrings = (resolveMessage known ignored m).withStrings := by
  rw [resolveMessage, resolveMessage, Message.retainFields_withStrings fun f =>
    congrArg not (isDropped_withStrings known ignored f)]
  refine Message.updateFields_withStrings (fun f => ?_) _
  have htype : resolveType known f.type.withStrings = (resolveType known f.type).withStrings := by
    cases f.type with
    | reference name =>
      change resolveType known (.reference name) = _
      rw [resolveType]
      split <;> rfl
    | _ => rfl
  rw [Field.withStrings, Field.withStrings, htype]

theorem danglingFields_withStrings (m : Message) :
    danglingFields m.withStrings = danglingFields m := by
  rw [danglingFields, danglingFields, Message.withStrings, List.filterMap_map]
  refine List.filterMap_congr fun f _ => ?_
  rw [Function.comp_apply, Field.withStrings]
  cases f.type <;> rfl

theorem droppedFields_withStrings (known ignored : NameSet) (m : Message) :
    droppedFields known ignored m.withStrings = droppedFields known ignored m := by
  rw [droppedFields, droppedFields, Message.withStrings,
    Field.filter_map (isDropped_withStrings known ignored), List.map_map]
  rfl

theorem resolvedMessages_withStrings (ignored : NameSet) (w : Workspace) :
    resolvedMessages ignored w.withStrings =
      (resolvedMessages ignored w).mapValues Message.withStrings := by
  rw [resolvedMessages, resolvedMessages, Workspace.withStrings, Table.names_mapValues]
  exact Table.mapValues_comm (resolveMessage_withStrings _ ignored) w.messages

theorem resolvedWorkspace_withStrings (ignored : NameSet) (w : Workspace) :
    resolvedWorkspace ignored w.withStrings = (resolvedWorkspace ignored w).withStrings := by
  rw [resolvedWorkspace, resolvedMessages_withStrings, Workspace.withStrings, Workspace.withStrings,
    Table.names_mapValues, Table.values_mapValues, List.flatMap_map]
  simp only [droppedFields_withStrings]
  rfl

/-- The same references dangle. -/
theorem mirrors_resolveReferences (ignored : NameSet) (services : Table Service) :
    Mirrors id (resolveReferences ignored services) (resolveReferences ignored services) where
  run {w a w'} h herrors := by
    have hnames : w.withStrings.messages.names = w.messages.names := Table.names_mapValues ..
    have hstrings := resolveReferences_apply ignored services w.withStrings
    rw [resolvedMessages_withStrings, Table.values_mapValues, List.flatMap_map, hnames,
      resolvedWorkspace_withStrings] at hstrings
    simp only [danglingFields_withStrings] at hstrings
    rw [resolveReferences_apply] at h
    split at h
    · rename_i hnone
      cases h
      rw [hnone] at hstrings
      refine ⟨?_, hstrings⟩
      rwa [← Table.has_mapValues (resolveMessage w.messages.names ignored)]
    · cases h

theorem stripEnums_withStrings (removed : NameSet) (f : Field) :
    stripEnums removed f.withStrings = (stripEnums removed f).withStrings := by
  have htype : withoutEnums removed f.type.withStrings =
      (withoutEnums removed f.type).withStrings := by
    cases f.type with
    | enum name =>
      change .primitive .string = FieldType.withStrings (if _ then _ else _)
      split <;> rfl
    | _ => rfl
  rw [stripEnums, stripEnums, Field.withStrings, Field.withStrings, htype]

theorem removeConflicts_withStrings (m : Message) :
    removeConflicts m.withStrings = (removeConflicts m).withStrings := by
  have henums : conflictingEnums m.withStrings = conflictingEnums m := rfl
  rw [removeConflicts, removeConflicts, henums]
  split
  · rfl
  · rw [removeEnums_eq, removeEnums_eq,
      Message.updateFields_withStrings (stripEnums_withStrings _) m]
    rfl

theorem mirrors_removeConflictingEnums :
    Mirrors id removeConflictingEnums removeConflictingEnums :=
  .modify (fun w n => Table.has_mapValues ..) fun w => by
    have hnotes : w.withStrings.messages.values.flatMap conflictNote =
        w.messages.values.flatMap conflictNote := by
      rw [Workspace.withStrings, Table.values_mapValues, List.flatMap_map]
      rfl
    have hmessages := Table.mapValues_comm removeConflicts_withStrings w.messages
    rw [hnotes]
    exact congrArg (fun messages => { w with
      messages, log := w.log ++ w.messages.values.flatMap conflictNote }) hmessages

theorem operationSettings_withStrings (messages : Table Message) (operationServices : NameSet)
    (service : String) (r : Rpc) :
    operationSettings (messages.mapValues Message.withStrings) operationServices service r =
      operationSettings messages operationServices service r := by
  have htarget (request? : Option Message) :
      operationTarget (request?.map Message.withStrings) = operationTarget request? := by
    simp only [operationTarget, Option.any_map, Message.field?_withStrings, Option.isSome_map]
  simp only [operationSettings, Table.get?_mapValues, htarget]

theorem addOperations_withStrings (messages : Table Message) (services : Table Service) :
    addOperations (messages.mapValues Message.withStrings) services =
      addOperations messages services := by
  have hservice (operationServices : NameSet) (s : Service) :
      withOperations (messages.mapValues Message.withStrings) operationServices s =
        withOperations messages operationServices s := by
    simp only [withOperations, operationSettings_withStrings]
  rw [addOperations, addOperations]
  exact Table.mapValues_inj.2 fun s _ => hservice _ s

/-- With strings for enums a conversion that succeeds, and makes no `Errors`, gives the same file
but for types. -/
theorem mirrors_fileOf (opts : Options) (d : Document) :
    Mirrors File.withStrings (fileOf opts d) (fileOf opts.withStrings d) := by
  rw [fileOf, fileOf]
  refine (Mirrors.forM fun entry _ => mirrors_addSchema opts entry).bind fun _ => ?_
  refine (Mirrors.foldlM (fun resource _ services => mirrors_addService opts d services resource)
    []).bind fun services => ?_
  refine (mirrors_resolveReferences _ services).bind fun _ => ?_
  refine mirrors_removeConflictingEnums.bind fun _ => .get_bind fun w => ?_
  have hlength : w.withStrings.messages.length = w.messages.length := List.length_map ..
  rw [hlength]
  refine (mirrors_note _).bind fun _ => .pure ?_
  rw [← addOperations_withStrings]
  rfl

end Conversion

end DiscoveryGrpc
