import DiscoveryGrpc.Proofs.Conversion.Settled

/-!
# Repeating a conversion with the names it gave

A conversion asks its registry for the names of inline schemas and then registers them. If it is
repeated with a registry that was loaded with just these names, it does the same again: a schema
gets the name that it got before, because its location now has this name, or, where the schema was
passed through without being registered, because no location decides in either run.

This needs that every location is asked for once. `Replays ps x` says of a computation that it
succeeds again when it is repeated like this, that it registers at no other locations than `ps`,
and so at none twice. There is one rule for each way to put computations together.
-/

namespace DiscoveryGrpc

open Proto Api

/-- Names by location are those that a registry has at some locations, and it has registered all
of these locations that were configured. -/
structure Registry.Agrees (r : Registry) (ps : List String) (configured : Table String) : Prop where
  names : ∀ p ∈ ps, configured.get? p = (r.registrations.get? p).map (·.name)
  used : ∀ p ∈ ps, r.registrations.get? p = none → r.configured.get? p = none

namespace Registry

variable {r : Registry} {p name schema : String} {ps : List String} {names : Table String}

/-- At a location that is not registered, neither the names nor the registry decide. -/
theorem Agrees.of_cons (h : r.Agrees (p :: ps) names) (hp : r.registrations.get? p = none) :
    names.get? p = none ∧ r.configured.get? p = none ∧ r.Agrees ps names := by
  obtain ⟨hname, hnames⟩ := List.forall_mem_cons.1 h.names
  obtain ⟨hused, huses⟩ := List.forall_mem_cons.1 h.used
  rw [hp] at hname
  exact ⟨hname, hused hp, hnames, huses⟩

/-- A location that was registered has its name, and at the others nothing changed. -/
theorem Agrees.of_register (h : (r.register p name schema).Agrees (p :: ps) names)
    (hnone : r.registrations.get? p = none) (hp : p ∉ ps) :
    names.get? p = some name ∧ r.Agrees ps names := by
  obtain ⟨hname, hnames⟩ := List.forall_mem_cons.1 h.names
  obtain ⟨-, hused⟩ := List.forall_mem_cons.1 h.used
  have hother : ∀ q ∈ ps, (r.register p name schema).registrations.get? q
      = r.registrations.get? q :=
    fun q hq => get?_register_of_ne hnone (fun h => hp (h ▸ hq)) name schema
  rw [get?_register_self hnone] at hname
  refine ⟨hname, fun q hq => ?_, fun q hq hq' => ?_⟩
  · rw [← hother q hq]
    exact hnames q hq
  · rw [← configured_register]
    exact hused q hq ((hother q hq).trans hq')

end Registry

namespace Conversion

/-- A workspace as it would be if other names had been configured. -/
def Workspace.reload (w : Workspace) (configured : Table String) : Workspace :=
  { w with registry := { w.registry with configured } }

variable {w w' : Workspace} {α β : Type}

/-- What a computation does that asks for names at some locations: it registers nowhere else, and
with the names that it registered it does the same again. -/
structure Replayed (ps : List String) (x : Build α) (w : Workspace) (a : α) (w' : Workspace) :
    Prop where
  configured : w'.registry.configured = w.registry.configured
  frame : ∀ p ∉ ps, w'.registry.registrations.get? p = w.registry.registrations.get? p
  again : ∀ names, w'.registry.Agrees ps names → x (w.reload names) = .ok a (w'.reload names)

/-- A computation that asks for names at some locations, once at each, can be repeated with the
names that it gave. -/
structure Replays (ps : List String) (x : Build α) : Prop where
  run : ∀ {w a w'}, ps.Nodup → (∀ p ∈ ps, w.registry.registrations.get? p = none) →
    x w = .ok a w' → Replayed ps x w a w'

theorem bind_apply_of_ok {x : Build α} {a : α} (f : α → Build β) (h : x w = .ok a w') :
    (x >>= f) w = f a w' := by
  change EStateM.bind x f w = _
  rw [EStateM.bind, h]

namespace Replays

variable {ps qs : List String} {x : Build α}

/-- A computation that neither asks for names nor registers any. -/
theorem of_blind (h : ∀ {w a w'}, x w = .ok a w' →
    w'.registry = w.registry ∧ ∀ names, x (w.reload names) = .ok a (w'.reload names)) :
    Replays [] x where
  run _ _ hx := by
    obtain ⟨hregistry, hagain⟩ := h hx
    exact ⟨by rw [hregistry], fun p _ => by rw [hregistry], fun names _ => hagain names⟩

theorem pure (a : α) : Replays [] (pure a : Build α) :=
  of_blind fun h => by
    cases h
    exact ⟨rfl, fun _ => rfl⟩

theorem throw (fault : Fault) : Replays [] (throw fault : Build α) := of_blind nofun

theorem lift (x : Except Fault α) : Replays [] (liftM x : Build α) := by
  cases x with
  | error fault => exact throw fault
  | ok a => exact pure a

theorem modify {change : Workspace → Workspace} (hregistry : ∀ w, (change w).registry = w.registry)
    (hreload : ∀ w names, change (w.reload names) = (change w).reload names) :
    Replays [] (modify change : Build PUnit) :=
  of_blind fun {w _ _} h => by
    cases h
    exact ⟨hregistry w, fun names => congrArg (EStateM.Result.ok _) (hreload w names)⟩

/-- A computation may be given more locations than it asks for. -/
theorem weaken (hx : Replays ps x) (hs : ps.Sublist qs) : Replays qs x where
  run hn hfree h := by
    have hx := hx.run (hs.nodup hn) (fun p hp => hfree p (hs.subset hp)) h
    exact ⟨hx.configured, fun p hp => hx.frame p fun hp' => hp (hs.subset hp'), fun names hnames =>
      hx.again names ⟨fun p hp => hnames.names p (hs.subset hp),
        fun p hp => hnames.used p (hs.subset hp)⟩⟩

theorem bind {f : α → Build β} (hx : Replays ps x) (hf : ∀ a, Replays qs (f a)) :
    Replays (ps ++ qs) (x >>= f) where
  run {w b w'} hn hfree h := by
    obtain ⟨hps, hqs, hdisjoint⟩ := List.nodup_append.1 hn
    obtain ⟨a, w₁, hxa, hfa⟩ := bind_eq_ok_iff.1 h
    have hx := hx.run hps (fun p hp => hfree p (List.mem_append_left _ hp)) hxa
    have hfree₁ : ∀ p ∈ qs, w₁.registry.registrations.get? p = none := fun p hp => by
      rw [hx.frame p fun hp' => hdisjoint p hp' p hp rfl]
      exact hfree p (List.mem_append_right _ hp)
    have hf := (hf a).run hqs hfree₁ hfa
    refine ⟨hf.configured.trans hx.configured, fun p hp => ?_, fun names hnames => ?_⟩
    · rw [List.mem_append, not_or] at hp
      rw [hf.frame p hp.2, hx.frame p hp.1]
    · -- what is registered at the locations of the first part stays until the end
      have hframe : ∀ p ∈ ps, w'.registry.registrations.get? p = w₁.registry.registrations.get? p :=
        fun p hp => hf.frame p fun hp' => hdisjoint p hp p hp' rfl
      have hx := hx.again names ⟨fun p hp => by
          rw [← hframe p hp]
          exact hnames.names p (List.mem_append_left _ hp), fun p hp hnone => by
          rw [← hf.configured]
          exact hnames.used p (List.mem_append_left _ hp) (by rw [hframe p hp, hnone])⟩
      have hf := hf.again names ⟨fun p hp => hnames.names p (List.mem_append_right _ hp),
        fun p hp => hnames.used p (List.mem_append_right _ hp)⟩
      exact bind_eq_ok_iff.2 ⟨a, _, hx, hf⟩

/-- Before a computation something may happen that asks for nothing. -/
theorem blind_bind {f : α → Build β} (hx : Replays [] x) (hf : ∀ a, Replays ps (f a)) :
    Replays ps (x >>= f) :=
  hx.bind hf

/-- After a computation something may happen that asks for nothing. -/
theorem bind_blind {f : α → Build β} (hx : Replays ps x) (hf : ∀ a, Replays [] (f a)) :
    Replays ps (x >>= f) := by
  simpa using hx.bind hf

theorem get_bind {x : Build α} (hx : Replays ps x) :
    Replays ps (get >>= fun _ => x) :=
  ⟨fun {w _ _} hn hfree h => by
    have hx := hx.run hn hfree (w := w) h
    exact ⟨hx.configured, hx.frame, hx.again⟩⟩

theorem forM {xs : List α} {f : α → Build PUnit} {paths : α → List String}
    (hf : ∀ x ∈ xs, Replays (paths x) (f x)) : Replays (xs.flatMap paths) (xs.forM f) := by
  induction xs with
  | nil => exact pure _
  | cons x xs ih =>
    rw [List.flatMap_cons]
    exact (hf x List.mem_cons_self).bind fun _ => ih fun y hy => hf y (List.mem_cons_of_mem _ hy)

theorem foldlM {xs : List α} {f : β → α → Build β} {paths : α → List String}
    (hf : ∀ x ∈ xs, ∀ b, Replays (paths x) (f b x)) (b : β) :
    Replays (xs.flatMap paths) (xs.foldlM f b) := by
  induction xs generalizing b with
  | nil => exact pure b
  | cons x xs ih =>
    rw [List.flatMap_cons, List.foldlM_cons]
    exact (hf x List.mem_cons_self b).bind
      fun b => ih (fun y hy => hf y (List.mem_cons_of_mem _ hy)) b

theorem blind_foldlM {xs : List α} {f : β → α → Build β} (hf : ∀ x ∈ xs, ∀ b, Replays [] (f b x))
    (b : β) : Replays [] (xs.foldlM f b) := by
  have hnil : xs.flatMap (fun _ => ([] : List String)) = [] :=
    List.flatMap_eq_nil_iff.2 fun _ _ => rfl
  exact hnil ▸ foldlM hf b

theorem blind_mapM {xs : List α} {f : α → Build β} (hf : ∀ x ∈ xs, Replays [] (f x)) :
    Replays [] (xs.mapM f) := by
  induction xs with
  | nil => exact pure []
  | cons x xs ih =>
    rw [List.mapM_cons]
    exact (hf x List.mem_cons_self).blind_bind fun _ =>
      (ih fun y hy => hf y (List.mem_cons_of_mem _ hy)).blind_bind fun _ => pure _

end Replays

/-! ## Messages and enums -/

theorem replays_note (e : Event) : Replays [] (note e) := .modify (fun _ => rfl) fun _ _ => rfl

theorem addMessage_apply (m : Message) (w : Workspace) :
    addMessage m w = match w.messages.get? m.name with
      | none => .ok true { w with messages := w.messages.insert m.name m }
      | some existing =>
        if existing.same m then .ok true w
        else if isErrors m then .ok false { w with log := w.log ++ [Event.keepingMessage m.name] }
        else .error (.messageCollision m.name) w := by
  rw [addMessage, get_bind_apply]
  cases w.messages.get? m.name with
  | none => rfl
  | some existing =>
    by_cases hsame : existing.same m = true <;> by_cases herrors : isErrors m = true <;>
      simp only [hsame, herrors, if_true] <;> rfl

theorem replays_addMessage (m : Message) : Replays [] (addMessage m) :=
  .of_blind fun {w a w'} h => by
    have hagain := fun names => addMessage_apply m (w.reload names)
    simp only [Workspace.reload] at hagain
    rw [addMessage_apply] at h
    cases hm : w.messages.get? m.name with
    | none =>
      simp only [hm] at h hagain
      cases h
      exact ⟨rfl, hagain⟩
    | some existing =>
      simp only [hm] at h hagain
      split at h
      · rename_i hsame
        cases h
        exact ⟨rfl, fun names => by rw [Workspace.reload, hagain, if_pos hsame]⟩
      · rename_i hsame
        split at h
        · rename_i herrors
          cases h
          exact ⟨rfl, fun names => by rw [Workspace.reload, hagain, if_neg hsame, if_pos herrors]; rfl⟩
        · cases h

theorem replays_addMember (e : Message) (value : String × String) :
    Replays [] (addMember e value) := by
  refine (Replays.lift _).blind_bind fun name => ?_
  dsimp only
  split
  · exact .pure _
  · exact (replays_note _).blind_bind fun _ => .pure _

theorem replays_enumOf (h : SchemaHead) (name : String) : Replays [] (enumOf h name) := by
  refine (Replays.lift _).blind_bind fun undefined => ?_
  exact .blind_foldlM (fun value _ e => replays_addMember e value) _

theorem replays_enumType (opts : Options) (h : SchemaHead) (owner : Message) :
    Replays [] (enumType opts h owner) :=
  (Replays.lift _).blind_bind fun name => (replays_enumOf h name).blind_bind fun _ =>
    (Replays.lift _).blind_bind fun _ => .pure _

/-! ## Inline messages -/

/-- Registers the schema of a message that was added. -/
def registerAdded (p schema name : String) (added : Bool) : Build FieldType := do
  if added then modify fun w => { w with registry := w.registry.register p name schema }
  return .message name

/-- The type of an inline schema, with the name that the registry gives. -/
def namedType (p schema default : String) (make : String → Build Message) : Build FieldType := do
  let name := (← get).registry.messageName p schema default
  registerAdded p schema name (← addMessage (← make name))

theorem inlineType_of_inline {h : SchemaHead} (hid : h.id.isEmpty = true)
    (make : String → Build Message) : inlineType h make = (do
      let default ← messageName h.identifier
      namedType h.place.path h.canonical default make) := by
  simp only [inlineType, namedType, registerAdded, hid, if_true, Bool.and_true]

theorem inlineType_of_id {h : SchemaHead} (hid : h.id.isEmpty = false)
    (make : String → Build Message) : inlineType h make = (do
      let name ← messageName h.identifier
      let _ ← get
      let _ ← addMessage (← make name)
      return .message name) := by
  simp [inlineType, hid]

theorem register_reload (r : Registry) (p name schema : String) (configured : Table String) :
    ({ r with configured } : Registry).register p name schema
      = { r.register p name schema with configured } := by
  unfold Registry.register
  dsimp only
  split <;> rfl

theorem namedType_apply (p schema default : String) (make : String → Build Message)
    (w : Workspace) : namedType p schema default make w =
      ((make (w.registry.messageName p schema default) >>= addMessage) >>=
        registerAdded p schema (w.registry.messageName p schema default)) w := by
  rw [namedType, get_bind_apply, bind_assoc]

theorem replays_namedType {p schema default : String} {make : String → Build Message}
    {ps : List String} (hmake : ∀ name, Replays ps (make name)) :
    Replays (p :: ps) (namedType p schema default make) where
  run {w t w'} hn hfree h := by
    obtain ⟨hp, hps⟩ := List.nodup_cons.1 hn
    obtain ⟨hfreep, hfreeps⟩ := List.forall_mem_cons.1 hfree
    rw [namedType_apply] at h
    generalize hname : w.registry.messageName p schema default = name at h
    obtain ⟨added, w₁, hadded, h⟩ := bind_eq_ok_iff.1 h
    have hmade := ((hmake name).bind_blind replays_addMessage).run hps hfreeps hadded
    have hnone := (hmade.frame p hp).trans hfreep
    have hframe : ∀ q ∉ p :: ps,
        w₁.registry.registrations.get? q = w.registry.registrations.get? q :=
      fun q hq => hmade.frame q fun hq' => hq (List.mem_cons_of_mem _ hq')
    -- with the same name the message is made and added again
    have hagain : ∀ names, w₁.registry.Agrees ps names →
        (w.reload names).registry.messageName p schema default = name →
        namedType p schema default make (w.reload names)
          = registerAdded p schema name added (w₁.reload names) := fun names hnames hname => by
      rw [namedType_apply, hname, bind_apply_of_ok _ (hmade.again names hnames)]
    cases added with
    | false =>
      cases h
      refine ⟨hmade.configured, hframe, fun names hnames => ?_⟩
      obtain ⟨hnamep, hused, hnames⟩ := hnames.of_cons hnone
      rw [hmade.configured] at hused
      refine hagain names hnames ?_
      -- no location decides, so the name is that of the same schema in both runs
      rw [← hname, Registry.messageName_of_get?_eq_none hused]
      exact Registry.messageName_of_get?_eq_none hnamep schema default
    | true =>
      cases h
      refine ⟨(Registry.configured_register ..).trans hmade.configured, fun q hq => ?_,
        fun names hnames => ?_⟩
      · have hne : q ≠ p := fun h => hq (h ▸ List.mem_cons_self)
        exact (Registry.get?_register_of_ne hnone hne name schema).trans (hframe q hq)
      · -- the location has this name now
        obtain ⟨hnamep, hnames⟩ := hnames.of_register hnone hp
        refine (hagain names hnames (Registry.messageName_of_get? hnamep schema default)).trans ?_
        exact congrArg (fun r => EStateM.Result.ok (FieldType.message name)
          { w₁ with registry := r }) (register_reload w₁.registry p name schema names)

theorem replays_inlineType {h : SchemaHead} {make : String → Build Message} {ps : List String}
    (hmake : ∀ name, Replays ps (make name)) :
    Replays ((if h.id.isEmpty then [h.place.path] else []) ++ ps) (inlineType h make) := by
  cases hid : h.id.isEmpty with
  | true =>
    rw [inlineType_of_inline hid]
    exact (Replays.lift _).blind_bind fun _ => replays_namedType hmake
  | false =>
    rw [inlineType_of_id hid]
    refine (Replays.lift _).blind_bind fun name => .get_bind ?_
    exact (hmake name).bind_blind fun m => (replays_addMessage m).blind_bind fun _ => .pure _

/-! ## Fields -/

/-- The path of a single value if it is an inline object. -/
def ownPath (h : SchemaHead) : List String :=
  if h.type == .object && h.id.isEmpty && !h.isReference then [h.place.path] else []

theorem replays_valueType (opts : Options) {h : SchemaHead} {make : String → Build Message}
    {ps : List String} (hmake : ∀ name, Replays ps (make name)) (owner : Message) :
    Replays (ownPath h ++ ps) (valueType opts h make owner) := by
  unfold valueType
  split
  · exact ((Replays.lift _).blind_bind fun _ => .pure _).weaken (List.nil_sublist _)
  · rename_i hreference
    split
    · split
      · exact (replays_enumType opts h owner).weaken (List.nil_sublist _)
      · exact (Replays.pure _).weaken (List.nil_sublist _)
    · exact (Replays.pure _).weaken (List.nil_sublist _)
    · exact (Replays.pure _).weaken (List.nil_sublist _)
    · exact (Replays.pure _).weaken (List.nil_sublist _)
    · split
      · exact (Replays.pure _).weaken (List.nil_sublist _)
      · exact (Replays.throw _).weaken (List.nil_sublist _)
    · rename_i htype
      have hinline := (replays_inlineType (h := h) hmake).bind_blind fun t => Replays.pure (t, owner)
      simpa [ownPath, htype, hreference] using hinline
    · exact (Replays.throw _).weaken (List.nil_sublist _)
    · exact (Replays.throw _).weaken (List.nil_sublist _)

/-- A value that is no map is an inline object of its own, and has those of its properties. -/
theorem ownPath_sublist {h : SchemaHead} {properties : List (String × Schema)}
    {items additional : Option Schema}
    (hmap : h.isReference = true ∨ (h.type == .object) = false ∨ additional.isSome = false) :
    (ownPath h ++ Schema.inlinePathsOfTable properties).Sublist
      (Schema.inlinePaths ⟨h, properties, items, additional⟩) := by
  rw [Schema.inlinePaths]
  refine List.Sublist.append ?_ (List.sublist_append_left _ _)
  unfold ownPath Schema.isInline Schema.isObject Schema.isMap
  rcases hmap with hmap | hmap | hmap <;> simp [hmap]

mutual

theorem replays_fieldOf (opts : Options) : (s : Schema) → (owner : Message) →
    Replays s.inlinePaths (fieldOf opts s owner)
  | ⟨h, properties, items, additional⟩, owner => by
    have hend : ∀ r : FieldType × Message, Replays [] (do
        let f ← liftM (fieldWithType h (isMapField h additional) r.1)
        pure (f, r.2) : Build (Field × Message)) := fun r =>
      (Replays.lift _).blind_bind fun _ => .pure _
    rw [fieldOf]
    split
    · exact ((replays_elementType opts items _ _ owner).bind_blind hend).weaken
        (Schema.items_sublist_inlinePaths ..)
    · rename_i harray
      split
      · exact ((replays_elementType opts additional _ _ owner).bind_blind hend).weaken
          (Schema.additional_sublist_inlinePaths ..)
      · rename_i hmap
        refine Replays.weaken ((replays_valueType opts
          (fun name => replays_addProperties opts properties _) owner).bind_blind hend)
          (ownPath_sublist (.inr ?_))
        simpa [isMapField, Classical.or_iff_not_imp_left] using hmap

theorem replays_elementType (opts : Options) : (s : Option Schema) → (path : String) →
    (slot : ElementSlot) → (owner : Message) →
    Replays (Schema.inlinePathsOfOption s) (elementType opts path slot s owner)
  | none, _, _, _ => .throw _
  | some ⟨h, properties, items, additional⟩, path, slot, owner => by
    rw [elementType]
    split
    · exact (Replays.throw _).weaken (List.nil_sublist _)
    · refine Replays.weaken (replays_valueType opts
          (fun name => replays_addProperties opts properties _) owner) (ownPath_sublist ?_)
      rename_i hvalue
      cases hreference : h.isReference <;> simp_all

theorem replays_addProperties (opts : Options) : (ps : List (String × Schema)) → (m : Message) →
    Replays (Schema.inlinePathsOfTable ps) (addProperties opts ps m)
  | [], m => .pure m
  | (_, s) :: rest, m => by
    rw [addProperties]
    exact (replays_fieldOf opts s m).bind fun r => (Replays.lift _).blind_bind fun m' =>
      replays_addProperties opts rest m'

end

end Conversion

end DiscoveryGrpc
