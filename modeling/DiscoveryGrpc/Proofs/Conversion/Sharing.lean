import DiscoveryGrpc.Proofs.Api.Nesting
import DiscoveryGrpc.Proofs.Conversion.Replay

/-!
# Inline schemas that share a message

Without a configuration an inline schema gets the name that the same schema got first. But the name
is asked for before the message is made and recorded after it was added, and schemas that stand in
it are registered in between. None of them is the same schema, because their canonical texts are
shorter, so the first name of the schema is at the end what it was at the beginning.

`Registers P x` says this of a computation, whether it succeeds or fails: it keeps the registry
uniform, and gives no first name to other schemas than those of which `P` holds. There is one rule
for each way to put computations together; `registers_namedType` is where names are chosen.
-/

namespace DiscoveryGrpc

open Proto Api

/-! ## Uniform registries -/

namespace Registry

/-- Nothing is configured, all registrations of a schema have its first name, and no other problem
was noticed than that a location was used twice. -/
structure Uniform (r : Registry) : Prop where
  configured : r.configured = []
  names : ∀ e ∈ r.registrations, r.firstNames.get? e.2.schema = some e.2.name
  problems : ∀ p ∈ r.problems, ∃ location first second, p = .repeated location first second

theorem uniform_empty : empty.Uniform := ⟨rfl, nofun, nofun⟩

variable {r r' r'' : Registry} {P Q : String → Prop}

/-- The first name of a schema after it was registered with a name. -/
theorem firstNames_register_of_new {location name schema : String}
    (h : r.registrations.get? location = none)
    (hname : ∀ n ∈ r.firstNames.get? schema, name = n) (other : String) :
    (r.register location name schema).firstNames.get? other =
      if other = schema then some name else r.firstNames.get? other := by
  rw [register_of_new h]
  dsimp only
  split
  · rename_i hhas
    obtain ⟨n, hn⟩ := Table.exists_get? hhas
    obtain rfl := hname n hn
    split
    · rename_i hother
      rw [hother, hn]
    · rfl
  · rw [Table.get?_insert]

/-- Registering a schema with its first name, if it has one, keeps the registry uniform. -/
theorem Uniform.register (h : r.Uniform) {location name schema : String}
    (hname : ∀ n ∈ r.firstNames.get? schema, name = n) :
    (r.register location name schema).Uniform := by
  cases hlocation : r.registrations.get? location with
  | some existing =>
    rw [register_of_registered hlocation]
    refine ⟨h.configured, h.names, fun p hp => ?_⟩
    rcases List.mem_append.1 hp with hp | hp
    · exact h.problems p hp
    · exact ⟨_, _, _, List.mem_singleton.1 hp⟩
  | none =>
    have hfirst := firstNames_register_of_new hlocation hname
    refine ⟨?_, fun e he => ?_, ?_⟩
    · exact (configured_register ..).trans h.configured
    · rw [hfirst]
      rw [register_of_new hlocation] at he
      rcases Table.mem_insert (k := e.1) (v := e.2) he with ⟨-, hv⟩ | he
      · rw [hv, if_pos rfl]
      · split
        · rename_i hschema
          have hnamed := h.names e he
          rw [hschema] at hnamed
          rw [hname _ hnamed]
        · exact h.names e he
    · rw [register_of_new hlocation]
      exact h.problems

/-- A registry stays uniform, and no other schemas get a first name than some. -/
structure Adds (P : String → Prop) (r r' : Registry) : Prop where
  uniform : r.Uniform → r'.Uniform
  kept : r.Uniform → ∀ schema, ¬P schema → r'.firstNames.get? schema = r.firstNames.get? schema

theorem Adds.refl (r : Registry) : Adds P r r := ⟨id, fun _ _ _ => rfl⟩

theorem Adds.trans (h : Adds P r r') (h' : Adds P r' r'') : Adds P r r'' where
  uniform hr := h'.uniform (h.uniform hr)
  kept hr schema hschema :=
    (h'.kept (h.uniform hr) schema hschema).trans (h.kept hr schema hschema)

theorem Adds.mono (h : Adds P r r') (hPQ : ∀ schema, P schema → Q schema) : Adds Q r r' where
  uniform := h.uniform
  kept hr schema hschema := h.kept hr schema fun hP => hschema (hPQ schema hP)

/-- At the end a schema may be registered, with its first name if it has one. -/
theorem Adds.register (h : Adds P r r') {location name schema : String} (hP : P schema)
    (hname : r.Uniform → ∀ n ∈ r'.firstNames.get? schema, name = n) :
    Adds P r (r'.register location name schema) where
  uniform hr := (h.uniform hr).register (hname hr)
  kept hr other hother := by
    rw [← h.kept hr other hother]
    cases hlocation : r'.registrations.get? location with
    | some existing => rw [register_of_registered hlocation]
    | none =>
      rw [firstNames_register_of_new hlocation (hname hr), if_neg]
      rintro rfl
      exact hother hP

theorem Uniform.messageName_eq (h : r.Uniform) (location schema default : String) :
    r.messageName location schema default = (r.firstNames.get? schema).getD default :=
  messageName_of_get?_eq_none (by rw [h.configured, Table.get?_nil]) schema default

end Registry

/-! ## Computations -/

namespace Conversion

variable {α β : Type} {P Q : String → Prop}

/-- The registry at the end of a computation, whether it succeeds or fails. -/
def registryAfter (x : Build α) (w : Workspace) : Registry :=
  match x w with
  | .ok _ w' => w'.registry
  | .error _ w' => w'.registry

theorem registryAfter_bind (x : Build α) (f : α → Build β) (w : Workspace) :
    registryAfter (x >>= f) w = match x w with
      | .ok a w' => registryAfter (f a) w'
      | .error _ w' => w'.registry := by
  change (match EStateM.bind x f w with
    | .ok _ w' => w'.registry
    | .error _ w' => w'.registry) = _
  rw [EStateM.bind]
  cases x w <;> rfl

/-- A computation registers schemas under their first names, and only such as `P` holds of. -/
structure Registers (P : String → Prop) (x : Build α) : Prop where
  run : ∀ w : Workspace, w.registry.Adds P (registryAfter x w)

namespace Registers

variable {x : Build α}

/-- A computation that leaves the registry alone. -/
theorem of_same (h : ∀ w, registryAfter x w = w.registry) : Registers P x :=
  ⟨fun w => h w ▸ .refl _⟩

theorem pure (a : α) : Registers P (pure a : Build α) := of_same fun _ => rfl

theorem throw (fault : Fault) : Registers P (throw fault : Build α) := of_same fun _ => rfl

theorem lift (x : Except Fault α) : Registers P (liftM x : Build α) := by
  cases x with
  | error fault => exact throw fault
  | ok a => exact pure a

theorem modify {change : Workspace → Workspace} (h : ∀ w, (change w).registry = w.registry) :
    Registers P (modify change : Build PUnit) :=
  of_same h

theorem mono (hx : Registers P x) (h : ∀ schema, P schema → Q schema) : Registers Q x :=
  ⟨fun w => (hx.run w).mono h⟩

theorem bind {f : α → Build β} (hx : Registers P x) (hf : ∀ a, Registers P (f a)) :
    Registers P (x >>= f) where
  run w := by
    have hrun := hx.run w
    rw [registryAfter_bind]
    unfold registryAfter at hrun
    cases hxw : x w with
    | ok a w' =>
      rw [hxw] at hrun
      exact hrun.trans ((hf a).run w')
    | error fault w' =>
      rw [hxw] at hrun
      exact hrun

theorem get_bind {f : Workspace → Build α} (hf : ∀ w, Registers P (f w)) :
    Registers P (get >>= f) :=
  ⟨fun w => (hf w).run w⟩

theorem forM {xs : List α} {f : α → Build PUnit} (hf : ∀ x ∈ xs, Registers P (f x)) :
    Registers P (xs.forM f) := by
  induction xs with
  | nil => exact pure _
  | cons x xs ih =>
    exact (hf x List.mem_cons_self).bind fun _ => ih fun y hy => hf y (List.mem_cons_of_mem _ hy)

theorem foldlM {xs : List α} {f : β → α → Build β} (hf : ∀ x ∈ xs, ∀ b, Registers P (f b x))
    (b : β) : Registers P (xs.foldlM f b) := by
  induction xs generalizing b with
  | nil => exact pure b
  | cons x xs ih =>
    rw [List.foldlM_cons]
    exact (hf x List.mem_cons_self b).bind
      fun b' => ih (fun y hy => hf y (List.mem_cons_of_mem _ hy)) b'

theorem mapM {xs : List α} {f : α → Build β} (hf : ∀ x ∈ xs, Registers P (f x)) :
    Registers P (xs.mapM f) := by
  induction xs with
  | nil => exact pure []
  | cons x xs ih =>
    rw [List.mapM_cons]
    exact (hf x List.mem_cons_self).bind fun _ =>
      (ih fun y hy => hf y (List.mem_cons_of_mem _ hy)).bind fun _ => pure _

end Registers

/-! ## Messages and enums -/

theorem registers_note (e : Event) : Registers P (note e) := .modify fun _ => rfl

theorem registryAfter_addMessage (m : Message) (w : Workspace) :
    registryAfter (addMessage m) w = w.registry := by
  unfold registryAfter
  rw [addMessage_apply]
  cases w.messages.get? m.name with
  | none => rfl
  | some existing =>
    by_cases hsame : existing.same m = true <;> by_cases herrors : isErrors m = true <;>
      simp [hsame, herrors]

theorem registers_addMessage (m : Message) : Registers P (addMessage m) :=
  .of_same (registryAfter_addMessage m)

theorem registers_addMember (e : Message) (value : String × String) :
    Registers P (addMember e value) := by
  refine (Registers.lift _).bind fun name => ?_
  dsimp only
  split
  · exact .pure _
  · exact (registers_note _).bind fun _ => .pure _

theorem registers_enumType (opts : Options) (h : SchemaHead) (owner : Message) :
    Registers P (enumType opts h owner) := by
  have henum (name : String) : Registers P (enumOf h name) :=
    (Registers.lift _).bind fun _ => .foldlM (fun value _ e => registers_addMember e value) _
  exact (Registers.lift _).bind fun name => (henum name).bind fun _ =>
    (Registers.lift _).bind fun _ => .pure _

/-! ## Inline messages -/

/-- When a message is added, its schema may be registered, and nothing else. -/
theorem registryAfter_addMessage_registerAdded (p schema name : String) (m : Message)
    (w : Workspace) :
    registryAfter (addMessage m >>= registerAdded p schema name) w = w.registry ∨
      registryAfter (addMessage m >>= registerAdded p schema name) w
        = w.registry.register p name schema := by
  have hsame := registryAfter_addMessage m w
  unfold registryAfter at hsame
  rw [registryAfter_bind]
  cases hm : addMessage m w with
  | error fault w' =>
    rw [hm] at hsame
    exact .inl hsame
  | ok added w' =>
    rw [hm] at hsame
    rw [← show w'.registry = w.registry from hsame]
    cases added with
    | false => exact .inl rfl
    | true => exact .inr rfl

/-- A schema gets its first name, because no schema that is registered while its message is made is
the same one. -/
theorem registers_namedType {p schema default : String} {make : String → Build Message}
    (hP : ∀ text : String, text.length ≤ schema.length → P text)
    (hmake : ∀ name, Registers (·.length < schema.length) (make name)) :
    Registers P (namedType p schema default make) where
  run w := by
    generalize hname : w.registry.messageName p schema default = name
    have hnamed : registryAfter (namedType p schema default make) w =
        registryAfter (make name >>= fun m => addMessage m >>= registerAdded p schema name) w :=
      hname ▸ rfl
    have hmade := (hmake name).run w
    have hmade' : w.registry.Adds P (registryAfter (make name) w) :=
      hmade.mono fun text htext => hP text htext.le
    rw [hnamed, registryAfter_bind]
    unfold registryAfter at hmade hmade'
    cases hm : make name w with
    | error fault w₁ =>
      rw [hm] at hmade'
      exact hmade'
    | ok m w₁ =>
      rw [hm] at hmade hmade'
      dsimp only at hmade hmade' ⊢
      rcases registryAfter_addMessage_registerAdded p schema name m w₁ with hsame | hregistered
      · rwa [hsame]
      · rw [hregistered]
        refine hmade'.register (hP schema le_rfl) fun hr n hn => ?_
        rw [hmade.kept hr schema (lt_irrefl _)] at hn
        rw [← hname, hr.messageName_eq, Option.mem_def.1 hn, Option.getD_some]

theorem registers_inlineType {h : SchemaHead} {make : String → Build Message}
    (hP : ∀ text : String, text.length ≤ h.canonical.length → P text)
    (hmake : ∀ name, Registers (·.length < h.canonical.length) (make name)) :
    Registers P (inlineType h make) := by
  cases hid : h.id.isEmpty with
  | true =>
    rw [inlineType_of_inline hid]
    exact (Registers.lift _).bind fun _ => registers_namedType hP hmake
  | false =>
    rw [inlineType_of_id hid]
    refine (Registers.lift _).bind fun name => .get_bind fun _ => ?_
    refine ((hmake name).mono fun text htext => hP text htext.le).bind fun m => ?_
    exact (registers_addMessage m).bind fun _ => .pure _

/-! ## Fields -/

theorem registers_valueType (opts : Options) {h : SchemaHead} {make : String → Build Message}
    (hP : ∀ text : String, text.length ≤ h.canonical.length → P text)
    (hmake : ∀ name, Registers (·.length < h.canonical.length) (make name)) (owner : Message) :
    Registers P (valueType opts h make owner) := by
  unfold valueType
  split
  · exact (Registers.lift _).bind fun _ => .pure _
  · split
    · split
      · exact registers_enumType opts h owner
      · exact .pure _
    · exact .pure _
    · exact .pure _
    · exact .pure _
    · split
      · exact .pure _
      · exact .throw _
    · exact (registers_inlineType hP hmake).bind fun _ => .pure _
    · exact .throw _
    · exact .throw _

mutual

/-- The schemas that are registered for the field of a schema are no longer than it. -/
theorem registers_fieldOf (opts : Options) {P : String → Prop} : (s : Schema) → (owner : Message) →
    s.Tapered → (∀ text : String, text.length ≤ s.canonical.length → P text) →
    Registers P (fieldOf opts s owner)
  | ⟨h, properties, items, additional⟩, owner, hs, hP => by
    have hend : ∀ r : FieldType × Message, Registers P (do
        let f ← liftM (fieldWithType h (isMapField h additional) r.1)
        pure (f, r.2) : Build (Field × Message)) := fun r =>
      (Registers.lift _).bind fun _ => .pure _
    have helement (s : Option Schema)
        (hchild : ∀ c ∈ s, Schema.Child c ⟨h, properties, items, additional⟩) :
        ∀ c ∈ s, c.Tapered ∧ ∀ text : String, text.length ≤ c.canonical.length → P text :=
      fun c hc => ⟨hs.nested (hchild c hc), fun text htext =>
        hP text (htext.trans (hs.shorter (hchild c hc)).le)⟩
    rw [fieldOf]
    split
    · exact (registers_elementType opts items _ _ owner
        (helement items fun c hc => .inr (.inl hc))).bind hend
    · split
      · exact (registers_elementType opts additional _ _ owner
          (helement additional fun c hc => .inr (.inr hc))).bind hend
      · refine (registers_valueType opts hP (fun name => ?_) owner).bind hend
        exact registers_addProperties opts properties _ fun c hc =>
          ⟨hs.nested (.inl hc), fun text htext => htext.trans_lt (hs.shorter (.inl hc))⟩

theorem registers_elementType (opts : Options) {P : String → Prop} : (s : Option Schema) →
    (path : String) → (slot : ElementSlot) → (owner : Message) →
    (∀ c ∈ s, c.Tapered ∧ ∀ text : String, text.length ≤ c.canonical.length → P text) →
    Registers P (elementType opts path slot s owner)
  | none, _, _, _, _ => .throw _
  | some ⟨h, properties, items, additional⟩, path, slot, owner, hs => by
    obtain ⟨hs, hP⟩ := hs _ rfl
    rw [elementType]
    split
    · exact .throw _
    · refine registers_valueType opts hP (fun name => ?_) owner
      exact registers_addProperties opts properties _ fun c hc =>
        ⟨hs.nested (.inl hc), fun text htext => htext.trans_lt (hs.shorter (.inl hc))⟩

theorem registers_addProperties (opts : Options) {P : String → Prop} :
    (ps : List (String × Schema)) → (m : Message) →
    (∀ s ∈ Table.values ps,
      s.Tapered ∧ ∀ text : String, text.length ≤ s.canonical.length → P text) →
    Registers P (addProperties opts ps m)
  | [], m, _ => .pure m
  | (_, s) :: rest, m, hps => by
    obtain ⟨hs, hrest⟩ := List.forall_mem_cons.1 hps
    rw [addProperties]
    exact (registers_fieldOf opts s m hs.1 hs.2).bind fun r => (Registers.lift _).bind fun m' =>
      registers_addProperties opts rest m' hrest

end

end Conversion

end DiscoveryGrpc
