import DiscoveryGrpc.Proofs.Conversion.Services
import DiscoveryGrpc.Proofs.Proto.WellFormed

/-!
# The file of a conversion

When all messages are made, their references are resolved and conflicting enums go. A message is
settled when every type in it is known and no reference is left. `fileOf_eq_ok` says what a
conversion that succeeds comes to: steps from the empty workspace, a check that found nothing
dangling, and the file made of what is there. From this `settled_of_fileOf` concludes that all
messages of the file are settled, and that the file has the messages of all its rpcs.
-/

namespace DiscoveryGrpc

open Proto Api

/-- The names that a document gives are allowed. -/
structure Naming.AdmitsDocument (N : Naming) (d : Document) : Prop where
  schemas : Schema.AllTable N.Admits d.schemas
  resources : ∀ resource ∈ d.resources, N.AdmitsResource resource

namespace Conversion

variable {N : Naming} {w w' : Workspace}

/-! ## What the steps keep -/

/-- All messages and resources of a workspace are drafted. -/
structure Sound (N : Naming) (w : Workspace) : Prop where
  named : w.messages.Named Message.name
  messages : ∀ m ∈ w.messages.values, m.Drafted N w.messages
  resources : ∀ s ∈ w.resources, s.Drafted []

theorem Step.sound (h : Step N w w') (hw : Sound N w) : Sound N w' := by
  cases h with
  | note e => exact ⟨hw.named, hw.messages, hw.resources⟩
  | addMessage m hnew hm =>
    refine ⟨hw.named.insert m, fun x hx => ?_, hw.resources⟩
    have hmono : ∀ n, w.messages.has n = true → (w.messages.insert m.name m).has n = true :=
      fun n => has_insert_of_has
    rcases Table.mem_values_insert hx with rfl | hx
    · exact hm.mono hmono
    · exact (hw.messages x hx).mono hmono
  | register path name schema => exact ⟨hw.named, hw.messages, hw.resources⟩
  | addResource s hs =>
    refine ⟨hw.named, hw.messages, fun x hx => ?_⟩
    rcases List.mem_append.1 hx with hx | hx
    · exact hw.resources x hx
    · exact List.mem_singleton.1 hx ▸ hs

theorem Steps.sound (h : Steps N w w') (hw : Sound N w) : Sound N w' := by
  induction h with
  | refl => exact hw
  | tail _ hstep ih => exact hstep.sound ih

theorem sound_start (registry : Registry) : Sound N { registry } :=
  ⟨.nil _, by simp [Table.values], by simp⟩

/-! ## Resolving references -/

/-- A message whose types are all known. -/
structure Settled (N : Naming) (known : Table Message) (m : Message) : Prop where
  drafted : m.Drafted N known
  resolved : ∀ x ∈ m.fields, ∀ n, x.type ≠ .reference n

theorem contains_names {t : Table Message} {n : String} :
    t.names.contains n = t.has n := by
  rw [Bool.eq_iff_iff, List.contains_iff_mem, Table.has_iff]

theorem drafted_resolveType {known : Table Message} {m : Message} {t : FieldType}
    (h : t.Drafted known m) : (resolveType known.names t).Drafted known m := by
  unfold resolveType
  split
  · split
    · rename_i n hn
      rw [contains_names] at hn
      exact hn
    · trivial
  · exact h

theorem drafted_resolveMessage {known : Table Message} {m : Message} (h : m.Drafted N known)
    (ignored : NameSet) : (resolveMessage known.names ignored m).Drafted N known := by
  refine (h.retainFields _).updateFields (fun _ => rfl) fun x _ hx => ?_
  refine { hx with
    type := drafted_resolveType hx.type
    keyType := fun key hkey => ?_
    map_repeated := fun hm => hx.map_repeated (by simpa [Field.isMap] using hm) }
  obtain ⟨k, hk, rfl⟩ := Option.mem_map.1 hkey
  rw [hx.keyType k hk]
  rfl

/-- A message that has nothing dangling has no references left. -/
theorem settled_of_danglingFields {known : Table Message} {m : Message} (h : m.Drafted N known)
    (hm : danglingFields m = []) : Settled N known m := by
  refine ⟨h, fun x hx n hn => ?_⟩
  have := List.filterMap_eq_nil_iff.1 hm x hx
  rw [hn] at this
  cases this

/-! ## Removing enums -/

theorem foldl_removeEnum (removed : NameSet) (m : Message) :
    removed.foldl Message.removeEnum m
      = { m with enums := m.enums.filter fun e => !removed.contains e.1 } := by
  induction removed generalizing m with
  | nil =>
    cases m
    simp
  | cons n removed ih =>
    rw [List.foldl_cons, ih, Message.removeEnum, Table.erase, List.filter_filter]
    refine congrArg (fun enums => { m with enums }) (List.filter_congr fun e _ => ?_)
    rw [List.contains_cons, Bool.not_or, Bool.and_comm]
    by_cases hn : e.1 = n <;> simp [hn]

theorem hasEnum_filter (enums : Table Message) (removed : NameSet) (n : String) :
    Table.has (enums.filter fun e => !removed.contains e.1) n
      = (enums.has n && !removed.contains n) := by
  rw [← Table.isSome_get?, Table.get?_filter (!removed.contains ·), ← Table.isSome_get?]
  cases removed.contains n <;> simp

theorem withoutEnums_nil (t : FieldType) : withoutEnums [] t = t := by
  cases t <;> simp [withoutEnums]

theorem drafted_withoutEnums {known : Table Message} {m : Message} {t : FieldType}
    (h : t.Drafted known m) (removed : NameSet) : (withoutEnums removed t).Drafted known m := by
  unfold withoutEnums
  split
  · split
    · exact fun h => Primitive.noConfusion h
    · exact h
  · exact h

theorem eq_enum_of_withoutEnums {removed : NameSet} {t : FieldType} {n : String}
    (h : withoutEnums removed t = .enum n) : t = .enum n ∧ removed.contains n = false := by
  unfold withoutEnums at h
  split at h
  · rename_i n'
    split at h
    · cases h
    · rename_i hn
      cases h
      exact ⟨rfl, by simpa using hn⟩
  · rename_i hne
    exact absurd h (hne n)

/-- A field whose type is a string instead of an enum that was removed. -/
def stripEnums (removed : NameSet) (f : Field) : Field :=
  { f with type := withoutEnums removed f.type }

theorem removeEnums_eq (removed : NameSet) (m : Message) :
    Conversion.removeEnums removed m = { m.updateFields (stripEnums removed) with
      enums := m.enums.filter fun e => !removed.contains e.1 } := by
  rw [Conversion.removeEnums, foldl_removeEnum]
  rfl

theorem Settled.removeEnums {known : Table Message} {m : Message} (h : Settled N known m)
    (removed : NameSet) : Settled N known (removeEnums removed m) := by
  -- the types change first; then no field has one of the enums that go
  have hchanged : (m.updateFields (stripEnums removed)).Drafted N known :=
    h.drafted.updateFields (fun _ => rfl) fun x _ hx =>
      { hx with type := drafted_withoutEnums hx.type removed, map_repeated := hx.map_repeated }
  rw [removeEnums_eq]
  refine ⟨hchanged.filterEnums fun x hx n hn => ?_, fun x hx n hn => ?_⟩
  · obtain ⟨y, hy, rfl⟩ := Message.mem_updateFields.1 hx
    obtain ⟨hyn, hnot⟩ := eq_enum_of_withoutEnums hn
    have hy := (h.drafted.fields y hy).type
    rw [hyn] at hy
    exact (hasEnum_filter m.enums removed n).trans (Bool.and_eq_true_iff.2 ⟨hy, by rw [hnot]; rfl⟩)
  · obtain ⟨y, hy, rfl⟩ := Message.mem_updateFields.1 hx
    refine h.resolved y hy n ?_
    change withoutEnums removed y.type = .reference n at hn
    unfold withoutEnums at hn
    split at hn
    · split at hn <;> cases hn
    · exact hn

theorem Settled.removeConflicts {known : Table Message} {m : Message} (h : Settled N known m) :
    Settled N known (removeConflicts m) := by
  unfold Conversion.removeConflicts
  dsimp only
  split
  · exact h
  · exact h.removeEnums _

theorem Settled.mono {known known' : Table Message} {m : Message} (h : Settled N known m)
    (hknown : ∀ n, known.has n = true → known'.has n = true) : Settled N known' m :=
  ⟨h.drafted.mono hknown, h.resolved⟩

/-! ## The file -/

/-- The messages of a workspace with their references resolved. -/
def resolvedMessages (ignored : NameSet) (w : Workspace) : Table Message :=
  w.messages.mapValues (resolveMessage w.messages.names ignored)

/-- The messages of the file that is made of a workspace. -/
def finalMessages (ignored : NameSet) (w : Workspace) : Table Message :=
  (resolvedMessages ignored w).mapValues removeConflicts

/-- The messages and services made of a document. -/
def buildAll (opts : Options) (d : Document) : Build (Table Service) := do
  d.schemas.forM (addSchema opts)
  d.resources.foldlM (addService opts d) []

theorem bind_eq_ok_iff {α β : Type} {x : Build α} {f : α → Build β} {b : β} :
    (x >>= f) w = .ok b w' ↔ ∃ a w₁, x w = .ok a w₁ ∧ f a w₁ = .ok b w' := by
  change EStateM.bind x f w = _ ↔ _
  rw [EStateM.bind]
  cases x w <;> simp

/-- A computation succeeds, and its result and the workspace that it leaves pass a test. -/
def passes {α : Type} (x : Build α) (w : Workspace) (p : α → Workspace → Bool) : Bool :=
  match x w with
  | .ok a w' => p a w'
  | .error .. => false

theorem exists_eq_ok_of_passes {α : Type} {x : Build α} {p : α → Workspace → Bool}
    (h : passes x w p = true) : ∃ a w', x w = .ok a w' ∧ p a w' = true := by
  unfold passes at h
  split at h
  · rename_i a w' hx
    exact ⟨a, w', hx, h⟩
  · cases h

theorem leads_buildAll (opts : Options) {d : Document} (hN : N.AdmitsDocument d)
    (w : Workspace) : Leads N (buildAll opts d) w fun services _ => ServicesDrafted N services := by
  refine Leads.bind (Leads.forM fun entry hentry w' _ =>
    leads_addSchema (Schema.allTable_iff.1 hN.schemas entry hentry)) fun _ w₁ _ _ => ?_
  exact Leads.foldlM (fun resource hresource services w' _ hs =>
    leads_addService (hN.resources resource hresource) hs) ⟨.nil _, by simp [Table.values]⟩

theorem get_bind_apply {α : Type} (f : Workspace → Build α) (w : Workspace) :
    (get >>= f) w = f w w := rfl

/-- A workspace with all references resolved. -/
def resolvedWorkspace (ignored : NameSet) (w : Workspace) : Workspace :=
  { w with
    messages := resolvedMessages ignored w
    log := w.log ++ w.messages.values.flatMap (droppedFields w.messages.names ignored) }

theorem resolveReferences_apply (ignored : NameSet) (services : Table Service) (w : Workspace) :
    resolveReferences ignored services w =
      match (resolvedMessages ignored w).values.flatMap danglingFields
        ++ services.values.flatMap (danglingRpcs w.messages.names) with
      | [] => .ok () (resolvedWorkspace ignored w)
      | uses => .error (.danglingReferences uses) (resolvedWorkspace ignored w) := by
  rw [resolveReferences, get_bind_apply]
  change (match (resolvedMessages ignored w).values.flatMap danglingFields
        ++ services.values.flatMap (danglingRpcs w.messages.names) with
      | [] => pure ()
      | uses => throw (.danglingReferences uses) : Build Unit) (resolvedWorkspace ignored w) = _
  cases (resolvedMessages ignored w).values.flatMap danglingFields
    ++ services.values.flatMap (danglingRpcs w.messages.names) <;> rfl

theorem resolveReferences_eq_ok {ignored : NameSet} {services : Table Service} {a : Unit}
    (h : resolveReferences ignored services w = .ok a w') :
    (∀ m ∈ (resolvedMessages ignored w).values, danglingFields m = []) ∧
    (∀ s ∈ services.values, danglingRpcs w.messages.names s = []) ∧
    w' = resolvedWorkspace ignored w := by
  rw [resolveReferences_apply] at h
  split at h
  · rename_i hnone
    obtain ⟨hfields, hrpcs⟩ := List.append_eq_nil_iff.1 hnone
    cases h
    exact ⟨List.flatMap_eq_nil_iff.1 hfields, List.flatMap_eq_nil_iff.1 hrpcs, rfl⟩
  · cases h

theorem fileOf_eq_ok {opts : Options} {d : Document} {f : File}
    (h : fileOf opts d w = .ok f w') :
    ∃ services w₁, buildAll opts d w = .ok services w₁ ∧
      (∀ m ∈ (resolvedMessages opts.ignoredNames w₁).values, danglingFields m = []) ∧
      (∀ s ∈ services.values, danglingRpcs w₁.messages.names s = []) ∧
      w'.registry = w₁.registry ∧
      f = {
        package := packageName opts d
        messages := finalMessages opts.ignoredNames w₁
        services := addOperations (finalMessages opts.ignoredNames w₁) services
        settings := w₁.resources
        source := sourceOf d } := by
  obtain ⟨_, w₀, hschemas, h⟩ := bind_eq_ok_iff.1 h
  obtain ⟨services, w₁, hservices, h⟩ := bind_eq_ok_iff.1 h
  obtain ⟨_, w₂, hresolve, h⟩ := bind_eq_ok_iff.1 h
  obtain ⟨hfields, hrpcs, rfl⟩ := resolveReferences_eq_ok hresolve
  cases h
  exact ⟨services, w₁, bind_eq_ok_iff.2 ⟨_, w₀, hschemas, hservices⟩, hfields, hrpcs, rfl, rfl⟩

/-- A file whose types and rpcs are all known. -/
structure SettledFile (N : Naming) (f : File) : Prop where
  named : f.messages.Named Message.name
  messages : ∀ m ∈ f.messages.values, Settled N f.messages m
  namedServices : f.services.Named Service.name
  services : ∀ s ∈ f.services.values, s.Drafted N f.services
  rpcs : ∀ s ∈ f.services.values, ∀ r ∈ s.rpcs.values,
    f.messages.has r.input = true ∧ f.messages.has r.output = true
  settings : ∀ s ∈ f.settings, s.Drafted []

theorem wellFormed_of_drafted {known : Table Message} {m : Message} (h : m.Drafted N known) :
    m.WellFormed := by
  refine .intro h.distinct h.named fun e he => ?_
  have henum := h.enums e he
  refine .intro henum.distinct ?_ (by simp [henum.no_enums])
  rw [henum.no_enums]
  exact .nil _

theorem SettledFile.wellFormed {f : File} (h : SettledFile N f) : f.WellFormed where
  messages := h.named
  wellFormed m hm := wellFormed_of_drafted (h.messages m hm).drafted
  services := h.namedServices
  rpcs s hs := (h.services s hs).named

theorem has_finalMessages (ignored : NameSet) (w : Workspace) (n : String) :
    (finalMessages ignored w).has n = w.messages.has n := by
  simp [finalMessages, resolvedMessages]

theorem name_removeConflicts (m : Message) : (removeConflicts m).name = m.name := by
  unfold removeConflicts
  dsimp only
  split
  · rfl
  · rw [removeEnums_eq]
    rfl

theorem named_finalMessages {ignored : NameSet} (hw : Sound N w) :
    (finalMessages ignored w).Named Message.name :=
  (hw.named.mapValues (resolveMessage _ ignored) fun _ => rfl).mapValues _ name_removeConflicts

theorem settled_finalMessages {ignored : NameSet} (hw : Sound N w)
    (hdangling : ∀ m ∈ (resolvedMessages ignored w).values, danglingFields m = []) :
    ∀ m ∈ (finalMessages ignored w).values, Settled N (finalMessages ignored w) m := by
  intro m hm
  rw [finalMessages, Table.values_mapValues] at hm
  obtain ⟨m₁, hm₁, rfl⟩ := List.mem_map.1 hm
  have hnone := hdangling m₁ hm₁
  rw [resolvedMessages, Table.values_mapValues] at hm₁
  obtain ⟨m₀, hm₀, rfl⟩ := List.mem_map.1 hm₁
  have hsettled := settled_of_danglingFields (drafted_resolveMessage (hw.messages m₀ hm₀) ignored)
    hnone
  exact hsettled.removeConflicts.mono fun n hn => by rwa [has_finalMessages]

/-- What is said about operations names a service that is polled for them. -/
theorem drafted_operationSettings {services : Table Service} (messages : Table Message)
    {operationServices : NameSet} (h : ∀ n ∈ operationServices, services.has n = true)
    (service : String) (r : Rpc) :
    ∀ s ∈ operationSettings messages operationServices service r, s.Drafted services := by
  have hpolling : (Setting.scalar Setting.operationPolling (.bool true)).Drafted services :=
    Setting.drafted_of_ne (by decide) (by decide)
  have hword : Lexeme.isWord Setting.operationService = true := by decide
  have htarget : ∀ target ∈ operationServices,
      (Setting.string Setting.operationService target).Drafted services := fun target ht =>
    ⟨⟨hword, trivial⟩, fun _ => ⟨target, rfl, h target ht⟩⟩
  unfold operationSettings
  dsimp only
  split
  · split <;> simp [hpolling]
  · split
    · split
      · rename_i ht
        simpa using htarget _ (List.contains_iff_mem.1 ht)
      · simp
    · simp

theorem drafted_withOperations {services : Table Service} {s : Service} (hs : s.Drafted N [])
    (messages : Table Message) {operationServices : NameSet}
    (h : ∀ n ∈ operationServices, services.has n = true) :
    (withOperations messages operationServices s).Drafted N services := by
  refine ⟨hs.name, hs.settings, ?_, fun r hr => ?_⟩
  · rw [withOperations]
    dsimp only
    exact hs.named.mapValues _ fun _ => rfl
  · rw [withOperations, Table.values_mapValues] at hr
    obtain ⟨r₀, hr₀, rfl⟩ := List.mem_map.1 hr
    refine ⟨(hs.rpcs r₀ hr₀).name, fun x hx => ?_⟩
    rcases List.mem_append.1 hx with hx | hx
    · exact ((hs.rpcs r₀ hr₀).settings x hx).mono (by simp)
    · exact drafted_operationSettings messages h _ _ x hx

/-- An rpc that has nothing dangling has its messages. -/
theorem has_of_danglingRpcs {known : Table Message} {s : Service}
    (h : danglingRpcs known.names s = []) :
    ∀ r ∈ s.rpcs.values, known.has r.input = true ∧ known.has r.output = true := by
  intro r hr
  have hnone := List.map_eq_nil_iff.1 (List.flatMap_eq_nil_iff.1 h r hr)
  have hall : ∀ name ∈ [r.input, r.output], known.has name = true := by
    simpa [List.filter_eq_nil_iff, Table.has_iff] using hnone
  exact ⟨hall _ (by simp), hall _ (by simp)⟩

/-- The file of a conversion that succeeds is settled. -/
theorem settled_of_fileOf {opts : Options} {d : Document} (hN : N.AdmitsDocument d)
    {registry : Registry} (hr : registry.Allowed N) {f : File}
    (h : fileOf opts d { registry } = .ok f w') : SettledFile N f := by
  obtain ⟨services, w₁, hbuild, hfields, hrpcs, -, rfl⟩ := fileOf_eq_ok h
  have hled := (leads_buildAll opts hN { registry }).run hr
  rw [hbuild] at hled
  obtain ⟨hsteps, hnamed, hdrafted⟩ := hled
  have hw := Steps.sound hsteps (sound_start registry)
  refine {
    named := named_finalMessages hw
    messages := settled_finalMessages hw hfields
    namedServices := hnamed.mapValues _ fun _ => rfl
    services := fun s hs => ?_
    rpcs := fun s hs r hr => ?_
    settings := hw.resources }
  · rw [addOperations, Table.values_mapValues] at hs
    obtain ⟨s₀, hs₀, rfl⟩ := List.mem_map.1 hs
    refine drafted_withOperations (hdrafted s₀ hs₀) _ fun n hn => ?_
    rw [addOperations, Table.has_mapValues, Table.has_iff]
    exact (List.mem_filter.1 hn).1
  · rw [addOperations, Table.values_mapValues] at hs
    obtain ⟨s₀, hs₀, rfl⟩ := List.mem_map.1 hs
    rw [withOperations, Table.values_mapValues] at hr
    obtain ⟨r₀, hr₀, rfl⟩ := List.mem_map.1 hr
    dsimp only
    rw [has_finalMessages, has_finalMessages]
    exact has_of_danglingRpcs (hrpcs s₀ hs₀) r₀ hr₀

end Conversion

end DiscoveryGrpc
