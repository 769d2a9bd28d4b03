import DiscoveryGrpc.Proofs.Config.Drift
import DiscoveryGrpc.Proofs.Conversion.Sharing
import DiscoveryGrpc.Proofs.Run.Chain

/-!
# One message for all uses of an inline schema

A registry without a configuration may serve any number of conversions, of which some may fail. All
registrations of one inline schema in it have the same name (`shared_of_convertAll`), because every
part of a conversion registers schemas under their first names. So an export may find other
problems, but never a schema with several names.

This is about what is registered: a location that is used twice is recorded once, and the second
use of it is a problem of its own.
-/

namespace DiscoveryGrpc

open Proto Api

namespace Conversion

variable {P : String → Prop}

/-! ## Services -/

theorem registers_addResource (document flatPath : String) :
    Registers P (addResource document flatPath) := by
  unfold addResource
  split
  · split
    · exact registers_note _
    · dsimp only
      refine (Registers.mapM fun c _ => .lift _).bind fun patterns => ?_
      refine (Registers.lift _).bind fun type => .of_same fun w => ?_
      change registryAfter (if w.resources.any _ then _ else _) w = w.registry
      split <;> rfl
  · exact .pure _

theorem registers_outputOf (emptyName description : String) (response : Option Schema) :
    Registers P (outputOf emptyName description response) := by
  cases response with
  | none => exact (registers_addMessage _).bind fun _ => .pure _
  | some s => exact .lift _

theorem registers_rpcOf (opts : Options) (document : Document) (service : String) {m : Method}
    (hm : ∀ s ∈ Table.values m.parameters, s.Tapered) :
    Registers (fun _ => True) (rpcOf opts document service m) := by
  refine (Registers.lift _).bind fun verb => (Registers.lift _).bind fun collection => ?_
  dsimp only
  refine (registers_addProperties opts m.parameters _ fun s hs =>
    ⟨hm s hs, fun _ _ => trivial⟩).bind fun request => ?_
  refine (Registers.lift _).bind fun r => (registers_addMessage _).bind fun _ => ?_
  refine (registers_outputOf _ _ _).bind fun output => (Registers.lift _).bind fun http => ?_
  refine (Registers.lift _).bind fun signature => ?_
  split
  · exact (registers_addResource _ _).bind fun _ => .pure _
  · exact .pure _

theorem registers_addService (opts : Options) (document : Document) (services : Table Service)
    {resource : String × List Method}
    (h : ∀ m ∈ resource.2, ∀ s ∈ Table.values m.parameters, s.Tapered) :
    Registers (fun _ => True) (addService opts document services resource) := by
  obtain ⟨key, methods⟩ := resource
  refine (Registers.lift _).bind fun name => ?_
  have hmethod (d : Draft) (m : Method) (hm : m ∈ methods) :
      Registers (fun _ => True) (addMethod opts document name d m) := by
    unfold addMethod
    split
    · exact (registers_note _).bind fun _ => .pure _
    · exact (registers_rpcOf opts document name (h m hm)).bind fun _ => .pure _
  split
  · exact (registers_note _).bind fun _ => .pure _
  · refine (Registers.lift _).bind fun version => ?_
    refine (Registers.foldlM (fun m hm d => hmethod d m hm) _).bind fun draft => ?_
    split
    · exact .pure _
    · exact .pure _

/-! ## Documents -/

theorem registers_addSchema (opts : Options) {entry : String × Schema} (h : entry.2.Tapered) :
    Registers (fun _ => True) (addSchema opts entry) := by
  obtain ⟨key, s⟩ := entry
  unfold addSchema
  dsimp only
  split
  · exact registers_note _
  · split
    · exact registers_note _
    · refine (Registers.lift _).bind fun name => ?_
      refine (registers_addProperties opts s.properties _ fun c hc =>
        ⟨h.nested (.inl hc), fun _ _ => trivial⟩).bind fun m => ?_
      exact (registers_addMessage m).bind fun _ => .pure _

theorem registers_resolveReferences (ignored : NameSet) (services : Table Service) :
    Registers P (resolveReferences ignored services) :=
  .of_same fun w => by
    rw [registryAfter, resolveReferences_apply]
    split <;> rename_i heq <;> split at heq <;> cases heq <;> rfl

theorem registers_fileOf (opts : Options) {d : Document} (hd : d.Tapered) :
    Registers (fun _ => True) (fileOf opts d) := by
  refine (Registers.forM fun entry hentry =>
    registers_addSchema opts (hd.schemas entry.2 (Table.mem_values_of_mem hentry))).bind fun _ => ?_
  refine (Registers.foldlM (fun resource hresource services =>
    registers_addService opts d services (hd.parameters resource hresource)) _).bind
      fun services => ?_
  refine (registers_resolveReferences _ _).bind fun _ => ?_
  have hremove : Registers (fun _ => True) removeConflictingEnums := .modify fun _ => rfl
  exact hremove.bind fun _ => .get_bind fun w => (registers_note _).bind fun _ => .pure _

/-- A conversion keeps the registry uniform, whether it succeeds or fails. -/
theorem uniform_run (opts : Options) {d : Document} (hd : d.Tapered) {r : Registry}
    (hr : r.Uniform) : (run opts d r).registry.Uniform := by
  have hrun := (registers_fileOf opts hd).run { registry := r }
  have hregistry : (run opts d r).registry = registryAfter (fileOf opts d) { registry := r } := by
    rw [run, registryAfter, EStateM.run]
    cases fileOf opts d { registry := r } <;> rfl
  rw [hregistry]
  exact hrun.uniform hr

end Conversion

/-! ## Exporting -/

namespace Registry

variable {r : Registry}

/-- In a uniform registry a schema has one name. -/
theorem Uniform.name_eq (h : r.Uniform) {e e' : String × Registration}
    (he : e ∈ r.registrations) (he' : e' ∈ r.registrations) (hschema : e.2.schema = e'.2.schema) :
    e.2.name = e'.2.name := by
  have hnames := h.names e he
  rw [hschema, h.names e' he'] at hnames
  exact (Option.some.inj hnames).symm

theorem Uniform.manyNames_eq_nil (h : r.Uniform) : r.manyNames = [] := by
  rw [manyNames_eq, Config.manyNamesOf_eq_nil_iff]
  simp only [uses, List.forall_mem_map]
  exact fun e he e' he' hschema => h.name_eq he he' hschema

/-- In a uniform registry no schema with several names is found. -/
theorem Uniform.not_mem_drift (h : r.Uniform) (names : List (String × List String)) :
    Config.Drift.manyNames names ∉ r.drift := by
  rw [drift, h.manyNames_eq_nil, List.append_nil]
  simp only [List.mem_append, not_or]
  refine ⟨⟨fun hproblem => ?_, ?_⟩, ?_⟩
  · obtain ⟨_, _, _, hp⟩ := h.problems _ hproblem
    cases hp
  · simp [unused]
  · simp only [sharedNames, List.mem_filterMap]
    rintro ⟨e, -, he⟩
    split at he <;> cases he

end Registry

namespace Conversion

/-- The registry after documents were converted with it, one after another. -/
def convertAll (runs : List (Options × Document)) : Registry :=
  runs.foldl (fun r x => (run x.1 x.2 r).registry) .empty

theorem uniform_convertAll {runs : List (Options × Document)}
    (h : ∀ x ∈ runs, ∃ text, Document.ofText text = .ok x.2) : (convertAll runs).Uniform := by
  refine List.foldlRecOn runs _ Registry.uniform_empty fun r hr x hx => ?_
  obtain ⟨text, htext⟩ := h x hx
  exact uniform_run x.1 (Document.tapered_of_ofText htext) hr

/-- When documents are converted one after another with a registry that began empty, all
registrations of one inline schema have the same name, which it would get at any other location,
too; and no export finds an inline schema with several names. -/
theorem shared_of_convertAll {runs : List (Options × Document)}
    (h : ∀ x ∈ runs, ∃ text, Document.ofText text = .ok x.2) :
    (∀ e ∈ (convertAll runs).registrations, ∀ e' ∈ (convertAll runs).registrations,
      e.2.schema = e'.2.schema → e.2.name = e'.2.name) ∧
    (∀ e ∈ (convertAll runs).registrations, ∀ location default,
      (convertAll runs).messageName location e.2.schema default = e.2.name) ∧
    ∀ version revision problems,
      (convertAll runs).toConfig version revision = .error (.configDrift problems) →
      ∀ names, Config.Drift.manyNames names ∉ problems := by
  have huniform := uniform_convertAll h
  refine ⟨fun e he e' he' => huniform.name_eq he he', fun e he location default => ?_,
    fun version revision problems hproblems names => ?_⟩
  · rw [huniform.messageName_eq, huniform.names e he, Option.getD_some]
  · by_cases hdrift : (convertAll runs).drift = []
    · rw [Registry.toConfig, hdrift] at hproblems
      cases hproblems
    · rw [Registry.toConfig_eq_error hdrift] at hproblems
      obtain rfl := Fault.configDrift.inj (Except.error.inj hproblems)
      exact huniform.not_mem_drift names

/-- A bay with a stream, and with something that has no type, so that its conversion fails. -/
def bayWithTributary : String :=
  lakesDocument [("Bay", objectSchema [("tributary", stream), ("wind", .object [])])]

theorem shared_of_convertAll_streams :
    ∃ d d' r, Document.ofText lakeWithStreams = .ok d ∧ Document.ofText bayWithTributary = .ok d' ∧
      r = convertAll [({}, d), ({}, d')] ∧
      (run {} d' (convertAll [({}, d)])).result = .error (.untyped "schemas.Bay.wind") ∧
      r.registrations.map (fun e => (e.1, e.2.name)) = [("schemas.Bay.tributary", "Inflow"),
        ("schemas.Lake.inflow", "Inflow"), ("schemas.Lake.outflow", "Inflow")] ∧
      (∀ e ∈ r.registrations, ∀ e' ∈ r.registrations,
        e.2.schema = e'.2.schema → e.2.name = e'.2.name) ∧
      (∀ e ∈ r.registrations, ∀ location default,
        r.messageName location e.2.schema default = e.2.name) ∧
      ∀ version revision problems, r.toConfig version revision = .error (.configDrift problems) →
        ∀ names, Config.Drift.manyNames names ∉ problems := by
  have hspells : Json.Spells lakeWithStreams _ := Json.spells_compact (by
    simp [Json.Printable, Json.PrintableMembers, objectSchema, stream])
  have hspells' : Json.Spells bayWithTributary _ := Json.spells_compact (by
    simp [Json.Printable, Json.PrintableMembers, objectSchema, stream])
  obtain ⟨d, hd, hnext⟩ : ∃ d, Document.ofText lakeWithStreams = .ok d ∧
      ((Document.ofText bayWithTributary).toOption.any fun d' =>
        decide (Except.fault? (run {} d' (convertAll [({}, d)])).result
          = some (.untyped "schemas.Bay.wind")) &&
        decide ((convertAll [({}, d), ({}, d')]).registrations.map (fun e => (e.1, e.2.name)) =
          [("schemas.Bay.tributary", "Inflow"), ("schemas.Lake.inflow", "Inflow"),
            ("schemas.Lake.outflow", "Inflow")])) = true := by
    rw [Document.ofText_of_spells hspells']
    exact exists_eq_ok_of_eq (Document.ofText_of_spells hspells) (by decide +kernel)
  obtain ⟨d', hd', hnext⟩ := exists_eq_ok hnext
  obtain ⟨hfault, hnames⟩ := Bool.and_eq_true_iff.1 hnext
  have hruns : ∀ x ∈ [(({}, d) : Options × Document), ({}, d')],
      ∃ text, Document.ofText text = .ok x.2 :=
    List.forall_mem_cons.2 ⟨⟨_, hd⟩, List.forall_mem_singleton.2 ⟨_, hd'⟩⟩
  exact ⟨d, d', _, hd, hd', rfl, Except.fault?_eq_some_iff.1 (of_decide_eq_true hfault),
    of_decide_eq_true hnames, shared_of_convertAll hruns⟩

end Conversion

end DiscoveryGrpc
