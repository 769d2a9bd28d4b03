import DiscoveryGrpc.Proofs.Conversion.Replay
import DiscoveryGrpc.Proofs.Run.Basic

/-!
# Running again with what a run exported

The configuration that a run exports has the names that it gave, by location. A run of the same
document that begins with it repeats the conversion, and since the registrations are the same it
exports the same configuration: what a run gives is a fixed point (`convert_exported`).

The one thing to ask of the document is that its inline objects stand at different paths. Two at
one path could not both be registered, but one of them may be passed through, and would then be
given the name of the other.
-/

namespace DiscoveryGrpc

open Proto Api

namespace Conversion

variable {w w' : Workspace}

/-! ## Services -/

theorem replays_addResource (document flatPath : String) :
    Replays [] (addResource document flatPath) := by
  unfold addResource
  split
  · split
    · exact replays_note _
    · dsimp only
      refine (Replays.blind_mapM fun c _ => .lift _).blind_bind fun patterns => ?_
      refine (Replays.lift _).blind_bind fun type => .of_blind fun {w _ _} h => ?_
      rw [get_bind_apply] at h
      split at h
      · rename_i hdefined
        cases h
        exact ⟨rfl, fun names => congrFun (if_pos hdefined) (w.reload names)⟩
      · rename_i hnew
        cases h
        exact ⟨rfl, fun names => congrFun (if_neg hnew) (w.reload names)⟩
  · exact .pure _

theorem replays_outputOf (emptyName description : String) (response : Option Schema) :
    Replays [] (outputOf emptyName description response) := by
  cases response with
  | none => exact (replays_addMessage _).blind_bind fun _ => .pure _
  | some s => exact .lift _

theorem replays_rpcOf (opts : Options) (document : Document) (service : String) (m : Method) :
    Replays (Schema.inlinePathsOfTable m.parameters) (rpcOf opts document service m) := by
  refine (Replays.lift _).blind_bind fun verb => (Replays.lift _).blind_bind fun collection => ?_
  dsimp only
  refine (replays_addProperties opts m.parameters _).bind_blind fun request => ?_
  refine (Replays.lift _).blind_bind fun r => (replays_addMessage _).blind_bind fun _ => ?_
  refine (replays_outputOf _ _ _).blind_bind fun output => (Replays.lift _).blind_bind fun http => ?_
  refine (Replays.lift _).blind_bind fun signature => ?_
  split
  · exact (replays_addResource _ _).blind_bind fun _ => .pure _
  · exact .pure _

theorem replays_addMethod (opts : Options) (document : Document) (service : String) (d : Draft)
    (m : Method) :
    Replays (Schema.inlinePathsOfTable m.parameters) (addMethod opts document service d m) := by
  unfold addMethod
  split
  · exact ((replays_note _).blind_bind fun _ => .pure _).weaken (List.nil_sublist _)
  · exact (replays_rpcOf opts document service m).bind_blind fun _ => .pure _

theorem replays_addService (opts : Options) (document : Document) (services : Table Service)
    (resource : String × List Method) :
    Replays (resource.2.flatMap fun m => Schema.inlinePathsOfTable m.parameters)
      (addService opts document services resource) := by
  obtain ⟨key, methods⟩ := resource
  refine (Replays.lift _).blind_bind fun name => ?_
  split
  · exact ((replays_note _).blind_bind fun _ => .pure _).weaken (List.nil_sublist _)
  · refine (Replays.lift _).blind_bind fun version => ?_
    refine (Replays.foldlM (fun m _ d => replays_addMethod opts document name d m) _).bind_blind
      fun draft => ?_
    split
    · exact .pure _
    · exact .pure _

/-! ## The file -/

theorem replays_addSchema (opts : Options) (entry : String × Schema) :
    Replays entry.2.nestedInlinePaths (addSchema opts entry) := by
  obtain ⟨key, s⟩ := entry
  unfold addSchema
  dsimp only
  split
  · exact (replays_note _).weaken (List.nil_sublist _)
  · split
    · exact (replays_note _).weaken (List.nil_sublist _)
    · refine (Replays.lift _).blind_bind fun name => ?_
      refine Replays.weaken ((replays_addProperties opts s.properties _).bind_blind fun m => ?_)
        (List.sublist_append_left _ _)
      exact (replays_addMessage m).blind_bind fun _ => .pure _

theorem replays_resolveReferences (ignored : NameSet) (services : Table Service) :
    Replays [] (resolveReferences ignored services) :=
  .of_blind fun {w _ _} h => by
    have hagain := fun names => resolveReferences_apply ignored services (w.reload names)
    simp only [resolvedMessages, Workspace.reload] at hagain
    rw [resolveReferences_apply] at h
    split at h
    · rename_i hnone
      cases h
      rw [resolvedMessages] at hnone
      refine ⟨rfl, fun names => ?_⟩
      rw [Workspace.reload, hagain, hnone]
      rfl
    · cases h

theorem replays_removeConflictingEnums : Replays [] removeConflictingEnums :=
  .modify (fun _ => rfl) fun _ _ => rfl

theorem replays_fileOf (opts : Options) (d : Document) : Replays d.inlinePaths (fileOf opts d) := by
  refine (Replays.forM fun entry _ => replays_addSchema opts entry).bind fun _ => ?_
  refine (Replays.foldlM (fun resource _ services =>
    replays_addService opts d services resource) _).bind_blind fun services => ?_
  refine (replays_resolveReferences _ _).blind_bind fun _ => ?_
  refine replays_removeConflictingEnums.blind_bind fun _ => ?_
  exact .of_blind fun h => by
    cases h
    exact ⟨rfl, fun _ => rfl⟩

end Conversion

/-! ## The run -/

namespace Registry

/-- The registry with the names of what was registered configured. -/
def reloaded (r : Registry) : Registry :=
  { r with configured := r.registrations.mapValues (·.name) }

theorem agrees_of_drift {r : Registry} (h : r.drift = []) (ps : List String) :
    r.Agrees ps (r.registrations.mapValues (·.name)) where
  names p _ := Table.get?_mapValues ..
  used p _ hnone := by
    by_contra hp
    obtain ⟨n, hn⟩ := Option.ne_none_iff_exists'.1 hp
    obtain ⟨g, hg⟩ := registered_of_drift h hn
    rw [hnone] at hg
    cases hg

/-- With the names of what was registered configured, nothing drifts that did not before. -/
theorem drift_reloaded {r : Registry} (h : r.drift = []) : r.reloaded.drift = [] := by
  have hunused : r.reloaded.unused = [] := by
    refine List.map_eq_nil_iff.2 (List.filter_eq_nil_iff.2 fun e he => ?_)
    obtain ⟨g, hg, -⟩ := Table.mem_mapValues.1 (show (e.1, e.2) ∈ _ from he)
    simp [reloaded, Table.has_of_mem hg]
  simp only [drift, List.append_eq_nil_iff] at h ⊢
  exact ⟨⟨⟨h.1.1.1, hunused⟩, h.1.2⟩, h.2⟩

theorem toConfig_reloaded {r : Registry} {version revision : String} {c : Config}
    (h : r.toConfig version revision = .ok c) : r.reloaded.toConfig version revision = .ok c := by
  obtain ⟨hdrift, rfl⟩ := toConfig_eq_ok_iff.1 h
  exact toConfig_eq_ok_iff.2 ⟨drift_reloaded hdrift, rfl⟩

end Registry

/-- Running again with the configuration that a run exported gives the same file and the same
configuration. -/
theorem convert_exported {input : Input} {d : Document} {o : Output}
    (hd : Document.ofText input.document = .ok d) (hpaths : d.inlinePaths.Nodup)
    (h : (convert input).1 = .ok o) :
    (convert { input with config? := some o.config }).1 = .ok o := by
  obtain ⟨d', registry, f, w, hd', hregistry, hf, hmerged, hconfig⟩ := convert_eq_ok_iff.1 h
  obtain rfl := Except.ok.inj (hd.symm.trans hd')
  obtain ⟨configured, rfl⟩ := exists_of_startingRegistry hregistry
  have hregistered := (Conversion.registered_of_fileOf hf).1
  have hdrift := (Registry.toConfig_eq_ok_iff.1 hconfig).1
  -- the conversion is repeated with the names that it registered
  have hreplayed := (Conversion.replays_fileOf input.options d).run hpaths (fun _ _ => rfl) hf
  have hagain := hreplayed.again _ (Registry.agrees_of_drift hdrift d.inlinePaths)
  exact convert_eq_ok_iff.2 ⟨d, _, f, _, hd, Registry.ofConfig_of_toConfig hregistered.sorted hconfig,
    hagain, hmerged, Registry.toConfig_reloaded hconfig⟩

/-- A document in which the second of two equal inline objects takes the name of the first. -/
def flowingLakes : String :=
  lakesDocument [("Lake", objectSchema
    [("inflow", objectSchema [("width", .object [("type", .string "number")])]),
      ("outflow", objectSchema [("width", .object [("type", .string "number")])])])]

theorem convert_exported_flowingLakes :
    ∃ d o, Document.ofText flowingLakes = .ok d ∧
      d.inlinePaths = ["schemas.Lake.inflow", "schemas.Lake.outflow"] ∧
      (convert { document := flowingLakes }).1 = .ok o ∧ o.config.uses.length = 2 ∧
      (convert { document := flowingLakes, config? := some o.config }).1 = .ok o := by
  have hspells : Json.Spells flowingLakes _ := Json.spells_compact (by
    simp [Json.Printable, Json.PrintableMembers, objectSchema])
  obtain ⟨d, hd, hpaths⟩ : ∃ d, Document.ofText flowingLakes = .ok d ∧
      decide (d.inlinePaths = ["schemas.Lake.inflow", "schemas.Lake.outflow"]) = true :=
    exists_eq_ok_of_eq (Document.ofText_of_spells hspells) (by decide +kernel)
  obtain ⟨o, ho, huses⟩ : ∃ o, (convert { document := flowingLakes }).1 = .ok o ∧
      decide (o.config.uses.length = 2) = true :=
    exists_eq_ok_of_eq (convert_of_spells hspells) (by decide +kernel)
  have hpaths := of_decide_eq_true hpaths
  have hnodup : d.inlinePaths.Nodup := by
    rw [hpaths]
    decide +kernel
  exact ⟨d, o, hd, hpaths, ho, of_decide_eq_true huses,
    @convert_exported { document := flowingLakes } d o hd hnodup ho⟩

end DiscoveryGrpc
