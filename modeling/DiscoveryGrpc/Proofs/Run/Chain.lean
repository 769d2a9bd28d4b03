import DiscoveryGrpc.Proofs.Run.Basic

/-!
# Names over chains of runs

In a chain every run is given the configuration that the run before it exported. The documents and
options may change from run to run in any way, and an earlier file may be merged into each.

A run that succeeds has registered every configured location, under the name that was configured,
because anything else is drift (`names_of_convert`). So along a chain a location never changes its
name, and every run has a message of this name (`Chain.names`).
-/

namespace DiscoveryGrpc

open Proto Api

/-- A location has a name in a configuration. -/
def Config.Names (c : Config) (location name : String) : Prop :=
  ∃ u ∈ c.uses, u.location = location ∧ u.name = name

instance (c : Config) (location name : String) : Decidable (c.Names location name) :=
  inferInstanceAs (Decidable (∃ u ∈ c.uses, u.location = location ∧ u.name = name))

/-! ## Merging -/

theorem Proto.Merge.has_mergeInto {names : NameSet} {p : Progress} (old : Message) {n : String}
    (h : p.messages.has n = true) : (mergeInto names p old).messages.has n = true := by
  unfold mergeInto
  split
  · exact h
  · dsimp only
    rw [Table.has_insert, h, Bool.or_true]

/-- Merging keeps all messages. -/
theorem Proto.File.has_merge {new : File} (old : File) {n : String}
    (h : new.messages.has n = true) : (new.merge old).1.messages.has n = true := by
  have hfold : ∀ (olds : List Message) (p : Merge.Progress), p.messages.has n = true →
      (olds.foldl (Merge.mergeInto new.messages.names) p).messages.has n = true := by
    intro olds
    induction olds with
    | nil => exact fun p hp => hp
    | cons old olds ih => exact fun p hp => ih _ (Merge.has_mergeInto old hp)
  exact hfold _ _ h

theorem has_mergedFile {f g : File} {proto? : Option String} (h : mergedFile f proto? = .ok g)
    {n : String} (hn : f.messages.has n = true) : g.messages.has n = true := by
  rcases mergedFile_eq_ok_iff.1 h with ⟨-, rfl⟩ | ⟨text, old, -, -, rfl⟩
  · exact hn
  · exact File.has_merge old hn

/-! ## One run -/

/-- What a run exports comes from a registry in which everything is registered under the name that
was configured and that a message of the file has. -/
theorem exists_registry_of_convert {input : Input} {o : Output} (h : (convert input).1 = .ok o) :
    ∃ (r : Registry) (version revision : String),
      startingRegistry input.config? = .ok { configured := r.configured } ∧
      r.Registered o.file.messages ∧ r.toConfig version revision = .ok o.config := by
  obtain ⟨d, registry, f, w, hd, hregistry, hf, hmerged, hconfig⟩ := convert_eq_ok_iff.1 h
  obtain ⟨configured, rfl⟩ := exists_of_startingRegistry hregistry
  obtain ⟨hregistered, rfl⟩ := Conversion.registered_of_fileOf hf
  refine ⟨w.registry, d.version, d.revision, hregistry, ?_, hconfig⟩
  exact { hregistered with has := fun p g hg => has_mergedFile hmerged (hregistered.has p g hg) }

/-- A location is registered under a name if and only if it has this name in what is exported. -/
theorem names_iff {r : Registry} {version revision : String} {c : Config}
    (hr : r.registrations.Sorted) (h : r.toConfig version revision = .ok c) {p n : String} :
    c.Names p n ↔ ∃ g, r.registrations.get? p = some g ∧ g.name = n := by
  constructor
  · rintro ⟨u, hu, rfl, rfl⟩
    exact ⟨_, Table.get?_of_mem hr ((Registry.mem_uses_of_toConfig h).1 hu), rfl⟩
  · rintro ⟨g, hg, rfl⟩
    exact ⟨⟨g.schema, g.name, p⟩, (Registry.mem_uses_of_toConfig h).2 (Table.mem_of_get? hg), rfl, rfl⟩

/-- The name of a location is that of a message. -/
theorem has_of_names {input : Input} {o : Output} (h : (convert input).1 = .ok o)
    {location name : String} (hn : o.config.Names location name) :
    o.file.messages.has name = true := by
  obtain ⟨r, version, revision, -, hr, hconfig⟩ := exists_registry_of_convert h
  obtain ⟨g, hg, rfl⟩ := (names_iff hr.sorted hconfig).1 hn
  exact hr.has _ g hg

/-- A location has one name. -/
theorem eq_of_names {input : Input} {o : Output} (h : (convert input).1 = .ok o)
    {location name other : String} (hn : o.config.Names location name)
    (ho : o.config.Names location other) : other = name := by
  obtain ⟨r, version, revision, -, hr, hconfig⟩ := exists_registry_of_convert h
  obtain ⟨g, hg, rfl⟩ := (names_iff hr.sorted hconfig).1 hn
  obtain ⟨g', hg', rfl⟩ := (names_iff hr.sorted hconfig).1 ho
  rw [hg] at hg'
  rw [Option.some.inj hg']

/-- A run that succeeds keeps every location of the configuration that it is given, with its
name. -/
theorem names_of_convert {input : Input} {c : Config} {o : Output}
    (h : (convert input).1 = .ok o) (hc : input.config? = some c) {location name : String}
    (hn : c.Names location name) : o.config.Names location name := by
  obtain ⟨r, version, revision, hstart, hr, hconfig⟩ := exists_registry_of_convert h
  obtain ⟨u, hu, rfl, rfl⟩ := hn
  rw [hc] at hstart
  obtain ⟨configured, hloaded, huses⟩ := Registry.exists_of_ofConfig hstart
  obtain rfl : r.configured = configured := congrArg Registry.configured hloaded
  -- without drift the location was used, and then under the configured name
  have hdrift := (Registry.toConfig_eq_ok_iff.1 hconfig).1
  obtain ⟨g, hg⟩ := Registry.registered_of_drift hdrift (huses u hu)
  exact (names_iff hr.sorted hconfig).2 ⟨g, hg, hr.configured _ g hg _ (huses u hu)⟩

/-! ## Chains -/

/-- Runs that succeed, each with the configuration that the run before it exported. -/
structure Chain (runs : List (Input × Output)) : Prop where
  succeed : ∀ r ∈ runs, (convert r.1).1 = .ok r.2
  follow : runs.IsChain fun a b => b.1.config? = some a.2.config

/-- A later configuration has all names of an earlier one. -/
def Keeps (a b : Input × Output) : Prop :=
  ∀ location name, a.2.config.Names location name → b.2.config.Names location name

instance : Trans Keeps Keeps Keeps := ⟨fun hab hbc _ _ h => hbc _ _ (hab _ _ h)⟩

theorem Chain.pairwise_keeps {runs : List (Input × Output)} (h : Chain runs) :
    runs.Pairwise Keeps := by
  refine List.isChain_iff_pairwise.1 (h.follow.imp_of_mem_imp fun a b ha hb hab => ?_)
  exact fun location name hn => names_of_convert (h.succeed b hb) hab hn

/-- Along a chain of runs a location keeps its one name, and every run from the first that has the
location on has a message of this name. -/
theorem Chain.names {runs : List (Input × Output)} (h : Chain runs) {i j : Nat} (hij : i ≤ j)
    (hj : j < runs.length) {location name : String}
    (hn : runs[i].2.config.Names location name) :
    runs[j].2.config.Names location name ∧
      (∀ other, runs[j].2.config.Names location other → other = name) ∧
      runs[j].2.file.messages.has name = true := by
  have hrun := h.succeed runs[j] (List.getElem_mem hj)
  have hlater : runs[j].2.config.Names location name := by
    rcases Nat.eq_or_lt_of_le hij with rfl | hlt
    · exact hn
    · exact List.pairwise_iff_getElem.1 h.pairwise_keeps i j (by omega) hj hlt _ _ hn
  exact ⟨hlater, fun other ho => eq_of_names hrun hlater ho, has_of_names hrun hlater⟩

/-- A stream, as an inline object. -/
def stream : Json := objectSchema [("width", .object [("type", .string "number")])]

/-- A lake with an inflow. -/
def lakeWithInflow : String := lakesDocument [("Lake", objectSchema [("inflow", stream)])]

/-- A lake with an inflow and an outflow. -/
def lakeWithStreams : String :=
  lakesDocument [("Lake", objectSchema [("inflow", stream), ("outflow", stream)])]

theorem Chain.names_inflow :
    ∃ o o', Chain [({ document := lakeWithInflow }, o),
        ({ document := lakeWithStreams, config? := some o.config }, o')] ∧
      o.config.Names "schemas.Lake.inflow" "Inflow" ∧
      o'.config.Names "schemas.Lake.inflow" "Inflow" ∧ o'.file.messages.has "Inflow" = true := by
  have hspells : Json.Spells lakeWithInflow _ := Json.spells_compact (by
    simp [Json.Printable, Json.PrintableMembers, objectSchema, stream])
  have hspells' : Json.Spells lakeWithStreams _ := Json.spells_compact (by
    simp [Json.Printable, Json.PrintableMembers, objectSchema, stream])
  have hagain (c : Config) : (convert { document := lakeWithStreams, config? := some c }).1 = _ :=
    convert_of_spells hspells'
  obtain ⟨o, ho, hlater⟩ : ∃ o, (convert { document := lakeWithInflow }).1 = .ok o ∧
      (decide (o.config.Names "schemas.Lake.inflow" "Inflow")
        && (convert { document := lakeWithStreams, config? := some o.config }).1.toOption.any
          fun _ => true) = true := by
    simp only [hagain]
    exact exists_eq_ok_of_eq (convert_of_spells hspells) (by decide +kernel)
  obtain ⟨hn, hlater⟩ := Bool.and_eq_true_iff.1 hlater
  obtain ⟨o', ho', -⟩ := exists_eq_ok hlater
  have hn := of_decide_eq_true hn
  have hchain : Chain [({ document := lakeWithInflow }, o),
      ({ document := lakeWithStreams, config? := some o.config }, o')] :=
    ⟨by simp [ho, ho'], by simp⟩
  obtain ⟨hn', -, hmessage⟩ := hchain.names (Nat.zero_le 1) (by simp) hn
  exact ⟨o, o', hchain, hn, hn', hmessage⟩

end DiscoveryGrpc
