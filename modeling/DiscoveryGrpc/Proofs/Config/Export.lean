import DiscoveryGrpc.Proofs.Table
import DiscoveryGrpc.Config.Registry

/-!
# What is exported is loaded again

A configuration lists uses, grouped by schema and name. Grouping loses nothing and adds nothing
(`Grouping.mem_uses_ofUses`), so the configuration that a registry exports has the registrations of
the run as its uses, and a registry that is loaded from it has their names, by location
(`Registry.ofConfig_of_toConfig`).
-/

namespace DiscoveryGrpc

namespace Config

/-! ## Groupings -/

namespace Grouping

/-- The uses of a grouping. -/
def uses (g : Grouping) : List Use := g.inlineSchemas.flatMap usesOf

/-- The locations where a schema has a name. -/
def locations (g : Grouping) (schema name : String) : NameSet :=
  (((g.get? schema).getD []).get? name).getD []

/-- Locations by name are in order. -/
structure OrderedNames (names : Table NameSet) : Prop where
  sorted : names.Sorted
  locations : ∀ locations ∈ names.values, locations.Pairwise (· < ·)

/-- Everything in a grouping is in order. -/
structure Ordered (g : Grouping) : Prop where
  sorted : Table.Sorted g
  names : ∀ names ∈ Table.values g, OrderedNames names

theorem mem_uses {g : Grouping} {u : Use} :
    u ∈ g.uses ↔ ∃ names, (u.schema, names) ∈ g ∧ ∃ locations, (u.name, locations) ∈ names ∧
      u.location ∈ locations := by
  simp only [uses, inlineSchemas, usesOf, List.flatMap_map, List.mem_flatMap, List.mem_map,
    Prod.exists]
  constructor
  · rintro ⟨schema, names, hg, name, locations, hnames, location, hl, rfl⟩
    exact ⟨names, hg, locations, hnames, hl⟩
  · rintro ⟨names, hg, locations, hnames, hl⟩
    exact ⟨u.schema, names, hg, u.name, locations, hnames, u.location, hl, rfl⟩

/-- In a grouping that is in order, uses are found by schema and name. -/
theorem mem_uses_iff {g : Grouping} (hg : g.Ordered) {u : Use} :
    u ∈ g.uses ↔ u.location ∈ g.locations u.schema u.name := by
  rw [mem_uses, locations]
  constructor
  · rintro ⟨names, hnames, locations, hlocations, hl⟩
    have hsorted := (hg.names names (Table.mem_values_of_mem hnames)).sorted
    rw [Table.get?_of_mem hg.sorted hnames, Option.getD_some,
      Table.get?_of_mem hsorted hlocations]
    exact hl
  · intro hl
    cases hnames : Table.get? g u.schema with
    | none => simp [hnames] at hl
    | some names =>
      rw [hnames, Option.getD_some] at hl
      cases hlocations : Table.get? names u.name with
      | none => simp [hlocations] at hl
      | some locations =>
        rw [hlocations] at hl
        exact ⟨names, Table.mem_of_get? hnames, locations, Table.mem_of_get? hlocations, hl⟩

theorem locations_add (g : Grouping) (v : Use) (schema name : String) :
    (g.add v).locations schema name = if schema = v.schema ∧ name = v.name
      then NameSet.insert v.location (g.locations schema name) else g.locations schema name := by
  by_cases hs : schema = v.schema <;> by_cases hn : name = v.name <;>
    simp [locations, add, Table.get?_insert, hs, hn]

theorem OrderedNames.insert {names : Table NameSet} (h : OrderedNames names) (name : String)
    {locations : NameSet} (hl : locations.Pairwise (· < ·)) :
    OrderedNames (names.insert name locations) := by
  refine ⟨Table.sorted_insert h.sorted, fun x hx => ?_⟩
  rcases Table.mem_values_insert hx with rfl | hx
  · exact hl
  · exact h.locations x hx

theorem Ordered.add {g : Grouping} (hg : g.Ordered) (v : Use) : (g.add v).Ordered := by
  have hnames : OrderedNames ((Table.get? g v.schema).getD []) :=
    Table.getD_get? hg.names ⟨List.Pairwise.nil, by simp [Table.values]⟩ _
  have hlocations := Table.getD_get? hnames.locations List.Pairwise.nil v.name
  refine ⟨Table.sorted_insert hg.sorted, fun names h => ?_⟩
  rcases Table.mem_values_insert h with rfl | h
  · exact hnames.insert _ (NameSet.sorted_insert hlocations)
  · exact hg.names names h

theorem mem_uses_add {g : Grouping} (hg : g.Ordered) {u v : Use} :
    u ∈ (g.add v).uses ↔ u = v ∨ u ∈ g.uses := by
  rw [mem_uses_iff (hg.add v), mem_uses_iff hg, locations_add]
  obtain ⟨schema, name, location⟩ := u
  obtain ⟨schema', name', location'⟩ := v
  split
  · rename_i h
    obtain ⟨rfl, rfl⟩ := h
    simp [NameSet.mem_insert]
  · rename_i h
    simp only [Use.mk.injEq]
    tauto

theorem ordered_ofUses (us : List Use) : (ofUses us).Ordered := by
  have hfold : ∀ g : Grouping, g.Ordered → (us.foldl add g).Ordered := by
    induction us with
    | nil => exact fun g hg => hg
    | cons u us ih => exact fun g hg => ih _ (hg.add u)
  exact hfold [] ⟨List.Pairwise.nil, by simp [Table.values]⟩

/-- The uses of a grouping are those that it was made of. -/
theorem mem_uses_ofUses {us : List Use} {u : Use} : u ∈ (ofUses us).uses ↔ u ∈ us := by
  have hfold : ∀ g : Grouping, g.Ordered → (u ∈ (us.foldl add g).uses ↔ u ∈ us ∨ u ∈ g.uses) := by
    induction us with
    | nil => simp
    | cons v us ih =>
      intro g hg
      rw [List.foldl_cons, ih _ (hg.add v), mem_uses_add hg, List.mem_cons]
      tauto
  rw [ofUses, hfold [] ⟨List.Pairwise.nil, by simp [Table.values]⟩]
  exact or_iff_left List.not_mem_nil

/-- A grouping lists every use once. -/
theorem Ordered.nodup_uses {g : Grouping} (hg : g.Ordered) : g.uses.Nodup := by
  rw [uses, inlineSchemas, List.flatMap_map]
  refine Table.nodup_flatMap hg.sorted Use.schema (fun e _ u hu => ?_) fun e he => ?_
  · obtain ⟨_, _, hu⟩ := List.mem_flatMap.1 hu
    obtain ⟨_, _, rfl⟩ := List.mem_map.1 hu
    rfl
  · have hnames := hg.names e.2 (Table.mem_values_of_mem he)
    refine Table.nodup_flatMap hnames.sorted Use.name (fun x _ u hu => ?_) fun x hx => ?_
    · obtain ⟨_, _, rfl⟩ := List.mem_map.1 hu
      rfl
    · have hnodup := (hnames.locations x.2 (Table.mem_values_of_mem hx)).imp Table.ne_of_lt
      exact List.Nodup.map (fun _ _ h => congrArg Use.location h) hnodup

end Grouping

end Config

/-! ## Registering, loading and exporting -/

namespace Registry

open Config

theorem register_of_new {r : Registry} {p : String} (h : r.registrations.get? p = none)
    (name schema : String) : r.register p name schema = { r with
      registrations := r.registrations.insert p ⟨name, schema⟩
      firstNames :=
        if r.firstNames.has schema then r.firstNames else r.firstNames.insert schema name } := by
  rw [register, h]

theorem register_of_registered {r : Registry} {p : String} {g : Registration}
    (h : r.registrations.get? p = some g) (name schema : String) : r.register p name schema =
      { r with problems := r.problems ++ [.repeated p g.name name] } := by
  rw [register, h]

theorem get?_register_self {r : Registry} {p : String} (h : r.registrations.get? p = none)
    (name schema : String) :
    (r.register p name schema).registrations.get? p = some ⟨name, schema⟩ := by
  rw [register_of_new h, Table.get?_insert, if_pos rfl]

theorem get?_register_of_ne {r : Registry} {p q : String} (h : r.registrations.get? p = none)
    (hq : q ≠ p) (name schema : String) :
    (r.register p name schema).registrations.get? q = r.registrations.get? q := by
  rw [register_of_new h, Table.get?_insert, if_neg hq]

theorem messageName_of_get? {r : Registry} {p name : String} (h : r.configured.get? p = some name)
    (schema default : String) : r.messageName p schema default = name := by
  rw [messageName, h]

theorem messageName_of_get?_eq_none {r : Registry} {p : String} (h : r.configured.get? p = none)
    (schema default : String) :
    r.messageName p schema default = (r.firstNames.get? schema).getD default := by
  rw [messageName, h]

theorem configured_register (r : Registry) (path name schema : String) :
    (r.register path name schema).configured = r.configured := by
  unfold register
  split <;> rfl

/-- Loading that finds no problem keeps every use. -/
theorem get?_of_foldl_load {us : List Use} {t t' : Table String} {problems : List Drift}
    (h : us.foldl load (t, problems) = (t', [])) :
    problems = [] ∧ (∀ k v, t.get? k = some v → t'.get? k = some v) ∧
      ∀ u ∈ us, t'.get? u.location = some u.name := by
  induction us generalizing t problems with
  | nil =>
    cases h
    simp
  | cons u us ih =>
    rw [List.foldl_cons, load] at h
    obtain ⟨hproblems, hkept, hus⟩ := ih h
    cases hu : t.get? u.location with
    | some first => simp [hu] at hproblems
    | none =>
      simp only [hu] at hproblems
      refine ⟨hproblems, fun k v hk => hkept k v ?_, List.forall_mem_cons.2 ⟨hkept _ _ ?_, hus⟩⟩
      · have hne : k ≠ u.location := by
          rintro rfl
          rw [hu] at hk
          cases hk
        rw [Table.get?_insert, if_neg hne, hk]
      · rw [Table.get?_insert, if_pos rfl]

/-- What a registry is loaded from fixes the name of every location in it. -/
theorem exists_of_ofConfig {c : Config} {r : Registry} (h : ofConfig c = .ok r) :
    ∃ configured, r = { configured } ∧ ∀ u ∈ c.uses, configured.get? u.location = some u.name := by
  unfold ofConfig at h
  split at h
  · rename_i configured hload
    obtain rfl := Except.ok.inj h
    exact ⟨configured, rfl, (get?_of_foldl_load hload).2.2⟩
  · cases h

theorem foldl_load {us : List Use} (hn : (us.map (·.location)).Nodup) (configured : Table String)
    (hnew : ∀ u ∈ us, configured.has u.location = false) (problems : List Drift) :
    us.foldl load (configured, problems)
      = ((us.map fun u => (u.location, u.name)).foldl (fun t e => t.insert e.1 e.2) configured,
        problems) := by
  induction us generalizing configured with
  | nil => rfl
  | cons u us ih =>
    obtain ⟨hu, hus⟩ := List.forall_mem_cons.1 hnew
    obtain ⟨hnot, hn⟩ := List.nodup_cons.1 hn
    have hnone : configured.get? u.location = none := by
      rw [← Option.not_isSome_iff_eq_none, Table.isSome_get?, hu]
      simp
    rw [List.foldl_cons, load]
    simp only [hnone]
    refine ih hn _ fun v hv => ?_
    have hne : v.location ≠ u.location := fun h => hnot (List.mem_map.2 ⟨v, hv, h⟩)
    rw [Table.has_insert, hus v hv, Bool.or_false]
    simpa using hne

/-- A configuration that lists every location once is loaded as it is. -/
theorem ofConfig_eq_ok {c : Config} (hn : (c.uses.map (·.location)).Nodup) :
    ofConfig c = .ok { configured := Table.ofList (c.uses.map fun u => (u.location, u.name)) } := by
  rw [ofConfig, foldl_load hn [] (fun _ _ => rfl) []]
  rfl

theorem toConfig_eq_ok_iff {r : Registry} {version revision : String} {c : Config} :
    r.toConfig version revision = .ok c ↔ r.drift = [] ∧ c = {
      converterVersion := currentVersion
      apiVersion := version
      discoveryRevision := revision
      inlineSchemas := r.grouping.inlineSchemas } := by
  rw [toConfig]
  split
  · rename_i h
    simp [h, eq_comm]
  · rename_i h
    exact ⟨nofun, fun hc => absurd hc.1 h⟩

/-- If there is no drift every configured location is registered. -/
theorem registered_of_drift {r : Registry} (h : r.drift = []) {p n : String}
    (hp : r.configured.get? p = some n) : ∃ g, r.registrations.get? p = some g := by
  simp only [drift, List.append_eq_nil_iff] at h
  have hunused := List.filter_eq_nil_iff.1 (List.map_eq_nil_iff.1 h.1.1.2) _ (Table.mem_of_get? hp)
  exact Table.exists_get? (by simpa using hunused)

/-- The uses of an exported configuration are the registrations. -/
theorem mem_uses_of_toConfig {r : Registry} {version revision : String} {c : Config}
    (h : r.toConfig version revision = .ok c) {u : Use} :
    u ∈ c.uses ↔ (u.location, ⟨u.name, u.schema⟩) ∈ r.registrations := by
  obtain ⟨-, rfl⟩ := toConfig_eq_ok_iff.1 h
  change u ∈ r.grouping.uses ↔ _
  rw [grouping, Grouping.mem_uses_ofUses, uses, List.mem_map]
  constructor
  · rintro ⟨e, he, rfl⟩
    exact he
  · exact fun he => ⟨_, he, rfl⟩

/-- Loading what was exported gives the names that were registered. -/
theorem ofConfig_of_toConfig {r : Registry} (hr : r.registrations.Sorted)
    {version revision : String} {c : Config} (h : r.toConfig version revision = .ok c) :
    ofConfig c = .ok { configured := r.registrations.mapValues (·.name) } := by
  have hnodup : c.uses.Nodup := by
    obtain ⟨-, rfl⟩ := toConfig_eq_ok_iff.1 h
    exact (Grouping.ordered_ofUses _).nodup_uses
  have hlocations : (c.uses.map (·.location)).Nodup := by
    refine hnodup.map_on fun u hu v hv huv => ?_
    have hu := Table.get?_of_mem hr ((mem_uses_of_toConfig h).1 hu)
    have hv := Table.get?_of_mem hr ((mem_uses_of_toConfig h).1 hv)
    rw [huv, hv] at hu
    obtain ⟨hname, hschema⟩ := Registration.mk.inj (Option.some.inj hu)
    obtain ⟨schema, name, location⟩ := u
    obtain ⟨schema', name', location'⟩ := v
    simp_all
  rw [ofConfig_eq_ok hlocations]
  congr 2
  refine Table.ext (Table.sorted_ofList _) (Table.sorted_mapValues hr) fun k => Option.ext fun name => ?_
  have hnames : ((c.uses.map fun u => (u.location, u.name)).map (·.1)).Nodup := by
    simpa [Function.comp_def] using hlocations
  rw [Table.get?_ofList hnames, Table.get?_mapValues, Option.map_eq_some_iff, List.mem_map]
  constructor
  · rintro ⟨u, hu, hk⟩
    obtain ⟨rfl, rfl⟩ := Prod.mk.inj hk
    exact ⟨_, Table.get?_of_mem hr ((mem_uses_of_toConfig h).1 hu), rfl⟩
  · rintro ⟨g, hg, rfl⟩
    exact ⟨⟨g.schema, g.name, k⟩, (mem_uses_of_toConfig h).2 (Table.mem_of_get? hg), rfl⟩

end Registry

end DiscoveryGrpc
