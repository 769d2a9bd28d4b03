import DiscoveryGrpc.Proofs.Config.Drift
import DiscoveryGrpc.Proofs.Json.Printed
import DiscoveryGrpc.Proofs.Json.Record

/-!
# The text of a configuration

The normal form of a configuration is a canonical form: two configurations have the same one just
if they agree in their versions and have the same uses (`normalized_eq_iff`), however these are
split, repeated or ordered. It is what a configuration is written as and what is read again
(`ofText_toText`). So equality of configurations, of what they say and of their texts are one
(`same_iff_toText_eq`).
-/

namespace DiscoveryGrpc

namespace Config

/-! ## The normal form -/

theorem sorted_normalized (c : Config) : ∀ s ∈ c.normalized.inlineSchemas, s.locations.Sorted := by
  intro s hs
  obtain ⟨e, he, rfl⟩ := List.mem_map.1 hs
  exact ((Grouping.ordered_ofUses c.uses).names e.2 (Table.mem_values_of_mem he)).sorted

/-- The normal form has the uses of the configuration. -/
theorem mem_uses_normalized {c : Config} {u : Use} : u ∈ c.normalized.uses ↔ u ∈ c.uses :=
  Grouping.mem_uses_ofUses

/-- The normal form tells the versions and the uses, and nothing else. -/
theorem normalized_eq_iff {a b : Config} : a.normalized = b.normalized ↔
    a.converterVersion = b.converterVersion ∧ a.apiVersion = b.apiVersion ∧
      a.discoveryRevision = b.discoveryRevision ∧ ∀ u, u ∈ a.uses ↔ u ∈ b.uses := by
  constructor
  · intro h
    refine ⟨(mk.inj h).1, (mk.inj h).2.1, (mk.inj h).2.2.1, fun u => ?_⟩
    rw [← mem_uses_normalized, h, mem_uses_normalized]
  · rintro ⟨hconverter, hversion, hrevision, huses⟩
    rw [normalized, normalized, ofUses_congr huses, hconverter, hversion, hrevision]

/-! ## Text -/

/-- How the locations of a name are written. -/
def pathsJson (paths : List String) : Json := .array (paths.map .string)

/-- How an inline schema is written. -/
def inlineSchemaJson (s : InlineSchema) : Json :=
  .object [("schema", .string s.schema), ("locations", .object (s.locations.mapValues pathsJson))]

theorem toJson_eq (c : Config) : c.toJson = .object [
    ("converterVersion", .string c.converterVersion),
    ("apiVersion", .string c.apiVersion),
    ("discoveryRevision", .string c.discoveryRevision),
    ("inlineSchemas", .array (c.inlineSchemas.map inlineSchemaJson))] := rfl

theorem list?_pathsJson (paths : List String) :
    Json.list? Json.text? Json.depthLimit (pathsJson paths) = some paths :=
  have htext : ∀ path ∈ paths, Json.text? (.string path) = some path := fun _ _ => rfl
  Json.list?_array_map htext _

/-- An inline schema with its names in order is read as it was written. -/
theorem readInlineSchema_inlineSchemaJson {s : InlineSchema} (hs : s.locations.Sorted) :
    readInlineSchema (inlineSchemaJson s) = some s := by
  have hlocations : Json.table? (Json.list? Json.text? Json.depthLimit) Json.depthLimit
      (.object (s.locations.mapValues pathsJson)) = some s.locations :=
    Json.table?_object_map hs (fun paths _ => list?_pathsJson paths) _
  -- the members are found by their keys
  change (Json.table? (Json.list? Json.text? Json.depthLimit) Json.depthLimit
    (.object (s.locations.mapValues pathsJson))).bind (fun t => some ⟨s.schema, t⟩) = some s
  rw [hlocations, Option.bind_some]

/-- A configuration with its names in order is read as it was written. -/
theorem ofJson?_toJson {c : Config} (hc : ∀ s ∈ c.inlineSchemas, s.locations.Sorted) :
    ofJson? c.toJson = some c := by
  have hschemas : Json.list? readInlineSchema Json.depthLimit
      (.array (c.inlineSchemas.map inlineSchemaJson)) = some c.inlineSchemas :=
    Json.list?_array_map (fun s hs => readInlineSchema_inlineSchemaJson (hc s hs)) _
  rw [toJson_eq]
  change (Json.list? readInlineSchema Json.depthLimit (.array (c.inlineSchemas.map
    inlineSchemaJson))).bind (fun schemas => some { c with inlineSchemas := schemas }) = some c
  rw [hschemas, Option.bind_some]

/-- Everything in a configuration can be printed. -/
theorem printable_toJson (c : Config) : c.toJson.Printable := by
  have hpaths (paths : List String) : (pathsJson paths).Printable := by
    refine Json.printableElements_iff.2 fun v hv => ?_
    obtain ⟨path, -, rfl⟩ := List.mem_map.1 hv
    exact trivial
  have hschema (s : InlineSchema) : (inlineSchemaJson s).Printable := by
    refine ⟨trivial, Json.printableMembers_iff.2 fun m hm => ?_, trivial⟩
    obtain ⟨e, -, rfl⟩ := List.mem_map.1 hm
    exact hpaths e.2
  have hschemas : Json.PrintableElements (c.inlineSchemas.map inlineSchemaJson) := by
    refine Json.printableElements_iff.2 fun v hv => ?_
    obtain ⟨s, -, rfl⟩ := List.mem_map.1 hv
    exact hschema s
  exact ⟨trivial, trivial, trivial, hschemas, trivial⟩

/-- The text of a configuration is read as its normal form. -/
theorem ofText_toText (c : Config) : ofText c.toText = .ok c.normalized := by
  have hjson := Json.ofText?_of_spells (Json.spells_pretty (printable_toJson c.normalized))
  rw [ofText, toText, hjson, Option.bind_some, ofJson?_toJson (sorted_normalized c)]

theorem toText_eq_iff {a b : Config} : a.toText = b.toText ↔ a.normalized = b.normalized := by
  constructor
  · intro h
    have hread := ofText_toText a
    rw [h, ofText_toText] at hread
    exact (Except.ok.inj hread).symm
  · intro h
    rw [toText, h, toText]

/-- A configuration survives its text, in its normal form; and two configurations are the same if
and only if they agree in their versions and have the same uses, if and only if they have the same
text. -/
theorem same_iff_toText_eq (a b : Config) :
    ofText a.toText = .ok a.normalized ∧
    (a.same b = true ↔ a.converterVersion = b.converterVersion ∧ a.apiVersion = b.apiVersion ∧
      a.discoveryRevision = b.discoveryRevision ∧ ∀ u, u ∈ a.uses ↔ u ∈ b.uses) ∧
    (a.same b = true ↔ a.toText = b.toText) := by
  have hsame : a.same b = true ↔ a.normalized = b.normalized := beq_iff_eq
  exact ⟨ofText_toText a, hsame.trans normalized_eq_iff, hsame.trans toText_eq_iff.symm⟩

end Config

end DiscoveryGrpc
