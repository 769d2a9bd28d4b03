import DiscoveryGrpc.Proofs.Api.Comparison
import DiscoveryGrpc.Proofs.Api.Undocumented
import DiscoveryGrpc.Proofs.Json.Printed

/-!
# Canonical texts of schemas

Inline schemas are recognised by their canonical text, so this text has to tell the structure of a
schema, all of it and nothing else. It does, because it can be read again: a schema that was read
fits into the levels that a text may nest (`fits_of_read`), and so does what is left of it without
documentation, which is what its canonical text holds (`ofText?_canonical`).

So schemas have one canonical text if and only if they are alike (`canonical_eq_iff`). What that
means is said by going down both of them at once (`Alike`).
-/

namespace DiscoveryGrpc.Api.Declaration

/-- The schema that a text holds. -/
def ofText? (text : String) : Option Declaration :=
  (Json.ofText? text).bind (read Json.depthLimit)

/-! ## Schemas in a schema -/

/-- A schema stands in another one, as a property or for elements or other values. -/
def Child (c d : Declaration) : Prop :=
  (∃ ds ∈ d.properties, c ∈ Table.values ds) ∨ c ∈ d.items ∨ c ∈ d.additional

variable {P : Declaration → Prop}

mutual

/-- What holds of a schema as soon as it holds of those that stand in it, holds of every schema. -/
theorem induct (h : ∀ d, (∀ c, Child c d → P c) → P d) : (d : Declaration) → P d
  | ⟨_, properties, items, additional⟩ => by
    refine h _ fun c hc => ?_
    rcases hc with ⟨ds, hds, hc⟩ | hc | hc
    · exact induct_optionTable h properties ds hds c hc
    · exact induct_option h items c hc
    · exact induct_option h additional c hc

theorem induct_option (h : ∀ d, (∀ c, Child c d → P c) → P d) :
    (d : Option Declaration) → ∀ c ∈ d, P c
  | none => nofun
  | some d => by
    rintro c ⟨⟩
    exact induct h d

theorem induct_optionTable (h : ∀ d, (∀ c, Child c d → P c) → P d) :
    (ds : Option (List (String × Declaration))) → ∀ cs ∈ ds, ∀ c ∈ Table.values cs, P c
  | none => nofun
  | some ds => by
    rintro cs ⟨⟩
    exact induct_table h ds

theorem induct_table (h : ∀ d, (∀ c, Child c d → P c) → P d) :
    (ds : List (String × Declaration)) → ∀ c ∈ Table.values ds, P c
  | [] => nofun
  | (_, d) :: ds => List.forall_mem_cons.2 ⟨induct h d, induct_table h ds⟩

end

/-! ## Member by member -/

theorem optionUndocumented_eq (d : Option Declaration) :
    optionUndocumented d = d.map undocumented := by
  cases d <;> rfl

theorem tableUndocumented_eq (ds : Table Declaration) :
    tableUndocumented ds = ds.mapValues undocumented := by
  induction ds with
  | nil => rfl
  | cons e ds ih =>
    rw [tableUndocumented, ih]
    rfl

theorem undocumented_eq (d : Declaration) : d.undocumented =
    { d with
      description := none
      enumDescriptions := none
      properties := d.properties.map (Table.mapValues undocumented)
      items := d.items.map undocumented
      additional := d.additional.map undocumented } := by
  obtain ⟨a, properties, items, additional⟩ := d
  rw [undocumented, optionUndocumented_eq, optionUndocumented_eq]
  cases properties with
  | none => rfl
  | some ds =>
    rw [optionTableUndocumented, tableUndocumented_eq]
    rfl

theorem optionToJson_eq (d : Option Declaration) : optionToJson d = d.map toJson := by
  cases d <;> rfl

/-- The JSON of a table of schemas. -/
def objectOf (ds : Table Declaration) : Json := .object (ds.mapValues toJson)

theorem optionTableToJson_eq (ds : Option (Table Declaration)) :
    optionTableToJson ds = ds.map objectOf := by
  have htable (ds : Table Declaration) : tableToJson ds = ds.mapValues toJson := by
    induction ds with
    | nil => rfl
    | cons e ds ih =>
      rw [tableToJson, ih]
      rfl
  cases ds with
  | none => rfl
  | some ds =>
    rw [optionTableToJson, htable]
    rfl

/-- The members of a schema, those that are missing included, sorted by key. -/
def entries (d : Declaration) : List (String × Option Json) := [
  ("$ref", d.reference.map .string),
  ("additionalProperties", d.additional.map toJson),
  ("default", d.default.map .string),
  ("deprecated", d.deprecated.map .bool),
  ("description", d.description.map .string),
  ("enum", d.enumValues.map textList),
  ("enumDescriptions", d.enumDescriptions.map textList),
  ("format", d.format.map .string),
  ("id", d.id.map .string),
  ("items", d.items.map toJson),
  ("location", d.location.map .string),
  ("pattern", d.pattern.map .string),
  ("properties", d.properties.map objectOf),
  ("repeated", d.repeated.map .bool),
  ("required", d.required.map .bool),
  ("type", d.type.map .string)]

theorem toJson_eq (d : Declaration) : d.toJson = .object (Json.members d.entries) := by
  obtain ⟨a, properties, items, additional⟩ := d
  rw [toJson, optionToJson_eq, optionToJson_eq, optionTableToJson_eq, Json.members_eq]
  simp only [entries, member, List.map_cons, List.map_nil, Option.map_map]
  rfl

theorem names_entries (d : Declaration) : d.entries.map (·.1) =
    ["$ref", "additionalProperties", "default", "deprecated", "description", "enum",
      "enumDescriptions", "format", "id", "items", "location", "pattern", "properties", "repeated",
      "required", "type"] :=
  rfl

theorem nodup_entries (d : Declaration) : (d.entries.map (·.1)).Nodup := by
  rw [names_entries]
  decide

theorem known_entries (d : Declaration) : ∀ e ∈ d.entries, e.1 ∈ keys := by
  have hkeys : ∀ key ∈ d.entries.map (·.1), key ∈ keys := by
    rw [names_entries]
    decide
  exact fun e he => hkeys e.1 (List.mem_map_of_mem he)

/-! ## Reading what was written -/

/-- A schema fits into a number of levels, and its tables are in order. -/
inductive Fits : Nat → Declaration → Prop
  | intro {budget : Nat} {d : Declaration}
      (enumValues : ∀ texts ∈ d.enumValues, 0 < budget)
      (enumDescriptions : ∀ texts ∈ d.enumDescriptions, 0 < budget)
      (tables : ∀ ds ∈ d.properties, 0 < budget ∧ Table.Sorted ds)
      (properties : ∀ ds ∈ d.properties, ∀ c ∈ Table.values ds, Fits (budget - 1) c)
      (items : ∀ c ∈ d.items, Fits budget c)
      (additional : ∀ c ∈ d.additional, Fits budget c) : Fits (budget + 1) d

theorem pos_of_readAttributes {budget : Nat} {r : Json.Record} {a : Attributes}
    (h : readAttributes budget r = some a) :
    (∀ texts ∈ a.enumValues, 0 < budget) ∧ ∀ texts ∈ a.enumDescriptions, 0 < budget := by
  obtain ⟨id, -, h⟩ := Option.bind_eq_some_iff.1 h
  obtain ⟨type, -, h⟩ := Option.bind_eq_some_iff.1 h
  obtain ⟨reference, -, h⟩ := Option.bind_eq_some_iff.1 h
  obtain ⟨description, -, h⟩ := Option.bind_eq_some_iff.1 h
  obtain ⟨format, -, h⟩ := Option.bind_eq_some_iff.1 h
  obtain ⟨enumValues, hvalues, h⟩ := Option.bind_eq_some_iff.1 h
  obtain ⟨enumDescriptions, hdescriptions, h⟩ := Option.bind_eq_some_iff.1 h
  obtain ⟨required, -, h⟩ := Option.bind_eq_some_iff.1 h
  obtain ⟨repeated, -, h⟩ := Option.bind_eq_some_iff.1 h
  obtain ⟨deprecated, -, h⟩ := Option.bind_eq_some_iff.1 h
  obtain ⟨location, -, h⟩ := Option.bind_eq_some_iff.1 h
  obtain ⟨pattern, -, h⟩ := Option.bind_eq_some_iff.1 h
  obtain ⟨default, -, h⟩ := Option.bind_eq_some_iff.1 h
  obtain rfl := Option.some.inj h
  constructor
  · rintro texts ⟨⟩
    obtain ⟨v, hv⟩ := Json.Record.exists_of_optional hvalues
    exact Json.pos_of_list? hv
  · rintro texts ⟨⟩
    obtain ⟨v, hv⟩ := Json.Record.exists_of_optional hdescriptions
    exact Json.pos_of_list? hv

/-- A schema that was read fits into the levels that were left. -/
theorem fits_of_read : {budget : Nat} → {v : Json} → {d : Declaration} →
    read budget v = some d → Fits budget d
  | 0, _, _, h => by cases h
  | budget + 1, v, d, h => by
    obtain ⟨r, -, h⟩ := Option.bind_eq_some_iff.1 h
    obtain ⟨a, ha, h⟩ := Option.bind_eq_some_iff.1 h
    obtain ⟨properties, hproperties, h⟩ := Option.bind_eq_some_iff.1 h
    obtain ⟨items, hitems, h⟩ := Option.bind_eq_some_iff.1 h
    obtain ⟨additional, hadditional, h⟩ := Option.bind_eq_some_iff.1 h
    obtain rfl := Option.some.inj h
    obtain ⟨hvalues, hdescriptions⟩ := pos_of_readAttributes ha
    have htable (ds : Table Declaration) (hds : ds ∈ properties) : 0 < budget ∧ ds.Sorted ∧
        ∀ c ∈ ds.values, ∃ v, read (budget - 1) v = some c := by
      obtain rfl := Option.mem_def.1 hds
      obtain ⟨v, hv⟩ := Json.Record.exists_of_optional hproperties
      cases budget with
      | zero => cases hv
      | succ budget =>
        obtain ⟨hsorted, hread⟩ := Json.of_table? hv
        exact ⟨Nat.succ_pos budget, hsorted, List.forall_mem_map.2 hread⟩
    refine .intro hvalues hdescriptions (fun ds hds => ?_) (fun ds hds c hc => ?_)
      (fun c hc => ?_) fun c hc => ?_
    · exact ⟨(htable ds hds).1, (htable ds hds).2.1⟩
    · obtain ⟨v, hv⟩ := (htable ds hds).2.2 c hc
      exact fits_of_read hv
    · obtain rfl := Option.mem_def.1 hc
      obtain ⟨v, hv⟩ := Json.Record.exists_of_optional hitems
      exact fits_of_read hv
    · obtain rfl := Option.mem_def.1 hc
      obtain ⟨v, hv⟩ := Json.Record.exists_of_optional hadditional
      exact fits_of_read hv

/-- Without documentation a schema fits where it fitted. -/
theorem Fits.undocumented {budget : Nat} {d : Declaration} (h : Fits budget d) :
    Fits budget d.undocumented := by
  induction h with
  | @intro budget d henum hdesc htables _ _ _ ihproperties ihitems ihadditional =>
    rw [undocumented_eq]
    refine .intro henum nofun (fun ds hds => ?_) (fun ds hds c hc => ?_) (fun c hc => ?_)
      fun c hc => ?_
    · obtain ⟨ts, hts, rfl⟩ := Option.map_eq_some_iff.1 hds
      exact ⟨(htables ts hts).1, Table.sorted_mapValues (htables ts hts).2⟩
    · obtain ⟨ts, hts, rfl⟩ := Option.map_eq_some_iff.1 hds
      rw [Table.values_mapValues] at hc
      obtain ⟨t, ht, rfl⟩ := List.mem_map.1 hc
      exact ihproperties ts hts t ht
    · obtain ⟨t, ht, rfl⟩ := Option.map_eq_some_iff.1 hc
      exact ihitems t ht
    · obtain ⟨t, ht, rfl⟩ := Option.map_eq_some_iff.1 hc
      exact ihadditional t ht

/-- A member that is no schema is read as it was written. -/
theorem readAttributes_members {budget : Nat} {d : Declaration}
    (hvalues : ∀ texts ∈ d.enumValues, 0 < budget)
    (hdescriptions : ∀ texts ∈ d.enumDescriptions, 0 < budget) :
    readAttributes budget (Json.members d.entries) = some d.toAttributes := by
  have htext (key : String) (text? : Option String)
      (h : (key, text?.map .string) ∈ d.entries) :
      Json.Record.optional (Json.members d.entries) key Json.text? = some text? :=
    Json.optional_members d.nodup_entries h rfl fun _ _ => rfl
  have hflag (key : String) (flag? : Option Bool) (h : (key, flag?.map .bool) ∈ d.entries) :
      Json.Record.optional (Json.members d.entries) key Json.flag? = some flag? :=
    Json.optional_members d.nodup_entries h rfl fun _ _ => rfl
  have hlist (key : String) (texts? : Option (List String))
      (h : (key, texts?.map textList) ∈ d.entries) (hpos : ∀ texts ∈ texts?, 0 < budget) :
      Json.Record.optional (Json.members d.entries) key (Json.list? Json.text? budget)
        = some texts? := by
    refine Json.optional_members d.nodup_entries h (by cases budget <;> rfl) fun texts ht => ?_
    obtain ⟨n, rfl⟩ := Nat.exists_eq_succ_of_ne_zero (hpos texts ht).ne'
    have hread : ∀ text ∈ texts, Json.text? (.string text) = some text := fun _ _ => rfl
    exact Json.list?_array_map hread n
  rw [readAttributes,
    htext "id" d.id (by simp [entries]),
    htext "type" d.type (by simp [entries]),
    htext "$ref" d.reference (by simp [entries]),
    htext "description" d.description (by simp [entries]),
    htext "format" d.format (by simp [entries]),
    hlist "enum" d.enumValues (by simp [entries]) hvalues,
    hlist "enumDescriptions" d.enumDescriptions (by simp [entries]) hdescriptions,
    hflag "required" d.required (by simp [entries]),
    hflag "repeated" d.repeated (by simp [entries]),
    hflag "deprecated" d.deprecated (by simp [entries]),
    htext "location" d.location (by simp [entries]),
    htext "pattern" d.pattern (by simp [entries]),
    htext "default" d.default (by simp [entries])]
  rfl

theorem read_null (budget : Nat) : read budget .null = none := by
  cases budget <;> rfl

theorem readTable_null (budget : Nat) : readTable budget .null = none := by
  cases budget <;> rfl

/-- A schema that fits is read as it was written. -/
theorem read_toJson {budget : Nat} {d : Declaration} (h : Fits budget d) :
    read budget d.toJson = some d := by
  induction h with
  | @intro budget d hvalues hdescriptions htables _ _ _ ihproperties ihitems ihadditional =>
    have hproperties : Json.Record.optional (Json.members d.entries) "properties"
        (readTable budget) = some d.properties := by
      have hmem : ("properties", d.properties.map objectOf) ∈ d.entries := by simp [entries]
      refine Json.optional_members d.nodup_entries hmem (readTable_null budget) fun ds hds => ?_
      obtain ⟨n, rfl⟩ := Nat.exists_eq_succ_of_ne_zero (htables ds hds).1.ne'
      exact Json.table?_object_map (htables ds hds).2 (ihproperties ds hds) n
    have hitems : Json.Record.optional (Json.members d.entries) "items" (read budget)
        = some d.items :=
      Json.optional_members d.nodup_entries (by simp [entries]) (read_null budget) ihitems
    have hadditional : Json.Record.optional (Json.members d.entries) "additionalProperties"
        (read budget) = some d.additional :=
      Json.optional_members d.nodup_entries (by simp [entries]) (read_null budget) ihadditional
    rw [toJson_eq, read, Json.record?_members _ d.nodup_entries d.known_entries]
    simp only [Option.bind_eq_bind, Option.bind_some, readAttributes_members hvalues hdescriptions,
      hproperties, hitems, hadditional]
    cases d
    rfl

/-! ## Reading canonical texts -/

/-- Everything in a schema can be printed. -/
theorem printable_toJson (d : Declaration) : d.toJson.Printable := by
  induction d using induct with
  | h d ih =>
    have htext (o : Option String) : ∀ v ∈ o.map Json.string, v.Printable := by
      cases o <;> simp [Json.Printable]
    have hflag (o : Option Bool) : ∀ v ∈ o.map Json.bool, v.Printable := by
      cases o <;> simp [Json.Printable]
    have hlist (o : Option (List String)) : ∀ v ∈ o.map textList, v.Printable := by
      rintro v hv
      obtain ⟨texts, -, rfl⟩ := Option.map_eq_some_iff.1 hv
      exact Json.printableElements_iff.2 (List.forall_mem_map.2 fun _ _ => trivial)
    have hschema (o : Option Declaration) (ho : ∀ c ∈ o, c.Child d) :
        ∀ v ∈ o.map toJson, v.Printable := by
      rintro v hv
      obtain ⟨c, hc, rfl⟩ := Option.map_eq_some_iff.1 hv
      exact ih c (ho c hc)
    have htable : ∀ v ∈ d.properties.map objectOf, v.Printable := by
      rintro v hv
      obtain ⟨ds, hds, rfl⟩ := Option.map_eq_some_iff.1 hv
      refine Json.printableMembers_iff.2 (List.forall_mem_map.2 fun e he => ?_)
      exact ih e.2 (.inl ⟨ds, hds, Table.mem_values_of_mem he⟩)
    have hentries : ∀ e ∈ d.entries, ∀ v ∈ e.2, v.Printable := by
      simp only [entries, List.forall_mem_cons]
      exact ⟨htext _, hschema _ fun c hc => .inr (.inr hc), htext _, hflag _, htext _, hlist _,
        hlist _, htext _, htext _, hschema _ fun c hc => .inr (.inl hc), htext _, htext _, htable,
        hflag _, hflag _, htext _, by simp⟩
    rw [toJson_eq]
    exact Json.printableMembers_iff.2 fun m hm => hentries _ (Json.mem_members.1 hm) _ rfl

/-- A canonical text is read as the schema without its documentation. -/
theorem ofText?_canonical {text : String} {d : Declaration} (h : ofText? text = some d) :
    ofText? d.canonical = some d.undocumented := by
  obtain ⟨v, -, hv⟩ := Option.bind_eq_some_iff.1 h
  have hjson := Json.ofText?_of_spells (Json.spells_compact (printable_toJson d.undocumented))
  rw [ofText?, canonical, hjson, Option.bind_some, read_toJson (fits_of_read hv).undocumented]

/-! ## Schemas that are alike -/

mutual

/-- Two schemas differ in documentation only: they agree in all other members that are no schemas,
absent ones included, have schemas in the same places, and these are alike. -/
def Alike : Declaration → Declaration → Prop
  | ⟨a, properties, items, additional⟩, ⟨b, properties', items', additional'⟩ =>
    b = { a with description := b.description, enumDescriptions := b.enumDescriptions } ∧
      AlikeOptionTable properties properties' ∧ AlikeOption items items' ∧
      AlikeOption additional additional'

/-- Two schemas that may be missing are alike, or both are missing. -/
def AlikeOption : Option Declaration → Option Declaration → Prop
  | none, none => True
  | some d, some e => Alike d e
  | _, _ => False

/-- Two tables that may be missing have schemas that are alike, or both are missing. -/
def AlikeOptionTable :
    Option (List (String × Declaration)) → Option (List (String × Declaration)) → Prop
  | none, none => True
  | some ds, some es => AlikeTable ds es
  | _, _ => False

/-- Two tables have schemas that are alike, under the same names. -/
def AlikeTable : List (String × Declaration) → List (String × Declaration) → Prop
  | [], [] => True
  | (name, d) :: ds, (name', e) :: es => name = name' ∧ Alike d e ∧ AlikeTable ds es
  | _, _ => False

end

theorem attributes_eq_iff {a b : Attributes} :
    ({ a with description := none, enumDescriptions := none } : Attributes) =
      { b with description := none, enumDescriptions := none } ↔
    b = { a with description := b.description, enumDescriptions := b.enumDescriptions } := by
  constructor
  · intro h
    exact (congrArg (fun x : Attributes => { x with
      description := b.description
      enumDescriptions := b.enumDescriptions }) h).symm
  · intro h
    exact (congrArg (fun x : Attributes => { x with
      description := none
      enumDescriptions := none }) h).symm

mutual

/-- Schemas are alike if they are the same without documentation. -/
theorem undocumented_eq_iff : (d e : Declaration) → d.undocumented = e.undocumented ↔ d.Alike e
  | ⟨a, properties, items, additional⟩, ⟨b, properties', items', additional'⟩ => by
    rw [undocumented, undocumented, mk.injEq, Alike, attributes_eq_iff,
      optionTableUndocumented_eq_iff properties properties',
      optionUndocumented_eq_iff items items', optionUndocumented_eq_iff additional additional']

theorem optionUndocumented_eq_iff : (d e : Option Declaration) →
    (optionUndocumented d = optionUndocumented e ↔ AlikeOption d e)
  | none, none => by simp [AlikeOption]
  | none, some _ => by simp [optionUndocumented, AlikeOption]
  | some _, none => by simp [optionUndocumented, AlikeOption]
  | some d, some e => by
    rw [optionUndocumented, optionUndocumented, Option.some.injEq, AlikeOption,
      undocumented_eq_iff d e]

theorem optionTableUndocumented_eq_iff : (ds es : Option (List (String × Declaration))) →
    (optionTableUndocumented ds = optionTableUndocumented es ↔ AlikeOptionTable ds es)
  | none, none => by simp [AlikeOptionTable]
  | none, some _ => by simp [optionTableUndocumented, AlikeOptionTable]
  | some _, none => by simp [optionTableUndocumented, AlikeOptionTable]
  | some ds, some es => by
    rw [optionTableUndocumented, optionTableUndocumented, Option.some.injEq, AlikeOptionTable,
      tableUndocumented_eq_iff ds es]

theorem tableUndocumented_eq_iff : (ds es : List (String × Declaration)) →
    (tableUndocumented ds = tableUndocumented es ↔ AlikeTable ds es)
  | [], [] => by simp [AlikeTable]
  | [], (_, _) :: _ => by simp [tableUndocumented, AlikeTable]
  | (_, _) :: _, [] => by simp [tableUndocumented, AlikeTable]
  | (name, d) :: ds, (name', e) :: es => by
    rw [tableUndocumented, tableUndocumented, List.cons.injEq, Prod.mk.injEq, AlikeTable,
      undocumented_eq_iff d e, tableUndocumented_eq_iff ds es, and_assoc]

end

/-- The canonical texts of schemas that were read are equal if and only if the schemas are, without
their documentation, which means that they are alike. And reading a canonical text gives a schema
with this very text. -/
theorem canonical_eq_iff {text text' : String} {d e : Declaration} (hd : ofText? text = some d)
    (he : ofText? text' = some e) :
    (d.canonical = e.canonical ↔ d.undocumented = e.undocumented) ∧
    (d.undocumented = e.undocumented ↔ d.Alike e) ∧
    ofText? d.canonical = some d.undocumented ∧ d.undocumented.canonical = d.canonical := by
  refine ⟨⟨fun h => ?_, fun h => ?_⟩, undocumented_eq_iff d e, ofText?_canonical hd,
    d.canonical_undocumented⟩
  · have hread := ofText?_canonical hd
    rw [h, ofText?_canonical he] at hread
    exact (Option.some.inj hread).symm
  · rw [canonical, h, canonical]

/-- A lake with a description, and with a property that is called so. -/
def describedLake : String := Json.compact (.object [
  ("description", .string "A lake."),
  ("type", .string "object"),
  ("properties", .object [
    ("depth", .object [("type", .string "integer"), ("description", .string "In meters.")]),
    ("description", .object [("type", .string "string")])])])

/-- The same lake, of which nothing is said. -/
def plainLake : String := Json.compact (.object [
  ("properties", .object [
    ("description", .object [("type", .string "string"), ("items", .null)]),
    ("depth", .object [("type", .string "integer")])]),
  ("type", .string "object")])

theorem canonical_eq_iff_plainLake :
    ∃ d e, ofText? describedLake = some d ∧ ofText? plainLake = some e ∧ d ≠ e ∧
      d.canonical = e.canonical ∧ d.Alike e ∧
      ofText? d.canonical = some d.undocumented ∧ d.undocumented.canonical = d.canonical := by
  have hread : ((ofText? describedLake).any fun d => (ofText? plainLake).any fun e =>
      decide (d ≠ e ∧ d.undocumented = e.undocumented)) = true := by decide +kernel
  obtain ⟨d, hd, hread⟩ := (Option.any_eq_true ..).1 hread
  obtain ⟨e, he, hread⟩ := (Option.any_eq_true ..).1 hread
  obtain ⟨hne, heq⟩ := of_decide_eq_true hread
  obtain ⟨hcanonical, halike, hagain⟩ := canonical_eq_iff hd he
  exact ⟨d, e, hd, he, hne, hcanonical.2 heq, halike.1 heq, hagain⟩

end DiscoveryGrpc.Api.Declaration
