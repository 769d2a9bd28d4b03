import DiscoveryGrpc.Proofs.Api.Canonical

/-!
# Schemas in schemas

The canonical text of a schema holds those of the schemas that stand in it, so it is longer than any
of them. This is why no schema stands in one with the same canonical text, and it is still so when
declarations have been checked (`Schema.Tapered`): in all schemas of a document, canonical texts get
shorter on the way down (`Document.tapered_of_ofText`).

`Schema.Placed` says that a schema stands where it should, and so do the schemas that stand in it.
-/

namespace DiscoveryGrpc.Api

open Proto

/-! ## Declarations -/

namespace Declaration

variable {c d : Declaration}

theorem Child.undocumented (h : Child c d) : Child c.undocumented d.undocumented := by
  rw [undocumented_eq d]
  rcases h with ⟨ds, hds, hc⟩ | hc | hc
  · refine .inl ⟨Table.mapValues Declaration.undocumented ds, ?_, ?_⟩
    · exact Option.map_eq_some_iff.2 ⟨ds, hds, rfl⟩
    · rw [Table.values_mapValues]
      exact List.mem_map_of_mem hc
  · exact .inr (.inl (Option.map_eq_some_iff.2 ⟨c, hc, rfl⟩))
  · exact .inr (.inr (Option.map_eq_some_iff.2 ⟨c, hc, rfl⟩))

theorem Child.length_toJson_lt (h : Child c d) :
    c.toJson.compact.length < d.toJson.compact.length := by
  -- a member of the schema stands in its text
  have hmember {key : String} {v : Json} (hv : (key, some v) ∈ d.entries) :
      v.compact.length < d.toJson.compact.length := by
    rw [toJson_eq]
    exact Json.length_compact_lt_object (Json.mem_members.2 hv)
  rcases h with ⟨ds, hds, hc⟩ | hc | hc
  · have hds : ("properties", some (objectOf ds)) ∈ d.entries := by
      simp [entries, Option.mem_def.1 hds]
    obtain ⟨e, he, rfl⟩ := List.mem_map.1 hc
    have hproperty : (e.1, e.2.toJson) ∈ Table.mapValues toJson ds :=
      Table.mem_mapValues.2 ⟨_, he, rfl⟩
    exact (Json.length_compact_lt_object hproperty).trans (hmember hds)
  · have hc : ("items", some c.toJson) ∈ d.entries := by simp [entries, Option.mem_def.1 hc]
    exact hmember hc
  · have hc : ("additionalProperties", some c.toJson) ∈ d.entries := by
      simp [entries, Option.mem_def.1 hc]
    exact hmember hc

/-- A schema has a longer canonical text than the schemas that stand in it. -/
theorem Child.length_canonical_lt (h : Child c d) : c.canonical.length < d.canonical.length :=
  h.undocumented.length_toJson_lt

end Declaration

/-! ## Schemas -/

namespace Schema

/-- A schema stands in another one, as a property or for elements or other values. -/
def Child (c s : Schema) : Prop :=
  c ∈ Table.values s.properties ∨ c ∈ s.items ∨ c ∈ s.additional

section

variable {P : Schema → Prop}

mutual

/-- What holds of a schema as soon as it holds of those that stand in it, holds of every schema. -/
theorem induct (h : ∀ s, (∀ c, Child c s → P c) → P s) : (s : Schema) → P s
  | ⟨_, properties, items, additional⟩ => by
    refine h _ fun c hc => ?_
    rcases hc with hc | hc | hc
    · exact induct_table h properties c hc
    · exact induct_option h items c hc
    · exact induct_option h additional c hc

theorem induct_option (h : ∀ s, (∀ c, Child c s → P c) → P s) : (s : Option Schema) → ∀ c ∈ s, P c
  | none => nofun
  | some s => by
    rintro c ⟨⟩
    exact induct h s

theorem induct_table (h : ∀ s, (∀ c, Child c s → P c) → P s) :
    (ss : List (String × Schema)) → ∀ c ∈ Table.values ss, P c
  | [] => nofun
  | (_, s) :: ss => List.forall_mem_cons.2 ⟨induct h s, induct_table h ss⟩

end

end

/-- Canonical texts get shorter on the way down. -/
inductive Tapered : Schema → Prop
  | intro {s : Schema} (shorter : ∀ c, Child c s → c.canonical.length < s.canonical.length)
      (nested : ∀ c, Child c s → Tapered c) : Tapered s

theorem Tapered.shorter {c s : Schema} (h : s.Tapered) (hc : Child c s) :
    c.canonical.length < s.canonical.length := by
  cases h with
  | intro shorter => exact shorter c hc

theorem Tapered.nested {c s : Schema} (h : s.Tapered) (hc : Child c s) : c.Tapered := by
  cases h with
  | intro _ nested => exact nested c hc

theorem of_headOf {place : Place} {key : String} {d : Declaration} {head : SchemaHead}
    (h : headOf place key d = .ok head) :
    head.place = place ∧ head.key = key ∧ head.canonical = d.canonical := by
  obtain ⟨type, -, h⟩ := Except.bind_eq_ok_iff.1 h
  obtain ⟨location, -, h⟩ := Except.bind_eq_ok_iff.1 h
  obtain rfl := Except.ok.inj h
  exact ⟨rfl, rfl, rfl⟩

theorem exists_of_ofOption {place : Place} {key : String} {d : Option Declaration}
    {s : Option Schema} (h : ofOption place key d = .ok s) :
    ∀ c ∈ s, ∃ x ∈ d, ofDeclaration place.element key x = .ok c := by
  cases d with
  | none =>
    obtain rfl := Except.ok.inj h
    exact nofun
  | some d =>
    obtain ⟨s, hs, h⟩ := Except.bind_eq_ok_iff.1 h
    obtain rfl := Except.ok.inj h
    rintro c ⟨⟩
    exact ⟨d, rfl, hs⟩

theorem exists_of_ofTable {place : Place} {ds : Table Declaration} {ss : Table Schema}
    (h : ofTable place ds = .ok ss) :
    ∀ e ∈ ss, ∃ x ∈ ds.values, ofDeclaration (place.property e.1) e.1 x = .ok e.2 := by
  induction ds generalizing ss with
  | nil =>
    obtain rfl := Except.ok.inj h
    exact nofun
  | cons e ds ih =>
    obtain ⟨s, hs, h⟩ := Except.bind_eq_ok_iff.1 h
    obtain ⟨rest, hrest, h⟩ := Except.bind_eq_ok_iff.1 h
    obtain rfl := Except.ok.inj h
    refine List.forall_mem_cons.2 ⟨⟨e.2, List.mem_cons_self, hs⟩, fun c hc => ?_⟩
    obtain ⟨x, hx, hc⟩ := ih hrest c hc
    exact ⟨x, List.mem_cons_of_mem _ hx, hc⟩

theorem exists_of_ofOptionTable {place : Place} {ds : Option (Table Declaration)}
    {ss : Table Schema} (h : ofOptionTable place ds = .ok ss) : ∀ e ∈ ss,
      ∃ xs ∈ ds, ∃ x ∈ xs.values, ofDeclaration (place.property e.1) e.1 x = .ok e.2 := by
  cases ds with
  | none =>
    obtain rfl := Except.ok.inj h
    exact nofun
  | some ds => exact fun e he => ⟨ds, rfl, exists_of_ofTable h e he⟩

/-- A checked schema was checked part by part. -/
theorem of_ofDeclaration {place : Place} {key : String} {d : Declaration} {s : Schema}
    (h : ofDeclaration place key d = .ok s) : headOf place key d = .ok s.toSchemaHead ∧
      ofOptionTable place d.properties = .ok s.properties ∧
      ofOption place key d.items = .ok s.items ∧
      ofOption place key d.additional = .ok s.additional := by
  obtain ⟨a, properties, items, additional⟩ := d
  obtain ⟨head, hhead, h⟩ := Except.bind_eq_ok_iff.1 h
  obtain ⟨ps, hproperties, h⟩ := Except.bind_eq_ok_iff.1 h
  obtain ⟨is, hitems, h⟩ := Except.bind_eq_ok_iff.1 h
  obtain ⟨as, hadditional, h⟩ := Except.bind_eq_ok_iff.1 h
  obtain rfl := Except.ok.inj h
  exact ⟨hhead, hproperties, hitems, hadditional⟩

/-- What stands in a checked schema was checked from what stands in the declaration. -/
theorem exists_child_of_ofDeclaration {place : Place} {key : String} {d : Declaration} {s : Schema}
    (h : ofDeclaration place key d = .ok s) : s.canonical = d.canonical ∧
      ∀ c, Child c s → ∃ x place key, x.Child d ∧ ofDeclaration place key x = .ok c := by
  obtain ⟨hhead, hproperties, hitems, hadditional⟩ := of_ofDeclaration h
  refine ⟨(of_headOf hhead).2.2, ?_⟩
  rintro c (hc | hc | hc)
  · obtain ⟨e, he, rfl⟩ := List.mem_map.1 hc
    obtain ⟨xs, hxs, x, hx, he⟩ := exists_of_ofOptionTable hproperties e he
    exact ⟨x, _, _, .inl ⟨xs, hxs, hx⟩, he⟩
  · obtain ⟨x, hx, hc⟩ := exists_of_ofOption hitems c hc
    exact ⟨x, _, _, .inr (.inl hx), hc⟩
  · obtain ⟨x, hx, hc⟩ := exists_of_ofOption hadditional c hc
    exact ⟨x, _, _, .inr (.inr hx), hc⟩

theorem tapered_of_ofDeclaration {place : Place} {key : String} {d : Declaration} {s : Schema}
    (h : ofDeclaration place key d = .ok s) : s.Tapered := by
  induction d using Declaration.induct generalizing place key s with
  | h d ih =>
    obtain ⟨hcanonical, hchild⟩ := exists_child_of_ofDeclaration h
    refine .intro (fun c hc => ?_) fun c hc => ?_
    · obtain ⟨x, place', key', hx, hc⟩ := hchild c hc
      rw [hcanonical, (exists_child_of_ofDeclaration hc).1]
      exact hx.length_canonical_lt
    · obtain ⟨x, place', key', hx, hc⟩ := hchild c hc
      exact ih x hx hc

theorem tapered_of_mapM {place : String → Place} {ds : Table Declaration} {t : Table Schema}
    (h : ds.mapM (entryOf place) = .ok t) : ∀ s ∈ t.values, s.Tapered := by
  refine List.forall_mem_map.2 fun e he => ?_
  obtain ⟨x, -, hx⟩ := Resolution.exists_mem_of_forall₂ (Resolution.forall₂_of_mapM h) e he
  obtain ⟨s, hs, hx⟩ := Except.bind_eq_ok_iff.1 hx
  obtain rfl := Except.ok.inj hx
  exact tapered_of_ofDeclaration hs

/-! ### Where schemas stand -/

/-- A schema stands at a place with a key, and those in it stand where this and their own keys
say. -/
inductive Placed : Place → String → Schema → Prop
  | intro {s : Schema} (property : ∀ e ∈ s.properties, Placed (s.place.property e.1) e.1 e.2)
      (element : ∀ c, c ∈ s.items ∨ c ∈ s.additional → Placed s.place.element s.key c) :
      Placed s.place s.key s

theorem Placed.key_eq {place : Place} {key : String} {s : Schema} (h : Placed place key s) :
    s.key = key := by
  cases h
  rfl

theorem placed_of_ofDeclaration {place : Place} {key : String} {d : Declaration} {s : Schema}
    (h : ofDeclaration place key d = .ok s) : Placed place key s := by
  induction d using Declaration.induct generalizing place key s with
  | h d ih =>
    obtain ⟨hhead, hproperties, hitems, hadditional⟩ := of_ofDeclaration h
    obtain ⟨rfl, rfl, -⟩ := of_headOf hhead
    refine .intro (fun e he => ?_) ?_
    · obtain ⟨xs, hxs, x, hx, he⟩ := exists_of_ofOptionTable hproperties e he
      exact ih x (.inl ⟨xs, hxs, hx⟩) he
    · rintro c (hc | hc)
      · obtain ⟨x, hx, hc⟩ := exists_of_ofOption hitems c hc
        exact ih x (.inr (.inl hx)) hc
      · obtain ⟨x, hx, hc⟩ := exists_of_ofOption hadditional c hc
        exact ih x (.inr (.inr hx)) hc

theorem placed_of_mapM {place : String → Place} {ds : Table Declaration} {t : Table Schema}
    (h : ds.mapM (entryOf place) = .ok t) : ∀ e ∈ t, Placed (place e.1) e.1 e.2 := by
  intro e he
  obtain ⟨x, -, hx⟩ := Resolution.exists_mem_of_forall₂ (Resolution.forall₂_of_mapM h) e he
  obtain ⟨s, hs, hx⟩ := Except.bind_eq_ok_iff.1 hx
  obtain rfl := Except.ok.inj hx
  exact placed_of_ofDeclaration hs

end Schema

/-! ## Methods -/

/-- The schemas of a method stand where the method and their keys say. -/
structure Method.Placed (m : Method) : Prop where
  parameters : ∀ e ∈ m.parameters, Schema.Placed (.ofMethod m.id e.1) e.1 e.2
  request : ∀ s ∈ m.request, Schema.Placed (.ofMethod m.id "request") "request" s
  response : ∀ s ∈ m.response, Schema.Placed (.ofMethod m.id "response") "response" s

theorem Method.placed_of_bodyOf {id key : String} {d : Option Declaration} {s : Option Schema}
    (h : bodyOf id key d = .ok s) : ∀ c ∈ s, Schema.Placed (.ofMethod id key) key c := by
  cases d with
  | none =>
    obtain rfl := Except.ok.inj h
    exact nofun
  | some d =>
    obtain ⟨s, hs, h⟩ := Except.bind_eq_ok_iff.1 h
    obtain rfl := Except.ok.inj h
    rintro c ⟨⟩
    exact Schema.placed_of_ofDeclaration hs

theorem Method.placed_of_ofDeclaration {document resource key : String} {d : MethodDeclaration}
    {m : Method} (h : ofDeclaration document resource key d = .ok m) : m.Placed := by
  unfold Method.ofDeclaration at h
  cases hpath : d.path with
  | none =>
    simp only [hpath] at h
    cases h
  | some path =>
    cases hflatPath : d.flatPath
    all_goals
      simp only [hpath, hflatPath] at h
      obtain ⟨flatPath, -, h⟩ := Except.bind_eq_ok_iff.1 h
      obtain ⟨parameters, hparameters, h⟩ := Except.bind_eq_ok_iff.1 h
      obtain ⟨request, hrequest, h⟩ := Except.bind_eq_ok_iff.1 h
      obtain ⟨response, hresponse, h⟩ := Except.bind_eq_ok_iff.1 h
      obtain rfl := Except.ok.inj h
      exact ⟨Schema.placed_of_mapM hparameters, placed_of_bodyOf hrequest,
        placed_of_bodyOf hresponse⟩

/-! ## Documents -/

namespace Document

/-- In all schemas and parameters of a document, canonical texts get shorter on the way down. -/
structure Tapered (d : Document) : Prop where
  schemas : ∀ s ∈ Table.values d.schemas, s.Tapered
  parameters : ∀ resource ∈ d.resources, ∀ m ∈ resource.2, ∀ s ∈ Table.values m.parameters,
    s.Tapered

theorem tapered_of_ofText {text : String} {d : Document} (h : ofText text = .ok d) :
    d.Tapered := by
  obtain ⟨decl, -, h⟩ := exists_of_ofText h
  refine ⟨Schema.tapered_of_mapM (exists_of_ofDeclaration h).1, fun resource hresource m hm => ?_⟩
  obtain ⟨x, -, -, hmethod⟩ := exists_declared h hresource hm
  obtain ⟨place, hparameters⟩ := (Method.checked_of_ofDeclaration hmethod).parameters
  exact Schema.tapered_of_mapM hparameters

end Document

end DiscoveryGrpc.Api
