import Mathlib.Data.Finset.Card
import Mathlib.Data.List.Induction
import DiscoveryGrpc.Proofs.Config.Export

/-!
# What a run is found to have drifted by

The registry notices some inconsistencies while it is called and others at the end, in tables that
it builds for this. `driftOf` says what there is to find in the calls themselves: every call for a
location that had a call before, every loaded location without a call, and, among the first calls of
the locations, every name with several schemas and every schema with several names. The registry
finds just this, each once (`drift_perm`), and if there is nothing to find its configuration has the
calls as its uses, whatever their order (`toConfig_registerAll`).
-/

namespace DiscoveryGrpc

namespace NameSet

theorem mem_ofList {x : String} {names : List String} : x ∈ ofList names ↔ x ∈ names := by
  have hfold : ∀ s : NameSet, x ∈ names.foldl (fun s n => insert n s) s ↔ x ∈ names ∨ x ∈ s := by
    induction names with
    | nil => simp
    | cons n names ih =>
      intro s
      rw [List.foldl_cons, ih, mem_insert, List.mem_cons, or_left_comm, or_assoc]
  rw [ofList, hfold]
  exact or_iff_left List.not_mem_nil

theorem sorted_ofList (names : List String) : (ofList names).Pairwise (· < ·) := by
  have hfold : ∀ s : NameSet, s.Pairwise (· < ·) →
      (names.foldl (fun s n => insert n s) s).Pairwise (· < ·) := by
    induction names with
    | nil => exact fun s h => h
    | cons n names ih => exact fun s h => ih _ (sorted_insert h)
  exact hfold [] .nil

/-- The set of the elements of a list does not depend on their order. -/
theorem ofList_congr {xs ys : List String} (h : ∀ x, x ∈ xs ↔ x ∈ ys) : ofList xs = ofList ys := by
  have hxs := sorted_ofList xs
  have hys := sorted_ofList ys
  have hperm : (ofList xs).Perm (ofList ys) :=
    (List.perm_ext_iff_of_nodup (hxs.imp Table.ne_of_lt) (hys.imp Table.ne_of_lt)).2 fun x => by
      rw [mem_ofList, mem_ofList, h]
  exact hperm.eq_of_pairwise (fun a b _ _ hab hba => absurd hab (String.lt_asymm hba)) hxs hys

theorem length_ofList_le_one_iff {xs : List String} :
    (ofList xs).length ≤ 1 ↔ ∀ x ∈ xs, ∀ y ∈ xs, x = y := by
  have hnodup : (ofList xs).Nodup := (sorted_ofList xs).imp Table.ne_of_lt
  have hcard : (ofList xs).length ≤ 1 ↔ ∀ x ∈ ofList xs, ∀ y ∈ ofList xs, x = y :=
    Finset.card_le_one (s := ⟨(ofList xs : Multiset String), hnodup⟩)
  simpa only [mem_ofList] using hcard

end NameSet

namespace Table

variable {β γ : Type}

/-- Gathers elements by name, those of each name first to last. -/
def gather (name : γ → String) (add : β → γ → β) (start : β) (xs : List γ) : Table β :=
  xs.foldl (fun t x => t.insert (name x) (add ((t.get? (name x)).getD start) x)) []

variable (name : γ → String) (add : β → γ → β) (start : β)

theorem gather_concat (xs : List γ) (x : γ) : gather name add start (xs ++ [x]) =
    (gather name add start xs).insert (name x)
      (add (((gather name add start xs).get? (name x)).getD start) x) := by
  simp only [gather, List.foldl_append, List.foldl_cons, List.foldl_nil]

theorem sorted_gather (xs : List γ) : (gather name add start xs).Sorted := by
  induction xs using List.reverseRecOn with
  | nil => exact List.Pairwise.nil
  | append_singleton xs x ih => exact gather_concat name add start xs x ▸ sorted_insert ih

theorem get?_gather (xs : List γ) (k : String) : (gather name add start xs).get? k =
    if k ∈ xs.map name then some ((xs.filter (name · = k)).foldl add start) else none := by
  induction xs using List.reverseRecOn with
  | nil => rfl
  | append_singleton xs x ih =>
    rw [gather_concat, get?_insert]
    by_cases hk : k = name x
    · subst hk
      have hmem : name x ∈ (xs ++ [x]).map name := by simp
      rw [if_pos rfl, if_pos hmem, ih, List.filter_append, List.foldl_append,
        List.filter_cons_of_pos (by simp)]
      split
      · rfl
      · rename_i hnew
        have hnil : xs.filter (name · = name x) = [] := by
          refine List.filter_eq_nil_iff.2 fun y hy heq => hnew ?_
          exact of_decide_eq_true heq ▸ List.mem_map_of_mem hy
        rw [hnil]
        rfl
    · rw [if_neg hk, ih, List.filter_append, List.filter_cons_of_neg (by simpa using Ne.symm hk)]
      simp [hk]

/-- What is gathered has every name once, with what there is of this name. -/
theorem gather_eq (xs : List γ) : gather name add start xs =
    (NameSet.ofList (xs.map name)).map fun k => (k, (xs.filter (name · = k)).foldl add start) := by
  refine ext (sorted_gather ..) (List.pairwise_map.2 (NameSet.sorted_ofList _)) fun k => ?_
  rw [get?_gather]
  have hlookup : ∀ ks : List String, get? (ks.map fun k =>
      (k, (xs.filter (name · = k)).foldl add start)) k
        = if k ∈ ks then some ((xs.filter (name · = k)).foldl add start) else none := by
    intro ks
    induction ks with
    | nil => rfl
    | cons l ks ih =>
      rw [List.map_cons, get?_cons, ih]
      by_cases hk : k = l <;> simp [hk]
  rw [hlookup]
  simp only [NameSet.mem_ofList]

/-- A table of a list without repeated names has its entries in order. -/
theorem ofList_perm {entries : List (String × β)} (hn : (entries.map (·.1)).Nodup) :
    (ofList entries).Perm entries := by
  refine (List.perm_ext_iff_of_nodup (sorted_ofList entries).nodup hn.of_map).2 fun e => ?_
  exact (mem_iff_get? (sorted_ofList entries)).trans (get?_ofList hn)

end Table

namespace Config

/-! ## What there is to find -/

/-- The first use of every location. -/
def recorded : List Use → List Use
  | [] => []
  | u :: us => u :: (recorded us).filter (·.location ≠ u.location)

/-- A problem for every use of a location that was used before. -/
def repeatsOf (before : List Use) : List Use → List Drift
  | [] => []
  | u :: us =>
    let problem := (before.find? (·.location = u.location)).map fun first =>
      Drift.repeated u.location first.name u.name
    problem.toList ++ repeatsOf (before ++ [u]) us

/-- A problem for every loaded location that is not used. -/
def unusedOf (loaded us : List Use) : List Drift :=
  (loaded.filter fun u => !us.any (·.location = u.location)).map fun u =>
    .unused u.location u.name

/-- The schemas that have a name. -/
def schemasOf (us : List Use) (name : String) : NameSet :=
  NameSet.ofList ((us.filter (·.name = name)).map (·.schema))

/-- The locations where a schema has a name. -/
def locationsOf (us : List Use) (schema name : String) : NameSet :=
  NameSet.ofList (((us.filter (·.schema = schema)).filter (·.name = name)).map (·.location))

/-- The names of a schema. -/
def namesOf (us : List Use) (schema : String) : NameSet :=
  NameSet.ofList ((us.filter (·.schema = schema)).map (·.name))

/-- A problem for every name of several schemas. -/
def sharedNamesOf (us : List Use) : List Drift :=
  (NameSet.ofList (us.map (·.name))).filterMap fun name =>
    let schemas := schemasOf us name
    if 1 < schemas.length then some (.sharedName name schemas.length) else none

/-- A problem for every schema with several names. -/
def manyNamesOf (us : List Use) : List Drift :=
  (NameSet.ofList (us.map (·.schema))).filterMap fun schema =>
    let names := namesOf us schema
    if 1 < names.length then
      some (.manyNames (names.map fun name => (name, locationsOf us schema name)))
    else none

/-- Everything that is wrong with the uses of a run that follows the loaded ones. -/
def driftOf (loaded us : List Use) : List Drift :=
  repeatsOf [] us ++ unusedOf loaded us ++ sharedNamesOf (recorded us) ++ manyNamesOf (recorded us)

/-- Nothing is wrong with them. -/
structure Settled (loaded us : List Use) : Prop where
  /-- Every loaded location is used, -/
  used : ∀ u ∈ loaded, ∃ v ∈ us, v.location = u.location
  /-- no location is used twice, -/
  once : (us.map (·.location)).Nodup
  /-- no name has two schemas, -/
  schema_eq : ∀ u ∈ us, ∀ v ∈ us, u.name = v.name → u.schema = v.schema
  /-- and no schema has two names. -/
  name_eq : ∀ u ∈ us, ∀ v ∈ us, u.schema = v.schema → u.name = v.name

/-! ### The first uses -/

theorem mem_recorded {us : List Use} {u : Use} :
    u ∈ recorded us ↔ us.find? (·.location = u.location) = some u := by
  induction us with
  | nil => simp [recorded]
  | cons v us ih =>
    rw [recorded, List.mem_cons, List.mem_filter, ih, List.find?_cons]
    by_cases hl : v.location = u.location
    · simp [hl, eq_comm]
    · have hne : u ≠ v := fun h => hl (h ▸ rfl)
      simp [hl, hne, Ne.symm hl]

theorem recorded_of_nodup {us : List Use} (h : (us.map (·.location)).Nodup) : recorded us = us := by
  induction us with
  | nil => rfl
  | cons u us ih =>
    obtain ⟨hu, hus⟩ := List.nodup_cons.1 h
    rw [recorded, ih hus, List.filter_eq_self.2]
    exact fun v hv => decide_eq_true fun heq => hu (List.mem_map.2 ⟨v, hv, heq⟩)

theorem repeatsOf_append (before us vs : List Use) :
    repeatsOf before (us ++ vs) = repeatsOf before us ++ repeatsOf (before ++ us) vs := by
  induction us generalizing before with
  | nil => rw [List.append_nil]; rfl
  | cons u us ih =>
    rw [List.cons_append, repeatsOf, ih, repeatsOf]
    simp only [List.append_assoc, List.cons_append, List.nil_append]

theorem repeatsOf_eq_nil_iff {before us : List Use} : repeatsOf before us = [] ↔
    (us.map (·.location)).Nodup ∧ ∀ u ∈ us, ∀ v ∈ before, v.location ≠ u.location := by
  induction us generalizing before with
  | nil => simp [repeatsOf]
  | cons u us ih =>
    simp only [repeatsOf, List.append_eq_nil_iff, ih, Option.toList_eq_nil_iff,
      Option.map_eq_none_iff, List.find?_eq_none, decide_eq_true_eq, List.map_cons,
      List.nodup_cons, List.mem_map, List.mem_append, List.mem_singleton, List.forall_mem_cons]
    constructor
    · rintro ⟨hu, hnodup, hbefore⟩
      refine ⟨⟨?_, hnodup⟩, hu, fun v hv x hx => hbefore v hv x (.inl hx)⟩
      rintro ⟨v, hv, heq⟩
      exact hbefore v hv u (.inr rfl) heq.symm
    · rintro ⟨⟨hnew, hnodup⟩, hu, hbefore⟩
      refine ⟨hu, hnodup, fun v hv x hx => ?_⟩
      rcases hx with hx | rfl
      · exact hbefore v hv x hx
      · exact fun heq => hnew ⟨v, hv, heq.symm⟩

/-! ### Order -/

variable {us vs : List Use}

theorem ofList_map_congr (h : ∀ u, u ∈ us ↔ u ∈ vs) (f : Use → String) :
    NameSet.ofList (us.map f) = NameSet.ofList (vs.map f) :=
  NameSet.ofList_congr fun x => by simp only [List.mem_map, h]

theorem mem_filter_congr (h : ∀ u, u ∈ us ↔ u ∈ vs) (p : Use → Bool) (u : Use) :
    u ∈ us.filter p ↔ u ∈ vs.filter p := by
  rw [List.mem_filter, List.mem_filter, h]

theorem sharedNamesOf_congr (h : ∀ u, u ∈ us ↔ u ∈ vs) : sharedNamesOf us = sharedNamesOf vs := by
  have hschemas (name : String) : schemasOf us name = schemasOf vs name :=
    ofList_map_congr (mem_filter_congr h _) _
  simp only [sharedNamesOf, ofList_map_congr h, hschemas]

theorem namesOf_congr (h : ∀ u, u ∈ us ↔ u ∈ vs) (schema : String) :
    namesOf us schema = namesOf vs schema :=
  ofList_map_congr (mem_filter_congr h _) _

theorem locationsOf_congr (h : ∀ u, u ∈ us ↔ u ∈ vs) (schema name : String) :
    locationsOf us schema name = locationsOf vs schema name :=
  ofList_map_congr (mem_filter_congr (mem_filter_congr h _) _) _

theorem manyNamesOf_congr (h : ∀ u, u ∈ us ↔ u ∈ vs) : manyNamesOf us = manyNamesOf vs := by
  simp only [manyNamesOf, ofList_map_congr h, namesOf_congr h, locationsOf_congr h]

/-! ### The tables of the registry -/

theorem foldl_insert_map (f : Use → String) (us : List Use) :
    us.foldl (fun s u => NameSet.insert (f u) s) [] = NameSet.ofList (us.map f) := by
  rw [NameSet.ofList, List.foldl_map]

theorem schemasByName_eq (us : List Use) :
    Table.gather (·.name) (fun s u => NameSet.insert u.schema s) [] us =
      (NameSet.ofList (us.map (·.name))).map fun name => (name, schemasOf us name) := by
  rw [Table.gather_eq]
  simp only [foldl_insert_map, schemasOf]

theorem ofUses_eq (us : List Use) : Grouping.ofUses us =
    (NameSet.ofList (us.map (·.schema))).map fun schema =>
      (schema, (namesOf us schema).map fun name => (name, locationsOf us schema name)) := by
  have hinner (vs : List Use) : vs.foldl (fun names u => Table.insert u.name
      (NameSet.insert u.location ((Table.get? names u.name).getD [])) names) [] =
        Table.gather (·.name) (fun s u => NameSet.insert u.location s) [] vs := rfl
  have houter : Grouping.ofUses us = Table.gather (·.schema) (fun names u => Table.insert u.name
      (NameSet.insert u.location ((Table.get? names u.name).getD [])) names) [] us := rfl
  rw [houter, Table.gather_eq]
  simp only [hinner, Table.gather_eq, foldl_insert_map, namesOf, locationsOf]

/-- The grouping of uses does not depend on their order. -/
theorem ofUses_congr (h : ∀ u, u ∈ us ↔ u ∈ vs) : Grouping.ofUses us = Grouping.ofUses vs := by
  simp only [ofUses_eq, ofList_map_congr h, namesOf_congr h, locationsOf_congr h]

/-! ### Nothing to find -/

/-- Every key has at most one value if uses of one key have one value. -/
theorem forall_length_le_one_iff (key value : Use → String) :
    (∀ k ∈ NameSet.ofList (us.map key),
      (NameSet.ofList ((us.filter (key · = k)).map value)).length ≤ 1) ↔
        ∀ u ∈ us, ∀ v ∈ us, key u = key v → value u = value v := by
  simp only [NameSet.length_ofList_le_one_iff, NameSet.mem_ofList, List.forall_mem_map,
    List.mem_filter, decide_eq_true_eq]
  constructor
  · exact fun h u hu v hv heq => h v hv u ⟨hu, heq⟩ v ⟨hv, rfl⟩
  · exact fun h w _ u ⟨hu, huw⟩ v ⟨hv, hvw⟩ => h u hu v hv (huw.trans hvw.symm)

theorem ite_some_eq_none_iff {k : Nat} {d : Drift} :
    (if 1 < k then some d else none) = none ↔ k ≤ 1 := by
  rw [← Nat.not_lt]
  split <;> simp_all

theorem sharedNamesOf_eq_nil_iff : sharedNamesOf us = [] ↔
    ∀ u ∈ us, ∀ v ∈ us, u.name = v.name → u.schema = v.schema := by
  rw [← forall_length_le_one_iff, sharedNamesOf, List.filterMap_eq_nil_iff]
  exact forall₂_congr fun name _ => ite_some_eq_none_iff

theorem manyNamesOf_eq_nil_iff : manyNamesOf us = [] ↔
    ∀ u ∈ us, ∀ v ∈ us, u.schema = v.schema → u.name = v.name := by
  rw [← forall_length_le_one_iff, manyNamesOf, List.filterMap_eq_nil_iff]
  exact forall₂_congr fun schema _ => ite_some_eq_none_iff

theorem unusedOf_eq_nil_iff {loaded : List Use} : unusedOf loaded us = [] ↔
    ∀ u ∈ loaded, ∃ v ∈ us, v.location = u.location := by
  simp [unusedOf]

theorem driftOf_eq_nil_iff {loaded : List Use} : driftOf loaded us = [] ↔ Settled loaded us := by
  simp only [driftOf, List.append_eq_nil_iff, repeatsOf_eq_nil_iff, unusedOf_eq_nil_iff,
    sharedNamesOf_eq_nil_iff, manyNamesOf_eq_nil_iff]
  constructor
  · rintro ⟨⟨⟨⟨honce, -⟩, hused⟩, hschema⟩, hname⟩
    rw [recorded_of_nodup honce] at hschema hname
    exact ⟨hused, honce, hschema, hname⟩
  · rintro ⟨hused, honce, hschema, hname⟩
    rw [recorded_of_nodup honce]
    exact ⟨⟨⟨⟨honce, by simp⟩, hused⟩, hschema⟩, hname⟩

theorem Settled.perm {loaded : List Use} (h : Settled loaded us) (hp : us.Perm vs) :
    Settled loaded vs := by
  obtain ⟨hused, honce, hschema, hname⟩ := h
  refine ⟨?_, (hp.map _).nodup_iff.1 honce, ?_, ?_⟩
  · simpa only [hp.mem_iff] using hused
  · simpa only [hp.mem_iff] using hschema
  · simpa only [hp.mem_iff] using hname

end Config

namespace Registry

open Config

/-! ## What the registry finds -/

/-- A registry at the start of a run, and the uses that it was loaded from. -/
inductive Starts : List Use → Registry → Prop
  | empty : Starts [] .empty
  | config {c : Config} {r : Registry} (h : ofConfig c = .ok r) : Starts c.uses r

/-- Registers uses one after another. -/
def registerAll (r : Registry) (us : List Use) : Registry :=
  us.foldl (fun r u => r.register u.location u.name u.schema) r

variable {loaded us : List Use} {r r₀ : Registry}

/-- What a registry has and is loaded with when uses are registered. -/
structure After (r₀ : Registry) (us : List Use) (r : Registry) : Prop where
  configured : r.configured = r₀.configured
  sorted : r.registrations.Sorted
  registrations (location : String) : r.registrations.get? location =
    (us.find? (·.location = location)).map fun u => ⟨u.name, u.schema⟩
  problems : r.problems = repeatsOf [] us

/-- One more use is registered. -/
theorem After.register (h : After r₀ us r) (u : Use) :
    After r₀ (us ++ [u]) (r.register u.location u.name u.schema) := by
  have hget := h.registrations u.location
  have hproblems : repeatsOf [] (us ++ [u]) = r.problems ++
      ((us.find? (·.location = u.location)).map fun first =>
        Drift.repeated u.location first.name u.name).toList := by
    rw [repeatsOf_append, ← h.problems, List.nil_append, repeatsOf, repeatsOf, List.append_nil]
  cases hfirst : us.find? (·.location = u.location) with
  | some first =>
    rw [hfirst, Option.map_some] at hget hproblems
    rw [register_of_registered hget]
    refine ⟨h.configured, h.sorted, fun l => ?_, hproblems.symm⟩
    rw [h.registrations, List.find?_append]
    by_cases hl : u.location = l
    · subst hl
      rw [hfirst]
      rfl
    · simp [hl]
  | none =>
    rw [hfirst, Option.map_none] at hget hproblems
    rw [register_of_new hget]
    refine ⟨h.configured, Table.sorted_insert h.sorted, fun l => ?_, ?_⟩
    · rw [Table.get?_insert, h.registrations, List.find?_append]
      by_cases hl : l = u.location
      · subst hl
        rw [hfirst]
        simp
      · simp [hl, Ne.symm hl]
    · rw [hproblems, Option.toList_none, List.append_nil]

/-- A run from its start. -/
theorem after_registerAll (hregistrations : r₀.registrations = []) (hproblems : r₀.problems = [])
    (us : List Use) : After r₀ us (r₀.registerAll us) := by
  induction us using List.reverseRecOn with
  | nil =>
    refine ⟨rfl, hregistrations ▸ List.Pairwise.nil, fun _ => ?_, hproblems⟩
    rw [registerAll, List.foldl_nil, hregistrations]
    rfl
  | append_singleton us u ih =>
    rw [registerAll, List.foldl_append]
    exact ih.register u

/-- The uses of the run are the first ones of every location. -/
theorem After.mem_uses (h : After r₀ us r) {u : Use} : u ∈ r.uses ↔ u ∈ recorded us := by
  have huse : u ∈ r.uses ↔ (u.location, ⟨u.name, u.schema⟩) ∈ r.registrations := by
    rw [uses, List.mem_map]
    constructor
    · rintro ⟨e, he, rfl⟩
      exact he
    · exact fun he => ⟨_, he, rfl⟩
  rw [huse, Table.mem_iff_get? h.sorted, h.registrations, mem_recorded, Option.map_eq_some_iff]
  constructor
  · rintro ⟨v, hv, heq⟩
    obtain ⟨hname, hschema⟩ := Registration.mk.inj heq
    have hlocation : v.location = u.location := by simpa using List.find?_some hv
    obtain ⟨schema, name, location⟩ := v
    obtain ⟨schema', name', location'⟩ := u
    subst hname hschema hlocation
    exact hv
  · exact fun hu => ⟨u, hu, rfl⟩

theorem After.has (h : After r₀ us r) (location : String) :
    r.registrations.has location = us.any (·.location = location) := by
  rw [← Table.isSome_get?, h.registrations, Option.isSome_map, List.isSome_find?]

theorem After.unused_perm (h : After r₀ us r)
    (hloaded : r₀.configured.Perm (loaded.map fun u => (u.location, u.name))) :
    r.unused.Perm (unusedOf loaded us) := by
  rw [unused, unusedOf, h.configured]
  simp only [h.has]
  refine ((hloaded.filter _).map _).trans (.of_eq ?_)
  rw [List.filter_map, List.map_map]
  rfl

theorem After.sharedNames_eq (h : After r₀ us r) : r.sharedNames = sharedNamesOf (recorded us) := by
  have htable : r.schemasByName = _ := schemasByName_eq r.uses
  rw [sharedNames, htable, List.filterMap_map, ← sharedNamesOf_congr fun u => h.mem_uses]
  rfl

theorem manyNames_eq (r : Registry) : r.manyNames = manyNamesOf r.uses := by
  rw [manyNames, grouping, ofUses_eq, List.filterMap_map]
  simp only [manyNamesOf, Function.comp_def, List.length_map]

/-- The registry finds what there is to find. -/
theorem After.drift_perm (h : After r₀ us r)
    (hloaded : r₀.configured.Perm (loaded.map fun u => (u.location, u.name))) :
    r.drift.Perm (driftOf loaded us) := by
  rw [drift, driftOf, h.problems, h.sharedNames_eq, manyNames_eq,
    manyNamesOf_congr fun u => h.mem_uses]
  exact (((h.unused_perm hloaded).append_left _).append_right _).append_right _

/-! ## Runs from their start -/

theorem nodup_of_foldl_load {t t' : Table String} {problems : List Drift}
    (h : us.foldl load (t, problems) = (t', [])) :
    (us.map (·.location)).Nodup ∧ ∀ u ∈ us, t.get? u.location = none := by
  induction us generalizing t problems with
  | nil => simp
  | cons u us ih =>
    rw [List.foldl_cons, load] at h
    obtain ⟨hnodup, hnew⟩ := ih h
    have hproblems := (get?_of_foldl_load h).1
    have hu : t.get? u.location = none := by
      cases hfirst : t.get? u.location with
      | none => rfl
      | some first => simp [hfirst] at hproblems
    have hother : ∀ v ∈ us, v.location ≠ u.location ∧ t.get? v.location = none := by
      intro v hv
      have hv := hnew v hv
      rw [Table.get?_insert] at hv
      split at hv
      · cases hv
      · rename_i hne
        exact ⟨hne, hv⟩
    refine ⟨List.nodup_cons.2 ⟨fun hmem => ?_, hnodup⟩,
      List.forall_mem_cons.2 ⟨hu, fun v hv => (hother v hv).2⟩⟩
    obtain ⟨v, hv, heq⟩ := List.mem_map.1 hmem
    exact (hother v hv).1 heq

/-- What can be loaded lists no location twice. -/
theorem nodup_of_ofConfig {c : Config} (h : ofConfig c = .ok r) :
    (c.uses.map (·.location)).Nodup := by
  unfold ofConfig at h
  split at h
  · rename_i hload
    exact (nodup_of_foldl_load hload).1
  · cases h

theorem Starts.fresh (h : Starts loaded r₀) : r₀.registrations = [] ∧ r₀.problems = [] ∧
    r₀.configured.Perm (loaded.map fun u => (u.location, u.name)) := by
  cases h with
  | empty => exact ⟨rfl, rfl, .refl _⟩
  | @config c _ h =>
    have hnodup := nodup_of_ofConfig h
    rw [ofConfig_eq_ok hnodup] at h
    obtain rfl := Except.ok.inj h
    refine ⟨rfl, rfl, Table.ofList_perm ?_⟩
    rwa [List.map_map]

theorem Starts.after (h : Starts loaded r₀) (us : List Use) : After r₀ us (r₀.registerAll us) :=
  after_registerAll h.fresh.1 h.fresh.2.1 us

theorem Starts.drift_perm (h : Starts loaded r₀) (us : List Use) :
    (r₀.registerAll us).drift.Perm (driftOf loaded us) :=
  (h.after us).drift_perm h.fresh.2.2

theorem Starts.toConfig_eq_ok_iff (h : Starts loaded r₀) {version revision : String} {c : Config} :
    (r₀.registerAll us).toConfig version revision = .ok c ↔ Settled loaded us ∧ c = {
      converterVersion := currentVersion
      apiVersion := version
      discoveryRevision := revision
      inlineSchemas := (Grouping.ofUses us).inlineSchemas } := by
  rw [Registry.toConfig_eq_ok_iff, ← List.perm_nil, (h.drift_perm us).congr_left, List.perm_nil,
    driftOf_eq_nil_iff]
  refine and_congr_right fun hsettled => ?_
  have hgrouping : (r₀.registerAll us).grouping = Grouping.ofUses us :=
    ofUses_congr fun u => by rw [(h.after us).mem_uses, recorded_of_nodup hsettled.once]
  rw [hgrouping]

theorem toConfig_eq_error {r : Registry} (h : r.drift ≠ []) (version revision : String) :
    r.toConfig version revision = .error (.configDrift r.drift) := by
  rw [toConfig]
  split
  · rename_i hnil
    exact absurd hnil h
  · rfl

/-- What a run comes to that registers uses: the configuration of these uses if nothing is wrong
with them, whatever their order; otherwise one failure with everything that is wrong. -/
theorem toConfig_registerAll (h : Starts loaded r₀) (us : List Use) (version revision : String) :
    (Settled loaded us → ∃ c, (r₀.registerAll us).toConfig version revision = .ok c ∧
      c.uses.Perm us ∧
      (∀ vs, us.Perm vs → (r₀.registerAll vs).toConfig version revision = .ok c) ∧
      ∃ r, ofConfig c = .ok r ∧
        ∀ u ∈ us, ∀ schema default, r.messageName u.location schema default = u.name) ∧
    (¬Settled loaded us → ∃ problems,
      (r₀.registerAll us).toConfig version revision = .error (.configDrift problems) ∧
      problems.Perm (driftOf loaded us)) := by
  constructor
  · intro hsettled
    have hafter := h.after us
    refine ⟨_, h.toConfig_eq_ok_iff.2 ⟨hsettled, rfl⟩, ?_, fun vs hvs => ?_, _,
      ofConfig_of_toConfig hafter.sorted (h.toConfig_eq_ok_iff.2 ⟨hsettled, rfl⟩), ?_⟩
    · refine (List.perm_ext_iff_of_nodup (Grouping.ordered_ofUses us).nodup_uses
        hsettled.once.of_map).2 fun u => ?_
      exact Grouping.mem_uses_ofUses
    · refine h.toConfig_eq_ok_iff.2 ⟨hsettled.perm hvs, ?_⟩
      rw [ofUses_congr fun u => hvs.mem_iff]
    · intro u hu schema default
      have hget := hafter.registrations u.location
      have hu : us.find? (·.location = u.location) = some u := by
        rw [← mem_recorded, recorded_of_nodup hsettled.once]
        exact hu
      rw [messageName, Table.get?_mapValues, hget, hu]
      rfl
  · intro hnot
    have hdrift := h.drift_perm us
    refine ⟨_, toConfig_eq_error (fun hnil => hnot ?_) version revision, hdrift⟩
    rw [hnil] at hdrift
    exact driftOf_eq_nil_iff.1 (List.nil_perm.1 hdrift)

/-- A configuration with one location. -/
def depthConfig : Config where
  inlineSchemas := [{ schema := "a number of meters", locations := [("Depth", ["Lake.depth"])] }]

/-- Uses of its schema at this location and at another one. -/
def depthUses : List Use :=
  [⟨"a number of meters", "Depth", "Lake.depth"⟩, ⟨"a number of meters", "Depth", "Bay.depth"⟩]

theorem toConfig_registerAll_depth :
    ∃ r₀, Starts depthConfig.uses r₀ ∧ Settled depthConfig.uses depthUses ∧
      ¬Settled depthConfig.uses [] ∧
      (∃ c, (r₀.registerAll depthUses).toConfig "v1" "1" = .ok c ∧ c.uses.Perm depthUses ∧
        (∀ vs, depthUses.Perm vs → (r₀.registerAll vs).toConfig "v1" "1" = .ok c) ∧
        ∃ r, ofConfig c = .ok r ∧ ∀ u ∈ depthUses, ∀ schema default,
          r.messageName u.location schema default = u.name) ∧
      ∃ problems, (r₀.registerAll []).toConfig "v1" "1" = .error (.configDrift problems) ∧
        problems.Perm [.unused "Lake.depth" "Depth"] :=
  have h : Starts depthConfig.uses { configured := [("Lake.depth", "Depth")] } := .config rfl
  have hsettled : Settled depthConfig.uses depthUses :=
    ⟨by decide, by decide, by decide, by decide⟩
  have hnot : ¬Settled depthConfig.uses [] := fun hs => by
    obtain ⟨_, hv, -⟩ := hs.used ⟨"a number of meters", "Depth", "Lake.depth"⟩ (by decide)
    exact absurd hv List.not_mem_nil
  ⟨_, h, hsettled, hnot, (toConfig_registerAll h depthUses "v1" "1").1 hsettled,
    (toConfig_registerAll h [] "v1" "1").2 hnot⟩

/-- A second use of a location is reported and counts for nothing else: that its name has another
schema there is not reported. -/
theorem toConfig_repeatedDepth :
    let us : List Use := [⟨"a number of meters", "Depth", "Lake.depth"⟩,
      ⟨"a number of feet", "Depth", "Lake.depth"⟩]
    (∃ u ∈ us, ∃ v ∈ us, u.name = v.name ∧ u.schema ≠ v.schema) ∧
      (empty.registerAll us).toConfig "v1" "1"
        = .error (.configDrift [.repeated "Lake.depth" "Depth" "Depth"]) :=
  ⟨by decide, rfl⟩

end Registry

end DiscoveryGrpc
