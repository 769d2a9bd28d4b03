import Mathlib.Data.List.Nodup
import DiscoveryGrpc.Table

/-!
# Look-up in tables

What a table has under a name, and which names it has. A sorted table stores one value per name, so
an entry of the list is what look-up gives (`get?_of_mem`), and putting the entries in again one
after another gives the same table (`insert_append`).
-/

namespace DiscoveryGrpc

namespace Table

variable {α β : Type}

@[simp]
theorem get?_nil (name : String) : get? ([] : Table α) name = none := rfl

@[simp]
theorem has_nil (name : String) : has ([] : Table α) name = false := rfl

@[simp]
theorem values_nil : values ([] : Table α) = [] := rfl

theorem has_iff {t : Table α} {name : String} : t.has name = true ↔ name ∈ t.names := by
  simp [has, names]

theorem has_of_mem {t : Table α} {name : String} {value : α} (h : (name, value) ∈ t) :
    t.has name = true :=
  has_iff.2 (List.mem_map_of_mem h)

theorem isSome_get? (t : Table α) (name : String) : (t.get? name).isSome = t.has name := by
  induction t with
  | nil => rfl
  | cons e t ih =>
    obtain ⟨k, v⟩ := e
    rw [get?_cons]
    by_cases h : name = k
    · simp [h, has]
    · rw [if_neg h, ih]
      simp [has, Ne.symm h]

theorem flatMap_values (f : α → List β) (t : Table α) :
    t.values.flatMap f = t.flatMap fun e => f e.2 :=
  List.flatMap_map ..

theorem mem_values_of_mem {t : Table α} {e : String × α} (h : e ∈ t) : e.2 ∈ t.values :=
  List.mem_map_of_mem h

theorem has_of_get? {t : Table α} {name : String} {value : α} (h : t.get? name = some value) :
    t.has name = true := by
  rw [← isSome_get?, h]
  rfl

theorem exists_get? {t : Table α} {name : String} (h : t.has name = true) :
    ∃ value, t.get? name = some value :=
  Option.isSome_iff_exists.1 ((isSome_get? t name).trans h)

theorem mem_of_get? {t : Table α} {name : String} {value : α} (h : t.get? name = some value) :
    (name, value) ∈ t := by
  induction t with
  | nil => cases h
  | cons e t ih =>
    obtain ⟨k, v⟩ := e
    rw [get?_cons] at h
    split at h
    · rename_i hk
      exact List.mem_cons.2 (.inl (by rw [hk, Option.some.inj h]))
    · exact List.mem_cons_of_mem _ (ih h)

theorem mem_values_of_get? {t : Table α} {name : String} {value : α}
    (h : t.get? name = some value) : value ∈ t.values :=
  List.mem_map_of_mem (mem_of_get? h)

/-- What holds of all values of a table and of the default holds of what look-up gives. -/
theorem getD_get? {P : α → Prop} {t : Table α} (h : ∀ x ∈ t.values, P x) {default : α}
    (hd : P default) (name : String) : P ((t.get? name).getD default) := by
  cases hx : t.get? name with
  | none => exact hd
  | some x => exact h x (mem_values_of_get? hx)

/-- Keeping entries by their names keeps what is found under these names. -/
theorem get?_filter (keep : String → Bool) (t : Table α) (name : String) :
    get? (t.filter fun e => keep e.1) name = if keep name then t.get? name else none := by
  induction t with
  | nil => exact (ite_self none).symm
  | cons e t ih =>
    obtain ⟨k, v⟩ := e
    rw [List.filter_cons]
    by_cases hk : keep k = true
    · rw [if_pos hk, get?_cons, get?_cons, ih]
      by_cases hn : name = k <;> simp [hn, hk]
    · rw [if_neg hk, get?_cons, ih]
      by_cases hn : name = k <;> simp [hn, hk]

/-- If no name is repeated, every entry is found under its name. -/
theorem get?_of_nodup {t : Table α} (ht : t.names.Nodup) {name : String} {value : α}
    (h : (name, value) ∈ t) : t.get? name = some value := by
  induction t with
  | nil => cases h
  | cons e t ih =>
    obtain ⟨k, v⟩ := e
    obtain ⟨hk, ht⟩ := List.nodup_cons.1 ht
    rw [get?_cons]
    rcases List.mem_cons.1 h with h | hmem
    · simp_all
    · rw [if_neg, ih ht hmem]
      rintro rfl
      exact hk (List.mem_map.2 ⟨_, hmem, rfl⟩)

theorem ne_of_lt {a b : String} (h : a < b) : a ≠ b := by
  rintro rfl
  exact String.lt_irrefl a h

theorem Sorted.nodup_names {t : Table α} (ht : t.Sorted) : t.names.Nodup :=
  (List.pairwise_map.2 ht).imp ne_of_lt

/-- In a sorted table every entry is found under its name. -/
theorem get?_of_mem {t : Table α} (ht : t.Sorted) {name : String} {value : α}
    (h : (name, value) ∈ t) : t.get? name = some value :=
  get?_of_nodup ht.nodup_names h

theorem exists_get?_of_mem_values {t : Table α} (ht : t.Sorted) {value : α}
    (h : value ∈ t.values) : ∃ name, t.get? name = some value := by
  obtain ⟨e, he, rfl⟩ := List.mem_map.1 h
  exact ⟨e.1, get?_of_mem ht he⟩

theorem has_insert (t : Table α) (name k : String) (value : α) :
    (t.insert name value).has k = (k == name || t.has k) := by
  rw [← isSome_get?, get?_insert, ← isSome_get?]
  by_cases h : k = name <;> simp [h]

/-- A name above all names of a table goes to its end. -/
theorem insert_append {t : Table α} {name : String} (value : α) (h : ∀ e ∈ t, e.1 < name) :
    t.insert name value = t ++ [(name, value)] := by
  induction t with
  | nil => rfl
  | cons e t ih =>
    obtain ⟨k, v⟩ := e
    have hk : k < name := h _ List.mem_cons_self
    rw [insert, if_neg (String.lt_asymm hk), if_neg (ne_of_lt hk).symm,
      ih fun e he => h e (List.mem_cons_of_mem _ he)]
    rfl

/-- A table that is in order and stores values under their own names. -/
@[mk_iff]
structure Named (name : α → String) (t : Table α) : Prop where
  sorted : t.Sorted
  own : ∀ e ∈ t, name e.2 = e.1

instance (t : Table α) : Decidable t.Sorted := inferInstanceAs (Decidable (t.Pairwise (·.1 < ·.1)))

instance (name : α → String) (t : Table α) : Decidable (t.Named name) :=
  decidable_of_iff' _ (named_iff name t)

theorem Named.name_eq {name : α → String} {t : Table α} (h : t.Named name) {k : String} {x : α}
    (hx : t.get? k = some x) : name x = k :=
  h.own (k, x) (mem_of_get? hx)

theorem Named.of_append {name : α → String} {s t : Table α}
    (h : Named name (s ++ t)) : Named name s :=
  ⟨(List.pairwise_append.1 h.sorted).1, fun e he => h.own e (List.mem_append_left _ he)⟩

theorem mem_values_insert {t : Table α} {name : String} {value x : α}
    (h : x ∈ (t.insert name value).values) : x = value ∨ x ∈ t.values := by
  obtain ⟨e, he, rfl⟩ := List.mem_map.1 h
  rcases mem_insert (k := e.1) (v := e.2) he with ⟨-, hv⟩ | he
  · exact .inl hv
  · exact .inr (mem_values_of_mem he)

theorem Named.nil (name : α → String) : Named name ([] : Table α) := ⟨List.Pairwise.nil, by simp⟩

theorem Named.insert {name : α → String} {t : Table α} (h : t.Named name) (x : α) :
    (t.insert (name x) x).Named name where
  sorted := sorted_insert h.sorted
  own e he := by
    rcases mem_insert (k := e.1) (v := e.2) he with ⟨hk, hv⟩ | he
    · rw [hk, hv]
    · exact h.own e he

/-! ## Changing every value -/

@[simp]
theorem mapValues_nil (f : α → β) : mapValues f [] = [] := rfl

@[simp]
theorem values_mapValues (f : α → β) (t : Table α) :
    (t.mapValues f).values = t.values.map f := by
  simp [values, mapValues]

@[simp]
theorem has_mapValues (f : α → β) (t : Table α) (name : String) :
    (t.mapValues f).has name = t.has name := by
  simp [has, mapValues, Function.comp_def]

theorem mem_mapValues {f : α → β} {t : Table α} {name : String} {value : β} :
    (name, value) ∈ t.mapValues f ↔ ∃ v, (name, v) ∈ t ∧ f v = value := by
  simp [mapValues]

theorem sorted_mapValues {f : α → β} {t : Table α} (h : t.Sorted) : (t.mapValues f).Sorted :=
  List.pairwise_map.2 h

/-- Changing values in a way that keeps their names. -/
theorem Named.mapValues {name : α → String} {name' : β → String} {t : Table α}
    (h : t.Named name) (f : α → β) (hf : ∀ x, name' (f x) = name x) :
    (t.mapValues f).Named name' := by
  refine ⟨sorted_mapValues h.sorted, fun e he => ?_⟩
  obtain ⟨x, hx, hfx⟩ := mem_mapValues.1 (show (e.1, e.2) ∈ _ from he)
  rw [← hfx, hf]
  exact h.own (e.1, x) hx

theorem mapValues_inj {f g : α → β} {t : Table α} :
    t.mapValues f = t.mapValues g ↔ ∀ x ∈ t.values, f x = g x := by
  simp only [mapValues, values, List.map_inj_left, List.forall_mem_map, Prod.mk.injEq, true_and]

theorem mapValues_mapValues {γ : Type} (g : β → γ) (f : α → β) (t : Table α) :
    (t.mapValues f).mapValues g = t.mapValues fun x => g (f x) := by
  simp [mapValues]

theorem mapValues_insert (f : α → β) (name : String) (value : α) (t : Table α) :
    (t.insert name value).mapValues f = (t.mapValues f).insert name (f value) := by
  induction t with
  | nil => rfl
  | cons e t ih =>
    obtain ⟨k, v⟩ := e
    have hcons (t : Table α) : mapValues f ((k, v) :: t) = (k, f v) :: mapValues f t := rfl
    rw [hcons, insert, insert]
    split
    · rfl
    · split
      · rfl
      · exact congrArg ((k, f v) :: ·) ih

theorem mapValues?_cons (f : α → Option β) (name : String) (value : α) (t : Table α) :
    mapValues? f ((name, value) :: t) = do
      let value ← f value
      return (name, value) :: (← mapValues? f t) := by
  simp only [mapValues?, List.mapM_cons, bind_assoc, pure_bind]

theorem isSome_mapValues? {f : α → Option β} {t : Table α} (h : ∀ x ∈ t.values, (f x).isSome) :
    (t.mapValues? f).isSome := by
  induction t with
  | nil => rfl
  | cons e t ih =>
    obtain ⟨name, x⟩ := e
    obtain ⟨hx, ht⟩ := List.forall_mem_cons.1 h
    obtain ⟨y, hy⟩ := Option.isSome_iff_exists.1 hx
    obtain ⟨s, hs⟩ := Option.isSome_iff_exists.1 (ih ht)
    simp [mapValues?_cons, hy, hs]

theorem mapValues?_eq_some {f : α → Option β} {t : Table α} {s : Table β}
    (h : List.Forall₂ (fun e e' => e.1 = e'.1 ∧ f e.2 = some e'.2) t s) :
    t.mapValues? f = some s := by
  induction h with
  | nil => rfl
  | @cons e e' t s he _ ih =>
    obtain ⟨name, x⟩ := e
    obtain ⟨rfl, hx⟩ := he
    rw [mapValues?_cons, hx, ih]
    rfl

theorem mapValues?_insert {f : α → Option β} {t : Table α} {s : Table β} {value : α} {value' : β}
    (ht : t.mapValues? f = some s) (hvalue : f value = some value') (name : String) :
    (t.insert name value).mapValues? f = some (s.insert name value') := by
  induction t generalizing s with
  | nil =>
    obtain rfl : [] = s := Option.some.inj ht
    simp [insert, mapValues?, hvalue]
  | cons e t ih =>
    obtain ⟨k, v⟩ := e
    rw [mapValues?_cons] at ht
    obtain ⟨v', hv, ht⟩ := Option.bind_eq_some_iff.1 ht
    obtain ⟨s', hs, ht⟩ := Option.bind_eq_some_iff.1 ht
    obtain rfl := Option.some.inj ht
    rw [insert, insert]
    split
    · simp [mapValues?_cons, hvalue, hv, hs]
    · split
      · simp [mapValues?_cons, hvalue, hs]
      · simp [mapValues?_cons, hv, ih hs]

theorem names_mapValues (f : α → β) (t : Table α) : (t.mapValues f).names = t.names := by
  simp [names, mapValues]

theorem erase_mapValues (f : α → β) (t : Table α) (name : String) :
    (t.mapValues f).erase name = (t.erase name).mapValues f := by
  simp only [erase, mapValues, List.filter_map]
  rfl

theorem modify_mapValues {f : α → β} {g : α → α} {g' : β → β} (h : ∀ x, g' (f x) = f (g x))
    (t : Table α) (name : String) :
    (t.mapValues f).modify name g' = (t.modify name g).mapValues f := by
  simp only [modify, mapValues, List.map_map]
  refine List.map_congr_left fun e _ => ?_
  simp only [Function.comp_apply]
  split
  · rw [h]
  · rfl

theorem mapValues_comm {f : α → β} {g : α → α} {g' : β → β} (h : ∀ x, g' (f x) = f (g x))
    (t : Table α) : (t.mapValues f).mapValues g' = (t.mapValues g).mapValues f := by
  rw [mapValues_mapValues, mapValues_mapValues]
  exact mapValues_inj.2 fun x _ => h x

/-- Entries put in one after another, in order, give the table of those put in so far. -/
theorem insert_mapValues {f : α → β} {done after : Table α} {e : String × α}
    (h : Sorted (done ++ e :: after)) :
    (done.mapValues f).insert e.1 (f e.2) = Table.mapValues f (done ++ [e]) := by
  have hlt : ∀ x ∈ done.mapValues f, x.1 < e.1 := by
    intro x hx
    obtain ⟨y, hy, rfl⟩ := List.mem_map.1 hx
    exact (List.pairwise_append.1 h).2.2 y hy e List.mem_cons_self
  rw [insert_append _ hlt, mapValues, mapValues, List.map_append]
  rfl

/-! ## Equal tables -/

theorem has_of_names {s : Table α} {t : Table β} (h : s.names = t.names) (k : String) :
    s.has k = t.has k := by
  rw [Bool.eq_iff_iff, has_iff, has_iff, h]

/-- The order of a table is that of its names. -/
theorem Sorted.of_names {s : Table α} {t : Table β} (ht : t.Sorted) (h : s.names = t.names) :
    s.Sorted := by
  have hnames : t.names.Pairwise (· < ·) := List.pairwise_map.2 ht
  rw [← h] at hnames
  exact List.pairwise_map.1 hnames

theorem Sorted.nodup {t : Table α} (ht : t.Sorted) : t.Nodup :=
  ht.imp fun hlt h => ne_of_lt hlt (congrArg Prod.fst h)

theorem mem_iff_get? {t : Table α} (ht : t.Sorted) {name : String} {value : α} :
    (name, value) ∈ t ↔ t.get? name = some value :=
  ⟨get?_of_mem ht, mem_of_get?⟩

/-- Sorted tables are equal if look-up gives the same in both. -/
theorem ext {s t : Table α} (hs : s.Sorted) (ht : t.Sorted) (h : ∀ k, s.get? k = t.get? k) :
    s = t := by
  have hperm : s.Perm t := (List.perm_ext_iff_of_nodup hs.nodup ht.nodup).2 fun e => by
    rw [mem_iff_get? hs, mem_iff_get? ht, h]
  exact hperm.eq_of_pairwise (fun a b _ _ hab hba => absurd hab (String.lt_asymm hba)) hs ht

/-- Nothing is there twice in lists made of the entries of a table if each element tells the name
of the entry that it is made of. -/
theorem nodup_flatMap {t : Table α} (ht : t.Sorted) {f : String × α → List β} (name : β → String)
    (hname : ∀ e ∈ t, ∀ x ∈ f e, name x = e.1) (hf : ∀ e ∈ t, (f e).Nodup) :
    (t.flatMap f).Nodup := by
  refine List.nodup_flatMap.2 ⟨hf, ht.imp_of_mem fun ha hb hlt => ?_⟩
  refine List.disjoint_left.2 fun x hxa hxb => ne_of_lt hlt ?_
  rw [← hname _ ha x hxa, hname _ hb x hxb]

/-! ## Tables of which the same is seen -/

section

variable {see : α → α} {s t : Table α}

/-- The same is seen after a change of values that is a change of what is seen of them. -/
theorem mapValues_eq_of_comm {g : α → α} (hg : ∀ x, g (see x) = see (g x))
    (h : s.mapValues see = t.mapValues see) :
    (s.mapValues g).mapValues see = (t.mapValues g).mapValues see := by
  rw [← mapValues_comm hg, h, mapValues_comm hg]

theorem flatMap_values_eq {f : α → List β} (hf : ∀ x, f (see x) = f x)
    (h : s.mapValues see = t.mapValues see) : s.values.flatMap f = t.values.flatMap f := by
  have hseen (t : Table α) : (t.mapValues see).values.flatMap f = t.values.flatMap f := by
    rw [values_mapValues, List.flatMap_map]
    simp only [hf]
  rw [← hseen s, h, hseen]

end

/-! ## Tables of lists -/

@[simp]
theorem ofList_concat (entries : List (String × α)) (e : String × α) :
    ofList (entries ++ [e]) = (ofList entries).insert e.1 e.2 := by
  rw [ofList, List.foldl_append]
  rfl

theorem mem_ofList {entries : List (String × α)} {e : String × α} (h : e ∈ ofList entries) :
    e ∈ entries := by
  have hfold : ∀ (t : Table α), e ∈ entries.foldl (fun t e => insert e.1 e.2 t) t →
      e ∈ t ∨ e ∈ entries := by
    clear h
    induction entries with
    | nil => exact fun t h => .inl h
    | cons x xs ih =>
      intro t h
      rcases ih _ h with h | h
      · rcases mem_insert (k := e.1) (v := e.2) h with ⟨h₁, h₂⟩ | h
        · exact .inr (List.mem_cons.2 (.inl (Prod.ext h₁ h₂)))
        · exact .inl h
      · exact .inr (List.mem_cons_of_mem _ h)
  exact (hfold [] h).resolve_left (by simp)

theorem has_ofList (entries : List (String × α)) (name : String) :
    (ofList entries).has name = has entries name := by
  have hfold : ∀ t : Table α, (entries.foldl (fun t e => insert e.1 e.2 t) t).has name
      = (has entries name || t.has name) := by
    induction entries with
    | nil => simp [has]
    | cons x xs ih =>
      intro t
      rw [List.foldl_cons, ih, has_insert]
      simp only [has, List.any_cons, Bool.beq_comm (a := name)]
      cases x.1 == name <;> simp
  rw [ofList, hfold, has_nil, Bool.or_false]

theorem mapValues_ofList (f : α → β) (entries : List (String × α)) :
    (ofList entries).mapValues f = ofList (mapValues f entries) := by
  have hfold : ∀ t : Table α, (entries.foldl (fun t e => insert e.1 e.2 t) t).mapValues f =
      (mapValues f entries).foldl (fun t e => insert e.1 e.2 t) (t.mapValues f) := by
    induction entries with
    | nil => exact fun t => rfl
    | cons e entries ih =>
      intro t
      rw [List.foldl_cons, ih, mapValues_insert]
      rfl
  exact hfold []

/-- A table of a list without repeated names has all of its entries. -/
theorem get?_ofList {entries : List (String × α)} (hn : (entries.map (·.1)).Nodup)
    {name : String} {value : α} :
    (ofList entries).get? name = some value ↔ (name, value) ∈ entries := by
  refine ⟨fun h => mem_ofList (mem_of_get? h), fun h => ?_⟩
  obtain ⟨other, hother⟩ := exists_get? ((has_ofList entries name).trans (has_of_mem h))
  have heq := List.inj_on_of_nodup_map hn (mem_ofList (mem_of_get? hother)) h rfl
  rw [hother, (Prod.mk.inj heq).2]

/-- The order of the entries does not matter if no name is repeated. -/
theorem ofList_eq_of_perm {xs ys : List (String × α)} (h : xs.Perm ys)
    (hn : (xs.map (·.1)).Nodup) : ofList xs = ofList ys := by
  have hn' : (ys.map (·.1)).Nodup := (h.map _).nodup_iff.1 hn
  refine ext (sorted_ofList xs) (sorted_ofList ys) fun k => Option.ext fun v => ?_
  rw [get?_ofList hn, get?_ofList hn', h.mem_iff]

/-- A table in order is the table of its entries. -/
theorem ofList_of_sorted {t : Table α} (h : t.Sorted) : ofList t = t := by
  refine ext (sorted_ofList t) h fun k => Option.ext fun v => ?_
  rw [get?_ofList h.nodup_names, mem_iff_get? h]

theorem get?_perm {s t : Table α} (h : s.Perm t) (hn : s.names.Nodup) (name : String) :
    s.get? name = t.get? name := by
  induction h with
  | nil => rfl
  | cons e _ ih => rw [get?_cons, get?_cons, ih (List.nodup_cons.1 hn).2]
  | swap a b t =>
    have hne : b.1 ≠ a.1 := fun h => (List.nodup_cons.1 hn).1 (by simp [h])
    rw [get?_cons, get?_cons, get?_cons, get?_cons]
    split <;> split <;> simp_all
  | trans h _ ih ih' => rw [ih hn, ih' ((h.map _).nodup_iff.1 hn)]

end Table

namespace NameSet

theorem mem_insert {name x : String} {s : NameSet} :
    x ∈ NameSet.insert name s ↔ x = name ∨ x ∈ s := by
  induction s with
  | nil => simp [NameSet.insert]
  | cons k s ih =>
    rw [NameSet.insert]
    split
    · simp
    · split
      · simp_all
      · rw [List.mem_cons, ih, List.mem_cons]
        tauto

theorem sorted_insert {name : String} {s : NameSet} (h : s.Pairwise (· < ·)) :
    (NameSet.insert name s).Pairwise (· < ·) := by
  induction s with
  | nil => simp [NameSet.insert]
  | cons k s ih =>
    obtain ⟨hk, hs⟩ := List.pairwise_cons.1 h
    rw [NameSet.insert]
    split
    · rename_i hlt
      have hall := fun x hx => String.lt_trans hlt (hk x hx)
      exact List.pairwise_cons.2 ⟨List.forall_mem_cons.2 ⟨hlt, hall⟩, h⟩
    · split
      · exact h
      · rename_i hnlt hne
        have hlt : k < name := by_contra fun h =>
          hne (String.le_antisymm (String.not_lt.1 h) (String.not_lt.1 hnlt))
        refine List.pairwise_cons.2 ⟨fun x hx => ?_, ih hs⟩
        rcases mem_insert.1 hx with rfl | hx
        · exact hlt
        · exact hk x hx

end NameSet

end DiscoveryGrpc
