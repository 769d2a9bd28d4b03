import DiscoveryGrpc.Proofs.Table

/-!
# A table overlaid by another one

A table is overlaid by another one when it keeps its names, keeps the values of those names that the
other table does not have, and has under every other name a value related to those of both tables.
`Overlaid` leaves the relation open, so that one statement serves messages, enums, services and
methods.

Changing a table entry by entry, as the other table lists them, overlays it
(`overlaid_foldl_modify`). What a relation on values has is passed on to tables: if it is a
function, the overlay is determined (`Overlaid.unique`), and if it keeps its own result, so does the
overlay (`Overlaid.again`, `Overlaid.onto`).
-/

namespace DiscoveryGrpc.Table

variable {α β : Type}

/-! ## Changing one value -/

@[simp]
theorem names_modify (t : Table α) (name : String) (f : α → α) :
    (t.modify name f).names = t.names := by
  rw [modify, names, List.map_map]
  refine List.map_congr_left fun e _ => ?_
  by_cases h : e.1 = name <;> simp [h]

theorem get?_modify (t : Table α) (name k : String) (f : α → α) :
    (t.modify name f).get? k = if k = name then (t.get? k).map f else t.get? k := by
  induction t with
  | nil => simp [modify]
  | cons e t ih =>
    obtain ⟨l, v⟩ := e
    rw [modify, List.map_cons, ← modify]
    by_cases hl : l = name
    · simp only [hl, if_true, get?_cons, ih]
      by_cases hk : k = name <;> simp [hk]
    · simp only [hl, if_false, get?_cons, ih]
      by_cases hk : k = l
      · simp [hk, hl]
      · simp [hk]

/-- Storing a changed value under its name is changing the value there. -/
theorem insert_eq_modify {t : Table α} (ht : t.Sorted) {name : String} {value : α} (f : α → α)
    (h : t.get? name = some value) : t.insert name (f value) = t.modify name f := by
  refine ext (sorted_insert ht) (ht.of_names (names_modify ..)) fun k => ?_
  rw [get?_insert, get?_modify]
  by_cases hk : k = name
  · simp [hk, h]
  · simp [hk]

/-- Nothing changes under a name that is not there. -/
theorem modify_of_get?_eq_none {t : Table α} {name : String} (f : α → α)
    (h : t.get? name = none) : t.modify name f = t := by
  have hne : ∀ e ∈ t, e.1 ≠ name := by
    intro e he heq
    have hhas : t.has name = true := heq ▸ has_of_mem (show (e.1, e.2) ∈ t from he)
    rw [← isSome_get?, h] at hhas
    cases hhas
  rw [modify]
  conv_rhs => rw [← List.map_id t]
  exact List.map_congr_left fun e he => if_neg (hne e he)

/-! ## Overlays -/

/-- A table `result` that has the names of `new`, the values of `new` where `old` has no value, and
values related to those of both elsewhere. -/
structure Overlaid (R : α → β → α → Prop) (new : Table α) (old : Table β) (result : Table α) :
    Prop where
  names : result.names = new.names
  kept : ∀ {k}, old.get? k = none → result.get? k = new.get? k
  both : ∀ {k x y z}, new.get? k = some x → old.get? k = some y → result.get? k = some z → R x y z

theorem get?_foldl_modify {name : β → String} {f : β → α → α} {old : Table β} (ho : old.Named name)
    (t : Table α) (k : String) :
    (old.values.foldl (fun t y => t.modify (name y) (f y)) t).get? k
      = (t.get? k).map fun x => (old.get? k).elim x fun y => f y x := by
  induction old generalizing t with
  | nil => simp [values]
  | cons e old ih =>
    obtain ⟨n, y⟩ := e
    obtain ⟨hlt, hsorted⟩ := List.pairwise_cons.1 ho.sorted
    have hrest : Named name old := ⟨hsorted, fun e he => ho.own e (List.mem_cons_of_mem _ he)⟩
    have hn : name y = n := ho.own _ List.mem_cons_self
    rw [values, List.map_cons, List.foldl_cons, ← values, ih hrest, get?_modify, get?_cons, hn]
    by_cases hk : k = n
    · -- the name is not there again
      have hnone : get? old k = none := by
        rw [← Option.not_isSome_iff_eq_none, isSome_get?, has_iff]
        intro hmem
        obtain ⟨e, he, rfl⟩ := List.mem_map.1 hmem
        exact ne_of_lt (hlt e he) hk.symm
      rw [hnone, if_pos hk, if_pos hk, Option.map_map]
      rfl
    · rw [if_neg hk, if_neg hk]

theorem names_foldl_modify (name : β → String) (f : β → α → α) (ys : List β) (t : Table α) :
    (ys.foldl (fun t y => t.modify (name y) (f y)) t).names = t.names := by
  induction ys generalizing t with
  | nil => rfl
  | cons y ys ih => rw [List.foldl_cons, ih, names_modify]

/-- Changing a table entry by entry, as another table lists them, overlays it. -/
theorem overlaid_foldl_modify {R : α → β → α → Prop} {name : β → String} {f : β → α → α}
    {new : Table α} {old : Table β} (ho : old.Named name)
    (hR : ∀ x ∈ new.values, ∀ y ∈ old.values, R x y (f y x)) :
    Overlaid R new old (old.values.foldl (fun t y => t.modify (name y) (f y)) new) where
  names := names_foldl_modify name f old.values new
  kept hk := by
    rw [get?_foldl_modify ho, hk]
    exact Option.map_id'
  both {k x y z} hx hy hz := by
    rw [get?_foldl_modify ho, hx, hy] at hz
    exact Option.some.inj hz ▸ hR x (mem_values_of_get? hx) y (mem_values_of_get? hy)

namespace Overlaid

variable {R : α → β → α → Prop} {new result : Table α} {old : Table β}

theorem sorted (h : Overlaid R new old result) (hn : new.Sorted) : result.Sorted :=
  hn.of_names h.names

theorem exists_get? (h : Overlaid R new old result) {k : String} {z : α}
    (hz : result.get? k = some z) : ∃ x, new.get? k = some x :=
  Table.exists_get? ((has_of_names h.names k).symm.trans (has_of_get? hz))

/-- A relation may be replaced by one that it implies. -/
theorem imp {S : α → β → α → Prop} (h : Overlaid R new old result)
    (hS : ∀ x ∈ new.values, ∀ y ∈ old.values, ∀ z, R x y z → S x y z) :
    Overlaid S new old result where
  names := h.names
  kept := h.kept
  both {_ x y z} hx hy hz :=
    hS x (mem_values_of_get? hx) y (mem_values_of_get? hy) z (h.both hx hy hz)

/-- A value is either one that was kept, or it is related to the values under its name. -/
theorem cases (h : Overlaid R new old result) {k : String} {z : α} (hz : result.get? k = some z) :
    (old.get? k = none ∧ new.get? k = some z) ∨
      ∃ x y, new.get? k = some x ∧ old.get? k = some y ∧ R x y z := by
  obtain ⟨x, hx⟩ := h.exists_get? hz
  cases hy : old.get? k with
  | none => exact .inl ⟨rfl, (h.kept hy).symm.trans hz⟩
  | some y => exact .inr ⟨x, y, hx, rfl, h.both hx hy hz⟩

theorem named {name : α → String} (h : Overlaid R new old result) (hn : new.Named name)
    (hR : ∀ x ∈ new.values, ∀ y z, R x y z → name z = name x) : result.Named name := by
  refine ⟨h.sorted hn.sorted, fun e he => ?_⟩
  rcases h.cases (get?_of_mem (h.sorted hn.sorted) he) with ⟨-, he⟩ | ⟨x, y, hx, -, hxyz⟩
  · exact hn.name_eq he
  · exact (hR x (mem_values_of_get? hx) y e.2 hxyz).trans (hn.name_eq hx)

/-- What holds of the values that were kept and of the results of the relation holds of all. -/
theorem forall_values {P : α → Prop} (h : Overlaid R new old result) (hn : new.Sorted)
    (hkept : ∀ x ∈ new.values, P x)
    (hR : ∀ x ∈ new.values, ∀ y ∈ old.values, ∀ z, R x y z → P z) :
    ∀ z ∈ result.values, P z := by
  intro z hz
  obtain ⟨k, hk⟩ := exists_get?_of_mem_values (h.sorted hn) hz
  rcases h.cases hk with ⟨-, hz⟩ | ⟨x, y, hx, hy, hxyz⟩
  · exact hkept z (mem_values_of_get? hz)
  · exact hR x (mem_values_of_get? hx) y (mem_values_of_get? hy) z hxyz

/-- An overlay with what a function gives is determined. -/
theorem unique {f : α → β → α} {other : Table α}
    (h : Overlaid (fun x y z => f x y = z) new old result)
    (h' : Overlaid (fun x y z => f x y = z) new old other) (hn : new.Sorted) : result = other := by
  refine ext (h.sorted hn) (h'.sorted hn) fun k => ?_
  cases hy : old.get? k with
  | none => rw [h.kept hy, h'.kept hy]
  | some y =>
    cases hz : result.get? k with
    | none =>
      have hhas := (has_of_names (h.names.trans h'.names.symm) k).symm
      rw [← isSome_get?, ← isSome_get?, hz] at hhas
      exact (Option.not_isSome_iff_eq_none.1 (by simp [hhas])).symm
    | some z =>
      obtain ⟨x, hx⟩ := h.exists_get? hz
      obtain ⟨z', hz'⟩ := Table.exists_get?
        ((has_of_names (h'.names.trans h.names.symm) k).trans (has_of_get? hz))
      have hxy : f x y = z := h.both hx hy hz
      have hxy' : f x y = z' := h'.both hx hy hz'
      rw [hz', ← hxy, hxy']

/-- Overlaying the result once more changes nothing. -/
theorem again (h : Overlaid R new old result)
    (hR : ∀ x ∈ new.values, ∀ y ∈ old.values, ∀ z, R x y z → R z y z) :
    Overlaid R result old result where
  names := rfl
  kept _ := rfl
  both {k z y z'} hz hy hz' := by
    obtain rfl := Option.some.inj (hz.symm.trans hz')
    obtain ⟨x, hx⟩ := h.exists_get? hz
    exact hR x (mem_values_of_get? hx) y (mem_values_of_get? hy) z (h.both hx hy hz)

/-- A table overlaid by itself. -/
theorem self {S : α → α → α → Prop} {t : Table α} (hS : ∀ x ∈ t.values, S x x x) :
    Overlaid S t t t where
  names := rfl
  kept _ := rfl
  both {k x y z} hx hy hz := by
    obtain rfl := Option.some.inj (hx.symm.trans hy)
    obtain rfl := Option.some.inj (hx.symm.trans hz)
    exact hS x (mem_values_of_get? hx)

/-- The result overlays the table that it was made of, and gives itself. -/
theorem onto {S : α → α → α → Prop} (h : Overlaid R new old result)
    (hS : ∀ x ∈ new.values, S x x x)
    (hR : ∀ x ∈ new.values, ∀ y ∈ old.values, ∀ z, R x y z → S x z z) :
    Overlaid S new result result where
  names := h.names
  kept {k} hk := by
    have hhas := has_of_names h.names k
    rw [← isSome_get?, ← isSome_get?, hk] at hhas
    rw [hk]
    exact (Option.not_isSome_iff_eq_none.1 (by simp [← hhas])).symm
  both {k x z z'} hx hz hz' := by
    obtain rfl := Option.some.inj (hz.symm.trans hz')
    have hxmem := mem_values_of_get? hx
    cases hy : old.get? k with
    | none =>
      obtain rfl : x = z := Option.some.inj (hx.symm.trans ((h.kept hy).symm.trans hz))
      exact hS x hxmem
    | some y => exact hR x hxmem y (mem_values_of_get? hy) z (h.both hx hy hz)

end Overlaid

end DiscoveryGrpc.Table
