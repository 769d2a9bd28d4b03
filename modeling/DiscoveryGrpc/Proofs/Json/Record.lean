import DiscoveryGrpc.Json.Basic
import DiscoveryGrpc.Proofs.Table

/-!
# Records that are read and written

What is known of a list, a table or a member because it was read, and that it is read again when it
was written. A record is written as the `members` that are there, so a member that is missing is not
there to be found (`lookup_members`); if no key is repeated, reading the record gives all members
back (`record?_members`, `optional_members`).
-/

namespace DiscoveryGrpc.Json

variable {α : Type}

/-! ## What was read -/

theorem Record.exists_of_optional {r : Record} {key : String} {read : Json → Option α} {x : α}
    (h : r.optional key read = some (some x)) : ∃ v, read v = some x := by
  unfold Record.optional at h
  split at h
  · cases h
  · cases h
  · rename_i v _ _
    obtain ⟨y, hy, hx⟩ := Option.map_eq_some_iff.1 h
    exact ⟨v, Option.some.inj hx ▸ hy⟩

theorem exists_of_mapM {β : Type} {f : β → Option α} {xs : List β} {ys : List α}
    (h : xs.mapM f = some ys) : ∀ y ∈ ys, ∃ x ∈ xs, f x = some y := by
  induction xs generalizing ys with
  | nil =>
    obtain rfl : [] = ys := Option.some.inj h
    simp
  | cons x xs ih =>
    rw [List.mapM_cons] at h
    obtain ⟨y, hy, h⟩ := Option.bind_eq_some_iff.1 h
    obtain ⟨ys', hys, h⟩ := Option.bind_eq_some_iff.1 h
    obtain rfl : y :: ys' = ys := Option.some.inj h
    intro z hz
    rcases List.mem_cons.1 hz with rfl | hz
    · exact ⟨x, List.mem_cons_self, hy⟩
    · obtain ⟨x', hx', hz⟩ := ih hys z hz
      exact ⟨x', List.mem_cons_of_mem _ hx', hz⟩

/-- A table that is read is in order, and each of its values was read. -/
theorem of_table? {read : Json → Option α} {budget : Nat} {v : Json} {t : Table α}
    (h : table? read budget v = some t) :
    t.Sorted ∧ ∀ e ∈ t, ∃ v, read v = some e.2 := by
  unfold table? at h
  split at h
  · rename_i members
    obtain ⟨entries, hentries, ht⟩ := Option.bind_eq_some_iff.1 h
    obtain rfl := Option.some.inj ht
    refine ⟨Table.sorted_ofList entries, fun e he => ?_⟩
    obtain ⟨member, -, hmember⟩ := exists_of_mapM hentries e (Table.mem_ofList he)
    obtain ⟨x, hx, rfl⟩ := Option.map_eq_some_iff.1 hmember
    exact ⟨member.2, hx⟩
  · cases h

theorem pos_of_list? {read : Json → Option α} {budget : Nat} {v : Json} {xs : List α}
    (h : list? read budget v = some xs) : 0 < budget := by
  cases budget with
  | zero => cases h
  | succ budget => exact Nat.succ_pos budget

/-! ## What was written -/

theorem mapM_map_of_read {β : Type} {read : β → Option α} {write : α → β} {xs : List α}
    (h : ∀ x ∈ xs, read (write x) = some x) :
    (xs.map write).mapM read = some xs := by
  induction xs with
  | nil => rfl
  | cons x xs ih =>
    obtain ⟨hx, hxs⟩ := List.forall_mem_cons.1 h
    simp [hx, ih hxs]

variable {read : Json → Option α} {write : α → Json}

theorem list?_array_map {xs : List α} (h : ∀ x ∈ xs, read (write x) = some x) (n : Nat) :
    list? read (n + 1) (.array (xs.map write)) = some xs :=
  mapM_map_of_read h

theorem table?_object_map {t : Table α} (ht : t.Sorted)
    (h : ∀ x ∈ t.values, read (write x) = some x) (n : Nat) :
    table? read (n + 1) (.object (t.mapValues write)) = some t := by
  have hentry : ∀ e ∈ t, (read (write e.2)).map (e.1, ·) = some e := fun e he => by
    rw [h e.2 (Table.mem_values_of_mem he), Option.map_some]
  have hentries : (t.mapValues write).mapM
      (fun (m : String × Json) => (read m.2).map (m.1, ·)) = some t :=
    mapM_map_of_read hentry
  rw [table?, hentries]
  exact congrArg some (Table.ofList_of_sorted ht)

/-! ## Members -/

/-- The members that are there. -/
def members (entries : List (String × Option Json)) : List (String × Json) :=
  entries.filterMap fun e => e.2.map (e.1, ·)

variable {entries : List (String × Option Json)}

theorem members_eq : members entries = (entries.map fun e => e.2.map (e.1, ·)).reduceOption := by
  change entries.filterMap _ = (entries.map fun e => e.2.map (e.1, ·)).filterMap id
  rw [List.filterMap_map]
  rfl

theorem mem_members {m : String × Json} : m ∈ members entries ↔ (m.1, some m.2) ∈ entries := by
  rw [members, List.mem_filterMap]
  constructor
  · rintro ⟨⟨key, v?⟩, he, h⟩
    obtain ⟨v, rfl, rfl⟩ := Option.map_eq_some_iff.1 h
    exact he
  · exact fun h => ⟨_, h, rfl⟩

theorem names_members_sublist : ((members entries).map (·.1)).Sublist (entries.map (·.1)) := by
  induction entries with
  | nil => exact List.Sublist.slnil
  | cons e entries ih =>
    obtain ⟨key, v?⟩ := e
    cases v? with
    | none => exact ih.cons key
    | some v => exact ih.cons_cons key

/-- If no key is repeated, every member that is there is found, and none that is missing. -/
theorem lookup_members (hkeys : (entries.map (·.1)).Nodup) {key : String} {v? : Option Json}
    (h : (key, v?) ∈ entries) : (members entries).lookup key = v? := by
  cases v? with
  | some v =>
    have hnodup : (Table.names (members entries)).Nodup := hkeys.sublist names_members_sublist
    exact Table.get?_of_nodup hnodup (mem_members.2 h)
  | none =>
    refine List.lookup_eq_none_iff.2 fun m hm => ?_
    rw [bne_iff_ne]
    rintro rfl
    -- the key would be there with two values
    have heq := List.inj_on_of_nodup_map hkeys h (mem_members.1 hm) rfl
    cases (Prod.mk.inj heq).2

theorem record?_members {keys : List String} (least : Nat) (hkeys : (entries.map (·.1)).Nodup)
    (hknown : ∀ e ∈ entries, e.1 ∈ keys) :
    record? keys least (.object (members entries)) = some (members entries) := by
  have hall : (members entries).filter (fun m => keys.contains m.1) = members entries := by
    refine List.filter_eq_self.2 fun m hm => ?_
    exact List.contains_iff_mem.2 (hknown _ (mem_members.1 hm))
  rw [record?, hall]
  exact if_pos (hkeys.sublist names_members_sublist)

/-- A member that may be missing is read as it was written. -/
theorem optional_members (hkeys : (entries.map (·.1)).Nodup) {key : String} {x? : Option α}
    (h : (key, x?.map write) ∈ entries) (hnull : read .null = none)
    (hread : ∀ x ∈ x?, read (write x) = some x) :
    Record.optional (members entries) key read = some x? := by
  have hfound := lookup_members hkeys h
  rw [Record.optional]
  cases x? with
  | none => simp only [hfound, Option.map_none]
  | some x =>
    have hx := hread x rfl
    rw [hfound, Option.map_some]
    split
    · rename_i hnone
      cases hnone
    · rename_i hn
      rw [Option.some.inj hn, hnull] at hx
      cases hx
    · rename_i v hv hn
      rw [← Option.some.inj hn, hx, Option.map_some]

end DiscoveryGrpc.Json
