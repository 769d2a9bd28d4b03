import DiscoveryGrpc.Proto.Numbering
import DiscoveryGrpc.Proofs.Table

/-!
# The numbers of fields

Every number that is chosen is positive and has 29 bits (`choose_pos`, `choose_lt`). So of the
members of an enum only the one in front, whose number is not chosen, has number zero, and that is
how it is found again in a written file.
-/

namespace DiscoveryGrpc.Proto

namespace Number

theorem probe_pos {taken : List Nat} {tries n : Nat} (h : 0 < n) : 0 < probe taken tries n := by
  induction tries generalizing n with
  | zero => exact h
  | succ tries ih =>
    rw [probe]
    split
    · exact ih (normalize_pos _)
    · exact h

theorem probe_lt {taken : List Nat} {tries n : Nat} (h : n < bound) :
    probe taken tries n < bound := by
  induction tries generalizing n with
  | zero => exact h
  | succ tries ih =>
    rw [probe]
    split
    · exact ih (normalize_lt _)
    · exact h

theorem choose_pos (taken : List Nat) (name : String) : 0 < choose taken name :=
  probe_pos (normalize_pos _)

theorem choose_lt (taken : List Nat) (name : String) : choose taken name < bound :=
  probe_lt (normalize_lt _)

end Number

namespace Message

theorem numberFrom_range {taken : List Nat} {fs : List Field} {x : Nat × Field}
    (h : x ∈ numberFrom taken fs) : 0 < x.1 ∧ x.1 < Number.bound := by
  induction fs generalizing taken with
  | nil => cases h
  | cons f fs ih =>
    rcases List.mem_cons.1 h with rfl | h
    · exact ⟨Number.choose_pos .., Number.choose_lt ..⟩
    · exact ih h

theorem map_snd_numberFrom (taken : List Nat) (fs : List Field) :
    (numberFrom taken fs).map (·.2) = fs := by
  induction fs generalizing taken with
  | nil => rfl
  | cons f fs ih => rw [numberFrom, List.map_cons, ih]

/-- Numbering keeps the fields and their order. -/
theorem map_snd_numbered (m : Message) : m.numbered.map (·.2) = m.fields := by
  unfold numbered
  split
  · rename_i hf
    rw [List.map_cons, map_snd_numberFrom, hf]
  · exact map_snd_numberFrom ..

theorem number_lt {m : Message} {x : Nat × Field} (h : x ∈ m.numbered) : x.1 < Number.bound := by
  unfold numbered at h
  split at h
  · rcases List.mem_cons.1 h with rfl | h
    · exact Nat.two_pow_pos 29
    · exact (numberFrom_range h).2
  · exact (numberFrom_range h).2

theorem numberedAscending_perm (m : Message) : m.numberedAscending.Perm m.numbered :=
  List.mergeSort_perm ..

theorem map_snd_numberedAscending_perm (m : Message) :
    (m.numberedAscending.map (·.2)).Perm m.fields :=
  m.map_snd_numbered ▸ m.numberedAscending_perm.map _

section

variable (change : Field → Field) (hname : ∀ f, (change f).name = f.name)

include hname

/-- Numbers are made from names, so a change of fields that keeps their names keeps the numbers. -/
theorem numberFrom_map (taken : List Nat) (fs : List Field) :
    numberFrom taken (fs.map change) = (numberFrom taken fs).map fun x => (x.1, change x.2) := by
  induction fs generalizing taken with
  | nil => rfl
  | cons f fs ih =>
    rw [List.map_cons, numberFrom, numberFrom, hname, ih]
    rfl

theorem numbered_map (m : Message) :
    ({ m with fields := m.fields.map change } : Message).numbered
      = m.numbered.map fun x => (x.1, change x.2) := by
  unfold numbered
  cases m.isEnum with
  | false => exact numberFrom_map change hname [] m.fields
  | true =>
    cases m.fields with
    | nil => rfl
    | cons f fs => exact congrArg _ (numberFrom_map change hname [0] fs)

theorem numberedAscending_map (m : Message) :
    ({ m with fields := m.fields.map change } : Message).numberedAscending
      = m.numberedAscending.map fun x => (x.1, change x.2) := by
  rw [numberedAscending, numbered_map change hname, numberedAscending]
  refine (List.map_mergeSort (f := fun x : Nat × Field => (x.1, change x.2)) ?_).symm
  exact fun _ _ _ _ => rfl

theorem numbersByName_map (m : Message) :
    ({ m with fields := m.fields.map change } : Message).numbersByName = m.numbersByName := by
  rw [numbersByName, numberedAscending_map change hname, List.map_map, numbersByName]
  exact congrArg Table.ofList (List.map_congr_left fun x _ => congrArg (·, x.1) (hname x.2))

end

theorem numbersByName_lt {m : Message} {name : String} {n : Nat}
    (h : m.numbersByName.get? name = some n) : n < Number.bound := by
  have hmem := Table.mem_ofList (Table.mem_of_get? h)
  obtain ⟨⟨k, f⟩, hx, he⟩ := List.mem_map.1 hmem
  obtain ⟨rfl, rfl⟩ := Prod.mk.inj he
  exact number_lt (m.numberedAscending_perm.subset hx)

end Message

end DiscoveryGrpc.Proto
