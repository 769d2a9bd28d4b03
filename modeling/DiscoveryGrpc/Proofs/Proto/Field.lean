import Mathlib.Data.List.Nodup
import Mathlib.Tactic.Common
import DiscoveryGrpc.Proto.Message

/-!
# Fields in order

Fields of different names have one order (`not_le`), so a list of them in order is determined by
its fields (`Distinct.eq_of_perm`), and adding a field that comes after all others puts it to the
end (`insert_append`). Changes that keep names and places may come before or after sorting
(`sort_map`).
-/

namespace DiscoveryGrpc.Proto

namespace Field

theorem not_le {f g : Field} (hn : f.name ≠ g.name) (h : f.le g = true) : ¬g.le f = true := by
  have hnames : f.name ≤ g.name → ¬g.name ≤ f.name := fun hle hge => hn (String.le_antisymm hle hge)
  unfold le at h ⊢
  revert h
  cases f.first <;> cases g.first
  case false.false => simpa only [beq_self_eq_true, if_true, decide_eq_true_eq] using hnames
  case false.true => simp
  case true.false => simp
  case true.true => simpa only [beq_self_eq_true, if_true, decide_eq_true_eq] using hnames

/-- Fields in order, no two of one name. -/
@[mk_iff]
structure Distinct (fs : List Field) : Prop where
  sorted : Sorted fs
  nodup : (fs.map (·.name)).Nodup

instance (fs : List Field) : Decidable (Sorted fs) :=
  inferInstanceAs (Decidable (fs.Pairwise fun f g => f.le g = true))

instance (fs : List Field) : Decidable (Distinct fs) := decidable_of_iff' _ (distinct_iff fs)

/-- A field behind all others goes to the end. -/
theorem insert_append {f : Field} {fs : List Field} (h : ∀ g ∈ fs, g.le f = true)
    (hn : ∀ g ∈ fs, g.name ≠ f.name) : f.insert fs = fs ++ [f] := by
  induction fs with
  | nil => rfl
  | cons g gs ih =>
    rw [insert, if_neg (not_le (hn g List.mem_cons_self) (h g List.mem_cons_self)),
      ih (fun x hx => h x (List.mem_cons_of_mem _ hx)) fun x hx => hn x (List.mem_cons_of_mem _ hx)]
    rfl

section

variable (change : Field → Field) (hname : ∀ f, (change f).name = f.name)
  (hfirst : ∀ f, (change f).first = f.first)

include hname hfirst

/-- Fields may be changed before or after one of them is inserted if they keep their places. -/
theorem insert_map (f : Field) (fs : List Field) :
    (change f).insert (fs.map change) = (f.insert fs).map change := by
  induction fs with
  | nil => rfl
  | cons g fs ih =>
    have hle : (change f).le (change g) = f.le g := by
      rw [le, le, hname, hname, hfirst, hfirst]
    rw [List.map_cons, insert, insert, hle]
    split
    · rfl
    · exact congrArg (change g :: ·) ih

theorem sort_map (fs : List Field) : sort (fs.map change) = (sort fs).map change := by
  induction fs with
  | nil => rfl
  | cons f fs ih =>
    exact (congrArg (change f).insert ih).trans (insert_map change hname hfirst f (sort fs))

end

/-- A test may come before or after a change that it does not see. -/
theorem filter_map {keep : Field → Bool} {change : Field → Field}
    (h : ∀ f, keep (change f) = keep f) (fs : List Field) :
    (fs.map change).filter keep = (fs.filter keep).map change := by
  rw [List.filter_map]
  exact congrArg _ (List.filter_congr fun f _ => h f)

theorem nodup_append_cons {fs gs : List Field} {f : Field}
    (h : ((fs ++ f :: gs).map (·.name)).Nodup) : ∀ g ∈ fs, g.name ≠ f.name := by
  intro g hg
  rw [List.map_append] at h
  exact fun e => (List.nodup_append.1 h).2.2 _ (List.mem_map_of_mem hg) _
    (List.mem_map_of_mem List.mem_cons_self) e

namespace Distinct

/-- The order of fields of different names is determined. -/
theorem eq_of_perm {fs gs : List Field} (hf : Distinct fs) (hg : Distinct gs) (h : fs.Perm gs) :
    fs = gs := by
  refine h.eq_of_pairwise (fun a b ha hb hab hba => ?_) hf.sorted hg.sorted
  by_contra hne
  refine not_le (fun hn => hne ?_) hab hba
  exact List.inj_on_of_nodup_map hf.nodup ha (h.mem_iff.2 hb) hn

theorem insert {f : Field} {fs : List Field} (h : Distinct fs)
    (hf : ∀ g ∈ fs, g.name ≠ f.name) : Distinct (f.insert fs) := by
  refine ⟨sorted_insert h.sorted, ?_⟩
  refine ((insert_perm f fs).map (·.name)).nodup_iff.2 ?_
  rw [List.map_cons, List.nodup_cons]
  refine ⟨fun hmem => ?_, h.nodup⟩
  obtain ⟨g, hg, hn⟩ := List.mem_map.1 hmem
  exact hf g hg hn

/-- Sorting fields gives the list of these fields that is in order. -/
theorem sort_eq {fs gs : List Field} (hg : Distinct gs) (h : fs.Perm gs) : sort fs = gs := by
  have hp := (sort_perm fs).trans h
  refine eq_of_perm ⟨sorted_sort fs, ?_⟩ hg hp
  exact (hp.map (·.name)).nodup_iff.2 hg.nodup

/-- Fields in order need no sorting after a change that keeps their names and places. -/
theorem sort_map {fs : List Field} (h : Distinct fs) (change : Field → Field)
    (hname : ∀ f, (change f).name = f.name) (hfirst : ∀ f, (change f).first = f.first) :
    sort (fs.map change) = fs.map change :=
  (Field.sort_map change hname hfirst fs).trans (congrArg (List.map change) (h.sort_eq (.refl fs)))

end Distinct

end Field

namespace Message

theorem undocumented_eq (m : Message) : m.undocumented =
    { m with
      description := ""
      fields := m.fields.map Field.undocumented
      enums := Table.mapValues undocumented m.enums } := by
  cases m
  rw [undocumented, tableUndocumented_eq]

mutual

/-- Taking descriptions away twice is taking them away once. -/
theorem undocumented_undocumented : (m : Message) →
    m.undocumented.undocumented = m.undocumented
  | ⟨name, isEnum, description, fields, enums⟩ => by
    rw [undocumented, undocumented, tableUndocumented_tableUndocumented enums, List.map_map]
    rfl

theorem tableUndocumented_tableUndocumented : (t : List (String × Message)) →
    tableUndocumented (tableUndocumented t) = tableUndocumented t
  | [] => rfl
  | (k, m) :: t => by
    rw [tableUndocumented, tableUndocumented, undocumented_undocumented m,
      tableUndocumented_tableUndocumented t]

end

theorem field?_eq_none {m : Message} {name : String} :
    m.field? name = none ↔ ∀ f ∈ m.fields, f.name ≠ name := by
  simp [field?]

theorem addField?_of_new {m : Message} {f : Field} (h : ∀ g ∈ m.fields, g.name ≠ f.name) :
    m.addField? f = some { m with fields := f.insert m.fields } := by
  rw [addField?, field?_eq_none.2 h]
  rfl

theorem of_addField? {m m' : Message} {f : Field} (h : m.addField? f = some m') :
    (∀ g ∈ m.fields, g.name ≠ f.name) ∧ m' = { m with fields := f.insert m.fields } := by
  rw [addField?] at h
  split at h
  · cases h
  · rename_i hf
    exact ⟨field?_eq_none.1 (by simpa using hf), (Option.some.inj h).symm⟩

theorem addField?_eq_none {m : Message} {f : Field} :
    m.addField? f = none ↔ ∃ g ∈ m.fields, g.name = f.name := by
  rw [addField?]
  split
  · rename_i hf
    obtain ⟨g, hg⟩ := Option.isSome_iff_exists.1 hf
    exact iff_of_true rfl ⟨g, List.mem_of_find?_eq_some hg, by simpa using List.find?_some hg⟩
  · rename_i hf
    have hnew := field?_eq_none.1 (Option.not_isSome_iff_eq_none.1 hf)
    exact iff_of_false (Option.some_ne_none _) fun ⟨g, hg, hn⟩ => hnew g hg hn

theorem addField_of_addField? {m : Message} {f : Field} (h : m.addField? f = none) :
    m.addField f = m := by
  rw [addField, h]
  rfl

end Message

end DiscoveryGrpc.Proto
