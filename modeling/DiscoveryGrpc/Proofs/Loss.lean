import Mathlib.Data.List.Flatten
import Mathlib.Data.List.Forall2
import Mathlib.Data.List.Perm.Subperm
import DiscoveryGrpc.Proofs.Table

/-!
# What a table of a list has lost

Of the entries of a list with one name a table keeps the last one. `lasts` are the entries that are
kept, so what is made of the entries of the table is made of those of the list
(`subperm_flatMap_ofList`). Nothing of it is missing if and only if nothing is made of the entries
whose names come again (`perm_flatMap_ofList_iff`).

Losses add up: if one list is a part of another one, which is a part of a third, then nothing is
lost between the first and the last if nothing is lost in either step (`perm_trans_iff`), and
nothing is lost of lists put together if nothing is lost of any of them (`perm_flatten_iff`).
-/

namespace DiscoveryGrpc

variable {α β : Type}

/-! ## Losses -/

theorem perm_trans_iff {as bs cs : List β} (hab : as.Subperm bs) (hbc : bs.Subperm cs) :
    as.Perm cs ↔ as.Perm bs ∧ bs.Perm cs := by
  refine ⟨fun h => ?_, fun ⟨hab, hbc⟩ => hab.trans hbc⟩
  have hb := hab.perm_of_length_le (h.length_eq ▸ hbc.length_le)
  exact ⟨hb, hb.symm.trans h⟩

theorem perm_append_self_iff (as bs : List β) : bs.Perm (as ++ bs) ↔ as = [] := by
  refine ⟨fun h => ?_, fun h => h ▸ .refl _⟩
  have hlength := h.length_eq
  rw [List.length_append] at hlength
  exact List.eq_nil_of_length_eq_zero (by omega)

theorem subperm_flatten {as bs : List (List β)} (h : List.Forall₂ List.Subperm as bs) :
    as.flatten.Subperm bs.flatten := by
  induction h with
  | nil => exact .refl _
  | cons hab _ ih => exact hab.append ih

theorem perm_flatten_iff {as bs : List (List β)} (h : List.Forall₂ List.Subperm as bs) :
    as.flatten.Perm bs.flatten ↔ List.Forall₂ List.Perm as bs := by
  induction h with
  | nil => simp
  | @cons a b as bs hab has ih =>
    rw [List.flatten_cons, List.flatten_cons, List.forall₂_cons, ← ih]
    have hrest := (List.subperm_append_left a).2 (subperm_flatten has)
    have hhead := (List.subperm_append_right bs.flatten).2 hab
    rw [perm_trans_iff hrest hhead, List.perm_append_left_iff, List.perm_append_right_iff, and_comm]

namespace Table

/-! ## The entries that are kept -/

/-- The entries whose names do not come again. -/
def lasts : List (String × α) → List (String × α)
  | [] => []
  | e :: es => if has es e.1 then lasts es else e :: lasts es

theorem lasts_sublist (entries : List (String × α)) : (lasts entries).Sublist entries := by
  induction entries with
  | nil => exact .slnil
  | cons e es ih =>
    rw [lasts]
    split
    · exact ih.cons e
    · exact ih.cons_cons e

/-- What inserting comes to: the old entry is erased. -/
theorem insert_perm {t : Table α} (ht : t.Sorted) (name : String) (value : α) :
    (t.insert name value).Perm ((name, value) :: t.erase name) := by
  have hrest : ∀ {t : Table α}, (∀ e ∈ t, name < e.1) → t.erase name = t := fun hlt =>
    List.filter_eq_self.2 fun e he => decide_eq_true (ne_of_lt (hlt e he)).symm
  induction t with
  | nil => exact .refl _
  | cons e t ih =>
    obtain ⟨k, v⟩ := e
    obtain ⟨hk, ht⟩ := List.pairwise_cons.1 ht
    rw [insert]
    split
    · rename_i hlt
      rw [hrest (List.forall_mem_cons.2 ⟨hlt, fun e he => String.lt_trans hlt (hk e he)⟩)]
    · split
      · rename_i heq
        subst heq
        rw [erase, List.filter_cons_of_neg (by simp), ← erase, hrest hk]
      · rename_i hne
        rw [erase, List.filter_cons_of_pos (by simpa using Ne.symm hne), ← erase]
        exact ((ih ht).cons (k, v)).trans (.swap ..)

/-- A table has the last entries of the list that it is made of. -/
theorem ofList_perm_lasts (entries : List (String × α)) :
    (ofList entries).Perm (lasts entries) := by
  have hfold : ∀ t : Table α, t.Sorted →
      (entries.foldl (fun t e => insert e.1 e.2 t) t).Perm
        (lasts entries ++ t.filter fun e => !has entries e.1) := by
    induction entries with
    | nil =>
      intro t _
      simp [lasts, has]
    | cons e es ih =>
      intro t ht
      rw [List.foldl_cons]
      refine (ih _ (sorted_insert ht)).trans ?_
      have hinsert := (insert_perm ht e.1 e.2).filter fun x => !has es x.1
      have herase : (t.erase e.1).filter (fun x => !has es x.1)
          = t.filter fun x => !has (e :: es) x.1 := by
        rw [erase, List.filter_filter]
        refine List.filter_congr fun x _ => ?_
        have hcons : has (e :: es) x.1 = (e.1 == x.1 || has es x.1) := List.any_cons
        have hne : decide (x.1 ≠ e.1) = !(e.1 == x.1) := by
          rw [Bool.beq_comm]
          exact decide_not
        rw [hcons, Bool.not_or, hne, Bool.and_comm]
      rw [lasts]
      cases hagain : has es e.1 with
      | true =>
        rw [List.filter_cons_of_neg (by simp [hagain]), herase] at hinsert
        exact hinsert.append_left _
      | false =>
        rw [List.filter_cons_of_pos (by simp [hagain]), herase] at hinsert
        exact (hinsert.append_left _).trans List.perm_middle
  exact (hfold [] List.Pairwise.nil).trans (by simp)

variable (g : String × α → List β) (entries : List (String × α))

theorem subperm_flatMap_ofList : ((ofList entries).flatMap g).Subperm (entries.flatMap g) :=
  ((ofList_perm_lasts entries).flatMap_right g).subperm.trans
    ((lasts_sublist entries).flatMap g).subperm

/-- All that is made of the entries of a list is made of those of its table if and only if nothing
is made of an entry whose name comes again. -/
theorem perm_flatMap_ofList_iff : ((ofList entries).flatMap g).Perm (entries.flatMap g) ↔
    entries.Pairwise fun a b => a.1 = b.1 → g a = [] := by
  rw [((ofList_perm_lasts entries).flatMap_right g).congr_left]
  induction entries with
  | nil => simp [lasts]
  | cons e es ih =>
    rw [lasts, List.pairwise_cons, ← ih, List.flatMap_cons]
    split
    · rename_i hagain
      have hlasts := ((lasts_sublist es).flatMap g).subperm
      have hrest := (List.sublist_append_right (g e) (es.flatMap g)).subperm
      obtain ⟨b, hb, hname⟩ := List.any_eq_true.1 hagain
      have hempty : (∀ b ∈ es, e.1 = b.1 → g e = []) ↔ g e = [] :=
        ⟨fun h => h b hb (beq_iff_eq.1 hname).symm, fun h _ _ _ => h⟩
      rw [perm_trans_iff hlasts hrest, perm_append_self_iff, hempty, and_comm]
    · rename_i hnew
      have hnone : ∀ b ∈ es, e.1 = b.1 → g e = [] := by
        rintro b hb heq
        exact absurd (heq ▸ has_of_mem (show (b.1, b.2) ∈ es from hb)) hnew
      rw [List.flatMap_cons, List.perm_append_left_iff]
      exact ⟨fun h => ⟨hnone, h⟩, fun h => h.2⟩

end Table

end DiscoveryGrpc
