import Mathlib

/-!
# Places in texts

A text may be cut with numbers of bytes. `IsSlice` says that both ends of a cut are places between
characters, and what is between them; a text in three parts is cut like this around the middle one
(`isSlice_of_eq`).

Some readers take what a text begins with. `search?` looks for the first place in a text that a
reader takes, and `search?_eq_some_iff` says which one this is.
-/

namespace DiscoveryGrpc.Text

/-! ## Slices -/

/-- How many bytes a text takes. -/
def byteSize (cs : List Char) : Nat := (String.ofList cs).utf8ByteSize

theorem byteSize_append (cs ds : List Char) : byteSize (cs ++ ds) = byteSize cs + byteSize ds := by
  rw [byteSize, String.ofList_append, String.utf8ByteSize_append]
  rfl

theorem byteSize_toList (s : String) : byteSize s.toList = s.utf8ByteSize := by
  rw [byteSize, String.ofList_toList]

theorem eq_nil_of_byteSize {cs : List Char} (h : byteSize cs = 0) : cs = [] := by
  rw [← String.toList_ofList (l := cs), String.utf8ByteSize_eq_zero_iff.1 h]
  rfl

/-- The bytes of a text from one place to another are those of a part of it. Both places are in the
text, and neither is in a character. -/
structure IsSlice (s : String) (first last : Nat) (part : List Char) : Prop where
  valid_first : String.Pos.Raw.IsValid s ⟨first⟩
  valid_last : String.Pos.Raw.IsValid s ⟨last⟩
  le : first ≤ last
  bytes : s.toByteArray.extract first last = (String.ofList part).toByteArray

theorem isSlice_of_eq {s : String} {a part b : List Char} (h : s.toList = a ++ part ++ b) :
    IsSlice s (byteSize a) (byteSize (a ++ part)) part := by
  have hs : s = String.ofList (a ++ part) ++ String.ofList b := by
    rw [← String.ofList_append, ← h, String.ofList_toList]
  have hs' : s = String.ofList a ++ String.ofList (part ++ b) := by
    rw [← String.ofList_append, ← List.append_assoc, ← h, String.ofList_toList]
  refine ⟨String.Pos.Raw.isValid_iff_exists_append.2 ⟨_, _, hs', rfl⟩,
    String.Pos.Raw.isValid_iff_exists_append.2 ⟨_, _, hs, rfl⟩, ?_, ?_⟩
  · rw [byteSize_append]
    exact Nat.le_add_right ..
  · calc s.toByteArray.extract (byteSize a) (byteSize (a ++ part))
      _ = ((String.ofList a).toByteArray ++ (String.ofList (part ++ b)).toByteArray).extract
            ((String.ofList a).toByteArray.size + 0)
            ((String.ofList a).toByteArray.size + byteSize part) := by
        rw [hs', String.toByteArray_append, byteSize_append]
        rfl
      _ = (String.ofList (part ++ b)).toByteArray.extract 0 (byteSize part) :=
        ByteArray.extract_append_size_add
      _ = (String.ofList part).toByteArray := by
        rw [String.ofList_append, String.toByteArray_append]
        exact ByteArray.extract_append_eq_left rfl

/-- A text is made of a beginning, something between and an end just if it has this beginning and
this end, and bytes enough for both. -/
theorem exists_middle_iff {before after cs : List Char} :
    (∃ middle, cs = before ++ middle ++ after) ↔
      before <+: cs ∧ after <:+ cs ∧ byteSize before + byteSize after ≤ byteSize cs := by
  constructor
  · rintro ⟨middle, rfl⟩
    refine ⟨⟨middle ++ after, (List.append_assoc ..).symm⟩, ⟨before ++ middle, rfl⟩, ?_⟩
    rw [byteSize_append, byteSize_append]
    omega
  · rintro ⟨⟨rest, rfl⟩, hafter, hsize⟩
    rw [byteSize_append] at hsize
    rcases List.suffix_or_suffix_of_suffix hafter (List.suffix_append before rest) with
      ⟨middle, rfl⟩ | ⟨front, rfl⟩
    · exact ⟨middle, (List.append_assoc ..).symm⟩
    · -- the end takes no more bytes than there are behind the beginning
      rw [byteSize_append] at hsize
      obtain rfl : front = [] := eq_nil_of_byteSize (by omega)
      exact ⟨[], by simp⟩

/-- Behind the first place of a character is what there is behind any place of it. -/
theorem suffix_of_append_cons {c : Char} {xs ys s t : List Char} (hxs : c ∉ xs)
    (h : xs ++ c :: s = ys ++ c :: t) : t <:+ s := by
  rcases List.append_eq_append_iff.1 h with ⟨w, rfl, hw⟩ | ⟨w, rfl, hw⟩
  · cases w with
    | nil => exact ⟨[], (List.cons.inj hw).2.symm⟩
    | cons d w => exact ⟨w ++ [c], by simp [(List.cons.inj hw).2]⟩
  · cases w with
    | nil => exact ⟨[], (List.cons.inj hw).2⟩
    | cons d w =>
      rw [(List.cons.inj hw).1] at hxs
      simp at hxs

/-! ## Searching -/

variable {α : Type} {here? : List Char → Option α} {cs before : List Char} {a : α}

/-- The characters before the first place in a text that a reader takes, and what it makes of the
text from there on. -/
def search? (here? : List Char → Option α) : List Char → Option (List Char × α)
  | [] => none
  | c :: cs =>
    match here? (c :: cs) with
    | some a => some ([], a)
    | none => (search? here? cs).map fun (before, a) => (c :: before, a)

/-- Behind some characters of a text a reader takes the rest. -/
def Takes (here? : List Char → Option α) (cs before : List Char) (a : α) : Prop :=
  ∃ rest, cs = before ++ rest ∧ here? rest = some a

/-- Nothing is taken of a text that is at its end. -/
theorem takes_nil_iff (hnil : here? [] = none) : ¬Takes here? [] before a := by
  rintro ⟨rest, hrest, ha⟩
  rw [(List.append_eq_nil_iff.1 hrest.symm).2, hnil] at ha
  cases ha

theorem takes_cons_iff {c : Char} : Takes here? (c :: cs) before a ↔
    (before = [] ∧ here? (c :: cs) = some a) ∨
      ∃ before', before = c :: before' ∧ Takes here? cs before' a := by
  constructor
  · rintro ⟨rest, hrest, ha⟩
    cases before with
    | nil => exact .inl ⟨rfl, hrest ▸ ha⟩
    | cons d before =>
      obtain ⟨rfl, hcs⟩ := List.cons.inj hrest
      exact .inr ⟨before, rfl, rest, hcs, ha⟩
  · rintro (⟨rfl, ha⟩ | ⟨before', rfl, rest, rfl, ha⟩)
    · exact ⟨_, rfl, ha⟩
    · exact ⟨rest, rfl, ha⟩

theorem search?_eq_none_iff (hnil : here? [] = none) :
    search? here? cs = none ↔ ∀ before a, ¬Takes here? cs before a := by
  induction cs with
  | nil => exact iff_of_true rfl fun _ _ => takes_nil_iff hnil
  | cons c cs ih =>
    rw [search?]
    cases hhere : here? (c :: cs) with
    | some a => exact iff_of_false nofun fun h => h [] a ⟨_, rfl, hhere⟩
    | none =>
      rw [Option.map_eq_none_iff, ih]
      constructor
      · intro h before a htakes
        rcases takes_cons_iff.1 htakes with ⟨-, ha⟩ | ⟨before', -, hlater⟩
        · rw [hhere] at ha
          cases ha
        · exact h before' a hlater
      · exact fun h before a htakes => h (c :: before) a (takes_cons_iff.2 (.inr ⟨_, rfl, htakes⟩))

/-- What a search finds is the place that is taken behind the fewest characters. -/
theorem search?_eq_some_iff (hnil : here? [] = none) : search? here? cs = some (before, a) ↔
    Takes here? cs before a ∧
      ∀ before' a', Takes here? cs before' a' → before.length ≤ before'.length := by
  induction cs generalizing before with
  | nil => exact iff_of_false nofun fun h => takes_nil_iff hnil h.1
  | cons c cs ih =>
    rw [search?]
    cases hhere : here? (c :: cs) with
    | some a₀ =>
      constructor
      · intro h
        obtain ⟨rfl, rfl⟩ := Prod.mk.inj (Option.some.inj h)
        exact ⟨⟨_, rfl, hhere⟩, fun _ _ _ => Nat.zero_le _⟩
      · rintro ⟨⟨rest, hrest, ha⟩, hfirst⟩
        obtain rfl := List.eq_nil_of_length_eq_zero (Nat.le_zero.1 (hfirst [] a₀ ⟨_, rfl, hhere⟩))
        obtain rfl := hrest
        rw [hhere] at ha
        rw [Option.some.inj ha]
    | none =>
      constructor
      · intro h
        obtain ⟨⟨before', a'⟩, hfound, heq⟩ := Option.map_eq_some_iff.1 h
        obtain ⟨rfl, rfl⟩ := Prod.mk.inj heq
        obtain ⟨htakes, hfirst⟩ := ih.1 hfound
        refine ⟨takes_cons_iff.2 (.inr ⟨before', rfl, htakes⟩), fun before₁ a₁ h₁ => ?_⟩
        rcases takes_cons_iff.1 h₁ with ⟨-, ha⟩ | ⟨before₂, rfl, h₂⟩
        · rw [hhere] at ha
          cases ha
        · exact Nat.succ_le_succ (hfirst before₂ a₁ h₂)
      · rintro ⟨htakes, hfirst⟩
        rcases takes_cons_iff.1 htakes with ⟨-, ha⟩ | ⟨before', rfl, hlater⟩
        · rw [hhere] at ha
          cases ha
        · rw [ih.2 ⟨hlater, fun before₁ a₁ h₁ => Nat.le_of_succ_le_succ
            (hfirst (c :: before₁) a₁ (takes_cons_iff.2 (.inr ⟨_, rfl, h₁⟩)))⟩]
          rfl

end DiscoveryGrpc.Text
