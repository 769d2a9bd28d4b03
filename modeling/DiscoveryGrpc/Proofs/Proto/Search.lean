import Mathlib.Data.List.Perm.Subperm
import Mathlib.Data.Nat.ModEq
import Mathlib.Logic.Function.Iterate
import DiscoveryGrpc.Proofs.Proto.Numbering

/-!
# The search for free numbers

A field whose number is taken tries the next one, and the next one after it, until one is free.
`Search` is this search as it is, without a limit on the tries and with arithmetic on words of 32
bits: a search that goes on forever comes to nothing, and neither does one in which a sum or a
product needs more than 32 bits.

The search leaves out the reserved numbers and begins again in the middle when it comes to the end,
so it does not go through all numbers. But on a circle of `cycle` numbers every step goes one place
further (`place_step`): that many tries in a row are different, and if fewer numbers are taken one
of the tries is free (`search_probe`). So a message with at most 500,000,000 fields has a number for
each of them (`Message.wellNumbered`).
-/

namespace DiscoveryGrpc.Proto

namespace Number

/-! ## Words -/

/-- The result of a sum or a product, if it has 32 bits. -/
def word? (n : Nat) : Option Nat := if n < 2 ^ 32 then some n else none

/-- The hash of a text in words of 32 bits, where sums and products wrap around. -/
def hashWord (s : String) : UInt32 :=
  (s.toList.flatMap units).foldl (fun h u => h * 31 + u.toUInt32) 0

/-- A word cut to 29 bits, and moved if it is zero or reserved. -/
def normalize? (n : Nat) : Option Nat :=
  let n := n % bound
  if n == 0 || isReserved n then do
    let position ← word? (n % 19000 + 1)
    let offset ← word? (position * 536314)
    word? (20000 + offset)
  else some n

/-- The number that a name tries first. -/
def home? (name : String) : Option Nat := normalize? (hashWord name).toNat

/-- The number to try after a number that is taken. -/
def next? (n : Nat) : Option Nat := do normalize? (← word? (n + 1))

theorem word?_of_lt {n : Nat} (h : n < 2 ^ 32) : word? n = some n := if_pos h

theorem toNat_hashWord (s : String) : (hashWord s).toNat = hash s := by
  have hfold : ∀ (us : List Nat) (h : UInt32), (us.foldl (fun h u => h * 31 + u.toUInt32) h).toNat
      = us.foldl (fun h u => (h * 31 + u) % 0x100000000) h.toNat := by
    intro us
    induction us with
    | nil => exact fun _ => rfl
    | cons u us ih =>
      intro h
      have hstep : (h * 31 + u.toUInt32).toNat = (h.toNat * 31 + u) % 0x100000000 := by
        simp [UInt32.toNat_add, UInt32.toNat_mul]
      rw [List.foldl_cons, List.foldl_cons, ih, hstep]
  exact hfold _ 0

theorem normalize?_eq (n : Nat) : normalize? n = some (normalize n) := by
  unfold normalize? normalize
  dsimp only
  split
  · rename_i h
    have hsmall : n % bound % 19000 < 1000 := by
      simp only [Bool.or_eq_true, beq_iff_eq, isReserved, Bool.and_eq_true, decide_eq_true_eq] at h
      omega
    have hposition : word? (n % bound % 19000 + 1) = some (n % bound % 19000 + 1) :=
      word?_of_lt (by omega)
    have hoffset : word? ((n % bound % 19000 + 1) * 536314)
        = some ((n % bound % 19000 + 1) * 536314) := word?_of_lt (by omega)
    rw [hposition, Option.bind_eq_bind, Option.bind_some, hoffset, Option.bind_some]
    exact word?_of_lt (by omega)
  · rfl

theorem home?_eq (name : String) : home? name = some (normalize (hash name)) := by
  rw [home?, normalize?_eq, toNat_hashWord]

theorem next?_eq {n : Nat} (h : n < bound) : next? n = some (normalize (n + 1)) := by
  have hb : bound = 536870912 := rfl
  have hword : word? (n + 1) = some (n + 1) := word?_of_lt (by omega)
  rw [next?, hword]
  exact normalize?_eq (n + 1)

/-! ## Searching -/

/-- A search for a number that is not taken comes from one number to another. -/
inductive Search (taken : List Nat) : Nat → Nat → Prop
  | stop {n : Nat} (h : n ∉ taken) : Search taken n n
  | go {n next m : Nat} (h : n ∈ taken) (hn : next? n = some next) (hm : Search taken next m) :
      Search taken n m

namespace Search

variable {taken taken' : List Nat} {n m m' : Nat}

theorem not_mem (h : Search taken n m) : m ∉ taken := by
  induction h with
  | stop h => exact h
  | go _ _ _ ih => exact ih

/-- A search comes to one number only. -/
theorem unique (h : Search taken n m) (h' : Search taken n m') : m = m' := by
  induction h with
  | stop hfree =>
    cases h' with
    | stop => rfl
    | go htaken => exact absurd htaken hfree
  | go htaken hn _ ih =>
    cases h' with
    | stop hfree => exact absurd htaken hfree
    | go _ hn' hm' =>
      rw [hn] at hn'
      exact ih (Option.some.inj hn' ▸ hm')

/-- A search asks of numbers only whether they are taken. -/
theorem congr (h : Search taken n m) (ht : ∀ x, x ∈ taken ↔ x ∈ taken') : Search taken' n m := by
  induction h with
  | stop hfree => exact .stop fun h => hfree ((ht _).2 h)
  | go htaken hn _ ih => exact .go ((ht _).1 htaken) hn ih

end Search

/-! ## Tries on a circle -/

/-- What a number has to be. -/
structure Valid (n : Nat) : Prop where
  pos : 0 < n
  lt : n < bound
  not_reserved : isReserved n = false

theorem valid_normalize (n : Nat) : Valid (normalize n) :=
  ⟨normalize_pos n, normalize_lt n, not_isReserved_normalize n⟩

/-- The number to try after one that is taken. -/
def step (n : Nat) : Nat := normalize (n + 1)

theorem valid_step (n : Nat) : Valid (step n) := valid_normalize _

/-- How many numbers there are from the one to which the search goes back at the end. -/
def cycle : Nat := bound - 556314

/-- The place of a number on a circle: the numbers below the reserved ones stand right before the
number that comes after them. -/
def place (n : Nat) : Nat := if n < 19000 then n + 537314 else n

/-- The number after the last one before the reserved ones, and after the last one of all, is in the
middle. -/
theorem step_eq {n : Nat} (h : Valid n) :
    step n = if n = 18999 ∨ n = 536870911 then 556314 else n + 1 := by
  obtain ⟨hpos, hlt, hreserved⟩ := h
  have hb : bound = 536870912 := rfl
  simp only [isReserved, Bool.and_eq_false_iff, decide_eq_false_iff_not] at hreserved
  split
  · rename_i hn
    rcases hn with rfl | rfl <;> rfl
  · rename_i hn
    have hmod : (n + 1) % bound = n + 1 := Nat.mod_eq_of_lt (by omega)
    have hkept : ¬(n + 1 == 0 || isReserved (n + 1)) = true := by
      simp only [isReserved, Bool.or_eq_true, beq_iff_eq, Bool.and_eq_true, decide_eq_true_eq]
      omega
    rw [step, normalize, hmod]
    exact if_neg hkept

/-- Every step goes one place further. -/
theorem place_step {n : Nat} (h : Valid n) : place (step n) % cycle = (place n + 1) % cycle := by
  have hc : cycle = 536314598 := rfl
  have hlt : n < 536870912 := h.lt
  have hreserved := h.not_reserved
  simp only [isReserved, Bool.and_eq_false_iff, decide_eq_false_iff_not] at hreserved
  rw [step_eq h, hc]
  unfold place
  split <;> split <;> split <;> omega

theorem place_iterate_step {n : Nat} (h : Valid n) (i : Nat) :
    place (step^[i] n) % cycle = (place n + i) % cycle ∧ Valid (step^[i] n) := by
  induction i with
  | zero => exact ⟨rfl, h⟩
  | succ i ih =>
    rw [Function.iterate_succ_apply']
    refine ⟨?_, valid_step _⟩
    calc place (step (step^[i] n)) % cycle
        = (place (step^[i] n) + 1) % cycle := place_step ih.2
      _ = (place n + i + 1) % cycle := Nat.ModEq.add_right 1 ih.1

/-- Tries in a row are different until the circle is closed. -/
theorem eq_of_iterate_step_eq {n i j : Nat} (h : Valid n) (hi : i < cycle) (hj : j < cycle)
    (heq : step^[i] n = step^[j] n) : i = j := by
  have hplaces : place n + i ≡ place n + j [MOD cycle] :=
    calc (place n + i) % cycle = place (step^[i] n) % cycle := (place_iterate_step h i).1.symm
      _ = place (step^[j] n) % cycle := by rw [heq]
      _ = (place n + j) % cycle := (place_iterate_step h j).1
  exact (hplaces.add_left_cancel' _).eq_of_lt_of_lt hi hj

/-! ## The limit on the tries -/

/-- A search within a limit comes to the number that the search without limit comes to, unless all
of its tries are taken. -/
theorem search_probe_or {taken : List Nat} {n : Nat} (h : Valid n) (tries : Nat) :
    Search taken n (probe taken tries n) ∨ ∀ i < tries, step^[i] n ∈ taken := by
  induction tries generalizing n with
  | zero => exact .inr fun i hi => absurd hi (Nat.not_lt_zero i)
  | succ tries ih =>
    rw [probe]
    split
    · rename_i htaken
      have htaken := List.contains_iff_mem.1 htaken
      rcases ih (valid_step n) with hfound | hall
      · exact .inl (.go htaken (next?_eq h.lt) hfound)
      · refine .inr fun i hi => ?_
        cases i with
        | zero => exact htaken
        | succ i => exact hall i (Nat.lt_of_succ_lt_succ hi)
    · rename_i hfree
      exact .inl (.stop fun hmem => hfree (List.contains_iff_mem.2 hmem))

/-- Of more tries than are taken two are the same, if all of them are taken. -/
theorem exists_iterate_step_eq {taken : List Nat} {n : Nat}
    (hall : ∀ i < taken.length + 1, step^[i] n ∈ taken) :
    ∃ i j, i < j ∧ j < taken.length + 1 ∧ step^[i] n = step^[j] n := by
  by_contra! hnone
  have hnodup : ((List.range (taken.length + 1)).map fun i => step^[i] n).Nodup := by
    refine List.Nodup.map_on (fun i hi j hj heq => ?_) List.nodup_range
    rw [List.mem_range] at hi hj
    by_contra hne
    rcases Nat.lt_or_gt_of_ne hne with hlt | hlt
    · exact hnone i j hlt hj heq
    · exact hnone j i hlt hi heq.symm
  have hsub : ((List.range (taken.length + 1)).map fun i => step^[i] n) ⊆ taken := by
    intro x hx
    obtain ⟨i, hi, rfl⟩ := List.mem_map.1 hx
    exact hall i (List.mem_range.1 hi)
  have hle := (hnodup.subperm hsub).length_le
  rw [List.length_map, List.length_range] at hle
  omega

/-- If fewer numbers are taken than there are on the circle, the search ends, and within the
limit. -/
theorem search_probe {taken : List Nat} {n : Nat} (h : Valid n) (hlength : taken.length < cycle) :
    Search taken n (probe taken (taken.length + 1) n) := by
  refine (search_probe_or h _).resolve_right fun hall => ?_
  obtain ⟨i, j, hlt, hj, heq⟩ := exists_iterate_step_eq hall
  have := eq_of_iterate_step_eq h (by omega) (by omega) heq
  omega

theorem Search.exists_iterate {taken : List Nat} {n m : Nat} (h : Search taken n m) (hn : Valid n) :
    ∃ k, step^[k] n = m ∧ ∀ i < k, step^[i] n ∈ taken := by
  induction h with
  | stop => exact ⟨0, rfl, fun i hi => absurd hi (Nat.not_lt_zero i)⟩
  | go htaken hnext _ ih =>
    rw [next?_eq hn.lt] at hnext
    obtain rfl := Option.some.inj hnext
    obtain ⟨k, hk, hall⟩ := ih (valid_step _)
    refine ⟨k + 1, hk, fun i hi => ?_⟩
    cases i with
    | zero => exact htaken
    | succ i => exact hall i (Nat.lt_of_succ_lt_succ hi)

/-- A search that ends does so within the limit. -/
theorem Search.probe_eq {taken : List Nat} {n m : Nat} (h : Search taken n m) (hn : Valid n) :
    probe taken (taken.length + 1) n = m := by
  rcases search_probe_or hn (taken.length + 1) with hfound | hall
  · exact hfound.unique h
  · -- the tries come back to an earlier one before they come to the end
    exfalso
    obtain ⟨k, hk, hbefore⟩ := h.exists_iterate hn
    obtain ⟨i, j, hlt, hj, heq⟩ := exists_iterate_step_eq hall
    have hjk : j ≤ k := by
      by_contra hkj
      exact h.not_mem (hk ▸ hall k (by omega))
    refine h.not_mem (hk ▸ ?_)
    have hsplit : step^[k] n = step^[k - j + i] n := by
      rw [Function.iterate_add_apply, heq, ← Function.iterate_add_apply]
      congr 1
      omega
    rw [hsplit]
    exact hbefore _ (by omega)

/-! ## Numbers for fields -/

/-- Each field in order gets the number that its search comes to. -/
inductive Numbers : (taken : List Nat) → List Field → List (Nat × Field) → Prop
  | nil {taken : List Nat} : Numbers taken [] []
  | cons {taken : List Nat} {f : Field} {fs : List Field} {home n : Nat} {l : List (Nat × Field)}
      (hhome : home? f.name = some home) (hn : Search taken home n)
      (hl : Numbers (n :: taken) fs l) : Numbers taken (f :: fs) ((n, f) :: l)

theorem search_choose {taken : List Nat} (h : taken.length < cycle) (name : String) :
    Search taken (normalize (hash name)) (choose taken name) :=
  search_probe (valid_normalize _) h

theorem numbers_numberFrom {taken : List Nat} {fs : List Field}
    (h : taken.length + fs.length ≤ cycle) : Numbers taken fs (Message.numberFrom taken fs) := by
  induction fs generalizing taken with
  | nil => exact .nil
  | cons f fs ih =>
    rw [List.length_cons] at h
    refine .cons (home?_eq f.name) (search_choose (by omega) f.name) (ih ?_)
    rw [List.length_cons]
    omega

/-- The numbers of fields are those that are chosen within the limit. -/
theorem Numbers.numberFrom_eq {taken : List Nat} {fs : List Field} {l : List (Nat × Field)}
    (h : Numbers taken fs l) : Message.numberFrom taken fs = l := by
  induction h with
  | nil => rfl
  | cons hhome hn _ ih =>
    rw [home?_eq] at hhome
    obtain rfl := Option.some.inj hhome
    rw [Message.numberFrom, choose, hn.probe_eq (valid_normalize _), ih]

theorem Numbers.nodup {taken : List Nat} {fs : List Field} {l : List (Nat × Field)}
    (h : Numbers taken fs l) : (l.map (·.1)).Nodup ∧ ∀ x ∈ l, x.1 ∉ taken := by
  induction h with
  | nil => simp
  | cons hhome hn _ ih =>
    obtain ⟨hnodup, hfree⟩ := ih
    refine ⟨List.nodup_cons.2 ⟨fun hmem => ?_, hnodup⟩, List.forall_mem_cons.2 ⟨hn.not_mem, ?_⟩⟩
    · obtain ⟨x, hx, heq⟩ := List.mem_map.1 hmem
      exact hfree x hx (heq ▸ List.mem_cons_self)
    · exact fun x hx hmem => hfree x hx (List.mem_cons_of_mem _ hmem)

theorem valid_probe {taken : List Nat} {tries n : Nat} (h : Valid n) :
    Valid (probe taken tries n) := by
  induction tries generalizing n with
  | zero => exact h
  | succ tries ih =>
    rw [probe]
    split
    · exact ih (valid_step n)
    · exact h

theorem valid_of_mem_numberFrom {taken : List Nat} {fs : List Field} {x : Nat × Field}
    (h : x ∈ Message.numberFrom taken fs) : Valid x.1 := by
  induction fs generalizing taken with
  | nil => cases h
  | cons f fs ih =>
    rcases List.mem_cons.1 h with rfl | h
    · exact valid_probe (valid_normalize _)
    · exact ih h

end Number

namespace Message

open Number

/-! ## The numbers of a message -/

/-- The first member of an enum. -/
def front (m : Message) : List Field := if m.isEnum then m.fields.take 1 else []

/-- The fields whose numbers are made from their names: all but the first member of an enum. -/
def hashed (m : Message) : List Field := if m.isEnum then m.fields.drop 1 else m.fields

/-- The number that is taken before numbers are made from names. -/
def givenAway (m : Message) : List Nat := if m.isEnum then [0] else []

/-- Numbering the fields of a message, without a limit on the tries, ends with this list. -/
def Counted (m : Message) (l : List (Nat × Field)) : Prop :=
  ∃ rest, Numbers m.givenAway m.hashed rest ∧ l = m.front.map (0, ·) ++ rest

theorem front_append_hashed (m : Message) : m.front ++ m.hashed = m.fields := by
  unfold front hashed
  split
  · exact List.take_append_drop 1 m.fields
  · rfl

theorem numbered_eq (m : Message) :
    m.numbered = m.front.map (0, ·) ++ numberFrom m.givenAway m.hashed := by
  unfold numbered front hashed givenAway
  cases m.isEnum with
  | false => rfl
  | true =>
    cases m.fields with
    | nil => rfl
    | cons f fs => rfl

/-- The numbering without a limit on the tries ends, if at all, with the numbers of the message. -/
theorem Counted.eq_numbered {m : Message} {l : List (Nat × Field)} (h : m.Counted l) :
    l = m.numbered := by
  obtain ⟨rest, hrest, rfl⟩ := h
  rw [numbered_eq, hrest.numberFrom_eq]

theorem counted_numbered {m : Message} (h : m.fields.length ≤ 500000000) :
    m.Counted m.numbered := by
  refine ⟨_, numbers_numberFrom ?_, m.numbered_eq⟩
  have hgiven : m.givenAway.length ≤ 1 := by
    unfold givenAway
    split <;> simp
  have hhashed : m.hashed.length ≤ m.fields.length := by
    rw [← m.front_append_hashed, List.length_append]
    exact Nat.le_add_left ..
  have hc : cycle = 536314598 := rfl
  omega

theorem Counted.nodup {m : Message} {l : List (Nat × Field)} (h : m.Counted l) :
    (l.map (·.1)).Nodup := by
  obtain ⟨rest, hrest, rfl⟩ := h
  obtain ⟨hnodup, hfree⟩ := hrest.nodup
  rw [givenAway] at hfree
  rw [front]
  cases he : m.isEnum with
  | false => exact hnodup
  | true =>
    rw [he] at hfree
    cases m.fields with
    | nil => exact hnodup
    | cons f fs =>
      refine List.nodup_cons.2 ⟨fun hmem => ?_, hnodup⟩
      obtain ⟨x, hx, hzero⟩ := List.mem_map.1 hmem
      exact hfree x hx (List.mem_singleton.2 hzero)

theorem pairwise_numberedAscending {m : Message} (h : (m.numbered.map (·.1)).Nodup) :
    m.numberedAscending.Pairwise (·.1 < ·.1) := by
  have hsorted : m.numberedAscending.Pairwise fun a b => decide (a.1 ≤ b.1) = true :=
    List.pairwise_mergeSort (fun a b c hab hbc => by
      simp only [decide_eq_true_eq] at hab hbc ⊢
      omega) (fun a b => by simp [Nat.le_total]) m.numbered
  have hnodup : m.numberedAscending.Pairwise fun a b => a.1 ≠ b.1 :=
    List.pairwise_map.1 ((m.numberedAscending_perm.map Prod.fst).nodup_iff.2 h)
  refine (hsorted.and hnodup).imp fun ⟨hle, hne⟩ => ?_
  exact Nat.lt_of_le_of_ne (of_decide_eq_true hle) hne

/-- The fields of a message have numbers as they have to be. -/
structure WellNumbered (m : Message) : Prop where
  /-- Without a limit on the tries, and within 32 bits, the numbering ends. -/
  counted : m.Counted m.numbered
  /-- Every field has one number. -/
  fields : m.numbered.map (·.2) = m.fields
  /-- No number is given twice, -/
  nodup : (m.numbered.map (·.1)).Nodup
  /-- so that all fields are there when they are put in the order of their numbers. -/
  ascending : m.numberedAscending.Perm m.numbered ∧ m.numberedAscending.Pairwise (·.1 < ·.1)
  /-- The first member of an enum has number zero. -/
  zero : m.isEnum = true → ∀ f fs, m.fields = f :: fs → m.numbered.head? = some (0, f)
  /-- All other numbers are in range. -/
  range : ∀ x ∈ m.numbered.drop m.front.length,
    1 ≤ x.1 ∧ x.1 ≤ 536870911 ∧ ¬(19000 ≤ x.1 ∧ x.1 ≤ 19999)

theorem range_of_valid {n : Nat} (h : Valid n) :
    1 ≤ n ∧ n ≤ 536870911 ∧ ¬(19000 ≤ n ∧ n ≤ 19999) := by
  have hlt : n < 536870912 := h.lt
  have hreserved := h.not_reserved
  rw [isReserved, Bool.and_eq_false_iff, decide_eq_false_iff_not, decide_eq_false_iff_not]
    at hreserved
  have hpos := h.pos
  omega

/-- A message with at most 500,000,000 fields has a number for each of them. -/
theorem wellNumbered {m : Message} (h : m.fields.length ≤ 500000000) : m.WellNumbered where
  counted := counted_numbered h
  fields := m.map_snd_numbered
  nodup := (counted_numbered h).nodup
  ascending := ⟨m.numberedAscending_perm, pairwise_numberedAscending (counted_numbered h).nodup⟩
  zero he f fs hf := by rw [numbered, he, hf, List.head?_cons]
  range x hx := by
    rw [numbered_eq, List.drop_left' (List.length_map ..)] at hx
    exact range_of_valid (valid_of_mem_numberFrom hx)

/-- An enum with two members of one hash. -/
def collidingEnum : Message where
  name := "Lake"
  isEnum := true
  fields := [
    { name := "UNDEFINED_LAKE", type := .primitive .unformatted, first := true },
    { name := "Aa", type := .primitive .unformatted },
    { name := "BB", type := .primitive .unformatted }]

theorem wellNumbered_collidingEnum :
    collidingEnum.fields.length ≤ 500000000 ∧ collidingEnum.WellNumbered ∧
      collidingEnum.numbered.map (·.1) = [0, 2112, 2113] :=
  have h : collidingEnum.fields.length ≤ 500000000 := by decide
  ⟨h, wellNumbered h, by decide +kernel⟩

end Message

end DiscoveryGrpc.Proto
