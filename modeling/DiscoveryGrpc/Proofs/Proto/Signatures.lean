import Mathlib.Data.List.TakeWhile
import Mathlib.Tactic.Common
import DiscoveryGrpc.Proto.Merge

/-!
# Merged signatures

The options of an rpc are those before its first signature, its signatures, and the others that
come after. Merging signatures changes the middle part only (`mergeSignatures_eq`), so what it does
when it is repeated can be told from the signatures alone: `mergeSignatures_again` for the same old
options, `mergeSignatures_onto` for the merged ones. The latter needs that the signatures of the new
rpc stand together, for otherwise bringing them back moves them next to each other.
-/

namespace DiscoveryGrpc.Proto.Merge

/-! ## Lists without repetitions -/

/-- Adding elements one after another, each unless it is there. -/
theorem foldl_contains (all xs : List Setting) :
    xs.foldl (fun all s => if all.contains s then all else all ++ [s]) all
      = all ++ (xs.filter (!all.contains ·)).eraseDups := by
  induction xs generalizing all with
  | nil => simp
  | cons s xs ih =>
    rw [List.foldl_cons, ih]
    by_cases hs : s ∈ all
    · simp [hs]
    · have hfilter : xs.filter (!(all ++ [s]).contains ·)
          = (xs.filter (!all.contains ·)).filter (!· == s) := by
        rw [List.filter_filter]
        refine List.filter_congr fun x _ => ?_
        by_cases hx : x = s <;> simp [hx, hs]
      have hcons : (s :: xs).filter (!all.contains ·) = s :: xs.filter (!all.contains ·) := by
        simp [hs]
      rw [if_neg (by simpa using hs), hfilter, hcons, List.eraseDups_cons, List.append_assoc,
        List.singleton_append]

theorem eraseDups_eraseDups : (xs : List Setting) → xs.eraseDups.eraseDups = xs.eraseDups
  | [] => rfl
  | x :: xs => by
    have hx : (xs.filter (!· == x)).eraseDups.filter (!· == x) = (xs.filter (!· == x)).eraseDups :=
      List.filter_eq_self.2 fun y hy => (List.mem_filter.1 (List.mem_eraseDups.1 hy)).2
    rw [List.eraseDups_cons, List.eraseDups_cons, hx, eraseDups_eraseDups (xs.filter (!· == x))]
  termination_by xs => xs.length
  decreasing_by
    exact Nat.lt_succ_of_le (List.length_filter_le ..)

/-! ## The parts of a list of options -/

/-- The signatures among options. -/
def signatures (settings : List Setting) : List Setting := settings.filter isSignature

/-- The options before the first signature. -/
def before (settings : List Setting) : List Setting := settings.takeWhile (!isSignature ·)

/-- The options after the first signature, less all signatures. -/
def after (settings : List Setting) : List Setting :=
  (settings.dropWhile (!isSignature ·)).filter (!isSignature ·)

theorem isSignature_of_mem_signatures {settings : List Setting} :
    ∀ s ∈ signatures settings, isSignature s = true :=
  fun _ hs => (List.mem_filter.1 hs).2

theorem not_isSignature_of_mem_before {settings : List Setting} :
    ∀ s ∈ before settings, isSignature s = false :=
  fun s hs => by simpa using List.mem_takeWhile_imp hs

theorem not_isSignature_of_mem_after {settings : List Setting} :
    ∀ s ∈ after settings, isSignature s = false :=
  fun s hs => by simpa using (List.mem_filter.1 hs).2

section Parts

variable {a s b : List Setting} (ha : ∀ x ∈ a, isSignature x = false)
  (hs : ∀ x ∈ s, isSignature x = true) (hb : ∀ x ∈ b, isSignature x = false)

include ha hs hb

theorem signatures_parts : signatures (a ++ s ++ b) = s := by
  have ha' : a.filter isSignature = [] := List.filter_eq_nil_iff.2 fun x hx => by simp [ha x hx]
  have hb' : b.filter isSignature = [] := List.filter_eq_nil_iff.2 fun x hx => by simp [hb x hx]
  rw [signatures, List.filter_append, List.filter_append, ha', hb', List.filter_eq_self.2 hs]
  simp

omit hb in
theorem before_parts (hne : s ≠ []) : before (a ++ s ++ b) = a := by
  obtain ⟨x, s, rfl⟩ := List.exists_cons_of_ne_nil hne
  have hx := hs x List.mem_cons_self
  rw [before, List.append_assoc, List.takeWhile_append_of_pos fun y hy => by simp [ha y hy]]
  simp [hx]

theorem after_parts (hne : s ≠ []) : after (a ++ s ++ b) = b := by
  obtain ⟨x, s, rfl⟩ := List.exists_cons_of_ne_nil hne
  have hx := hs x List.mem_cons_self
  have hdrop : ((a ++ x :: s) ++ b).dropWhile (!isSignature ·) = x :: s ++ b := by
    rw [List.append_assoc, List.dropWhile_append_of_pos fun y hy => by simp [ha y hy]]
    simp [hx]
  have hs' : (x :: s).filter (!isSignature ·) = [] :=
    List.filter_eq_nil_iff.2 fun y hy => by simp [hs y hy]
  have hb' : b.filter (!isSignature ·) = b := List.filter_eq_self.2 fun y hy => by simp [hb y hy]
  rw [after, hdrop, List.filter_append, hs', hb', List.nil_append]

end Parts

/-- No option of another name stands between two signatures. -/
def Together (settings : List Setting) : Prop :=
  ∀ s t u, [s, t, u].Sublist settings →
    isSignature s = true → isSignature u = true → isSignature t = true

/-- Behind a signature come the other ones, and then the options of other names. -/
theorem Together.of_cons {settings rest : List Setting} {s : Setting} (h : Together settings)
    (hs : isSignature s = true) (hsub : (s :: rest).Sublist settings) :
    rest.filter isSignature ++ rest.filter (!isSignature ·) = rest := by
  induction rest with
  | nil => rfl
  | cons t rest ih =>
    have hrest : (s :: rest).Sublist settings :=
      ((List.sublist_cons_self t rest).cons_cons s).trans hsub
    by_cases ht : isSignature t = true
    · simpa [ht] using ih hrest
    · -- no signature comes after an option of another name
      have hnone : ∀ u ∈ t :: rest, isSignature u = false := by
        intro u hu
        rcases List.mem_cons.1 hu with rfl | hu
        · simpa using ht
        · by_contra hsig
          have hstu := ((List.singleton_sublist.2 hu).cons_cons t).cons_cons s
          exact ht (h s t u (hstu.trans hsub) hs (by simpa using hsig))
      rw [List.filter_eq_nil_iff.2 fun u hu => by simp [hnone u hu],
        List.filter_eq_self.2 fun u hu => by simp [hnone u hu], List.nil_append]

/-- Signatures that stand together are one part of the options. -/
theorem Together.parts {settings : List Setting} (h : Together settings) :
    before settings ++ signatures settings ++ after settings = settings := by
  have hbefore : (before settings).filter isSignature = [] :=
    List.filter_eq_nil_iff.2 fun x hx => by simp [not_isSignature_of_mem_before x hx]
  have hsplit : before settings ++ settings.dropWhile (!isSignature ·) = settings :=
    List.takeWhile_append_dropWhile
  have hsigs : signatures settings = (settings.dropWhile (!isSignature ·)).filter isSignature := by
    rw [signatures]
    conv_lhs => rw [← hsplit]
    rw [List.filter_append, hbefore, List.nil_append]
  rw [hsigs, after, List.append_assoc]
  conv_rhs => rw [← hsplit]
  congr 1
  cases hdrop : settings.dropWhile (!isSignature ·) with
  | nil => rfl
  | cons s rest =>
    have hs : isSignature s = true := by
      have := List.head?_dropWhile_not (!isSignature ·) settings
      simpa [hdrop] using this
    have hsub : (s :: rest).Sublist settings := hdrop ▸ List.dropWhile_sublist _
    simpa [hs] using h.of_cons hs hsub

/-- Between two elements of a part in the middle stand elements of that part only. -/
theorem together_iff {settings : List Setting} :
    Together settings ↔ before settings ++ signatures settings ++ after settings = settings := by
  refine ⟨Together.parts, fun h s t u hsub hs hu => ?_⟩
  rw [← h, List.append_assoc, List.sublist_append_iff] at hsub
  obtain ⟨x, y, hxy, hx, hy⟩ := hsub
  obtain ⟨y, z, rfl, hy, hz⟩ := List.sublist_append_iff.1 hy
  have hfront : x = [] := by
    cases x with
    | nil => rfl
    | cons w x =>
      obtain ⟨rfl, -⟩ := List.cons.inj hxy
      have hmem := hx.subset List.mem_cons_self
      exact absurd hs (by simp [not_isSignature_of_mem_before s hmem])
  have hback : z = [] := by
    rcases List.eq_nil_or_concat z with hz' | ⟨z, w, rfl⟩
    · exact hz'
    · have hlast := congrArg List.getLast? hxy
      obtain rfl : u = w := by simpa using hlast
      have hmem : u ∈ after settings := hz.subset (by simp)
      exact absurd hu (by simp [not_isSignature_of_mem_after u hmem])
  rw [hfront, hback, List.append_nil, List.nil_append] at hxy
  rw [← hxy] at hy
  exact isSignature_of_mem_signatures t (hy.subset (by simp))

instance (settings : List Setting) : Decidable (Together settings) :=
  decidable_of_iff' _ together_iff

/-! ## Merging -/

/-- The new signatures that are not among the old ones, each once. -/
def addedSignatures (old new : List Setting) : List Setting :=
  ((signatures new).filter (!(signatures old).contains ·)).eraseDups

theorem addedSignatures_eq (old new : List Setting) : addedSignatures old new
    = (new.filter fun s => isSignature s && !old.contains s).eraseDups := by
  rw [addedSignatures, signatures.eq_def new, List.filter_filter]
  refine congrArg List.eraseDups (List.filter_congr fun s _ => ?_)
  by_cases hs : isSignature s = true <;> simp [signatures, hs]

theorem mem_addedSignatures {old new : List Setting} {s : Setting} :
    s ∈ addedSignatures old new ↔ s ∈ signatures new ∧ s ∉ signatures old := by
  simp [addedSignatures, List.mem_eraseDups]

theorem mergeSignatures_of_eq_nil {old : List Setting} (h : signatures old = [])
    (new : List Setting) : mergeSignatures old new = new := by
  rw [mergeSignatures, ← signatures, h]
  rfl

theorem mergeSignatures_eq {old : List Setting} (h : signatures old ≠ []) (new : List Setting) :
    mergeSignatures old new
      = before new ++ (signatures old ++ addedSignatures old new) ++ after new := by
  have hkept : (signatures old).isEmpty = false := by simpa using h
  rw [mergeSignatures, ← signatures, ← signatures, hkept, foldl_contains]
  rfl

/-- A merged option is a new one, or one of the old signatures. -/
theorem mem_or_mem_of_mem_mergeSignatures {old new : List Setting} {s : Setting}
    (hs : s ∈ mergeSignatures old new) : s ∈ new ∨ s ∈ signatures old := by
  by_cases h : signatures old = []
  · exact .inl (mergeSignatures_of_eq_nil h new ▸ hs)
  · rw [mergeSignatures_eq h] at hs
    rcases List.mem_append.1 hs with hs | hs
    · rcases List.mem_append.1 hs with hs | hs
      · exact .inl ((List.takeWhile_sublist _).subset hs)
      · rcases List.mem_append.1 hs with hs | hs
        · exact .inr hs
        · exact .inl (List.mem_filter.1 (mem_addedSignatures.1 hs).1).1
    · exact .inl ((List.dropWhile_sublist _).subset (List.mem_filter.1 hs).1)

/-- No options come back but signatures. -/
theorem mem_mergeSignatures {old new : List Setting} {s : Setting}
    (hs : s ∈ mergeSignatures old new) : s ∈ new ∨ isSignature s = true :=
  (mem_or_mem_of_mem_mergeSignatures hs).imp_right (isSignature_of_mem_signatures s)

/-- Where the old options have signatures, the signatures of the result are known, and its other
parts are those of the new options. -/
theorem parts_mergeSignatures {old : List Setting} (h : signatures old ≠ []) (new : List Setting) :
    before (mergeSignatures old new) = before new ∧
    signatures (mergeSignatures old new) = signatures old ++ addedSignatures old new ∧
    after (mergeSignatures old new) = after new := by
  have hmid : ∀ s ∈ signatures old ++ addedSignatures old new, isSignature s = true := by
    intro s hs
    rcases List.mem_append.1 hs with hs | hs
    · exact isSignature_of_mem_signatures s hs
    · exact isSignature_of_mem_signatures s (mem_addedSignatures.1 hs).1
  have hne : signatures old ++ addedSignatures old new ≠ [] := by simp [h]
  rw [mergeSignatures_eq h]
  exact ⟨before_parts not_isSignature_of_mem_before hmid hne,
    signatures_parts not_isSignature_of_mem_before hmid not_isSignature_of_mem_after,
    after_parts not_isSignature_of_mem_before hmid not_isSignature_of_mem_after hne⟩

/-- Merging the same signatures again changes nothing. -/
theorem mergeSignatures_again (old new : List Setting) :
    mergeSignatures old (mergeSignatures old new) = mergeSignatures old new := by
  by_cases h : signatures old = []
  · rw [mergeSignatures_of_eq_nil h]
  · obtain ⟨hbefore, hsigs, hafter⟩ := parts_mergeSignatures h new
    have hadded : addedSignatures old (mergeSignatures old new) = addedSignatures old new := by
      have hnone : (signatures old).filter (!(signatures old).contains ·) = [] :=
        List.filter_eq_nil_iff.2 fun s hs => by simp [hs]
      have hall : (addedSignatures old new).filter (!(signatures old).contains ·)
          = addedSignatures old new :=
        List.filter_eq_self.2 fun s hs => by simp [(mem_addedSignatures.1 hs).2]
      rw [addedSignatures, hsigs, List.filter_append, hnone, hall, List.nil_append, addedSignatures,
        eraseDups_eraseDups]
    rw [mergeSignatures_eq h (mergeSignatures old new), hbefore, hafter, hadded,
      mergeSignatures_eq h]

/-- Nothing is added where all signatures are there. -/
theorem addedSignatures_eq_nil {old new : List Setting}
    (h : ∀ s ∈ signatures new, s ∈ signatures old) : addedSignatures old new = [] := by
  refine List.eq_nil_iff_forall_not_mem.2 fun s hs => ?_
  obtain ⟨hnew, hold⟩ := mem_addedSignatures.1 hs
  exact hold (h s hnew)

/-- Options that have their signatures together stay as they are when these are brought back. -/
theorem mergeSignatures_self {settings : List Setting} (h : Together settings) :
    mergeSignatures settings settings = settings := by
  by_cases hs : signatures settings = []
  · exact mergeSignatures_of_eq_nil hs settings
  · rw [mergeSignatures_eq hs, addedSignatures_eq_nil fun s hs => hs, List.append_nil, h.parts]

/-- Merging the result into the same options gives the result. -/
theorem mergeSignatures_onto (old : List Setting) {new : List Setting} (h : Together new) :
    mergeSignatures (mergeSignatures old new) new = mergeSignatures old new := by
  by_cases hold : signatures old = []
  · rw [mergeSignatures_of_eq_nil hold, mergeSignatures_self h]
  · obtain ⟨-, hsigs, -⟩ := parts_mergeSignatures hold new
    have hne : signatures (mergeSignatures old new) ≠ [] := by simp [hsigs, hold]
    have hadded : addedSignatures (mergeSignatures old new) new = [] := by
      refine addedSignatures_eq_nil fun s hs => ?_
      rw [hsigs]
      by_cases hmem : s ∈ signatures old
      · exact List.mem_append_left _ hmem
      · exact List.mem_append_right _ (mem_addedSignatures.2 ⟨hs, hmem⟩)
    rw [mergeSignatures_eq hne, hadded, List.append_nil, hsigs, mergeSignatures_eq hold]

end DiscoveryGrpc.Proto.Merge
