/-!
# Cutting text into stretches

`splitBy` cuts a text at every character of a class. There is always one stretch more than there
are separators, so an empty text has one empty stretch, and joining the stretches with the
separators gives the text back. Dotted identifiers, path segments, lower underscore words and
lines of a description are all read through it.

The main statements are `intercalate_splitBy` and `not_sep_of_mem_splitBy`: nothing is lost, and no
separator stays. The other way round, stretches without separators that are joined and cut again
come back (`splitBy_intercalate`).
-/

namespace DiscoveryGrpc.Text

/-- The stretches of a text between the characters of a class. -/
def splitBy (sep : Char → Bool) : List Char → List (List Char)
  | [] => [[]]
  | c :: cs =>
    if sep c then [] :: splitBy sep cs
    else match splitBy sep cs with
      | [] => [[c]]
      | w :: ws => (c :: w) :: ws

/-- The stretches of a string between the occurrences of one character. -/
def segments (sep : Char) (s : String) : List String :=
  (splitBy (· == sep) s.toList).map String.ofList

/-- The lines of a text. A line feed at the very end does not open another line. -/
def lines (s : String) : List (List Char) :=
  let all := splitBy (· == '\n') s.toList
  if all.getLast? = some [] then all.dropLast else all

theorem splitBy_ne_nil (sep : Char → Bool) (cs : List Char) : splitBy sep cs ≠ [] := by
  cases cs with
  | nil => simp [splitBy]
  | cons c cs =>
    rw [splitBy]
    split
    · simp
    · split <;> simp

/-- The stretches between the occurrences of one character, joined with it, are the text. -/
theorem intercalate_splitBy (sep : Char) (cs : List Char) :
    [sep].intercalate (splitBy (· == sep) cs) = cs := by
  induction cs with
  | nil => rfl
  | cons c cs ih =>
    rw [splitBy]
    obtain ⟨w, ws, h⟩ := List.exists_cons_of_ne_nil (splitBy_ne_nil (· == sep) cs)
    rw [h] at ih ⊢
    by_cases hc : c = sep
    · subst hc
      cases ws <;> simp_all [List.intercalate, List.intersperse]
    · cases ws <;> simp_all [List.intercalate, List.intersperse]

/-- No stretch has a separator in it. -/
theorem not_sep_of_mem_splitBy {sep : Char → Bool} {cs w : List Char} (hw : w ∈ splitBy sep cs) :
    ∀ c ∈ w, sep c = false := by
  induction cs generalizing w with
  | nil => simp_all [splitBy]
  | cons c cs ih =>
    rw [splitBy] at hw
    split at hw
    · rcases List.mem_cons.1 hw with rfl | hw
      · simp
      · exact ih hw
    · rename_i hc
      split at hw
      · simp_all
      · rename_i v vs h
        rcases List.mem_cons.1 hw with rfl | hw
        · intro d hd
          rcases List.mem_cons.1 hd with rfl | hd
          · simpa using hc
          · exact ih (by simp [h]) d hd
        · exact ih (by simp [h, hw])

theorem intercalate_cons (sep : Char) (w : List Char) (ws : List (List Char)) :
    [sep].intercalate (w :: ws) = w ++ ws.flatMap (sep :: ·) := by
  induction ws generalizing w with
  | nil => simp
  | cons v vs ih => simp [ih v]

theorem splitBy_of_not_sep {sep : Char → Bool} {w : List Char} (h : ∀ c ∈ w, sep c = false) :
    splitBy sep w = [w] := by
  induction w with
  | nil => rfl
  | cons c w ih =>
    rw [splitBy, h c List.mem_cons_self, ih fun d hd => h d (List.mem_cons_of_mem _ hd)]
    rfl

theorem splitBy_append_cons {sep : Char → Bool} {w : List Char} {c : Char} (cs : List Char)
    (h : ∀ d ∈ w, sep d = false) (hc : sep c = true) :
    splitBy sep (w ++ c :: cs) = w :: splitBy sep cs := by
  induction w with
  | nil => rw [List.nil_append, splitBy, if_pos hc]
  | cons d w ih =>
    rw [List.cons_append, splitBy, h d List.mem_cons_self,
      ih fun e he => h e (List.mem_cons_of_mem _ he)]
    rfl

/-- Stretches without separators, joined with a separator, are the stretches of the text. -/
theorem splitBy_intercalate {sep : Char → Bool} {c : Char} {ws : List (List Char)}
    (hc : sep c = true) (hne : ws ≠ []) (h : ∀ w ∈ ws, ∀ d ∈ w, sep d = false) :
    splitBy sep ([c].intercalate ws) = ws := by
  induction ws with
  | nil => exact absurd rfl hne
  | cons w ws ih =>
    have hw := h w List.mem_cons_self
    cases ws with
    | nil => rw [List.intercalate_singleton, splitBy_of_not_sep hw]
    | cons v vs =>
      rw [List.intercalate_cons_cons, List.append_assoc, List.singleton_append,
        splitBy_append_cons _ hw hc,
        ih (List.cons_ne_nil v vs) fun u hu => h u (List.mem_cons_of_mem _ hu)]

/-! ## Taking while a test holds -/

theorem span_eq (p : Char → Bool) (cs : List Char) :
    cs.span p = (cs.takeWhile p, cs.dropWhile p) := by
  have : ∀ seen, List.span.loop p cs seen = (seen.reverse ++ cs.takeWhile p, cs.dropWhile p) := by
    induction cs with
    | nil => exact fun seen => congrArg (·, []) (List.append_nil _).symm
    | cons c cs ih =>
      intro seen
      change (bif p c then List.span.loop p cs (c :: seen) else (seen.reverse, c :: cs)) = _
      cases h : p c <;> simp [h, ih]
  exact this []

/-- Taking while a test holds stops in front of a text that begins otherwise. -/
theorem span_append {p : Char → Bool} {cs rest : List Char} (h : ∀ c ∈ cs, p c = true)
    (hr : ∀ c ∈ rest.head?, p c = false) : (cs ++ rest).span p = (cs, rest) := by
  rw [span_eq, List.takeWhile_append_of_pos h, List.dropWhile_append_of_pos h]
  cases rest with
  | nil => simp
  | cons c rest =>
    have hc := hr c (by simp)
    simp [hc]

end DiscoveryGrpc.Text
