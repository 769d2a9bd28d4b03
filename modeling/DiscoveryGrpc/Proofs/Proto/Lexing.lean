import Mathlib.Tactic.Common
import DiscoveryGrpc.Proto.Text

/-!
# Cutting written text into tokens

What a text spells is its tokens; lines and layout play no part in it. `Lexeme.tokens?` is the
reading of a text without lines (`tokens_of_tokens?`), and this module says what each part of a
written file does to it:

* white space and line comments may stand in front of any text (`tokens?_space`,
  `tokens?_comment`);
* a written token is read back in front of any text that does not run into it
  (`tokens?_write`). Only words and numbers can run into what follows; for these the next character
  must not be one of a word.
-/

namespace DiscoveryGrpc.Proto

namespace Lexeme

/-! ## Tokens without lines -/

/-- The tokens among lexemes, unless one of them is bad. -/
def tokensOf? : List Lexeme → Option (List Token)
  | [] => some []
  | x :: xs =>
    match x.kind with
    | .layout => tokensOf? xs
    | .token t => (tokensOf? xs).map (t :: ·)
    | .bad => none

/-- The tokens of a text, unless a piece of it is bad. -/
def tokens? (cs : List Char) : Option (List Token) := tokensOf? (all cs)

theorem locate_of_tokensOf? {xs : List Lexeme} {ts : List Token} (h : tokensOf? xs = some ts)
    (line : Nat) (seen : List Located) :
    ∃ located, locate line seen xs = .ok located ∧
      located.map (·.1) = seen.reverse.map (·.1) ++ ts := by
  induction xs generalizing line seen ts with
  | nil =>
    obtain rfl := Option.some.inj h
    exact ⟨seen.reverse, rfl, by simp⟩
  | cons x xs ih =>
    rw [tokensOf?] at h
    rw [locate]
    cases hk : x.kind with
    | layout =>
      rw [hk] at h
      exact ih h _ _
    | token t =>
      rw [hk] at h
      obtain ⟨ts', hts', rfl⟩ := Option.map_eq_some_iff.1 h
      obtain ⟨located, hl, hm⟩ := ih hts' (line + x.text.count '\n') ((t, line) :: seen)
      exact ⟨located, hl, by rw [hm]; simp⟩
    | bad =>
      rw [hk] at h
      cases h

/-- A text whose tokens can be read is cut into just these tokens, each with some line. -/
theorem tokens_of_tokens? {s : String} {ts : List Token} (h : tokens? s.toList = some ts) :
    ∃ located, tokens s = .ok located ∧ located.map (·.1) = ts :=
  locate_of_tokensOf? h 1 []

/-- The cutting of a literal from the characters it stands for. Unification finds these at once,
where `String.toList` would decode the literal's bytes in time quadratic in its length. -/
theorem tokens_of_chars (s : String) {cs : List Char} (h : s = String.ofList cs) :
    tokens s = locate 1 [] (all cs) := by
  rw [tokens, h, String.toList_ofList]

theorem tokens?_cons (c : Char) (cs : List Char) :
    tokens? (c :: cs) = match (first c cs).1.kind with
      | .layout => tokens? (first c cs).2
      | .token t => (tokens? (first c cs).2).map (t :: ·)
      | .bad => none := by
  rw [tokens?, all_cons]
  split
  · rename_i hk
    simp [tokensOf?, hk]
  · rfl

theorem tokens?_of_first {c : Char} (cs text : List Char) {rest : List Char} {t : Token}
    (h : first c cs = (⟨.token t, text⟩, rest)) :
    tokens? (c :: cs) = (tokens? rest).map (t :: ·) := by
  rw [tokens?_cons, h]

/-! ## Layout -/

theorem first_of_isSpace {c : Char} (h : isSpace c = true) (cs : List Char) :
    first c cs = (⟨.layout, c :: cs.takeWhile isSpace⟩, cs.dropWhile isSpace) := by
  rw [first, if_pos h, Text.span_eq]

theorem tokens?_dropWhile (cs : List Char) : tokens? (cs.dropWhile isSpace) = tokens? cs := by
  cases cs with
  | nil => rfl
  | cons c cs =>
    by_cases h : isSpace c = true
    · rw [List.dropWhile_cons_of_pos h, tokens?_cons, first_of_isSpace h]
    · rw [List.dropWhile_cons_of_neg h]

/-- White space in front of a text changes nothing. -/
theorem tokens?_space (blanks : List Char) (h : ∀ c ∈ blanks, isSpace c = true)
    (rest : List Char) : tokens? (blanks ++ rest) = tokens? rest := by
  rw [← tokens?_dropWhile, List.dropWhile_append_of_pos h, tokens?_dropWhile]

/-- A line comment goes on to the end of its line. -/
theorem first_lineComment {body rest : List Char} (h : '\n' ∉ body)
    (hr : ∀ c ∈ rest.head?, c = '\n') :
    first '/' ('/' :: (body ++ rest)) = (⟨.layout, '/' :: '/' :: body⟩, rest) := by
  have hspan : (body ++ rest).span (· != '\n') = (body, rest) :=
    Text.span_append (fun c hc => bne_iff_ne.2 (ne_of_mem_of_not_mem hc h))
      fun c hc => by simp [hr c hc]
  change comment ('/' :: (body ++ rest)) = _
  simp only [comment, hspan]

/-- A line comment in front of a text changes nothing, whatever it says. -/
theorem tokens?_comment {body : List Char} (h : '\n' ∉ body) (rest : List Char) :
    tokens? ('/' :: '/' :: body ++ '\n' :: rest) = tokens? rest := by
  rw [List.cons_append, List.cons_append, tokens?_cons, first_lineComment h (by simp)]
  exact tokens?_space ['\n'] (List.forall_mem_singleton.2 rfl) rest

theorem comment_kind_ne (cs : List Char) (t : Token) : (comment cs).1.kind ≠ .token t := by
  unfold comment
  split
  · simp
  · split <;> simp
  · simp

/-! ## Words -/

/-- Whether a text is one word. -/
def isWord (s : String) : Bool :=
  match s.toList with
  | [] => false
  | c :: cs => isWordStart c && cs.all isWordPart

/-- No word or number goes on into a text. -/
def Apart (cs : List Char) : Prop := ∀ c ∈ cs.head?, isWordPart c = false

theorem isSpace_eq_false {c : Char} (h : isWordPart c = true) : isSpace c = false := by
  by_contra hs
  simp only [isSpace, Bool.not_eq_false, Bool.or_eq_true, beq_iff_eq, or_assoc] at hs
  rcases hs with rfl | rfl | rfl | rfl | rfl <;> revert h <;> decide

theorem isWordPart_of_isWordStart {c : Char} (h : isWordStart c = true) : isWordPart c = true := by
  simp only [isWordStart, isWordPart, Char.isAlphanum, Bool.or_eq_true] at h ⊢
  tauto

theorem isWordPart_of_isDigit {c : Char} (h : c.isDigit = true) : isWordPart c = true := by
  simp [isWordPart, Char.isAlphanum, h]

theorem isWordStart_eq_false {c : Char} (h : c.isDigit = true) : isWordStart c = false := by
  have hu : c ≠ '_' := by rintro rfl; revert h; decide
  have hd : 48 ≤ c.toNat ∧ c.toNat ≤ 57 := Char.isDigit_iff_toNat.1 h
  have ha : c.isAlpha = false := by
    rw [Bool.eq_false_iff]
    intro ha
    rcases Bool.or_eq_true_iff.1 ha with hupper | hlower
    · have hle : 65 ≤ c.toNat := UInt32.le_iff_toNat_le.1 (of_decide_eq_true hupper).1
      omega
    · obtain ⟨hle, -⟩ := Bool.and_eq_true_iff.1 hlower
      have hle : 97 ≤ c.toNat := UInt32.le_iff_toNat_le.1 (of_decide_eq_true hle)
      omega
  simp [isWordStart, ha, hu]

theorem first_of_isWordStart {c : Char} (h : isWordStart c = true) (cs : List Char) :
    first c cs = (⟨.token (.word (String.ofList (c :: (cs.span isWordPart).1))),
      c :: (cs.span isWordPart).1⟩, (cs.span isWordPart).2) := by
  rw [first, if_neg (by simp [isSpace_eq_false (isWordPart_of_isWordStart h)]), if_pos h]

theorem first_of_isDigit {c : Char} (h : c.isDigit = true) (cs : List Char) :
    first c cs = (number false (c :: (cs.span Char.isDigit).1), (cs.span Char.isDigit).2) := by
  rw [first, if_neg (by simp [isSpace_eq_false (isWordPart_of_isDigit h)]),
    if_neg (by simp [isWordStart_eq_false h]), if_pos h]

theorem first_minus (cs : List Char) : first '-' cs =
    match cs.span Char.isDigit with
    | ([], rest) => (⟨.bad, ['-']⟩, rest)
    | (digits, rest) => (number true digits, rest) := rfl

theorem first_of_punctuation {c : Char} {t : Token} (h : punctuation? c = some t)
    (cs : List Char) : first c cs = (⟨.token t, [c]⟩, cs) := by
  unfold punctuation? at h
  split at h <;> cases h <;> rfl

theorem tokens?_word {name : String} (h : isWord name = true) {rest : List Char}
    (hr : Apart rest) :
    tokens? (name.toList ++ rest) = (tokens? rest).map (.word name :: ·) := by
  rw [isWord] at h
  split at h
  · cases h
  · rename_i c cs hcs
    obtain ⟨hc, hp⟩ := Bool.and_eq_true_iff.1 h
    have hf : first c (cs ++ rest) = (⟨.token (.word name), c :: cs⟩, rest) := by
      rw [first_of_isWordStart hc, Text.span_append (List.all_eq_true.1 hp) hr, ← hcs,
        String.ofList_toList]
    rw [hcs]
    exact tokens?_of_first _ _ hf

/-! ## Numbers -/

theorem digitsValue_toDigits (n : Nat) : digitsValue (Nat.toDigits 10 n) = n := by
  have h := Nat.ofDigitChars_ten_toDigits (n := n)
  simpa only [Nat.ofDigitChars, digitsValue, Nat.mul_comm 10] using h

/-- The digits of a number, in front of a text that does not go on with them. -/
theorem span_digits (n : Nat) {rest : List Char} (hr : Apart rest) :
    (Nat.toDigits 10 n ++ rest).span Char.isDigit = (Nat.toDigits 10 n, rest) := by
  refine Text.span_append (fun c hc => Nat.isDigit_of_mem_toDigits (by decide) (by decide) hc)
    fun c hc => ?_
  by_contra hd
  have := isWordPart_of_isDigit (by simpa using hd)
  simp [hr c hc] at this

theorem tokens?_nat {n : Nat} (h : isInt64 n = true) {rest : List Char} (hr : Apart rest) :
    tokens? (Nat.toDigits 10 n ++ rest) = (tokens? rest).map (.int n :: ·) := by
  have hs := span_digits n hr
  have hv := digitsValue_toDigits n
  have hd := fun c => Nat.isDigit_of_mem_toDigits (c := c) (n := n) (b := 10) (by decide) (by decide)
  obtain ⟨c, cs, hcs⟩ := List.exists_cons_of_ne_nil (Nat.toDigits_ne_nil (n := n) (b := 10))
  rw [hcs] at hs hv hd ⊢
  have hc := hd c (by simp)
  have hcs' : (cs ++ rest).span Char.isDigit = (cs, rest) := by
    rw [Text.span_eq] at hs ⊢
    simpa [hc] using hs
  refine tokens?_of_first (cs ++ rest) (c :: cs) ?_
  rw [first_of_isDigit hc, hcs']
  simp [number, hv, h]

theorem tokens?_neg {n : Nat} (h : isInt64 (-(n : Int)) = true) {rest : List Char}
    (hr : Apart rest) :
    tokens? ('-' :: Nat.toDigits 10 n ++ rest) = (tokens? rest).map (.int (-(n : Int)) :: ·) := by
  refine tokens?_of_first (Nat.toDigits 10 n ++ rest) ('-' :: Nat.toDigits 10 n) ?_
  obtain ⟨c, cs, hcs⟩ := List.exists_cons_of_ne_nil (Nat.toDigits_ne_nil (n := n) (b := 10))
  have hv := digitsValue_toDigits n
  rw [first_minus, span_digits n hr, hcs]
  rw [hcs] at hv
  simp [number, hv, h]

theorem tokens?_int {i : Int} (h : isInt64 i = true) {rest : List Char} (hr : Apart rest) :
    tokens? ((toString i).toList ++ rest) = (tokens? rest).map (.int i :: ·) := by
  rw [Int.toString_eq_repr, Int.repr_eq_if]
  split
  · rename_i hi
    have := tokens?_nat (n := i.toNat) (by rwa [Int.toNat_of_nonneg hi]) hr
    rwa [Int.toNat_of_nonneg hi, ← Nat.toList_repr] at this
  · rename_i hi
    have hn : -((-i).toNat : Int) = i := by omega
    have := tokens?_neg (n := (-i).toNat) (by rwa [hn]) hr
    rw [hn, ← Nat.toList_repr] at this
    simpa using this

/-! ## String literals -/

theorem unescape_escapeChar (c : Char) (cs : List Char) :
    unescape (escapeChar c ++ cs) = c :: unescape cs := by
  unfold escapeChar
  split
  · rfl
  · rfl
  · rfl
  · rename_i hq hb hn
    rw [List.cons_append, List.nil_append]
    rw [unescape]
    · exact fun _ h _ => hb h
    · exact fun _ h _ => hb h
    · exact fun _ _ h _ => hb h

theorem unescape_escape (cs : List Char) : unescape (cs.flatMap escapeChar) = cs := by
  induction cs with
  | nil => rfl
  | cons c cs ih => rw [List.flatMap_cons, unescape_escapeChar, ih]

theorem literalBody_escapeChar (seen : List Char) (c : Char) (cs : List Char) :
    literalBody seen (escapeChar c ++ cs) = literalBody ((escapeChar c).reverse ++ seen) cs := by
  unfold escapeChar
  split
  · rfl
  · rfl
  · rfl
  · rename_i hq hb hn
    rw [List.cons_append, List.nil_append, literalBody]
    · rfl
    · exact hq
    · exact fun _ _ h _ => hb h

theorem literalBody_escape (seen cs rest : List Char) :
    literalBody seen (cs.flatMap escapeChar ++ '"' :: rest)
      = (seen.reverse ++ cs.flatMap escapeChar, some rest) := by
  induction cs generalizing seen with
  | nil => simp [literalBody]
  | cons c cs ih =>
    rw [List.flatMap_cons, List.append_assoc, literalBody_escapeChar, ih]
    simp

theorem tokens?_literal (s : String) (rest : List Char) :
    tokens? ((quoteLiteral s).toList ++ rest) = (tokens? rest).map (.text s :: ·) := by
  have hf : first '"' (s.toList.flatMap escapeChar ++ '"' :: rest)
      = (⟨.token (.text s), '"' :: s.toList.flatMap escapeChar ++ ['"']⟩, rest) := by
    change literal _ = _
    rw [literal, literalBody_escape]
    simp [unescape_escape]
  have := tokens?_of_first _ _ hf
  simpa [quoteLiteral] using this

/-! ## Written tokens -/

/-- Whether a token is one that a text can spell. -/
def isSpellable : Token → Bool
  | .word name => isWord name
  | .int i => isInt64 i
  | _ => true

/-- Whether a token could run into the word or number behind it. -/
def runsOn : Token → Bool
  | .word _ | .int _ => true
  | _ => false

/-- A written token is read back, in front of any text that it does not run into. -/
theorem tokens?_write {t : Token} (ht : isSpellable t = true) {rest : List Char}
    (hr : runsOn t = true → Apart rest) :
    tokens? (t.write.toList ++ rest) = (tokens? rest).map (t :: ·) := by
  cases t with
  | word name => exact tokens?_word ht (hr rfl)
  | int i => exact tokens?_int ht (hr rfl)
  | text s => exact tokens?_literal s rest
  | _ => exact tokens?_of_first _ _ rfl

end Lexeme

end DiscoveryGrpc.Proto
