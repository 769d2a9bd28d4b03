import DiscoveryGrpc.Proofs.Proto.Spacing

/-!
# Cutting texts one after another

A text that stands in front of another one is cut into the same tokens as on its own if no lexeme
reaches over its end (`Lexeme.tokens?_append`). This is so for a text of whole lines that has no bad
piece, and for any text without quotes and slashes in front of one that is no part of a word: only
literals and comments reach further than the next character that is none of a word.

So the text of separated pieces is cut into what their tokens spell, each on its own, even if some
of them are words that are none (`Piece.Separated.tokens?_writeAll_eq`).
-/

namespace DiscoveryGrpc

namespace Text

/-- Taking while a test holds goes no further than a text if the text, or else what follows it,
stops it. -/
theorem span_append_of_stop {p : Char → Bool} {cs rest : List Char}
    (h : (∃ c ∈ cs, p c = false) ∨ ∀ c ∈ rest.head?, p c = false) :
    (cs ++ rest).span p = (cs.takeWhile p, cs.dropWhile p ++ rest) := by
  induction cs with
  | nil =>
    have hrest : ∀ c ∈ rest.head?, p c = false := h.resolve_left (by simp)
    exact span_append (by simp) hrest
  | cons c cs ih =>
    rw [span_eq] at ih ⊢
    by_cases hc : p c = true
    · have h : (∃ c ∈ cs, p c = false) ∨ ∀ c ∈ rest.head?, p c = false := by
        simpa [hc] using h
      obtain ⟨htake, hdrop⟩ := Prod.mk.inj (ih h)
      simp [hc, htake, hdrop]
    · simp [hc]

end Text

namespace Proto

namespace Lexeme

/-! ## Where lexemes end -/

/-- A text opens neither a literal nor a comment. -/
def Quiet (cs : List Char) : Prop := ∀ c ∈ cs, c ≠ '"' ∧ c ≠ '/'

/-- A text ends with its last line, if it has one. -/
def Whole (cs : List Char) : Prop := ∀ c ∈ cs.getLast?, c = '\n'

/-- A text is cut into lexemes alike on its own and in front of another one. -/
inductive Cut (cs rest : List Char) : Prop
  | apart (hq : Quiet cs) (hr : Apart rest)
  | whole (hw : Whole cs) (ht : tokens? cs ≠ none)

theorem Whole.of_suffix {cs ds : List Char} (h : Whole cs) (hs : ds <:+ cs) : Whole ds := by
  intro c hc
  obtain ⟨before, rfl⟩ := hs
  refine h c ?_
  rw [List.getLast?_append, Option.mem_def.1 hc]
  rfl

theorem Whole.mem_of_cons {c : Char} {cs : List Char} (h : Whole (c :: cs)) (hc : c ≠ '\n') :
    '\n' ∈ cs := by
  cases hl : (c :: cs).getLast? with
  | none => simp at hl
  | some d =>
    obtain rfl := h d hl
    exact (List.mem_cons.1 (List.mem_of_getLast? hl)).resolve_left hc.symm

theorem literalBody_append_some {seen cs raw r : List Char}
    (h : literalBody seen cs = (raw, some r)) (rest : List Char) :
    literalBody seen (cs ++ rest) = (raw, some (r ++ rest)) := by
  fun_induction literalBody seen cs with
  | case1 => simp at h
  | case2 seen cs =>
    obtain ⟨rfl, hr⟩ := Prod.mk.inj h
    obtain rfl := Option.some.inj hr
    rfl
  | case3 => simp at h
  | case4 seen e cs he ih =>
    rw [List.cons_append, List.cons_append, literalBody, if_neg he]
    exact ih h
  | case5 seen c cs hq hb ih =>
    rw [List.cons_append, literalBody]
    · exact ih h
    · exact hq
    · cases cs with
      | nil => simp [literalBody] at h
      | cons d cs =>
        intro e tail hc htail
        exact hb d cs hc rfl

theorem blockBody?_append_some {seen cs body r : List Char}
    (h : blockBody? seen cs = some (body, r)) (rest : List Char) :
    blockBody? seen (cs ++ rest) = some (body, r ++ rest) := by
  fun_induction blockBody? seen cs with
  | case1 => simp at h
  | case2 seen cs =>
    obtain ⟨rfl, rfl⟩ := Prod.mk.inj (Option.some.inj h)
    rfl
  | case3 seen c cs hs ih =>
    rw [List.cons_append, blockBody?]
    · exact ih h
    · cases cs with
      | nil => simp [blockBody?] at h
      | cons d cs =>
        intro tail hc htail
        obtain ⟨rfl, -⟩ := List.cons.inj htail
        exact hs cs hc rfl

/-- Behind the first character of a text that is cut alike in front of another one, taking while a
test of word characters holds goes no further than the text. -/
theorem Cut.stops {c : Char} {cs rest : List Char} (h : Cut (c :: cs) rest) (hc : c ≠ '\n')
    {p : Char → Bool} (hp : ∀ d, p d = true → isWordPart d = true) :
    (∃ d ∈ cs, p d = false) ∨ ∀ d ∈ rest.head?, p d = false := by
  have hfalse : ∀ d, isWordPart d = false → p d = false := fun d hd => by
    by_contra hpd
    simp [hp d (by simpa using hpd)] at hd
  cases h with
  | apart hq hr => exact .inr fun d hd => hfalse d (hr d hd)
  | whole hw _ => exact .inl ⟨'\n', hw.mem_of_cons hc, hfalse _ (by decide)⟩

theorem literal_append {cs : List Char} (h : (literal cs).1.kind ≠ .bad) (rest : List Char) :
    literal (cs ++ rest) = ((literal cs).1, (literal cs).2 ++ rest) := by
  unfold literal at h ⊢
  split at h
  · rename_i raw r hbody
    simp [literalBody_append_some hbody]
  · exact absurd rfl h

theorem comment_append {cs : List Char} (h : (comment cs).1.kind ≠ .bad) (hn : '\n' ∈ cs)
    (rest : List Char) : comment (cs ++ rest) = ((comment cs).1, (comment cs).2 ++ rest) := by
  unfold comment at h
  split at h
  · rename_i cs
    have hbody : (cs ++ rest).span (· != '\n') = _ :=
      Text.span_append_of_stop (.inl ⟨'\n', by simpa using hn, by simp⟩)
    simp only [comment, List.cons_append, hbody, Text.span_eq]
  · rename_i cs
    split at h
    · rename_i body r hbody
      simp [comment, hbody, blockBody?_append_some hbody]
    · exact absurd rfl h
  · exact absurd rfl h

theorem Cut.kind_ne_bad {c : Char} {cs rest : List Char} (h : Cut (c :: cs) rest)
    (hc : c = '"' ∨ c = '/') : (first c cs).1.kind ≠ .bad := by
  cases h with
  | apart hq _ =>
    obtain ⟨hquote, hslash⟩ := hq c List.mem_cons_self
    exact (hc.elim hquote hslash).elim
  | whole _ ht =>
    intro hbad
    rw [tokens?_cons, hbad] at ht
    exact ht rfl

theorem Cut.mem_of_slash {cs rest : List Char} (h : Cut ('/' :: cs) rest) : '\n' ∈ cs := by
  cases h with
  | apart hq _ => exact absurd rfl (hq '/' List.mem_cons_self).2
  | whole hw _ => exact hw.mem_of_cons (by decide)

/-- The first lexeme of a text stays the same in front of another text. -/
theorem first_append_eq {c : Char} {cs rest : List Char} (h : Cut (c :: cs) rest)
    (hs : isSpace c = false) :
    first c (cs ++ rest) = ((first c cs).1, (first c cs).2 ++ rest) := by
  have hline : c ≠ '\n' := by
    rintro rfl
    cases hs
  have hword := Text.span_append_of_stop (h.stops hline fun d hd => hd)
  have hdigits := Text.span_append_of_stop (h.stops hline fun d hd => isWordPart_of_isDigit hd)
  rw [first, first]
  simp only [hs, hword, hdigits, Text.span_eq]
  split
  · contradiction
  split
  · rfl
  split
  · rfl
  split
  · cases cs.takeWhile Char.isDigit <;> rfl
  split
  · rename_i hc
    obtain rfl : c = '"' := by simpa using hc
    exact literal_append (h.kind_ne_bad (.inl rfl)) rest
  split
  · rename_i hc
    obtain rfl : c = '/' := by simpa using hc
    exact comment_append (h.kind_ne_bad (.inr rfl)) (h.mem_of_slash) rest
  · split <;> rfl

theorem first_suffix {c : Char} {cs : List Char} (h : (first c cs).1.kind ≠ .bad) :
    (first c cs).2 <:+ c :: cs :=
  ⟨(first c cs).1.text, first_append h⟩

/-- What follows a lexeme is cut alike too. -/
theorem Cut.tail {c : Char} {cs ds rest : List Char} (h : Cut (c :: cs) rest) (hs : ds <:+ c :: cs)
    (ht : tokens? (c :: cs) ≠ none → tokens? ds ≠ none) : Cut ds rest := by
  cases h with
  | apart hq hr => exact .apart (fun d hd => hq d (hs.subset hd)) hr
  | whole hw hc => exact .whole (hw.of_suffix hs) (ht hc)

theorem tokens?_cons_of_isSpace {c : Char} (h : isSpace c = true) (cs : List Char) :
    tokens? (c :: cs) = tokens? cs :=
  tokens?_space [c] (by simpa using h) cs

/-- A text that is cut alike in front of another one is cut first, and then the other one. -/
theorem tokens?_append {cs rest : List Char} (h : Cut cs rest) :
    tokens? (cs ++ rest) = (tokens? cs).bind fun ts => (tokens? rest).map (ts ++ ·) := by
  induction hn : cs.length using Nat.strongRecOn generalizing cs with
  | _ n ih =>
    subst hn
    cases cs with
    | nil =>
      have hnil : tokens? [] = some [] := rfl
      simp [hnil]
    | cons c cs =>
      cases hs : isSpace c with
      | true =>
        have htail := h.tail (List.suffix_cons c cs) fun ht => tokens?_cons_of_isSpace hs cs ▸ ht
        rw [List.cons_append, tokens?_cons_of_isSpace hs, tokens?_cons_of_isSpace hs,
          ih _ (by simp) htail rfl]
      | false =>
        rw [List.cons_append, tokens?_cons, tokens?_cons, first_append_eq h hs]
        by_cases hbad : (first c cs).1.kind = .bad
        · simp [hbad]
        · have hread : tokens? (c :: cs) ≠ none → tokens? (first c cs).2 ≠ none := by
            intro ht hnone
            rw [tokens?_cons, hnone] at ht
            cases hk : (first c cs).1.kind <;> rw [hk] at ht <;> exact ht rfl
          have htail := h.tail (first_suffix hbad) hread
          rw [ih _ (length_first_lt hbad) htail rfl]
          cases hk : (first c cs).1.kind with
          | bad => exact absurd hk hbad
          | layout => rfl
          | token t =>
            cases tokens? (first c cs).2 <;> cases tokens? rest <;> rfl

/-! ## Texts of tokens -/

/-- A token opens neither a literal nor a comment, apart from the literal that it is. -/
def QuietToken : Token → Prop
  | .word name => Quiet name.toList
  | _ => True

instance (t : Token) : Decidable (QuietToken t) :=
  match t with
  | .word name => List.decidableBAll _ name.toList
  | .openBrace | .closeBrace | .openParen | .closeParen | .openBracket | .closeBracket
  | .openAngle | .closeAngle | .semicolon | .equals | .comma | .colon | .text _ | .int _ =>
    isTrue trivial

theorem quiet_int (i : Int) : Quiet (toString i).toList := by
  have hdigits (n : Nat) : Quiet (Nat.toDigits 10 n) := fun c hc => by
    have hc := Nat.isDigit_of_mem_toDigits (by decide) (by decide) hc
    constructor <;> rintro rfl <;> revert hc <;> decide
  rw [Int.toString_eq_repr, Int.repr_eq_if]
  split
  · rw [Nat.toList_repr]
    exact hdigits _
  · rw [String.toList_append, Nat.toList_repr]
    have hminus : Quiet "-".toList := fun c hc => by
      obtain rfl := List.mem_singleton.1 hc
      decide
    exact List.forall_mem_append.2 ⟨hminus, hdigits _⟩

/-- The text of a token, in front of a text that it does not run into, is cut first. -/
theorem tokens?_write_append {t : Token} (ht : QuietToken t) {rest : List Char}
    (hr : runsOn t = true → Apart rest) : tokens? (t.write.toList ++ rest) =
      (tokens? t.write.toList).bind fun ts => (tokens? rest).map (ts ++ ·) := by
  have hone {u : Token} (h : ∀ rest, tokens? (t.write.toList ++ rest) = (tokens? rest).map (u :: ·)) :
      tokens? (t.write.toList ++ rest) =
        (tokens? t.write.toList).bind fun ts => (tokens? rest).map (ts ++ ·) := by
    have hnil := h []
    rw [List.append_nil] at hnil
    rw [h, hnil]
    rfl
  cases t with
  | word name => exact tokens?_append (.apart ht (hr rfl))
  | int i => exact tokens?_append (.apart (quiet_int i) (hr rfl))
  | text s => exact hone (tokens?_literal s)
  | _ => exact hone fun rest => tokens?_of_first _ _ rfl

/-- What tokens are cut into once they are written with something between any two. A word that is
none may come apart. -/
def spell? : List Token → Option (List Token)
  | [] => some []
  | t :: ts => (tokens? t.write.toList).bind fun us => (spell? ts).map (us ++ ·)

end Lexeme

open Lexeme

/-- The text of separated pieces is cut into what their tokens spell. -/
theorem Piece.Separated.tokens?_writeAll_eq {ps : List Piece} (h : Separated ps)
    (hq : ∀ t ∈ tokens ps, QuietToken t) :
    Lexeme.tokens? (writeAll ps).toList = spell? (tokens ps) := by
  induction ps with
  | nil => rfl
  | cons p ps ih =>
    rw [toList_writeAll_cons]
    cases p with
    | layout s =>
      rw [write, h.1]
      exact ih h.2 hq
    | token t =>
      obtain ⟨ht, hts⟩ := List.forall_mem_cons.1 hq
      rw [write, tokens?_write_append ht h.1, ih h.2 hts]
      rfl

end Proto

end DiscoveryGrpc
