import Mathlib.Data.List.TakeWhile
import Mathlib.Logic.Relation
import DiscoveryGrpc.Proofs.Fault
import DiscoveryGrpc.Proofs.Proto.Comments

/-!
# Layout around tokens

White space and comments may stand in front of and behind every token of a text: the text is cut
into the same tokens (`Padded.tokens?_eq`), so it is the same file (`File.ofText_padded`).

A lexeme does not look far. On its own it is cut as it is in the text, and so it is in front of any
text that it does not run into: a word or a number stops at white space and at a comment, a literal
or a block comment has its end in itself, and only a line comment would go on, but there is no token
right behind it.
-/

namespace DiscoveryGrpc.Proto

namespace Lexeme

/-! ## Block comments -/

/-- A comment ends with the first `*/` in it. -/
theorem blockBody?_of_unclosed {seen body : List Char} (h : ¬['*', '/'] <:+: body)
    (rest : List Char) : blockBody? seen (body ++ '*' :: '/' :: rest)
      = some (seen.reverse ++ body ++ ['*', '/'], rest) := by
  induction body generalizing seen with
  | nil => simp [blockBody?]
  | cons c body ih =>
    have hbody : ¬['*', '/'] <:+: body := fun hi => h (hi.trans (List.suffix_cons c body).isInfix)
    rw [List.cons_append, blockBody?]
    · rw [ih hbody]
      simp
    · rintro cs rfl hcs
      cases body with
      | nil => simp at hcs
      | cons d body =>
        obtain ⟨rfl, -⟩ := List.cons.inj hcs
        exact h ⟨[], body, rfl⟩

theorem first_blockComment {body rest cs : List Char}
    (h : blockBody? [] cs = some (body, rest)) :
    first '/' ('*' :: cs) = (⟨.layout, '/' :: '*' :: body⟩, rest) := by
  change comment ('*' :: cs) = _
  simp only [comment, h]

/-- A block comment in front of a text changes nothing, whatever it says. -/
theorem tokens?_block {body : List Char} (h : ¬['*', '/'] <:+: body) (rest : List Char) :
    tokens? ('/' :: '*' :: body ++ '*' :: '/' :: rest) = tokens? rest := by
  rw [List.cons_append, List.cons_append, tokens?_cons,
    first_blockComment (blockBody?_of_unclosed h rest)]

/-! ## Padding -/

/-- Layout that may stand between tokens: a run of white space, a line comment with the end of its
line, or a block comment. -/
inductive Padding : List Char → Prop
  | blanks {cs : List Char} (h : ∀ c ∈ cs, isSpace c = true) : Padding cs
  | line (body : List Char) (h : '\n' ∉ body) : Padding ('/' :: '/' :: body ++ ['\n'])
  | block (body : List Char) (h : ¬['*', '/'] <:+: body) :
    Padding ('/' :: '*' :: body ++ ['*', '/'])

theorem Padding.tokens?_append {pad : List Char} (h : Padding pad) (rest : List Char) :
    tokens? (pad ++ rest) = tokens? rest := by
  cases h with
  | blanks h => exact tokens?_space _ h rest
  | line body h => simpa using tokens?_comment h rest
  | block body h => simpa using tokens?_block h rest

/-- A padded text begins as it did or with white space or a slash. -/
theorem Padding.head? {pad : List Char} (h : Padding pad) {rest : List Char} {d : Char}
    (hd : d ∈ (pad ++ rest).head?) : d ∈ rest.head? ∨ isSpace d = true ∨ d = '/' := by
  cases h with
  | blanks h =>
    cases pad with
    | nil => exact .inl hd
    | cons c cs =>
      obtain rfl : c = d := by simpa using hd
      exact .inr (.inl (h _ List.mem_cons_self))
  | line body h => exact .inr (.inr (by simpa using hd.symm))
  | block body h => exact .inr (.inr (by simpa using hd.symm))

/-! ## Lexemes in front of another text -/

/-- A literal looks no further than its closing quote. -/
theorem literalBody_alone {seen cs raw rest : List Char}
    (h : literalBody seen cs = (raw, some rest)) :
    ∃ body, cs = body ++ rest ∧ literalBody seen body = (raw, some []) := by
  fun_induction literalBody seen cs with
  | case1 => simp at h
  | case2 seen cs =>
    obtain ⟨rfl, hrest⟩ := Prod.mk.inj h
    obtain rfl := Option.some.inj hrest
    exact ⟨['"'], rfl, rfl⟩
  | case3 => simp at h
  | case4 seen e cs he ih =>
    obtain ⟨body, rfl, hbody⟩ := ih h
    exact ⟨'\\' :: e :: body, rfl, by rw [literalBody, if_neg he, hbody]⟩
  | case5 seen c cs hq hb ih =>
    obtain ⟨body, rfl, hbody⟩ := ih h
    refine ⟨c :: body, rfl, ?_⟩
    rw [literalBody]
    · exact hbody
    · exact hq
    · rintro e tail rfl rfl
      exact hb e _ rfl rfl

/-- A block comment looks no further than its end. -/
theorem blockBody?_alone {seen cs body rest : List Char}
    (h : blockBody? seen cs = some (body, rest)) :
    ∃ taken, cs = taken ++ rest ∧ blockBody? seen taken = some (body, []) := by
  fun_induction blockBody? seen cs with
  | case1 => simp at h
  | case2 seen cs =>
    obtain ⟨rfl, rfl⟩ := Prod.mk.inj (Option.some.inj h)
    exact ⟨['*', '/'], rfl, rfl⟩
  | case3 seen c cs hs ih =>
    obtain ⟨taken, rfl, htaken⟩ := ih h
    refine ⟨c :: taken, rfl, ?_⟩
    rw [blockBody?]
    · exact htaken
    · rintro tail rfl rfl
      exact hs _ rfl rfl

/-- A text that begins as another one does, or with white space or a slash. -/
def BeginsLike (rest rest' : List Char) : Prop :=
  ∀ d ∈ rest'.head?, d ∈ rest.head? ∨ isSpace d = true ∨ d = '/'

/-- Characters of words and numbers are taken as far in front of such a text. -/
theorem BeginsLike.span {p : Char → Bool} (hp : ∀ d, p d = true → isWordPart d = true)
    {cs rest' : List Char} (h : BeginsLike (cs.dropWhile p) rest') :
    (cs.takeWhile p ++ rest').span p = (cs.takeWhile p, rest') := by
  refine Text.span_append (fun d hd => List.mem_takeWhile_imp hd) fun d hd => ?_
  rcases h d hd with hrest | hspace | rfl
  · have hnot := List.head?_dropWhile_not p cs
    rw [Option.mem_def.1 hrest] at hnot
    simpa using hnot
  · by_contra hpd
    rw [isSpace_eq_false (hp d (by simpa using hpd))] at hspace
    cases hspace
  · by_contra hpd
    exact absurd (hp '/' (by simpa using hpd)) (by decide)

theorem literal_alone {cs : List Char} (h : (literal cs).1.kind ≠ .bad) (rest' : List Char) :
    ∃ body, (literal cs).1.text = '"' :: body ∧
      literal (body ++ rest') = ((literal cs).1, rest') := by
  cases hbody : literalBody [] cs with
  | mk raw rest =>
    cases rest with
    | none =>
      rw [literal, hbody] at h
      exact absurd rfl h
    | some rest =>
      obtain ⟨body, rfl, halone⟩ := literalBody_alone hbody
      obtain rfl : body = raw ++ ['"'] := literalBody_append halone
      refine ⟨raw ++ ['"'], ?_, ?_⟩
      · rw [literal, hbody]
        rfl
      · rw [literal, literal, hbody, literalBody_append_some halone]
        rfl

/-- A token is cut alike in front of a text that begins like the one behind it. -/
theorem first_of_token {c : Char} {cs : List Char} {t : Token}
    (h : (first c cs).1.kind = .token t) {rest' : List Char}
    (hr : BeginsLike (first c cs).2 rest') :
    ∃ body, (first c cs).1.text = c :: body ∧
      first c (body ++ rest') = ((first c cs).1, rest') := by
  have hfirst := first_cases c cs
  generalize first c cs = x at h hr hfirst
  cases hfirst with
  | word hc =>
    refine ⟨_, rfl, ?_⟩
    rw [first_of_isWordStart hc, hr.span fun d hd => hd]
  | digits hc =>
    refine ⟨_, rfl, ?_⟩
    rw [first_of_isDigit hc, hr.span fun d hd => isWordPart_of_isDigit hd]
  | negative hne =>
    refine ⟨_, rfl, ?_⟩
    rw [first_minus, hr.span fun d hd => isWordPart_of_isDigit hd]
    obtain ⟨d, ds, hdigits⟩ := List.exists_cons_of_ne_nil hne
    rw [hdigits]
  | quote => exact literal_alone (by simp [h]) rest'
  | slash => exact absurd h (comment_kind_ne cs t)
  | mark hmark => exact ⟨[], rfl, first_of_punctuation hmark rest'⟩
  | space | minus | strange => cases h

theorem tokens?_of_token {c : Char} {cs : List Char} {t : Token}
    (h : (first c cs).1.kind = .token t) {rest' : List Char}
    (hr : BeginsLike (first c cs).2 rest') :
    tokens? ((first c cs).1.text ++ rest') = (tokens? rest').map (t :: ·) := by
  obtain ⟨body, htext, hfirst⟩ := first_of_token h hr
  rw [htext, List.cons_append, tokens?_cons, hfirst, h]

theorem number_kind_ne (negative : Bool) (digits : List Char) :
    (number negative digits).kind ≠ .layout := by
  unfold number
  dsimp only
  split <;> split <;> simp

theorem First.isSpace_or_slash {c : Char} {cs : List Char} {x : Lexeme × List Char}
    (hx : First c cs x) (h : x.1.kind = .layout) : isSpace c = true ∨ c = '/' := by
  cases hx with
  | space hc => exact .inl hc
  | slash => exact .inr rfl
  | digits | negative => exact absurd h (number_kind_ne _ _)
  | quote =>
    unfold literal at h
    split at h <;> cases h
  | word | minus | mark | strange => cases h

/-- A line comment goes on to the end of its line. Other layout looks no further than its end, or
may be cut in two. -/
theorem tokens?_of_layout {c : Char} {cs : List Char} (h : (first c cs).1.kind = .layout)
    {rest' : List Char}
    (hr : ∀ d ∈ rest'.head?, d ∈ (first c cs).2.head? ∨ ∃ e ∈ (first c cs).2.head?, e ≠ '\n') :
    tokens? ((first c cs).1.text ++ rest') = tokens? rest' := by
  by_cases hspace : isSpace c = true
  · rw [first_of_isSpace hspace]
    refine tokens?_space _ (List.forall_mem_cons.2 ⟨hspace, fun d hd => ?_⟩) rest'
    exact List.mem_takeWhile_imp hd
  obtain rfl : c = '/' := ((first_cases c cs).isSpace_or_slash h).resolve_left hspace
  change (comment cs).1.kind = _ at h
  change ∀ d ∈ rest'.head?, d ∈ (comment cs).2.head? ∨ ∃ e ∈ (comment cs).2.head?, e ≠ '\n' at hr
  change tokens? ((comment cs).1.text ++ rest') = _
  unfold comment at h hr ⊢
  split at h
  · rename_i cs
    simp only [Text.span_eq] at hr ⊢
    have hnot := List.head?_dropWhile_not (· != '\n') cs
    have hbody : '\n' ∉ cs.takeWhile (· != '\n') := fun hmem =>
      absurd (List.mem_takeWhile_imp hmem) (by decide)
    -- the comment goes on to the end of its line, so the other text begins with a line feed too
    have hend : ∀ d ∈ rest'.head?, d = '\n' := by
      intro d hd
      rcases hr d hd with hrest | ⟨e, he, hne⟩
      · rw [Option.mem_def.1 hrest] at hnot
        simpa using hnot
      · rw [Option.mem_def.1 he] at hnot
        exact absurd (by simpa using hnot) hne
    rw [List.cons_append, List.cons_append, tokens?_cons, first_lineComment hbody hend]
  · rename_i cs
    split at h
    · rename_i body rest hbody
      obtain ⟨taken, rfl, halone⟩ := blockBody?_alone hbody
      obtain rfl : taken = body := by simpa using blockBody?_append halone
      have hblock : blockBody? [] (taken ++ rest') = some (taken, rest') :=
        blockBody?_append_some halone rest'
      rw [List.cons_append, List.cons_append, tokens?_cons, first_blockComment hblock]
    · cases h
  · cases h

/-- A text that begins as another one does, or with white space or a slash in front of what is no
line feed. -/
def StandsFor (rest' rest : List Char) : Prop :=
  ∀ d ∈ rest'.head?, d ∈ rest.head? ∨ (isSpace d = true ∨ d = '/') ∧ ∃ e ∈ rest.head?, e ≠ '\n'

/-- What follows a lexeme may be put into another form with the same tokens. -/
theorem tokens?_replace {c : Char} {cs : List Char} (hbad : (first c cs).1.kind ≠ .bad)
    {rest' : List Char} (ht : tokens? rest' = tokens? (first c cs).2)
    (hr : StandsFor rest' (first c cs).2) :
    tokens? ((first c cs).1.text ++ rest') = tokens? (c :: cs) := by
  rw [tokens?_cons]
  cases hk : (first c cs).1.kind with
  | bad => exact absurd hk hbad
  | layout =>
    rw [tokens?_of_layout hk fun d hd => (hr d hd).imp_right And.right, ht]
  | token t =>
    rw [tokens?_of_token hk fun d hd => (hr d hd).imp_right And.left, ht]

theorem of_tokens?_cons {c : Char} {cs : List Char} (h : tokens? (c :: cs) ≠ none) :
    (first c cs).1.kind ≠ .bad ∧ tokens? (first c cs).2 ≠ none := by
  rw [tokens?_cons] at h
  cases hk : (first c cs).1.kind with
  | bad =>
    rw [hk] at h
    exact absurd rfl h
  | layout =>
    rw [hk] at h
    exact ⟨by simp, h⟩
  | token t =>
    rw [hk] at h
    exact ⟨by simp, fun hnone => h (by rw [hnone]; rfl)⟩

/-- The texts of the lexemes of a text make it up. -/
theorem flatMap_text_all {cs : List Char} (h : tokens? cs ≠ none) :
    (all cs).flatMap text = cs := by
  induction cs using first_induction with
  | nil => rfl
  | cons c cs ih =>
    obtain ⟨hbad, hrest⟩ := of_tokens?_cons h
    rw [all_cons, if_neg hbad, List.flatMap_cons, ih hbad hrest, first_append hbad]

/-- A token begins with no line feed. -/
theorem ne_newline_of_token {c : Char} {cs : List Char} {t : Token}
    (h : (first c cs).1.kind = .token t) : c ≠ '\n' := by
  rintro rfl
  rw [first_of_isSpace (by decide)] at h
  cases h

theorem head?_text_append {c : Char} {cs : List Char} (h : (first c cs).1.kind ≠ .bad)
    (rest' : List Char) : ((first c cs).1.text ++ rest').head? = some c := by
  have happend := first_append h
  obtain ⟨d, ds, htext⟩ := List.exists_cons_of_ne_nil (text_first_ne_nil c cs)
  rw [htext] at happend ⊢
  exact congrArg List.head? happend

section

variable {cs : List Char} {before after : List Lexeme} {x : Lexeme} {t : Token} {pad : List Char}

theorem exists_of_all_eq_cons {xs : List Lexeme} (h : tokens? cs ≠ none)
    (hall : all cs = x :: xs) : ∃ c ds, cs = c :: ds ∧ (first c ds).1 = x ∧
      all (first c ds).2 = xs ∧ (first c ds).1.kind ≠ .bad ∧ tokens? (first c ds).2 ≠ none := by
  cases cs with
  | nil => cases hall
  | cons c cs =>
    obtain ⟨hbad, hrest⟩ := of_tokens?_cons h
    rw [all_cons, if_neg hbad] at hall
    obtain ⟨hx, hxs⟩ := List.cons.inj hall
    exact ⟨c, cs, rfl, hx, hxs, hbad, hrest⟩

theorem standsFor_pad (h : tokens? cs ≠ none) (hall : all cs = before ++ x :: after)
    (hx : x.kind = .token t) (hp : Padding pad) :
    StandsFor (before.flatMap text ++ (pad ++ (x.text ++ after.flatMap text))) cs ∧
      StandsFor (before.flatMap text ++ (x.text ++ (pad ++ after.flatMap text))) cs := by
  cases before with
  | nil =>
    obtain ⟨c, cs, rfl, rfl, rfl, hbad, hrest⟩ := exists_of_all_eq_cons h hall
    rw [List.flatMap_nil, List.nil_append, List.nil_append, flatMap_text_all hrest,
      first_append hbad]
    refine ⟨fun d hd => (hp.head? hd).imp_right fun hpad =>
      ⟨hpad, c, rfl, ne_newline_of_token hx⟩, fun d hd => .inl ?_⟩
    rwa [head?_text_append hbad] at hd
  | cons y before =>
    obtain ⟨c, cs, rfl, rfl, -, hbad, -⟩ := exists_of_all_eq_cons h hall
    rw [List.flatMap_cons, List.append_assoc, List.append_assoc]
    constructor
    all_goals
      intro d hd
      rw [head?_text_append hbad] at hd
      exact .inl hd

/-- Layout in front of a token, or behind it, changes nothing. -/
theorem tokens?_pad (h : tokens? cs ≠ none) (hall : all cs = before ++ x :: after)
    (hx : x.kind = .token t) (hp : Padding pad) :
    tokens? (before.flatMap text ++ (pad ++ (x.text ++ after.flatMap text))) = tokens? cs ∧
      tokens? (before.flatMap text ++ (x.text ++ (pad ++ after.flatMap text))) = tokens? cs := by
  induction before generalizing cs with
  | nil =>
    obtain ⟨c, cs, rfl, rfl, rfl, hbad, hrest⟩ := exists_of_all_eq_cons h hall
    rw [List.flatMap_nil, List.nil_append, List.nil_append, flatMap_text_all hrest]
    constructor
    · rw [first_append hbad, hp.tokens?_append]
    · rw [tokens?_of_token hx fun d hd => hp.head? hd, hp.tokens?_append, tokens?_cons, hx]
  | cons y before ih =>
    obtain ⟨c, cs, rfl, rfl, hbehind, hbad, hrest⟩ := exists_of_all_eq_cons h hall
    obtain ⟨hstart, hend⟩ := ih hrest hbehind
    obtain ⟨hstart', hend'⟩ := standsFor_pad hrest hbehind hx hp
    rw [List.flatMap_cons, List.append_assoc, List.append_assoc]
    exact ⟨tokens?_replace hbad hstart hstart', tokens?_replace hbad hend hend'⟩

end

end Lexeme

open Lexeme

/-- A text with layout in front of one of its tokens or behind it. -/
inductive Padded (text text' : String) : Prop
  | front (before : List Lexeme) (x : Lexeme) (after : List Lexeme) {t : Token} {pad : List Char}
    (hall : all text.toList = before ++ x :: after) (hx : x.kind = .token t) (hp : Padding pad)
    (htext : text'.toList
      = before.flatMap Lexeme.text ++ (pad ++ (x.text ++ after.flatMap Lexeme.text)))
  | behind (before : List Lexeme) (x : Lexeme) (after : List Lexeme) {t : Token} {pad : List Char}
    (hall : all text.toList = before ++ x :: after) (hx : x.kind = .token t) (hp : Padding pad)
    (htext : text'.toList
      = before.flatMap Lexeme.text ++ (x.text ++ (pad ++ after.flatMap Lexeme.text)))

theorem Padded.tokens?_eq {text text' : String} (h : Padded text text')
    (ht : tokens? text.toList ≠ none) : tokens? text'.toList = tokens? text.toList := by
  cases h with
  | front before x after hall hx hp htext => rw [htext, (tokens?_pad ht hall hx hp).1]
  | behind before x after hall hx hp htext => rw [htext, (tokens?_pad ht hall hx hp).2]

/-- Layout carries no meaning: in front of the tokens of a text and behind them there may be white
space and comments in any number, whatever they say, and the text spells the same file. -/
theorem File.ofText_padded {text : String} {f : File} (h : ofText text = .ok f) :
    (all text.toList).flatMap Lexeme.text = text.toList ∧
      ∀ text', Relation.ReflTransGen Padded text text' → ofText text' = .ok f := by
  have htokens : tokens? text.toList ≠ none := by
    intro hnone
    obtain ⟨x, n, hx⟩ := exists_locate_eq_error hnone 1 []
    obtain ⟨located, hlocated, -⟩ := Except.bind_eq_ok_iff.1 h
    cases hlocated.symm.trans hx
  refine ⟨flatMap_text_all htokens, fun text' hpadded => ?_⟩
  have heq : tokens? text'.toList = tokens? text.toList := by
    induction hpadded with
    | refl => rfl
    | tail _ hstep ih => exact (hstep.tokens?_eq (ih ▸ htokens)).trans ih
  have hsame := ofText_of_tokens? heq
  rw [h] at hsame
  cases hread : ofText text' with
  | ok f' =>
    rw [hread] at hsame
    exact hsame
  | error fault =>
    rw [hread] at hsame
    cases hsame

/-- A literal and a line comment, with nothing around them that could be left out. -/
def tightLakes : String := "syntax=\"proto3\";//a\npackage p;"

/-- A block comment with a quote and stars in front of the literal. -/
def looseLakes : String := "syntax=/*\"***/\"proto3\";//a\npackage p;"

/-- In addition a line comment that does not open a block behind the name of the package. -/
def looserLakes : String := "syntax=/*\"***/\"proto3\";//a\npackage p// /*\"\n;"

theorem File.ofText_padded_looserLakes : ∃ f, ofText tightLakes = .ok f ∧ f.package = "p" ∧
    Relation.ReflTransGen Padded tightLakes looserLakes ∧ ofText looserLakes = .ok f := by
  obtain ⟨f, hf, hpackage⟩ : ∃ f, ofText tightLakes = .ok f ∧
      decide (f.package = "p") = true := exists_eq_ok (by decide +kernel)
  have hloose : Padded tightLakes looseLakes :=
    .front ((all tightLakes.toList).take 2) ⟨.token (.text "proto3"), "\"proto3\"".toList⟩
      ((all tightLakes.toList).drop 3) (by decide +kernel) rfl (.block "\"**".toList (by decide))
      (by decide +kernel)
  have hlooser : Padded looseLakes looserLakes :=
    .behind ((all looseLakes.toList).take 9) ⟨.token (.word "p"), ['p']⟩
      ((all looseLakes.toList).drop 10) (by decide +kernel) rfl (.line " /*\"".toList (by decide))
      (by decide +kernel)
  have hpadded := Relation.ReflTransGen.tail (.single hloose) hlooser
  exact ⟨f, hf, of_decide_eq_true hpackage, hpadded, (ofText_padded hf).2 _ hpadded⟩

end DiscoveryGrpc.Proto
