import DiscoveryGrpc.Fault

/-!
# Lexemes of a proto file

A text is cut into lexemes, each the longest one possible where it starts: layout, which is white
space and comments, or a token, or, at the end, a bad piece of text that no lexeme begins with. A
bad piece reaches as far as a lexeme could still have come of it, and has at least one character.

The texts of the lexemes follow one another without a gap (`first_append`, `all_cons`), so the line
of a token is found by counting line feeds.

`First` says what the lexeme at the start of a text can be, with one rule for each way in which it
begins. A text is gone through lexeme by lexeme with `first_induction`.
-/

namespace DiscoveryGrpc.Proto

/-- What a piece of text is. -/
inductive LexemeKind
  | layout
  | token (t : Token)
  | bad
  deriving DecidableEq, Repr

/-- A piece of a text. -/
structure Lexeme where
  kind : LexemeKind
  text : List Char
  deriving DecidableEq, Repr

namespace Lexeme

/-! ## Classes of characters -/

/-- White space between tokens. -/
def isSpace (c : Char) : Bool := c == ' ' || c == '\t' || c == '\r' || c == '\n' || c == '\x0c'

/-- Characters that a word can start with. -/
def isWordStart (c : Char) : Bool := c.isAlpha || c == '_'

/-- Characters of a word behind the first. -/
def isWordPart (c : Char) : Bool := c.isAlphanum || c == '_' || c == '.'

/-- Tokens of one character. -/
def punctuation? : Char → Option Token
  | '\x7b' => some .openBrace
  | '\x7d' => some .closeBrace
  | '(' => some .openParen
  | ')' => some .closeParen
  | '[' => some .openBracket
  | ']' => some .closeBracket
  | '<' => some .openAngle
  | '>' => some .closeAngle
  | ';' => some .semicolon
  | '=' => some .equals
  | ',' => some .comma
  | ':' => some .colon
  | _ => none

/-! ## String literals -/

/-- The characters up to the closing quote of a literal and those behind it, or those up to where
the literal breaks off. A backslash takes the next character with it, which must not be a line
feed. `seen` has the characters before, last one first. -/
def literalBody (seen : List Char) : List Char → List Char × Option (List Char)
  | [] => (seen.reverse, none)
  | '"' :: cs => (seen.reverse, some cs)
  | '\\' :: e :: cs =>
    if e == '\n' then (('\\' :: seen).reverse, none) else literalBody (e :: '\\' :: seen) cs
  | c :: cs => literalBody (c :: seen) cs

theorem literalBody_append {seen cs raw rest : List Char}
    (h : literalBody seen cs = (raw, some rest)) : seen.reverse ++ cs = raw ++ '"' :: rest := by
  fun_induction literalBody seen cs with
  | case1 => simp at h
  | case2 => simp_all
  | case3 => simp at h
  | case4 seen e cs _ ih => simpa using ih h
  | case5 seen c cs _ _ ih => simpa using ih h

/-- What the characters of a literal stand for. -/
def unescape : List Char → List Char
  | '\\' :: 'n' :: cs => '\n' :: unescape cs
  | '\\' :: 't' :: cs => '\t' :: unescape cs
  | '\\' :: c :: cs => c :: unescape cs
  | c :: cs => c :: unescape cs
  | [] => []

/-- The lexeme that begins with a quote. -/
def literal (cs : List Char) : Lexeme × List Char :=
  match literalBody [] cs with
  | (raw, some rest) => (⟨.token (.text (String.ofList (unescape raw))), '"' :: raw ++ ['"']⟩, rest)
  | (raw, none) => (⟨.bad, '"' :: raw⟩, [])

theorem literal_text_append {cs : List Char} (h : (literal cs).1.kind ≠ .bad) :
    (literal cs).1.text ++ (literal cs).2 = '"' :: cs := by
  unfold literal at h ⊢
  split at h
  · rename_i raw rest hbody
    simpa using (literalBody_append hbody).symm
  · exact absurd rfl h

/-! ## Comments -/

/-- The characters through the first `*/` and those behind it, if there is one. `seen` has the
characters before, last one first. -/
def blockBody? (seen : List Char) : List Char → Option (List Char × List Char)
  | [] => none
  | '*' :: '/' :: cs => some (('/' :: '*' :: seen).reverse, cs)
  | c :: cs => blockBody? (c :: seen) cs

theorem blockBody?_append {seen cs body rest : List Char}
    (h : blockBody? seen cs = some (body, rest)) : seen.reverse ++ cs = body ++ rest := by
  fun_induction blockBody? seen cs with
  | case1 => simp at h
  | case2 seen cs =>
    obtain ⟨rfl, rfl⟩ := Prod.mk.inj (Option.some.inj h)
    simp
  | case3 seen c cs _ ih => simpa using ih h

/-- The lexeme that begins with a slash. -/
def comment : List Char → Lexeme × List Char
  | '/' :: cs =>
    let (body, rest) := cs.span (· != '\n')
    (⟨.layout, '/' :: '/' :: body⟩, rest)
  | '*' :: cs =>
    match blockBody? [] cs with
    | some (body, rest) => (⟨.layout, '/' :: '*' :: body⟩, rest)
    | none => (⟨.bad, '/' :: '*' :: cs⟩, [])
  | cs => (⟨.bad, ['/']⟩, cs)

theorem comment_text_append {cs : List Char} (h : (comment cs).1.kind ≠ .bad) :
    (comment cs).1.text ++ (comment cs).2 = '/' :: cs := by
  unfold comment at h ⊢
  split at h
  · simp only [Text.span_eq, List.cons_append, List.takeWhile_append_dropWhile]
  · split at h
    · rename_i body rest hbody
      simpa using (blockBody?_append hbody).symm
    · exact absurd rfl h
  · exact absurd rfl h

/-! ## Numbers -/

/-- Whether a number has 64 bits. -/
def isInt64 (i : Int) : Bool := -0x8000000000000000 ≤ i && i < 0x8000000000000000

/-- The value of decimal digits. -/
def digitsValue (ds : List Char) : Nat :=
  ds.foldl (fun n c => n * 10 + (c.toNat - '0'.toNat)) 0

/-- The lexeme of a number with a sign, if it has one, and these digits. -/
def number (negative : Bool) (digits : List Char) : Lexeme :=
  let value : Int := digitsValue digits
  let value := if negative then -value else value
  let text := if negative then '-' :: digits else digits
  ⟨if isInt64 value then .token (.int value) else .bad, text⟩

/-! ## Lexemes -/

/-- The lexeme at the start of a text, and the text behind it. -/
def first (c : Char) (cs : List Char) : Lexeme × List Char :=
  if isSpace c then
    let (blanks, rest) := cs.span isSpace
    (⟨.layout, c :: blanks⟩, rest)
  else if isWordStart c then
    let (part, rest) := cs.span isWordPart
    (⟨.token (.word (String.ofList (c :: part))), c :: part⟩, rest)
  else if c.isDigit then
    let (digits, rest) := cs.span Char.isDigit
    (number false (c :: digits), rest)
  else if c == '-' then
    match cs.span Char.isDigit with
    | ([], rest) => (⟨.bad, ['-']⟩, rest)
    | (digits, rest) => (number true digits, rest)
  else if c == '"' then literal cs
  else if c == '/' then comment cs
  else match punctuation? c with
    | some t => (⟨.token t, [c]⟩, cs)
    | none => (⟨.bad, [c]⟩, cs)

/-- What a lexeme and the text behind it can be. -/
inductive First : Char → List Char → Lexeme × List Char → Prop
  | space {c : Char} (h : isSpace c = true) (cs : List Char) :
    First c cs (⟨.layout, c :: cs.takeWhile isSpace⟩, cs.dropWhile isSpace)
  | word {c : Char} (h : isWordStart c = true) (cs : List Char) :
    First c cs (⟨.token (.word (String.ofList (c :: cs.takeWhile isWordPart))),
      c :: cs.takeWhile isWordPart⟩, cs.dropWhile isWordPart)
  | digits {c : Char} (h : c.isDigit = true) (cs : List Char) :
    First c cs (number false (c :: cs.takeWhile Char.isDigit), cs.dropWhile Char.isDigit)
  | negative {cs : List Char} (h : cs.takeWhile Char.isDigit ≠ []) :
    First '-' cs (number true (cs.takeWhile Char.isDigit), cs.dropWhile Char.isDigit)
  | minus (cs : List Char) : First '-' cs (⟨.bad, ['-']⟩, cs.dropWhile Char.isDigit)
  | quote (cs : List Char) : First '"' cs (literal cs)
  | slash (cs : List Char) : First '/' cs (comment cs)
  | mark {c : Char} {t : Token} (h : punctuation? c = some t) (cs : List Char) :
    First c cs (⟨.token t, [c]⟩, cs)
  | strange (c : Char) (cs : List Char) : First c cs (⟨.bad, [c]⟩, cs)

theorem first_cases (c : Char) (cs : List Char) : First c cs (first c cs) := by
  unfold first
  simp only [Text.span_eq]
  split
  · exact .space ‹_› cs
  split
  · exact .word ‹_› cs
  split
  · exact .digits ‹_› cs
  split
  · rename_i hc
    obtain rfl : c = '-' := beq_iff_eq.1 hc
    split
    · rename_i rest hspan
      obtain ⟨-, rfl⟩ := Prod.mk.inj hspan
      exact .minus cs
    · rename_i digits rest hne hspan
      obtain ⟨rfl, rfl⟩ := Prod.mk.inj hspan
      exact .negative hne
  split
  · rename_i hc
    obtain rfl : c = '"' := beq_iff_eq.1 hc
    exact .quote cs
  split
  · rename_i hc
    obtain rfl : c = '/' := beq_iff_eq.1 hc
    exact .slash cs
  split
  · exact .mark ‹_› cs
  · exact .strange c cs

theorem First.append {c : Char} {cs : List Char} {x : Lexeme × List Char} (h : First c cs x)
    (hx : x.1.kind ≠ .bad) : x.1.text ++ x.2 = c :: cs := by
  cases h with
  | quote => exact literal_text_append hx
  | slash => exact comment_text_append hx
  | minus | strange => exact absurd rfl hx
  | _ => simp [number]

/-- A lexeme that is not bad is the beginning of the text. -/
theorem first_append {c : Char} {cs : List Char} (h : (first c cs).1.kind ≠ .bad) :
    (first c cs).1.text ++ (first c cs).2 = c :: cs :=
  (first_cases c cs).append h

theorem First.text_ne_nil {c : Char} {cs : List Char} {x : Lexeme × List Char}
    (h : First c cs x) : x.1.text ≠ [] := by
  cases h with
  | quote =>
    unfold literal
    split <;> simp
  | slash =>
    unfold comment
    repeat' split
    all_goals simp
  | negative | digits => simp [number]
  | _ => simp

theorem text_first_ne_nil (c : Char) (cs : List Char) : (first c cs).1.text ≠ [] :=
  (first_cases c cs).text_ne_nil

/-- What follows a lexeme is shorter than the text. -/
theorem length_first_lt {c : Char} {cs : List Char} (h : (first c cs).1.kind ≠ .bad) :
    (first c cs).2.length < (c :: cs).length := by
  have h₁ := congrArg List.length (first_append h)
  have h₂ := List.length_pos_iff.2 (text_first_ne_nil c cs)
  rw [List.length_append] at h₁
  omega

/-- The lexemes of a text behind those in `seen`, last one first. Nothing follows a bad piece.
Every lexeme has a character, so `fuel` beyond the length of the text is never used up. -/
def allFrom (fuel : Nat) (seen : List Lexeme) (cs : List Char) : List Lexeme :=
  match fuel, cs with
  | fuel + 1, c :: cs =>
    match first c cs with
    | (⟨.bad, text⟩, _) => (⟨.bad, text⟩ :: seen).reverse
    | (x, rest) => allFrom fuel (x :: seen) rest
  | _, _ => seen.reverse

/-- The lexemes of a text. -/
def all (cs : List Char) : List Lexeme := allFrom cs.length [] cs

theorem allFrom_cons (fuel : Nat) (seen : List Lexeme) (c : Char) (cs : List Char) :
    allFrom (fuel + 1) seen (c :: cs) =
      if (first c cs).1.kind = .bad then ((first c cs).1 :: seen).reverse
      else allFrom fuel ((first c cs).1 :: seen) (first c cs).2 := by
  rw [allFrom]
  split
  · rename_i text rest hx
    simp [hx]
  · rename_i x rest hbad hx
    have hk : x.kind ≠ .bad := fun hk => hbad x.text (hk ▸ rfl)
    rw [hx, if_neg hk]

theorem allFrom_eq (fuel : Nat) (seen : List Lexeme) (cs : List Char) :
    allFrom fuel seen cs = seen.reverse ++ allFrom fuel [] cs := by
  induction fuel generalizing seen cs with
  | zero => cases cs <;> simp [allFrom]
  | succ fuel ih =>
    cases cs with
    | nil => simp [allFrom]
    | cons c cs =>
      rw [allFrom_cons, allFrom_cons]
      split
      · simp
      · rw [ih (_ :: seen), ih [_]]
        simp

/-- More fuel than there are characters changes nothing. -/
theorem allFrom_eq_of_le {n m : Nat} {seen : List Lexeme} {cs : List Char}
    (hn : cs.length ≤ n) (hm : cs.length ≤ m) : allFrom n seen cs = allFrom m seen cs := by
  induction n generalizing m seen cs with
  | zero => cases cs <;> cases m <;> simp_all [allFrom]
  | succ n ih =>
    cases cs with
    | nil => cases m <;> simp [allFrom]
    | cons c cs =>
      cases m with
      | zero => simp at hm
      | succ m =>
        rw [allFrom_cons, allFrom_cons]
        split
        · rfl
        · rename_i hbad
          have hlt := length_first_lt hbad
          simp only [List.length_cons] at hn hm hlt
          exact ih (by omega) (by omega)

/-- The lexemes of a text are its first one and those of what follows, unless the first one is
bad. -/
theorem all_cons (c : Char) (cs : List Char) :
    all (c :: cs) =
      if (first c cs).1.kind = .bad then [(first c cs).1]
      else (first c cs).1 :: all (first c cs).2 := by
  rw [all, List.length_cons, allFrom_cons]
  split
  · rfl
  · rename_i hbad
    have hlt := length_first_lt hbad
    rw [List.length_cons] at hlt
    rw [allFrom_eq, all, allFrom_eq_of_le (by omega) (Nat.le_refl _)]
    rfl

/-- Induction on a text lexeme by lexeme. -/
@[elab_as_elim]
theorem first_induction {motive : List Char → Prop} (nil : motive [])
    (cons : ∀ c cs, ((first c cs).1.kind ≠ .bad → motive (first c cs).2) → motive (c :: cs))
    (cs : List Char) : motive cs := by
  induction hn : cs.length using Nat.strongRecOn generalizing cs with
  | _ n ih =>
    cases cs with
    | nil => exact nil
    | cons c cs => exact cons c cs fun hbad => ih _ (hn ▸ length_first_lt hbad) _ rfl

/-! ## Tokens with their lines -/

/-- A token and the line it starts on. -/
abbrev Located := Token × Nat

/-- The tokens among lexemes with their lines, or the fault at the bad piece. The first lexeme
starts on `line`; `seen` has the tokens before, last one first. -/
def locate (line : Nat) (seen : List Located) : List Lexeme → Except Fault (List Located)
  | [] => .ok seen.reverse
  | x :: xs =>
    let next := line + x.text.count '\n'
    match x.kind with
    | .layout => locate next seen xs
    | .token t => locate next ((t, line) :: seen) xs
    | .bad => .error (.badToken (String.ofList x.text) line)

/-- The tokens of a text with their lines. -/
def tokens (text : String) : Except Fault (List Located) :=
  locate 1 [] (all text.toList)

end Lexeme

end DiscoveryGrpc.Proto
