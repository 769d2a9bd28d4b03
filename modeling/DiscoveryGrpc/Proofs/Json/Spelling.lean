import Mathlib.Tactic.Common
import DiscoveryGrpc.Json.Reader
import DiscoveryGrpc.Text.Split

/-!
# The texts of a JSON value

A value has many texts: white space may stand between any two tokens, and a string may be spelled
with or without escapes. `Json.Spells` says which texts these are, by the grammar of the format
alone and apart from any reader: a value is a sequence of tokens (`Json.tokens`), each token is
written in one of its forms (`Token.Writes`), and blanks may stand around each.

The reader takes every text of a value and gives this value (`ofText?_of_spells`).
-/

namespace DiscoveryGrpc.Json

/-! ## The tokens of a value -/

mutual

/-- The tokens of a value. -/
def tokens : Json → List Token
  | null => [.null]
  | bool true => [.true]
  | bool false => [.false]
  | number literal => [.number literal]
  | string s => [.string (some s)]
  | unreadable => [.string none]
  | array elements =>
    .beginArray :: [Token.comma].intercalate (elementTokens elements) ++ [Token.endArray]
  | object members =>
    .beginObject :: [Token.comma].intercalate (memberTokens members) ++ [Token.endObject]

/-- The tokens of elements, each on its own. -/
def elementTokens : List Json → List (List Token)
  | [] => []
  | v :: vs => v.tokens :: elementTokens vs

/-- The tokens of members, each on its own. -/
def memberTokens : List (String × Json) → List (List Token)
  | [] => []
  | (name, v) :: ms => (.string (some name) :: .colon :: v.tokens) :: memberTokens ms

end

/-! ## How a token is written -/

/-- How a character, or half of a pair, is written between quotes. -/
inductive Spelled.Writes : Spelled → List Char → Prop
  | plain {c : Char} (hc : 0x20 ≤ c.toNat) (hquote : c ≠ '"') (hslash : c ≠ '\\') :
    Writes (.char c) [c]
  | letter {e c : Char} (h : escaped? e = some c) : Writes (.char c) ['\\', e]
  | unicode {a b c d : Char} {x : Spelled} (h : unicodeEscape? a b c d = some x) :
    Writes x ['\\', 'u', a, b, c, d]

/-- What stands between the quotes of a string. -/
inductive Literal : List Spelled → List Char → Prop
  | nil : Literal [] []
  | cons {x : Spelled} {xs : List Spelled} {text cs : List Char} (h : x.Writes text)
    (hs : Literal xs cs) : Literal (x :: xs) (text ++ cs)

/-- At least one digit. -/
def IsDigits (cs : List Char) : Prop := cs ≠ [] ∧ ∀ c ∈ cs, c.isDigit = true

/-- A number: a sign if it is negative, digits without superfluous zeros, then a fraction and an
exponent, if it has them. -/
structure IsNumber (cs : List Char) : Prop where
  exists_parts : ∃ sign whole fraction exponent, cs = sign ++ (whole ++ (fraction ++ exponent)) ∧
    (sign = [] ∨ sign = ['-']) ∧
    (whole = ['0'] ∨ IsDigits whole ∧ whole.head? ≠ some '0') ∧
    (fraction = [] ∨ ∃ digits, IsDigits digits ∧ fraction = '.' :: digits) ∧
    (exponent = [] ∨ ∃ e sign digits, (e = 'e' ∨ e = 'E') ∧ sign ∈ [[], ['+'], ['-']] ∧
      IsDigits digits ∧ exponent = e :: (sign ++ digits))

/-- The one text of a token that has but one. -/
def Token.fixed? : Token → Option (List Char)
  | beginObject => some ['\x7b']
  | endObject => some ['\x7d']
  | beginArray => some ['[']
  | endArray => some [']']
  | comma => some [',']
  | colon => some [':']
  | null => some ['n', 'u', 'l', 'l']
  | true => some ['t', 'r', 'u', 'e']
  | false => some ['f', 'a', 'l', 's', 'e']
  | number _ | string _ => none

/-- How a token is written. Of a string that is no text it is not kept what it spells. -/
inductive Token.Writes : Token → List Char → Prop
  | fixed {t : Token} {text : List Char} (h : t.fixed? = some text) : Writes t text
  | number {text : List Char} (h : IsNumber text) : Writes (.number (String.ofList text)) text
  | string {xs : List Spelled} {cs : List Char} (h : Literal xs cs) :
    Writes (.string ((joinHalves? xs).map String.ofList)) ('"' :: (cs ++ ['"']))

/-- Characters that a number can go on with. -/
def goesOn (c : Char) : Bool := c.isDigit || c == '.' || c == 'e' || c == 'E'

/-- No number goes on into a text. -/
def Apart (cs : List Char) : Prop := ∀ c ∈ cs.head?, goesOn c = false

/-- Whether a token is a number. -/
def Token.isNumber : Token → Bool
  | number _ => .true
  | _ => .false

/-- Tokens are written one after another, with any blanks around them. A number ends where it
could not go on. -/
inductive Written : List Token → List Char → Prop
  | done : Written [] []
  | blank {c : Char} {ts : List Token} {cs : List Char} (hc : isSpace c = true)
    (hs : Written ts cs) : Written ts (c :: cs)
  | token {t : Token} {text : List Char} {ts : List Token} {cs : List Char} (h : t.Writes text)
    (ha : t.isNumber = true → Apart cs) (hs : Written ts cs) : Written (t :: ts) (text ++ cs)

/-- A text spells a value. -/
def Spells (text : String) (v : Json) : Prop := Written v.tokens text.toList

/-! ## Reading tokens -/

theorem spelled?_append {xs : List Spelled} {cs : List Char} (h : Literal xs cs)
    (rest : List Char) : spelled? (cs ++ '"' :: rest) = some (xs, rest) := by
  induction h with
  | nil => rfl
  | cons h _ ih =>
    cases h with
    | @plain c hc hquote hslash =>
      rw [List.append_assoc, List.singleton_append, spelled?]
      · simp [ih, Nat.not_lt.2 hc, hslash]
      · exact hquote
      · exact fun _ _ _ _ _ h _ => hslash h
      · exact fun _ _ h _ => hslash h
    | @letter e c he =>
      have hu : e ≠ 'u' := by
        rintro rfl
        cases he
      rw [List.append_assoc, List.cons_append, List.singleton_append, spelled?]
      · simp [he, ih]
      · exact fun _ _ _ _ _ h _ => hu h
    | unicode hx => simp [spelled?, hx, ih]

theorem Apart.not_isDigit {rest : List Char} (h : Apart rest) :
    ∀ c ∈ rest.head?, c.isDigit = false := fun c hc => by
  have := h c hc
  simp only [goesOn, Bool.or_eq_false_iff] at this
  exact this.1.1.1

theorem digits?_append {ds rest : List Char} (hd : IsDigits ds)
    (hr : ∀ c ∈ rest.head?, c.isDigit = false) : digits? (ds ++ rest) = some (ds, rest) := by
  rw [digits?, Text.span_append hd.2 hr]
  cases ds with
  | nil => exact absurd rfl hd.1
  | cons d ds => rfl

theorem integerPart?_append {whole rest : List Char}
    (h : whole = ['0'] ∨ IsDigits whole ∧ whole.head? ≠ some '0')
    (hr : ∀ c ∈ rest.head?, c.isDigit = false) :
    integerPart? (whole ++ rest) = some (whole, rest) := by
  rcases h with rfl | ⟨hd, hzero⟩
  · rfl
  · rw [integerPart?, digits?_append hd hr]
    intro cs hcs
    cases whole with
    | nil => exact hd.1 rfl
    | cons d ds => exact hzero (by simpa using congrArg List.head? hcs)

theorem fractionPart?_append {fraction rest : List Char}
    (h : fraction = [] ∨ ∃ digits, IsDigits digits ∧ fraction = '.' :: digits)
    (hdot : rest.head? ≠ some '.') (hr : ∀ c ∈ rest.head?, c.isDigit = false) :
    fractionPart? (fraction ++ rest) = some (fraction, rest) := by
  rcases h with rfl | ⟨ds, hd, rfl⟩
  · rw [List.nil_append, fractionPart?]
    rintro cs rfl
    exact hdot rfl
  · simp [fractionPart?, digits?_append hd hr]

theorem exponentSign_append {sign ds rest : List Char} (hs : sign ∈ [[], ['+'], ['-']])
    (hd : IsDigits ds) : exponentSign (sign ++ (ds ++ rest)) = (sign, ds ++ rest) := by
  obtain ⟨d, ds, rfl⟩ := List.exists_cons_of_ne_nil hd.1
  have hdigit := hd.2 d List.mem_cons_self
  simp only [List.mem_cons, List.not_mem_nil, or_false] at hs
  rcases hs with rfl | rfl | rfl
  · rw [List.nil_append, List.cons_append, exponentSign]
    · rintro cs h
      cases h
      exact absurd hdigit (by decide)
    · rintro cs h
      cases h
      exact absurd hdigit (by decide)
  · rfl
  · rfl

theorem exponentPart?_append {exponent rest : List Char}
    (h : exponent = [] ∨ ∃ e sign digits, (e = 'e' ∨ e = 'E') ∧ sign ∈ [[], ['+'], ['-']] ∧
      IsDigits digits ∧ exponent = e :: (sign ++ digits)) (hr : Apart rest) :
    exponentPart? (exponent ++ rest) = some (exponent, rest) := by
  rcases h with rfl | ⟨e, sign, ds, he, hs, hd, rfl⟩
  · cases rest with
    | nil => rfl
    | cons c rest =>
      have hc := hr c (by simp)
      simp only [goesOn, Bool.or_eq_false_iff] at hc
      simp [exponentPart?, hc]
  · have he' : (e == 'e' || e == 'E') = true := by simpa using he
    simp [exponentPart?, he', exponentSign_append hs hd, digits?_append hd hr.not_isDigit]

/-- The number at the start of a text is read through its last character. -/
theorem unsigned?_append {whole fraction exponent rest : List Char}
    (hw : whole = ['0'] ∨ IsDigits whole ∧ whole.head? ≠ some '0')
    (hf : fraction = [] ∨ ∃ digits, IsDigits digits ∧ fraction = '.' :: digits)
    (he : exponent = [] ∨ ∃ e sign digits, (e = 'e' ∨ e = 'E') ∧ sign ∈ [[], ['+'], ['-']] ∧
      IsDigits digits ∧ exponent = e :: (sign ++ digits)) (hr : Apart rest) :
    unsigned? (whole ++ (fraction ++ (exponent ++ rest)))
      = some (whole ++ fraction ++ exponent, rest) := by
  -- what follows the fraction is an exponent or ends the number
  have hexp : ∀ c ∈ (exponent ++ rest).head?, c.isDigit = false ∧ c ≠ '.' := by
    rcases he with rfl | ⟨e, sign, ds, he, -, -, rfl⟩
    · intro c hc
      have := hr c hc
      simp only [goesOn, Bool.or_eq_false_iff, beq_eq_false_iff_ne] at this
      exact ⟨this.1.1.1, this.1.1.2⟩
    · rintro c hc
      obtain rfl : e = c := by simpa using hc
      rcases he with rfl | rfl <;> decide
  have hfrac : ∀ c ∈ (fraction ++ (exponent ++ rest)).head?, c.isDigit = false := by
    rcases hf with rfl | ⟨ds, -, rfl⟩
    · exact fun c hc => (hexp c hc).1
    · rintro c hc
      obtain rfl : '.' = c := by simpa using hc
      decide
  have hdot : (exponent ++ rest).head? ≠ some '.' := fun h => (hexp '.' h).2 rfl
  simp [unsigned?, integerPart?_append hw hfrac,
    fractionPart?_append hf hdot fun c hc => (hexp c hc).1, exponentPart?_append he hr]

/-- A number begins with a minus sign or a digit. -/
theorem IsNumber.exists_cons {text : List Char} (h : IsNumber text) :
    ∃ c cs, text = c :: cs ∧ (c = '-' ∨ c.isDigit = true) := by
  obtain ⟨sign, whole, fraction, exponent, rfl, hsign, hw, -⟩ := h.exists_parts
  rcases hsign with rfl | rfl
  · rcases hw with rfl | ⟨hd, -⟩
    · exact ⟨'0', _, rfl, .inr (by decide)⟩
    · obtain ⟨d, ds, rfl⟩ := List.exists_cons_of_ne_nil hd.1
      exact ⟨d, _, rfl, .inr (hd.2 d List.mem_cons_self)⟩
  · exact ⟨'-', _, rfl, .inl rfl⟩

theorem token?_of_isDigit {c : Char} (h : c.isDigit = true) (cs : List Char) :
    token? (c :: cs) = (unsigned? (c :: cs)).map fun x => (.number (String.ofList x.1), x.2) := by
  have hne : ∀ d : Char, d.isDigit = false → c ≠ d := by
    rintro d hd rfl
    exact absurd (h.symm.trans hd) (by decide)
  have hmarks : (['\x7b', '\x7d', '[', ']', ',', ':', 'n', 't', 'f', '"', '-'].all
      fun d => d.isDigit == false) = true := rfl
  have hfalse : ∀ d ∈ ['\x7b', '\x7d', '[', ']', ',', ':', 'n', 't', 'f', '"', '-'], c ≠ d :=
    fun d hd => hne d (beq_iff_eq.1 (List.all_eq_true.1 hmarks d hd))
  simp only [List.forall_mem_cons] at hfalse
  rw [token?]
  · cases unsigned? (c :: cs) <;> rfl
  all_goals
    intros
    simp_all

theorem token?_number {text rest : List Char} (h : IsNumber text) (hr : Apart rest) :
    token? (text ++ rest) = some (.number (String.ofList text), rest) := by
  obtain ⟨c, cs, htext, hc⟩ := h.exists_cons
  obtain ⟨sign, whole, fraction, exponent, hparts, hsign, hw, hf, he⟩ := h.exists_parts
  have hu := unsigned?_append hw hf he hr
  rcases hsign with rfl | rfl
  · have hcs : whole ++ (fraction ++ (exponent ++ rest)) = c :: (cs ++ rest) := by
      rw [← List.cons_append, ← htext, hparts]
      simp
    have hdigit : c.isDigit = true := by
      refine hc.resolve_left ?_
      rintro rfl
      rcases hw with rfl | ⟨hd, -⟩
      · simp at hcs
      · obtain ⟨d, ds, rfl⟩ := List.exists_cons_of_ne_nil hd.1
        have hd := hd.2 d List.mem_cons_self
        obtain rfl : d = '-' := by simpa using congrArg List.head? hcs
        exact absurd hd (by decide)
    rw [hcs] at hu
    rw [htext, List.cons_append, token?_of_isDigit hdigit, hu, ← htext, hparts]
    simp
  · subst hparts
    simp [token?, hu]

/-- A written token is read, up to its end. -/
theorem token?_of_writes {t : Token} {text : List Char} (h : t.Writes text) {rest : List Char}
    (hr : t.isNumber = true → Apart rest) : token? (text ++ rest) = some (t, rest) := by
  cases h with
  | fixed h =>
    cases t <;> cases h <;> rfl
  | number h => exact token?_number h (hr rfl)
  | string h => simp [token?, spelled?_append h]

theorem exists_cons_of_writes {t : Token} {text : List Char} (h : t.Writes text) :
    ∃ c cs, text = c :: cs ∧ isSpace c = false := by
  cases h with
  | fixed h => cases t <;> cases h <;> exact ⟨_, _, rfl, by decide⟩
  | number h =>
    obtain ⟨c, cs, rfl, hc⟩ := h.exists_cons
    refine ⟨c, cs, rfl, ?_⟩
    rcases hc with rfl | hc
    · decide
    · by_contra hs
      simp only [isSpace, Bool.not_eq_false, Bool.or_eq_true, beq_iff_eq, or_assoc] at hs
      rcases hs with rfl | rfl | rfl | rfl <;> revert hc <;> decide
  | string h => exact ⟨_, _, rfl, by decide⟩

theorem tokensFrom_of_written {ts : List Token} {cs : List Char} (h : Written ts cs)
    {fuel : Nat} (hfuel : cs.length ≤ fuel) (seen : List Token) :
    tokensFrom fuel seen cs = some (seen.reverse ++ ts) := by
  induction h generalizing fuel seen with
  | done => cases fuel <;> simp [tokensFrom]
  | @blank c ts cs hc _ ih =>
    cases fuel with
    | zero => simp at hfuel
    | succ fuel => rw [tokensFrom, if_pos hc, ih (by simpa using hfuel)]
  | @token t text ts cs h ha _ ih =>
    have htoken := token?_of_writes h ha
    obtain ⟨c, text, rfl, hc⟩ := exists_cons_of_writes h
    rw [List.cons_append] at htoken hfuel ⊢
    cases fuel with
    | zero => simp at hfuel
    | succ fuel =>
      simp only [List.length_cons, List.length_append] at hfuel
      have htail : cs.length ≤ fuel := by omega
      rw [tokensFrom, if_neg (by simp [hc]), htoken]
      simp [ih htail]

/-- The tokens of a text are those that were written. -/
theorem tokens?_of_written {ts : List Token} {s : String} (h : Written ts s.toList) :
    tokens? s = some ts := by
  rw [tokens?, tokensFrom_of_written h (Nat.le_refl _)]
  rfl

/-! ## Reading values -/

theorem length_tokens_pos (v : Json) : 0 < v.tokens.length := by
  cases v with
  | bool b => cases b <;> simp [tokens]
  | _ => simp [tokens]

theorem ofMembers_some (members : List (String × Json)) :
    ofMembers (members.map fun m => (some m.1, m.2)) = object members := by
  have h : (members.map fun m => (some m.1, m.2)).mapM
      (fun (m : Option String × Json) => m.1.map (·, m.2)) = some members := by
    induction members with
    | nil => rfl
    | cons m ms ih => simp [ih]
  rw [ofMembers]
  simp only [h]

/-- The first token of a value closes nothing. -/
theorem exists_tokens_eq (v : Json) :
    ∃ t ts, v.tokens = t :: ts ∧ t ≠ .endArray ∧ t ≠ .endObject := by
  cases v with
  | bool b => cases b <;> exact ⟨_, _, rfl, nofun, nofun⟩
  | _ => exact ⟨_, _, rfl, nofun, nofun⟩

theorem value?_beginArray {n : Nat} {t : Token} (h : t ≠ .endArray) (ts : List Token) :
    value? (n + 1) (.beginArray :: t :: ts)
      = (elements? n (t :: ts)).map fun (vs, rest) => (array vs, rest) := by
  cases t with
  | endArray => exact absurd rfl h
  | _ => rfl

mutual

/-- A value is read from its tokens, whatever follows them. The depth of the recursion is bounded
by twice their number. -/
theorem value?_tokens : (v : Json) → {n : Nat} → 2 * v.tokens.length ≤ n + 1 → (ts : List Token) →
    value? n (v.tokens ++ ts) = some (v, ts)
  | v, 0, h, ts => absurd h (by have := length_tokens_pos v; omega)
  | null, n + 1, _, ts => rfl
  | bool true, n + 1, _, ts => rfl
  | bool false, n + 1, _, ts => rfl
  | number _, n + 1, _, ts => rfl
  | string _, n + 1, _, ts => rfl
  | unreadable, n + 1, _, ts => rfl
  | array [], n + 1, _, ts => rfl
  | object [], n + 1, _, ts => rfl
  | array (v :: vs), n + 1, h, ts => by
    have hlength : 2 * ([.comma].intercalate (elementTokens (v :: vs))).length + 1 ≤ n := by
      simp only [tokens, List.length_append, List.length_cons, List.length_nil] at h
      omega
    have helements := elements?_tokens v vs hlength ts
    obtain ⟨t, us, hus, ht⟩ : ∃ t us, [.comma].intercalate (elementTokens (v :: vs))
        ++ .endArray :: ts = t :: us ∧ t ≠ .endArray := by
      obtain ⟨t, us, hus, ht, -⟩ := exists_tokens_eq v
      cases vs <;> simp [elementTokens, hus, ht]
    rw [tokens, List.append_assoc, List.cons_append, List.singleton_append, hus,
      value?_beginArray ht, ← hus, helements]
    rfl
  | object ((name, v) :: ms), n + 1, h, ts => by
    have hlength : 2 * ([.comma].intercalate (memberTokens ((name, v) :: ms))).length + 1 ≤ n := by
      simp only [tokens, List.length_append, List.length_cons, List.length_nil] at h
      omega
    have hmembers := members?_tokens name v ms hlength ts
    obtain ⟨us, hus⟩ : ∃ us, [.comma].intercalate (memberTokens ((name, v) :: ms))
        ++ .endObject :: ts = .string (some name) :: us := by
      cases ms <;> simp [memberTokens]
    rw [tokens, List.append_assoc, List.cons_append, List.singleton_append, hus, value?]
    · rw [← hus, hmembers]
      exact congrArg (fun v => some (v, ts)) (ofMembers_some _)
    · nofun

/-- The elements of an array are read through its closing bracket. -/
theorem elements?_tokens : (v : Json) → (vs : List Json) → {n : Nat} →
    2 * ([.comma].intercalate (elementTokens (v :: vs))).length + 1 ≤ n → (ts : List Token) →
    elements? n ([.comma].intercalate (elementTokens (v :: vs)) ++ .endArray :: ts)
      = some (v :: vs, ts)
  | v, vs, 0, h, ts => absurd h (by omega)
  | v, [], n + 1, h, ts => by
    simp only [elementTokens, List.intercalate_singleton] at h ⊢
    rw [elements?, value?_tokens v (by omega)]
  | v, w :: vs, n + 1, h, ts => by
    simp only [elementTokens, List.intercalate_cons_cons, List.length_append, List.length_cons,
      List.length_nil] at h
    have hrest := elements?_tokens w vs (n := n) (by rw [elementTokens]; omega) ts
    simp only [elementTokens, List.intercalate_cons_cons, List.append_assoc,
      List.cons_append, List.nil_append] at hrest ⊢
    rw [elements?, value?_tokens v (by omega)]
    simp [hrest]

/-- The members of an object are read through its closing brace. -/
theorem members?_tokens : (name : String) → (v : Json) → (ms : List (String × Json)) → {n : Nat} →
    2 * ([.comma].intercalate (memberTokens ((name, v) :: ms))).length + 1 ≤ n →
    (ts : List Token) →
    members? n ([.comma].intercalate (memberTokens ((name, v) :: ms)) ++ .endObject :: ts)
      = some (((name, v) :: ms).map fun m => (some m.1, m.2), ts)
  | name, v, ms, 0, h, ts => absurd h (by omega)
  | name, v, [], n + 1, h, ts => by
    simp only [memberTokens, List.intercalate_singleton, List.length_cons] at h ⊢
    rw [List.cons_append, List.cons_append, members?, value?_tokens v (by omega)]
    rfl
  | name, v, (key, w) :: ms, n + 1, h, ts => by
    simp only [memberTokens, List.intercalate_cons_cons, List.length_append, List.length_cons,
      List.length_nil] at h
    have hrest := members?_tokens key w ms (n := n) (by rw [memberTokens]; omega) ts
    simp only [memberTokens, List.intercalate_cons_cons, List.append_assoc,
      List.cons_append, List.nil_append] at hrest ⊢
    rw [members?, value?_tokens v (by omega)]
    change (members? n _).map _ = _
    rw [hrest]
    rfl

end

/-- A value is what its tokens spell. -/
theorem ofTokens?_tokens (v : Json) : ofTokens? v.tokens = some v := by
  have h := value?_tokens v (n := 2 * v.tokens.length + 1) (by omega) []
  rw [List.append_nil] at h
  rw [ofTokens?, h]

/-- Every text of a value is read as this value. -/
theorem ofText?_of_spells {s : String} {v : Json} (h : Spells s v) : ofText? s = some v := by
  rw [ofText?, tokens?_of_written h]
  exact ofTokens?_tokens v

end DiscoveryGrpc.Json
