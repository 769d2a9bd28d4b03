import Mathlib.Data.List.Forall2
import DiscoveryGrpc.Proofs.Json.Spelling
import DiscoveryGrpc.Json.Printer

/-!
# Printed values are spelled

Both forms in which a value is printed are texts of the value (`spells_compact`, `spells_pretty`):
they write its tokens in order, and differ in the blanks between them. So what was printed is read
again, as long as it can be printed at all: `Printable` leaves out numbers that are none and strings
that are no texts.
-/

namespace DiscoveryGrpc.Json

/-! ## Values that can be printed -/

mutual

/-- All numbers of a value are numbers, and all its strings are texts. -/
def Printable : Json → Prop
  | null | bool _ | string _ => True
  | number literal => IsNumber literal.toList
  | unreadable => False
  | array elements => PrintableElements elements
  | object members => PrintableMembers members

/-- All elements can be printed. -/
def PrintableElements : List Json → Prop
  | [] => True
  | v :: vs => v.Printable ∧ PrintableElements vs

/-- All values of members can be printed. -/
def PrintableMembers : List (String × Json) → Prop
  | [] => True
  | (_, v) :: ms => v.Printable ∧ PrintableMembers ms

end

theorem printableElements_iff {vs : List Json} :
    PrintableElements vs ↔ ∀ v ∈ vs, v.Printable := by
  induction vs with
  | nil => simp [PrintableElements]
  | cons v vs ih => rw [PrintableElements, ih, List.forall_mem_cons]

theorem printableMembers_iff {ms : List (String × Json)} :
    PrintableMembers ms ↔ ∀ m ∈ ms, m.2.Printable := by
  induction ms with
  | nil => simp [PrintableMembers]
  | cons m ms ih => rw [PrintableMembers, ih, List.forall_mem_cons]

/-! ## Strings -/

theorem hexDigit?_digitChar : ∀ n < 16, hexDigit? (Nat.digitChar n) = some n := by decide

/-- The escape of a control spells it. -/
theorem unicodeEscape?_digitChar {c : Char} (hc : c.toNat < 0x20) :
    unicodeEscape? '0' '0' (Nat.digitChar (c.toNat / 16)) (Nat.digitChar (c.toNat % 16))
      = some (.char c) := by
  have hhigh := hexDigit?_digitChar (c.toNat / 16) (by omega)
  have hlow := hexDigit?_digitChar (c.toNat % 16) (by omega)
  have hzero : hexDigit? '0' = some 0 := rfl
  have hunit : ((0 * 16 + 0) * 16 + c.toNat / 16) * 16 + c.toNat % 16 = c.toNat := by omega
  have hwhole : ¬(decide (0xd800 ≤ c.toNat) && decide (c.toNat < 0xe000)) = true := by
    simp only [Bool.and_eq_true, decide_eq_true_eq]
    omega
  simp only [unicodeEscape?, hhigh, hlow, hzero, Option.bind_eq_bind, Option.bind_some, hunit,
    if_neg hwhole, Char.ofNat_toNat]
  rfl

theorem writes_escapeChar (c : Char) : (Spelled.char c).Writes (escapeChar c) := by
  unfold escapeChar
  split
  case h_8 hquote hslash _ _ _ _ _ =>
    split
    · rename_i hc
      exact .unicode (unicodeEscape?_digitChar hc)
    · exact .plain (by omega) hquote hslash
  all_goals exact .letter rfl

theorem literal_escape (cs : List Char) :
    Literal (cs.map Spelled.char) (cs.flatMap escapeChar) := by
  induction cs with
  | nil => exact .nil
  | cons c cs ih => exact .cons (writes_escapeChar c) ih

theorem joinHalves?_char (cs : List Char) : joinHalves? (cs.map Spelled.char) = some cs := by
  induction cs with
  | nil => rfl
  | cons c cs ih => simp [joinHalves?, ih]

/-- A text between quotes is a string token. -/
theorem writes_quote (s : String) : (Token.string (some s)).Writes (quote s).toList := by
  have h := Token.Writes.string (literal_escape s.toList)
  rw [joinHalves?_char] at h
  simpa [quote] using h

/-! ## Parts of a printed text -/

/-- A text writes some tokens, in front of anything that a number does not go on into. -/
def Prints (ts : List Token) (s : String) : Prop :=
  ∀ us cs, Apart cs → Written us cs → Written (ts ++ us) (s.toList ++ cs)

theorem apart_cons {c : Char} (h : goesOn c = false) (cs : List Char) : Apart (c :: cs) :=
  fun d hd => by
    obtain rfl : c = d := by simpa using hd
    exact h

theorem Prints.token {t : Token} {s : String} (h : t.Writes s.toList) : Prints [t] s :=
  fun _ _ ha hs => .token h (fun _ => ha) hs

/-- A text of blanks. -/
def Blank (s : String) : Prop := ∀ c ∈ s.toList, isSpace c = true

theorem goesOn_of_isSpace {c : Char} (h : isSpace c = true) : goesOn c = false := by
  simp only [isSpace, Bool.or_eq_true, beq_iff_eq, or_assoc] at h
  rcases h with rfl | rfl | rfl | rfl <;> decide

theorem Blank.written {s : String} (hb : Blank s) {ts : List Token} {cs : List Char}
    (h : Written ts cs) : Written ts (s.toList ++ cs) := by
  have hall : ∀ bs : List Char, (∀ c ∈ bs, isSpace c = true) → Written ts (bs ++ cs) := by
    intro bs
    induction bs with
    | nil => exact fun _ => h
    | cons b bs ih =>
      intro hbs
      obtain ⟨hb, hbs⟩ := List.forall_mem_cons.1 hbs
      exact .blank hb (ih hbs)
  exact hall _ hb

theorem Blank.apart {s : String} (hb : Blank s) {cs : List Char} (h : Apart cs) :
    Apart (s.toList ++ cs) := by
  unfold Blank at hb
  cases hs : s.toList with
  | nil => exact h
  | cons c bs => exact apart_cons (goesOn_of_isSpace (hb c (by simp [hs]))) _

theorem blank_newline (level : Nat) : Blank (newline level) := by
  intro c hc
  have hc : c = '\n' ∨ c ∈ List.replicate (2 * level) ' ' := by simpa [newline] using hc
  rcases hc with rfl | hc
  · rfl
  · obtain ⟨-, rfl⟩ := List.mem_replicate.1 hc
    rfl

theorem apart_comma (cs : List Char) : Apart (',' :: cs) := apart_cons rfl cs

/-- Items with a comma and blanks between any two. -/
theorem prints_intercalate {tss : List (List Token)} {items : List String} {inner : String}
    (h : List.Forall₂ Prints tss items) (hi : Blank inner) :
    Prints ([.comma].intercalate tss) (("," ++ inner).intercalate items) := by
  intro us cs ha hs
  rw [String.toList_intercalate]
  induction h with
  | nil => exact hs
  | @cons ts item tss items hitem htail ih =>
    cases htail with
    | nil => simpa using hitem us cs ha hs
    | cons =>
      simp only [List.map_cons, List.intercalate_cons_cons, List.append_assoc,
        String.toList_append] at ih ⊢
      exact hitem _ _ (apart_comma _) (.token (.fixed rfl) nofun (hi.written ih))

theorem Token.isNumber_of_fixed? {t : Token} {cs : List Char} (h : t.fixed? = some cs) :
    t.isNumber = .false := by
  cases t with
  | number => cases h
  | _ => rfl

/-- A text stands between an opening and a closing token. -/
structure Bracketed (start stop : Token) (opening closing : String) : Prop where
  start : start.fixed? = some opening.toList
  stop : stop.fixed? = some closing.toList
  apart : Apart closing.toList

theorem bracketed_array : Bracketed .beginArray .endArray "[" "]" := ⟨rfl, rfl, apart_cons rfl []⟩

theorem bracketed_object : Bracketed .beginObject .endObject "\x7b" "\x7d" :=
  ⟨rfl, rfl, apart_cons rfl []⟩

theorem blank_empty : Blank "" := by simp [Blank]

/-- Items between brackets, with blanks around them. -/
theorem prints_between {start stop : Token} {opening closing : String}
    (hk : Bracketed start stop opening closing) {before after : String} (hb : Blank before)
    (ha : Blank after) {ts : List Token} {middle : String} (h : Prints ts middle) :
    Prints (start :: ts ++ [stop]) (opening ++ before ++ middle ++ after ++ closing) := by
  intro us cs hcs hs
  simp only [String.toList_append, List.append_assoc, List.cons_append, List.nil_append]
  have hend : Written (stop :: us) (closing.toList ++ cs) :=
    .token (.fixed hk.stop) (by simp [Token.isNumber_of_fixed? hk.stop]) hs
  have hapart : Apart (closing.toList ++ cs) := by
    cases hc : closing.toList with
    | nil => exact hcs
    | cons c rest => exact apart_cons (hk.apart c (by simp [hc])) _
  exact .token (.fixed hk.start) (by simp [Token.isNumber_of_fixed? hk.start])
    (hb.written (h _ _ (ha.apart hapart) (ha.written hend)))

/-- Items between brackets without blanks. -/
theorem prints_inline {start stop : Token} {opening closing : String}
    (hk : Bracketed start stop opening closing) {tss : List (List Token)} {items : List String}
    (h : List.Forall₂ Prints tss items) :
    Prints (start :: [.comma].intercalate tss ++ [stop])
      (opening ++ ",".intercalate items ++ closing) := by
  simpa using prints_between hk blank_empty blank_empty (prints_intercalate h blank_empty)

/-- Items on lines of their own between brackets. -/
theorem prints_block {start stop : Token} {opening closing : String}
    (hk : Bracketed start stop opening closing) (level : Nat) {tss : List (List Token)}
    {items : List String} (h : List.Forall₂ Prints tss items) :
    Prints (start :: [.comma].intercalate tss ++ [stop]) (block opening closing level items) := by
  unfold block
  split
  · rename_i hnil
    obtain rfl : items = [] := by simpa using hnil
    cases h
    simpa using prints_inline hk .nil
  · exact prints_between hk (blank_newline _) (blank_newline _)
      (prints_intercalate h (blank_newline _))

/-! ## Printed values -/

theorem prints_bool (b : Bool) : Prints (bool b).tokens (boolText b) := by
  cases b <;> exact .token (.fixed rfl)

theorem prints_number {literal : String} (h : IsNumber literal.toList) :
    Prints [.number literal] literal := by
  have := Token.Writes.number h
  rw [String.ofList_toList] at this
  exact .token this

/-- A member: a name, a colon and a value, perhaps with blanks between them. -/
theorem prints_member (name : String) {colon gap : String} (hcolon : colon = ":" ++ gap)
    (hgap : Blank gap) {ts : List Token} {s : String} (h : Prints ts s) :
    Prints (.string (some name) :: .colon :: ts) (quote name ++ colon ++ s) := by
  intro us cs ha hs
  simp only [hcolon, String.toList_append, List.append_assoc, List.cons_append]
  exact .token (writes_quote name) nofun
    (.token (.fixed rfl) nofun (hgap.written (h us cs ha hs)))

mutual

theorem prints_compact : (v : Json) → v.Printable → Prints v.tokens v.compact
  | null, _ => .token (.fixed rfl)
  | bool b, _ => prints_bool b
  | number _, h => prints_number h
  | string s, _ => .token (writes_quote s)
  | unreadable, h => h.elim
  | array vs, h =>
    prints_inline bracketed_array (prints_compactElements vs h)
  | object ms, h =>
    prints_inline bracketed_object (prints_compactMembers ms h)

theorem prints_compactElements : (vs : List Json) → PrintableElements vs →
    List.Forall₂ Prints (elementTokens vs) (compactElements vs)
  | [], _ => .nil
  | v :: vs, h => .cons (prints_compact v h.1) (prints_compactElements vs h.2)

theorem prints_compactMembers : (ms : List (String × Json)) → PrintableMembers ms →
    List.Forall₂ Prints (memberTokens ms) (compactMembers ms)
  | [], _ => .nil
  | (name, v) :: ms, h =>
    .cons (prints_member name rfl blank_empty (prints_compact v h.1)) (prints_compactMembers ms h.2)

end

theorem blank_space : Blank " " := by simp [Blank, isSpace]

theorem prints_null : Prints null.tokens "null" := .token (.fixed rfl)

mutual

theorem prints_prettyAt : (level : Nat) → (v : Json) → v.Printable →
    Prints v.tokens (v.prettyAt level)
  | _, null, _ => prints_null
  | _, bool b, _ => prints_bool b
  | _, number _, h => prints_number h
  | _, string s, _ => .token (writes_quote s)
  | _, unreadable, h => h.elim
  | level, array vs, h =>
    prints_block bracketed_array level (prints_prettyElements (level + 1) vs h)
  | level, object ms, h =>
    prints_block bracketed_object level (prints_prettyMembers (level + 1) ms h)

theorem prints_prettyElements : (level : Nat) → (vs : List Json) → PrintableElements vs →
    List.Forall₂ Prints (elementTokens vs) (prettyElements level vs)
  | _, [], _ => .nil
  | level, v :: vs, h =>
    .cons (prints_prettyAt level v h.1) (prints_prettyElements level vs h.2)

theorem prints_prettyMembers : (level : Nat) → (ms : List (String × Json)) →
    PrintableMembers ms → List.Forall₂ Prints (memberTokens ms) (prettyMembers level ms)
  | _, [], _ => .nil
  | level, (name, v) :: ms, h =>
    .cons (prints_member name rfl blank_space (prints_prettyAt level v h.1))
      (prints_prettyMembers level ms h.2)

end

theorem Prints.spells {v : Json} {s : String} (h : Prints v.tokens s) : Spells s v := by
  have := h [] [] (by simp [Apart]) .done
  simpa [Spells] using this

/-- The compact text of a value is a text of it. -/
theorem spells_compact {v : Json} (h : v.Printable) : Spells v.compact v :=
  (prints_compact v h).spells

/-- The pretty text of a value is a text of it. -/
theorem spells_pretty {v : Json} (h : v.Printable) : Spells v.pretty v :=
  (prints_prettyAt 0 v h).spells

/-! ## Lengths -/

theorem length_le_intercalate {separator item : String} {items : List String} (h : item ∈ items) :
    item.length ≤ (separator.intercalate items).length := by
  rw [← String.length_toList, ← String.length_toList, String.toList_intercalate]
  induction items with
  | nil => cases h
  | cons x items ih =>
    cases items with
    | nil => simp_all
    | cons y items =>
      rw [List.map_cons, List.map_cons, List.intercalate_cons_cons, List.length_append,
        List.length_append]
      rcases List.mem_cons.1 h with rfl | h
      · omega
      · have := ih h
        rw [List.map_cons] at this
        omega

theorem compactMembers_eq (ms : List (String × Json)) :
    compactMembers ms = ms.map fun m => quote m.1 ++ ":" ++ m.2.compact := by
  induction ms with
  | nil => rfl
  | cons m ms ih => rw [compactMembers, ih, List.map_cons]

/-- The text of an object is longer than that of any of its values. -/
theorem length_compact_lt_object {name : String} {v : Json} {ms : List (String × Json)}
    (h : (name, v) ∈ ms) : v.compact.length < (object ms).compact.length := by
  have hitem : quote name ++ ":" ++ v.compact ∈ compactMembers ms := by
    rw [compactMembers_eq]
    exact List.mem_map.2 ⟨_, h, rfl⟩
  have hle : _ ≤ (",".intercalate (compactMembers ms)).length := length_le_intercalate hitem
  rw [compact, String.length_append, String.length_append]
  simp only [String.length_append] at hle
  have hopening : "\x7b".length = 1 := rfl
  omega

end DiscoveryGrpc.Json
