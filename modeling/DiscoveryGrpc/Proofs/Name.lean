import Mathlib
import DiscoveryGrpc.Name.Identifier
import DiscoveryGrpc.Proofs.Fault
import DiscoveryGrpc.Proofs.Proto.Writable

/-!
# The form of names

The words of an identifier have all its letters and digits, in order (`Name.letters_ofIdentifier`),
and no word is empty. So every name that is made of words has only letters, digits and underscores,
and it begins with a letter if the first letter or digit of the identifier is one
(`BeginsWithLetter`).

* `isTypeName_messageName` and `isTypeName_upperCamel` say this for messages, services and rpcs.
* `isName_fieldName` says it for fields.
* Names of enum members need no condition (`isMemberName_enumMemberName`), since a digit at the
  start gets an underscore; and they are no keywords, which are in lower case.
-/

namespace DiscoveryGrpc

open Proto (isName isTypeName isNamePart)

/-- The first letter or digit of a text is a letter, if it has one. -/
def BeginsWithLetter (s : String) : Prop := ∀ c ∈ s.toList.find? Char.isAlphanum, c.isAlpha = true

instance (s : String) : Decidable (BeginsWithLetter s) :=
  decidable_of_iff ((s.toList.find? Char.isAlphanum).all Char.isAlpha = true)
    (by cases h : s.toList.find? Char.isAlphanum <;> simp [BeginsWithLetter, h])

namespace Text

theorem flatten_splitBy (sep : Char → Bool) (cs : List Char) :
    (splitBy sep cs).flatten = cs.filter fun c => !sep c := by
  induction cs with
  | nil => rfl
  | cons c cs ih =>
    obtain ⟨w, ws, h⟩ := List.exists_cons_of_ne_nil (splitBy_ne_nil sep cs)
    rw [h] at ih
    rw [splitBy, h]
    cases hc : sep c <;> simp_all

end Text

namespace Name

/-- The letters and digits of a name. -/
def letters (n : Name) : List Char := n.words.flatMap (·.letters)

/-- Every word of a name has letters, and no other characters than letters and digits. An acronym
has no small letters. -/
structure Clean (n : Name) : Prop where
  ne_nil : ∀ w ∈ n.words, w.letters ≠ []
  alphanum : ∀ w ∈ n.words, ∀ c ∈ w.letters, c.isAlphanum = true
  acronym : ∀ w ∈ n.words, w.acronym = true → ∀ c ∈ w.letters, c.isLower = false

theorem camel_ne_lowerUnderscore : Casing.camel ≠ .lowerUnderscore := by decide

section WordsOf

variable {casing : Casing} (hcasing : casing ≠ .lowerUnderscore) {cs : List Char} {w : Word}
include hcasing

theorem wordsOf_eq (cs : List Char) :
    wordsOf casing cs = (Casing.camelWords cs).map Word.ofCamel := by
  rw [wordsOf]
  exact hcasing

theorem map_letters_wordsOf (cs : List Char) :
    (wordsOf casing cs).map (·.letters) = Casing.camelWords cs := by
  rw [wordsOf_eq hcasing, List.map_map]
  exact List.map_id' _

theorem map_lower_wordsOf (cs : List Char) :
    (wordsOf casing cs).map Word.lower = (Casing.camelWords cs).map (List.map Char.toLower) := by
  rw [← map_letters_wordsOf hcasing, List.map_map]
  rfl

theorem flatMap_letters_wordsOf (cs : List Char) :
    (wordsOf casing cs).flatMap (·.letters) = cs := by
  rw [List.flatMap_def, map_letters_wordsOf hcasing, Casing.flatten_camelWords]

theorem ne_nil_of_mem_wordsOf (hw : w ∈ wordsOf casing cs) : w.letters ≠ [] :=
  Casing.ne_nil_of_mem_camelWords (map_letters_wordsOf hcasing cs ▸ List.mem_map_of_mem hw)

theorem not_isLower_of_acronym (hw : w ∈ wordsOf casing cs) (ha : w.acronym = true) :
    ∀ c ∈ w.letters, c.isLower = false := by
  rw [wordsOf_eq hcasing] at hw
  obtain ⟨letters, -, rfl⟩ := List.mem_map.1 hw
  have hnone := (Bool.and_eq_true_iff.1 ha).2
  have hall : ∀ c ∈ letters, c.isLower = false := by simpa using hnone
  exact hall

end WordsOf

theorem letters_ofIdentifier (s : String) :
    (ofIdentifier s).letters = s.toList.filter Char.isAlphanum := by
  have hfragments : (Identifier.fragmentChars s).flatten = s.toList.filter Char.isAlphanum := by
    rw [Identifier.fragmentChars, List.flatten_filter_not_isEmpty, Text.flatten_splitBy]
    simp
  change ((Identifier.fragmentChars s).flatMap (wordsOf .camel)).flatMap (·.letters) = _
  rw [List.flatMap_assoc, ← hfragments, ← List.flatMap_id']
  simp only [flatMap_letters_wordsOf camel_ne_lowerUnderscore]

theorem ne_nil_of_mem_ofIdentifier {s : String} {w : Word} (h : w ∈ (ofIdentifier s).words) :
    w.letters ≠ [] := by
  obtain ⟨cs, -, hw⟩ := List.mem_flatMap.1 h
  exact ne_nil_of_mem_wordsOf camel_ne_lowerUnderscore hw

theorem clean_ofIdentifier (s : String) : (ofIdentifier s).Clean := by
  refine ⟨fun w hw => ne_nil_of_mem_ofIdentifier hw, fun w hw c hc => ?_, fun w hw ha => ?_⟩
  · have hmem : c ∈ (ofIdentifier s).letters := List.mem_flatMap.2 ⟨w, hw, hc⟩
    rw [letters_ofIdentifier] at hmem
    exact (List.mem_filter.1 hmem).2
  · obtain ⟨cs, -, hw⟩ := List.mem_flatMap.1 hw
    exact not_isLower_of_acronym camel_ne_lowerUnderscore hw ha

/-- A name begins with a letter. -/
def BeginsWithLetter (n : Name) : Prop := ∃ c ∈ n.letters.head?, c.isAlpha = true

theorem eq_ofIdentifier {s : String} {n : Name} (h : ofIdentifier? s = .ok n) :
    n = ofIdentifier s ∧ n.words ≠ [] := by
  rw [ofIdentifier?] at h
  by_cases he : (ofIdentifier s).isEmpty = true
  · simp [he] at h
  · obtain rfl : ofIdentifier s = n := by simpa [he] using h
    exact ⟨rfl, by simpa [isEmpty] using he⟩

theorem clean_of_ofIdentifier? {s : String} {n : Name} (h : ofIdentifier? s = .ok n) : n.Clean :=
  (eq_ofIdentifier h).1 ▸ clean_ofIdentifier s

/-- A name begins as its identifier does. -/
theorem exists_head?_letters {s : String} {n : Name} (h : ofIdentifier? s = .ok n) :
    ∃ c, n.letters.head? = some c ∧ s.toList.find? Char.isAlphanum = some c := by
  obtain ⟨rfl, hne⟩ := eq_ofIdentifier h
  obtain ⟨w, ws, hw⟩ := List.exists_cons_of_ne_nil hne
  obtain ⟨c, cs, hc⟩ := List.exists_cons_of_ne_nil
    (ne_nil_of_mem_ofIdentifier (hw ▸ List.mem_cons_self))
  have hhead : (ofIdentifier s).letters.head? = some c := by simp [letters, hw, hc]
  exact ⟨c, hhead, by rwa [letters_ofIdentifier, List.head?_filter] at hhead⟩

theorem beginsWithLetter_of_ofIdentifier? {s : String} {n : Name} (h : ofIdentifier? s = .ok n)
    (hs : DiscoveryGrpc.BeginsWithLetter s) : n.BeginsWithLetter := by
  obtain ⟨c, hc, hfind⟩ := exists_head?_letters h
  exact ⟨c, hc, hs c hfind⟩

theorem Clean.append {a b : Name} (ha : a.Clean) (hb : b.Clean) : (a.append b).Clean where
  ne_nil w hw := (List.mem_append.1 hw).elim (ha.ne_nil w) (hb.ne_nil w)
  alphanum w hw := (List.mem_append.1 hw).elim (ha.alphanum w) (hb.alphanum w)
  acronym w hw := (List.mem_append.1 hw).elim (ha.acronym w) (hb.acronym w)

theorem BeginsWithLetter.append {a : Name} (h : a.BeginsWithLetter) (b : Name) :
    (a.append b).BeginsWithLetter := by
  obtain ⟨c, hc, ha⟩ := h
  refine ⟨c, ?_, ha⟩
  have : (a.append b).letters = a.letters ++ b.letters := List.flatMap_append ..
  rw [this, List.head?_append, hc]
  rfl

theorem clean_ofWord {word : String} (hne : word.toList ≠ [])
    (h : word.toList.all Char.isAlphanum = true) : (ofWord word).Clean := by
  constructor
  · simpa [ofWord] using hne
  · simpa [ofWord] using h
  · simp [ofWord]

/-! ## Renderings -/

/-- A name that begins with a letter, cut into this letter, its first word and what follows. -/
theorem Clean.cases {n : Name} (hn : n.Clean) (h : n.BeginsWithLetter) :
    ∃ w ws c cs, n.words = w :: ws ∧ w.letters = c :: cs ∧ c.isAlpha = true := by
  obtain ⟨c, hc, ha⟩ := h
  unfold letters at hc
  cases hw : n.words with
  | nil => simp [hw] at hc
  | cons w ws =>
    obtain ⟨d, ds, hd⟩ := List.exists_cons_of_ne_nil (hn.ne_nil w (hw ▸ List.mem_cons_self))
    obtain rfl : d = c := by simpa [hw, hd] using hc
    exact ⟨w, ws, d, ds, rfl, hd, ha⟩

theorem isAlphanum_toLower {c : Char} (h : c.isAlphanum = true) : c.toLower.isAlphanum = true := by
  by_cases hu : c.isUpper = true
  · simp [Char.isAlphanum, Char.isAlpha, hu]
  · rwa [Char.toLower_eq_of_not_isUpper hu]

theorem isAlphanum_toUpper {c : Char} (h : c.isAlphanum = true) : c.toUpper.isAlphanum = true := by
  by_cases hl : c.isLower = true
  · simp [Char.isAlphanum, Char.isAlpha, hl]
  · rwa [Char.toUpper_eq_of_not_isLower hl]

theorem not_isUpper_of_isDigit {c : Char} (h : c.isDigit = true) : c.isUpper = false := by
  simp only [Char.isDigit, Bool.and_eq_true, decide_eq_true_eq, UInt32.le_iff_toNat_le] at h
  simp only [Char.isUpper, decide_eq_false_iff_not, UInt32.le_iff_toNat_le]
  have hlt : '9'.val.toNat < 'A'.val.toNat := by decide
  omega

theorem not_isLower_of_isDigit {c : Char} (h : c.isDigit = true) : c.isLower = false := by
  simp only [Char.isDigit, Bool.and_eq_true, decide_eq_true_eq, UInt32.le_iff_toNat_le] at h
  simp only [Char.isLower, Bool.and_eq_false_iff, decide_eq_false_iff_not, UInt32.le_iff_toNat_le]
  have hlt : '9'.val.toNat < 'a'.val.toNat := by decide
  omega

theorem isUpper_toUpper {c : Char} (h : c.isAlpha = true) : c.toUpper.isUpper = true := by
  rwa [Char.isUpper_toUpper_eq_isAlpha]

/-- In a form with words one after another, a name begins with a capital if each word does. -/
theorem isTypeName_of_words {n : Name} (hn : n.Clean) (h : n.BeginsWithLetter)
    {form : Word → List Char}
    (hhead : ∀ w ∈ n.words, ∀ c cs, w.letters = c :: cs → c.isAlpha = true →
      ∃ d ds, form w = d :: ds ∧ d.isUpper = true)
    (hform : ∀ w ∈ n.words, ∀ c ∈ form w, c.isAlphanum = true) :
    isTypeName (String.ofList (n.words.flatMap form)) = true := by
  obtain ⟨w, ws, c, cs, hw, hc, ha⟩ := hn.cases h
  obtain ⟨d, ds, hd, hu⟩ := hhead w (hw ▸ List.mem_cons_self) c cs hc ha
  have hall : ∀ x ∈ n.words.flatMap form, isNamePart x = true := by
    intro x hx
    obtain ⟨v, hv, hx⟩ := List.mem_flatMap.1 hx
    rw [isNamePart, hform v hv x hx, Bool.true_or]
  rw [hw, List.flatMap_cons, hd, List.cons_append] at hall ⊢
  rw [isTypeName, String.toList_ofList]
  exact Bool.and_eq_true_iff.2
    ⟨hu, List.all_eq_true.2 fun x hx => hall x (List.mem_cons_of_mem _ hx)⟩

theorem isAlphanum_capitalized {w : Word} (h : ∀ c ∈ w.letters, c.isAlphanum = true) :
    ∀ c ∈ w.capitalized, c.isAlphanum = true := by
  unfold Word.capitalized Word.lower
  cases hw : w.letters with
  | nil => simp [Word.capitalize]
  | cons c cs =>
    rw [hw] at h
    intro x hx
    rcases List.mem_cons.1 hx with rfl | hx
    · exact isAlphanum_toUpper (isAlphanum_toLower (h c List.mem_cons_self))
    · obtain ⟨y, hy, rfl⟩ := List.mem_map.1 hx
      exact isAlphanum_toLower (h y (List.mem_cons_of_mem _ hy))

theorem exists_capitalized {w : Word} {c : Char} {cs : List Char} (hw : w.letters = c :: cs)
    (h : c.isAlpha = true) : ∃ d ds, w.capitalized = d :: ds ∧ d.isUpper = true := by
  refine ⟨c.toLower.toUpper, cs.map Char.toLower, ?_, ?_⟩
  · simp [Word.capitalized, Word.lower, hw, Word.capitalize]
  · exact isUpper_toUpper (by rwa [Char.isAlpha_toLower_eq_isAlpha])

theorem isTypeName_upperCamel {n : Name} (hn : n.Clean) (h : n.BeginsWithLetter) :
    isTypeName n.upperCamel = true :=
  isTypeName_of_words hn h (fun _ _ _ _ hw ha => exists_capitalized hw ha)
    fun w hw => isAlphanum_capitalized (hn.alphanum w hw)

theorem isTypeName_upperCamelWithAcronyms {n : Name} (hn : n.Clean) (h : n.BeginsWithLetter) :
    isTypeName n.upperCamelWithAcronyms = true := by
  refine isTypeName_of_words hn h (fun w hw c cs hc ha => ?_) fun w hw => ?_
  · split
    · rename_i hacronym
      have hlower := hn.acronym w hw hacronym c (hc ▸ List.mem_cons_self)
      exact ⟨c, cs, hc, by simpa [Char.isAlpha, hlower] using ha⟩
    · exact exists_capitalized hc ha
  · split
    · exact hn.alphanum w hw
    · exact isAlphanum_capitalized (hn.alphanum w hw)

theorem lowerUnderscoreChars_cons {n : Name} {w : Word} {ws : List Word} (h : n.words = w :: ws) :
    n.lowerUnderscoreChars = w.lower ++ ws.flatMap fun v => '_' :: v.lower := by
  rw [lowerUnderscoreChars, h, List.map_cons, Text.intercalate_cons, List.flatMap_map]

theorem isNamePart_of_mem_lowerUnderscoreChars {n : Name} (hn : n.Clean) {c : Char}
    (hc : c ∈ n.lowerUnderscoreChars) : c = '_' ∨ c.isAlphanum = true := by
  have hlower : ∀ w ∈ n.words, ∀ c ∈ w.lower, c.isAlphanum = true := by
    intro w hw c hc
    obtain ⟨d, hd, rfl⟩ := List.mem_map.1 hc
    exact isAlphanum_toLower (hn.alphanum w hw d hd)
  cases hw : n.words with
  | nil => simp [lowerUnderscoreChars, hw, List.intercalate] at hc
  | cons w ws =>
    rw [lowerUnderscoreChars_cons hw] at hc
    rw [hw] at hlower
    rcases List.mem_append.1 hc with hc | hc
    · exact .inr (hlower w List.mem_cons_self c hc)
    · obtain ⟨v, hv, hc⟩ := List.mem_flatMap.1 hc
      rcases List.mem_cons.1 hc with rfl | hc
      · exact .inl rfl
      · exact .inr (hlower v (List.mem_cons_of_mem _ hv) c hc)

theorem lowerUnderscoreChars_ne_nil {n : Name} (hn : n.Clean) (hne : n.words ≠ []) :
    n.lowerUnderscoreChars ≠ [] := by
  obtain ⟨w, ws, hw⟩ := List.exists_cons_of_ne_nil hne
  have hletters := hn.ne_nil w (hw ▸ List.mem_cons_self)
  rw [lowerUnderscoreChars_cons hw]
  simp [Word.lower, hletters]

theorem exists_lowerUnderscoreChars {n : Name} (hn : n.Clean) (h : n.BeginsWithLetter) :
    ∃ c cs, n.lowerUnderscoreChars = c :: cs ∧ c.isAlpha = true := by
  obtain ⟨w, ws, c, cs, hw, hc, ha⟩ := hn.cases h
  have hchars := lowerUnderscoreChars_cons hw
  rw [Word.lower, hc, List.map_cons, List.cons_append] at hchars
  exact ⟨c.toLower, _, hchars, by rwa [Char.isAlpha_toLower_eq_isAlpha]⟩

theorem isName_of_chars {c : Char} {cs : List Char} (hc : c.isAlpha = true)
    (hcs : ∀ x ∈ cs, x = '_' ∨ x.isAlphanum = true) : isName (String.ofList (c :: cs)) = true := by
  have hall : cs.all isNamePart = true := by
    refine List.all_eq_true.2 fun x hx => ?_
    rcases hcs x hx with rfl | hx
    · decide
    · rw [isNamePart, hx, Bool.true_or]
  rw [isName, String.toList_ofList]
  simp [Proto.Lexeme.isWordStart, hc, hall]

theorem isName_lowerUnderscore {n : Name} (hn : n.Clean) (h : n.BeginsWithLetter) :
    isName n.lowerUnderscore = true := by
  obtain ⟨c, cs, hc, ha⟩ := exists_lowerUnderscoreChars hn h
  rw [lowerUnderscore, hc]
  exact isName_of_chars ha fun x hx => isNamePart_of_mem_lowerUnderscoreChars hn
    (hc ▸ List.mem_cons_of_mem _ hx)

theorem isName_capitalizedLowerUnderscore {n : Name} (hn : n.Clean) (h : n.BeginsWithLetter) :
    isName n.capitalizedLowerUnderscore = true := by
  obtain ⟨c, cs, hc, ha⟩ := exists_lowerUnderscoreChars hn h
  rw [capitalizedLowerUnderscore, hc]
  refine isName_of_chars (by rwa [Char.isAlpha_toUpper_eq_isAlpha]) fun x hx =>
    isNamePart_of_mem_lowerUnderscoreChars hn (hc ▸ List.mem_cons_of_mem _ hx)

/-! ### Names of enum members -/

/-- Characters of the names of enum members. -/
def isMemberPart (c : Char) : Bool := isNamePart c && !c.isLower

theorem isMemberPart_of_mem_upperUnderscore {n : Name} (hn : n.Clean) {c : Char}
    (hc : c ∈ n.upperUnderscore.toList) : isMemberPart c = true := by
  rw [upperUnderscore, String.toList_ofList] at hc
  obtain ⟨d, hd, rfl⟩ := List.mem_map.1 hc
  rcases isNamePart_of_mem_lowerUnderscoreChars hn hd with rfl | hd
  · decide
  · simp [isMemberPart, isNamePart, isAlphanum_toUpper hd]

theorem upperUnderscore_ne_nil {n : Name} (hn : n.Clean) (hne : n.words ≠ []) :
    n.upperUnderscore.toList ≠ [] := by
  simpa [upperUnderscore] using lowerUnderscoreChars_ne_nil hn hne

end Name

/-- The name of an enum member: no digit comes first and no letter is small. -/
structure IsMemberName (s : String) : Prop where
  isName : isName s = true
  not_lower : ∀ c ∈ s.toList, c.isLower = false

theorem IsMemberName.not_keyword {s : String} (h : IsMemberName s) :
    s ≠ "option" ∧ s ≠ "reserved" := by
  constructor
  · rintro rfl
    exact absurd (h.not_lower 'o' (by decide)) (by decide)
  · rintro rfl
    exact absurd (h.not_lower 'r' (by decide)) (by decide)

theorem isMemberName_of_parts {s : String} (c : Char) (cs : List Char) (hs : s.toList = c :: cs)
    (hc : c.isDigit = false) (h : ∀ x ∈ s.toList, Name.isMemberPart x = true) :
    IsMemberName s := by
  rw [hs] at h
  have hpart : ∀ x ∈ c :: cs, isNamePart x = true ∧ x.isLower = false := fun x hx => by
    simpa [Name.isMemberPart] using h x hx
  refine ⟨?_, fun x hx => (hpart x (hs ▸ hx)).2⟩
  have hstart : Proto.Lexeme.isWordStart c = true := by
    simpa [isNamePart, Char.isAlphanum, hc, Proto.Lexeme.isWordStart]
      using (hpart c List.mem_cons_self).1
  unfold Proto.isName
  rw [hs]
  exact Bool.and_eq_true_iff.2
    ⟨hstart, List.all_eq_true.2 fun x hx => (hpart x (List.mem_cons_of_mem _ hx)).1⟩

/-! ## Names of the parts of a proto file -/

/-- The words of a value as the name of an enum member. A digit at the start gets an underscore
before it. -/
def Name.memberForm (n : Name) : String :=
  if n.upperUnderscore.toList.head?.any Char.isDigit then "_" ++ n.upperUnderscore
  else n.upperUnderscore

theorem enumMemberName_eq (value : String) :
    enumMemberName value = Name.memberForm <$> Name.ofIdentifier? value := by
  unfold enumMemberName
  cases Name.ofIdentifier? value <;> rfl

theorem Name.isMemberName_memberForm {n : Name} (hn : n.Clean) (hne : n.words ≠ []) :
    IsMemberName n.memberForm := by
  have hparts := fun c hc => Name.isMemberPart_of_mem_upperUnderscore hn (c := c) hc
  obtain ⟨c, cs, hc⟩ := List.exists_cons_of_ne_nil (Name.upperUnderscore_ne_nil hn hne)
  rw [Name.memberForm, hc, List.head?_cons, Option.any_some]
  cases hd : c.isDigit with
  | false => exact isMemberName_of_parts c cs hc hd hparts
  | true =>
    refine isMemberName_of_parts '_' n.upperUnderscore.toList (by simp) (by decide) ?_
    simpa using ⟨by decide, hparts⟩

theorem isMemberName_enumMemberName {value name : String} (h : enumMemberName value = .ok name) :
    IsMemberName name := by
  rw [enumMemberName_eq, Except.map_eq_ok_iff] at h
  obtain ⟨n, hn, rfl⟩ := h
  exact Name.isMemberName_memberForm (Name.clean_of_ofIdentifier? hn) (Name.eq_ofIdentifier hn).2

theorem isMemberName_undefined {n : Name} (hn : n.Clean) :
    IsMemberName ("UNDEFINED_" ++ n.upperUnderscore) := by
  have hparts := fun c hc => Name.isMemberPart_of_mem_upperUnderscore hn (c := c) hc
  have hstart : ∀ c ∈ "UNDEFINED_".toList, Name.isMemberPart c = true :=
    List.all_eq_true.1 (by decide)
  refine isMemberName_of_parts 'U' ("NDEFINED_".toList ++ n.upperUnderscore.toList)
    (by simp) (by decide) fun c hc => ?_
  rw [String.toList_append] at hc
  exact (List.mem_append.1 hc).elim (hstart c) (hparts c)

theorem isTypeName_of_fits {s : String} (h : Casing.upperCamel.fits s.toList = true) :
    isTypeName s = true := by
  obtain ⟨hhead, hall⟩ := Bool.and_eq_true_iff.1 h
  unfold Proto.isTypeName
  cases hs : s.toList with
  | nil => simp [hs] at hhead
  | cons c cs =>
    rw [hs] at hhead hall
    have hparts : ∀ x ∈ cs, isNamePart x = true := fun x hx => by
      rw [isNamePart, List.all_eq_true.1 hall x (List.mem_cons_of_mem _ hx), Bool.true_or]
    exact Bool.and_eq_true_iff.2 ⟨by simpa using hhead, List.all_eq_true.2 hparts⟩

theorem isTypeName_messageName {s name : String} (h : messageName s = .ok name)
    (hs : BeginsWithLetter s) : isTypeName name = true := by
  unfold messageName at h
  split at h
  · rename_i hfits
    exact Except.ok.inj h ▸ isTypeName_of_fits hfits
  · obtain ⟨n, hn, h⟩ := Except.bind_eq_ok_iff.1 h
    obtain rfl := Except.ok.inj h
    exact Name.isTypeName_upperCamelWithAcronyms (Name.clean_of_ofIdentifier? hn)
      (Name.beginsWithLetter_of_ofIdentifier? hn hs)

theorem isName_fieldName {s name : String} (h : fieldName s = .ok name)
    (hs : BeginsWithLetter s) : isName name = true := by
  obtain ⟨n, hn, h⟩ := Except.bind_eq_ok_iff.1 h
  obtain rfl := Except.ok.inj h
  have hclean := Name.clean_of_ofIdentifier? hn
  have hletter := Name.beginsWithLetter_of_ofIdentifier? hn hs
  split
  · exact Name.isName_capitalizedLowerUnderscore hclean hletter
  · exact Name.isName_lowerUnderscore hclean hletter

theorem isTypeName_serviceName {s name : String} (h : serviceName s = .ok name)
    (hs : BeginsWithLetter s) : isTypeName name = true := by
  obtain ⟨n, hn, h⟩ := Except.bind_eq_ok_iff.1 h
  obtain rfl := Except.ok.inj h
  exact Name.isTypeName_upperCamel (Name.clean_of_ofIdentifier? hn)
    (Name.beginsWithLetter_of_ofIdentifier? hn hs)

end DiscoveryGrpc
