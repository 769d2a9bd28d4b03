import DiscoveryGrpc.Proofs.Name.Equality

/-!
# Undoing camel casing

In camel case a word begins with a capital, and small letters and digits follow. If each word has
at least two characters, a capital always stands behind a small letter or a digit, so the text is cut
in front of each capital and nowhere else (`camelWords_flatten`). This is why names whose words
begin with a letter and have another character can be read back from both camel cased forms
(`same_ofFragments_camel`). A word of one letter can not always be told from an acronym.
-/

namespace DiscoveryGrpc

namespace Casing

theorem not_isUpper_of_isLowerOrDigit {c : Char} (h : isLowerOrDigit c = true) :
    c.isUpper = false := by
  rcases Bool.or_eq_true_iff.1 h with h | h
  · simpa using Char.not_isUpper_of_isLower h
  · exact Name.not_isUpper_of_isDigit h

/-- A text is cut behind a word of small letters and digits, whatever its first character is, if it
has another character and a capital follows. -/
theorem camelWords_append {c : Char} {cs rest : List Char}
    (h : ∀ d ∈ cs, isLowerOrDigit d = true) (hc : cs = [] → isLowerOrDigit c = true)
    (hrest : ∀ d ∈ rest.head?, d.isUpper = true) :
    camelWords (c :: cs ++ rest) = (c :: cs) :: camelWords rest := by
  induction cs generalizing c with
  | nil =>
    cases rest with
    | nil => rfl
    | cons d rest =>
      have hbegins : beginsWord c d rest.head? = true := by
        have hlower : (c.isLower || c.isDigit) = true := hc rfl
        simp [beginsWord, hrest d rfl, hlower]
      rw [List.cons_append, List.nil_append, camelWords, if_pos hbegins]
  | cons d ds ih =>
    obtain ⟨hd, hds⟩ := List.forall_mem_cons.1 h
    have hbegins : ¬beginsWord c d (ds ++ rest).head? = true := by
      simp [beginsWord, not_isUpper_of_isLowerOrDigit hd]
    have hwords := ih hds (fun _ => hd)
    rw [List.cons_append] at hwords
    rw [List.cons_append, List.cons_append, camelWords, if_neg hbegins, hwords]

/-- A word with at least two characters, small letters and digits behind the first. -/
def IsHump (w : List Char) : Prop :=
  ∃ c cs, w = c :: cs ∧ cs ≠ [] ∧ ∀ d ∈ cs, isLowerOrDigit d = true

/-- A text that is put together of words that begin with capitals, but for the first one, is cut
into these words. -/
theorem camelWords_flatten {ws : List (List Char)} (h : ∀ w ∈ ws, IsHump w)
    (hupper : ∀ w ∈ ws.tail, ∀ c ∈ w.head?, c.isUpper = true) : camelWords ws.flatten = ws := by
  induction ws with
  | nil => rfl
  | cons w ws ih =>
    obtain ⟨hw, hws⟩ := List.forall_mem_cons.1 h
    obtain ⟨c, cs, rfl, hne, hcs⟩ := hw
    have hrest : ∀ d ∈ ws.flatten.head?, d.isUpper = true := by
      cases ws with
      | nil => simp
      | cons v vs =>
        obtain ⟨d, ds, rfl, -⟩ := hws v List.mem_cons_self
        simpa using hupper (d :: ds) List.mem_cons_self
    have htail := ih hws fun v hv => hupper v (List.mem_of_mem_tail hv)
    rw [List.flatten_cons, camelWords_append hcs (fun hnil => absurd hnil hne) hrest, htail]

theorem fits_camel {casing : Casing} (hcasing : casing ≠ lowerUnderscore) {cs : List Char}
    (h : casing.fits cs = true) : camel.fits cs = true := by
  have hall : cs.all Char.isAlphanum = true := List.all_eq_true.2 (isAlphanum_of_fits hcasing h)
  have hne : cs ≠ [] := by
    rintro rfl
    cases casing with
    | lowerUnderscore => exact hcasing rfl
    | upperCamel | lowerCamel | camel => cases h
  simpa [fits, hne] using hall

end Casing

namespace Name

open Casing (IsHump camelWords)

theorem map_toLower_capitalized (w : Word) : w.capitalized.map Char.toLower = w.lower := by
  unfold Word.capitalized Word.lower
  cases w.letters with
  | nil => rfl
  | cons c cs => simp [Word.capitalize]

/-- A word that begins with a letter and has another character. -/
def IsLong (w : Word) : Prop := ∃ c d cs, w.letters = c :: d :: cs ∧ c.isAlpha = true

theorem isHump_lower {n : Name} (hn : n.Clean) {w : Word} (hw : w ∈ n.words) (hlong : IsLong w) :
    IsHump w.lower := by
  obtain ⟨c, d, cs, hletters, -⟩ := hlong
  have hlower : w.lower = c.toLower :: (d :: cs).map Char.toLower := by
    rw [Word.lower, hletters, List.map_cons]
  refine ⟨_, _, hlower, List.cons_ne_nil _ _, fun x hx => ?_⟩
  exact isLowerOrDigit_of_mem_lower hn (List.mem_map_of_mem hw) x
    (hlower ▸ List.mem_cons_of_mem _ hx)

theorem isHump_capitalized {w : Word} (h : IsHump w.lower) : IsHump w.capitalized := by
  obtain ⟨c, cs, hlower, hne, hcs⟩ := h
  exact ⟨c.toUpper, cs, by rw [Word.capitalized, hlower, Word.capitalize], hne, hcs⟩

theorem isUpper_of_mem_head?_capitalized {w : Word} (hlong : IsLong w) :
    ∀ c ∈ w.capitalized.head?, c.isUpper = true := by
  obtain ⟨c, d, cs, hletters, halpha⟩ := hlong
  obtain ⟨u, us, hu, hupper⟩ := exists_capitalized hletters halpha
  rw [hu]
  rintro _ ⟨⟩
  exact hupper

/-- A text whose words are those of a name but for casing is read as this name. -/
theorem exists_ofFragments_of_map_lower_eq {n : Name} {casing : Casing} {cs : List Char}
    (hfits : casing.fits cs = true)
    (hwords : (wordsOf casing cs).map Word.lower = n.words.map Word.lower) :
    ∃ m, ofFragments casing [String.ofList cs] = .ok m ∧ m.same n = true ∧
      m.words.length = n.words.length := by
  refine ⟨⟨wordsOf casing cs⟩, ofFragments_eq_ok_iff.2 ⟨by simpa using hfits, by simp⟩,
    same_iff.2 (lowerUnderscoreChars_congr hwords), ?_⟩
  simpa using congrArg List.length hwords

section Forms

variable {n : Name} (hn : n.Clean) (hlong : ∀ w ∈ n.words, IsLong w) {w : Word} {ws : List Word}
  (hwords : n.words = w :: ws) {first : List Char}
include hn hwords

theorem isAlphanum_of_mem_append (hfirst : ∀ c ∈ first, c.isAlphanum = true) :
    ∀ c ∈ first ++ ws.flatMap Word.capitalized, c.isAlphanum = true := by
  intro c hc
  rcases List.mem_append.1 hc with hc | hc
  · exact hfirst c hc
  · obtain ⟨v, hv, hc⟩ := List.mem_flatMap.1 hc
    exact isAlphanum_capitalized (hn.alphanum v (hwords ▸ List.mem_cons_of_mem w hv)) c hc

include hlong

/-- The words of a name in camel case, whatever casing the first one is in, are cut apart again. -/
theorem map_lower_wordsOf_append (hfirst : IsHump first) (hlower : first.map Char.toLower = w.lower)
    {casing : Casing} (hcasing : casing ≠ .lowerUnderscore) :
    (wordsOf casing (first ++ ws.flatMap Word.capitalized)).map Word.lower =
      n.words.map Word.lower := by
  rw [hwords, List.forall_mem_cons] at hlong
  have hws : ∀ v ∈ ws, v ∈ n.words := fun v hv => hwords ▸ List.mem_cons_of_mem w hv
  have hcut : camelWords (first ++ ws.flatMap Word.capitalized) =
      first :: ws.map Word.capitalized := by
    rw [List.flatMap_def, ← List.flatten_cons]
    refine Casing.camelWords_flatten (List.forall_mem_cons.2 ⟨hfirst, ?_⟩) ?_
    · exact List.forall_mem_map.2 fun v hv =>
        isHump_capitalized (isHump_lower hn (hws v hv) (hlong.2 v hv))
    · exact List.forall_mem_map.2 fun v hv => isUpper_of_mem_head?_capitalized (hlong.2 v hv)
  rw [map_lower_wordsOf hcasing, hcut, hwords, List.map_cons, List.map_cons, hlower, List.map_map]
  exact congrArg _ (List.map_congr_left fun v _ => map_toLower_capitalized v)

/-- A camel cased form of a name is read as the name, whether or not the casing of its first letter
is known. -/
theorem exists_ofFragments_of_fits (hfirst : IsHump first)
    (hlower : first.map Char.toLower = w.lower) {casing : Casing}
    (hcasing : casing ≠ .lowerUnderscore)
    (hfits : casing.fits (first ++ ws.flatMap Word.capitalized) = true) :
    ∀ casing' ∈ [Casing.camel, casing],
      ∃ m, ofFragments casing' [String.ofList (first ++ ws.flatMap Word.capitalized)] = .ok m ∧
        m.same n = true ∧ m.words.length = n.words.length := by
  have hread {casing' : Casing} (hcasing' : casing' ≠ .lowerUnderscore)
      (hfits' : casing'.fits (first ++ ws.flatMap Word.capitalized) = true) :=
    exists_ofFragments_of_map_lower_eq hfits'
      (map_lower_wordsOf_append hn hlong hwords hfirst hlower hcasing')
  exact List.forall_mem_cons.2 ⟨hread camel_ne_lowerUnderscore (Casing.fits_camel hcasing hfits),
    List.forall_mem_singleton.2 (hread hcasing hfits)⟩

end Forms

/-- A name whose words begin with a letter and have another character is read back from its camel
cased forms, with as many words, whether or not the casing of the first letter is known. -/
theorem same_ofFragments_camel {n : Name} (hn : n.Built) (hne : n.words ≠ [])
    (hlong : ∀ w ∈ n.words, IsLong w) :
    (∀ casing ∈ [Casing.camel, .upperCamel], ∃ m, ofFragments casing [n.upperCamel] = .ok m ∧
      m.same n = true ∧ m.words.length = n.words.length) ∧
    ∀ casing ∈ [Casing.camel, .lowerCamel], ∃ m, ofFragments casing [n.lowerCamel] = .ok m ∧
      m.same n = true ∧ m.words.length = n.words.length := by
  obtain ⟨w, ws, hwords⟩ := List.exists_cons_of_ne_nil hne
  have hclean := hn.clean
  have hw : w ∈ n.words := hwords ▸ List.mem_cons_self
  have halphanum := hclean.alphanum w hw
  have hhump := isHump_lower hclean hw (hlong w hw)
  obtain ⟨c, d, cs, hletters, halpha⟩ := hlong w hw
  constructor
  · rw [upperCamel, hwords, List.flatMap_cons, ← hwords]
    refine exists_ofFragments_of_fits hclean hlong hwords (isHump_capitalized hhump)
      (map_toLower_capitalized w) (by decide) (Bool.and_eq_true_iff.2 ⟨?_, List.all_eq_true.2
        (isAlphanum_of_mem_append hclean hwords (isAlphanum_capitalized halphanum))⟩)
    obtain ⟨u, us, hu, hupper⟩ := exists_capitalized hletters halpha
    simp [hu, hupper]
  · have hform : n.lowerCamel = String.ofList (w.lower ++ ws.flatMap Word.capitalized) := by
      rw [lowerCamel, hwords]
    rw [hform]
    refine exists_ofFragments_of_fits hclean hlong hwords hhump (by simp [Word.lower])
      (by decide) (Bool.and_eq_true_iff.2 ⟨?_, List.all_eq_true.2
        (isAlphanum_of_mem_append hclean hwords fun x hx => ?_)⟩)
    · simp [Word.lower, hletters, halpha]
    · obtain ⟨y, hy, rfl⟩ := List.mem_map.1 hx
      exact isAlphanum_toLower (halphanum y hy)

/-- The name of the fragment `SSLCert2Ref`. -/
def certRef : Name :=
  ⟨[⟨"SSL".toList, true⟩, ⟨"Cert2".toList, false⟩, ⟨"Ref".toList, false⟩]⟩

theorem same_ofFragments_camel_certRef :
    (certRef.Built ∧ certRef.words ≠ [] ∧ ∀ w ∈ certRef.words, IsLong w) ∧
    (∃ m, ofFragments .camel ["SslCert2Ref"] = .ok m ∧ m.same certRef = true ∧
      m.words.length = 3) ∧
    ∃ m, ofFragments .lowerCamel ["sslCert2Ref"] = .ok m ∧ m.same certRef = true ∧
      m.words.length = 3 := by
  have hbuilt : certRef.Built :=
    .ofFragments (show ofFragments .camel ["SSLCert2Ref"] = .ok _ from rfl)
  have hne : certRef.words ≠ [] := List.cons_ne_nil _ _
  have hlong : ∀ w ∈ certRef.words, IsLong w :=
    List.forall_mem_cons.2 ⟨⟨'S', 'S', ['L'], rfl, by decide⟩, List.forall_mem_cons.2
      ⟨⟨'C', 'e', "rt2".toList, rfl, by decide⟩, List.forall_mem_singleton.2
        ⟨'R', 'e', ['f'], rfl, by decide⟩⟩⟩
  obtain ⟨hupper, hlower⟩ := same_ofFragments_camel hbuilt hne hlong
  exact ⟨⟨hbuilt, hne, hlong⟩, hupper .camel (by simp), hlower .lowerCamel (by simp)⟩

end Name

end DiscoveryGrpc
