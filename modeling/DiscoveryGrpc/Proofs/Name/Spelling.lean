import DiscoveryGrpc.Proofs.Name.Identifier

/-!
# Identifiers that keep their spelling

A name is taken apart at its underscores and at its capitals, and put together again. In a text in
which all letters are small, or all are capitals, a word begins behind an underscore, or with a
capital that stands behind a digit (`flatMap_camelWords`). So names come out with one more
underscore in each of these places, and as they were where there is none (`names_kept`).
-/

namespace DiscoveryGrpc

namespace Casing

/-- A text with an underscore between each digit and a capital right behind it. -/
def spaced : List Char → List Char
  | [] => []
  | [c] => [c]
  | c :: d :: cs =>
    if c.isDigit && d.isUpper then c :: '_' :: spaced (d :: cs) else c :: spaced (d :: cs)

theorem spaced_cons {c : Char} (h : c.isDigit = false) (cs : List Char) :
    spaced (c :: cs) = c :: spaced cs := by
  cases cs with
  | nil => rfl
  | cons d cs => rw [spaced, h, Bool.false_and, if_neg Bool.false_ne_true]

theorem head?_spaced (cs : List Char) : (spaced cs).head? = cs.head? := by
  fun_cases spaced cs <;> rfl

theorem spaced_append {cs : List Char} (h : ∀ c ∈ cs.head?, c.isUpper = false) (w : List Char) :
    spaced (w ++ cs) = spaced w ++ spaced cs := by
  fun_induction spaced w with
  | case1 => rfl
  | case2 c =>
    cases cs with
    | nil => rfl
    | cons d cs => simp [spaced, h d rfl]
  | case3 c d w hbreak ih =>
    rw [List.cons_append, List.cons_append, spaced, if_pos hbreak, ← List.cons_append, ih]
    rfl
  | case4 c d w hbreak ih =>
    rw [List.cons_append, List.cons_append, spaced, if_neg hbreak, ← List.cons_append, ih]
    rfl

/-- Words behind underscores are spaced one by one. -/
theorem spaced_flatMap (ws : List (List Char)) :
    spaced (ws.flatMap ('_' :: ·)) = ws.flatMap fun w => '_' :: spaced w := by
  induction ws with
  | nil => rfl
  | cons w ws ih =>
    have hhead : ∀ c ∈ (ws.flatMap ('_' :: ·)).head?, c.isUpper = false := by
      cases ws with
      | nil => simp
      | cons v vs => simp
    rw [List.flatMap_cons, spaced_append hhead, ih, spaced_cons rfl, List.flatMap_cons]

/-- Spacing changes nothing just if no capital is right behind a digit. -/
theorem spaced_eq_self_iff (cs : List Char) :
    spaced cs = cs ↔ cs.IsChain fun c d => c.isDigit = true → d.isUpper = false := by
  fun_induction spaced cs with
  | case1 => simp
  | case2 c => simp
  | case3 c d cs hbreak ih =>
    obtain ⟨hdigit, hupper⟩ := Bool.and_eq_true_iff.1 hbreak
    constructor
    · intro heq
      obtain ⟨rfl, -⟩ := List.cons.inj (List.cons.inj heq).2
      cases hupper
    · intro hchain
      rw [(List.isChain_cons_cons.1 hchain).1 hdigit] at hupper
      cases hupper
  | case4 c d cs hbreak ih =>
    have hpair : c.isDigit = true → d.isUpper = false := by simpa using hbreak
    rw [List.cons_inj_right, ih, List.isChain_cons_cons]
    exact (and_iff_right hpair).symm

theorem mem_spaced {c : Char} {cs : List Char} (h : c ∈ spaced cs) : c = '_' ∨ c ∈ cs := by
  fun_induction spaced cs with
  | case1 => exact .inr h
  | case2 d => exact .inr h
  | case3 d e cs hbreak ih =>
    rcases List.mem_cons.1 h with rfl | h
    · exact .inr List.mem_cons_self
    · rcases List.mem_cons.1 h with rfl | h
      · exact .inl rfl
      · exact (ih h).imp_right (List.mem_cons_of_mem _)
  | case4 d e cs hbreak ih =>
    rcases List.mem_cons.1 h with rfl | h
    · exact .inr List.mem_cons_self
    · exact (ih h).imp_right (List.mem_cons_of_mem _)

/-- No letter of a text is small, or none is a capital. -/
def IsOneCase (cs : List Char) : Prop :=
  (∀ c ∈ cs, c.isLower = false) ∨ ∀ c ∈ cs, c.isUpper = false

theorem IsOneCase.mono {cs ds : List Char} (h : IsOneCase cs) (hds : ∀ d ∈ ds, d ∈ cs) :
    IsOneCase ds :=
  h.imp (fun h d hd => h d (hds d hd)) fun h d hd => h d (hds d hd)

theorem beginsWord_of_isOneCase {c d : Char} {cs : List Char} (h : IsOneCase (c :: d :: cs)) :
    beginsWord c d cs.head? = (c.isDigit && d.isUpper) := by
  rcases h with h | h
  · have hafter : cs.head?.any Char.isLower = false := by
      cases cs with
      | nil => rfl
      | cons e cs => exact h e (by simp)
    simp [beginsWord, h c, hafter, Bool.and_comm]
  · simp [beginsWord, h d]

/-- Where all letters are in one case, the words begin with the capitals behind digits. -/
theorem flatMap_camelWords {cs : List Char} (hne : cs ≠ []) (h : IsOneCase cs) :
    (camelWords cs).flatMap ('_' :: ·) = '_' :: spaced cs := by
  fun_induction camelWords cs with
  | case1 => exact absurd rfl hne
  | case2 c => rfl
  | case3 c d cs hbegins ih =>
    rw [beginsWord_of_isOneCase h] at hbegins
    have htail := ih (List.cons_ne_nil d cs) (h.mono fun e => List.mem_cons_of_mem c)
    rw [List.flatMap_cons, htail, spaced, if_pos hbegins]
    rfl
  | case4 c d cs _ hwords => exact absurd hwords (camelWords_cons_ne_nil d cs)
  | case5 c d cs hbegins w ws hwords ih =>
    rw [beginsWord_of_isOneCase h] at hbegins
    have htail := ih (List.cons_ne_nil d cs) (h.mono fun e => List.mem_cons_of_mem c)
    rw [hwords, List.flatMap_cons, List.cons_append] at htail
    rw [List.flatMap_cons, spaced, if_neg hbegins, ← List.tail_eq_of_cons_eq htail]
    rfl

theorem flatMap_flatMap_camelWords {vs : List (List Char)}
    (h : ∀ v ∈ vs, v ≠ [] ∧ IsOneCase v) :
    (vs.flatMap camelWords).flatMap ('_' :: ·) = spaced (vs.flatMap ('_' :: ·)) := by
  rw [List.flatMap_assoc, spaced_flatMap]
  exact List.flatMap_congr fun v hv => flatMap_camelWords (h v hv).1 (h v hv).2

end Casing

open Casing (spaced IsOneCase camelWords)

/-- A text of words with single underscores between them, all of letters of a class and of digits.
The first word begins with a letter. -/
def Underscored (letter : Char → Bool) (s : String) : Prop :=
  ∃ w ws, s.toList = w ++ ws.flatMap ('_' :: ·) ∧ (∀ c ∈ w.head?, letter c = true) ∧
    ∀ v ∈ w :: ws, v ≠ [] ∧ ∀ c ∈ v, letter c = true ∨ c.isDigit = true

/-- A capital and then letters and digits. -/
def Capitalized (s : String) : Prop :=
  ∃ c cs, s.toList = c :: cs ∧ c.isUpper = true ∧ ∀ d ∈ cs, d.isAlphanum = true

namespace Name

/-- The words of an identifier that is made of words and underscores are those of its words. -/
theorem fragmentChars_of_eq {s : String} {w : List Char} {ws : List (List Char)}
    (hs : s.toList = w ++ ws.flatMap ('_' :: ·))
    (hwords : ∀ v ∈ w :: ws, v ≠ [] ∧ ∀ c ∈ v, c.isAlphanum = true) :
    Identifier.fragmentChars s = w :: ws := by
  rw [Identifier.fragmentChars, hs, ← Text.intercalate_cons,
    Text.splitBy_intercalate rfl (List.cons_ne_nil w ws) fun v hv c hc => by
      simp [(hwords v hv).2 c hc]]
  exact List.filter_eq_self.2 fun v hv => by simpa using (hwords v hv).1

theorem cons_lowerUnderscoreChars {n : Name} (hne : n.words ≠ []) :
    '_' :: n.lowerUnderscoreChars = (n.words.map Word.lower).flatMap ('_' :: ·) := by
  obtain ⟨w, ws, hw⟩ := List.exists_cons_of_ne_nil hne
  rw [lowerUnderscoreChars_cons hw, hw, List.map_cons, List.flatMap_cons, List.flatMap_map]
  rfl

theorem map_lower_ofIdentifier (s : String) :
    (ofIdentifier s).words.map Word.lower =
      ((Identifier.fragmentChars s).flatMap camelWords).map (List.map Char.toLower) := by
  rw [ofIdentifier, List.map_flatMap, List.map_flatMap]
  simp only [map_lower_wordsOf camel_ne_lowerUnderscore]

end Name

namespace Underscored

variable {letter : Char → Bool} {s : String}

theorem forall_mem (h : Underscored letter s) {p : Char → Prop}
    (hletter : ∀ c, letter c = true → p c) (hdigit : ∀ c, c.isDigit = true → p c) (hline : p '_') :
    ∀ c ∈ s.toList, p c := by
  obtain ⟨w, ws, hs, -, hwords⟩ := h
  intro c hc
  rw [hs, List.mem_append] at hc
  rcases hc with hc | hc
  · exact ((hwords w List.mem_cons_self).2 c hc).elim (hletter c) (hdigit c)
  · obtain ⟨v, hv, hc⟩ := List.mem_flatMap.1 hc
    rcases List.mem_cons.1 hc with rfl | hc
    · exact hline
    · exact ((hwords v (List.mem_cons_of_mem _ hv)).2 c hc).elim (hletter c) (hdigit c)

theorem exists_head? (h : Underscored letter s) :
    ∃ c, s.toList.head? = some c ∧ letter c = true := by
  obtain ⟨w, ws, hs, hhead, hwords⟩ := h
  obtain ⟨c, cs, rfl⟩ := List.exists_cons_of_ne_nil (hwords w List.mem_cons_self).1
  exact ⟨c, by rw [hs]; rfl, hhead c rfl⟩

/-- The lower underscore form of a text with underscores has one more underscore in front of each
word that begins with a capital behind a digit. -/
theorem exists_name (h : Underscored letter s) (hletter : ∀ c, letter c = true → c.isAlpha = true)
    (hcase : IsOneCase s.toList) :
    ∃ n, Name.ofIdentifier? s = .ok n ∧
      n.lowerUnderscoreChars = (spaced s.toList).map Char.toLower := by
  obtain ⟨c, hc, hstart⟩ := h.exists_head?
  obtain ⟨w, ws, hs, -, hwords⟩ := h
  obtain ⟨n, hn⟩ := (Name.exists_ofIdentifier?_iff s).2
    ⟨c, List.mem_of_mem_head? hc, by simp [Char.isAlphanum, hletter c hstart]⟩
  obtain ⟨rfl, hne⟩ := Name.eq_ofIdentifier hn
  have hfragments : Identifier.fragmentChars s = w :: ws :=
    Name.fragmentChars_of_eq hs fun v hv => ⟨(hwords v hv).1, fun c hc => by
      rcases (hwords v hv).2 c hc with h | h <;> simp [Char.isAlphanum, h, hletter]⟩
  have hcases : ∀ v ∈ w :: ws, v ≠ [] ∧ IsOneCase v := by
    refine fun v hv => ⟨(hwords v hv).1, hcase.mono fun d hd => ?_⟩
    rw [hs]
    rcases List.mem_cons.1 hv with rfl | hv
    · exact List.mem_append_left _ hd
    · exact List.mem_append_right _ (List.mem_flatMap.2 ⟨v, hv, List.mem_cons_of_mem _ hd⟩)
  refine ⟨_, hn, (List.cons_inj_right '_').1 ?_⟩
  calc '_' :: (Name.ofIdentifier s).lowerUnderscoreChars
    _ = (((w :: ws).flatMap camelWords).map (List.map Char.toLower)).flatMap ('_' :: ·) := by
      rw [Name.cons_lowerUnderscoreChars hne, Name.map_lower_ofIdentifier, hfragments]
    _ = (((w :: ws).flatMap camelWords).flatMap ('_' :: ·)).map Char.toLower := by
      rw [List.flatMap_map, List.map_flatMap]
      rfl
    _ = ('_' :: spaced s.toList).map Char.toLower := by
      rw [Casing.flatMap_flatMap_camelWords hcases, List.flatMap_cons, List.cons_append,
        Casing.spaced_cons rfl, hs]
    _ = '_' :: (spaced s.toList).map Char.toLower := rfl

end Underscored

theorem fieldName_of_underscored {s : String} (h : Underscored Char.isLower s) :
    fieldName s = .ok s := by
  have hupper : ∀ c ∈ s.toList, c.isUpper = false :=
    h.forall_mem (fun c hc => by simpa using Char.not_isUpper_of_isLower hc)
      (fun c => Name.not_isUpper_of_isDigit) rfl
  obtain ⟨n, hn, hchars⟩ := h.exists_name (fun c hc => by simp [Char.isAlpha, hc]) (.inr hupper)
  obtain ⟨c, hc, -⟩ := h.exists_head?
  have hstart : startsUpper s = false := by
    rw [startsUpper, hc]
    exact hupper c (List.mem_of_mem_head? hc)
  have hspaced : spaced s.toList = s.toList :=
    (Casing.spaced_eq_self_iff s.toList).2 (List.Pairwise.isChain
      (List.pairwise_of_forall_mem_list fun c _ d hd _ => hupper d hd))
  have hlower : s.toList.map Char.toLower = s.toList :=
    (List.map_congr_left fun c hc =>
      Char.toLower_eq_of_not_isUpper (by simp [hupper c hc])).trans (List.map_id' _)
  have hname : n.lowerUnderscore = s := by
    rw [Name.lowerUnderscore, hchars, hspaced, hlower, String.ofList_toList]
  rw [fieldName, hn]
  simp [hstart, hname]

theorem enumMemberName_of_underscored {s : String} (h : Underscored Char.isUpper s) :
    enumMemberName s = .ok (String.ofList (spaced s.toList)) := by
  have hlower : ∀ c ∈ s.toList, c.isLower = false :=
    h.forall_mem (fun c hc => by simpa using Char.not_isLower_of_isUpper hc)
      (fun c => Name.not_isLower_of_isDigit) rfl
  obtain ⟨n, hn, hchars⟩ := h.exists_name (fun c hc => by simp [Char.isAlpha, hc]) (.inl hlower)
  obtain ⟨c, hc, hstart⟩ := h.exists_head?
  have hupper : (spaced s.toList).map (Char.toUpper ∘ Char.toLower) = spaced s.toList := by
    refine (List.map_congr_left fun d hd => ?_).trans (List.map_id' _)
    have hd : d.isLower = false := by
      rcases Casing.mem_spaced hd with rfl | hd
      · rfl
      · exact hlower d hd
    rw [Function.comp_apply, Char.toUpper_toLower_eq_toUpper,
      Char.toUpper_eq_of_not_isLower (by simp [hd])]
  have hname : n.upperUnderscore = String.ofList (spaced s.toList) := by
    rw [Name.upperUnderscore, hchars, List.map_map, hupper]
  have hdigit : c.isDigit = false := by
    cases h : c.isDigit with
    | false => rfl
    | true => rw [Name.not_isUpper_of_isDigit h] at hstart; cases hstart
  rw [enumMemberName_eq, hn]
  simp [Name.memberForm, hname, Casing.head?_spaced, hc, hdigit]

theorem messageName_of_capitalized {s : String} (h : Capitalized s) :
    messageName s = .ok s := by
  obtain ⟨c, cs, hs, hc, hcs⟩ := h
  have hall : (c :: cs).all Char.isAlphanum = true :=
    List.all_eq_true.2 (List.forall_mem_cons.2 ⟨by simp [Char.isAlphanum, Char.isAlpha, hc], hcs⟩)
  have hfits : Casing.upperCamel.fits s.toList = true := by
    rw [hs, Casing.fits, hall, List.head?_cons, Option.any_some, hc]
    rfl
  rw [messageName, if_pos hfits]

/-- Names in the casing of messages and of fields are kept. A name in the casing of enum members
gets an underscore between each digit and a capital right behind it, and keeps all its characters;
so it is kept just if there is no such place. -/
theorem names_kept (s : String) :
    (Capitalized s → messageName s = .ok s) ∧
    (Underscored Char.isLower s → fieldName s = .ok s) ∧
    (Underscored Char.isUpper s →
      enumMemberName s = .ok (String.ofList (spaced s.toList)) ∧
      (enumMemberName s = .ok s ↔
        s.toList.IsChain fun c d => c.isDigit = true → d.isUpper = false)) := by
  refine ⟨messageName_of_capitalized, fieldName_of_underscored, fun hs => ?_⟩
  have hname := enumMemberName_of_underscored hs
  refine ⟨hname, ?_⟩
  rw [hname, Except.ok.injEq, ← Casing.spaced_eq_self_iff, ← String.toList_inj,
    String.toList_ofList]

theorem capitalized_ipv4 : Capitalized "IPv4" := ⟨'I', ['P', 'v', '4'], rfl, by decide, by simp⟩

theorem underscored_ipv4_range : Underscored Char.isLower "ipv4_range" :=
  ⟨['i', 'p', 'v', '4'], [['r', 'a', 'n', 'g', 'e']], rfl, by simp, by simp⟩

theorem underscored_sha256_rsa : Underscored Char.isUpper "SHA256_RSA" :=
  ⟨['S', 'H', 'A', '2', '5', '6'], [['R', 'S', 'A']], rfl, by simp, by simp⟩

theorem names_kept_sha256Rsa :
    (Capitalized "IPv4" ∧ Underscored Char.isLower "ipv4_range" ∧
      Underscored Char.isUpper "SHA256_RSA") ∧
    messageName "IPv4" = .ok "IPv4" ∧ fieldName "ipv4_range" = .ok "ipv4_range" ∧
    enumMemberName "SHA256_RSA" = .ok "SHA256_RSA" :=
  ⟨⟨capitalized_ipv4, underscored_ipv4_range, underscored_sha256_rsa⟩,
    (names_kept _).1 capitalized_ipv4, (names_kept _).2.1 underscored_ipv4_range,
    ((names_kept _).2.2 underscored_sha256_rsa).2.2 (by decide)⟩

/-- A value of capitals and digits that gets another name: a capital behind a digit begins a
word. -/
theorem enumMemberName_sha256Rsa_ne :
    Underscored Char.isUpper "SHA256RSA" ∧ enumMemberName "SHA256RSA" = .ok "SHA256_RSA" ∧
      enumMemberName "SHA256RSA" ≠ .ok "SHA256RSA" :=
  ⟨⟨['S', 'H', 'A', '2', '5', '6', 'R', 'S', 'A'], [], rfl, by simp, by simp⟩, rfl,
    fun h => absurd (Except.ok.inj h) (by decide)⟩

end DiscoveryGrpc
