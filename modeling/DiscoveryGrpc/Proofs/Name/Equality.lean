import DiscoveryGrpc.Proofs.Name

/-!
# When two names are the same

Names are compared by their lower underscore form. No word of a name that is built of fragments is
empty or has an underscore in it (`Built.clean`), so this form can be cut into the words again, in
lower case (`underscoreWords_lowerUnderscoreChars`). Hence two names are the same just if they have
the same words but for casing, and then they agree in every rendering but the one that leaves
acronyms alone (`same_iff_of_built`).
-/

namespace DiscoveryGrpc

namespace Casing

theorem isLowerOrDigit_toLower {c : Char} (h : c.isAlphanum = true) :
    isLowerOrDigit c.toLower = true := by
  rw [isLowerOrDigit, Char.isLower_toLower_eq_isAlpha]
  cases ha : c.isAlpha with
  | true => rfl
  | false =>
    have hd : c.isDigit = true := by simpa [Char.isAlphanum, ha] using h
    have hu : ¬c.isUpper = true := fun hu => by simp [Char.isAlpha, hu] at ha
    rw [Char.toLower_eq_of_not_isUpper hu, hd, Bool.or_true]

theorem isAlphanum_of_isLowerOrDigit {c : Char} (h : isLowerOrDigit c = true) :
    c.isAlphanum = true := by
  rcases Bool.or_eq_true_iff.1 h with h | h <;> simp [Char.isAlphanum, Char.isAlpha, h]

theorem isAlphanum_of_fits {casing : Casing} (hcasing : casing ≠ lowerUnderscore) {cs : List Char}
    (h : casing.fits cs = true) : ∀ c ∈ cs, c.isAlphanum = true := by
  cases casing with
  | lowerUnderscore => exact absurd rfl hcasing
  | upperCamel | lowerCamel | camel => exact List.all_eq_true.1 (Bool.and_eq_true_iff.1 h).2

end Casing

namespace Name

open Casing (isLowerOrDigit underscoreWords camelWords)

/-! ## Names from fragments -/

theorem ofFragments_cons (casing : Casing) (f : String) (fs : List String) :
    ofFragments casing (f :: fs) =
      if casing.fits f.toList then
        (append ⟨wordsOf casing f.toList⟩ ·) <$> ofFragments casing fs
      else .error (.fragment f casing) := by
  unfold ofFragments
  rw [List.mapM_cons]
  split
  · generalize fs.mapM (m := Except Fault) _ = words
    cases words <;> rfl
  · rfl

/-- Fragments have a name just if all of them are in the casing: that of all their words. -/
theorem ofFragments_eq_ok_iff {casing : Casing} {fragments : List String} {n : Name} :
    ofFragments casing fragments = .ok n ↔ (∀ f ∈ fragments, casing.fits f.toList = true) ∧
      n = ⟨fragments.flatMap fun f => wordsOf casing f.toList⟩ := by
  induction fragments generalizing n with
  | nil => exact ⟨fun h => ⟨List.forall_mem_nil _, (Except.ok.inj h).symm⟩, fun h => h.2 ▸ rfl⟩
  | cons f fs ih =>
    rw [ofFragments_cons, List.forall_mem_cons]
    split
    · rename_i hf
      simp only [Except.map_eq_ok_iff, ih, hf, true_and]
      constructor
      · rintro ⟨m, ⟨hfs, rfl⟩, rfl⟩
        exact ⟨hfs, rfl⟩
      · rintro ⟨hfs, rfl⟩
        exact ⟨_, ⟨hfs, rfl⟩, rfl⟩
    · rename_i hf
      simp [hf]

theorem clean_wordsOf {casing : Casing} {cs : List Char} (h : casing.fits cs = true) :
    (Name.mk (wordsOf casing cs)).Clean := by
  by_cases hcasing : casing = .lowerUnderscore
  · subst hcasing
    have hword : ∀ w ∈ wordsOf .lowerUnderscore cs,
        w.acronym = false ∧ w.letters ≠ [] ∧ ∀ c ∈ w.letters, isLowerOrDigit c = true := by
      intro w hw
      obtain ⟨letters, hletters, rfl⟩ := List.mem_map.1 hw
      exact ⟨rfl, by simpa using List.all_eq_true.1 h letters hletters⟩
    exact {
      ne_nil := fun w hw => (hword w hw).2.1
      alphanum := fun w hw c hc => Casing.isAlphanum_of_isLowerOrDigit ((hword w hw).2.2 c hc)
      acronym := fun w hw ha => absurd ha (by simp [(hword w hw).1]) }
  · refine ⟨fun w hw => ne_nil_of_mem_wordsOf hcasing hw, fun w hw c hc => ?_,
      fun w hw => not_isLower_of_acronym hcasing hw⟩
    have hmem : c ∈ (wordsOf casing cs).flatMap (·.letters) := List.mem_flatMap.2 ⟨w, hw, hc⟩
    rw [flatMap_letters_wordsOf hcasing] at hmem
    exact Casing.isAlphanum_of_fits hcasing h c hmem

theorem clean_of_ofFragments {casing : Casing} {fragments : List String} {n : Name}
    (h : ofFragments casing fragments = .ok n) : n.Clean := by
  obtain ⟨hfits, rfl⟩ := ofFragments_eq_ok_iff.1 h
  have hword : ∀ w ∈ fragments.flatMap fun f => wordsOf casing f.toList,
      ∃ f ∈ fragments, w ∈ wordsOf casing f.toList := fun w => List.mem_flatMap.1
  refine ⟨fun w hw => ?_, fun w hw => ?_, fun w hw => ?_⟩ <;>
    obtain ⟨f, hf, hw⟩ := hword w hw
  · exact (clean_wordsOf (hfits f hf)).ne_nil w hw
  · exact (clean_wordsOf (hfits f hf)).alphanum w hw
  · exact (clean_wordsOf (hfits f hf)).acronym w hw

/-- The names that can be built: of fragments in one casing, and of two such names, one after the
other. -/
inductive Built : Name → Prop
  | ofFragments {casing : Casing} {fragments : List String} {n : Name}
      (h : ofFragments casing fragments = .ok n) : Built n
  | append {a b : Name} (ha : Built a) (hb : Built b) : Built (a.append b)

theorem Built.clean {n : Name} (h : n.Built) : n.Clean := by
  induction h with
  | ofFragments h => exact clean_of_ofFragments h
  | append _ _ iha ihb => exact iha.append ihb

/-! ## The lower underscore form -/

theorem isLowerOrDigit_of_mem_lower {n : Name} (hn : n.Clean) {w : List Char}
    (hw : w ∈ n.words.map Word.lower) : ∀ c ∈ w, isLowerOrDigit c = true := by
  obtain ⟨v, hv, rfl⟩ := List.mem_map.1 hw
  intro c hc
  obtain ⟨d, hd, rfl⟩ := List.mem_map.1 hc
  exact Casing.isLowerOrDigit_toLower (hn.alphanum v hv d hd)

/-- Cutting the lower underscore form gives the words back, in lower case. -/
theorem underscoreWords_lowerUnderscoreChars {n : Name} (hn : n.Clean) (hne : n.words ≠ []) :
    underscoreWords n.lowerUnderscoreChars = n.words.map Word.lower := by
  refine Text.splitBy_intercalate rfl (by simpa using hne) fun w hw c hc => ?_
  have hlower := isLowerOrDigit_of_mem_lower hn hw c hc
  exact beq_eq_false_iff_ne.2 fun h => absurd (h ▸ hlower) (by decide)

theorem lowerUnderscoreChars_congr {a b : Name}
    (h : a.words.map Word.lower = b.words.map Word.lower) :
    a.lowerUnderscoreChars = b.lowerUnderscoreChars := by
  rw [lowerUnderscoreChars, h, lowerUnderscoreChars]

theorem lowerUnderscoreChars_eq_nil_iff {n : Name} (hn : n.Clean) :
    n.lowerUnderscoreChars = [] ↔ n.words = [] := by
  refine ⟨fun h => ?_, fun h => by simp [lowerUnderscoreChars, h]⟩
  by_contra hne
  exact lowerUnderscoreChars_ne_nil hn hne h

/-- The lower underscore form determines the words but for casing. -/
theorem map_lower_eq {a b : Name} (ha : a.Clean) (hb : b.Clean)
    (h : a.lowerUnderscoreChars = b.lowerUnderscoreChars) :
    a.words.map Word.lower = b.words.map Word.lower := by
  by_cases hne : a.words = []
  · have hnil := (lowerUnderscoreChars_eq_nil_iff ha).2 hne
    rw [hne, (lowerUnderscoreChars_eq_nil_iff hb).1 (h ▸ hnil)]
  · have hne' : b.words ≠ [] := fun hnil =>
      lowerUnderscoreChars_ne_nil ha hne (h.trans ((lowerUnderscoreChars_eq_nil_iff hb).2 hnil))
    rw [← underscoreWords_lowerUnderscoreChars ha hne,
      ← underscoreWords_lowerUnderscoreChars hb hne', h]

theorem same_iff {a b : Name} :
    a.same b = true ↔ a.lowerUnderscoreChars = b.lowerUnderscoreChars := by
  rw [same, beq_iff_eq, lowerUnderscore, lowerUnderscore, String.ofList_inj]

theorem fits_lowerUnderscoreChars {n : Name} (hn : n.Clean) (hne : n.words ≠ []) :
    Casing.lowerUnderscore.fits n.lowerUnderscoreChars = true := by
  rw [Casing.fits, underscoreWords_lowerUnderscoreChars hn hne, List.all_eq_true]
  intro w hw
  have hall : w.all isLowerOrDigit = true :=
    List.all_eq_true.2 (isLowerOrDigit_of_mem_lower hn hw)
  obtain ⟨v, hv, rfl⟩ := List.mem_map.1 hw
  exact Bool.and_eq_true_iff.2 ⟨by simp [Word.lower, hn.ne_nil v hv], hall⟩

/-- The lower underscore form is read as the same name. -/
theorem exists_ofFragments_lowerUnderscore {n : Name} (hn : n.Clean) (hne : n.words ≠ []) :
    ∃ m, ofFragments .lowerUnderscore [n.lowerUnderscore] = .ok m ∧ m.same n = true := by
  have hwords : (wordsOf .lowerUnderscore n.lowerUnderscoreChars).map Word.lower =
      n.words.map Word.lower := by
    rw [wordsOf, underscoreWords_lowerUnderscoreChars hn hne, List.map_map, List.map_map]
    exact List.map_congr_left fun w _ => by simp [Word.lower]
  refine ⟨⟨wordsOf .lowerUnderscore n.lowerUnderscoreChars⟩,
    ofFragments_eq_ok_iff.2 ⟨?_, by simp [lowerUnderscore]⟩,
    same_iff.2 (lowerUnderscoreChars_congr hwords)⟩
  simpa [lowerUnderscore] using fits_lowerUnderscoreChars hn hne

/-- The lower underscore form without its underscores has the letters of the name. -/
theorem filter_lowerUnderscoreChars {n : Name} (hn : n.Clean) :
    n.lowerUnderscoreChars.filter (· != '_') = n.letters.map Char.toLower := by
  rw [letters, List.map_flatMap]
  by_cases hne : n.words = []
  · simp [hne, (lowerUnderscoreChars_eq_nil_iff hn).2 hne]
  · have hflat := Text.flatten_splitBy (· == '_') n.lowerUnderscoreChars
    rw [← underscoreWords, underscoreWords_lowerUnderscoreChars hn hne, ← List.flatMap_def] at hflat
    exact hflat.symm

theorem letters_of_ofFragments {casing : Casing} (hcasing : casing ≠ .lowerUnderscore)
    {fragments : List String} {n : Name} (h : ofFragments casing fragments = .ok n) :
    n.letters = fragments.flatMap String.toList := by
  obtain ⟨-, rfl⟩ := ofFragments_eq_ok_iff.1 h
  rw [letters, List.flatMap_assoc]
  simp only [flatMap_letters_wordsOf hcasing]

/-! ## All forms -/

/-- Two names have the same text in every form that does not look at acronyms. -/
structure RendersAlike (a b : Name) : Prop where
  lowerUnderscore : a.lowerUnderscore = b.lowerUnderscore
  upperUnderscore : a.upperUnderscore = b.upperUnderscore
  capitalizedLowerUnderscore : a.capitalizedLowerUnderscore = b.capitalizedLowerUnderscore
  upperCamel : a.upperCamel = b.upperCamel
  lowerCamel : a.lowerCamel = b.lowerCamel

theorem flatMap_capitalized (ws : List Word) :
    ws.flatMap Word.capitalized = (ws.map Word.lower).flatMap Word.capitalize := by
  rw [List.flatMap_map]
  rfl

theorem rendersAlike_of_map_lower_eq {a b : Name}
    (h : a.words.map Word.lower = b.words.map Word.lower) : a.RendersAlike b := by
  have hchars := lowerUnderscoreChars_congr h
  constructor
  · rw [Name.lowerUnderscore, hchars, Name.lowerUnderscore]
  · rw [Name.upperUnderscore, hchars, Name.upperUnderscore]
  · rw [Name.capitalizedLowerUnderscore, hchars, Name.capitalizedLowerUnderscore]
  · rw [Name.upperCamel, flatMap_capitalized, h, ← flatMap_capitalized, Name.upperCamel]
  · unfold Name.lowerCamel
    cases ha : a.words with
    | nil =>
      have hb : b.words = [] := by simpa [ha] using h.symm
      rw [hb]
    | cons v vs =>
      rw [ha, List.map_cons] at h
      obtain ⟨w, ws, hb, hw, hws⟩ := List.map_eq_cons_iff.1 h.symm
      rw [hb]
      dsimp only
      rw [hw, flatMap_capitalized, flatMap_capitalized, hws]

/-- Names that are built of fragments are the same just if they have the same words but for casing,
and then they agree in all forms but the one with acronyms. The lower underscore form of a name that
is not empty is accepted as a fragment and gives the same name. For camel cased fragments the form
has all their letters and digits in order, in lower case, and nothing else but underscores. -/
theorem same_iff_of_built {a b : Name} (ha : a.Built) (hb : b.Built) :
    (a.same b = true ↔ a.words.map Word.lower = b.words.map Word.lower) ∧
    (a.same b = true → a.RendersAlike b) ∧
    (a.words ≠ [] →
      ∃ m, ofFragments .lowerUnderscore [a.lowerUnderscore] = .ok m ∧ m.same a = true) ∧
    ∀ casing ≠ Casing.lowerUnderscore, ∀ fragments n, ofFragments casing fragments = .ok n →
      n.lowerUnderscore.toList.filter (· != '_') =
        (fragments.flatMap String.toList).map Char.toLower := by
  have hsame : a.same b = true ↔ a.words.map Word.lower = b.words.map Word.lower :=
    same_iff.trans ⟨map_lower_eq ha.clean hb.clean, lowerUnderscoreChars_congr⟩
  refine ⟨hsame, fun h => rendersAlike_of_map_lower_eq (hsame.1 h),
    exists_ofFragments_lowerUnderscore ha.clean, fun casing hcasing fragments n h => ?_⟩
  rw [lowerUnderscore, String.toList_ofList, filter_lowerUnderscoreChars (clean_of_ofFragments h),
    letters_of_ofFragments hcasing h]

/-- The name of the fragment `HTTPHealthCheck`. -/
def camelHealthCheck : Name :=
  ⟨[⟨"HTTP".toList, true⟩, ⟨"Health".toList, false⟩, ⟨"Check".toList, false⟩]⟩

/-- The name of the fragment `http` in front of that of the fragment `healthCheck`. -/
def joinedHealthCheck : Name :=
  append ⟨[⟨"http".toList, false⟩]⟩ ⟨[⟨"health".toList, false⟩, ⟨"Check".toList, false⟩]⟩

theorem built_camelHealthCheck : camelHealthCheck.Built :=
  .ofFragments (show ofFragments .camel ["HTTPHealthCheck"] = .ok _ from rfl)

theorem built_joinedHealthCheck : joinedHealthCheck.Built :=
  .append (.ofFragments (show ofFragments .lowerUnderscore ["http"] = .ok _ from rfl))
    (.ofFragments (show ofFragments .lowerCamel ["healthCheck"] = .ok _ from rfl))

theorem same_iff_of_built_healthCheck :
    (camelHealthCheck.Built ∧ joinedHealthCheck.Built ∧ camelHealthCheck.words ≠ []) ∧
    camelHealthCheck.same joinedHealthCheck = true ∧
    camelHealthCheck.words.map Word.lower = joinedHealthCheck.words.map Word.lower ∧
    camelHealthCheck.RendersAlike joinedHealthCheck ∧
    (∃ m, ofFragments .lowerUnderscore [camelHealthCheck.lowerUnderscore] = .ok m ∧
      m.same camelHealthCheck = true) ∧
    camelHealthCheck.lowerUnderscore.toList.filter (· != '_') = "httphealthcheck".toList := by
  have hne : camelHealthCheck.words ≠ [] := List.cons_ne_nil _ _
  have hsame : camelHealthCheck.same joinedHealthCheck = true := by decide
  obtain ⟨hiff, halike, hread, hletters⟩ :=
    same_iff_of_built built_camelHealthCheck built_joinedHealthCheck
  refine ⟨⟨built_camelHealthCheck, built_joinedHealthCheck, hne⟩, hsame, hiff.1 hsame,
    halike hsame, hread hne, ?_⟩
  exact (hletters .camel camel_ne_lowerUnderscore ["HTTPHealthCheck"] camelHealthCheck rfl).trans
    (by decide)

end Name

end DiscoveryGrpc
