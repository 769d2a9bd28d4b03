import DiscoveryGrpc.Proofs.Name

/-!
# Which identifiers give proto names

Every identifier with a letter or a digit gets a name for a message, for a field and for an enum
member, and these names have letters, digits and underscores only. What begins the name is the first
letter or digit of the identifier, in some casing (`head?_lowerUnderscore`,
`head?_upperCamelWithAcronyms`). So names of messages and fields are proto names just if this is a
letter, while names of enum members always are, since a digit gets an underscore in front of it
(`protoNaming_names`).
-/

namespace DiscoveryGrpc

open Proto (isName isNamePart)

namespace Proto

theorem isNamePart_of_isWordStart {c : Char} (h : Lexeme.isWordStart c = true) :
    isNamePart c = true := by
  rcases Bool.or_eq_true_iff.1 h with h | h <;> simp [isNamePart, Char.isAlphanum, h]

theorem isNamePart_of_isName {s : String} (h : isName s = true) :
    ∀ c ∈ s.toList, isNamePart c = true := by
  unfold isName at h
  cases hs : s.toList with
  | nil => exact List.forall_mem_nil _
  | cons c cs =>
    rw [hs] at h
    obtain ⟨hc, hcs⟩ := Bool.and_eq_true_iff.1 h
    exact List.forall_mem_cons.2 ⟨isNamePart_of_isWordStart hc, List.all_eq_true.1 hcs⟩

/-- Of the characters of names, only what comes first matters. -/
theorem isName_iff_of_head? {s : String} {c : Char} (h : ∀ d ∈ s.toList, isNamePart d = true)
    (hc : s.toList.head? = some c) : isName s = true ↔ Lexeme.isWordStart c = true := by
  unfold isName
  obtain ⟨cs, hs⟩ := List.head?_eq_some_iff.1 hc
  rw [hs, List.forall_mem_cons] at h
  rw [hs]
  simpa using fun _ => h.2

end Proto

namespace Name

/-! ## The first character -/

theorem head?_lowerUnderscore {n : Name} (hn : n.Clean) :
    n.lowerUnderscore.toList.head? = n.letters.head?.map Char.toLower := by
  rw [lowerUnderscore, String.toList_ofList]
  cases hwords : n.words with
  | nil => simp [lowerUnderscoreChars, letters, hwords]
  | cons w ws =>
    obtain ⟨c, cs, hw⟩ := List.exists_cons_of_ne_nil (hn.ne_nil w (hwords ▸ List.mem_cons_self))
    simp [lowerUnderscoreChars_cons hwords, letters, hwords, Word.lower, hw]

theorem head?_capitalizedLowerUnderscore {n : Name} (hn : n.Clean) :
    n.capitalizedLowerUnderscore.toList.head? = n.letters.head?.map Char.toUpper := by
  have hhead := head?_lowerUnderscore hn
  rw [lowerUnderscore, String.toList_ofList] at hhead
  rw [capitalizedLowerUnderscore, String.toList_ofList]
  calc (Word.capitalize n.lowerUnderscoreChars).head?
    _ = n.lowerUnderscoreChars.head?.map Char.toUpper := by cases n.lowerUnderscoreChars <;> rfl
    _ = n.letters.head?.map Char.toUpper := by simp [hhead, Function.comp_def]

theorem head?_upperCamelWithAcronyms {n : Name} (hn : n.Clean) :
    n.upperCamelWithAcronyms.toList.head? = n.letters.head?.map Char.toUpper := by
  rw [upperCamelWithAcronyms, String.toList_ofList, letters]
  cases hwords : n.words with
  | nil => rfl
  | cons w ws =>
    have hw : w ∈ n.words := hwords ▸ List.mem_cons_self
    obtain ⟨c, cs, hletters⟩ := List.exists_cons_of_ne_nil (hn.ne_nil w hw)
    cases hacronym : w.acronym with
    | false => simp [Word.capitalized, Word.lower, Word.capitalize, hacronym, hletters]
    | true =>
      have hlower : ¬c.isLower = true := by
        simp [hn.acronym w hw hacronym c (hletters ▸ List.mem_cons_self)]
      simp [hacronym, hletters, Char.toUpper_eq_of_not_isLower hlower]

/-! ## All characters -/

theorem isNamePart_lowerUnderscore {n : Name} (hn : n.Clean) :
    ∀ c ∈ n.lowerUnderscore.toList, isNamePart c = true := by
  intro c hc
  rw [lowerUnderscore, String.toList_ofList] at hc
  rcases isNamePart_of_mem_lowerUnderscoreChars hn hc with rfl | hc
  · rfl
  · rw [isNamePart, hc, Bool.true_or]

theorem isNamePart_toUpper {c : Char} (h : isNamePart c = true) : isNamePart c.toUpper = true := by
  rcases Bool.or_eq_true_iff.1 h with h | h
  · rw [isNamePart, isAlphanum_toUpper h, Bool.true_or]
  · rw [beq_iff_eq.1 h]
    rfl

theorem isNamePart_capitalizedLowerUnderscore {n : Name} (hn : n.Clean) :
    ∀ c ∈ n.capitalizedLowerUnderscore.toList, isNamePart c = true := by
  have hparts := isNamePart_lowerUnderscore hn
  rw [lowerUnderscore, String.toList_ofList] at hparts
  rw [capitalizedLowerUnderscore, String.toList_ofList]
  cases hchars : n.lowerUnderscoreChars with
  | nil => exact List.forall_mem_nil _
  | cons c cs =>
    rw [hchars, List.forall_mem_cons] at hparts
    exact List.forall_mem_cons.2 ⟨isNamePart_toUpper hparts.1, hparts.2⟩

theorem isNamePart_upperCamelWithAcronyms {n : Name} (hn : n.Clean) :
    ∀ c ∈ n.upperCamelWithAcronyms.toList, isNamePart c = true := by
  intro c hc
  rw [upperCamelWithAcronyms, String.toList_ofList] at hc
  obtain ⟨w, hw, hc⟩ := List.mem_flatMap.1 hc
  have halphanum : c.isAlphanum = true := by
    split at hc
    · exact hn.alphanum w hw c hc
    · exact isAlphanum_capitalized (hn.alphanum w hw) c hc
  rw [isNamePart, halphanum, Bool.true_or]

/-! ## Names of identifiers -/

theorem exists_ofIdentifier?_iff (s : String) :
    (∃ n, ofIdentifier? s = .ok n) ↔ ∃ c ∈ s.toList, c.isAlphanum = true := by
  constructor
  · rintro ⟨n, hn⟩
    obtain ⟨c, -, hfind⟩ := exists_head?_letters hn
    exact ⟨c, List.mem_of_find?_eq_some hfind, List.find?_some hfind⟩
  · rintro ⟨c, hc, halphanum⟩
    have hletters : c ∈ (ofIdentifier s).letters := by
      rw [letters_ofIdentifier]
      exact List.mem_filter.2 ⟨hc, halphanum⟩
    obtain ⟨w, hw, -⟩ := List.mem_flatMap.1 hletters
    have hne : ¬(ofIdentifier s).isEmpty = true := by
      simpa [isEmpty] using List.ne_nil_of_mem hw
    exact ⟨ofIdentifier s, if_neg hne⟩

theorem keeps_toLower (c : Char) (h : c.isAlphanum = true) :
    c.toLower.isAlphanum = true ∧ c.toLower.isAlpha = c.isAlpha :=
  ⟨isAlphanum_toLower h, c.isAlpha_toLower_eq_isAlpha⟩

theorem keeps_toUpper (c : Char) (h : c.isAlphanum = true) :
    c.toUpper.isAlphanum = true ∧ c.toUpper.isAlpha = c.isAlpha :=
  ⟨isAlphanum_toUpper h, c.isAlpha_toUpper_eq_isAlpha⟩

/-- A text that begins like an identifier, but for casing, is a proto name just if the first letter
or digit of the identifier is a letter. -/
theorem isName_iff_beginsWithLetter {s : String} {n : Name} (h : ofIdentifier? s = .ok n)
    {form : String} {f : Char → Char}
    (hf : ∀ c, c.isAlphanum = true → (f c).isAlphanum = true ∧ (f c).isAlpha = c.isAlpha)
    (hhead : form.toList.head? = n.letters.head?.map f)
    (hparts : ∀ c ∈ form.toList, isNamePart c = true) :
    form ≠ "" ∧ (isName form = true ↔ DiscoveryGrpc.BeginsWithLetter s) := by
  obtain ⟨c, hc, hfind⟩ := exists_head?_letters h
  rw [hc, Option.map_some] at hhead
  refine ⟨fun hempty => by simp [hempty] at hhead, ?_⟩
  obtain ⟨hnum, halpha⟩ := hf c (List.find?_some hfind)
  have hline : ¬(f c == '_') = true := fun heq => by
    rw [beq_iff_eq.1 heq] at hnum
    cases hnum
  rw [Proto.isName_iff_of_head? hparts hhead, Proto.Lexeme.isWordStart, halpha]
  simp [DiscoveryGrpc.BeginsWithLetter, hfind, hline]

end Name

/-- How an identifier gets a name: just if it has a letter or a digit. The name has letters, digits
and underscores only, and for good identifiers it is a proto name. -/
structure ProtoNaming (s : String) (name? : Except Fault String) (good : Prop) : Prop where
  exists_iff : (∃ name, name? = .ok name) ↔ ∃ c ∈ s.toList, c.isAlphanum = true
  parts (name : String) : name? = .ok name → name ≠ "" ∧ ∀ c ∈ name.toList, isNamePart c = true
  isName_iff (name : String) : name? = .ok name → (isName name = true ↔ good)

/-- Names that are made of the words of identifiers. -/
theorem protoNaming_of_form {s : String} {name? : Except Fault String} {good : Prop}
    (form : Name → String) (heq : name? = form <$> Name.ofIdentifier? s)
    (hparts : ∀ n, Name.ofIdentifier? s = .ok n → ∀ c ∈ (form n).toList, isNamePart c = true)
    (hname : ∀ n, Name.ofIdentifier? s = .ok n →
      form n ≠ "" ∧ (isName (form n) = true ↔ good)) : ProtoNaming s name? good := by
  have hcases {name : String} :
      name? = .ok name ↔ ∃ n, Name.ofIdentifier? s = .ok n ∧ form n = name := by
    rw [heq, Except.map_eq_ok_iff]
  refine ⟨?_, fun name h => ?_, fun name h => ?_⟩
  · rw [← Name.exists_ofIdentifier?_iff]
    constructor
    · rintro ⟨name, h⟩
      obtain ⟨n, hn, -⟩ := hcases.1 h
      exact ⟨n, hn⟩
    · rintro ⟨n, hn⟩
      exact ⟨form n, hcases.2 ⟨n, hn, rfl⟩⟩
  · obtain ⟨n, hn, rfl⟩ := hcases.1 h
    exact ⟨(hname n hn).1, hparts n hn⟩
  · obtain ⟨n, hn, rfl⟩ := hcases.1 h
    exact (hname n hn).2

theorem protoNaming_fieldName (s : String) :
    ProtoNaming s (fieldName s) (BeginsWithLetter s) := by
  refine protoNaming_of_form
    (fun n => if startsUpper s then n.capitalizedLowerUnderscore else n.lowerUnderscore)
    ?_ (fun n hn => ?_) fun n hn => ?_
  · unfold fieldName
    cases Name.ofIdentifier? s <;> rfl
  · have hclean := Name.clean_of_ofIdentifier? hn
    split
    · exact Name.isNamePart_capitalizedLowerUnderscore hclean
    · exact Name.isNamePart_lowerUnderscore hclean
  · have hclean := Name.clean_of_ofIdentifier? hn
    split
    · exact Name.isName_iff_beginsWithLetter hn Name.keeps_toUpper
        (Name.head?_capitalizedLowerUnderscore hclean)
        (Name.isNamePart_capitalizedLowerUnderscore hclean)
    · exact Name.isName_iff_beginsWithLetter hn Name.keeps_toLower
        (Name.head?_lowerUnderscore hclean) (Name.isNamePart_lowerUnderscore hclean)

/-- An identifier that is upper camel already begins with a capital. -/
theorem exists_cons_of_fits {s : String} (h : Casing.upperCamel.fits s.toList = true) :
    ∃ c cs, s.toList = c :: cs ∧ c.isUpper = true ∧ ∀ d ∈ s.toList, d.isAlphanum = true := by
  obtain ⟨hhead, hall⟩ := Bool.and_eq_true_iff.1 h
  cases hs : s.toList with
  | nil =>
    rw [hs] at hhead
    cases hhead
  | cons c cs => exact ⟨c, cs, rfl, by simpa [hs] using hhead, hs ▸ List.all_eq_true.1 hall⟩

theorem protoNaming_messageName (s : String) :
    ProtoNaming s (messageName s) (BeginsWithLetter s) := by
  by_cases hfits : Casing.upperCamel.fits s.toList = true
  · obtain ⟨c, cs, hs, hupper, hall⟩ := exists_cons_of_fits hfits
    have hc : c ∈ s.toList := hs ▸ List.mem_cons_self
    have hsame : messageName s = .ok s := if_pos hfits
    obtain ⟨n, hn⟩ := (Name.exists_ofIdentifier?_iff s).2 ⟨c, hc, hall c hc⟩
    have hparts : ∀ d ∈ s.toList, isNamePart d = true := fun d hd => by
      rw [isNamePart, hall d hd, Bool.true_or]
    refine protoNaming_of_form (fun _ => s) (by rw [hsame, hn]; rfl) (fun _ _ => hparts)
      fun n hn => Name.isName_iff_beginsWithLetter hn Name.keeps_toUpper ?_ hparts
    obtain ⟨d, hd, hfind⟩ := Name.exists_head?_letters hn
    rw [hs, List.find?_cons_of_pos (hall c hc)] at hfind
    obtain rfl := Option.some.inj hfind
    rw [hd, hs, Option.map_some, List.head?_cons,
      Char.toUpper_eq_of_not_isLower (Char.not_isLower_of_isUpper hupper)]
  · refine protoNaming_of_form Name.upperCamelWithAcronyms ?_ (fun n hn => ?_) fun n hn => ?_
    · rw [messageName, if_neg hfits]
      cases Name.ofIdentifier? s <;> rfl
    · exact Name.isNamePart_upperCamelWithAcronyms (Name.clean_of_ofIdentifier? hn)
    · have hclean := Name.clean_of_ofIdentifier? hn
      exact Name.isName_iff_beginsWithLetter hn Name.keeps_toUpper
        (Name.head?_upperCamelWithAcronyms hclean) (Name.isNamePart_upperCamelWithAcronyms hclean)

theorem protoNaming_enumMemberName (s : String) : ProtoNaming s (enumMemberName s) True := by
  have hname {n : Name} (hn : Name.ofIdentifier? s = .ok n) : isName n.memberForm = true :=
    (Name.isMemberName_memberForm (Name.clean_of_ofIdentifier? hn)
      (Name.eq_ofIdentifier hn).2).isName
  refine protoNaming_of_form Name.memberForm (enumMemberName_eq s)
    (fun n hn => Proto.isNamePart_of_isName (hname hn)) fun n hn => ⟨fun hempty => ?_, ?_⟩
  · exact absurd (hempty ▸ hname hn) (by decide)
  · exact iff_true_intro (hname hn)

/-- Every identifier with a letter or a digit gets a name for a message, a field and an enum member,
of letters, digits and underscores only. The name of an enum member is a proto name, those of a
message and of a field are just if the first letter or digit of the identifier is a letter. -/
theorem protoNaming_names (s : String) :
    ProtoNaming s (messageName s) (BeginsWithLetter s) ∧
      ProtoNaming s (fieldName s) (BeginsWithLetter s) ∧ ProtoNaming s (enumMemberName s) True :=
  ⟨protoNaming_messageName s, protoNaming_fieldName s, protoNaming_enumMemberName s⟩

theorem protoNaming_names_threeD :
    (messageName "3d-View" = .ok "3dView" ∧ fieldName "3d-View" = .ok "3d_view" ∧
      enumMemberName "3d-View" = .ok "_3D_VIEW") ∧
    (isName "3dView" = true ↔ BeginsWithLetter "3d-View") ∧
    (isName "3d_view" = true ↔ BeginsWithLetter "3d-View") ∧ isName "_3D_VIEW" = true := by
  have hmessage : messageName "3d-View" = .ok "3dView" := rfl
  have hfield : fieldName "3d-View" = .ok "3d_view" := rfl
  have hmember : enumMemberName "3d-View" = .ok "_3D_VIEW" := rfl
  obtain ⟨hmessages, hfields, hmembers⟩ := protoNaming_names "3d-View"
  exact ⟨⟨hmessage, hfield, hmember⟩, hmessages.isName_iff _ hmessage,
    hfields.isName_iff _ hfield, (hmembers.isName_iff _ hmember).2 trivial⟩

/-- A digit gets an underscore in front of it in the name of an enum member only. -/
theorem not_isName_threeD :
    messageName "3d" = .ok "3d" ∧ fieldName "3d" = .ok "3d" ∧ isName "3d" = false ∧
      enumMemberName "3d" = .ok "_3D" ∧ isName "_3D" = true :=
  ⟨rfl, rfl, by decide, rfl, by decide⟩

end DiscoveryGrpc
