import DiscoveryGrpc.Proofs.Fault
import DiscoveryGrpc.Proofs.Proto.Derived
import DiscoveryGrpc.Proofs.Proto.Given
import DiscoveryGrpc.Proto.Text

/-!
# The grammar derives what is read

`Reading.Spells` says which tokens a reading takes when it gives a value. It has one rule for each
way to put readings together, so every reading of a part of a file is followed step by step, and the
tokens that it takes are those of a derivation of that part. A file is read to the end of the tokens
(`Reading.rest_of_file`), so a text is a file just if the grammar derives its tokens.
-/

namespace DiscoveryGrpc.Proto

open Grammar (Block)

namespace Reading

variable {α β σ : Type} {P : α → List Token → Prop} {Q : β → List Token → Prop}

/-! ## Rules -/

/-- A reading takes tokens off the front, which are related to the value that it gives. -/
def Spells (x : Reading α) (P : α → List Token → Prop) : Prop :=
  ∀ ts a rest, x ts = .ok (a, rest) → ∃ taken, ts = taken ++ rest ∧ P a taken

namespace Spells

theorem pure {a : α} (h : P a []) : Spells (Pure.pure a) P := by
  rintro ts b rest ⟨⟩
  exact ⟨[], rfl, h⟩

theorem fail (fault : SyntaxFault) : Spells (Reading.fail fault) P := by
  rintro ts a rest ⟨⟩

theorem bind {x : Reading α} {f : α → Reading β} (hx : Spells x P)
    (hf : ∀ a taken, P a taken → Spells (f a) fun b more => Q b (taken ++ more)) :
    Spells (x >>= f) Q := by
  intro ts b rest h
  rw [bind_apply] at h
  cases hxt : x ts with
  | error e =>
    rw [hxt] at h
    cases h
  | ok p =>
    rw [hxt] at h
    obtain ⟨taken, rfl, htaken⟩ := hx ts p.1 p.2 hxt
    obtain ⟨more, hmore, hq⟩ := hf p.1 taken htaken p.2 b rest h
    exact ⟨taken ++ more, by rw [hmore, List.append_assoc], hq⟩

theorem mono {x : Reading α} {P' : α → List Token → Prop} (hx : Spells x P)
    (h : ∀ a taken, P a taken → P' a taken) : Spells x P' := fun ts a rest hxt =>
  (hx ts a rest hxt).imp fun _ => And.imp_right (h a _)

theorem take {stray : Token → SyntaxFault} {f : Token → Option α}
    (h : ∀ t a, f t = some a → P a [t]) : Spells (Reading.take stray f) P := by
  intro ts a rest hts
  cases ts with
  | nil => cases hts
  | cons t ts =>
    rw [Reading.take] at hts
    cases hf : f t with
    | none =>
      rw [hf] at hts
      cases hts
    | some b =>
      rw [hf] at hts
      obtain ⟨rfl, rfl⟩ := Prod.mk.inj (Except.ok.inj hts)
      exact ⟨[t], rfl, h t b hf⟩

/-- Looking at the next token takes nothing. -/
theorem peek {f : Option Token → Reading β} (hf : ∀ next, Spells (f next) Q) :
    Spells (Reading.peek >>= f) Q := by
  intro ts b rest h
  rw [bind_apply, peek_apply] at h
  exact hf _ ts b rest h

/-- A relation between the state of a loop and the tokens taken so far, kept by every turn. -/
theorem loop {step : σ → Reading (Turn σ)} {I Q : σ → List Token → Prop} {start : σ}
    (hstep : ∀ s taken, I s taken → Spells (step s) fun
      | .again s', more => I s' (taken ++ more)
      | .done s', more => Q s' (taken ++ more))
    (h : I start []) : Spells (Reading.loop step start) Q := by
  have hfor : ∀ n s taken, I s taken →
      Spells (loopFor step n s) fun s' more => Q s' (taken ++ more) := by
    intro n
    induction n with
    | zero => exact fun s taken _ => fail .endOfFile
    | succ n ih =>
      intro s taken hs
      refine (hstep s taken hs).bind fun t more ht => ?_
      cases t with
      | again s' => simpa only [List.append_assoc] using ih s' _ ht
      | done s' => exact pure (by simpa using ht)
  exact fun ts => hfor _ start [] h ts

end Spells

/-! ## Single tokens -/

theorem spells_expect (wanted : Token) : Spells (expect wanted) fun _ taken => taken = [wanted] :=
  .take fun t a h => by
    split at h
    · rename_i heq
      rw [heq]
    · cases h

theorem spells_word : Spells word fun name taken => taken = [.word name] :=
  .take fun t a h => by
    cases t with
    | word name => exact Option.some.inj h ▸ rfl
    | _ => cases h

theorem spells_int : Spells int fun i taken => taken = [.int i] :=
  .take fun t a h => by
    cases t with
    | int i => exact Option.some.inj h ▸ rfl
    | _ => cases h

/-- What follows a token that has to be there. -/
theorem Spells.after_expect {wanted : Token} {f : Unit → Reading β}
    (hf : Spells (f ()) fun b more => Q b (wanted :: more)) : Spells (expect wanted >>= f) Q :=
  (spells_expect wanted).bind fun _ _ h => h ▸ hf

/-- What follows a word. -/
theorem Spells.after_word {f : String → Reading β}
    (hf : ∀ name, Spells (f name) fun b more => Q b (.word name :: more)) :
    Spells (word >>= f) Q :=
  spells_word.bind fun name _ h => h ▸ hf name

theorem exists_literals (start : String) (ts : List Token) : ∃ more : List String,
    ts = more.map .text ++ (literals start ts).2 ∧
      (literals start ts).1 = more.foldl (· ++ ·) start := by
  fun_induction literals start ts with
  | case1 start s ts ih =>
    obtain ⟨more, hts, hvalue⟩ := ih
    exact ⟨s :: more, by rw [List.map_cons, List.cons_append, ← hts], hvalue⟩
  | case2 => exact ⟨[], rfl, rfl⟩

theorem spells_string : Spells string fun value taken =>
    ∃ s : Grammar.Literals, s.tokens = taken ∧ s.value = value := by
  refine Spells.bind (P := fun first taken => taken = [.text first]) (.take fun t a h => ?_) ?_
  · cases t with
    | text s => exact Option.some.inj h ▸ rfl
    | _ => cases h
  · rintro first _ rfl ts value rest h
    obtain ⟨rfl, rfl⟩ := Prod.mk.inj (Except.ok.inj h)
    obtain ⟨more, hts, hvalue⟩ := exists_literals first ts
    exact ⟨more.map .text, hts, ⟨first, more⟩, rfl, hvalue.symm⟩

theorem spells_skipStatement :
    Spells skipStatement fun _ taken => ∃ s : Grammar.Skipped, s.tokens = taken := by
  intro ts a rest h
  induction ts with
  | nil => cases h
  | cons t ts ih =>
    unfold skipStatement at h
    split at h
    · cases h
    · rename_i heq
      obtain ⟨rfl, rfl⟩ := List.cons.inj heq
      obtain ⟨-, rfl⟩ := Prod.mk.inj (Except.ok.inj h)
      exact ⟨[.semicolon], rfl, ⟨[], List.not_mem_nil⟩, rfl⟩
    · rename_i hne heq
      obtain ⟨rfl, rfl⟩ := List.cons.inj heq
      obtain ⟨_, rfl, s, rfl⟩ := ih h
      have hbody : .semicolon ∉ t :: s.body := by
        simp only [List.mem_cons, not_or]
        exact ⟨fun ht => hne ht.symm, s.semicolon_notMem⟩
      exact ⟨t :: s.tokens, rfl, ⟨t :: s.body, hbody⟩, rfl⟩

/-! ## Options -/

theorem spells_settingName : Spells settingName fun name taken =>
    ∃ s : Grammar.Setting, s.name = name ∧ s.nameTokens = taken := by
  refine .peek fun next => ?_
  split
  · refine .after_expect <| .after_word fun name => .after_expect <| .pure ?_
    exact ⟨⟨name, true, .group []⟩, rfl, rfl⟩
  · refine spells_word.mono ?_
    rintro name _ rfl
    exact ⟨⟨name, false, .group []⟩, rfl, rfl⟩

theorem spells_settingValue :
    Spells settingValue fun _ taken => ∃ v : Grammar.Value, v.tokens = taken := by
  refine .peek fun next => ?_
  split
  · refine spells_string.bind ?_
    rintro _ _ ⟨s, rfl, -⟩
    exact .pure ⟨.strings s, by simp [Grammar.Value.tokens]⟩
  · refine spells_int.bind ?_
    rintro i _ rfl
    exact .pure ⟨.int i, rfl⟩
  · exact .after_word fun name => .pure ⟨.word name, rfl⟩
  · exact .fail _

theorem spells_settingEntries : Spells settingEntries fun _ taken =>
    ∃ entries : List Grammar.Entry,
      entries.flatMap Grammar.Entry.tokens ++ [Token.closeBrace] = taken := by
  refine .loop (I := fun _ taken => ∃ entries : List Grammar.Entry,
    entries.flatMap Grammar.Entry.tokens = taken) ?_ ⟨[], rfl⟩
  rintro _ _ ⟨entries, rfl⟩
  refine .peek fun next => ?_
  split
  · exact .after_expect <| .pure ⟨entries, rfl⟩
  · exact .after_expect <| .pure ⟨entries ++ [Grammar.Entry.comma], by simp [Grammar.Entry.tokens]⟩
  · exact .after_expect <|
      .pure ⟨entries ++ [Grammar.Entry.semicolon], by simp [Grammar.Entry.tokens]⟩
  · refine .after_word fun key => .after_expect <| spells_settingValue.bind ?_
    rintro _ _ ⟨v, rfl⟩
    exact .pure ⟨entries ++ [Grammar.Entry.pair key v], by simp [Grammar.Entry.tokens]⟩

theorem spells_setting :
    Spells setting fun _ taken => ∃ s : Grammar.Setting, s.tokens = taken := by
  refine spells_settingName.bind ?_
  rintro _ _ ⟨⟨name, enclosed, _⟩, rfl, rfl⟩
  refine .after_expect <| .peek fun next => ?_
  split
  · refine .after_expect <| spells_settingEntries.bind ?_
    rintro _ _ ⟨entries, rfl⟩
    refine .pure ⟨⟨name, enclosed, .group entries⟩, ?_⟩
    simp [Grammar.Setting.tokens, Grammar.Setting.nameTokens, Grammar.SettingBody.tokens]
  · refine spells_settingValue.bind ?_
    rintro _ _ ⟨v, rfl⟩
    refine .pure ⟨⟨name, enclosed, .scalar v⟩, ?_⟩
    simp [Grammar.Setting.tokens, Grammar.Setting.nameTokens, Grammar.SettingBody.tokens]

theorem spells_fieldSettings : Spells fieldSettings fun _ taken =>
    ∃ ss : List Grammar.Setting, Grammar.Setting.bracketTokens ss = taken := by
  refine .peek fun next => ?_
  split
  · refine .after_expect <| .loop (I := fun _ taken => ∃ ss : List Grammar.Setting,
      ss.flatMap (fun s => s.tokens ++ [Token.comma]) = taken) ?_ ⟨[], rfl⟩
    rintro _ _ ⟨ss, rfl⟩
    refine spells_setting.bind ?_
    rintro _ _ ⟨s, rfl⟩
    refine Spells.bind (P := fun more taken => taken = [if more then .comma else .closeBracket])
      (.take fun t more h => ?_) ?_
    · split at h <;> simp_all
    · rintro (_ | _) _ rfl
      · exact .pure ⟨ss ++ [s], by simp [grammarBracketTokens_concat]⟩
      · exact .pure ⟨ss ++ [s], by simp⟩
  · exact .pure ⟨[], rfl⟩

/-! ## Blocks -/

theorem spells_entry (stray : Token → SyntaxFault) : Spells (entry stray) fun
    | .close, taken => taken = [.closeBrace]
    | .blank, taken => taken = [.semicolon]
    | .word name, taken => taken = [.word name] :=
  .take fun t e h => by
    cases t with
    | closeBrace => exact Option.some.inj h ▸ rfl
    | semicolon => exact Option.some.inj h ▸ rfl
    | word name => exact Option.some.inj h ▸ rfl
    | _ => cases h

/-- A block is made of what its statements are made of. -/
theorem Spells.block {ι : Type} {stray : Token → SyntaxFault} {statement : σ → String → Reading σ}
    (tokens : ι → List Token) {start : σ}
    (h : ∀ s first, Spells (statement s first) fun _ more => ∃ x, tokens x = .word first :: more) :
    Spells (Reading.block stray statement start) fun _ taken =>
      ∃ b : Block ι, b.tokens tokens = .openBrace :: taken := by
  refine .loop (I := fun _ taken => ∃ b : Block ι,
    b.flatMap (Block.entryTokens tokens) = taken) ?_ ⟨[], rfl⟩
  rintro s _ ⟨b, rfl⟩
  refine (spells_entry stray).bind fun e taken he => ?_
  cases e with
  | close =>
    obtain rfl := he
    exact .pure ⟨b, rfl⟩
  | blank =>
    obtain rfl := he
    exact .pure ⟨b ++ [none], by simp [Block.entryTokens]⟩
  | word first =>
    obtain rfl := he
    refine (h s first).bind ?_
    rintro _ _ ⟨x, hx⟩
    exact .pure ⟨b ++ [some x], by simp [Block.entryTokens, hx]⟩

/-- What is skipped behind a keyword. -/
theorem spells_ignored (keyword : String) (h : keyword ∈ ["option", "reserved"]) :
    Spells skipStatement fun _ more =>
      ∃ x : Grammar.Ignored, x.tokens = .word keyword :: more :=
  spells_skipStatement.mono <| by
    rintro _ _ ⟨s, rfl⟩
    exact ⟨⟨keyword, h, s⟩, rfl⟩

/-! ## Enums -/

theorem spells_member (name : String) : Spells (member name) fun _ taken =>
    ∃ number settings, Grammar.numberTokens number settings = taken := by
  refine .after_expect <| spells_int.bind ?_
  rintro number _ rfl
  refine spells_fieldSettings.bind ?_
  rintro _ _ ⟨settings, rfl⟩
  exact .after_expect <| .pure ⟨number, settings, by simp [Grammar.numberTokens]⟩

theorem spells_enum : Spells enum fun _ taken => ∃ e : Grammar.Enum, e.tokens = taken := by
  refine .after_word fun name => .after_expect <| Spells.mono
    (.block Grammar.EnumItem.tokens fun e first => ?_) ?_
  · split
    · rename_i hkeyword
      refine (spells_ignored first (by simpa using hkeyword)).bind ?_
      rintro _ _ ⟨x, hx⟩
      exact .pure ⟨.ignored x, by simpa [Grammar.EnumItem.tokens] using hx⟩
    · rename_i hkeyword
      refine (spells_member first).bind ?_
      rintro _ _ ⟨number, settings, rfl⟩
      have hname : first ∉ ["option", "reserved"] := by simpa using hkeyword
      exact .pure ⟨.member ⟨first, hname, number, settings⟩,
        by simp [Grammar.EnumItem.tokens, Grammar.Member.tokens]⟩
  · rintro _ _ ⟨b, hb⟩
    exact ⟨⟨name, b⟩, by rw [Grammar.Enum.tokens, hb]⟩

/-! ## Fields and messages -/

/-- Takes a field behind its label and the first word of its type. -/
def labelledField (label : FieldLabel) (first : String) : Reading Field := do
  let (key?, type) ← keyAndType first
  let name ← word
  expect .equals
  let _ ← int
  let settings ← fieldSettings
  expect .semicolon
  return {
    name, settings
    type := .reference type
    repeated := key?.isSome || label = .repeated
    optional := label = .optional
    keyType := key?.map .reference }

theorem field_eq (first : String) : field first = (do
    let (label, first) ← labelAndType first
    labelledField label first) := rfl

theorem spells_keyAndType (first : String) : Spells (keyAndType first) fun _ taken =>
    taken = [] ∨
      first = "map" ∧ ∃ key value, Grammar.FieldType.angleTokens key value = taken := by
  refine .peek fun next => ?_
  split
  · exact .after_expect <| .after_word fun key => .after_expect <| .after_word fun value =>
      .after_expect <| .pure (.inr ⟨rfl, key, value, rfl⟩)
  · exact .pure (.inl rfl)

theorem spells_labelledField (label : FieldLabel) (first : String) :
    Spells (labelledField label first) fun _ taken => ∃ type name number settings,
      taken = type ++ .word name :: Grammar.numberTokens number settings ∧
      (type = [] ∨
        first = "map" ∧ ∃ key value, Grammar.FieldType.angleTokens key value = type) := by
  refine (spells_keyAndType first).bind fun _ type htype => ?_
  refine .after_word fun name => .after_expect <| spells_int.bind ?_
  rintro number _ rfl
  refine spells_fieldSettings.bind ?_
  rintro _ _ ⟨settings, rfl⟩
  refine .after_expect <| .pure ⟨type, name, number, settings, ?_, htype⟩
  simp [Grammar.numberTokens]

theorem exists_label {w : String} {label : FieldLabel} (h : FieldLabel.ofWord? w = some label) :
    ∃ l : Grammar.Label, l.word = w := by
  unfold FieldLabel.ofWord? at h
  split at h
  · exact ⟨.optional, rfl⟩
  · exact ⟨.repeated, rfl⟩
  · cases h

theorem ofWord?_eq_none_iff {w : String} :
    FieldLabel.ofWord? w = .none ↔ w ≠ "optional" ∧ w ≠ "repeated" := by
  refine ⟨fun h => ⟨?_, ?_⟩, FieldLabel.ofWord?_eq_none⟩
  · rintro rfl
    cases h
  · rintro rfl
    cases h

/-- A label that no word follows is a type. -/
theorem labelAndType_last (first : String) {ts : List Token}
    (h : ∀ w, ts.head? ≠ some (.word w)) : labelAndType first ts = .ok ((.none, first), ts) := by
  cases hlabel : FieldLabel.ofWord? first with
  | none => exact labelAndType_type hlabel ts
  | some label =>
    cases ts with
    | nil => simp [labelAndType, hlabel]
    | cons t ts => cases t <;> simp_all [labelAndType]

theorem spells_field (first : String) (h : first ∉ ["option", "reserved", "enum", "message"]) :
    Spells (field first) fun _ taken =>
      ∃ x : Grammar.Field, x.tokens = .word first :: taken := by
  intro ts f rest hts
  rw [field_eq, bind_apply] at hts
  cases hlabel : FieldLabel.ofWord? first with
  | none =>
    rw [labelAndType_type hlabel] at hts
    obtain ⟨_, hsplit, type, name, number, settings, rfl, htype⟩ :=
      spells_labelledField _ _ _ _ _ hts
    refine ⟨_, hsplit, ?_⟩
    rcases htype with rfl | ⟨rfl, key, value, rfl⟩
    · have hfirst : first ∉ ["enum", "message", "option", "reserved", "optional", "repeated"] := by
        have hwords := ofWord?_eq_none_iff.1 hlabel
        simp_all
      exact ⟨⟨.plain first hfirst, name, number, settings⟩, rfl⟩
    · exact ⟨⟨.map key value, name, number, settings⟩, rfl⟩
  | some label =>
    obtain ⟨l, rfl⟩ := exists_label hlabel
    by_cases hword : ∃ type, ts.head? = some (.word type)
    · obtain ⟨word, hword⟩ := hword
      obtain ⟨ts, rfl⟩ := List.head?_eq_some_iff.1 hword
      rw [labelAndType_label hlabel] at hts
      obtain ⟨_, rfl, type, name, number, settings, rfl, htype⟩ :=
        spells_labelledField _ _ _ _ _ hts
      refine ⟨_ :: _, rfl, ?_⟩
      rcases htype with rfl | ⟨rfl, key, value, rfl⟩
      · exact ⟨⟨.labelled l word, name, number, settings⟩, rfl⟩
      · exact ⟨⟨.labelledMap l key value, name, number, settings⟩, rfl⟩
    · rw [not_exists] at hword
      rw [labelAndType_last _ hword] at hts
      obtain ⟨_, rfl, type, name, number, settings, rfl, htype⟩ :=
        spells_labelledField _ _ _ _ _ hts
      -- a label is no map, so the name of the field comes next
      rcases htype with rfl | ⟨hmap, -⟩
      · exact absurd rfl (hword name)
      · cases l <;> simp [Grammar.Label.word] at hmap

theorem spells_message :
    Spells message fun _ taken => ∃ m : Grammar.Message, m.tokens = taken := by
  refine .after_word fun name => .after_expect <| Spells.mono
    (.block Grammar.MessageItem.tokens fun m first => ?_) ?_
  · split
    · refine spells_enum.bind ?_
      rintro _ _ ⟨e, rfl⟩
      exact .pure ⟨.enum e, by simp [Grammar.MessageItem.tokens]⟩
    · exact .fail _
    · refine (spells_ignored "option" (by simp)).bind ?_
      rintro _ _ ⟨x, hx⟩
      exact .pure ⟨.ignored x, by simpa [Grammar.MessageItem.tokens] using hx⟩
    · refine (spells_ignored "reserved" (by simp)).bind ?_
      rintro _ _ ⟨x, hx⟩
      exact .pure ⟨.ignored x, by simpa [Grammar.MessageItem.tokens] using hx⟩
    · rename_i _ henum hmessage hoption hreserved
      refine (spells_field first (by simp_all)).bind ?_
      rintro x _ ⟨y, hy⟩
      split
      · exact .pure ⟨.field y, by simpa [Grammar.MessageItem.tokens] using hy⟩
      · exact .fail _
  · rintro _ _ ⟨b, hb⟩
    exact ⟨⟨name, b⟩, by rw [Grammar.Message.tokens, hb]⟩

/-! ## Services -/

theorem spells_parenthesized : Spells parenthesized fun name taken =>
    taken = [.openParen, .word name, .closeParen] :=
  .after_expect <| .after_word fun _ => .after_expect <| .pure rfl

theorem spells_returns (rpc : String) :
    Spells (returns rpc) fun _ taken => taken = [.word "returns"] := by
  rintro (_ | ⟨t, ts⟩) a rest h
  · cases h
  · cases t with
    | word name =>
      by_cases hname : name = "returns"
      · subst hname
        rw [returns_cons] at h
        obtain ⟨-, rfl⟩ := Prod.mk.inj (Except.ok.inj h)
        exact ⟨[_], rfl, rfl⟩
      · simp only [returns, bind_apply, get_apply, word_cons, ne_eq, hname, not_false_eq_true,
          if_true, fail_apply] at h
        split at h <;> cases h
    | _ => cases h

theorem spells_rpcSettings (rpc : String) : Spells (rpcSettings rpc) fun _ taken =>
    ∃ b : Block Grammar.Setting,
      b.tokens Grammar.Setting.statementTokens = .openBrace :: taken := by
  refine .loop (I := fun _ taken => ∃ b : Block Grammar.Setting,
    b.flatMap (Block.entryTokens Grammar.Setting.statementTokens) = taken) ?_ ⟨[], rfl⟩
  rintro s _ ⟨b, rfl⟩
  refine Spells.bind (P := fun
    | .close, taken => taken = [.closeBrace]
    | .blank, taken => taken = [.semicolon]
    | .word _, taken => taken = [.word "option"]) (.take fun t e h => ?_) fun e taken he => ?_
  · cases t with
    | word name =>
      obtain ⟨rfl, he⟩ := (Option.ite_none_right_eq_some ..).1 h
      exact Option.some.inj he ▸ rfl
    | closeBrace => exact Option.some.inj h ▸ rfl
    | semicolon => exact Option.some.inj h ▸ rfl
    | _ => cases h
  · cases e with
    | close =>
      obtain rfl := he
      exact .pure ⟨b, rfl⟩
    | blank =>
      obtain rfl := he
      exact .pure ⟨b ++ [none], by simp [Block.entryTokens]⟩
    | word _ =>
      obtain rfl := he
      refine spells_setting.bind ?_
      rintro _ _ ⟨x, rfl⟩
      refine .after_expect <| .pure ⟨b ++ [some x], ?_⟩
      simp [Block.entryTokens, Grammar.Setting.statementTokens, Grammar.Setting.restTokens]

theorem spells_rpc : Spells rpc fun _ taken => ∃ r : Grammar.Rpc, r.tokens = taken := by
  refine .after_word fun name => spells_parenthesized.bind ?_
  rintro input _ rfl
  refine (spells_returns name).bind ?_
  rintro _ _ rfl
  refine spells_parenthesized.bind ?_
  rintro output _ rfl
  split
  · exact Spells.bind (P := fun _ _ => False) (.fail _) fun _ _ h => h.elim
  rename_i hstream
  obtain ⟨hinput, houtput⟩ : input ≠ "stream" ∧ output ≠ "stream" := by simpa using hstream
  refine Spells.bind (P := fun block taken => taken = [if block then .openBrace else .semicolon])
    (.take fun t block h => ?_) ?_
  · cases t with
    | semicolon => exact Option.some.inj h ▸ rfl
    | openBrace => exact Option.some.inj h ▸ rfl
    | _ => cases h
  · rintro (_ | _) _ rfl
    · exact .pure ⟨⟨name, input, output, hinput, houtput, none⟩, rfl⟩
    · refine (spells_rpcSettings name).bind ?_
      rintro _ _ ⟨b, hb⟩
      refine .pure ⟨⟨name, input, output, hinput, houtput, some b⟩, ?_⟩
      simp [Grammar.Rpc.tokens, Grammar.Rpc.bodyTokens, hb]

theorem spells_service :
    Spells service fun _ taken => ∃ s : Grammar.Service, s.tokens = taken := by
  refine .after_word fun name => .after_expect <| Spells.mono
    (.block Grammar.ServiceItem.tokens fun s first => ?_) ?_
  · split
    · refine spells_setting.bind ?_
      rintro _ _ ⟨x, rfl⟩
      exact .after_expect <| .pure ⟨.setting x, by
        simp [Grammar.ServiceItem.tokens, Grammar.Setting.statementTokens,
          Grammar.Setting.restTokens]⟩
    · refine spells_rpc.bind ?_
      rintro _ _ ⟨r, rfl⟩
      exact .pure ⟨.rpc r, by simp [Grammar.ServiceItem.tokens]⟩
    · exact .fail _
  · rintro _ _ ⟨b, hb⟩
    exact ⟨⟨name, b⟩, by rw [Grammar.Service.tokens, hb]⟩

/-! ## Files -/

theorem spells_statement (f : File) (first : String) : Spells (statement f first) fun _ taken =>
    ∃ x : Grammar.Statement, x.tokens = .word first :: taken := by
  unfold statement
  split
  · refine .after_expect <| spells_string.bind ?_
    rintro _ _ ⟨s, rfl, rfl⟩
    split
    · exact Spells.bind (P := fun _ _ => False) (.fail _) fun _ _ h => h.elim
    · rename_i hs
      exact .after_expect <| .pure ⟨.proto3 s (not_not.1 hs), by simp [Grammar.Statement.tokens]⟩
  · exact .after_word fun name => .after_expect <| .pure ⟨.package name, rfl⟩
  · refine spells_skipStatement.bind ?_
    rintro _ _ ⟨s, rfl⟩
    exact .pure ⟨.imported s, by simp [Grammar.Statement.tokens]⟩
  · refine spells_setting.bind ?_
    rintro _ _ ⟨s, rfl⟩
    exact .after_expect <| .pure ⟨.setting s, by
      simp [Grammar.Statement.tokens, Grammar.Setting.statementTokens, Grammar.Setting.restTokens]⟩
  · refine spells_message.bind ?_
    rintro _ _ ⟨m, rfl⟩
    exact .pure ⟨.message m, by simp [Grammar.Statement.tokens]⟩
  · exact .fail _
  · refine spells_service.bind ?_
    rintro _ _ ⟨s, rfl⟩
    exact .pure ⟨.service s, by simp [Grammar.Statement.tokens]⟩
  · exact .fail _

theorem spells_file : Spells file fun _ taken => ∃ f : Grammar.File, f.tokens = taken := by
  refine .loop (I := fun _ taken => ∃ f : Grammar.File, f.tokens = taken) ?_ ⟨[], rfl⟩
  rintro f _ ⟨g, rfl⟩
  refine .peek fun next => ?_
  cases next with
  | none => exact .pure ⟨g, by simp⟩
  | some _ =>
    refine .after_word fun first => (spells_statement f first).bind ?_
    rintro _ _ ⟨x, hx⟩
    exact .pure ⟨g ++ [x], by simp [Grammar.File.tokens, hx]⟩

/-- A loop ends with a turn with which it is done. -/
theorem exists_last_turn {step : σ → Reading (Turn σ)} {start s' : σ} {ts rest : List Token}
    (h : loop step start ts = .ok (s', rest)) :
    ∃ s ts, step s ts = .ok (.done s', rest) := by
  have hfor : ∀ n s ts, loopFor step n s ts = .ok (s', rest) →
      ∃ s ts, step s ts = .ok (.done s', rest) := by
    intro n
    induction n with
    | zero =>
      intro s ts h
      cases h
    | succ n ih =>
      intro s ts h
      rw [loopFor_succ] at h
      split at h
      · cases h
      · exact ih _ _ h
      · rename_i hdone
        cases h
        exact ⟨s, ts, hdone⟩
  exact hfor _ start ts h

/-- Reading a file leaves no tokens. -/
theorem rest_of_file {ts rest : List Token} {f : File} (h : file ts = .ok (f, rest)) :
    rest = [] := by
  rw [file_eq] at h
  obtain ⟨g, ts, hturn⟩ := exists_last_turn h
  cases ts with
  | nil =>
    cases hturn
    rfl
  | cons t ts =>
    simp only [fileTurn, bind_apply, peek_apply, List.head?_cons, pure_apply] at hturn
    split at hturn
    · split at hturn <;> cases hturn
    · cases hturn

/-- Tokens are read as a file just if they are those of a derivation without two fields of one name
in a message, and the file is what the derivation stands for. -/
theorem file_eq_ok_iff {ts rest : List Token} {f : File} : file ts = .ok (f, rest) ↔
    ∃ g : Grammar.File, g.tokens = ts ∧ g.FieldsDistinct ∧ g.value = f ∧ rest = [] := by
  constructor
  · intro h
    obtain ⟨_, hsplit, g, rfl⟩ := spells_file _ _ _ h
    obtain rfl := rest_of_file h
    rw [List.append_nil] at hsplit
    subst hsplit
    have hdistinct : g.FieldsDistinct := by
      by_contra hsame
      obtain ⟨m, left, herror⟩ := exists_file_duplicate hsame
      cases h.symm.trans herror
    have hvalue := Except.ok.inj ((file_derived hdistinct).symm.trans h)
    exact ⟨g, rfl, hdistinct, congrArg Prod.fst hvalue, rfl⟩
  · rintro ⟨g, rfl, hg, rfl, rfl⟩
    exact file_derived hg

end Reading

end DiscoveryGrpc.Proto
