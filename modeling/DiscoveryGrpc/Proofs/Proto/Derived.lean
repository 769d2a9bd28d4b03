import Mathlib.Data.List.Induction
import DiscoveryGrpc.Proofs.Proto.Grammar
import DiscoveryGrpc.Proofs.Proto.Reading

/-!
# Reading what the grammar derives

Every derivation is read as what it stands for, whatever follows it (`Reading.file_derived`), unless
a message in it has two fields of one name: then the reading stops at the second one
(`Reading.exists_file_duplicate`).

There is one lemma for each part of the grammar. A part that can end in literals asks for tokens
behind it that begin otherwise.
-/

namespace DiscoveryGrpc.Proto

open Grammar (Block)

namespace Reading

/-- What holds of no elements and not of all of them is lost at one element. -/
theorem exists_first_break {α : Type} {P : List α → Prop} (h : P []) {xs : List α} (hxs : ¬P xs) :
    ∃ before x after, xs = before ++ x :: after ∧ P before ∧ ¬P (before ++ [x]) := by
  induction xs using List.reverseRecOn with
  | nil => exact absurd h hxs
  | append_singleton xs x ih =>
    by_cases hP : P xs
    · exact ⟨xs, x, [], rfl, hP, hxs⟩
    · obtain ⟨before, y, after, rfl, hbefore, hy⟩ := ih hP
      exact ⟨before, y, after ++ [x], by simp, hbefore, hy⟩

/-! ## Options -/

theorem literals_derived (start : String) (more : List String) {ts : List Token}
    (h : ∀ s, ts.head? ≠ some (.text s)) :
    literals start (more.map .text ++ ts) = (more.foldl (· ++ ·) start, ts) := by
  induction more generalizing start with
  | nil => exact literals_of_ne h start
  | cons s more ih =>
    rw [List.map_cons, List.cons_append, literals, List.foldl_cons]
    exact ih _

/-- Literals are taken together up to the first other token. -/
theorem string_derived (s : Grammar.Literals) {ts : List Token}
    (h : ∀ s, ts.head? ≠ some (.text s)) : string (s.tokens ++ ts) = .ok (s.value, ts) := by
  obtain ⟨first, more⟩ := s
  have hmore := literals_derived first more h
  simp [string, take, Grammar.Literals.tokens, Grammar.Literals.value, hmore]

theorem settingName_derived (s : Grammar.Setting) (ts : List Token) :
    settingName (s.nameTokens ++ ts) = .ok (s.name, ts) := by
  unfold Grammar.Setting.nameTokens
  split <;> simp [settingName]

theorem settingValue_derived (v : Grammar.Value) {ts : List Token}
    (h : ∀ s, ts.head? ≠ some (.text s)) : settingValue (v.tokens ++ ts) = .ok (v.value, ts) := by
  cases v with
  | strings s =>
    have hs := string_derived s h
    simp_all [settingValue, Grammar.Value.tokens, Grammar.Value.value, Grammar.Literals.tokens]
  | int i => simp [settingValue, Grammar.Value.tokens, Grammar.Value.value]
  | word name => simp [settingValue, Grammar.Value.tokens, Grammar.Value.value]

theorem settingEntries_derived (entries : List Grammar.Entry) (ts : List Token) :
    settingEntries (entries.flatMap Grammar.Entry.tokens ++ .closeBrace :: ts)
      = .ok (entries.filterMap Grammar.Entry.value?, ts) := by
  refine (Leads.items (fun done => done.filterMap Grammar.Entry.value?) ?_ ?_).finish (by simp)
  · intro done x after _
    cases x with
    | comma => simp [Grammar.Entry.tokens, Grammar.Entry.value?]
    | semicolon => simp [Grammar.Entry.tokens, Grammar.Entry.value?]
    | pair key v =>
      have hnext : ∀ s, (after.flatMap Grammar.Entry.tokens ++ .closeBrace :: ts).head?
          ≠ some (.text s) := by
        cases after with
        | nil => simp
        | cons y after => cases y <;> simp [Grammar.Entry.tokens]
      have hv := settingValue_derived v hnext
      simp [Grammar.Entry.tokens, Grammar.Entry.value?, hv]
  · rintro (_ | _ | _) <;> simp [Grammar.Entry.tokens]

/-- A value does not begin with a brace. -/
theorem head?_value_tokens (v : Grammar.Value) (ts : List Token) :
    (v.tokens ++ ts).head? ≠ some .openBrace := by
  cases v <;> simp [Grammar.Value.tokens, Grammar.Literals.tokens]

theorem setting_derived (s : Grammar.Setting) {ts : List Token}
    (h : ∀ s, ts.head? ≠ some (.text s)) : setting (s.tokens ++ ts) = .ok (s.value, ts) := by
  have hname := settingName_derived s
  obtain ⟨name, enclosed, body⟩ := s
  cases body with
  | scalar v =>
    have hv := settingValue_derived v h
    -- no value begins with a brace, so this is read as a scalar
    have hbrace := head?_value_tokens v ts
    simp only [setting, Grammar.Setting.tokens, Grammar.SettingBody.tokens, bind_apply, peek_apply,
      List.append_assoc, List.cons_append, expect_cons, hname, hv]
    rfl
  | group entries =>
    simp [setting, Grammar.Setting.tokens, Grammar.SettingBody.tokens, hname,
      settingEntries_derived, Setting.group, Grammar.Setting.value, Grammar.SettingBody.value]

theorem setting_rest (s : Grammar.Setting) (ts : List Token) :
    setting (s.restTokens ++ ts) = .ok (s.value, .semicolon :: ts) := by
  rw [Grammar.Setting.restTokens, List.append_assoc]
  exact setting_derived s (by simp)

theorem grammarBracketTokens_concat (ss : List Grammar.Setting) (s : Grammar.Setting) :
    Grammar.Setting.bracketTokens (ss ++ [s])
      = .openBracket :: (ss.flatMap (fun s => s.tokens ++ [Token.comma])
        ++ (s.tokens ++ [Token.closeBracket])) := by
  cases ss with
  | nil => simp [Grammar.Setting.bracketTokens]
  | cons x ss =>
    have h := congrArg (· ++ [Token.closeBracket]) (separated_concat Grammar.Setting.tokens x s ss)
    simpa [Grammar.Setting.bracketTokens] using h

theorem fieldSettings_derived (ss : List Grammar.Setting) (ts : List Token) :
    fieldSettings (Grammar.Setting.bracketTokens ss ++ .semicolon :: ts)
      = .ok (ss.map Grammar.Setting.value, .semicolon :: ts) := by
  rcases List.eq_nil_or_concat ss with rfl | ⟨ss, s, rfl⟩
  · simp [fieldSettings, Grammar.Setting.bracketTokens]
  · have hlast : ∀ ts, setting (s.tokens ++ .closeBracket :: ts)
        = .ok (s.value, .closeBracket :: ts) := fun ts => setting_derived s (by simp)
    rw [List.concat_eq_append, grammarBracketTokens_concat]
    simp only [fieldSettings, bind_apply, peek_apply, expect_cons, List.cons_append,
      List.head?_cons, List.append_assoc, List.nil_append]
    refine (Leads.items (fun done => done.map Grammar.Setting.value) ?_ (by simp)).finish
      (by simp [hlast, take])
    intro done x after _
    have hx : ∀ ts, setting (x.tokens ++ .comma :: ts) = .ok (x.value, .comma :: ts) :=
      fun ts => setting_derived x (by simp)
    simp [hx, take]

/-! ## Blocks -/

section

variable {σ α : Type} {stray : Token → SyntaxFault} {statement : σ → String → Reading σ}

theorem blockTurn_semicolon (s : σ) (ts : List Token) :
    blockTurn stray statement s (.semicolon :: ts) = .ok (.again s, ts) := by
  simp [blockTurn, entry, take, Entry.ofToken?]

/-- A block is read item by item; semicolons change nothing. -/
theorem leads_block (state : Block α → σ) {tokens : α → List Token} {b : Block α}
    (hblank : ∀ done, state (done ++ [none]) = state done)
    (hitem : ∀ done x after, b = done ++ some x :: after → ∃ first rest,
      tokens x = .word first :: rest ∧
      ∀ ts, statement (state done) first (rest ++ ts) = .ok (state (done ++ [some x]), ts))
    (hne : ∀ x, tokens x ≠ []) (ts : List Token) :
    Leads (blockTurn stray statement) (state []) (b.flatMap (Block.entryTokens tokens) ++ ts)
      (state b) ts := by
  refine Leads.items state ?_ ?_
  · intro done x after h
    cases x with
    | none =>
      rw [hblank]
      exact blockTurn_semicolon ..
    | some x =>
      obtain ⟨first, rest, htokens, hread⟩ := hitem done x after h
      rw [Block.entryTokens, htokens]
      exact blockTurn_word (hread _)
  · rintro (_ | x)
    · simp [Block.entryTokens]
    · exact hne x

end

theorem skipStatement_derived (s : Grammar.Skipped) (ts : List Token) :
    skipStatement (s.tokens ++ ts) = .ok ((), ts) := by
  rw [Grammar.Skipped.tokens, List.append_assoc]
  exact skipStatement_append s.semicolon_notMem ts

/-! ## Enums -/

theorem member_derived (x : Grammar.Member) (ts : List Token) :
    member x.name (Grammar.numberTokens x.number x.settings ++ ts) = .ok (x.value, ts) := by
  simp [member, Grammar.numberTokens, fieldSettings_derived, Grammar.Member.value]

theorem enumItem_tokens_ne (x : Grammar.EnumItem) : x.tokens ≠ [] := by
  cases x <;> simp [Grammar.EnumItem.tokens, Grammar.Ignored.tokens, Grammar.Member.tokens]

theorem enum_derived (e : Grammar.Enum) (ts : List Token) :
    enum (e.tokens ++ ts) = .ok (e.value, ts) := by
  have hmembers (ts : List Token) : Leads (blockTurn (.strayInEnum · e.name) fun e first => do
      if first = "option" || first = "reserved" then
        skipStatement
        return e
      else return e.addField (← member first)) { name := e.name, isEnum := true }
      (e.block.flatMap (Block.entryTokens Grammar.EnumItem.tokens) ++ ts) e.value ts := by
    refine leads_block (fun done => (⟨e.name, done⟩ : Grammar.Enum).value) (fun done => ?_)
      (fun done x after _ => ?_) enumItem_tokens_ne ts
    · simp [Grammar.Enum.value, Grammar.Enum.members]
    · cases x with
      | ignored x =>
        refine ⟨x.keyword, x.skipped.tokens, rfl, fun ts => ?_⟩
        have hkeyword : x.keyword = "option" ∨ x.keyword = "reserved" := by
          simpa using x.keyword_mem
        simp [hkeyword, skipStatement_derived, Grammar.Enum.value, Grammar.Enum.members,
          Grammar.EnumItem.member?, List.filterMap_cons]
      | member x =>
        refine ⟨x.name, _, rfl, fun ts => ?_⟩
        have hname : ¬(x.name = "option" ∨ x.name = "reserved") := by simpa using x.name_notMem
        simp [hname, member_derived, Grammar.Enum.value, Grammar.Enum.members,
          Grammar.EnumItem.member?]
  simpa [enum, Grammar.Enum.tokens, Block.tokens, block_eq] using
    (hmembers _).finish (blockTurn_close _ ts)

/-! ## Fields and messages -/

theorem field_derived (x : Grammar.Field) (ts : List Token) :
    field x.type.firstWord (x.restTokens ++ ts) = .ok (x.value, ts) := by
  obtain ⟨type, name, number, settings⟩ := x
  have hplain : ∀ type ts, keyAndType type (.word name :: ts)
      = .ok ((none, type), .word name :: ts) := fun type ts => keyAndType_type (by simp)
  have hoptional := labelAndType_label (w := "optional") rfl
  have hrepeated := labelAndType_label (w := "repeated") rfl
  have hmap := labelAndType_type (w := "map") rfl
  cases type with
  | plain type h =>
    have hlabel := labelAndType_type (FieldLabel.ofWord?_eq_none (w := type) (by simp_all))
    simp [field, Grammar.Field.restTokens, Grammar.FieldType.restTokens,
      Grammar.FieldType.firstWord, Grammar.numberTokens, fieldSettings_derived, hlabel, hplain,
      Grammar.Field.value, Grammar.FieldType.key?, Grammar.FieldType.label?,
      Grammar.FieldType.valueName]
  | map key value =>
    simp [field, Grammar.Field.restTokens, Grammar.FieldType.restTokens,
      Grammar.FieldType.angleTokens, Grammar.FieldType.firstWord, Grammar.numberTokens,
      fieldSettings_derived, hmap, keyAndType_map, Grammar.Field.value, Grammar.FieldType.key?,
      Grammar.FieldType.label?, Grammar.FieldType.valueName]
  | labelled label type =>
    cases label <;>
      simp [field, Grammar.Field.restTokens, Grammar.FieldType.restTokens,
        Grammar.FieldType.firstWord, Grammar.Label.word, Grammar.numberTokens,
        fieldSettings_derived, hoptional, hrepeated, hplain, Grammar.Field.value,
        Grammar.FieldType.key?, Grammar.FieldType.label?, Grammar.FieldType.valueName]
  | labelledMap label key value =>
    cases label <;>
      simp [field, Grammar.Field.restTokens, Grammar.FieldType.restTokens,
        Grammar.FieldType.angleTokens, Grammar.FieldType.firstWord, Grammar.Label.word,
        Grammar.numberTokens, fieldSettings_derived, hoptional, hrepeated, keyAndType_map,
        Grammar.Field.value, Grammar.FieldType.key?, Grammar.FieldType.label?,
        Grammar.FieldType.valueName]

/-- A field begins with no keyword of a message. -/
theorem firstWord_notMem (type : Grammar.FieldType) :
    type.firstWord ∉ ["option", "reserved", "enum", "message"] := by
  cases type with
  | plain type h =>
    simp only [List.mem_cons, List.not_mem_nil, not_or, or_false] at h
    simp [Grammar.FieldType.firstWord, h]
  | map key value => simp [Grammar.FieldType.firstWord]
  | labelled label type => cases label <;> simp [Grammar.FieldType.firstWord, Grammar.Label.word]
  | labelledMap label key value =>
    cases label <;> simp [Grammar.FieldType.firstWord, Grammar.Label.word]

theorem name_foldl_addField (m : Message) (fs : List Field) :
    (fs.foldl Message.addField m).name = m.name := by
  induction fs generalizing m with
  | nil => rfl
  | cons f fs ih =>
    rw [List.foldl_cons, ih, Message.addField]
    cases hadd : m.addField? f with
    | none => rfl
    | some m' =>
      obtain ⟨-, rfl⟩ := Message.of_addField? hadd
      rfl

theorem messageEntry_duplicate {name first : String}
    (h : first ∉ ["option", "reserved", "enum", "message"]) {m : Message} {x : Field}
    {ts rest : List Token} (hx : field first ts = .ok (x, rest)) (hm : m.addField? x = none) :
    messageEntry name m first ts = .error ⟨.duplicateField name, rest.length⟩ := by
  unfold messageEntry
  split
  · simp at h
  · simp at h
  · simp at h
  · simp at h
  · simp [hx, hm]

section

variable (name : String) (done : Block Grammar.MessageItem)

theorem messageEntry_ignored (x : Grammar.Ignored) (ts : List Token) :
    messageEntry name (Grammar.Message.value ⟨name, done⟩) x.keyword (x.skipped.tokens ++ ts)
      = .ok (Grammar.Message.value ⟨name, done ++ [some (.ignored x)]⟩, ts) := by
  have hkeyword : x.keyword = "option" ∨ x.keyword = "reserved" := by simpa using x.keyword_mem
  rcases hkeyword with h | h <;>
    simp [messageEntry, h, skipStatement_derived, Grammar.Message.value, Grammar.Message.fields,
      Grammar.Message.enums, Grammar.MessageItem.field?, Grammar.MessageItem.enum?,
      List.filterMap_cons]

theorem messageEntry_enum (e : Grammar.Enum) (ts : List Token) :
    messageEntry name (Grammar.Message.value ⟨name, done⟩) "enum" (e.tokens ++ ts)
      = .ok (Grammar.Message.value ⟨name, done ++ [some (.enum e)]⟩, ts) := by
  have hname : e.value.name = e.name := name_foldl_addField ..
  simp [messageEntry, enum_derived, Message.addEnum, hname, Grammar.Message.value,
    Grammar.Message.fields, Grammar.Message.enums, Grammar.MessageItem.field?,
    Grammar.MessageItem.enum?, List.filterMap_cons]

theorem fields_concat_field (x : Grammar.Field) :
    Grammar.Message.fields ⟨name, done ++ [some (.field x)]⟩
      = Grammar.Message.fields ⟨name, done⟩ ++ [x] := by
  simp [Grammar.Message.fields, Grammar.MessageItem.field?]

theorem mem_fields_value {m : Grammar.Message} {f : Field} :
    f ∈ m.value.fields ↔ ∃ x ∈ m.fields, x.value = f := by
  rw [Grammar.Message.value, (Field.sort_perm _).mem_iff, List.mem_reverse, List.mem_map]

/-- A field of a new name is added to those that were read. -/
theorem messageEntry_new {x : Grammar.Field}
    (h : ∀ y ∈ Grammar.Message.fields ⟨name, done⟩, y.name ≠ x.name) (ts : List Token) :
    messageEntry name (Grammar.Message.value ⟨name, done⟩) x.type.firstWord (x.restTokens ++ ts)
      = .ok (Grammar.Message.value ⟨name, done ++ [some (.field x)]⟩, ts) := by
  have hnew : ∀ g ∈ (Grammar.Message.value ⟨name, done⟩).fields, g.name ≠ x.value.name := by
    intro g hg
    obtain ⟨y, hy, rfl⟩ := mem_fields_value.1 hg
    exact h y hy
  refine messageEntry_field (firstWord_notMem x.type) (field_derived x ts) ?_
  rw [Message.addField?_of_new hnew]
  simp [Grammar.Message.value, fields_concat_field, Field.sort, Grammar.Message.enums,
    Grammar.MessageItem.enum?, List.filterMap_cons]

/-- Reading stops behind a field of a name that is there. -/
theorem messageEntry_known {x : Grammar.Field}
    (h : ∃ y ∈ Grammar.Message.fields ⟨name, done⟩, y.name = x.name) (ts : List Token) :
    messageEntry name (Grammar.Message.value ⟨name, done⟩) x.type.firstWord (x.restTokens ++ ts)
      = .error ⟨.duplicateField name, ts.length⟩ := by
  obtain ⟨y, hy, hn⟩ := h
  have hnone : (Grammar.Message.value ⟨name, done⟩).addField? x.value = none :=
    Message.addField?_eq_none.2 ⟨y.value, mem_fields_value.2 ⟨y, hy, rfl⟩, hn⟩
  exact messageEntry_duplicate (firstWord_notMem x.type) (field_derived x ts) hnone

theorem messageTurn_known {x : Grammar.Field}
    (h : ∃ y ∈ Grammar.Message.fields ⟨name, done⟩, y.name = x.name) (ts : List Token) :
    messageTurn name (Grammar.Message.value ⟨name, done⟩) (x.tokens ++ ts)
      = .error ⟨.duplicateField name, ts.length⟩ :=
  blockTurn_stuck (messageEntry_known name done h ts)

theorem fieldsDistinct_concat_field (x : Grammar.Field) :
    Grammar.Message.FieldsDistinct ⟨name, done ++ [some (.field x)]⟩ ↔
      Grammar.Message.FieldsDistinct ⟨name, done⟩ ∧
        ∀ y ∈ Grammar.Message.fields ⟨name, done⟩, y.name ≠ x.name := by
  rw [Grammar.Message.FieldsDistinct, fields_concat_field, List.map_append, List.nodup_append,
    Grammar.Message.FieldsDistinct]
  simp

end

theorem fieldsDistinct_of_append {name : String} {done after : Block Grammar.MessageItem}
    (h : Grammar.Message.FieldsDistinct ⟨name, done ++ after⟩) :
    Grammar.Message.FieldsDistinct ⟨name, done⟩ := by
  rw [Grammar.Message.FieldsDistinct, Grammar.Message.fields, Block.items, List.filterMap_append,
    List.filterMap_append, List.map_append] at h
  exact (List.nodup_append.1 h).1

/-- The items of a message are read one by one if no two fields have one name. -/
theorem leads_items {name : String} {b : Block Grammar.MessageItem}
    (h : Grammar.Message.FieldsDistinct ⟨name, b⟩) (ts : List Token) :
    Leads (messageTurn name) { name }
      (b.flatMap (Block.entryTokens Grammar.MessageItem.tokens) ++ ts)
      (Grammar.Message.value ⟨name, b⟩) ts := by
  refine leads_block (fun done => Grammar.Message.value ⟨name, done⟩) (fun done => ?_)
    (fun done x after hb => ?_) (fun x => ?_) ts
  · simp [Grammar.Message.value, Grammar.Message.fields, Grammar.Message.enums]
  · cases x with
    | ignored x => exact ⟨_, _, rfl, messageEntry_ignored name done x⟩
    | enum e => exact ⟨_, _, rfl, messageEntry_enum name done e⟩
    | field x =>
      rw [hb, List.append_cons] at h
      have hprefix := fieldsDistinct_of_append h
      exact ⟨_, _, rfl, messageEntry_new name done
        ((fieldsDistinct_concat_field name done x).1 hprefix).2⟩
  · cases x <;> simp [Grammar.MessageItem.tokens, Grammar.Ignored.tokens, Grammar.Field.tokens]

theorem message_derived {m : Grammar.Message} (h : m.FieldsDistinct) (ts : List Token) :
    message (m.tokens ++ ts) = .ok (m.value, ts) := by
  simpa [message_eq, Grammar.Message.tokens, Block.tokens] using
    (leads_items h _).finish (blockTurn_close _ ts)

/-- A message in which two fields have one name is read up to the second one. -/
theorem exists_message_duplicate {m : Grammar.Message} (h : ¬m.FieldsDistinct) (ts : List Token) :
    ∃ left, message (m.tokens ++ ts) = .error ⟨.duplicateField m.name, left⟩ := by
  obtain ⟨before, x, after, hb, hbefore, hx⟩ :=
    exists_first_break (P := fun b => Grammar.Message.FieldsDistinct ⟨m.name, b⟩)
      List.nodup_nil h
  -- only a field can bring a name that is there
  obtain ⟨x, rfl⟩ : ∃ y, x = some (.field y) := by
    refine match x with
      | some (.field y) => ⟨y, rfl⟩
      | some (.enum e) => absurd ?_ hx
      | some (.ignored y) => absurd ?_ hx
      | none => absurd ?_ hx
    all_goals simpa [Grammar.Message.FieldsDistinct, Grammar.Message.fields,
      Grammar.MessageItem.field?, List.filterMap_cons] using hbefore
  have hknown : ∃ y ∈ Grammar.Message.fields ⟨m.name, before⟩, y.name = x.name := by
    simpa [fieldsDistinct_concat_field, hbefore] using hx
  have hlead := leads_items hbefore (x.tokens
    ++ (after.flatMap (Block.entryTokens Grammar.MessageItem.tokens) ++ .closeBrace :: ts))
  have hturn := messageTurn_known m.name before hknown
    (after.flatMap (Block.entryTokens Grammar.MessageItem.tokens) ++ .closeBrace :: ts)
  refine ⟨_, Eq.trans ?_ (hlead.stick hturn)⟩
  simp [message_eq, Grammar.Message.tokens, Block.tokens, hb, Block.entryTokens,
    Grammar.MessageItem.tokens]

/-! ## Services -/

theorem rpcSettings_derived (name : String) (b : Block Grammar.Setting) (ts : List Token) :
    rpcSettings name (b.flatMap (Block.entryTokens Grammar.Setting.statementTokens)
      ++ .closeBrace :: ts) = .ok (b.items.map Grammar.Setting.value, ts) := by
  refine (Leads.items (fun done : Block Grammar.Setting => done.items.map Grammar.Setting.value)
    ?_ ?_).finish (by simp [take, Entry.ofToken?])
  · rintro done (_ | s) after -
    · simp [Block.entryTokens, take, Entry.ofToken?]
    · simp [Block.entryTokens, Grammar.Setting.statementTokens, take, setting_rest]
  · rintro (_ | s) <;> simp [Block.entryTokens, Grammar.Setting.statementTokens]

theorem rpc_derived (r : Grammar.Rpc) (ts : List Token) :
    rpc (r.tokens ++ ts) = .ok (r.value, ts) := by
  have hstream : ¬(r.input = "stream" ∨ r.output = "stream") := not_or.2 ⟨r.input_ne, r.output_ne⟩
  cases hb : r.block? with
  | none =>
    simp [rpc, Grammar.Rpc.tokens, hb, Grammar.Rpc.bodyTokens, parenthesized_tokens, returns_cons,
      hstream, take, Grammar.Rpc.value, Grammar.Rpc.settings]
  | some b =>
    simp [rpc, Grammar.Rpc.tokens, hb, Grammar.Rpc.bodyTokens, Block.tokens, parenthesized_tokens,
      returns_cons, hstream, take, rpcSettings_derived, Grammar.Rpc.value, Grammar.Rpc.settings]

theorem service_derived (s : Grammar.Service) (ts : List Token) :
    service (s.tokens ++ ts) = .ok (s.value, ts) := by
  have hitems (ts : List Token) : Leads (serviceTurn s.name) { name := s.name }
      (s.block.flatMap (Block.entryTokens Grammar.ServiceItem.tokens) ++ ts) s.value ts := by
    refine leads_block (fun done => Grammar.Service.value ⟨s.name, done⟩) (fun done => ?_)
      (fun done x after _ => ?_) (fun x => ?_) ts
    · simp [Grammar.Service.value, Grammar.Service.settings, Grammar.Service.rpcs]
    · cases x with
      | setting x =>
        refine ⟨"option", x.restTokens, rfl, fun ts => ?_⟩
        simp [serviceEntry, setting_rest, Grammar.Service.value, Grammar.Service.settings,
          Grammar.Service.rpcs, Grammar.ServiceItem.setting?, Grammar.ServiceItem.rpc?,
          List.filterMap_cons]
      | rpc r =>
        refine ⟨"rpc", r.tokens, rfl, fun ts => ?_⟩
        simp [serviceEntry, rpc_derived, Grammar.Service.value, Grammar.Service.settings,
          Grammar.Service.rpcs, Grammar.ServiceItem.setting?, Grammar.ServiceItem.rpc?,
          List.filterMap_cons]
        rfl
    · cases x <;> simp [Grammar.ServiceItem.tokens, Grammar.Setting.statementTokens]
  simpa [service_eq, Grammar.Service.tokens, Block.tokens] using
    (hitems _).finish (blockTurn_close _ ts)

/-! ## Files -/

theorem statement_tokens_ne (x : Grammar.Statement) : x.tokens ≠ [] := by
  cases x <;> simp [Grammar.Statement.tokens, Grammar.Setting.statementTokens]

/-- What a statement adds to the statements before it. -/
theorem fileValue_concat (f : Grammar.File) (x : Grammar.Statement) :
    Grammar.File.value (f ++ [x]) = match x with
      | .proto3 _ _ | .imported _ => f.value
      | .package name => { f.value with package := name }
      | .setting s => { f.value with settings := f.value.settings ++ [s.value] }
      | .message m => { f.value with messages := f.value.messages.insert m.name m.value }
      | .service s => { f.value with services := f.value.services.insert s.name s.value } := by
  cases x <;>
    simp [Grammar.File.value, Grammar.File.packages, Grammar.File.settings, Grammar.File.messages,
      Grammar.File.services, Grammar.Statement.package?, Grammar.Statement.setting?,
      Grammar.Statement.message?, Grammar.Statement.service?, List.filterMap_cons]

theorem fileTurn_derived (done : Grammar.File) {x : Grammar.Statement}
    (h : Grammar.File.FieldsDistinct [x]) (ts : List Token) :
    fileTurn done.value (x.tokens ++ ts) = .ok (.again (Grammar.File.value (done ++ [x])), ts) := by
  cases x with
  | proto3 s hs =>
    have hstring : string (s.tokens ++ .semicolon :: ts) = .ok ("proto3", .semicolon :: ts) :=
      hs ▸ string_derived s (by simp)
    simp [fileTurn, Grammar.Statement.tokens, statement, hstring, fileValue_concat]
  | package name => simp [fileTurn, Grammar.Statement.tokens, statement, fileValue_concat]
  | imported s =>
    simp [fileTurn, Grammar.Statement.tokens, statement, skipStatement_derived, fileValue_concat]
  | setting s =>
    simp [fileTurn, Grammar.Statement.tokens, Grammar.Setting.statementTokens, statement,
      setting_rest, fileValue_concat]
  | message m =>
    have hm : m.FieldsDistinct := h m (by simp [Grammar.File.messages, Grammar.Statement.message?])
    simp [fileTurn, Grammar.Statement.tokens, statement, message_derived hm, fileValue_concat]
    rfl
  | service s =>
    simp [fileTurn, Grammar.Statement.tokens, statement, service_derived, fileValue_concat]
    rfl

theorem fieldsDistinct_append {f g : Grammar.File} :
    Grammar.File.FieldsDistinct (f ++ g) ↔
      Grammar.File.FieldsDistinct f ∧ Grammar.File.FieldsDistinct g := by
  simp only [Grammar.File.FieldsDistinct, Grammar.File.messages, List.filterMap_append,
    List.forall_mem_append]

theorem leads_statements {f : Grammar.File} (h : f.FieldsDistinct) (ts : List Token) :
    Leads fileTurn {} (f.tokens ++ ts) f.value ts := by
  refine Leads.items Grammar.File.value (fun done x after hf => ?_) statement_tokens_ne
  rw [hf, List.append_cons, fieldsDistinct_append, fieldsDistinct_append] at h
  exact fileTurn_derived done h.1.2 _

/-- What the grammar derives is read to its end, and is what the derivation stands for. -/
theorem file_derived {f : Grammar.File} (h : f.FieldsDistinct) :
    file f.tokens = .ok (f.value, []) := by
  have hall := leads_statements h []
  rw [List.append_nil] at hall
  exact hall.finish rfl

/-- A file with a message in which two fields have one name is read up to the second one. -/
theorem exists_file_duplicate {f : Grammar.File} (h : ¬f.FieldsDistinct) :
    ∃ message left, file f.tokens = .error ⟨.duplicateField message, left⟩ := by
  obtain ⟨before, x, after, rfl, hbefore, hx⟩ :=
    exists_first_break (P := Grammar.File.FieldsDistinct) (List.forall_mem_nil _) h
  rw [fieldsDistinct_append, not_and] at hx
  obtain ⟨m, rfl, hm⟩ : ∃ m, x = .message m ∧ ¬m.FieldsDistinct := by
    have hx := hx hbefore
    simp only [Grammar.File.FieldsDistinct, not_forall] at hx
    obtain ⟨m, hmem, hm⟩ := hx
    cases x <;> simp_all [Grammar.File.messages, Grammar.Statement.message?]
  obtain ⟨left, hread⟩ := exists_message_duplicate hm (Grammar.File.tokens after)
  have hlead := leads_statements hbefore (Grammar.File.tokens (.message m :: after))
  refine ⟨m.name, left, Eq.trans ?_ (hlead.stick (fileTurn_message_stuck hread))⟩
  simp [file_eq, Grammar.File.tokens]

end Reading

end DiscoveryGrpc.Proto
