import DiscoveryGrpc.Proofs.Proto.AsRead
import DiscoveryGrpc.Proofs.Proto.Turns
import DiscoveryGrpc.Proto.Reading.File

/-!
# Reading back what was written

Each reading takes the tokens of a written part off the front and gives this part as it is read,
whatever follows. So does the reading of a legible file (`Reading.file_tokens_asRead`), unless a
field or a method in it is taken for something else: then the reading stops there
(`Reading.exists_file_error`).

A message, a service or a file is read in turns, one for each part of it, and what was read so far
is a function of the parts before: `enumsSoFar`, `fieldsSoFar`, `rpcsSoFar` and so on. So the turns
lead to the end if all parts can be read, and to the first part that cannot be read otherwise.
-/

namespace DiscoveryGrpc.Proto

namespace Reading

/-- Of some elements that pass a test, one comes first. -/
theorem exists_first {α : Type} {p : α → Bool} {xs : List α} (h : xs.any p = true) :
    ∃ before x after, xs = before ++ x :: after ∧ (∀ y ∈ before, p y = false) ∧ p x = true := by
  obtain ⟨y, hy, hp⟩ := List.any_eq_true.1 h
  obtain ⟨x, hx⟩ := Option.isSome_iff_exists.1 (List.find?_isSome.2 ⟨y, hy, hp⟩)
  obtain ⟨hp, before, after, hsplit, hbefore⟩ := List.find?_eq_some_iff_append.1 hx
  exact ⟨before, x, after, hsplit, by simpa using hbefore, hp⟩

/-! ## Options -/

theorem settingName_tokens (s : Setting) (ts : List Token) :
    settingName (s.nameTokens ++ ts) = .ok (s.name, ts) := by
  unfold Setting.nameTokens
  split <;> simp [settingName]

/-- A written value is read back, unless it would go on into a literal behind it. -/
theorem settingValue_token {v : SettingValue} (hv : v.Writable) {ts : List Token}
    (h : ∀ s, ts.head? ≠ some (.text s)) : settingValue (v.token :: ts) = .ok (v, ts) := by
  cases v with
  | string s => simp [settingValue, SettingValue.token, string_cons h]
  | bool b => cases b <;> simp [settingValue, SettingValue.token, wordValue]
  | int i => simp [settingValue, SettingValue.token]
  | literal w =>
    have hw : wordValue w = .literal w := by
      unfold wordValue
      split
      · exact absurd rfl hv.2.1
      · exact absurd rfl hv.2.2
      · rfl
    simp [settingValue, SettingValue.token, hw]

theorem settingEntries_tokens {entries : List (String × SettingValue)}
    (h : ∀ e ∈ entries, e.2.Writable) (ts : List Token) :
    settingEntries (entries.flatMap Setting.entryTokens ++ .closeBrace :: ts)
      = .ok (entries, ts) := by
  refine (Leads.items (fun done => done) ?_ (by simp [Setting.entryTokens])).finish (by simp)
  rintro done ⟨key, v⟩ after rfl
  have hv : v.Writable := h (key, v) (by simp)
  have hnext : ∀ s, (after.flatMap Setting.entryTokens ++ .closeBrace :: ts).head?
      ≠ some (.text s) := by
    cases after <;> simp [Setting.entryTokens]
  simp [Setting.entryTokens, settingValue_token hv hnext]

/-- A written option is read back, unless it would go on into a literal behind it. -/
theorem setting_tokens {s : Setting} (hs : s.Writable) {ts : List Token}
    (h : ∀ s, ts.head? ≠ some (.text s)) : setting (s.tokens ++ ts) = .ok (s, ts) := by
  obtain ⟨name, body⟩ := s
  have hname := settingName_tokens ⟨name, body⟩
  cases body with
  | scalar v =>
    have hv := settingValue_token hs.body h
    have hb : v.token ≠ .openBrace := by
      cases v with
      | bool b => cases b <;> simp [SettingValue.token]
      | _ => simp [SettingValue.token]
    simp only [setting, Setting.tokens, Setting.bodyTokens, bind_apply, peek_apply, expect_cons,
      List.append_assoc, List.cons_append, List.nil_append, List.head?_cons, hname]
    generalize v.token = t at hv hb ⊢
    cases t with
    | openBrace => exact absurd rfl hb
    | _ => simp [hv, Setting.scalar]
  | group entries =>
    simp [setting, Setting.tokens, Setting.bodyTokens, hname,
      settingEntries_tokens fun e he => (hs.body e he).2, Setting.group]

theorem setting_statement {s : Setting} (hs : s.Writable) (ts : List Token) :
    setting (s.tokens ++ .semicolon :: ts) = .ok (s, .semicolon :: ts) :=
  setting_tokens hs (by simp)

/-- Things with commas between them, seen as all but the last one with a comma behind each. -/
theorem separated_concat {α : Type} (tokens : α → List Token) (x y : α) (xs : List α) :
    tokens x ++ (xs ++ [y]).flatMap (fun z => .comma :: tokens z)
      = (x :: xs).flatMap (fun z => tokens z ++ [Token.comma]) ++ tokens y := by
  induction xs generalizing x with
  | nil => simp
  | cons z xs ih => simpa using ih z

theorem bracketTokens_concat (ss : List Setting) (s : Setting) :
    Setting.bracketTokens (ss ++ [s])
      = .openBracket :: (ss.flatMap (fun s => s.tokens ++ [Token.comma])
        ++ (s.tokens ++ [Token.closeBracket])) := by
  cases ss with
  | nil => simp [Setting.bracketTokens]
  | cons x ss =>
    have h := congrArg (· ++ [Token.closeBracket]) (separated_concat Setting.tokens x s ss)
    simpa [Setting.bracketTokens] using h

theorem fieldSettings_tokens {ss : List Setting} (h : ∀ s ∈ ss, s.Writable) (ts : List Token) :
    fieldSettings (Setting.bracketTokens ss ++ .semicolon :: ts) = .ok (ss, .semicolon :: ts) := by
  rcases List.eq_nil_or_concat ss with rfl | ⟨ss, s, rfl⟩
  · simp [fieldSettings, Setting.bracketTokens]
  · have hlast : ∀ ts, setting (s.tokens ++ .closeBracket :: ts) = .ok (s, .closeBracket :: ts) :=
      fun ts => setting_tokens (h s (by simp)) (by simp)
    rw [List.concat_eq_append, bracketTokens_concat]
    simp only [fieldSettings, bind_apply, peek_apply, expect_cons, List.cons_append,
      List.head?_cons, List.append_assoc, List.nil_append]
    refine (Leads.items (fun done => done) ?_ (by simp)).finish (by simp [hlast, take])
    rintro done x after rfl
    have hx : ∀ ts, setting (x.tokens ++ .comma :: ts) = .ok (x, .comma :: ts) :=
      fun ts => setting_tokens (h x (by simp)) (by simp)
    simp [hx, take]

/-! ## Fields and members -/

theorem FieldLabel.ofWord?_eq_none {w : String} (h : w ≠ "optional" ∧ w ≠ "repeated") :
    FieldLabel.ofWord? w = .none := by
  unfold ofWord?
  split
  · exact absurd rfl h.1
  · exact absurd rfl h.2
  · rfl

theorem member_tokens {x : Field} (hx : x.LegibleMember) (n : Nat) (ts : List Token) :
    member x.name (numberTokens n x.settings ++ ts) = .ok (Field.asMember (n, x), ts) := by
  have hs := hx.settings
  obtain ⟨-, -, ht, hk, hr, ho, -⟩ := hx
  obtain ⟨name, type, repeated, optional, keyType, settings, description, first⟩ := x
  simp_all [member, numberTokens, fieldSettings_tokens hs, Field.asMember, Field.undocumented]

theorem labelAndType_label {w : String} {label : FieldLabel}
    (h : FieldLabel.ofWord? w = some label) (type : String) (ts : List Token) :
    labelAndType w (.word type :: ts) = .ok ((label, type), ts) := by
  simp [labelAndType, h]

theorem labelAndType_type {w : String} (h : FieldLabel.ofWord? w = .none) (ts : List Token) :
    labelAndType w ts = .ok ((.none, w), ts) := by
  simp [labelAndType, h]

theorem keyAndType_map (key value : String) (ts : List Token) :
    keyAndType "map" (.openAngle :: .word key :: .comma :: .word value :: .closeAngle :: ts)
      = .ok ((some key, value), ts) := by
  simp [keyAndType]

theorem keyAndType_type {w : String} {ts : List Token} (h : ts.head? ≠ some .openAngle) :
    keyAndType w ts = .ok ((none, w), ts) := by
  cases ts with
  | nil => simp [keyAndType]
  | cons t ts => cases t <;> simp_all [keyAndType]

/-- A written field begins with a word that is no keyword of a message, and is read back from
there, unless it is taken for something else. -/
theorem exists_field_tokens {x : Field} (hx : x.Legible) (hstuck : x.isStuck = false)
    (hskip : x.isSkipped = false) (n : Nat) :
    ∃ first more, x.tokens n = .word first :: more ∧
      first ∉ ["option", "reserved", "enum", "message"] ∧
      ∀ ts, field first (more ++ ts) = .ok (x.asRead, ts) := by
  have hs := hx.settings
  have hmap := hx.map_repeated
  have hfirst := hx.not_first
  obtain ⟨name, type, repeated, optional, keyType, settings, description, first⟩ := x
  have htype : ∀ ts, keyAndType type.name (.word name :: ts)
      = .ok ((none, type.name), .word name :: ts) := fun ts => keyAndType_type (by simp)
  cases keyType with
  | some key =>
    refine ⟨"map", _, rfl, by decide, fun ts => ?_⟩
    have hlabel := labelAndType_type (w := "map") rfl
    simp_all [field, numberTokens, fieldSettings_tokens hs, keyAndType_map, Field.isMap,
      Field.asRead, Field.unresolved, Field.undocumented, FieldType.unresolved]
  | none =>
    cases repeated with
    | true =>
      refine ⟨"repeated", _, rfl, by decide, fun ts => ?_⟩
      have hlabel := labelAndType_label (w := "repeated") rfl
      simp_all [field, numberTokens, fieldSettings_tokens hs, Field.asRead, Field.unresolved,
        Field.undocumented, FieldType.unresolved]
    | false =>
      cases optional with
      | true =>
        refine ⟨"optional", _, rfl, by decide, fun ts => ?_⟩
        have hlabel := labelAndType_label (w := "optional") rfl
        simp_all [field, numberTokens, fieldSettings_tokens hs, Field.asRead, Field.unresolved,
          Field.undocumented, FieldType.unresolved]
      | false =>
        simp only [Field.isStuck, Field.isSkipped, Field.isPlain, Field.isMap] at hstuck hskip
        refine ⟨type.name, _, rfl, ?_, fun ts => ?_⟩
        · simp_all
        · have hword : type.name ≠ "optional" ∧ type.name ≠ "repeated" := by simp_all
          have hlabel := labelAndType_type (FieldLabel.ofWord?_eq_none hword)
          simp_all [field, numberTokens, fieldSettings_tokens hs, Field.asRead, Field.unresolved,
            Field.undocumented, FieldType.unresolved]

/-- A field without a label begins with its type. -/
theorem tokens_of_isPlain {x : Field} (h : x.isPlain = true) (n : Nat) :
    x.tokens n = .word x.type.name :: .word x.name :: numberTokens n x.settings := by
  obtain ⟨name, type, repeated, optional, keyType, settings, description, first⟩ := x
  cases keyType <;> simp_all [Field.isPlain, Field.isMap, Field.tokens, Field.typeTokens]

theorem semicolon_not_mem_bracketTokens (ss : List Setting) :
    .semicolon ∉ Setting.bracketTokens ss := by
  have htoken (v : SettingValue) : v.token ≠ .semicolon := by
    cases v with
    | bool b => cases b <;> simp [SettingValue.token]
    | _ => simp [SettingValue.token]
  have hsetting (s : Setting) : .semicolon ∉ s.tokens := by
    obtain ⟨name, body⟩ := s
    have hname : .semicolon ∉ Setting.nameTokens ⟨name, body⟩ := by
      unfold Setting.nameTokens
      split <;> simp
    cases body <;> simp [Setting.tokens, Setting.bodyTokens, Setting.entryTokens, hname,
      (htoken _).symm]
  cases ss <;> simp [Setting.bracketTokens, hsetting]

/-! ## Enums and messages -/

/-- An enum of which some members were read: they are in order at any time. -/
def enumSoFar (name : String) (done : List (Nat × Field)) : Message :=
  { name
    isEnum := true
    fields := Field.sort (done.map Field.asMember).reverse }

/-- In a written enum just the member in front has number zero. -/
theorem map_asMember_numbered {e : Message} (he : e.isEnum = true) :
    e.numbered.map Field.asMember = (Field.marked e.fields).map Field.undocumented := by
  have hrest (fs : List Field) : (Message.numberFrom [0] fs).map Field.asMember
      = (fs.map ({ · with first := false })).map Field.undocumented := by
    conv_rhs => rw [← Message.map_snd_numberFrom [0] fs]
    rw [List.map_map, List.map_map]
    refine List.map_congr_left fun x hx => ?_
    have hpos := (Message.numberFrom_range hx).1
    simp [Field.asMember, Field.undocumented, Nat.ne_of_gt hpos]
  unfold Message.numbered
  rw [he]
  cases e.fields with
  | nil => rfl
  | cons x fs =>
    simp only [List.map_cons, hrest, Field.marked]
    rfl

theorem enumSoFar_numberedAscending {e : Message} (he : e.LegibleEnum) :
    enumSoFar e.name e.numberedAscending = e.enumAsRead := by
  have hperm := e.numberedAscending_perm.map Field.asMember
  rw [map_asMember_numbered he.isEnum] at hperm
  have hnames : ((Field.marked e.fields).map Field.undocumented).map (·.name)
      = e.fields.map (·.name) := by
    cases e.fields with
    | nil => rfl
    | cons x fs => simp [Field.marked, Field.undocumented, Function.comp_def]
  have hsort : Field.Distinct (Field.sort ((Field.marked e.fields).map Field.undocumented)) := by
    refine ⟨Field.sorted_sort _, ?_⟩
    rw [((Field.sort_perm _).map _).nodup_iff, hnames]
    exact he.distinct.nodup
  rw [enumSoFar, Message.enumAsRead,
    hsort.sort_eq (((List.reverse_perm _).trans hperm).trans (Field.sort_perm _).symm)]

/-- A member of a new name is added to those that were read. -/
theorem addField_enumSoFar {name : String} {done after : List (Nat × Field)} {x : Nat × Field}
    (h : ((done ++ x :: after).map (·.2.name)).Nodup) :
    (enumSoFar name done).addField (Field.asMember x) = enumSoFar name (done ++ [x]) := by
  have hnew : ∀ g ∈ (enumSoFar name done).fields, g.name ≠ (Field.asMember x).name := by
    intro g hg
    have hg := List.mem_reverse.1 ((Field.sort_perm _).subset hg)
    obtain ⟨y, hy, rfl⟩ := List.mem_map.1 hg
    rw [List.map_append] at h
    exact (List.nodup_append.1 h).2.2 _ (List.mem_map_of_mem hy) _
      (List.mem_map_of_mem List.mem_cons_self)
  rw [Message.addField, Message.addField?_of_new hnew]
  simp [enumSoFar, Field.sort]

theorem enum_tokens {e : Message} (he : e.LegibleEnum) (ts : List Token) :
    enum (e.enumTokens ++ ts) = .ok (e.enumAsRead, ts) := by
  have hnodup : (e.numberedAscending.map (·.2.name)).Nodup := by
    have := (e.map_snd_numberedAscending_perm.map (·.name)).nodup_iff.2 he.distinct.nodup
    rwa [List.map_map] at this
  have hmembers : Leads (blockTurn (.strayInEnum · e.name) fun e first => do
      if first = "option" || first = "reserved" then
        skipStatement
        return e
      else return e.addField (← member first)) { name := e.name, isEnum := true }
      (e.numberedAscending.flatMap (fun x => x.2.memberTokens x.1) ++ .closeBrace :: ts)
      (enumSoFar e.name e.numberedAscending) (.closeBrace :: ts) := by
    refine Leads.items (enumSoFar e.name) ?_ (by simp [Field.memberTokens])
    intro done x after h
    have hx : x ∈ e.numbered := e.numberedAscending_perm.subset (h ▸ by simp)
    have hx := he.members x.2 (e.map_snd_numbered ▸ List.mem_map_of_mem hx)
    refine blockTurn_word ?_
    rw [← addField_enumSoFar (h ▸ hnodup)]
    simp [hx.not_keyword, member_tokens hx]
  rw [← enumSoFar_numberedAscending he]
  simpa [enum, Message.enumTokens, block_eq] using hmembers.finish (blockTurn_close _ _)

/-- Takes an entry of a message behind its first word. -/
def messageEntry (name : String) (m : Message) (first : String) : Reading Message := do
  match first with
  | "enum" => return m.addEnum (← enum)
  | "message" => fail (.nestedMessage name)
  | "option" | "reserved" =>
    skipStatement
    return m
  | first =>
    match m.addField? (← field first) with
    | some m => return m
    | none => fail (.duplicateField name)

/-- One turn of reading a message. -/
def messageTurn (name : String) : Message → Reading (Turn Message) :=
  blockTurn (.strayInMessage · name) (messageEntry name)

theorem message_eq : message = (do
    let name ← word
    expect .openBrace
    loop (messageTurn name) { name }) := rfl

theorem messageEntry_field {name first : String}
    (h : first ∉ ["option", "reserved", "enum", "message"]) {m m' : Message} {x : Field}
    {ts rest : List Token} (hx : field first ts = .ok (x, rest)) (hm : m.addField? x = some m') :
    messageEntry name m first ts = .ok (m', rest) := by
  unfold messageEntry
  split
  · simp at h
  · simp at h
  · simp at h
  · simp at h
  · simp [hx, hm]

theorem messageTurn_skipped {x : Field} (hx : x.isSkipped = true) (n : Nat) (name : String)
    (m : Message) (ts : List Token) :
    messageTurn name m (x.tokens n ++ ts) = .ok (.again m, ts) := by
  obtain ⟨hplain, htype⟩ := Bool.and_eq_true_iff.1 hx
  have hskip : skipStatement ((.word x.name :: .equals :: .int n :: Setting.bracketTokens x.settings)
      ++ .semicolon :: ts) = .ok ((), ts) :=
    skipStatement_append (by simp [semicolon_not_mem_bracketTokens]) ts
  rw [tokens_of_isPlain hplain]
  refine blockTurn_word ?_
  have htype : x.type.name = "option" ∨ x.type.name = "reserved" := by simpa using htype
  rcases htype with h | h <;> simp_all [messageEntry, numberTokens]

theorem exists_messageTurn_error {x : Field} (hx : x.isStuck = true) (n : Nat) (name : String)
    (m : Message) (ts : List Token) :
    ∃ stuck, messageTurn name m (x.tokens n ++ ts) = .error stuck := by
  obtain ⟨hplain, htype⟩ := Bool.and_eq_true_iff.1 hx
  rw [tokens_of_isPlain hplain]
  have hentry : ∃ stuck, messageEntry name m x.type.name
      (.word x.name :: numberTokens n x.settings ++ ts) = .error stuck := by
    have hkey : ∀ ts, keyAndType x.name (.equals :: ts) = .ok ((none, x.name), .equals :: ts) :=
      fun ts => keyAndType_type (by simp)
    have hword : ∀ ts, word (.equals :: ts) = .error ⟨.noIdentifier .equals, ts.length + 1⟩ :=
      fun ts => rfl
    have hbrace : ∀ ts, expect .openBrace (.equals :: ts)
        = .error ⟨.expected .openBrace .equals, ts.length + 1⟩ := fun ts => rfl
    have hoptional := labelAndType_label (w := "optional") rfl
    have hrepeated := labelAndType_label (w := "repeated") rfl
    simp only [List.contains_cons, List.contains_nil, Bool.or_false, Bool.or_eq_true,
      beq_iff_eq] at htype
    -- an enum has no brace, and the name is the type of the field behind a label
    rcases htype with h | h | h | h <;>
      simp [h, messageEntry, enum, field, numberTokens, hoptional, hrepeated, hkey, hword, hbrace]
  exact hentry.imp fun _ h => blockTurn_stuck h

/-- A message of which some enums were read. -/
def enumsSoFar (name : String) (done : Table Message) : Message :=
  { name, enums := done.mapValues Message.enumAsRead }

/-- A message of which all enums and some fields were read. -/
def fieldsSoFar (m : Message) (done : List Field) : Message :=
  { enumsSoFar m.name m.enums with fields := (done.filter (!·.isSkipped)).map Field.asRead }

theorem addField?_fieldsSoFar {m : Message} {done after : List Field} {x : Field}
    (h : Field.Distinct (done ++ x :: after)) (hx : x.isSkipped = false) :
    (fieldsSoFar m done).addField? x.asRead = some (fieldsSoFar m (done ++ [x])) := by
  have hnew : ∀ g ∈ (fieldsSoFar m done).fields, g.name ≠ x.asRead.name := by
    intro g hg
    obtain ⟨y, hy, rfl⟩ := List.mem_map.1 hg
    exact Field.nodup_append_cons h.nodup y (List.mem_of_mem_filter hy)
  have hle : ∀ g ∈ (fieldsSoFar m done).fields, g.le x.asRead = true := by
    intro g hg
    obtain ⟨y, hy, rfl⟩ := List.mem_map.1 hg
    exact (List.pairwise_append.1 h.sorted).2.2 y (List.mem_of_mem_filter hy) x List.mem_cons_self
  rw [Message.addField?_of_new hnew, Field.insert_append hle hnew]
  simp [fieldsSoFar, hx]

theorem addEnum_enumsSoFar {name : String} {done after : Table Message} {e : String × Message}
    (h : Table.Named Message.name (done ++ e :: after)) :
    (enumsSoFar name done).addEnum e.2.enumAsRead = enumsSoFar name (done ++ [e]) := by
  have hname : e.2.enumAsRead.name = e.1 := h.own e (by simp)
  rw [Message.addEnum, hname]
  simp only [enumsSoFar, Table.insert_mapValues h.sorted]

theorem leads_enums {m : Message} (hm : m.Legible) (ts : List Token) :
    Leads (messageTurn m.name) { name := m.name }
      (m.enums.flatMap (fun e => .word "enum" :: e.2.enumTokens) ++ ts) (fieldsSoFar m []) ts := by
  refine Leads.items (enumsSoFar m.name) ?_ (by simp)
  intro done e after h
  have he := hm.enums e.2 (Table.mem_values_of_mem (h ▸ by simp))
  refine blockTurn_word ?_
  rw [← addEnum_enumsSoFar (h ▸ hm.named)]
  simp [messageEntry, enum_tokens he]

theorem leads_fields {m : Message} {fs : List Field} (hfs : ∀ x ∈ fs, x.Legible)
    (hdistinct : Field.Distinct fs) (hstuck : ∀ x ∈ fs, x.isStuck = false) (number : Field → Nat)
    (ts : List Token) :
    Leads (messageTurn m.name) (fieldsSoFar m []) (fs.flatMap (fun x => x.tokens (number x)) ++ ts)
      (fieldsSoFar m fs) ts := by
  refine Leads.items (fieldsSoFar m) ?_ (by simp [Field.tokens])
  intro done x after h
  have hx : x ∈ fs := h ▸ by simp
  cases hskip : x.isSkipped with
  | true =>
    have hsame : fieldsSoFar m (done ++ [x]) = fieldsSoFar m done := by simp [fieldsSoFar, hskip]
    rw [hsame]
    exact messageTurn_skipped hskip ..
  | false =>
    obtain ⟨first, more, htokens, hfirst, hread⟩ :=
      exists_field_tokens (hfs x hx) (hstuck x hx) hskip (number x)
    rw [htokens]
    exact blockTurn_word
      (messageEntry_field hfirst (hread _) (addField?_fieldsSoFar (h ▸ hdistinct) hskip))

theorem message_tokens {m : Message} (hm : m.Legible) (hstuck : m.isStuck = false)
    (ts : List Token) : message (m.tokens ++ ts) = .ok (m.asRead, ts) := by
  have hstuck : ∀ x ∈ m.fields, x.isStuck = false := by simpa [Message.isStuck] using hstuck
  have hfields := leads_fields (m := m) hm.fields hm.distinct hstuck m.numberOf (.closeBrace :: ts)
  have hend : fieldsSoFar m m.fields = m.asRead := rfl
  rw [← hend]
  simpa [message_eq, Message.tokens, Table.flatMap_values] using
    ((leads_enums hm _).trans hfields).finish (blockTurn_close _ _)

theorem exists_message_error {m : Message} (hm : m.Legible) (hstuck : m.isStuck = true)
    (ts : List Token) : ∃ stuck, message (m.tokens ++ ts) = .error stuck := by
  obtain ⟨before, x, after, hsplit, hbefore, hx⟩ := exists_first hstuck
  obtain ⟨stuck, hturn⟩ := exists_messageTurn_error hx (m.numberOf x) m.name (fieldsSoFar m before)
    (after.flatMap (fun x => x.tokens (m.numberOf x)) ++ .closeBrace :: ts)
  have hdistinct : Field.Distinct before := by
    have := hm.distinct
    rw [hsplit, Field.distinct_iff, Field.Sorted, List.map_append] at this
    exact ⟨(List.pairwise_append.1 this.1).1, (List.nodup_append.1 this.2).1⟩
  have hfields := leads_fields (m := m) (fun y hy => hm.fields y (hsplit ▸ by simp [hy])) hdistinct
    hbefore m.numberOf (x.tokens (m.numberOf x)
      ++ (after.flatMap (fun x => x.tokens (m.numberOf x)) ++ .closeBrace :: ts))
  refine ⟨stuck, ?_⟩
  simpa [message_eq, Message.tokens, Table.flatMap_values, hsplit] using
    ((leads_enums hm _).trans hfields).stick hturn

/-! ## Services -/

theorem rpcSettings_tokens {ss : List Setting} (h : ∀ s ∈ ss, s.Writable) (name : String)
    (ts : List Token) :
    rpcSettings name (ss.flatMap Setting.statementTokens ++ .closeBrace :: ts) = .ok (ss, ts) := by
  refine (Leads.items (fun done => done) ?_ (by simp [Setting.statementTokens])).finish
    (by simp [take, Entry.ofToken?])
  rintro done s after rfl
  simp [Setting.statementTokens, take, setting_statement (h s (by simp))]

theorem parenthesized_tokens (name : String) (ts : List Token) :
    parenthesized (.openParen :: .word name :: .closeParen :: ts) = .ok (name, ts) := by
  simp [parenthesized]

theorem returns_cons (rpc : String) (ts : List Token) :
    returns rpc (.word "returns" :: ts) = .ok ((), ts) := by
  simp [returns]

theorem rpc_tokens {r : Rpc} (hr : r.Legible) (hstuck : r.isStuck = false) (ts : List Token) :
    rpc (r.tokens ++ ts) = .ok (r.undocumented, ts) := by
  have hset := rpcSettings_tokens hr.settings r.name ts
  obtain ⟨name, input, output, description, settings⟩ := r
  simp only [Rpc.isStuck, Bool.or_eq_false_iff, beq_eq_false_iff_ne] at hstuck
  cases settings with
  | nil =>
    simp_all [rpc, Rpc.tokens, Rpc.bodyTokens, parenthesized_tokens, returns_cons, take,
      Rpc.undocumented]
  | cons s ss =>
    simp_all [rpc, Rpc.tokens, Rpc.bodyTokens, parenthesized_tokens, returns_cons, take,
      Rpc.undocumented]

theorem exists_rpc_error {r : Rpc} (hstuck : r.isStuck = true) (ts : List Token) :
    ∃ stuck, rpc (r.tokens ++ ts) = .error stuck := by
  have hstuck : r.input = "stream" ∨ r.output = "stream" := by simpa [Rpc.isStuck] using hstuck
  simp [rpc, Rpc.tokens, parenthesized_tokens, returns_cons, hstuck]

/-- A service of which all options and some rpcs were read. -/
def rpcsSoFar (s : Service) (done : Table Rpc) : Service :=
  { name := s.name, settings := s.settings, rpcs := done.mapValues Rpc.undocumented }

/-- Takes an entry of a service behind its first word. -/
def serviceEntry (name : String) (s : Service) (first : String) : Reading Service := do
  match first with
  | "option" =>
    let x ← setting
    expect .semicolon
    return { s with settings := s.settings ++ [x] }
  | "rpc" =>
    let r ← rpc
    return { s with rpcs := s.rpcs.insert r.name r }
  | other => fail (.strayWordInService other name)

/-- One turn of reading a service. -/
def serviceTurn (name : String) : Service → Reading (Turn Service) :=
  blockTurn (.strayInService · name) (serviceEntry name)

theorem serviceTurn_stuck (name : String) (s : Service) {ts : List Token} {stuck : Stuck}
    (h : rpc ts = .error stuck) : serviceTurn name s (.word "rpc" :: ts) = .error stuck :=
  blockTurn_stuck (by simp [serviceEntry, h])

theorem service_eq : service = (do
    let name ← word
    expect .openBrace
    loop (serviceTurn name) { name }) := rfl

theorem leads_serviceSettings {s : Service} (hs : s.Legible) (ts : List Token) :
    Leads (serviceTurn s.name) { name := s.name }
      (s.settings.flatMap Setting.statementTokens ++ ts) (rpcsSoFar s []) ts := by
  refine Leads.items (fun done => ({ name := s.name, settings := done } : Service)) ?_
    (by simp [Setting.statementTokens])
  intro done x after h
  refine blockTurn_word ?_
  simp [serviceEntry, setting_statement (hs.settings x (h ▸ by simp))]

theorem leads_rpcs {s : Service} {rpcs : Table Rpc} (hnamed : rpcs.Named Rpc.name)
    (hrpcs : ∀ e ∈ rpcs, e.2.Legible) (hstuck : ∀ e ∈ rpcs, e.2.isStuck = false)
    (ts : List Token) :
    Leads (serviceTurn s.name) (rpcsSoFar s [])
      (rpcs.flatMap (fun r => .word "rpc" :: r.2.tokens) ++ ts) (rpcsSoFar s rpcs) ts := by
  refine Leads.items (rpcsSoFar s) ?_ (by simp)
  intro done r after h
  have hmem : r ∈ rpcs := h ▸ by simp
  have hr := rpc_tokens (hrpcs r hmem) (hstuck r hmem)
  have hname : r.2.undocumented.name = r.1 := hnamed.own r hmem
  refine blockTurn_word ?_
  simp [serviceEntry, hr, rpcsSoFar, hname, Table.insert_mapValues (h ▸ hnamed.sorted)]

theorem service_tokens {s : Service} (hs : s.Legible) (hstuck : s.isStuck = false)
    (ts : List Token) : service (s.tokens ++ ts) = .ok (s.undocumented, ts) := by
  have hstuck : ∀ r ∈ s.rpcs.values, r.isStuck = false := by simpa [Service.isStuck] using hstuck
  have hrpcs := leads_rpcs (s := s) hs.named
    (List.forall_mem_map.1 hs.rpcs) (List.forall_mem_map.1 hstuck) (.closeBrace :: ts)
  have hend : rpcsSoFar s s.rpcs = s.undocumented := rfl
  rw [← hend]
  simpa [service_eq, Service.tokens, Table.flatMap_values] using
    ((leads_serviceSettings hs _).trans hrpcs).finish (blockTurn_close _ _)

theorem exists_service_error {s : Service} (hs : s.Legible) (hstuck : s.isStuck = true)
    (ts : List Token) : ∃ stuck, service (s.tokens ++ ts) = .error stuck := by
  rw [Service.isStuck, Table.values, List.any_map] at hstuck
  obtain ⟨before, r, after, hsplit, hbefore, hr⟩ := exists_first hstuck
  have hlater : ∀ e ∈ before ++ r :: after, e.2.Legible :=
    hsplit ▸ List.forall_mem_map.1 hs.rpcs
  have hrpcs := leads_rpcs (s := s) (hsplit ▸ hs.named).of_append
    (fun e he => hlater e (List.mem_append_left _ he)) hbefore
    (.word "rpc" :: r.2.tokens
      ++ (after.flatMap (fun r => .word "rpc" :: r.2.tokens) ++ .closeBrace :: ts))
  obtain ⟨stuck, hread⟩ := exists_rpc_error (r := r.2) hr
    (after.flatMap (fun r => .word "rpc" :: r.2.tokens) ++ .closeBrace :: ts)
  have hturn := serviceTurn_stuck s.name (rpcsSoFar s before) hread
  refine ⟨stuck, ?_⟩
  simpa [service_eq, Service.tokens, Table.flatMap_values, hsplit] using
    ((leads_serviceSettings hs _).trans hrpcs).stick hturn

/-! ## Files -/

/-- One turn of reading a file. -/
def fileTurn (f : File) : Reading (Turn File) := do
  match ← peek with
  | none => return .done f
  | some _ => return .again (← statement f (← word))

theorem fileTurn_word {f f' : File} {first : String} {ts rest : List Token}
    (h : statement f first ts = .ok (f', rest)) :
    fileTurn f (.word first :: ts) = .ok (.again f', rest) := by
  simp [fileTurn, h]

theorem fileTurn_message_stuck {f : File} {ts : List Token} {stuck : Stuck}
    (h : message ts = .error stuck) : fileTurn f (.word "message" :: ts) = .error stuck := by
  simp [fileTurn, statement, h]

theorem fileTurn_service_stuck {f : File} {ts : List Token} {stuck : Stuck}
    (h : service ts = .error stuck) : fileTurn f (.word "service" :: ts) = .error stuck := by
  simp [fileTurn, statement, h]

theorem file_eq : file = loop fileTurn {} := rfl

/-- A file of which the package and some options were read. -/
def settingsSoFar (f : File) (done : List Setting) : File :=
  { package := f.package, settings := done }

/-- A file of which the options and some messages were read. -/
def messagesSoFar (f : File) (done : Table Message) : File :=
  { settingsSoFar f f.settings with messages := done.mapValues Message.asRead }

/-- A file of which all but some services were read. -/
def servicesSoFar (f : File) (done : Table Service) : File :=
  { messagesSoFar f f.messages with services := done.mapValues Service.undocumented }

theorem leads_services {f : File} {services : Table Service}
    (hnamed : services.Named Service.name) (hservices : ∀ e ∈ services, e.2.Legible)
    (hstuck : ∀ e ∈ services, e.2.isStuck = false) (ts : List Token) :
    Leads fileTurn (servicesSoFar f [])
      (services.flatMap (fun s => .word "service" :: s.2.tokens) ++ ts) (servicesSoFar f services)
      ts := by
  refine Leads.items (servicesSoFar f) ?_ (by simp)
  intro done s after h
  have hmem : s ∈ services := h ▸ by simp
  have hs := service_tokens (hservices s hmem) (hstuck s hmem)
  have hname : s.2.undocumented.name = s.1 := hnamed.own s hmem
  refine fileTurn_word ?_
  simp [statement, hs, servicesSoFar, hname, Table.insert_mapValues (h ▸ hnamed.sorted)]

theorem leads_messages {f : File} {messages : Table Message}
    (hnamed : messages.Named Message.name) (hmessages : ∀ e ∈ messages, e.2.Legible)
    (hstuck : ∀ e ∈ messages, e.2.isStuck = false) (ts : List Token) :
    Leads fileTurn (messagesSoFar f [])
      (messages.flatMap (fun m => .word "message" :: m.2.tokens) ++ ts) (messagesSoFar f messages)
      ts := by
  refine Leads.items (messagesSoFar f) ?_ (by simp)
  intro done m after h
  have hmem : m ∈ messages := h ▸ by simp
  have hm := message_tokens (hmessages m hmem) (hstuck m hmem)
  have hname : m.2.asRead.name = m.1 := hnamed.own m hmem
  refine fileTurn_word ?_
  simp [statement, hm, messagesSoFar, hname, Table.insert_mapValues (h ▸ hnamed.sorted)]

theorem leads_settings {f : File} (hf : f.Legible) (ts : List Token) :
    Leads fileTurn (settingsSoFar f []) (f.settings.flatMap Setting.statementTokens ++ ts)
      (messagesSoFar f []) ts := by
  refine Leads.items (settingsSoFar f) ?_ (by simp [Setting.statementTokens])
  intro done s after h
  refine fileTurn_word ?_
  simp [statement, setting_statement (hf.settings s (h ▸ by simp)), settingsSoFar]

theorem leads_imports (names : List String) (f : File) (ts : List Token) :
    Leads fileTurn f (names.flatMap File.importTokens ++ ts) f ts := by
  refine Leads.items (fun _ => f) ?_ (by simp [File.importTokens])
  intro done name after _
  refine fileTurn_word ?_
  simp [statement, skipStatement]

/-- What stands in front of the messages of a file is read whatever stands behind it. -/
theorem leads_head {f : File} (hf : f.Legible) (ts : List Token) :
    Leads fileTurn {} ([Token.word "syntax", .equals, .text "proto3", .semicolon] ++ (f.packageTokens
      ++ (f.imports.flatMap File.importTokens ++ (f.settings.flatMap Setting.statementTokens
      ++ ts)))) (messagesSoFar f []) ts := by
  have hstart : ∀ ts, fileTurn {} ([Token.word "syntax", .equals, .text "proto3", .semicolon] ++ ts)
      = .ok (.again {}, ts) := fun ts => by
    have hsyntax : string (.text "proto3" :: .semicolon :: ts) = .ok ("proto3", .semicolon :: ts) :=
      string_cons (by simp) _
    exact fileTurn_word (by simp [statement, hsyntax])
  have hpackage : ∀ ts, Leads fileTurn {} (f.packageTokens ++ ts) (settingsSoFar f []) ts := by
    intro ts
    unfold File.packageTokens
    split
    · rename_i h
      have hempty : f.package = "" := by simpa using h
      simpa [settingsSoFar, hempty] using Leads.refl _ ts
    · refine .one (fileTurn_word ?_) (by simp)
      simp [statement, settingsSoFar]
  exact ((((Leads.one (hstart _) (by simp)).trans (hpackage _)).trans
    (leads_imports f.imports _ _)).trans (leads_settings hf _))

/-- A legible file is read back from its tokens as much as it can be. -/
theorem file_tokens_asRead {f : File} (hf : f.Legible) (hstuck : f.isStuck = false) :
    file f.tokens = .ok (f.asRead, []) := by
  obtain ⟨hm, hs⟩ := Bool.or_eq_false_iff.1 hstuck
  have hm : ∀ m ∈ f.messages.values, m.isStuck = false := by simpa using hm
  have hs : ∀ s ∈ f.services.values, s.isStuck = false := by simpa using hs
  have hmessages := leads_messages (f := f) hf.namedMessages
    (List.forall_mem_map.1 hf.messages) (List.forall_mem_map.1 hm)
    (f.services.flatMap (fun s => .word "service" :: s.2.tokens) ++ [])
  have hservices := leads_services (f := f) hf.namedServices
    (List.forall_mem_map.1 hf.services) (List.forall_mem_map.1 hs) []
  have hall := ((leads_head hf _).trans hmessages).trans hservices
  rw [List.append_nil] at hall
  rw [file_eq, File.tokens_eq, Table.flatMap_values, Table.flatMap_values]
  exact hall.finish rfl

/-- A clear file is read back from its tokens, up to descriptions and what its types name. -/
theorem file_tokens {f : File} (hf : f.Legible) (hc : f.Clear) :
    file f.tokens = .ok (f.unresolved, []) :=
  hc.asRead_eq hf ▸ file_tokens_asRead hf hc.isStuck_eq_false

/-- A file with a field or a method that is taken for something else is not read back. -/
theorem exists_file_error {f : File} (hf : f.Legible) (hstuck : f.isStuck = true) :
    ∃ stuck, file f.tokens = .error stuck := by
  rw [file_eq, File.tokens_eq, Table.flatMap_values, Table.flatMap_values]
  cases hm : f.messages.values.any (·.isStuck) with
  | true =>
    rw [Table.values, List.any_map] at hm
    obtain ⟨before, m, after, hsplit, hbefore, hm⟩ := exists_first hm
    have hlegible : ∀ e ∈ before ++ m :: after, e.2.Legible :=
      hsplit ▸ List.forall_mem_map.1 hf.messages
    have hmessages := leads_messages (f := f) (hsplit ▸ hf.namedMessages).of_append
      (fun e he => hlegible e (List.mem_append_left _ he)) hbefore
      (.word "message" :: m.2.tokens ++ (after.flatMap (fun m => .word "message" :: m.2.tokens)
        ++ f.services.flatMap (fun s => .word "service" :: s.2.tokens)))
    obtain ⟨stuck, hread⟩ := exists_message_error (hlegible m (by simp)) hm
      (after.flatMap (fun m => .word "message" :: m.2.tokens)
        ++ f.services.flatMap (fun s => .word "service" :: s.2.tokens))
    have hturn := fileTurn_message_stuck (f := messagesSoFar f before) hread
    refine ⟨stuck, ?_⟩
    simpa [hsplit] using ((leads_head hf _).trans hmessages).stick hturn
  | false =>
    have hs : f.services.values.any (·.isStuck) = true := by simpa [File.isStuck, hm] using hstuck
    have hm : ∀ m ∈ f.messages.values, m.isStuck = false := by simpa using hm
    rw [Table.values, List.any_map] at hs
    obtain ⟨before, s, after, hsplit, hbefore, hs⟩ := exists_first hs
    have hlegible : ∀ e ∈ before ++ s :: after, e.2.Legible :=
      hsplit ▸ List.forall_mem_map.1 hf.services
    have hservices := leads_services (f := f) (hsplit ▸ hf.namedServices).of_append
      (fun e he => hlegible e (List.mem_append_left _ he)) hbefore
      (.word "service" :: s.2.tokens ++ after.flatMap (fun s => .word "service" :: s.2.tokens))
    have hmessages := leads_messages (f := f) hf.namedMessages
      (List.forall_mem_map.1 hf.messages) (List.forall_mem_map.1 hm)
      (before.flatMap (fun s => .word "service" :: s.2.tokens)
        ++ (.word "service" :: s.2.tokens
          ++ after.flatMap (fun s => .word "service" :: s.2.tokens)))
    obtain ⟨stuck, hread⟩ := exists_service_error (hlegible s (by simp)) hs
      (after.flatMap (fun s => .word "service" :: s.2.tokens))
    have hturn := fileTurn_service_stuck (f := servicesSoFar f before) hread
    refine ⟨stuck, ?_⟩
    simpa [hsplit] using (((leads_head hf _).trans hmessages).trans hservices).stick hturn

end Reading

end DiscoveryGrpc.Proto
