import DiscoveryGrpc.Proofs.Proto.Parsed

/-!
# What is read names nothing that is not there

While a file is read, all types of its fields are references (`Reading.gives_referring`), whatever
their names may mean. Resolving looks every one of them up, so that a name with the package of the
file or the message of the field in front, one that is declared further down, and one that is
declared twice all come to mean something in the file, or the text is refused.

`File.resolved_of_ofText` says what this comes to for every text: no reference is left, and besides
being in order (`File.Parsed`) a file that was read has every message and enum that it names.
-/

namespace DiscoveryGrpc.Proto

/-- A file that was read. Everything is in order and under its own name, members of enums have the
type of members, and all other types and the messages of all rpcs are there. -/
structure File.Resolved (f : File) : Prop extends f.Parsed where
  types : ∀ m ∈ f.messages.values, ∀ x ∈ m.fields, x.type.Resolved f m
  keyTypes : ∀ m ∈ f.messages.values, ∀ x ∈ m.fields, ∀ key ∈ x.keyType, key.Resolved f m
  inputs : ∀ s ∈ f.services.values, ∀ r ∈ s.rpcs.values, f.messages.has r.input = true
  outputs : ∀ s ∈ f.services.values, ∀ r ∈ s.rpcs.values, f.messages.has r.output = true

/-! ## Before types are resolved -/

/-- A type that is not resolved yet. -/
def FieldType.IsReference (t : FieldType) : Prop := ∃ n, t = .reference n

/-- A message in which no type is resolved yet. -/
def Message.Referring (m : Message) : Prop :=
  ∀ x ∈ m.fields, x.type.IsReference ∧ ∀ key ∈ x.keyType, key.IsReference

namespace Reading

theorem gives_references {first : String} (h : Lexeme.isWord first = true) : Gives (field first)
    fun x => x.type.IsReference ∧ ∀ key ∈ x.keyType, key.IsReference := by
  refine (gives_labelAndType h).bind fun ⟨label, first⟩ hfirst =>
    (gives_keyAndType hfirst).bind fun ⟨key?, type⟩ _ => .after gives_word.takes fun name =>
      .after (takes_expect _) fun _ => .after gives_int.takes fun _ =>
        .after gives_fieldSettings.takes fun settings => .after (takes_expect _) fun _ =>
          .pure ⟨⟨type, rfl⟩, fun key hkey => ?_⟩
  obtain ⟨word, -, rfl⟩ := Option.map_eq_some_iff.1 hkey
  exact ⟨word, rfl⟩

theorem gives_referringMessage : Gives message Message.Referring := by
  refine .after gives_word.takes fun name => .after (takes_expect _) fun _ =>
    .block (fun m hm first hfirst => ?_) (List.forall_mem_nil _)
  split
  · exact .after gives_enum.takes fun e => .pure hm
  · exact .fail _
  · exact .after takes_skipStatement fun _ => .pure hm
  · exact .after takes_skipStatement fun _ => .pure hm
  · refine (gives_references hfirst).bind fun x hx => ?_
    cases hadd : m.addField? x with
    | none => exact .fail _
    | some m' =>
      obtain ⟨-, rfl⟩ := Message.of_addField? hadd
      refine .pure fun y hy => ?_
      rcases Field.mem_insert.1 hy with rfl | hy
      · exact hx
      · exact hm y hy

theorem gives_referringStatement {f : File} (hf : ∀ m ∈ f.messages.values, m.Referring)
    (first : String) :
    Gives (statement f first) fun f => ∀ m ∈ f.messages.values, m.Referring := by
  unfold statement
  split
  · refine .after (takes_expect _) fun _ => .after takes_string fun name => ?_
    split
    · exact .after (.fail _) fun _ => .after (takes_expect _) fun _ => .pure hf
    · exact .after (takes_expect _) fun _ => .pure hf
  · exact .after gives_word.takes fun package => .after (takes_expect _) fun _ => .pure hf
  · exact .after takes_skipStatement fun _ => .pure hf
  · exact .after gives_setting.takes fun s => .after (takes_expect _) fun _ => .pure hf
  · refine gives_referringMessage.bind fun m hm => .pure fun x hx => ?_
    rcases Table.mem_values_insert hx with rfl | hx
    · exact hm
    · exact hf x hx
  · exact .fail _
  · exact .after gives_service.takes fun s => .pure hf
  · exact .fail _

/-- In what is read no type is resolved. -/
theorem gives_referring : Gives file fun f => ∀ m ∈ f.messages.values, m.Referring := by
  refine .loop (fun f hf => .after takes_peek fun next => ?_) (by simp [Table.values])
  cases next with
  | none => exact .pure hf
  | some _ =>
    exact .after gives_word.takes fun first =>
      (gives_referringStatement hf first).bind fun f hf => .pure hf

end Reading

/-! ## Looking up names -/

namespace Resolution

variable {f : File} {m : Message}

theorem resolved_of_resolveType {name : String} {t t' : FieldType} (ht : t.IsReference)
    (h : resolveType f m name t = .ok t') : t'.Resolved f m := by
  obtain ⟨n, rfl⟩ := ht
  rw [resolveType] at h
  split at h
  · rename_i hlookup
    exact Except.ok.inj h ▸ resolved_of_lookup? hlookup
  · cases h

theorem resolved_of_resolveField {x y : Field} (hx : x.type.IsReference)
    (hkeys : ∀ key ∈ x.keyType, key.IsReference) (h : resolveField f m x = .ok y) :
    y.type.Resolved f m ∧ ∀ key ∈ y.keyType, key.Resolved f m := by
  obtain ⟨-, htype, hkey⟩ := of_resolveField h
  refine ⟨resolved_of_resolveType hx htype, fun key' hkey' => ?_⟩
  rw [Option.mem_def.1 hkey'] at hkey
  generalize x.keyType = before at hkeys hkey
  cases hkey with
  | some hkey => exact resolved_of_resolveType (hkeys _ rfl) hkey

/-- Types of a message are looked up in the message as it was; its enums stay. -/
theorem resolved_of_resolveMessage {m' : Message} (hm : m.Referring)
    (h : resolveMessage f m = .ok m') :
    ∀ y ∈ m'.fields, y.type.Resolved f m' ∧ ∀ key ∈ y.keyType, key.Resolved f m' := by
  obtain ⟨fields, hfields, h⟩ := Except.bind_eq_ok_iff.1 h
  obtain rfl := Except.ok.inj h
  intro y hy
  obtain ⟨x, hx, hxy⟩ :=
    exists_mem_of_forall₂ (forall₂_of_mapM hfields) y ((Field.sort_perm fields).subset hy)
  exact resolved_of_resolveField (hm x hx).1 (hm x hx).2 hxy

theorem has_of_resolveRpc {service : String} {r r' : Rpc} (h : resolveRpc f service r = .ok r') :
    f.messages.has r'.input = true ∧ f.messages.has r'.output = true := by
  obtain ⟨input, hinput, h⟩ := Except.bind_eq_ok_iff.1 h
  obtain ⟨output, houtput, h⟩ := Except.bind_eq_ok_iff.1 h
  obtain rfl := Except.ok.inj h
  exact ⟨has_of_resolveRpcMessage hinput, has_of_resolveRpcMessage houtput⟩

end Resolution

/-! ## Files -/

theorem FieldType.Resolved.mono {f f' : File} {m : Message} {t : FieldType} (h : t.Resolved f m)
    (hhas : ∀ n, f.messages.has n = f'.messages.has n) : t.Resolved f' m := by
  cases t with
  | message n => exact (hhas n).symm.trans h
  | _ => exact h

/-- Resolving leaves no reference: what it gives is closed if it is in order. -/
theorem File.resolved_of_resolved {f f' : File} (h : f.resolved = .ok f') (hf' : f'.Parsed)
    (hf : ∀ m ∈ f.messages.values, m.Referring) : f'.Resolved := by
  obtain ⟨messages, hmessages, h⟩ := Except.bind_eq_ok_iff.1 h
  obtain ⟨services, hservices, h⟩ := Except.bind_eq_ok_iff.1 h
  obtain rfl := Except.ok.inj h
  have hhas : ∀ n, f.messages.has n = messages.has n :=
    Table.has_of_names (Resolution.names_of_resolveTable hmessages).symm
  have htypes : ∀ m ∈ messages.values, ∀ x ∈ m.fields,
      x.type.Resolved f m ∧ ∀ key ∈ x.keyType, key.Resolved f m := by
    intro m' hm'
    obtain ⟨m, hm, hr⟩ := Resolution.exists_of_resolveTable hmessages m' hm'
    exact Resolution.resolved_of_resolveMessage (hf m hm) hr
  have hrpcs : ∀ s ∈ services.values, ∀ r ∈ s.rpcs.values,
      messages.has r.input = true ∧ messages.has r.output = true := by
    intro s' hs' r' hr'
    obtain ⟨s, -, hs⟩ := Resolution.exists_of_resolveTable hservices s' hs'
    obtain ⟨rpcs, hrpcs, hs⟩ := Except.bind_eq_ok_iff.1 hs
    obtain rfl := Except.ok.inj hs
    obtain ⟨r, -, hr⟩ := Resolution.exists_of_resolveTable hrpcs r' hr'
    obtain ⟨hinput, houtput⟩ := Resolution.has_of_resolveRpc hr
    exact ⟨(hhas _).symm.trans hinput, (hhas _).symm.trans houtput⟩
  exact {
    toParsed := hf'
    types := fun m hm x hx => (htypes m hm x hx).1.mono hhas
    keyTypes := fun m hm x hx key hkey => ((htypes m hm x hx).2 key hkey).mono hhas
    inputs := fun s hs r hr => (hrpcs s hs r hr).1
    outputs := fun s hs r hr => (hrpcs s hs r hr).2 }

/-- Whatever a text spells has every message and enum that it names, and everything in it is in
order and under its own name. -/
theorem File.resolved_of_ofText {text : String} {f : File} (h : ofText text = .ok f) :
    f.Resolved := by
  have hparsed := parsed_of_ofText h
  obtain ⟨located, hlocated, h⟩ := Except.bind_eq_ok_iff.1 h
  obtain ⟨unresolved, hread, h⟩ := Except.bind_eq_ok_iff.1 h
  refine resolved_of_resolved h hparsed ?_
  unfold ofTokens at hread
  split at hread
  · rename_i g rest hfile
    obtain rfl := Except.ok.inj hread
    exact (Reading.gives_referring _ g rest (Lexeme.spellable_of_tokens hlocated) hfile).1
  · cases hread

/-- A text in which a type has the package in front, another one the message it is nested in as
well, and both stand before what they mean. -/
def qualifiedLakes : String :=
  "syntax = \"proto3\";
package lakes.v1;
service Lakes \x7b
  rpc Get(lakes.v1.Bay) returns (Lake);
\x7d
message Lake \x7b
  map<string, lakes.v1.Bay> bays = 1;
  lakes.v1.Lake.State state = 2;
  enum State \x7b
    SALT = 1;
    UNDEFINED_STATE = 0;
  \x7d
\x7d
message Bay \x7b\x7d
"

set_option maxRecDepth 2000 in
theorem File.resolved_of_ofText_qualifiedLakes : ∃ f, ofText qualifiedLakes = .ok f ∧
    f.messages.names = ["Bay", "Lake"] ∧ f.Resolved := by
  obtain ⟨f, hf, hnames⟩ : ∃ f, ofText qualifiedLakes = .ok f ∧
      decide (f.messages.names = ["Bay", "Lake"]) = true := by
    rw [ofText, Lexeme.tokens_of_chars qualifiedLakes rfl]
    exact exists_eq_ok (by decide +kernel)
  exact ⟨f, hf, of_decide_eq_true hnames, resolved_of_ofText hf⟩

end DiscoveryGrpc.Proto
