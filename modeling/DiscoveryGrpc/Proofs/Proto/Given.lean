import Mathlib.Data.List.TakeWhile
import DiscoveryGrpc.Proofs.Proto.Legible
import DiscoveryGrpc.Proto.Reading.File

/-!
# What readings give

Every token that a text is cut into can be spelled (`Lexeme.spellable_of_tokens`), so what is read
of these tokens can be. `Reading.Gives` says what every value has that a reading gives. It has one
rule for each way to put readings together, so that the rules for the parts of a file follow the
readings step by step, up to the one for files: whatever is read is legible (`Reading.gives_file`).
-/

namespace DiscoveryGrpc.Proto

open Lexeme (isWord isWordStart isInt64 isSpellable)

/-! ## Tokens that a text spells -/

namespace Lexeme

theorem isWord_ofList {c : Char} {cs : List Char} (hc : isWordStart c = true)
    (hcs : ∀ d ∈ cs, isWordPart d = true) : isWord (String.ofList (c :: cs)) = true := by
  rw [isWord, String.toList_ofList]
  exact Bool.and_eq_true_iff.2 ⟨hc, List.all_eq_true.2 hcs⟩

theorem isSpellable_of_number {negative : Bool} {digits : List Char} {t : Token}
    (h : (number negative digits).kind = .token t) : isSpellable t = true := by
  let value : Int := if negative then -digitsValue digits else digitsValue digits
  have hkind : (number negative digits).kind
      = if isInt64 value then .token (.int value) else .bad := rfl
  rw [hkind] at h
  split at h
  · rename_i hvalue
    exact LexemeKind.token.inj h ▸ hvalue
  · cases h

theorem First.isSpellable {c : Char} {cs : List Char} {x : Lexeme × List Char} {t : Token}
    (hx : First c cs x) (h : x.1.kind = .token t) : isSpellable t = true := by
  cases hx with
  | word hc =>
    rw [← LexemeKind.token.inj h]
    exact isWord_ofList hc fun d hd => List.mem_takeWhile_imp hd
  | digits | negative => exact isSpellable_of_number h
  | quote =>
    unfold literal at h
    split at h
    · exact LexemeKind.token.inj h ▸ rfl
    · cases h
  | slash => exact absurd h (comment_kind_ne _ t)
  | mark hmark =>
    rw [← LexemeKind.token.inj h]
    unfold punctuation? at hmark
    split at hmark <;> cases hmark <;> rfl
  | space | minus | strange => cases h

theorem spellable_of_tokens? {cs : List Char} {ts : List Token} (h : tokens? cs = some ts) :
    Spellable ts := by
  induction cs using first_induction generalizing ts with
  | nil =>
    obtain rfl : [] = ts := Option.some.inj h
    exact .nil
  | cons c cs ih =>
    rw [tokens?_cons] at h
    cases hk : (first c cs).1.kind with
    | bad =>
      rw [hk] at h
      cases h
    | layout =>
      rw [hk] at h
      exact ih (by simp [hk]) h
    | token t =>
      rw [hk] at h
      obtain ⟨us, hus, rfl⟩ := Option.map_eq_some_iff.1 h
      exact Spellable.cons.2 ⟨(first_cases c cs).isSpellable hk, ih (by simp [hk]) hus⟩

theorem spellable_of_tokens {text : String} {located : List Located}
    (h : tokens text = .ok located) : Spellable (located.map (·.1)) := by
  cases hs : tokens? text.toList with
  | none =>
    obtain ⟨x, n, hx⟩ := exists_locate_eq_error hs 1 []
    cases h.symm.trans hx
  | some ts =>
    obtain ⟨located', hlocated, rfl⟩ := tokens_of_tokens? hs
    obtain rfl := Except.ok.inj (h.symm.trans hlocated)
    exact spellable_of_tokens? hs

end Lexeme

namespace Reading

variable {α β σ : Type} {P : α → Prop} {Q : β → Prop}

/-! ## Rules -/

/-- Of tokens that a text can spell, a reading gives a value with a property, and it leaves such
tokens. -/
def Gives (x : Reading α) (P : α → Prop) : Prop :=
  ∀ ts a rest, Spellable ts → x ts = .ok (a, rest) → P a ∧ Spellable rest

/-- A reading leaves tokens that a text can spell. -/
def Takes (x : Reading α) : Prop := Gives x fun _ => True

namespace Gives

theorem pure {a : α} (h : P a) : Gives (Pure.pure a) P := by
  rintro ts b rest hts ⟨⟩
  exact ⟨h, hts⟩

theorem fail (fault : SyntaxFault) : Gives (Reading.fail fault) P := by
  rintro ts a rest - ⟨⟩

theorem takes {x : Reading α} (h : Gives x P) : Takes x := fun ts a rest hts hx =>
  ⟨trivial, (h ts a rest hts hx).2⟩

theorem bind {x : Reading α} {f : α → Reading β} (hx : Gives x P)
    (hf : ∀ a, P a → Gives (f a) Q) : Gives (x >>= f) Q := by
  intro ts b rest hts h
  change StateT.bind x f ts = _ at h
  rw [StateT.bind] at h
  cases hxt : x ts with
  | error e =>
    rw [hxt] at h
    cases h
  | ok p =>
    rw [hxt] at h
    obtain ⟨hp, hrest⟩ := hx ts p.1 p.2 hts hxt
    exact hf p.1 hp p.2 b rest hrest h

/-- The value of the first reading does not matter. -/
theorem after {x : Reading α} {f : α → Reading β} (hx : Takes x) (hf : ∀ a, Gives (f a) Q) :
    Gives (x >>= f) Q :=
  hx.bind fun a _ => hf a

theorem take {stray : Token → SyntaxFault} {f : Token → Option α}
    (h : ∀ t a, isSpellable t = true → f t = some a → P a) : Gives (Reading.take stray f) P := by
  intro ts a rest hts hx
  cases ts with
  | nil => cases hx
  | cons t ts =>
    obtain ⟨ht, hts⟩ := Spellable.cons.1 hts
    rw [Reading.take] at hx
    cases hf : f t with
    | none =>
      rw [hf] at hx
      cases hx
    | some b =>
      rw [hf] at hx
      obtain ⟨rfl, rfl⟩ := Prod.mk.inj (Except.ok.inj hx)
      exact ⟨h t b ht hf, hts⟩

/-- What a turn leaves has a property, whether the loop goes on or not. -/
def Leaves (x : Reading (Turn σ)) (P : σ → Prop) : Prop :=
  Gives x fun
    | .again s => P s
    | .done s => P s

/-- A property that every turn keeps is one of the result. -/
theorem loop {step : σ → Reading (Turn σ)} {P : σ → Prop} {start : σ}
    (hstep : ∀ s, P s → Leaves (step s) P) (h : P start) : Gives (Reading.loop step start) P := by
  have hfor : ∀ n s, P s → Gives (loopFor step n s) P := by
    intro n
    induction n with
    | zero => exact fun s _ => fail .endOfFile
    | succ n ih =>
      intro s hs
      refine (hstep s hs).bind fun t ht => ?_
      cases t with
      | again s => exact ih s ht
      | done s => exact pure ht
  exact fun ts => hfor _ start h ts

end Gives

/-! ## Single tokens -/

theorem takes_peek : Takes peek := by
  rintro ts a rest hts ⟨⟩
  exact ⟨trivial, hts⟩

theorem takes_expect (wanted : Token) : Takes (expect wanted) := .take fun _ _ _ _ => trivial

theorem gives_word : Gives word fun name => isWord name = true :=
  .take fun t a ht hf => by
    cases t with
    | word name => exact Option.some.inj hf ▸ ht
    | _ => cases hf

theorem gives_int : Gives int fun i => isInt64 i = true :=
  .take fun t a ht hf => by
    cases t with
    | int i => exact Option.some.inj hf ▸ ht
    | _ => cases hf

theorem spellable_literals {ts : List Token} (start : String) (h : Spellable ts) :
    Spellable (literals start ts).2 := by
  fun_induction literals start ts with
  | case1 start s ts ih => exact ih (Spellable.cons.1 h).2
  | case2 => exact h

theorem takes_string : Takes string :=
  Gives.after (.take fun _ _ _ _ => trivial) fun start => by
    rintro ts a rest hts h
    obtain ⟨-, rfl⟩ := Prod.mk.inj (Except.ok.inj h)
    exact ⟨trivial, spellable_literals start hts⟩

theorem takes_skipStatement : Takes skipStatement := by
  intro ts a rest hts h
  induction ts with
  | nil => cases h
  | cons t ts ih =>
    have hts := (Spellable.cons.1 hts).2
    unfold skipStatement at h
    split at h
    · cases h
    · rename_i heq
      obtain ⟨-, rfl⟩ := List.cons.inj heq
      obtain ⟨-, rfl⟩ := Prod.mk.inj (Except.ok.inj h)
      exact ⟨trivial, hts⟩
    · rename_i heq
      obtain ⟨-, rfl⟩ := List.cons.inj heq
      exact ih hts h

/-- A property that every statement keeps is one of the block. -/
theorem Gives.block {stray : Token → SyntaxFault} {statement : σ → String → Reading σ}
    {P : σ → Prop} {start : σ}
    (hstatement : ∀ s, P s → ∀ first, isWord first = true → Gives (statement s first) P)
    (h : P start) : Gives (Reading.block stray statement start) P := by
  have hentry : Gives (entry stray) fun e => ∀ name, e = .word name → isWord name = true :=
    .take fun t e ht he name hname => by
      subst hname
      cases t with
      | word first => exact Entry.word.inj (Option.some.inj he) ▸ ht
      | _ => cases he
  refine .loop (fun s hs => hentry.bind fun e he => ?_) h
  cases e with
  | close => exact .pure hs
  | blank => exact .pure hs
  | word first => exact (hstatement s hs first (he first rfl)).bind fun s hs => .pure hs

/-! ## Options -/

theorem gives_settingName : Gives settingName fun name => isWord name = true := by
  refine .after takes_peek fun next => ?_
  split
  · exact .after (takes_expect _) fun _ => gives_word.bind fun name hname =>
      .after (takes_expect _) fun _ => .pure hname
  · exact gives_word

theorem writable_wordValue {name : String} (h : isWord name = true) :
    (wordValue name).Writable := by
  unfold wordValue
  split
  · trivial
  · trivial
  · rename_i htrue hfalse
    exact ⟨h, htrue, hfalse⟩

theorem gives_settingValue : Gives settingValue SettingValue.Writable := by
  refine .after takes_peek fun next => ?_
  split
  · exact .after takes_string fun _ => .pure trivial
  · exact gives_int.bind fun _ hi => .pure hi
  · exact gives_word.bind fun _ hname => .pure (writable_wordValue hname)
  · exact .fail _

theorem gives_settingEntries :
    Gives settingEntries fun entries => ∀ e ∈ entries, isWord e.1 = true ∧ e.2.Writable := by
  refine .loop (fun entries hentries => .after takes_peek fun next => ?_) (List.forall_mem_nil _)
  split
  · exact .after (takes_expect _) fun _ => .pure hentries
  · exact .after (takes_expect _) fun _ => .pure hentries
  · exact .after (takes_expect _) fun _ => .pure hentries
  · refine gives_word.bind fun key hkey => .after (takes_expect _) fun _ =>
      gives_settingValue.bind fun value hvalue => .pure ?_
    exact List.forall_mem_append.2 ⟨hentries, List.forall_mem_singleton.2 ⟨hkey, hvalue⟩⟩

theorem gives_setting : Gives setting Setting.Writable := by
  refine gives_settingName.bind fun name hname => .after (takes_expect _) fun _ =>
    .after takes_peek fun next => ?_
  split
  · exact .after (takes_expect _) fun _ => gives_settingEntries.bind fun entries hentries =>
      .pure ⟨hname, hentries⟩
  · exact gives_settingValue.bind fun value hvalue => .pure ⟨hname, hvalue⟩

theorem forall_mem_concat {ss : List Setting} {s : Setting} (hss : ∀ s ∈ ss, s.Writable)
    (hs : s.Writable) : ∀ x ∈ ss ++ [s], x.Writable :=
  List.forall_mem_append.2 ⟨hss, List.forall_mem_singleton.2 hs⟩

theorem gives_fieldSettings : Gives fieldSettings fun settings => ∀ s ∈ settings, s.Writable := by
  refine .after takes_peek fun next => ?_
  split
  · refine .after (takes_expect _) fun _ => .loop (fun settings hsettings =>
      gives_setting.bind fun s hs => .after (.take fun _ _ _ _ => trivial) fun more =>
        .pure ?_) (List.forall_mem_nil _)
    cases more with
    | true => exact forall_mem_concat hsettings hs
    | false => exact forall_mem_concat hsettings hs
  · exact .pure (List.forall_mem_nil _)

/-! ## Messages -/

theorem gives_labelAndType {first : String} (h : isWord first = true) :
    Gives (labelAndType first) fun x => isWord x.2 = true := by
  refine .after takes_peek fun next => ?_
  split
  · exact gives_word.bind fun type htype => .pure htype
  · exact .pure h

theorem gives_keyAndType {first : String} (h : isWord first = true) :
    Gives (keyAndType first) fun x => (∀ key ∈ x.1, isWord key = true) ∧ isWord x.2 = true := by
  refine .after takes_peek fun next => ?_
  split
  · refine .after (takes_expect _) fun _ => gives_word.bind fun key hkey =>
      .after (takes_expect _) fun _ => gives_word.bind fun value hvalue =>
        .after (takes_expect _) fun _ => .pure ⟨?_, hvalue⟩
    rintro name ⟨⟩
    exact hkey
  · exact .pure ⟨by simp, h⟩

theorem gives_field {first : String} (h : isWord first = true) :
    Gives (field first) Field.Legible := by
  refine (gives_labelAndType h).bind fun ⟨label, first⟩ hfirst =>
    (gives_keyAndType hfirst).bind fun ⟨key?, type⟩ ⟨hkey, htype⟩ =>
      gives_word.bind fun name hname => .after (takes_expect _) fun _ =>
        .after gives_int.takes fun _ => gives_fieldSettings.bind fun settings hsettings =>
          .after (takes_expect _) fun _ => .pure ?_
  refine { name := hname, type := htype, keyType := ?_, map_repeated := ?_, not_first := rfl,
           settings := hsettings }
  · intro key hk
    obtain ⟨word, hword, rfl⟩ := Option.map_eq_some_iff.1 hk
    exact hkey word hword
  · intro hmap
    simp_all [Field.isMap]

theorem gives_member {name : String} (h : isWord name = true)
    (hname : name ≠ "option" ∧ name ≠ "reserved") : Gives (member name) Field.LegibleMember :=
  .after (takes_expect _) fun _ => .after gives_int.takes fun _ =>
    gives_fieldSettings.bind fun _ hsettings => .after (takes_expect _) fun _ =>
      .pure ⟨h, hname, rfl, rfl, rfl, rfl, hsettings⟩

/-- Of two members with one name the first one stays. -/
theorem legibleEnum_addField {e : Message} (h : e.LegibleEnum) {x : Field}
    (hx : x.LegibleMember) : (e.addField x).LegibleEnum := by
  rw [Message.addField]
  cases hadd : e.addField? x with
  | none => exact h
  | some e' =>
    obtain ⟨hnew, rfl⟩ := Message.of_addField? hadd
    refine { h with members := fun y hy => ?_, distinct := h.distinct.insert hnew }
    rcases Field.mem_insert.1 hy with rfl | hy
    · exact hx
    · exact h.members y hy

theorem gives_enum : Gives enum Message.LegibleEnum := by
  refine gives_word.bind fun name hname => .after (takes_expect _) fun _ =>
    .block (fun e he first hfirst => ?_) ?_
  · split
    · exact .after takes_skipStatement fun _ => .pure he
    · rename_i hkeyword
      refine (gives_member hfirst ?_).bind fun x hx => .pure (legibleEnum_addField he hx)
      simpa using hkeyword
  · exact ⟨hname, rfl, rfl, by simp, .nil, .nil⟩

theorem legible_addEnum {m e : Message} (hm : m.Legible) (he : e.LegibleEnum) :
    (m.addEnum e).Legible where
  not_enum := hm.not_enum
  name := hm.name
  fields := hm.fields
  distinct := hm.distinct
  named := hm.named.insert e
  enums x hx := by
    rcases Table.mem_values_insert hx with rfl | hx
    · exact he
    · exact hm.enums x hx

theorem legible_addField? {m m' : Message} (hm : m.Legible) {x : Field} (hx : x.Legible)
    (h : m.addField? x = some m') : m'.Legible := by
  obtain ⟨hnew, rfl⟩ := Message.of_addField? h
  refine { hm with fields := fun y hy => ?_, distinct := hm.distinct.insert hnew }
  rcases Field.mem_insert.1 hy with rfl | hy
  · exact hx
  · exact hm.fields y hy

theorem gives_message : Gives message Message.Legible := by
  refine gives_word.bind fun name hname => .after (takes_expect _) fun _ =>
    .block (fun m hm first hfirst => ?_) ?_
  · split
    · exact gives_enum.bind fun e he => .pure (legible_addEnum hm he)
    · exact .fail _
    · exact .after takes_skipStatement fun _ => .pure hm
    · exact .after takes_skipStatement fun _ => .pure hm
    · refine (gives_field hfirst).bind fun x hx => ?_
      cases hadd : m.addField? x with
      | none => exact .fail _
      | some m' => exact .pure (legible_addField? hm hx hadd)
  · exact ⟨rfl, hname, by simp, ⟨.nil, .nil⟩, .nil _, by simp⟩

/-! ## Services -/

theorem gives_parenthesized : Gives parenthesized fun name => isWord name = true :=
  .after (takes_expect _) fun _ => gives_word.bind fun _ hname =>
    .after (takes_expect _) fun _ => .pure hname

theorem takes_returns (rpc : String) : Takes (returns rpc) := by
  have hget : Gives get Spellable := by
    rintro ts a rest hts ⟨⟩
    exact ⟨hts, hts⟩
  refine hget.bind fun ts hts => gives_word.bind fun name _ => ?_
  split
  · have hset : Takes (set ts) := by
      rintro _ _ _ - ⟨⟩
      exact ⟨trivial, hts⟩
    exact .after hset fun _ => .fail _
  · exact .pure trivial

theorem gives_rpcSettings (rpc : String) :
    Gives (rpcSettings rpc) fun settings => ∀ s ∈ settings, s.Writable := by
  refine .loop (fun settings hsettings => .after (.take fun _ _ _ _ => trivial) fun next => ?_)
    (List.forall_mem_nil _)
  cases next with
  | close => exact .pure hsettings
  | blank => exact .pure hsettings
  | word _ =>
    exact gives_setting.bind fun s hs => .after (takes_expect _) fun _ =>
      .pure (forall_mem_concat hsettings hs)

theorem gives_rpc : Gives rpc Rpc.Legible := by
  refine gives_word.bind fun name hname => gives_parenthesized.bind fun input hinput =>
    .after (takes_returns name) fun _ => gives_parenthesized.bind fun output houtput => ?_
  have hrest (end? : Token → Option Bool) : Gives (do
      let hasBody ← Reading.take (.strayAfterRpc · name) end?
      let settings ← if hasBody then rpcSettings name else Pure.pure []
      return ({ name, input, output, settings } : Rpc)) Rpc.Legible := by
    refine .after (.take fun _ _ _ _ => trivial) fun hasBody => ?_
    cases hasBody with
    | true =>
      exact (gives_rpcSettings name).bind fun settings hsettings =>
        .pure ⟨hname, hinput, houtput, hsettings⟩
    | false => exact .pure ⟨hname, hinput, houtput, by simp⟩
  split
  · exact .after (.fail _) fun _ => hrest _
  · exact hrest _

theorem gives_service : Gives service Service.Legible := by
  refine gives_word.bind fun name hname => .after (takes_expect _) fun _ =>
    .block (fun s hs first _ => ?_) ⟨hname, by simp, .nil _, by simp⟩
  split
  · exact gives_setting.bind fun x hx => .after (takes_expect _) fun _ =>
      .pure { hs with settings := forall_mem_concat hs.settings hx }
  · refine gives_rpc.bind fun r hr => .pure { hs with
      named := hs.named.insert r
      rpcs := fun x hx => ?_ }
    rcases Table.mem_values_insert hx with rfl | hx
    · exact hr
    · exact hs.rpcs x hx
  · exact .fail _

/-! ## Files -/

theorem gives_statement {f : File} (hf : f.Legible) (first : String) :
    Gives (statement f first) File.Legible := by
  unfold statement
  split
  · refine .after (takes_expect _) fun _ => .after takes_string fun name => ?_
    split
    · exact .after (.fail _) fun _ => .after (takes_expect _) fun _ => .pure hf
    · exact .after (takes_expect _) fun _ => .pure hf
  · exact gives_word.bind fun package hpackage => .after (takes_expect _) fun _ =>
      .pure { hf with package := .inr hpackage }
  · exact .after takes_skipStatement fun _ => .pure hf
  · exact gives_setting.bind fun s hs => .after (takes_expect _) fun _ =>
      .pure { hf with settings := forall_mem_concat hf.settings hs }
  · refine gives_message.bind fun m hm => .pure { hf with
      namedMessages := hf.namedMessages.insert m
      messages := fun x hx => ?_ }
    rcases Table.mem_values_insert hx with rfl | hx
    · exact hm
    · exact hf.messages x hx
  · exact .fail _
  · refine gives_service.bind fun s hs => .pure { hf with
      namedServices := hf.namedServices.insert s
      services := fun x hx => ?_ }
    rcases Table.mem_values_insert hx with rfl | hx
    · exact hs
    · exact hf.services x hx
  · exact .fail _

theorem gives_file : Gives file File.Legible := by
  refine .loop (fun f hf => .after takes_peek fun next => ?_)
    ⟨.inl rfl, by simp, .nil _, by simp, .nil _, by simp⟩
  cases next with
  | none => exact .pure hf
  | some _ =>
    exact .after gives_word.takes fun first =>
      (gives_statement hf first).bind fun f hf => .pure hf

end Reading

end DiscoveryGrpc.Proto
