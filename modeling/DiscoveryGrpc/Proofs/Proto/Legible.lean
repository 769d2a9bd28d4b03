import DiscoveryGrpc.Proofs.Proto.Comments
import DiscoveryGrpc.Proofs.Proto.Writable

/-!
# Legible files

A file is legible if everything in it can be spelled: its names and those of its types are words,
the values of its options are read back, and fields, enums and tables are in order. That is less
than being writable: the name of a type may mean another type, or be a keyword, and an enum may have
no first member, or several.

The text of a legible file is cut into its tokens (`File.Legible.exists_tokens`), if its header is
nothing but comments. Legible is what every text gives (`File.legible_of_ofText`), and what stays
legible when files are merged (`File.Legible.merge`).
-/

namespace DiscoveryGrpc.Proto

open Lexeme (isWord isInt64 isSpellable)

/-! ## Parts of files -/

/-- A field of a message that can be spelled. -/
structure Field.Legible (x : Field) : Prop where
  name : isWord x.name = true
  type : isWord x.type.name = true
  keyType : ∀ key ∈ x.keyType, isWord key.name = true
  map_repeated : x.isMap = true → x.repeated = true
  not_first : x.first = false
  settings : ∀ s ∈ x.settings, s.Writable

/-- A member of an enum that can be spelled. -/
structure Field.LegibleMember (x : Field) : Prop where
  name : isWord x.name = true
  not_keyword : x.name ≠ "option" ∧ x.name ≠ "reserved"
  type : x.type = .primitive .unformatted
  keyType : x.keyType = none
  not_repeated : x.repeated = false
  not_optional : x.optional = false
  settings : ∀ s ∈ x.settings, s.Writable

/-- An enum that can be spelled, whichever of its members are marked first. -/
structure Message.LegibleEnum (e : Message) : Prop where
  name : isWord e.name = true
  isEnum : e.isEnum = true
  no_enums : e.enums = []
  members : ∀ x ∈ e.fields, x.LegibleMember
  distinct : Field.Distinct e.fields

/-- A message that can be spelled. -/
structure Message.Legible (m : Message) : Prop where
  not_enum : m.isEnum = false
  name : isWord m.name = true
  fields : ∀ x ∈ m.fields, x.Legible
  distinct : Field.Distinct m.fields
  named : Table.Named Message.name m.enums
  enums : ∀ e ∈ Table.values m.enums, e.LegibleEnum

/-- A method that can be spelled. -/
structure Rpc.Legible (r : Rpc) : Prop where
  name : isWord r.name = true
  input : isWord r.input = true
  output : isWord r.output = true
  settings : ∀ s ∈ r.settings, s.Writable

/-- A service that can be spelled. -/
structure Service.Legible (s : Service) : Prop where
  name : isWord s.name = true
  settings : ∀ x ∈ s.settings, x.Writable
  named : Table.Named Rpc.name s.rpcs
  rpcs : ∀ r ∈ s.rpcs.values, r.Legible

/-- A file that can be spelled. -/
structure File.Legible (f : File) : Prop where
  package : f.package = "" ∨ isWord f.package = true
  settings : ∀ s ∈ f.settings, s.Writable
  namedMessages : Table.Named Message.name f.messages
  messages : ∀ m ∈ f.messages.values, m.Legible
  namedServices : Table.Named Service.name f.services
  services : ∀ s ∈ f.services.values, s.Legible

/-! ## Writable files are legible -/

theorem Field.Writable.legible {f : File} {m : Message} {x : Field} (hf : f.Writable)
    (hm : m.Writable f) (hx : x.Writable f m) : x.Legible where
  name := isWord_of_isName hx.name
  type := hx.type.isWord_name hf hm
  keyType key hkey := (hx.keyType key hkey).isWord_name hf hm
  map_repeated := hx.map_repeated
  not_first := hx.not_first
  settings := hx.settings

theorem Message.WritableEnum.legible {e : Message} (he : e.WritableEnum) : e.LegibleEnum where
  name := isWord_of_isTypeName he.name
  isEnum := he.isEnum
  no_enums := he.no_enums
  members x hx :=
    have hx := he.members x hx
    { hx with name := isWord_of_isName hx.name }
  distinct := he.distinct

theorem Message.Writable.legible {f : File} {m : Message} (hf : f.Writable) (hm : m.Writable f) :
    m.Legible where
  not_enum := hm.not_enum
  name := isWord_of_isTypeName hm.name
  fields x hx := (hm.fields x hx).legible hf hm
  distinct := hm.distinct
  named := hm.named
  enums e he := (hm.enums e he).legible

theorem Rpc.Writable.legible {f : File} {r : Rpc} (hf : f.Writable) (hr : r.Writable f) :
    r.Legible where
  name := isWord_of_isName hr.name
  input := isWord_of_isTypeName (hf.isTypeName_of_has hr.input)
  output := isWord_of_isTypeName (hf.isTypeName_of_has hr.output)
  settings := hr.settings

theorem Service.Writable.legible {f : File} {s : Service} (hf : f.Writable) (hs : s.Writable f) :
    s.Legible where
  name := isWord_of_isName hs.name
  settings := hs.settings
  named := hs.named
  rpcs r hr := (hs.rpcs r hr).legible hf

theorem File.Writable.legible {f : File} (hf : f.Writable) : f.Legible where
  package := hf.package
  settings := hf.settings
  namedMessages := hf.namedMessages
  messages m hm := (hf.messages m hm).legible hf
  namedServices := hf.namedServices
  services s hs := (hf.services s hs).legible hf

/-! ## Descriptions have no part in it -/

theorem Table.named_mapValues {α β : Type} {name : α → String} {name' : β → String} {f : α → β}
    (h : ∀ x, name' (f x) = name x) {t : Table α} :
    (t.mapValues f).Named name' ↔ t.Named name := by
  simp only [Table.named_iff, Table.Sorted, Table.mapValues, List.pairwise_map, List.forall_mem_map,
    h]

theorem Field.distinct_undocumented {fs : List Field} :
    Distinct (fs.map undocumented) ↔ Distinct fs := by
  rw [distinct_iff, distinct_iff, Sorted, List.pairwise_map, List.map_map]
  rfl

theorem Field.legible_undocumented {x : Field} : x.undocumented.Legible ↔ x.Legible :=
  ⟨fun h => { h with }, fun h => { h with }⟩

theorem Field.legibleMember_undocumented {x : Field} :
    x.undocumented.LegibleMember ↔ x.LegibleMember :=
  ⟨fun h => { h with }, fun h => { h with }⟩

theorem Message.legibleEnum_undocumented {e : Message} :
    e.undocumented.LegibleEnum ↔ e.LegibleEnum := by
  rw [undocumented_eq]
  constructor
  · intro h
    refine { h with no_enums := ?_, members := fun x hx => ?_, distinct := ?_ }
    · exact List.map_eq_nil_iff.1 h.no_enums
    · exact Field.legibleMember_undocumented.1 (h.members _ (List.mem_map_of_mem hx))
    · exact Field.distinct_undocumented.1 h.distinct
  · intro h
    refine { h with no_enums := ?_, members := ?_, distinct := ?_ }
    · exact List.map_eq_nil_iff.2 h.no_enums
    · exact List.forall_mem_map.2 fun x hx => Field.legibleMember_undocumented.2 (h.members x hx)
    · exact Field.distinct_undocumented.2 h.distinct

theorem Message.legible_undocumented {m : Message} : m.undocumented.Legible ↔ m.Legible := by
  have hname (e : Message) : e.undocumented.name = e.name := by rw [undocumented_eq]
  rw [undocumented_eq]
  constructor
  · intro h
    have henums := h.enums
    simp only [Table.values_mapValues, List.forall_mem_map] at henums
    refine { h with fields := fun x hx => ?_, distinct := ?_, named := ?_, enums := fun e he => ?_ }
    · exact Field.legible_undocumented.1 (h.fields _ (List.mem_map_of_mem hx))
    · exact Field.distinct_undocumented.1 h.distinct
    · exact (Table.named_mapValues hname).1 h.named
    · exact legibleEnum_undocumented.1 (henums e he)
  · intro h
    refine { h with fields := ?_, distinct := ?_, named := ?_, enums := ?_ }
    · exact List.forall_mem_map.2 fun x hx => Field.legible_undocumented.2 (h.fields x hx)
    · exact Field.distinct_undocumented.2 h.distinct
    · exact (Table.named_mapValues hname).2 h.named
    · simp only [Table.values_mapValues, List.forall_mem_map]
      exact fun e he => legibleEnum_undocumented.2 (h.enums e he)

theorem Service.legible_undocumented {s : Service} : s.undocumented.Legible ↔ s.Legible := by
  have hrpc (r : Rpc) : r.undocumented.Legible ↔ r.Legible :=
    ⟨fun h => { h with }, fun h => { h with }⟩
  constructor
  · intro h
    have hrpcs := h.rpcs
    simp only [undocumented, Table.values_mapValues, List.forall_mem_map] at hrpcs
    exact { h with
      named := (Table.named_mapValues (f := Rpc.undocumented) fun _ => rfl).1 h.named
      rpcs := fun r hr => (hrpc r).1 (hrpcs r hr) }
  · intro h
    refine { h with named := (Table.named_mapValues fun _ => rfl).2 h.named, rpcs := ?_ }
    simp only [undocumented, Table.values_mapValues, List.forall_mem_map]
    exact fun r hr => (hrpc r).2 (h.rpcs r hr)

theorem File.legible_undocumented {f : File} : f.undocumented.Legible ↔ f.Legible := by
  have hname (m : Message) : m.undocumented.name = m.name := by rw [Message.undocumented_eq]
  constructor
  · intro h
    have hmessages := h.messages
    have hservices := h.services
    simp only [undocumented, Table.values_mapValues, List.forall_mem_map] at hmessages hservices
    exact { h with
      namedMessages := (Table.named_mapValues hname).1 h.namedMessages
      messages := fun m hm => Message.legible_undocumented.1 (hmessages m hm)
      namedServices :=
        (Table.named_mapValues (f := Service.undocumented) fun _ => rfl).1 h.namedServices
      services := fun s hs => Service.legible_undocumented.1 (hservices s hs) }
  · intro h
    refine { h with
      namedMessages := (Table.named_mapValues hname).2 h.namedMessages
      messages := ?_
      namedServices := (Table.named_mapValues fun _ => rfl).2 h.namedServices
      services := ?_ }
    · simp only [undocumented, Table.values_mapValues, List.forall_mem_map]
      exact fun m hm => Message.legible_undocumented.2 (h.messages m hm)
    · simp only [undocumented, Table.values_mapValues, List.forall_mem_map]
      exact fun s hs => Service.legible_undocumented.2 (h.services s hs)

/-- A file that is the same as a legible one is legible. -/
theorem File.Legible.of_same {f g : File} (hg : g.Legible) (h : g.same f = true) : f.Legible := by
  have heq : g.undocumented = f.undocumented := by simpa [same] using h
  rw [← legible_undocumented, ← heq]
  exact legible_undocumented.2 hg

/-! ## Spelling -/

/-- Every token can be spelled. -/
def Spellable (ts : List Token) : Prop := ∀ t ∈ ts, isSpellable t = true

namespace Spellable

@[simp]
theorem nil : Spellable [] := by simp [Spellable]

@[simp]
theorem cons {t : Token} {ts : List Token} :
    Spellable (t :: ts) ↔ isSpellable t = true ∧ Spellable ts := List.forall_mem_cons

@[simp]
theorem append {ts us : List Token} : Spellable (ts ++ us) ↔ Spellable ts ∧ Spellable us :=
  List.forall_mem_append

theorem flatMap {α : Type} {f : α → List Token} (xs : List α) (h : ∀ x ∈ xs, Spellable (f x)) :
    Spellable (xs.flatMap f) := by
  intro t ht
  obtain ⟨x, hx, ht⟩ := List.mem_flatMap.1 ht
  exact h x hx t ht

end Spellable

namespace Setting

theorem spellable_value {v : SettingValue} (h : v.Writable) : isSpellable v.token = true := by
  cases v with
  | string s => rfl
  | bool b => cases b <;> decide
  | int i => exact h
  | literal w => exact h.1

theorem spellable_body {b : SettingBody} (h : b.Writable) : Spellable (bodyTokens b) := by
  cases b with
  | scalar v => simpa [bodyTokens] using spellable_value h
  | group entries =>
    have := Spellable.flatMap (f := entryTokens) entries fun e he => by
      simpa [entryTokens, isSpellable] using ⟨(h e he).1, spellable_value (h e he).2⟩
    simpa [bodyTokens, isSpellable] using this

theorem Writable.spellable {s : Setting} (h : s.Writable) : Spellable s.tokens := by
  have hname : Spellable s.nameTokens := by
    unfold nameTokens
    split <;> simp [isSpellable, h.name]
  simpa [tokens, isSpellable] using ⟨hname, spellable_body h.body⟩

theorem Writable.spellable_statement {s : Setting} (h : s.Writable) :
    Spellable s.statementTokens := by
  have hw : isSpellable (.word "option") = true := by decide
  simpa [statementTokens, isSpellable] using ⟨hw, h.spellable⟩

theorem spellable_brackets {ss : List Setting} (h : ∀ s ∈ ss, s.Writable) :
    Spellable (bracketTokens ss) := by
  cases ss with
  | nil => simp [bracketTokens]
  | cons s ss =>
    obtain ⟨hs, hss⟩ := List.forall_mem_cons.1 h
    have := Spellable.flatMap (f := fun s => .comma :: Setting.tokens s) ss fun s h => by
      simpa [isSpellable] using (hss s h).spellable
    simpa [bracketTokens, isSpellable] using ⟨hs.spellable, this⟩

end Setting

theorem spellable_number {n : Nat} (hn : n < Number.bound) {ss : List Setting}
    (h : ∀ s ∈ ss, s.Writable) : Spellable (numberTokens n ss) := by
  have hn' : isSpellable (.int n) = true := by
    simp only [isSpellable, Lexeme.isInt64, Bool.and_eq_true, decide_eq_true_eq]
    simp only [Number.bound] at hn
    omega
  simpa [numberTokens, isSpellable] using ⟨hn', Setting.spellable_brackets h⟩

namespace Field

theorem Legible.spellable {x : Field} (h : x.Legible) {n : Nat} (hn : n < Number.bound) :
    Spellable (x.tokens n) := by
  have htype := h.type
  have hlabels : ∀ w ∈ ["map", "repeated", "optional"], isWord w = true := by decide
  have htokens : Spellable x.typeTokens := by
    unfold typeTokens
    split
    · rename_i key hk
      have := h.keyType key hk
      simp [isSpellable, htype, this, hlabels]
    · split
      · simp [isSpellable, htype, hlabels]
      · split <;> simp [isSpellable, htype, hlabels]
  simpa [tokens, isSpellable] using ⟨htokens, h.name, spellable_number hn h.settings⟩

theorem LegibleMember.spellable {x : Field} (h : x.LegibleMember) {n : Nat}
    (hn : n < Number.bound) : Spellable (x.memberTokens n) := by
  simpa [memberTokens, isSpellable] using
    ⟨h.name, spellable_number hn h.settings⟩

end Field

namespace Message

theorem LegibleEnum.spellable {e : Message} (h : e.LegibleEnum) : Spellable e.enumTokens := by
  have hmembers := Spellable.flatMap (f := fun x => x.2.memberTokens x.1)
    e.numberedAscending fun x hx => by
      have hx := e.numberedAscending_perm.subset hx
      have hf : x.2 ∈ e.fields := e.map_snd_numbered ▸ List.mem_map_of_mem hx
      exact (h.members x.2 hf).spellable (number_lt hx)
  simpa [enumTokens, isSpellable] using ⟨h.name, hmembers⟩

theorem numberOf_lt (m : Message) (x : Field) : m.numberOf x < Number.bound := by
  unfold numberOf
  cases h : m.numbersByName.get? x.name with
  | none => exact by decide
  | some n => exact numbersByName_lt h

theorem Legible.spellable {m : Message} (h : m.Legible) :
    Spellable m.tokens := by
  have hw : isSpellable (.word "enum") = true := by decide
  have henums := Spellable.flatMap (f := fun e => .word "enum" :: e.enumTokens)
    (Table.values m.enums) fun e he => Spellable.cons.2 ⟨hw, (h.enums e he).spellable⟩
  have hfields := Spellable.flatMap (f := fun x => Field.tokens (m.numberOf x) x)
    m.fields fun x hx => (h.fields x hx).spellable (m.numberOf_lt x)
  simpa [tokens, isSpellable] using ⟨h.name, henums, hfields⟩

end Message

theorem spellable_statements {ss : List Setting} (h : ∀ s ∈ ss, s.Writable) :
    Spellable (ss.flatMap Setting.statementTokens) :=
  Spellable.flatMap ss fun s hs => (h s hs).spellable_statement

theorem Rpc.Legible.spellable {r : Rpc} (h : r.Legible) :
    Spellable r.tokens := by
  have hw : isWord "returns" = true := by decide
  have hbody : Spellable (bodyTokens r.settings) := by
    have := spellable_statements h.settings
    unfold bodyTokens
    split
    · simp [isSpellable]
    · simpa [isSpellable] using this
  simp [tokens, isSpellable, hw, hbody, h.name, h.input, h.output]

theorem Service.Legible.spellable {s : Service} (h : s.Legible) : Spellable s.tokens := by
  have hw : isSpellable (.word "rpc") = true := by decide
  have hrpcs := Spellable.flatMap (f := fun r => .word "rpc" :: Rpc.tokens r)
    s.rpcs.values fun r hr => Spellable.cons.2 ⟨hw, (h.rpcs r hr).spellable⟩
  simpa [tokens, isSpellable] using ⟨h.name, spellable_statements h.settings, hrpcs⟩

/-- All tokens of a legible file can be spelled. -/
theorem File.Legible.spellable {f : File} (hf : f.Legible) : Spellable f.tokens := by
  have hw : ∀ w ∈ ["syntax", "package", "import", "message", "service"], isWord w = true := by
    decide
  have hpackage : Spellable f.packageTokens := by
    unfold packageTokens
    split
    · simp
    · rename_i hp
      have := hf.package.resolve_left (by simpa using hp)
      simp [Lexeme.isSpellable, hw, this]
  have himports := Spellable.flatMap (f := importTokens) f.imports fun name _ => by
    simp [importTokens, Lexeme.isSpellable, hw]
  have hmessages := Spellable.flatMap (f := fun m => .word "message" :: Message.tokens m)
    f.messages.values fun m hm =>
      Spellable.cons.2 ⟨hw "message" (by simp), (hf.messages m hm).spellable⟩
  have hservices := Spellable.flatMap (f := fun s => .word "service" :: Service.tokens s)
    f.services.values fun s hs =>
      Spellable.cons.2 ⟨hw "service" (by simp), (hf.services s hs).spellable⟩
  rw [tokens_eq]
  simp [Lexeme.isSpellable, hw, hpackage, himports, hmessages, hservices,
    spellable_statements hf.settings]

/-! ## Texts -/

theorem Lexeme.quietToken_of_isSpellable {t : Token} (h : isSpellable t = true) : QuietToken t := by
  cases t with
  | word name =>
    have hpart : ∀ c, isWordPart c = true → c ≠ '"' ∧ c ≠ '/' := by
      rintro c hc
      constructor <;> rintro rfl <;> revert hc <;> decide
    have hword : isWord name = true := h
    unfold isWord at hword
    intro c hc
    split at hword
    · cases hword
    · rename_i d cs hs
      obtain ⟨hd, hcs⟩ := Bool.and_eq_true_iff.1 hword
      rw [hs] at hc
      rcases List.mem_cons.1 hc with rfl | hc
      · exact hpart c (isWordPart_of_isWordStart hd)
      · exact hpart c (List.all_eq_true.1 hcs c hc)
  | _ => trivial

/-- Tokens that can be spelled spell themselves. -/
theorem Spellable.spell?_eq {ts : List Token} (h : Spellable ts) : Lexeme.spell? ts = some ts := by
  induction ts with
  | nil => rfl
  | cons t ts ih =>
    obtain ⟨ht, hts⟩ := Spellable.cons.1 h
    have hwrite : Lexeme.tokens? (t.write.toList ++ []) = (Lexeme.tokens? []).map (t :: ·) :=
      Lexeme.tokens?_write ht fun _ => by simp [Lexeme.Apart]
    rw [List.append_nil] at hwrite
    have hnil : Lexeme.tokens? [] = some [] := rfl
    rw [Lexeme.spell?, hwrite, ih hts, hnil]
    rfl

/-- The text of a legible file under a header of comments is cut into the tokens of its parts. -/
theorem File.Legible.exists_tokens {f : File} (hf : f.Legible)
    (hsource : Lexeme.tokens? f.source.text.toList = some []) :
    ∃ located, Lexeme.tokens f.toText = .ok located ∧ located.map (·.1) = f.tokens := by
  refine Lexeme.tokens_of_tokens? ?_
  have hquiet := fun t ht => Lexeme.quietToken_of_isSpellable (hf.spellable t ht)
  rw [tokens?_toText hquiet hsource, hf.spellable.spell?_eq]
  simp

end DiscoveryGrpc.Proto
