import Mathlib.Data.List.Forall2
import DiscoveryGrpc.Proofs.Fault
import DiscoveryGrpc.Proofs.Proto.Given
import DiscoveryGrpc.Proofs.Proto.WellFormed
import DiscoveryGrpc.Proto.Text

/-!
# What a text can spell

A file that has been read is legible whatever its text was (`File.legible_of_ofText`): it is so
before its types are resolved, and resolving puts the names of messages and enums for those of
types, which are words, too. So the file is well formed. Messages, services, rpcs and enums go into
tables under their own names, and of two fields or members with one name one is refused or dropped.
The members of its enums have the type of members, and no enum nests another one (`File.Parsed`).
-/

namespace DiscoveryGrpc.Proto

open Lexeme (isWord)

/-- An enum as it is read: nothing but members of different names. -/
structure Message.ParsedEnum (e : Message) : Prop where
  members : Field.Distinct e.fields
  bare : ∀ x ∈ e.fields, x.type = .primitive .unformatted ∧ x.keyType = none
  flat : e.enums = []

/-- A message as it is read. -/
structure Message.Parsed (m : Message) : Prop where
  fields : Field.Distinct m.fields
  named : Table.Named Message.name m.enums
  enums : ∀ e ∈ Table.values m.enums, e.ParsedEnum

/-- A file as it is read. -/
structure File.Parsed (f : File) : Prop where
  messages : f.messages.Named Message.name
  parsed : ∀ m ∈ f.messages.values, m.Parsed
  services : f.services.Named Service.name
  rpcs : ∀ s ∈ f.services.values, s.rpcs.Named Rpc.name

/-- What may be the type of values or keys in a message of a file that was read. -/
def FieldType.Resolved (f : File) (m : Message) : FieldType → Prop
  | primitive p => p ≠ .unformatted
  | reference _ => False
  | message n => f.messages.has n = true
  | enum n => m.hasEnum n = true

theorem Message.ParsedEnum.wellFormed {e : Message} (h : e.ParsedEnum) : e.WellFormed :=
  .intro h.members (by rw [h.flat]; exact .nil _) (by simp [h.flat])

theorem Message.Parsed.wellFormed {m : Message} (h : m.Parsed) : m.WellFormed :=
  .intro h.fields h.named fun e he => (h.enums e he).wellFormed

theorem File.Parsed.wellFormed {f : File} (h : f.Parsed) : f.WellFormed where
  messages := h.messages
  wellFormed m hm := (h.parsed m hm).wellFormed
  services := h.services
  rpcs := h.rpcs

theorem Message.LegibleEnum.parsed {e : Message} (he : e.LegibleEnum) : e.ParsedEnum where
  members := he.distinct
  bare x hx := ⟨(he.members x hx).type, (he.members x hx).keyType⟩
  flat := he.no_enums

theorem Message.Legible.parsed {m : Message} (hm : m.Legible) : m.Parsed where
  fields := hm.distinct
  named := hm.named
  enums e he := (hm.enums e he).parsed

theorem File.Legible.parsed {f : File} (hf : f.Legible) : f.Parsed where
  messages := hf.namedMessages
  parsed m hm := (hf.messages m hm).parsed
  services := hf.namedServices
  rpcs s hs := (hf.services s hs).named

/-! ## Resolution -/

namespace Resolution

variable {α β : Type}

theorem forall₂_of_mapM {f : α → Except Fault β} {xs : List α} {ys : List β}
    (h : xs.mapM f = .ok ys) : List.Forall₂ (fun x y => f x = .ok y) xs ys := by
  induction xs generalizing ys with
  | nil =>
    obtain rfl : [] = ys := Except.ok.inj h
    exact .nil
  | cons x xs ih =>
    rw [List.mapM_cons] at h
    obtain ⟨y, hy, h⟩ := Except.bind_eq_ok_iff.1 h
    obtain ⟨ys', hys, h⟩ := Except.bind_eq_ok_iff.1 h
    obtain rfl : y :: ys' = ys := Except.ok.inj h
    exact .cons hy (ih hys)

variable {f : File} {resolve : α → Except Fault α} {t t' : Table α}

/-- Every value of a resolved table is what became of the value under its name. -/
theorem forall₂_of_resolveTable (h : resolveTable resolve t = .ok t') :
    List.Forall₂ (fun e e' => e'.1 = e.1 ∧ resolve e.2 = .ok e'.2) t t' := by
  refine (forall₂_of_mapM h).imp fun e e' he => ?_
  obtain ⟨x, hx, he⟩ := Except.bind_eq_ok_iff.1 he
  obtain rfl := Except.ok.inj he
  exact ⟨rfl, hx⟩

theorem exists_mem_of_forall₂ {R : α → β → Prop} {xs : List α} {ys : List β}
    (h : List.Forall₂ R xs ys) : ∀ y ∈ ys, ∃ x ∈ xs, R x y := by
  induction h with
  | nil => simp
  | cons hxy _ ih =>
    intro y hy
    rcases List.mem_cons.1 hy with rfl | hy
    · exact ⟨_, List.mem_cons_self, hxy⟩
    · obtain ⟨x, hx, hR⟩ := ih y hy
      exact ⟨x, List.mem_cons_of_mem _ hx, hR⟩

theorem exists_of_resolveTable (h : resolveTable resolve t = .ok t') :
    ∀ y ∈ t'.values, ∃ x ∈ t.values, resolve x = .ok y := by
  intro y hy
  obtain ⟨e', he', rfl⟩ := List.mem_map.1 hy
  obtain ⟨e, he, -, hr⟩ := exists_mem_of_forall₂ (forall₂_of_resolveTable h) e' he'
  exact ⟨e.2, Table.mem_values_of_mem he, hr⟩

/-- A resolved table has the names that it had. -/
theorem names_of_resolveTable (h : resolveTable resolve t = .ok t') : t'.names = t.names := by
  symm
  rw [Table.names, Table.names, ← List.forall₂_eq_eq_eq, List.forall₂_map_left_iff,
    List.forall₂_map_right_iff]
  exact (forall₂_of_resolveTable h).imp fun _ _ h => h.1.symm

/-- Values that keep their names stay under them. -/
theorem named_of_resolveTable {name : α → String} (h : resolveTable resolve t = .ok t')
    (ht : t.Named name) (hname : ∀ x y, resolve x = .ok y → name y = name x) : t'.Named name := by
  refine ⟨Table.Sorted.of_names ht.sorted (names_of_resolveTable h), fun e' he' => ?_⟩
  obtain ⟨e, he, hk, hr⟩ := exists_mem_of_forall₂ (forall₂_of_resolveTable h) e' he'
  rw [hname e.2 e'.2 hr, ht.own e he, hk]

/-- A resolved field has other types at most, which its types stand for. -/
theorem of_resolveField {m : Message} {x y : Field} (h : resolveField f m x = .ok y) :
    y = { x with type := y.type, keyType := y.keyType } ∧
      resolveType f m x.name x.type = .ok y.type ∧
      Option.Rel (fun key key' => resolveType f m x.name key = .ok key') x.keyType y.keyType := by
  obtain ⟨type, htype, h⟩ := Except.bind_eq_ok_iff.1 h
  obtain ⟨name, _, repeated, optional, keyType, settings, description, first⟩ := x
  cases keyType with
  | none =>
    obtain rfl := Except.ok.inj h
    exact ⟨rfl, htype, .none⟩
  | some key =>
    obtain ⟨keyType, hkey, h⟩ := Except.bind_eq_ok_iff.1 h
    obtain rfl := Except.ok.inj h
    obtain ⟨key', hkey', rfl⟩ := Except.map_eq_ok_iff.1 hkey
    exact ⟨rfl, htype, .some hkey'⟩

theorem name_of_resolveField {m : Message} {x y : Field} (h : resolveField f m x = .ok y) :
    y.name = x.name := by
  rw [(of_resolveField h).1]

theorem name_of_resolveMessage {m m' : Message} (h : resolveMessage f m = .ok m') :
    m'.name = m.name := by
  obtain ⟨fields, -, h⟩ := Except.bind_eq_ok_iff.1 h
  exact Except.ok.inj h ▸ rfl

theorem name_of_resolveRpc {service : String} {r r' : Rpc} (h : resolveRpc f service r = .ok r') :
    r'.name = r.name := by
  obtain ⟨input, -, h⟩ := Except.bind_eq_ok_iff.1 h
  obtain ⟨output, -, h⟩ := Except.bind_eq_ok_iff.1 h
  exact Except.ok.inj h ▸ rfl

theorem name_of_resolveService {s s' : Service} (h : resolveService f s = .ok s') :
    s'.name = s.name := by
  obtain ⟨rpcs, -, h⟩ := Except.bind_eq_ok_iff.1 h
  exact Except.ok.inj h ▸ rfl

/-! ### What names stand for -/

/-- A name stands for something that is there, or for nothing. -/
theorem resolved_of_lookup? {m : Message} {name : String} {t : FieldType}
    (h : lookup? f m name = some t) : t.Resolved f m := by
  have houter : (if m.hasEnum (nestedName m.name (localName f.package name)) = true then
        some (FieldType.enum (nestedName m.name (localName f.package name)))
      else if f.messages.has (localName f.package name) = true then
        some (FieldType.message (localName f.package name))
      else none) = some t → t.Resolved f m := by
    intro h
    split at h
    · rename_i henum
      exact Option.some.inj h ▸ henum
    · split at h
      · rename_i hhas
        exact Option.some.inj h ▸ hhas
      · cases h
  unfold lookup? at h
  split at h
  · exact houter h
  · exact houter h
  · rename_i p hp _
    rw [← Option.some.inj h]
    exact fun h => hp (by rw [h])

theorem has_of_resolveRpcMessage {service rpc name name' : String}
    (h : resolveRpcMessage f service rpc name = .ok name') : f.messages.has name' = true := by
  unfold resolveRpcMessage at h
  dsimp only at h
  split at h
  · rename_i hhas
    exact Except.ok.inj h ▸ hhas
  · cases h

/-! ### Names stay words -/

theorem isWord_of_hasEnum {m : Message} (hm : m.Legible) {name : String}
    (h : m.hasEnum name = true) : isWord name = true := by
  obtain ⟨e, he⟩ := Table.exists_get? h
  rw [← hm.named.name_eq he]
  exact (hm.enums e (Table.mem_values_of_get? he)).name

theorem isWord_of_has (hf : f.Legible) {name : String} (h : f.messages.has name = true) :
    isWord name = true := by
  obtain ⟨m, hm⟩ := Table.exists_get? h
  rw [← hf.namedMessages.name_eq hm]
  exact (hf.messages m (Table.mem_values_of_get? hm)).name

theorem isWord_of_lookup? {m : Message} (hf : f.Legible) (hm : m.Legible) {name : String}
    {t : FieldType} (h : lookup? f m name = some t) : isWord t.name = true := by
  have ht := resolved_of_lookup? h
  cases t with
  | primitive p => exact isWord_primitive ht
  | reference n => exact ht.elim
  | message n => exact isWord_of_has hf ht
  | enum n => exact isWord_of_hasEnum hm ht

theorem isWord_of_resolveType {m : Message} (hf : f.Legible) (hm : m.Legible) {name : String}
    {t t' : FieldType} (ht : isWord t.name = true) (h : resolveType f m name t = .ok t') :
    isWord t'.name = true := by
  unfold resolveType at h
  split at h
  · split at h
    · rename_i hlookup
      exact Except.ok.inj h ▸ isWord_of_lookup? hf hm hlookup
    · cases h
  · exact Except.ok.inj h ▸ ht

theorem legible_of_resolveField {m : Message} (hf : f.Legible) (hm : m.Legible) {x y : Field}
    (hx : x.Legible) (h : resolveField f m x = .ok y) : y.Legible := by
  obtain ⟨hy, htype, hkey⟩ := of_resolveField h
  have hkeys : y.isMap = x.isMap ∧ ∀ key ∈ y.keyType, isWord key.name = true := by
    have hwords := hx.keyType
    rw [Field.isMap, Field.isMap]
    generalize x.keyType = before at hkey hwords ⊢
    generalize y.keyType = after at hkey ⊢
    cases hkey with
    | none => simp
    | some hkey =>
      refine ⟨rfl, ?_⟩
      rintro _ ⟨⟩
      exact isWord_of_resolveType hf hm (hwords _ rfl) hkey
  have hmap := hkeys.1 ▸ hx.map_repeated
  rw [hy] at hmap ⊢
  exact { hx with
    type := isWord_of_resolveType hf hm hx.type htype
    keyType := hkeys.2
    map_repeated := hmap }

/-- Resolving keeps the names of fields, and puts the fields in order again. -/
theorem legible_of_resolveMessage {m m' : Message} (hf : f.Legible) (hm : m.Legible)
    (h : resolveMessage f m = .ok m') : m'.Legible := by
  obtain ⟨fields, hfields, h⟩ := Except.bind_eq_ok_iff.1 h
  obtain rfl := Except.ok.inj h
  have hall := forall₂_of_mapM hfields
  have hnames : m.fields.map (·.name) = fields.map (·.name) := by
    rw [← List.forall₂_eq_eq_eq, List.forall₂_map_left_iff, List.forall₂_map_right_iff]
    exact hall.imp fun _ _ h => (name_of_resolveField h).symm
  have hnodup : ((Field.sort fields).map (·.name)).Nodup := by
    rw [((Field.sort_perm fields).map _).nodup_iff, ← hnames]
    exact hm.distinct.nodup
  refine { hm with fields := fun y hy => ?_, distinct := ⟨Field.sorted_sort fields, hnodup⟩ }
  obtain ⟨x, hx, hxy⟩ := exists_mem_of_forall₂ hall y ((Field.sort_perm fields).subset hy)
  exact legible_of_resolveField hf hm (hm.fields x hx) hxy

theorem isWord_of_resolveRpcMessage (hf : f.Legible) {service rpc name name' : String}
    (h : resolveRpcMessage f service rpc name = .ok name') : isWord name' = true :=
  isWord_of_has hf (has_of_resolveRpcMessage h)

theorem legible_of_resolveRpc (hf : f.Legible) {service : String} {r r' : Rpc} (hr : r.Legible)
    (h : resolveRpc f service r = .ok r') : r'.Legible := by
  obtain ⟨input, hinput, h⟩ := Except.bind_eq_ok_iff.1 h
  obtain ⟨output, houtput, h⟩ := Except.bind_eq_ok_iff.1 h
  obtain rfl := Except.ok.inj h
  exact { hr with
    input := isWord_of_resolveRpcMessage hf hinput
    output := isWord_of_resolveRpcMessage hf houtput }

theorem legible_of_resolveService (hf : f.Legible) {s s' : Service} (hs : s.Legible)
    (h : resolveService f s = .ok s') : s'.Legible := by
  obtain ⟨rpcs, hrpcs, h⟩ := Except.bind_eq_ok_iff.1 h
  obtain rfl := Except.ok.inj h
  refine { hs with
    named := named_of_resolveTable hrpcs hs.named fun _ _ => name_of_resolveRpc
    rpcs := fun r' hr' => ?_ }
  obtain ⟨r, hr, hresolve⟩ := exists_of_resolveTable hrpcs r' hr'
  exact legible_of_resolveRpc hf (hs.rpcs r hr) hresolve

end Resolution

/-! ## Files -/

theorem File.legible_of_resolved {f f' : File} (h : f.resolved = .ok f') (hf : f.Legible) :
    f'.Legible := by
  obtain ⟨messages, hmessages, h⟩ := Except.bind_eq_ok_iff.1 h
  obtain ⟨services, hservices, h⟩ := Except.bind_eq_ok_iff.1 h
  obtain rfl := Except.ok.inj h
  refine { hf with namedMessages := ?_, messages := ?_, namedServices := ?_, services := ?_ }
  · exact Resolution.named_of_resolveTable hmessages hf.namedMessages
      fun _ _ => Resolution.name_of_resolveMessage
  · intro m' hm'
    obtain ⟨m, hm, hr⟩ := Resolution.exists_of_resolveTable hmessages m' hm'
    exact Resolution.legible_of_resolveMessage hf (hf.messages m hm) hr
  · exact Resolution.named_of_resolveTable hservices hf.namedServices
      fun _ _ => Resolution.name_of_resolveService
  · intro s' hs'
    obtain ⟨s, hs, hr⟩ := Resolution.exists_of_resolveTable hservices s' hs'
    exact Resolution.legible_of_resolveService hf (hf.services s hs) hr

/-- Whatever a text spells is legible. -/
theorem File.legible_of_ofText {text : String} {f : File} (h : ofText text = .ok f) :
    f.Legible := by
  obtain ⟨located, hlocated, h⟩ := Except.bind_eq_ok_iff.1 h
  obtain ⟨unresolved, hread, h⟩ := Except.bind_eq_ok_iff.1 h
  refine legible_of_resolved h ?_
  unfold ofTokens at hread
  split at hread
  · rename_i g rest hfile
    obtain rfl := Except.ok.inj hread
    exact (Reading.gives_file _ g rest (Lexeme.spellable_of_tokens hlocated) hfile).1
  · cases hread

/-- Whatever a text spells is well formed. -/
theorem File.parsed_of_ofText {text : String} {f : File} (h : ofText text = .ok f) : f.Parsed :=
  (legible_of_ofText h).parsed

end DiscoveryGrpc.Proto
