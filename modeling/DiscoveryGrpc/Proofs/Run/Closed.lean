import DiscoveryGrpc.Proofs.Proto.Merge
import DiscoveryGrpc.Proofs.Proto.Parsed
import DiscoveryGrpc.Proofs.Proto.Signatures
import DiscoveryGrpc.Proofs.Run.Basic

/-!
# Closed files

A closed file names nothing that it does not have: messages are stored under their own names, every
type is a primitive type, a message of the file or an enum nested where the field is, rpcs take and
give messages of the file, and options about long running operations name services of the file.

The file that a conversion makes of a document is closed (`closed_of_settledFile`), and merging an
earlier file keeps it so, because a field comes back only if its types are there (`closed_merge`).
Options come back unseen, though: an earlier file may have put one about operations on a field. So
the options of fields are said apart, in `File.Targeted`, and `closed_of_convert` puts both
together. `exists_not_targets_strayLakes` is a run in which such an option comes back.
-/

namespace DiscoveryGrpc

open Proto Api

namespace Proto

/-! ## Closed files -/

/-- Whether a type of a field of a message is a primitive type, a known message, or an enum nested
in the message. -/
def FieldType.Closed (known : NameSet) (owner : Message) : FieldType → Prop
  | primitive _ => True
  | reference _ => False
  | message n => n ∈ known
  | enum n => owner.hasEnum n = true

/-- A field of a message with closed types. -/
structure Field.Closed (known : NameSet) (owner : Message) (x : Field) : Prop where
  type : x.type.Closed known owner
  keyType : ∀ key ∈ x.keyType, key.Closed known owner

/-- A message with fields of closed types, which nests enums with such members. -/
inductive Message.Closed (known : NameSet) : Message → Prop
  | intro {m : Message} (fields : ∀ x ∈ m.fields, x.Closed known m)
      (enums : ∀ e ∈ Table.values m.enums, Closed known e) : Closed known m

/-- A file that names nothing that it does not have. -/
structure File.Closed (f : File) : Prop where
  named : f.messages.Named Message.name
  messages : ∀ m ∈ f.messages.values, m.Closed f.messages.names
  rpcs : ∀ s ∈ f.services.values, ∀ r ∈ s.rpcs.values,
    r.input ∈ f.messages.names ∧ r.output ∈ f.messages.names
  settings : ∀ s ∈ f.settings, s.Targets f.services
  serviceSettings : ∀ s ∈ f.services.values, ∀ x ∈ s.settings, x.Targets f.services
  rpcSettings : ∀ s ∈ f.services.values, ∀ r ∈ s.rpcs.values, ∀ x ∈ r.settings,
    x.Targets f.services

/-- Options of fields and members about operations name a service, unless the field of that name in
the old version of the message has the option. -/
inductive Message.Targeted (services : Table Service) : Option Message → Message → Prop
  | intro {old? : Option Message} {m : Message}
      (fields : ∀ x ∈ m.fields, ∀ s ∈ x.settings, s.Targets services ∨
        ∃ old ∈ old?, ∃ y ∈ old.fields, y.name = x.name ∧ s ∈ y.settings)
      (enums : ∀ name e, m.enum? name = some e → Targeted services (old?.bind (·.enum? name)) e) :
      Targeted services old? m

/-- Options of fields and members about operations name a service, unless they come from an old
file. -/
def File.Targeted (old? : Option File) (f : File) : Prop :=
  ∀ name m, f.messages.get? name = some m →
    m.Targeted f.services (old?.bind (·.messages.get? name))

variable {known : NameSet}

theorem Message.Closed.fields {m : Message} (h : m.Closed known) :
    ∀ x ∈ m.fields, x.Closed known m := by
  cases h
  assumption

theorem Message.Closed.enums {m : Message} (h : m.Closed known) :
    ∀ e ∈ Table.values m.enums, e.Closed known := by
  cases h
  assumption

section Targeted

variable {services : Table Service} {old? : Option Message} {m : Message}

theorem Message.Targeted.fields (h : m.Targeted services old?) : ∀ x ∈ m.fields, ∀ s ∈ x.settings,
    s.Targets services ∨ ∃ old ∈ old?, ∃ y ∈ old.fields, y.name = x.name ∧ s ∈ y.settings := by
  cases h
  assumption

theorem Message.Targeted.enums (h : m.Targeted services old?) : ∀ name e, m.enum? name = some e →
    e.Targeted services (old?.bind (·.enum? name)) := by
  cases h
  assumption

end Targeted

theorem Setting.Targets.mono {services services' : Table Service} {s : Setting}
    (h : s.Targets services) (hservices : ∀ n, services.has n = services'.has n) :
    s.Targets services' := fun hname =>
  have ⟨n, hn, hhas⟩ := h hname
  ⟨n, hn, hservices n ▸ hhas⟩

theorem Message.Targeted.mono {services services' : Table Service} {old? : Option Message}
    {m : Message} (h : m.Targeted services old?) (hhas : ∀ n, services.has n = services'.has n) :
    m.Targeted services' old? := by
  induction h with
  | intro fields _ ih =>
    exact .intro (fun x hx s hs => (fields x hx s hs).imp_left (·.mono hhas)) ih

theorem FieldType.Closed.mono {owner owner' : Message} {t : FieldType} (h : t.Closed known owner)
    (henums : ∀ n, owner.hasEnum n = owner'.hasEnum n) : t.Closed known owner' := by
  cases t with
  | enum n => exact (henums n).symm.trans h
  | _ => exact h

theorem Field.Closed.mono {owner owner' : Message} {x : Field} (h : x.Closed known owner)
    (henums : ∀ n, owner.hasEnum n = owner'.hasEnum n) : x.Closed known owner' :=
  ⟨h.type.mono henums, fun key hkey => (h.keyType key hkey).mono henums⟩

end Proto

/-! ## The file of a document -/

namespace Conversion

variable {N : Naming}

theorem closed_of_drafted {known : Table Message} {m : Message} {t : FieldType}
    (h : t.Drafted known m) (hresolved : ∀ n, t ≠ .reference n) : t.Closed known.names m := by
  cases t with
  | primitive p => trivial
  | reference n => exact hresolved n rfl
  | message n => exact Table.has_iff.1 h
  | enum n => exact h

theorem closed_of_settled {known : Table Message} {m : Message} (h : Settled N known m) :
    m.Closed known.names := by
  refine .intro (fun x hx => ?_) fun e he => .intro (fun x hx => ?_) ?_
  · have hx' := h.drafted.fields x hx
    refine ⟨closed_of_drafted hx'.type (h.resolved x hx), fun key hkey => ?_⟩
    rw [hx'.keyType key hkey]
    trivial
  · have hx' := (h.drafted.enums e he).members x hx
    refine ⟨?_, by simp [hx'.keyType]⟩
    rw [hx'.type]
    trivial
  · simp [(h.drafted.enums e he).no_enums]

/-- No option of a field or member of a draft is about operations. -/
theorem targeted_of_drafted {known : Table Message} {m : Message} (h : m.Drafted N known)
    (services : Table Service) : m.Targeted services none := by
  refine .intro (fun x hx s hs => ?_) fun name e he => .intro (fun x hx s hs => ?_) ?_
  · exact .inl (((h.fields x hx).settings s hs).mono (by simp)).targets
  · rw [(h.enums e (Table.mem_values_of_get? he)).bare x hx] at hs
    cases hs
  · intro name e' he'
    rw [Message.enum?, (h.enums e (Table.mem_values_of_get? he)).no_enums] at he'
    cases he'

/-- The file that is made of a document is closed, and none of its fields has an option about
operations. -/
theorem closed_of_settledFile {f : File} (h : SettledFile N f) : f.Closed ∧ f.Targeted none := by
  constructor
  · exact {
      named := h.named
      messages := fun m hm => closed_of_settled (h.messages m hm)
      rpcs := fun s hs r hr => (h.rpcs s hs r hr).imp Table.has_iff.1 Table.has_iff.1
      settings := fun s hs => ((h.settings s hs).mono (by simp)).targets
      serviceSettings := fun s hs x hx => (((h.services s hs).settings x hx).mono (by simp)).targets
      rpcSettings := fun s hs r hr x hx => (((h.services s hs).rpcs r hr).settings x hx).targets }
  · intro name m hm
    exact targeted_of_drafted (h.messages m (Table.mem_values_of_get? hm)).drafted f.services

end Conversion

/-! ## Merging -/

namespace Proto.Merge

variable {known : NameSet}

theorem closed_unreferenced {owner : Message} {t : FieldType} (h : t.Available known owner) :
    t.unreferenced.Closed known owner := by
  cases t <;> exact h

theorem closed_merged {new old : Message} (hn : new.WellFormed) (ho : old.WellFormed)
    (h : new.Closed known) : (merged known new old).Closed known := by
  induction ho generalizing new with
  | @intro old hfields hnamed henums ih =>
    have hhas := fun n => (hasEnum_merged known hn.named.sorted hnamed n).symm
    refine .intro (fun x hx => ?_) ?_
    · rcases field_cases hn (.intro hfields hnamed henums) hx with hx | ⟨f, -, ha, _, rfl⟩
      · exact (h.fields x hx).mono hhas
      · refine Field.Closed.mono ⟨closed_unreferenced ha.1, fun key hkey => ?_⟩ hhas
        obtain ⟨k, hk, rfl⟩ := Option.map_eq_some_iff.1 hkey
        exact closed_unreferenced (ha.2 k hk)
    · refine (overlaid_enums _ hn.named.sorted hnamed).forall_values hn.named.sorted h.enums ?_
      rintro x hx y hy _ rfl
      exact ih y hy (hn.enums x hx) (h.enums x hx)

theorem targeted_merged {services : Table Service} {new old : Message} (hn : new.WellFormed)
    (ho : old.WellFormed) (h : new.Targeted services none) :
    (merged known new old).Targeted services (some old) := by
  induction ho generalizing new with
  | @intro old hfields hnamed henums ih =>
    refine .intro (fun x hx s hs => ?_) fun name z hz => ?_
    · rcases field_cases hn (.intro hfields hnamed henums) hx with hx | ⟨f, hf, -, _, rfl⟩
      · exact .inl ((h.fields x hx s hs).resolve_right (by simp))
      · exact .inr ⟨old, rfl, f, hf, rfl, hs⟩
    · have hover := overlaid_enums known hn.named.sorted hnamed
      rcases hover.cases hz with ⟨hy, hz⟩ | ⟨x, y, hx, hy, rfl⟩
      · rw [Option.bind_some, Message.enum?, hy]
        exact h.enums name z hz
      · rw [Option.bind_some, Message.enum?, hy]
        exact ih y (Table.mem_values_of_get? hy) (hn.enums x (Table.mem_values_of_get? hx))
          (h.enums name x hx)

/-- A service of a merged file is a new one, up to signatures of its rpcs. -/
theorem exists_of_mergedService {new old : Service} (hn : new.rpcs.Named Rpc.name)
    (ho : old.rpcs.Named Rpc.name) : ∀ r ∈ (mergedService new old).rpcs.values,
    ∃ r₀ ∈ new.rpcs.values, r.input = r₀.input ∧ r.output = r₀.output ∧
      ∀ x ∈ r.settings, x ∈ r₀.settings ∨ isSignature x = true := by
  refine (overlaid_rpcs ho new).forall_values hn.sorted ?_ ?_
  · exact fun r hr => ⟨r, hr, rfl, rfl, fun x hx => .inl hx⟩
  · rintro r hr r' - _ rfl
    exact ⟨r, hr, rfl, rfl, fun x hx => mem_mergeSignatures hx⟩

theorem exists_of_merge {new old : File} (hn : new.WellFormed) (ho : old.WellFormed) :
    ∀ s ∈ (new.merge old).1.services.values, ∃ s₀ ∈ new.services.values, s.settings = s₀.settings ∧
      ∀ r ∈ s.rpcs.values, ∃ r₀ ∈ s₀.rpcs.values, r.input = r₀.input ∧ r.output = r₀.output ∧
        ∀ x ∈ r.settings, x ∈ r₀.settings ∨ isSignature x = true := by
  refine (overlaid_services new ho.services).forall_values hn.services.sorted ?_ ?_
  · exact fun s hs => ⟨s, hs, rfl, fun r hr => ⟨r, hr, rfl, rfl, fun x hx => .inl hx⟩⟩
  · rintro s hs s' hs' _ rfl
    exact ⟨s, hs, rfl, exists_of_mergedService (hn.rpcs s hs) (ho.rpcs s' hs')⟩

theorem targets_signature {services : Table Service} {s : Setting} (h : isSignature s = true) :
    s.Targets services := by
  intro hname
  rw [isSignature, hname] at h
  exact absurd h (by decide)

/-- Merging keeps a file closed. -/
theorem closed_merge {new old : File} (hn : new.WellFormed) (ho : old.WellFormed) (h : new.Closed) :
    (new.merge old).1.Closed := by
  have hmessages := overlaid_messages hn.messages.sorted ho.messages
  have hservices := exists_of_merge hn ho
  have hhas := fun n => (Table.has_of_names (overlaid_services new ho.services).names n).symm
  constructor
  case named => exact (wellFormed_merge hn ho).messages
  case messages =>
    rw [hmessages.names]
    refine hmessages.forall_values hn.messages.sorted h.messages ?_
    rintro x hx y hy _ rfl
    exact closed_merged (hn.wellFormed x hx) (ho.wellFormed y hy) (h.messages x hx)
  case rpcs =>
    intro s hs r hr
    obtain ⟨s₀, hs₀, -, hrpcs⟩ := hservices s hs
    obtain ⟨r₀, hr₀, hinput, houtput, -⟩ := hrpcs r hr
    rw [hinput, houtput, hmessages.names]
    exact h.rpcs s₀ hs₀ r₀ hr₀
  case settings => exact fun s hs => (h.settings s hs).mono hhas
  case serviceSettings =>
    intro s hs x hx
    obtain ⟨s₀, hs₀, hsettings, -⟩ := hservices s hs
    exact (h.serviceSettings s₀ hs₀ x (hsettings ▸ hx)).mono hhas
  case rpcSettings =>
    intro s hs r hr x hx
    obtain ⟨s₀, hs₀, -, hrpcs⟩ := hservices s hs
    obtain ⟨r₀, hr₀, -, -, hsettings⟩ := hrpcs r hr
    rcases hsettings x hx with hx | hx
    · exact (h.rpcSettings s₀ hs₀ r₀ hr₀ x hx).mono hhas
    · exact targets_signature hx

/-- What merging adds to the options of fields comes from the old file. -/
theorem targeted_merge {new old : File} (hn : new.WellFormed) (ho : old.WellFormed)
    (h : new.Targeted none) : (new.merge old).1.Targeted (some old) := by
  have hmessages := overlaid_messages hn.messages.sorted ho.messages
  have hhas := fun n => (Table.has_of_names (overlaid_services new ho.services).names n).symm
  intro name z hz
  refine Message.Targeted.mono ?_ hhas
  rcases hmessages.cases hz with ⟨hy, hz⟩ | ⟨x, y, hx, hy, rfl⟩
  · rw [Option.bind_some, hy]
    exact h name z hz
  · rw [Option.bind_some, hy]
    exact targeted_merged (hn.wellFormed x (Table.mem_values_of_get? hx))
      (ho.wellFormed y (Table.mem_values_of_get? hy)) (h name x hx)

end Proto.Merge

/-! ## Runs -/

/-- The earlier file that a run is given, if it is given one that can be read. -/
def Input.previous? (input : Input) : Option File :=
  input.proto?.bind fun text => (File.ofText text).toOption

/-- The file of a run names nothing that it does not have, but for options of fields that come from
the earlier file. -/
theorem closed_of_convert {input : Input} {o : Output} (h : (convert input).1 = .ok o) :
    o.file.Closed ∧ o.file.Targeted input.previous? := by
  obtain ⟨fresh, d, registry, w, -, hf, hmerged⟩ := exists_fresh_of_convert h
  have hsettled := Conversion.settled_of_fileOf (Naming.admitsDocument_any d)
    ⟨fun _ _ => trivial, fun _ _ => trivial⟩ hf
  have hwf := hsettled.wellFormed
  obtain ⟨hclosed, htargeted⟩ := Conversion.closed_of_settledFile hsettled
  rcases mergedFile_eq_ok_iff.1 hmerged with ⟨hnone, hfile⟩ | ⟨text, old, htext, hold, hfile⟩
  · rw [hfile, Input.previous?, hnone]
    exact ⟨hclosed, htargeted⟩
  · have ho := (File.parsed_of_ofText hold).wellFormed
    rw [hfile, Input.previous?, htext, Option.bind_some, hold]
    exact ⟨Merge.closed_merge hwf ho hclosed, Merge.targeted_merge hwf ho htargeted⟩

/-- A document in which lakes have a depth. -/
def deepLakes : String :=
  lakesDocument [("Lake", objectSchema [("depth", .object [("type", .string "integer")])])]

/-- An earlier file in which lakes have an area, with an option about operations. -/
def strayLakes : String :=
  "syntax = \"proto3\";\npackage google.cloud.lakes.v1;\nmessage Lake \x7b\n"
    ++ "  optional int32 area = 1 [(google.cloud.operation_service) = \"Nowhere\"];\n\x7d\n"

theorem closed_of_convert_strayLakes :
    ∃ o, (convert { document := deepLakes, proto? := some strayLakes }).1 = .ok o ∧
      o.file.messages.has "Lake" = true ∧ o.file.Closed ∧
      o.file.Targeted (Input.previous? { document := deepLakes, proto? := some strayLakes }) := by
  have hspells : Json.Spells deepLakes _ := Json.spells_compact (by
    simp [Json.Printable, Json.PrintableMembers, objectSchema])
  obtain ⟨o, ho, hlake⟩ : ∃ o,
      (convert { document := deepLakes, proto? := some strayLakes }).1 = .ok o ∧
      o.file.messages.has "Lake" = true :=
    exists_eq_ok_of_eq (convert_of_spells hspells) (by decide +kernel)
  exact ⟨o, ho, hlake, closed_of_convert ho⟩

/-- An option of an earlier field comes back even if it names no service. -/
theorem exists_not_targets_strayLakes :
    ∃ o, (convert { document := deepLakes, proto? := some strayLakes }).1 = .ok o ∧
      ∃ m ∈ o.file.messages.values, ∃ x ∈ m.fields, ∃ s ∈ x.settings,
        ¬s.Targets o.file.services := by
  have hspells : Json.Spells deepLakes _ := Json.spells_compact (by
    simp [Json.Printable, Json.PrintableMembers, objectSchema])
  obtain ⟨o, ho, hstray⟩ : ∃ o,
      (convert { document := deepLakes, proto? := some strayLakes }).1 = .ok o ∧
      decide (∃ m ∈ o.file.messages.values, ∃ x ∈ m.fields, ∃ s ∈ x.settings,
        ¬s.Targets o.file.services) = true :=
    exists_eq_ok_of_eq (convert_of_spells hspells) (by decide +kernel)
  exact ⟨o, ho, of_decide_eq_true hstray⟩

end DiscoveryGrpc
