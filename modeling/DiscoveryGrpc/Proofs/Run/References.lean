import DiscoveryGrpc.Proofs.Api.Document
import DiscoveryGrpc.Proofs.Conversion.Sources
import DiscoveryGrpc.Proofs.Run.Translated

/-!
# What references resolve to

A reference to a schema is kept by the name of a message and resolved by that name, when all
messages are there. So it resolves to a message of the name that the reference has, whatever it was
made of: `references_of_convert` says that this is the schema at the top level that the reference
means, if it is one that messages are made of, or else that something else in the document gives a
message that name.

`exists_refersTo_infoLakes` is a run in which a reference to a schema that is a string resolves to
an inline object.
-/

namespace DiscoveryGrpc

open Proto Api

namespace Conversion

variable {opts : Options} {d : Document} {w w' start final : Workspace}

/-- The message with a name has fields for these properties: it was made of an object with them and
kept, or it is the request of a method with them for its parameters. -/
inductive Carries (opts : Options) (d : Document) (start final : Workspace) :
    List (String × Schema) → String → Prop
  | object {r : Registry} {s : Schema} {name : String}
      (h : Makes opts start final r s name true) : Carries opts d start final s.properties name
  | request {resource : String × List Method} {m : Method} (hresource : resource ∈ d.resources)
      (hserves : opts.serves resource.1 = true) (hm : m ∈ resource.2)
      (hkeeps : opts.keeps m = true) : Carries opts d start final m.parameters (requestName m)

/-- A property or parameter has a schema that is a reference for its value, and its field in a file
has the message with a name for its type. -/
structure RefersTo (opts : Options) (d : Document) (start final : Workspace)
    (messages : Table Message) (v : Schema) (n : String) : Prop where
  isReference : v.isReference = true
  field : ∃ ps name m p x, Carries opts d start final ps name ∧ messages.get? name = some m ∧
    p ∈ ps ∧ p.2.value? = some v ∧ x ∈ m.fields ∧ fieldName p.2.key = .ok x.name ∧
    x.type = .message n

/-- A message is made, under a name, of the schema at the top level that a schema refers to. -/
def Resolves (opts : Options) (d : Document) (v : Schema) (n : String) : Prop :=
  ∃ s, d.dereference v = some s ∧ opts.converts (v.reference, s) = true ∧
    messageName s.identifier = .ok n

/-- A message with a name is made of something else than what a schema refers to. -/
inductive Stray (opts : Options) (d : Document) (start final : Workspace) (v : Schema) :
    String → Prop
  | schema {e : String × Schema} {n : String} (he : e ∈ d.schemas) (hne : e.1 ≠ v.reference)
      (hconverts : opts.converts e = true) (hn : messageName e.2.identifier = .ok n) :
      Stray opts d start final v n
  | object {u : Schema} {n : String} (hu : Nested opts d u) (hn : Gives opts start final u n) :
      Stray opts d start final v n
  | request {resource : String × List Method} {m : Method} (hresource : resource ∈ d.resources)
      (hserves : opts.serves resource.1 = true) (hm : m ∈ resource.2)
      (hkeeps : opts.keeps m = true) : Stray opts d start final v (requestName m)
  | response {resource : String × List Method} {m : Method} (hresource : resource ∈ d.resources)
      (hserves : opts.serves resource.1 = true) (hm : m ∈ resource.2)
      (hkeeps : opts.keeps m = true) (hnone : m.response = none) :
      Stray opts d start final v (responseName m)

theorem Source.resolves_or_stray {n : String} (h : Source opts d start final n)
    (hd : d.schemas.Sorted) {v : Schema} (href : v.isReference = true) :
    Resolves opts d v n ∨ Stray opts d start final v n := by
  cases h with
  | @schema e n he hconverts hn =>
    by_cases hkey : e.1 = v.reference
    · refine .inl ⟨e.2, ?_, hkey ▸ hconverts, hn⟩
      rw [Document.dereference, if_pos href]
      exact Table.get?_of_mem hd (hkey ▸ he)
    · exact .inr (.schema he hkey hconverts hn)
  | object hv hn => exact .inr (.object hv hn)
  | request hresource hserves hm hkeeps => exact .inr (.request hresource hserves hm hkeeps)
  | response hresource hserves hm hkeeps hnone =>
    exact .inr (.response hresource hserves hm hkeeps hnone)

/-- A message that was added has the fields for properties, which are told apart by their names. -/
structure Added (opts : Options) (start final : Workspace) (ps : List (String × Schema))
    (m : Message) (w w' : Workspace) : Prop where
  kept : addMessage m w = .ok true w'
  grows : Grows w' final
  nodup : (m.fields.map (·.name)).Nodup
  fields : ∃ fs, FieldsFor (.made opts start final) ps fs ∧ ∀ x ∈ fs, x ∈ m.fields

theorem addMessage_of_carries {services : Table Service} (h : Built opts d start services final)
    {ps : List (String × Schema)} {name : String} (hps : Carries opts d start final ps name) :
    ∃ m w w', m.name = name ∧ Added opts start final ps m w w' := by
  cases hps with
  | object hmakes =>
    obtain ⟨m, w, w', hname, hdrafted, hkept, hfinal, fs, hfs, hperm⟩ := hmakes.exists_message
    exact ⟨m, w, w', hname, hkept, hfinal, hdrafted.distinct.nodup, fs, hfs,
      fun x hx => hperm.mem_iff.2 hx⟩
  | @request resource m hresource hserves hm hkeeps =>
    obtain ⟨_, r, w, w', hstart, hr, hfinal⟩ := h.exists_rpcOf hresource hserves hm hkeeps
    obtain ⟨description, request, w₁, full, body?, kept, w₂, hrequest, hbody, hkept, hw₂⟩ :=
      (rpcMade_of_rpcOf hr).exists_request
    have hfilled := filled_of_addProperties _ _ _ _ _ hrequest
    obtain ⟨hdrafted, hname⟩ := drafted_addBody
      (((leads_addProperties opts _ (admitsMethod_any m).parameters _ _ w (.empty trivial _)
        rfl).of_ok hrequest).2.1) (admitsMethod_any m).body hbody
    obtain ⟨-, -, bodies, hbodies, -⟩ := addBody_eq_ok hbody
    have hname : full.name = requestName m := hname.trans hfilled.name
    obtain rfl := kept_of_addMessage hkept (hname ▸ requestName_ne m)
    have hfinal := hw₂.trans hfinal
    obtain ⟨fs, hfs, hperm⟩ := hfilled.exists_fieldsFor hstart
      ((grows_of_addMessage hkept).trans hfinal)
    rw [List.append_nil] at hperm
    exact ⟨full, w₁, w₂, hname, hkept, hfinal, hdrafted.distinct.nodup, fs, hfs,
      fun x hx => hbodies.mem_iff.2 (List.mem_append_left _ (hperm.mem_iff.2 hx))⟩

/-- A type that comes out as a message from a reference names the message of the reference, which
is there. -/
theorem resolveType_reference {known removed : NameSet} {n n' : String}
    (h : withoutEnums removed (resolveType known (.reference n)) = .message n') :
    n = n' ∧ known.contains n = true := by
  rw [resolveType] at h
  split at h
  · rename_i hknown
    exact ⟨FieldType.message.inj h, hknown⟩
  · cases h

/-- A reference of the file is to the message with its name, and there is a reason for that. -/
theorem RefersTo.name {ignored : NameSet} {v : Schema} {n : String} {services : Table Service}
    (h : RefersTo opts d start final (finalMessages ignored final) v n)
    (hbuilt : Built opts d start services final) :
    messageName v.reference = .ok n ∧ final.messages.has n = true := by
  obtain ⟨ps, name, m, p, x, hcarries, hm, hp, hv, hx, hname, htype⟩ := h.field
  obtain ⟨full, w, w', rfl, hadded⟩ := addMessage_of_carries hbuilt hcarries
  obtain ⟨settled, hget, stored, -, hsame, removed, hperm, -⟩ :=
    exists_settled ignored hadded.kept hadded.grows
  obtain rfl := Option.some.inj (hget.symm.trans hm)
  obtain ⟨y, hy, rfl⟩ := List.mem_map.1 (hperm.mem_iff.1 hx)
  obtain ⟨z, hz, hzname, hztype⟩ := exists_of_undocumented hsame (List.mem_filter.1 hy).1
  obtain ⟨fs, hfs, hfull⟩ := hadded.fields
  obtain ⟨f, hf, hfield⟩ := Resolution.exists_mem_of_forall₂ hfs.flip p hp
  -- no other field of the message has the name of the one for the property
  have hfz : f = z := by
    refine List.inj_on_of_nodup_map hadded.nodup (hfull f hf) hz ?_
    have hfname := Except.ok.inj (hfield.name.symm.trans hname)
    exact hfname.trans hzname.symm
  obtain ⟨u, hu, hhas⟩ := hfield.type
  obtain rfl := Option.some.inj (hu.symm.trans hv)
  rw [hfz, hztype] at hhas
  obtain ⟨n', hn', hytype⟩ := hhas.of_reference h.isReference
  change withoutEnums removed (resolveType final.messages.names y.type) = .message n at htype
  rw [hytype] at htype
  obtain ⟨rfl, hknown⟩ := resolveType_reference htype
  exact ⟨hn', contains_names.symm.trans hknown⟩

/-- A property of a schema at the top level that refers to a message. -/
theorem Built.refersTo {services : Table Service} (h : Built opts d start services final)
    {e p : String × Schema} (he : e ∈ d.schemas) (hconverts : opts.converts e = true)
    {name : String} (hname : messageName e.2.identifier = .ok name) (herrors : name ≠ "Errors")
    {messages : Table Message} {m : Message} (hm : messages.get? name = some m)
    (hp : p ∈ e.2.properties) {v : Schema} (hv : p.2.value? = some v)
    (href : v.isReference = true) {x : Field} (hx : x ∈ m.fields)
    (hfield : fieldName p.2.key = .ok x.name) {n : String} (htype : x.type = .message n) :
    RefersTo opts d start final messages v n := by
  obtain ⟨name', r, kept, hname', hmakes⟩ := h.schemas e he hconverts
  obtain rfl := Except.ok.inj (hname'.symm.trans hname)
  cases kept with
  | false => exact absurd hmakes.passedThrough.1 herrors
  | true => exact ⟨href, _, _, m, p, x, .object hmakes, hm, hp, hv, hx, hfield, htype⟩

end Conversion

/-! ## Deciding what refers to a message -/

/-- Whether a field of a message has a message for its type. -/
def Proto.File.hasReference (f : File) (message field target : String) : Bool :=
  (f.messages.get? message).any fun m => m.fields.any fun x =>
    x.name == field && x.type == .message target

/-- Whether the schema of a message has a property for a field, which refers to a schema, and
something is so for this reference. -/
def Api.Document.hasReference (d : Document) (message field : String) (p : Schema → Bool) : Bool :=
  d.schemas.any fun e => Options.converts {} e && e.2.properties.any (fun q =>
    (fieldName q.2.key).toOption == some field && q.2.value?.any fun v => v.isReference && p v) &&
      (messageName e.2.identifier).toOption == some message

/-- A property that is a reference refers to the message that its field has for a type. -/
theorem Conversion.Built.exists_refersTo {d : Document} {start final : Workspace}
    {services : Table Service} (h : Built {} d start services final) {message field n : String}
    {p : Schema → Bool} (hd : d.hasReference message field p = true) {f : File}
    (hf : f.hasReference message field n = true) (herrors : message ≠ "Errors") :
    ∃ v, RefersTo {} d start final f.messages v n ∧ p v = true := by
  obtain ⟨m, hm, hfield⟩ := (Option.any_eq_true _ _).1 hf
  obtain ⟨x, hx, hfield⟩ := List.any_eq_true.1 hfield
  obtain ⟨hxname, hxtype⟩ := Bool.and_eq_true_iff.1 hfield
  obtain ⟨e, he, hschema⟩ := List.any_eq_true.1 hd
  simp only [Bool.and_eq_true] at hschema
  obtain ⟨⟨hconverts, hproperty⟩, hname⟩ := hschema
  obtain ⟨q, hq, hproperty⟩ := List.any_eq_true.1 hproperty
  obtain ⟨hkey, hproperty⟩ := Bool.and_eq_true_iff.1 hproperty
  obtain ⟨v, hv, hproperty⟩ := (Option.any_eq_true _ _).1 hproperty
  obtain ⟨href, hvalue⟩ := Bool.and_eq_true_iff.1 hproperty
  exact ⟨v, h.refersTo he hconverts (eq_ok_of_toOption hname) herrors hm hq hv href hx
    (eq_of_beq hxname ▸ eq_ok_of_toOption hkey) (eq_of_beq hxtype), hvalue⟩

/-! ## Runs -/

/-- In a run without an earlier file, a field for a reference has the message with the name of the
reference for its type. It is made of the schema that the reference means, or else of something of
the same name. -/
theorem references_of_convert {input : Input} {o : Output} (h : (convert input).1 = .ok o)
    (hproto : input.proto? = none) : ∃ d registry services final,
      Document.ofText input.document = .ok d ∧
      startingRegistry input.config? = .ok registry ∧
      Conversion.buildAll input.options d { registry } = .ok services final ∧
      ∀ v n, Conversion.RefersTo input.options d { registry } final o.file.messages v n →
        messageName v.reference = .ok n ∧
          (Conversion.Resolves input.options d v n ∨
            Conversion.Stray input.options d { registry } final v n) := by
  obtain ⟨d, registry, services, final, hd, hr, hbuild, hbuilt, -, hmessages, -⟩ :=
    exists_built_of_convert h hproto
  refine ⟨d, registry, services, final, hd, hr, hbuild, fun v n hrefers => ?_⟩
  have hschemas := (Document.tabled_of_ofText hd).schemas.sorted
  obtain ⟨hname, hhas⟩ := Conversion.RefersTo.name (hmessages ▸ hrefers) hbuilt
  exact ⟨hname, ((Conversion.sourced_of_buildAll hbuild).source n hhas).resolves_or_stray hschemas
    hrefers.isReference⟩

/-- A document in which lakes refer to their regions. -/
def regionLakes : String :=
  lakesDocument [
    ("Lake", objectSchema [("region", .object [("$ref", .string "Region")])]),
    ("Region", objectSchema [])]

theorem references_of_convert_regionLakes : ∃ o, (convert { document := regionLakes }).1 = .ok o ∧
    o.file.messages.has "Region" = true ∧ ∃ d registry services final,
      Document.ofText regionLakes = .ok d ∧
      startingRegistry none = .ok registry ∧
      Conversion.buildAll {} d { registry } = .ok services final ∧
      (∃ v, Conversion.RefersTo {} d { registry } final o.file.messages v "Region") ∧
      ∀ v n, Conversion.RefersTo {} d { registry } final o.file.messages v n →
        messageName v.reference = .ok n ∧
          (Conversion.Resolves {} d v n ∨ Conversion.Stray {} d { registry } final v n) := by
  have hspells : Json.Spells regionLakes _ := Json.spells_compact (by
    simp [Json.Printable, Json.PrintableMembers, objectSchema])
  obtain ⟨o, ho, hfile⟩ : ∃ o, (convert { document := regionLakes }).1 = .ok o ∧
      (o.file.messages.has "Region" && o.file.hasReference "Lake" "region" "Region") = true :=
    exists_eq_ok_of_eq (convert_of_spells hspells) (by decide +kernel)
  obtain ⟨d', hd', hproperty⟩ : ∃ d, Document.ofText regionLakes = .ok d ∧
      d.hasReference "Lake" "region" (fun _ => true) = true :=
    exists_eq_ok_of_eq (Document.ofText_of_spells hspells) (by decide +kernel)
  obtain ⟨hregion, hfield⟩ := Bool.and_eq_true_iff.1 hfile
  obtain ⟨d, registry, services, final, hd, hr, hbuild, hreferences⟩ :=
    references_of_convert ho rfl
  obtain rfl := Except.ok.inj (hd'.symm.trans hd)
  obtain ⟨v, hrefers, -⟩ :=
    (Conversion.built_of_buildAll hbuild).exists_refersTo hproperty hfield (by decide)
  exact ⟨o, ho, hregion, d', registry, services, final, hd, hr, hbuild, ⟨v, hrefers⟩, hreferences⟩

/-- A document in which the state of a lake refers to a string, and its info is an object. -/
def infoLakes : String :=
  lakesDocument [
    ("Info", .object [("type", .string "string")]),
    ("Lake", objectSchema [
      ("info", objectSchema [("depth", .object [("type", .string "integer")])]),
      ("state", .object [("$ref", .string "Info")])])]

/-- The state of a lake has the message that is made of its info for its type. -/
theorem exists_refersTo_infoLakes : ∃ o d registry services final,
    (convert { document := infoLakes }).1 = .ok o ∧
    Document.ofText infoLakes = .ok d ∧
    startingRegistry none = .ok registry ∧
    Conversion.buildAll {} d { registry } = .ok services final ∧
    ∃ v, Conversion.RefersTo {} d { registry } final o.file.messages v "Info" ∧
      ¬ Conversion.Resolves {} d v "Info" := by
  have hspells : Json.Spells infoLakes _ := Json.spells_compact (by
    simp [Json.Printable, Json.PrintableMembers, objectSchema])
  obtain ⟨o, ho, hfield⟩ : ∃ o, (convert { document := infoLakes }).1 = .ok o ∧
      o.file.hasReference "Lake" "state" "Info" = true :=
    exists_eq_ok_of_eq (convert_of_spells hspells) (by decide +kernel)
  obtain ⟨d, hd, hproperty⟩ : ∃ d, Document.ofText infoLakes = .ok d ∧
      d.hasReference "Lake" "state" (fun v => (d.dereference v).all (!·.isObject)) = true :=
    exists_eq_ok_of_eq (Document.ofText_of_spells hspells) (by decide +kernel)
  obtain ⟨d', registry, services, final, hd', hr, hbuild, hbuilt, -⟩ :=
    exists_built_of_convert ho rfl
  obtain rfl := Except.ok.inj (hd'.symm.trans hd)
  obtain ⟨v, hrefers, hvalue⟩ := hbuilt.exists_refersTo hproperty hfield (by decide)
  refine ⟨o, d', registry, services, final, ho, hd, hr, hbuild, v, hrefers, ?_⟩
  rintro ⟨s, hs, hconverts, -⟩
  have hobject : s.isObject = false := by simpa [hs] using hvalue
  rw [Options.converts, hobject, Bool.and_false] at hconverts
  cases hconverts

end DiscoveryGrpc
