import DiscoveryGrpc.Proofs.Api.Document
import DiscoveryGrpc.Proofs.Run.Translated

/-!
# Rpcs agree with their requests

The parts of an rpc come from the parameters and the body of one method: the fields of its request,
the field that its http rule takes for the body, and the names in its signature. `Agreement` says
that they agree, where `request` is the message in the file, in which references are resolved and
enums may be gone.

Two methods may have one name for their requests. Then they have the same fields in them, since a
request is never passed through.

`exists_method_of_convert` gives for every rpc of a run the method that it is made of, with the
request that agrees with it and the template that is made of its path.
-/

namespace DiscoveryGrpc

open Proto Api

/-- Whether a method has a parameter with a name that is required. -/
def Api.Method.requires (m : Method) (name : String) : Bool :=
  (m.parameters.get? name).any (·.required)

namespace Conversion

variable {opts : Options} {d : Document} {w w' start final : Workspace} {m : Method}

/-! ## The fields of a request -/

/-- Fields for properties have the names that are given to their keys. -/
theorem FieldsFor.mapM_fieldName {R : Rendering} {ps : List (String × Schema)} {fs : List Field}
    (h : FieldsFor R ps fs) :
    (ps.map (·.2.key)).mapM fieldName = .ok (fs.map (·.name)) := by
  induction h with
  | nil => rfl
  | cons hx _ ih =>
    rw [List.map_cons, List.mapM_cons, hx.name, ih]
    rfl

theorem map_key {t : Table Schema} (h : TabledSchemas t) : t.map (·.2.key) = t.names :=
  List.map_congr_left h.keys

/-- Without messages to be left out no field goes, so names of fields are as they were made. -/
theorem names_of_settled {full : Message} (hkept : addMessage full w = .ok true w')
    (hfinal : Grows w' final) : ∃ settled, (finalMessages [] final).get? full.name = some settled ∧
      (settled.fields.map (·.name)).Perm (full.fields.map (·.name)) := by
  obtain ⟨settled, hget, stored, -, hsame, removed, hperm, -⟩ := exists_settled [] hkept hfinal
  refine ⟨settled, hget, ?_⟩
  have hstay : stored.fields.filter (!isDropped final.messages.names [] ·) = stored.fields := by
    refine List.filter_eq_self.2 fun x _ => ?_
    unfold isDropped
    cases x.type <;> simp
  have hnames : stored.fields.map (·.name) = full.fields.map (·.name) := by
    have hmap := congrArg (List.map Field.name) hsame
    rw [List.map_map, List.map_map] at hmap
    exact hmap
  rw [hstay] at hperm
  rw [← hnames]
  refine (hperm.map (·.name)).trans (List.Perm.of_eq ?_)
  rw [List.map_map]
  rfl

/-! ## Options of an rpc -/

/-- An http rule has a template, and maybe a body; no verb is called like that. -/
theorem exists_of_httpRule {servicePath : String} {body? : Option String} {rule : Setting}
    (h : httpRule servicePath m body? = .ok rule) : ∃ verb template, verb ≠ "body" ∧
      Template.withFieldNames s!"/{servicePath}{m.flatPath}" = .ok template ∧
      rule = .group Setting.http
        ((verb, .string template) :: (body?.map fun body => ("body", .string body)).toList) := by
  unfold httpRule at h
  dsimp only at h
  split at h
  · rename_i hverb
    obtain ⟨template, htemplate, h⟩ := Except.bind_eq_ok_iff.1 h
    refine ⟨_, template, fun heq => ?_, htemplate, (Except.ok.inj h).symm⟩
    rw [heq] at hverb
    exact absurd hverb (by decide)
  · cases h

theorem httpRule_eq_ok {servicePath : String} {body? : Option String} {rule : Setting}
    (h : httpRule servicePath m body? = .ok rule) :
    rule.name = Setting.http ∧ rule.property? "body" = body?.map .string := by
  obtain ⟨verb, template, hverb, -, rfl⟩ := exists_of_httpRule h
  refine ⟨rfl, ?_⟩
  have hne : ("body" == verb) = false := beq_eq_false_iff_ne.2 hverb.symm
  cases body? <;> simp [Setting.property?, Setting.group, List.lookup, hne]

/-- The option that lists names as a signature, unless there are none. -/
def signatureOf : List String → List Setting
  | [] => []
  | names => [.string Setting.methodSignature (",".intercalate names)]

theorem signature_eq_ok {body? : Option String} {ss : List Setting}
    (h : signature m body? = .ok ss) : ∃ required,
      m.requiredParameters.mapM fieldName = .ok required ∧
        ss = signatureOf (required ++ body?.toList) := by
  obtain ⟨required, hrequired, h⟩ := Except.bind_eq_ok_iff.1 h
  refine ⟨required, hrequired, ?_⟩
  cases hnames : required ++ body?.toList with
  | nil =>
    simp only [hnames] at h
    exact (Except.ok.inj h).symm
  | cons name names =>
    simp only [hnames] at h
    exact (Except.ok.inj h).symm

theorem name_of_mem_signatureOf {names : List String} {s : Setting} (h : s ∈ signatureOf names) :
    s.name = Setting.methodSignature := by
  unfold signatureOf at h
  split at h
  · cases h
  · rw [List.mem_singleton.1 h]
    rfl

/-- Options of an rpc by name: the rule, the signature, and those about operations. -/
theorem settings_named {rule : Setting} {settings : List Setting} (hrule : rule.name = Setting.http)
    (names : List String)
    (hsettings : ∀ s ∈ settings, IsOperationSetting s) :
    (rule :: signatureOf names ++ settings).filter (·.name == Setting.http) = [rule] ∧
      (rule :: signatureOf names ++ settings).filter (·.name == Setting.methodSignature)
        = signatureOf names := by
  have hnone : ∀ name, name ≠ Setting.operationPolling → name ≠ Setting.operationService →
      settings.filter (·.name == name) = [] := by
    intro name hpolling hservice
    refine List.filter_eq_nil_iff.2 fun s hs hname => ?_
    rcases hsettings s hs with h | h
    · exact hpolling ((beq_iff_eq.1 hname).symm.trans h)
    · exact hservice ((beq_iff_eq.1 hname).symm.trans h)
  have hsignature : ∀ name, (signatureOf names).filter (·.name == name) =
      if name = Setting.methodSignature then signatureOf names else [] := by
    intro name
    split
    · rename_i hname
      exact List.filter_eq_self.2 fun s hs => by simp [name_of_mem_signatureOf hs, hname]
    · rename_i hname
      exact List.filter_eq_nil_iff.2 fun s hs => by simp [name_of_mem_signatureOf hs, Ne.symm hname]
  constructor
  · rw [List.cons_append, List.filter_cons_of_pos (by simp [hrule]), List.filter_append, hsignature,
      hnone _ (by decide) (by decide), if_neg (by decide)]
    rfl
  · rw [List.cons_append, List.filter_cons_of_neg (by rw [hrule]; decide), List.filter_append,
      hsignature, hnone _ (by decide) (by decide), if_pos rfl, List.append_nil]

/-- The required parameters are those listed in the order, as often as it lists them, then the
others by name. -/
theorem exists_requiredParameters (hm : TabledSchemas m.parameters) :
    ∃ others, m.requiredParameters = m.parameterOrder.filter m.requires ++ others ∧
      others.Pairwise (· < ·) ∧
      ∀ n, n ∈ others ↔ m.requires n = true ∧ n ∉ m.parameterOrder := by
  refine ⟨_, rfl, (List.pairwise_map.2 hm.sorted).filter _, fun n => ?_⟩
  rw [List.mem_filter]
  have hhas : m.requires n = true → n ∈ m.parameters.names := fun h => by
    obtain ⟨s, hs, -⟩ := (Option.any_eq_true _ _).1 h
    exact Table.has_iff.1 (Table.has_of_get? hs)
  change n ∈ m.parameters.names ∧
    (m.requires n && !(m.parameterOrder.filter m.requires).contains n) = true ↔ _
  rw [Bool.and_eq_true, Bool.not_eq_true', ← Bool.not_eq_true, List.contains_iff_mem,
    List.mem_filter]
  tauto

/-! ## Agreement -/

/-- A request, an rpc and a method agree on the names of the fields for the parameters, for the body
and for the required parameters. -/
structure Agreement (m : Method) (request : Message) (r : Rpc) (names : List String)
    (body? : Option String) (required : List String) : Prop where
  name : r.name = rpcName m
  input : r.input = requestName m
  parameters : m.parameters.names.mapM fieldName = .ok names
  body : bodyName? m = .ok body?
  /-- The request has a field for each parameter and one for the body, and no others. -/
  fields : (request.fields.map (·.name)).Perm (names ++ body?.toList)
  /-- The one http rule takes the body for the body. -/
  http : ∃ rule, r.settingsNamed Setting.http = [rule] ∧
    rule.property? "body" = body?.map .string
  order : ∃ others, others.Pairwise (· < ·) ∧
    (∀ n, n ∈ others ↔ m.requires n = true ∧ n ∉ m.parameterOrder) ∧
    (m.parameterOrder.filter m.requires ++ others).mapM fieldName = .ok required
  signature : r.settingsNamed Setting.methodSignature = signatureOf (required ++ body?.toList)

/-- What is made of a method agrees with it, and still does with options about operations. -/
theorem RpcMade.exists_agreement {r : Rpc} (h : RpcMade opts d m w r w')
    (hm : TabledSchemas m.parameters) (hfinal : Grows w' final) {settings : List Setting}
    (hsettings : ∀ s ∈ settings, IsOperationSetting s) :
    ∃ request, (finalMessages [] final).get? r.input = some request ∧
      ∃ names body? required,
        Agreement m request { r with settings := r.settings ++ settings } names body? required := by
  obtain @⟨_, request, full, body?, kept, w₁, w₂, w₃, _, rule, signatures, hname, hinput, hrequest,
    hbody, hkept, houtput, hhttp, hsignature, hown, hmessages⟩ := h
  obtain ⟨hbody, hfull, bodies, hperm, hbodies⟩ := addBody_eq_ok hbody
  have hfilled := filled_of_addProperties _ _ _ _ _ hrequest
  have hfullname : full.name = requestName m := hfull.trans hfilled.name
  obtain rfl := kept_of_addMessage hkept (by rw [hfullname]; exact requestName_ne m)
  obtain ⟨fs, hfs, hfsperm⟩ := hfilled.exists_fieldsFor (Grows.refl w) (Grows.refl _)
  rw [List.append_nil] at hfsperm
  obtain ⟨settled, hget, hnames⟩ := names_of_settled hkept
    (((grows_of_outputOf houtput).trans (.of_eq hmessages)).trans hfinal)
  obtain ⟨required, hrequired, rfl⟩ := signature_eq_ok hsignature
  obtain ⟨others, hothers, hsorted, hmem⟩ := exists_requiredParameters hm
  obtain ⟨hrule, hproperty⟩ := httpRule_eq_ok hhttp
  have hnamed := settings_named hrule (required ++ body?.toList) hsettings
  refine ⟨settled, by rw [hinput, ← hfullname, hget], fs.map (·.name), _, required, {
    name := hname
    input := hinput
    parameters := map_key hm ▸ hfs.mapM_fieldName
    body := hbody
    fields := ?_
    http := ⟨rule, ?_, hproperty⟩
    order := ⟨others, hsorted, hmem, hothers ▸ hrequired⟩
    signature := ?_ }⟩
  · rw [← hbodies, ← List.map_append]
    exact hnames.trans ((hperm.trans (hfsperm.append_right bodies)).map _)
  · rw [Rpc.settingsNamed, hown]
    exact hnamed.1
  · rw [Rpc.settingsNamed, hown]
    exact hnamed.2

/-! ## Templates -/

/-- The http rule of an rpc has a text for its template. -/
def HasTemplate (r : Rpc) (text : String) : Prop :=
  ∃ rule verb, r.settingsNamed Setting.http = [rule] ∧ verb ≠ "body" ∧
    rule.property? verb = some (.string text)

theorem RpcMade.exists_template {opts : Options} {d : Document} {w w' : Workspace} {r : Rpc}
    (h : RpcMade opts d m w r w') {settings : List Setting}
    (hsettings : ∀ s ∈ settings, IsOperationSetting s) :
    ∃ text, HasTemplate { r with settings := r.settings ++ settings } text ∧
      Template.withFieldNames s!"/{d.servicePath}{m.flatPath}" = .ok text := by
  obtain @⟨_, _, _, body?, _, _, _, _, _, rule, _, -, -, -, -, -, -, hhttp, hsignature, hown, -⟩ :=
    h
  obtain ⟨required, -, rfl⟩ := signature_eq_ok hsignature
  obtain ⟨verb, text, hverb, htext, hrule⟩ := exists_of_httpRule hhttp
  refine ⟨text, ⟨rule, verb, ?_, hverb, ?_⟩, htext⟩
  · rw [Rpc.settingsNamed, hown]
    exact (settings_named (httpRule_eq_ok hhttp).1 (required ++ body?.toList) hsettings).1
  · rw [hrule]
    simp [Setting.property?, Setting.group]

end Conversion

/-! ## Runs -/

/-- Every rpc of a run without an earlier file and without messages to be left out comes from a
method with which it and its request agree, and its template is made of the path of this method. -/
theorem exists_method_of_convert {input : Input} {o : Output} (h : (convert input).1 = .ok o)
    (hproto : input.proto? = none) (hignored : input.options.ignoredMessages = []) :
    ∃ d, Document.ofText input.document = .ok d ∧
      ∀ s ∈ o.file.services.values, ∀ r ∈ s.rpcs.values,
        ∃ resource ∈ d.resources, serviceName resource.1 = .ok s.name ∧ ∃ m ∈ resource.2,
          ∃ request text, o.file.messages.get? r.input = some request ∧
            (∃ names body? required, Conversion.Agreement m request r names body? required) ∧
            Conversion.HasTemplate r text ∧
            Conversion.Template.withFieldNames s!"/{d.servicePath}{m.flatPath}" = .ok text := by
  obtain ⟨d, registry, services, final, hd, -, -, hbuilt, -, hmessages, hservices⟩ :=
    exists_built_of_convert h hproto
  have hnames : input.options.ignoredNames = [] := by
    rw [Options.ignoredNames, hignored]
    rfl
  refine ⟨d, hd, fun s hs r hr => ?_⟩
  obtain ⟨resource, hresource, hname, m, hm, r₀, settings, ⟨w₁, w₂, -, hrpc, hfinal⟩, hsettings,
    rfl⟩ := hbuilt.exists_method _ (hservices ▸ hs) hr
  have hmade := Conversion.rpcMade_of_rpcOf hrpc
  obtain ⟨request, hget, hagreement⟩ := hmade.exists_agreement
    ((Document.tabled_of_ofText hd).parameters resource hresource m hm) hfinal hsettings
  obtain ⟨text, htemplate, htext⟩ := hmade.exists_template hsettings
  refine ⟨resource, hresource, hname, m, hm, request, text, ?_, hagreement, htemplate, htext⟩
  rw [hmessages, hnames]
  exact hget

/-- Every rpc of a run without an earlier file and without messages to be left out comes from a
method with which it and its request agree. -/
theorem requests_of_convert {input : Input} {o : Output} (h : (convert input).1 = .ok o)
    (hproto : input.proto? = none) (hignored : input.options.ignoredMessages = []) :
    ∃ d, Document.ofText input.document = .ok d ∧
      ∀ s ∈ o.file.services.values, ∀ r ∈ s.rpcs.values,
        ∃ resource ∈ d.resources, serviceName resource.1 = .ok s.name ∧ ∃ m ∈ resource.2,
          ∃ request, o.file.messages.get? r.input = some request ∧
            ∃ names body? required, Conversion.Agreement m request r names body? required := by
  obtain ⟨d, hd, hrpcs⟩ := exists_method_of_convert h hproto hignored
  refine ⟨d, hd, fun s hs r hr => ?_⟩
  obtain ⟨resource, hresource, hname, m, hm, request, _, hrequest, hagreement, -⟩ := hrpcs s hs r hr
  exact ⟨resource, hresource, hname, m, hm, request, hrequest, hagreement⟩

/-- The text of a document with schemas and resources. -/
def lakesApi (schemas resources : List (String × Json)) : String :=
  Json.compact (.object
    [("name", .string "lakes"), ("version", .string "v1"), ("schemas", .object schemas),
      ("resources", .object resources)])

/-- A resource with a method. -/
def methodResource (key : String) (attributes : List (String × Json)) : Json :=
  .object [("methods", .object [(key, .object attributes)])]

/-- A document in which lakes can be inserted. -/
def insertedLakes : String :=
  lakesApi [("Lake", .object [("type", .string "object")])]
    [("lakes", methodResource "insert"
      [("path", .string "lakes"),
        ("parameters", .object [("dryRun", .object [("type", .string "boolean")])]),
        ("request", .object [("$ref", .string "Lake")])])]

theorem requests_of_convert_insertedLakes :
    ∃ o, (convert { document := insertedLakes }).1 = .ok o ∧
      o.file.services.any (·.2.rpcs.has "Insert") = true ∧
      ∃ d, Document.ofText insertedLakes = .ok d ∧
        ∀ s ∈ o.file.services.values, ∀ r ∈ s.rpcs.values,
          ∃ resource ∈ d.resources, serviceName resource.1 = .ok s.name ∧ ∃ m ∈ resource.2,
            ∃ request, o.file.messages.get? r.input = some request ∧
              ∃ names body? required, Conversion.Agreement m request r names body? required := by
  have hspells : Json.Spells insertedLakes _ := Json.spells_compact (by
    simp [Json.Printable, Json.PrintableMembers, methodResource])
  obtain ⟨o, ho, hinsert⟩ : ∃ o, (convert { document := insertedLakes }).1 = .ok o ∧
      o.file.services.any (·.2.rpcs.has "Insert") = true :=
    exists_eq_ok_of_eq (convert_of_spells hspells) (by decide +kernel)
  have hrequests := requests_of_convert ho rfl rfl
  exact ⟨o, ho, hinsert, hrequests⟩

end DiscoveryGrpc
