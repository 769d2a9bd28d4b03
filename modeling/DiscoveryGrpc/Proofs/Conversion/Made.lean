import DiscoveryGrpc.Proofs.Conversion.Course
import DiscoveryGrpc.Proofs.Proto.Parsed

/-!
# What a conversion makes

A conversion that succeeds has gone through its document in order. Here this is said for each part
of a document: which message `addSchema` makes of a schema at the top level, which messages and rpc
`rpcOf` makes of a method (`RpcMade`), and which services are made of the resources. `Built` puts it
together: between the first and the last workspace a message was made of every schema to be
converted, an rpc of every method to be kept, and the services are those of the resources that have
such methods.

`Nested` are the objects of a document that messages are made of where they stand, and
`Built.exists_gives` says that one is made of each of them, however deep it is nested.
-/

namespace DiscoveryGrpc

open Proto Api

/-- The upper camel name of an identifier. -/
def Name.camelOf (identifier : String) : String := (Name.ofIdentifier identifier).upperCamel

namespace Options

/-- Whether a message is made of a schema at the top level. -/
def converts (o : Options) (e : String × Schema) : Bool :=
  !o.ignoredMessages.contains e.1 && e.2.isObject

/-- Whether the resource with a key is not left out. -/
def serves (o : Options) (key : String) : Bool :=
  !(o.ignoredServices.contains key || o.ignoredServices.contains (Name.camelOf key))

/-- Whether a method uses no message to be left out. -/
def keeps (o : Options) (m : Method) : Bool :=
  (Conversion.ignoredReference? o.ignoredNames m).isNone

/-- Whether a service is made of a resource: neither it nor all its methods are left out. -/
def isServed (o : Options) (resource : String × List Method) : Bool :=
  o.serves resource.1 && resource.2.any o.keeps

end Options

namespace Conversion

variable {opts : Options} {d : Document} {w w' start final : Workspace} {α : Type}

/-- Somewhere between two workspaces a computation has a result. -/
def During (start final : Workspace) (x : Build α) (a : α) : Prop :=
  ∃ w w', Grows start w ∧ x w = .ok a w' ∧ Grows w' final

theorem During.mono {start' final' : Workspace} {x : Build α} {a : α} (h : During start final x a)
    (hstart : Grows start' start) (hfinal : Grows final final') : During start' final' x a :=
  have ⟨w, w', hw, hx, hw'⟩ := h
  ⟨w, w', hstart.trans hw, hx, hw'.trans hfinal⟩

theorem admitsMethod_any (m : Method) : Naming.any.AdmitsMethod m where
  parameters := Schema.AllTable.intro admits_any m.parameters
  rpc _ _ := ⟨trivial, fun _ _ => trivial⟩
  body _ _ _ _ _ _ := trivial

/-! ## Schemas at the top level -/

theorem addSchema_eq_ok {e : String × Schema} {u : Unit} (h : addSchema opts e w = .ok u w') :
    (opts.converts e = false ∧ w'.messages = w.messages) ∨
      opts.converts e = true ∧ ∃ name kept m w₁, messageName e.2.identifier = .ok name ∧
        messageOf opts e.2 name w = .ok m w₁ ∧ addMessage m w₁ = .ok kept w' := by
  obtain ⟨key, s⟩ := e
  have hnote : ∀ {event : Event}, note event w = .ok u w' → w'.messages = w.messages := by
    intro event h
    cases h
    rfl
  unfold addSchema at h
  dsimp only at h
  split at h
  · rename_i hignored
    exact .inl ⟨by simpa [Options.converts] using fun hn => absurd hignored (by simpa using hn),
      hnote h⟩
  · rename_i hignored
    split at h
    · rename_i hobject
      exact .inl ⟨by simpa [Options.converts] using fun _ => by simpa using hobject, hnote h⟩
    · rename_i hobject
      obtain ⟨name, hname, h⟩ := lift_bind_eq_ok_iff.1 h
      obtain ⟨m, w₁, hmake, h⟩ := bind_eq_ok_iff.1 h
      obtain ⟨kept, w₂, hkept, h⟩ := bind_eq_ok_iff.1 h
      obtain ⟨-, rfl⟩ := pure_eq_ok_iff.1 h
      refine .inr ⟨?_, name, kept, m, w₁, hname, hmake, hkept⟩
      simp_all [Options.converts]

theorem grows_of_addSchema {e : String × Schema} {u : Unit} (h : addSchema opts e w = .ok u w') :
    Grows w w' := by
  rcases addSchema_eq_ok h with ⟨-, hw⟩ | ⟨-, name, kept, m, w₁, -, hmake, hkept⟩
  · exact .of_eq hw
  · exact (filled_of_messageOf hmake).grows.trans (grows_of_addMessage hkept)

/-- Of every schema to be converted a message is made under the name of its identifier. -/
theorem makes_of_schemas {es : List (String × Schema)} {u : Unit}
    (h : es.forM (addSchema opts) w = .ok u w') :
    Grows w w' ∧ ∀ e ∈ es, opts.converts e = true →
      ∃ name r kept, messageName e.2.identifier = .ok name ∧
        Makes opts w w' r e.2 name kept := by
  induction es generalizing w with
  | nil =>
    obtain ⟨-, rfl⟩ := pure_eq_ok_iff.1 h
    exact ⟨.refl _, by simp⟩
  | cons e es ih =>
    obtain ⟨_, w₁, he, hes⟩ := bind_eq_ok_iff.1 h
    obtain ⟨hgrows, ih⟩ := ih hes
    have hw := grows_of_addSchema he
    refine ⟨hw.trans hgrows, fun e' he' hconverts => ?_⟩
    rcases List.mem_cons.1 he' with rfl | he'
    · rcases addSchema_eq_ok he with ⟨hnot, -⟩ | ⟨-, name, kept, m, w₂, hname, hmake, hkept⟩
      · rw [hconverts] at hnot
        cases hnot
      · exact ⟨name, _, kept, hname, w, m, w₂, w₁, .refl w, rfl, hmake, hkept, hgrows⟩
    · obtain ⟨name, r, kept, hname, w₂, m, w₃, w₄, hstart, hr, hmake, hkept, hfinal⟩ :=
        ih e' he' hconverts
      exact ⟨name, r, kept, hname, w₂, m, w₃, w₄, hw.trans hstart, hr, hmake, hkept, hfinal⟩

/-! ## Methods -/

/-- The name that the request and the response of a method have in common. -/
def rpcBase (m : Method) : Name :=
  (Name.ofIdentifier m.verb).append (Name.ofIdentifier (collectionName m))

/-- The name of the rpc for a method. -/
def rpcName (m : Method) : String := Name.camelOf m.verb

/-- The name of the request of a method. -/
def requestName (m : Method) : String := ((rpcBase m).append (.ofWord "request")).upperCamel

/-- The name of the response that is made for a method without one. -/
def responseName (m : Method) : String := ((rpcBase m).append (.ofWord "response")).upperCamel

theorem upperCamel_append (a b : Name) :
    (a.append b).upperCamel.toList = a.upperCamel.toList ++ b.upperCamel.toList := by
  simp [Name.upperCamel, Name.append]

/-- A request is never passed through: its name does not end like that of `Errors`. -/
theorem requestName_ne (m : Method) : requestName m ≠ "Errors" := by
  intro h
  have hlast : (requestName m).toList.getLast? = some 't' := by
    rw [requestName, upperCamel_append]
    have hword : (Name.ofWord "request").upperCamel.toList = "Request".toList := by decide
    rw [hword, List.getLast?_append]
    rfl
  rw [h] at hlast
  exact absurd hlast (by decide)

theorem kept_of_addMessage {full : Message} {kept : Bool} (h : addMessage full w = .ok kept w')
    (hname : full.name ≠ "Errors") : kept = true := by
  rcases addMessage_eq_ok h with ⟨hkept, -⟩ | ⟨_, -, hkept, -⟩ | ⟨_, -, -, -, herrors, -⟩
  · exact hkept
  · exact hkept
  · have herrors := (Bool.and_eq_true_iff.1 herrors).1
    exact absurd (by simpa using herrors) hname

/-- The name of the field for the body of a method, if it has one. -/
def bodyName? (m : Method) : Except Fault (Option String) :=
  m.request.mapM fun s => (bodyField s).map (·.name)

/-- The field for the body is added to those for the parameters. -/
theorem addBody_eq_ok {m : Method} {request full : Message} {body? : Option String}
    (h : addBody request m.request = .ok (full, body?)) :
    bodyName? m = .ok body? ∧ full.name = request.name ∧ ∃ bodies : List Field,
      full.fields.Perm (request.fields ++ bodies) ∧ bodies.map (·.name) = body?.toList := by
  rw [bodyName?]
  cases hrequest : m.request with
  | none =>
    rw [hrequest] at h
    obtain ⟨rfl, rfl⟩ := Prod.mk.inj (Except.ok.inj h)
    exact ⟨rfl, rfl, [], by simp, rfl⟩
  | some s =>
    rw [hrequest] at h
    obtain ⟨f, hf, h⟩ := Except.bind_eq_ok_iff.1 h
    obtain ⟨m', hadd, h⟩ := Except.bind_eq_ok_iff.1 h
    obtain ⟨rfl, rfl⟩ := Prod.mk.inj (Except.ok.inj h)
    have hadd := eq_ok_addUniqueField hadd
    refine ⟨?_, name_of_addField? hadd, [f], ?_, rfl⟩
    · rw [Option.mapM_some, hf]
      rfl
    · rw [(Message.of_addField? hadd).2]
      exact (Field.insert_perm f request.fields).trans (List.perm_append_singleton _ _).symm

/-- What making an rpc of a method comes to: the request is filled with a field for each parameter
and one for the body, and then added like the response. -/
inductive RpcMade (opts : Options) (d : Document) (m : Method) (w : Workspace) (r : Rpc)
    (w' : Workspace) : Prop
  | intro {description : String} {request full : Message} {body? : Option String} {kept : Bool}
      {w₁ w₂ w₃ : Workspace} {emptyDescription : String} {http : Setting}
      {signatures : List Setting}
      (hname : r.name = rpcName m) (hinput : r.input = requestName m)
      (hrequest : addProperties opts m.parameters { name := requestName m, description } w
        = .ok request w₁)
      (hbody : addBody request m.request = .ok (full, body?))
      (hkept : addMessage full w₁ = .ok kept w₂)
      (houtput : outputOf (responseName m) emptyDescription m.response w₂ = .ok r.output w₃)
      (hhttp : httpRule d.servicePath m body? = .ok http)
      (hsignature : signature m body? = .ok signatures)
      (hsettings : r.settings = http :: signatures)
      (hmessages : w'.messages = w₃.messages) : RpcMade opts d m w r w'

theorem mapM_lift_eq_ok {β : Type} {f : α → Except Fault β} {xs : List α} {ys : List β}
    (h : xs.mapM (fun x => (liftM (f x) : Build β)) w = .ok ys w') : w' = w := by
  induction xs generalizing ys with
  | nil => exact (pure_eq_ok_iff.1 h).2.symm
  | cons x xs ih =>
    rw [List.mapM_cons] at h
    obtain ⟨y, -, h⟩ := lift_bind_eq_ok_iff.1 h
    obtain ⟨ys', w₁, hxs, h⟩ := bind_eq_ok_iff.1 h
    obtain ⟨-, rfl⟩ := pure_eq_ok_iff.1 h
    exact ih hxs

theorem messages_addResource {document flatPath : String} {u : Unit}
    (h : addResource document flatPath w = .ok u w') : w'.messages = w.messages := by
  unfold addResource at h
  cases hpattern : Template.firstPattern? flatPath.toList with
  | none =>
    simp only [hpattern] at h
    rw [(pure_eq_ok_iff.1 h).2]
  | some pattern =>
    cases hcollections : Template.collections? (Text.splitBy (· == '/') pattern) with
    | none =>
      simp only [hpattern, hcollections] at h
      cases h
      rfl
    | some collections =>
      simp only [hpattern, hcollections] at h
      obtain ⟨patterns, w₁, hpatterns, h⟩ := bind_eq_ok_iff.1 h
      rw [mapM_lift_eq_ok hpatterns] at h
      obtain ⟨type, -, h⟩ := lift_bind_eq_ok_iff.1 h
      rw [get_bind_apply] at h
      split at h
      · rw [(pure_eq_ok_iff.1 h).2]
      · cases h
        rfl

theorem rpcMade_of_rpcOf {service : String} {m : Method} {r : Rpc}
    (h : rpcOf opts d service m w = .ok r w') : RpcMade opts d m w r w' := by
  obtain ⟨verb, hverb, h⟩ := lift_bind_eq_ok_iff.1 h
  obtain ⟨collection, hcollection, h⟩ := lift_bind_eq_ok_iff.1 h
  obtain ⟨rfl, -⟩ := Name.eq_ofIdentifier hverb
  obtain ⟨rfl, -⟩ := Name.eq_ofIdentifier hcollection
  obtain ⟨request, w₁, hrequest, h⟩ := bind_eq_ok_iff.1 h
  obtain ⟨⟨full, body?⟩, hbody, h⟩ := lift_bind_eq_ok_iff.1 h
  obtain ⟨kept, w₂, hkept, h⟩ := bind_eq_ok_iff.1 h
  obtain ⟨output, w₃, houtput, h⟩ := bind_eq_ok_iff.1 h
  obtain ⟨http, hhttp, h⟩ := lift_bind_eq_ok_iff.1 h
  obtain ⟨signatures, hsignature, h⟩ := lift_bind_eq_ok_iff.1 h
  split at h
  · obtain ⟨_, w₄, hresource, h⟩ := bind_eq_ok_iff.1 h
    obtain ⟨rfl, rfl⟩ := pure_eq_ok_iff.1 h
    exact .intro rfl rfl hrequest hbody hkept houtput hhttp hsignature rfl
      (messages_addResource hresource)
  · obtain ⟨rfl, rfl⟩ := pure_eq_ok_iff.1 h
    exact .intro rfl rfl hrequest hbody hkept houtput hhttp hsignature rfl rfl

theorem grows_of_outputOf {emptyName description output : String} {response : Option Schema}
    (h : outputOf emptyName description response w = .ok output w') : Grows w w' := by
  cases response with
  | none =>
    obtain ⟨kept, w₁, hkept, h⟩ := bind_eq_ok_iff.1 h
    obtain ⟨-, rfl⟩ := pure_eq_ok_iff.1 h
    exact grows_of_addMessage hkept
  | some s => exact .of_eq (congrArg Workspace.messages (lift_eq_ok_iff.1 h).2.symm)

/-- The request of an rpc is filled and added. -/
theorem RpcMade.exists_request {m : Method} {r : Rpc} (h : RpcMade opts d m w r w') :
    ∃ description request w₁ full body? kept w₂,
      addProperties opts m.parameters { name := requestName m, description } w = .ok request w₁ ∧
      addBody request m.request = .ok (full, body?) ∧ addMessage full w₁ = .ok kept w₂ ∧
      Grows w₂ w' := by
  obtain ⟨-, -, hrequest, hbody, hkept, houtput, -, -, -, hmessages⟩ := h
  exact ⟨_, _, _, _, _, _, _, hrequest, hbody, hkept,
    (grows_of_outputOf houtput).trans (.of_eq hmessages)⟩

theorem grows_of_rpcOf {service : String} {m : Method} {r : Rpc}
    (h : rpcOf opts d service m w = .ok r w') : Grows w w' :=
  ((leads_rpcOf (admitsMethod_any m)).of_ok h).1.grows

/-! ## Services -/

theorem eq_camelOf {key name : String} (h : serviceName key = .ok name) :
    name = Name.camelOf key := by
  obtain ⟨n, hn, h⟩ := Except.bind_eq_ok_iff.1 h
  rw [← Except.ok.inj h, (Name.eq_ofIdentifier hn).1]
  rfl

/-- Rpcs by name, put into a table one after another. -/
def rpcEntries (rs : List Rpc) : List (String × Rpc) := rs.map fun r => (r.name, r)

theorem addMethod_eq_ok {service : String} {m : Method} {draft draft' : Draft}
    (h : addMethod opts d service draft m w = .ok draft' w') :
    (opts.keeps m = false ∧ w'.messages = w.messages ∧ draft'.rpcs = draft.rpcs) ∨
      opts.keeps m = true ∧ ∃ r, rpcOf opts d service m w = .ok r w' ∧
        draft'.rpcs = draft.rpcs.insert r.name r := by
  unfold addMethod at h
  cases hignored : ignoredReference? opts.ignoredNames m with
  | some message =>
    simp only [hignored] at h
    obtain ⟨_, w₁, hnote, h⟩ := bind_eq_ok_iff.1 h
    obtain ⟨rfl, rfl⟩ := pure_eq_ok_iff.1 h
    cases hnote
    exact .inl ⟨by simp [Options.keeps, hignored], rfl, rfl⟩
  | none =>
    simp only [hignored] at h
    obtain ⟨r, w₁, hr, h⟩ := bind_eq_ok_iff.1 h
    obtain ⟨rfl, rfl⟩ := pure_eq_ok_iff.1 h
    exact .inr ⟨by simp [Options.keeps, hignored], r, hr, rfl⟩

/-- Of the methods to be kept rpcs are made, which go into a table by name. -/
theorem rpcs_of_methods {service : String} {ms : List Method} {draft draft' : Draft}
    (h : ms.foldlM (addMethod opts d service) draft w = .ok draft' w') :
    Grows w w' ∧ ∃ rs, List.Forall₂ (fun m r => During w w' (rpcOf opts d service m) r)
        (ms.filter opts.keeps) rs ∧
      draft'.rpcs = (rpcEntries rs).foldl (fun t e => t.insert e.1 e.2) draft.rpcs := by
  induction ms generalizing draft w with
  | nil =>
    obtain ⟨rfl, rfl⟩ := pure_eq_ok_iff.1 h
    exact ⟨.refl _, [], .nil, rfl⟩
  | cons m ms ih =>
    rw [List.foldlM_cons] at h
    obtain ⟨draft₁, w₁, hm, hms⟩ := bind_eq_ok_iff.1 h
    obtain ⟨hgrows, rs, hrs, hrpcs⟩ := ih hms
    rcases addMethod_eq_ok hm with ⟨hkeeps, hw, hsame⟩ | ⟨hkeeps, r, hr, hinsert⟩
    · have hw : Grows w w₁ := .of_eq hw
      refine ⟨hw.trans hgrows, rs, ?_, by rw [hrpcs, hsame]⟩
      rw [List.filter_cons_of_neg (by simp [hkeeps])]
      exact hrs.imp fun _ _ hr => hr.mono hw (.refl _)
    · have hw := grows_of_rpcOf hr
      refine ⟨hw.trans hgrows, r :: rs, ?_, by rw [hrpcs, hinsert]; rfl⟩
      rw [List.filter_cons_of_pos hkeeps]
      exact .cons ⟨w, w₁, .refl w, hr, hgrows⟩ (hrs.imp fun _ _ hr => hr.mono hw (.refl _))

/-- The service for a resource has an rpc of each of its methods to be kept. -/
structure ServiceMade (opts : Options) (d : Document) (start final : Workspace)
    (resource : String × List Method) (s : Service) : Prop where
  name : serviceName resource.1 = .ok s.name
  rpcs : ∃ rs, List.Forall₂ (fun m r => During start final (rpcOf opts d s.name m) r)
      (resource.2.filter opts.keeps) rs ∧
    s.rpcs = Table.ofList (rpcEntries rs)

theorem ServiceMade.mono {start' final' : Workspace} {resource : String × List Method} {s : Service}
    (h : ServiceMade opts d start final resource s) (hstart : Grows start' start)
    (hfinal : Grows final final') : ServiceMade opts d start' final' resource s where
  name := h.name
  rpcs :=
    have ⟨rs, hrs, hrpcs⟩ := h.rpcs
    ⟨rs, hrs.imp fun _ _ hr => hr.mono hstart hfinal, hrpcs⟩

theorem isEmpty_ofList {β : Type} (entries : List (String × β)) :
    (Table.ofList entries).isEmpty = entries.isEmpty := by
  cases entries with
  | nil => rfl
  | cons e es =>
    have hhas := Table.has_ofList (e :: es) e.1
    cases ht : Table.ofList (e :: es) with
    | nil =>
      rw [ht] at hhas
      simp [Table.has] at hhas
    | cons => rfl

/-- A resource is left out, or its methods are gone through for a service. -/
theorem addService_eq_ok {services services' : Table Service} {resource : String × List Method}
    (h : addService opts d services resource w = .ok services' w') :
    (opts.serves resource.1 = false ∧ services' = services ∧ w'.messages = w.messages) ∨
      opts.serves resource.1 = true ∧ ∃ name draft settings, serviceName resource.1 = .ok name ∧
        resource.2.foldlM (addMethod opts d name) {} w = .ok draft w' ∧
        services' = if draft.rpcs.isEmpty then services
          else services.insert name { name, settings, rpcs := draft.rpcs } := by
  obtain ⟨key, methods⟩ := resource
  obtain ⟨name, hname, h⟩ := lift_bind_eq_ok_iff.1 h
  split at h
  · rename_i hignored
    obtain ⟨_, w₁, hnote, h⟩ := bind_eq_ok_iff.1 h
    obtain ⟨rfl, rfl⟩ := pure_eq_ok_iff.1 h
    cases hnote
    refine .inl ⟨?_, rfl, rfl⟩
    rw [Options.serves, ← eq_camelOf hname, hignored]
    rfl
  · rename_i hserved
    obtain ⟨version, -, h⟩ := lift_bind_eq_ok_iff.1 h
    obtain ⟨draft, w₁, hdraft, h⟩ := bind_eq_ok_iff.1 h
    have hserves : opts.serves key = true := by
      rw [Options.serves, ← eq_camelOf hname]
      simpa using hserved
    refine .inr
      ⟨hserves, name, draft, serviceSettings d.defaultHost draft.scopes version, hname, ?_⟩
    split at h
    · rename_i hnone
      obtain ⟨rfl, rfl⟩ := pure_eq_ok_iff.1 h
      exact ⟨hdraft, (if_pos hnone).symm⟩
    · rename_i hsome
      obtain ⟨hservices, rfl⟩ := pure_eq_ok_iff.1 h
      exact ⟨hdraft, hservices.symm.trans (if_neg hsome).symm⟩

/-- A service is made of a resource that is served, and goes into the table by name. -/
theorem serviceMade_of_addService {services services' : Table Service}
    {resource : String × List Method}
    (h : addService opts d services resource w = .ok services' w') :
    Grows w w' ∧ ((opts.isServed resource = false ∧ services' = services) ∨
      opts.isServed resource = true ∧ ∃ s, ServiceMade opts d w w' resource s ∧
        services' = services.insert s.name s) := by
  rcases addService_eq_ok h with ⟨hserves, hsame, hw⟩ |
    ⟨hserves, name, draft, settings, hname, hdraft, hservices⟩
  · exact ⟨.of_eq hw, .inl ⟨by rw [Options.isServed, hserves, Bool.false_and], hsame⟩⟩
  · obtain ⟨hgrows, rs, hrs, hrpcs⟩ := rpcs_of_methods hdraft
    have hempty : draft.rpcs.isEmpty = !opts.isServed resource := by
      have hlength : rs.isEmpty = (resource.2.filter opts.keeps).isEmpty := by
        rw [Bool.eq_iff_iff, List.isEmpty_iff_length_eq_zero, List.isEmpty_iff_length_eq_zero,
          hrs.length_eq]
      rw [Options.isServed, hserves, Bool.true_and, hrpcs]
      change (Table.ofList (rpcEntries rs)).isEmpty = _
      rw [isEmpty_ofList, rpcEntries, List.isEmpty_map, hlength, Bool.eq_iff_iff]
      simp
    refine ⟨hgrows, ?_⟩
    rw [hempty] at hservices
    cases hserved : opts.isServed resource with
    | false => exact .inl ⟨rfl, by simpa [hserved] using hservices⟩
    | true =>
      have hmade : ServiceMade opts d w w' resource ⟨name, "", settings, draft.rpcs⟩ :=
        ⟨hname, rs, hrs, hrpcs⟩
      exact .inr ⟨rfl, _, hmade, by simpa [hserved] using hservices⟩

/-- Services by name, put into a table one after another. -/
def serviceEntries (ss : List Service) : List (String × Service) := ss.map fun s => (s.name, s)

/-- Of the resources that are served services are made, which go into a table by name. -/
theorem services_of_resources {resources : List (String × List Method)}
    {services services' : Table Service}
    (h : resources.foldlM (addService opts d) services w = .ok services' w') :
    Grows w w' ∧ ∃ ss, List.Forall₂ (ServiceMade opts d w w') (resources.filter opts.isServed) ss ∧
      services' = (serviceEntries ss).foldl (fun t e => t.insert e.1 e.2) services := by
  induction resources generalizing services w with
  | nil =>
    obtain ⟨rfl, rfl⟩ := pure_eq_ok_iff.1 h
    exact ⟨.refl _, [], .nil, rfl⟩
  | cons resource resources ih =>
    rw [List.foldlM_cons] at h
    obtain ⟨services₁, w₁, hresource, hresources⟩ := bind_eq_ok_iff.1 h
    obtain ⟨hgrows, ss, hss, hservices⟩ := ih hresources
    obtain ⟨hw, ⟨hserved, rfl⟩ | ⟨hserved, s, hs, rfl⟩⟩ := serviceMade_of_addService hresource
    · refine ⟨hw.trans hgrows, ss, ?_, hservices⟩
      rw [List.filter_cons_of_neg (by simp [hserved])]
      exact hss.imp fun _ _ hs => hs.mono hw (.refl _)
    · refine ⟨hw.trans hgrows, s :: ss, ?_, hservices⟩
      rw [List.filter_cons_of_pos hserved]
      exact .cons (hs.mono (.refl _) hgrows) (hss.imp fun _ _ hs => hs.mono hw (.refl _))

/-! ## The whole document -/

/-- Between two workspaces a conversion has made what a document has, which are messages of schemas
and services of resources. -/
structure Built (opts : Options) (d : Document) (start : Workspace) (services : Table Service)
    (final : Workspace) : Prop where
  schemas : ∀ e ∈ d.schemas, opts.converts e = true → ∃ name r kept,
    messageName e.2.identifier = .ok name ∧ Makes opts start final r e.2 name kept
  resources : ∃ ss, List.Forall₂ (ServiceMade opts d start final)
      (d.resources.filter opts.isServed) ss ∧
    services = Table.ofList (serviceEntries ss)

theorem built_of_buildAll {services : Table Service}
    (h : buildAll opts d start = .ok services final) : Built opts d start services final := by
  obtain ⟨_, w, hschemas, hresources⟩ := bind_eq_ok_iff.1 h
  obtain ⟨hw, hschemas⟩ := makes_of_schemas hschemas
  obtain ⟨hfinal, ss, hss, hservices⟩ := services_of_resources hresources
  refine ⟨fun e he hconverts => ?_, ss, hss.imp fun _ _ hs => hs.mono hw (.refl _), hservices⟩
  obtain ⟨name, r, kept, hname, w₁, m, w₂, w₃, hstart, hr, hmake, hkept, hw₃⟩ :=
    hschemas e he hconverts
  exact ⟨name, r, kept, hname, w₁, m, w₂, w₃, hstart, hr, hmake, hkept, hw₃.trans hfinal⟩

/-- An option about long running operations. -/
def IsOperationSetting (s : Setting) : Prop :=
  s.name = Setting.operationPolling ∨ s.name = Setting.operationService

theorem isOperationSetting_of_mem {messages : Table Message} {operationServices : NameSet}
    {service : String} {r : Rpc} {s : Setting}
    (h : s ∈ operationSettings messages operationServices service r) : IsOperationSetting s := by
  unfold operationSettings at h
  dsimp only at h
  split at h
  · split at h
    · exact .inl (by rw [List.mem_singleton.1 h]; rfl)
    · cases h
  · split at h
    · split at h
      · exact .inr (by rw [List.mem_singleton.1 h]; rfl)
      · cases h
    · cases h

theorem mem_of_mem_values_ofList {β : Type} {name : β → String} {xs : List β} {x : β}
    (h : x ∈ (Table.ofList (xs.map fun x => (name x, x))).values) : x ∈ xs := by
  obtain ⟨e, he, rfl⟩ := List.mem_map.1 h
  obtain ⟨y, hy, rfl⟩ := List.mem_map.1 (Table.mem_ofList he)
  exact hy

/-- Every rpc was made of a method of a resource, up to options about operations. -/
theorem Built.exists_method {services : Table Service} (h : Built opts d start services final)
    (messages : Table Message) {s : Service} (hs : s ∈ (addOperations messages services).values)
    {r : Rpc} (hr : r ∈ s.rpcs.values) :
    ∃ resource ∈ d.resources, serviceName resource.1 = .ok s.name ∧
      ∃ m ∈ resource.2, ∃ r₀ settings, During start final (rpcOf opts d s.name m) r₀ ∧
        (∀ x ∈ settings, IsOperationSetting x) ∧
        r = { r₀ with settings := r₀.settings ++ settings } := by
  obtain ⟨ss, hss, rfl⟩ := h.resources
  rw [addOperations, Table.values_mapValues] at hs
  obtain ⟨s₀, hs₀, rfl⟩ := List.mem_map.1 hs
  rw [withOperations, Table.values_mapValues] at hr
  obtain ⟨r₀, hr₀, rfl⟩ := List.mem_map.1 hr
  obtain ⟨resource, hresource, hmade⟩ :=
    Resolution.exists_mem_of_forall₂ hss s₀ (mem_of_mem_values_ofList hs₀)
  obtain ⟨rs, hrs, hrpcs⟩ := hmade.rpcs
  rw [hrpcs] at hr₀
  obtain ⟨m, hm, hduring⟩ :=
    Resolution.exists_mem_of_forall₂ hrs r₀ (mem_of_mem_values_ofList hr₀)
  exact ⟨resource, (List.mem_filter.1 hresource).1, hmade.name, m, (List.mem_filter.1 hm).1, r₀, _,
    hduring, fun _ hx => isOperationSetting_of_mem hx, rfl⟩

/-- Nothing dangles in the messages of a workspace once references are resolved. -/
def NothingDangles (ignored : NameSet) (w : Workspace) : Prop :=
  ∀ m ∈ (resolvedMessages ignored w).values, danglingFields m = []

/-- What the file for a document is made of. -/
theorem built_of_fileOf {f : File} (h : fileOf opts d start = .ok f w') :
    ∃ services final, buildAll opts d start = .ok services final ∧
      Built opts d start services final ∧ NothingDangles opts.ignoredNames final ∧
      f.messages = finalMessages opts.ignoredNames final ∧
      f.services = addOperations f.messages services := by
  obtain ⟨services, final, hbuild, hdangling, -, -, rfl⟩ := fileOf_eq_ok h
  exact ⟨services, final, hbuild, built_of_buildAll hbuild, hdangling, rfl, rfl⟩

/-- The objects that messages are made of where they stand: those that are nested in a schema at the
top level, in another such object or in a parameter of a method. -/
inductive Nested (opts : Options) (d : Document) : Schema → Prop
  | schema {e p : String × Schema} {v : Schema} (he : e ∈ d.schemas)
      (hconverts : opts.converts e = true) (hp : p ∈ e.2.properties) (hv : p.2.value? = some v)
      (hnested : v.isNested = true) : Nested opts d v
  | object {s v : Schema} {p : String × Schema} (hs : Nested opts d s) (hp : p ∈ s.properties)
      (hv : p.2.value? = some v) (hnested : v.isNested = true) : Nested opts d v
  | parameter {resource : String × List Method} {m : Method} {p : String × Schema} {v : Schema}
      (hresource : resource ∈ d.resources) (hserves : opts.serves resource.1 = true)
      (hm : m ∈ resource.2) (hkeeps : opts.keeps m = true) (hp : p ∈ m.parameters)
      (hv : p.2.value? = some v) (hnested : v.isNested = true) : Nested opts d v

theorem Built.exists_rpcOf {services : Table Service} (h : Built opts d start services final)
    {resource : String × List Method} {m : Method} (hresource : resource ∈ d.resources)
    (hserves : opts.serves resource.1 = true) (hm : m ∈ resource.2)
    (hkeeps : opts.keeps m = true) :
    ∃ service r, During start final (rpcOf opts d service m) r := by
  obtain ⟨ss, hss, -⟩ := h.resources
  have hserved : opts.isServed resource = true :=
    Bool.and_eq_true_iff.2 ⟨hserves, List.any_eq_true.2 ⟨m, hm, hkeeps⟩⟩
  obtain ⟨s, -, hs⟩ :=
    Resolution.exists_mem_of_forall₂ hss.flip _ (List.mem_filter.2 ⟨hresource, hserved⟩)
  obtain ⟨rs, hrs, -⟩ := hs.rpcs
  obtain ⟨r, -, hr⟩ :=
    Resolution.exists_mem_of_forall₂ hrs.flip _ (List.mem_filter.2 ⟨hm, hkeeps⟩)
  exact ⟨s.name, r, hr⟩

/-- A message is made of every nested object, under a name given to it. -/
theorem Built.exists_gives {services : Table Service} (h : Built opts d start services final)
    {v : Schema} (hv : Nested opts d v) : ∃ name, Gives opts start final v name := by
  induction hv with
  | schema he hconverts hp hv hnested =>
    obtain ⟨name, r, kept, -, hmakes⟩ := h.schemas _ he hconverts
    exact hmakes.exists_gives hp hv hnested
  | object _ hp hv hnested ih =>
    obtain ⟨name, r, kept, -, hmakes⟩ := ih
    exact hmakes.exists_gives hp hv hnested
  | parameter hresource hserves hm hkeeps hp hv hnested =>
    obtain ⟨_, r, w, w', hstart, hr, hfinal⟩ := h.exists_rpcOf hresource hserves hm hkeeps
    obtain ⟨_, _, w₁, _, _, _, w₂, hrequest, -, hkept, hw₂⟩ := (rpcMade_of_rpcOf hr).exists_request
    exact (filled_of_addProperties _ _ _ _ _ hrequest).exists_gives hstart
      (((grows_of_addMessage hkept).trans hw₂).trans hfinal) hp hv hnested

end Conversion

end DiscoveryGrpc
