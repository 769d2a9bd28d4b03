import DiscoveryGrpc.Proofs.Conversion.Messages

/-!
# The steps that make services

One statement for each function that makes an rpc of a method, and a service of a resource: it
leads by steps to a result whose options are read back and whose names are allowed. That the
messages of an rpc are there is checked later.
-/

namespace DiscoveryGrpc

open Proto Api

/-- The names that a method gives are allowed: those of its parameters, of its rpc and of the
messages of the rpc, and that of the field for its body. -/
structure Naming.AdmitsMethod (N : Naming) (m : Method) : Prop where
  parameters : Schema.AllTable N.Admits m.parameters
  rpc : ∀ verb, Name.ofIdentifier? m.verb = .ok verb →
    N.type verb.upperCamel ∧ ∀ more : Name, more.Clean → N.type (verb.append more).upperCamel
  body : ∀ s ∈ m.request, ∀ type name, Conversion.bodyMessage s = .ok type →
    Name.ofIdentifier? type = .ok name →
    N.field (name.append (.ofWord "resource")).lowerUnderscore

/-- The names that a resource and its methods give are allowed. -/
structure Naming.AdmitsResource (N : Naming) (resource : String × List Method) : Prop where
  service : ∀ name, serviceName resource.1 = .ok name → N.type name
  methods : ∀ m ∈ resource.2, N.AdmitsMethod m

namespace Proto

/-- An rpc in the making, which may name some services. -/
structure Rpc.Drafted (N : Naming) (services : Table Service) (r : Rpc) : Prop where
  name : N.type r.name
  settings : ∀ s ∈ r.settings, s.Drafted services

/-- A service in the making, of which the rpcs may name some services. -/
structure Service.Drafted (N : Naming) (services : Table Service) (s : Service) : Prop where
  name : N.type s.name
  settings : ∀ x ∈ s.settings, x.Drafted []
  named : Table.Named Rpc.name s.rpcs
  rpcs : ∀ r ∈ s.rpcs.values, r.Drafted N services

end Proto

namespace Conversion

variable {N : Naming} {w w' : Workspace}

/-! ## Methods -/

variable {services : Table Service}

theorem drafted_string {name : String} (hname : Lexeme.isWord name = true)
    (hne : name ≠ Setting.operationService) (value : String) :
    (Setting.string name value).Drafted services :=
  Setting.drafted_of_ne ⟨hname, trivial⟩ hne

theorem drafted_group {name : String} (hname : Lexeme.isWord name = true)
    (hne : name ≠ Setting.operationService) {entries : List (String × SettingValue)}
    (h : ∀ e ∈ entries, Lexeme.isWord e.1 = true ∧ e.2.Writable) :
    (Setting.group name entries).Drafted services :=
  Setting.drafted_of_ne ⟨hname, h⟩ hne

theorem leads_addResource (document flatPath : String) :
    Leads N (addResource document flatPath) w fun _ _ => True := by
  unfold addResource
  split
  · split
    · exact leads_note _
    · rename_i collections _
      dsimp only
      refine Leads.bind (Leads.mapM fun c _ w' _ => Leads.lift fun _ _ => trivial)
        fun patterns w₁ _ _ => ?_
      refine Leads.bind (Leads.lift (Q := fun _ _ => True) fun _ _ => trivial)
        fun type w₂ _ _ => ?_
      refine Leads.get_bind ?_
      split
      · exact Leads.pure trivial
      · refine Leads.set (.addResource w₂ _ (drafted_group (by decide) (by decide) ?_)) trivial
        simp only [List.forall_mem_cons]
        exact ⟨⟨by decide, trivial⟩, ⟨by decide, trivial⟩, by simp⟩
  · exact Leads.pure trivial

theorem drafted_httpRule {servicePath : String} {m : Method} {body? : Option String}
    {s : Setting} (h : httpRule servicePath m body? = .ok s) : s.Drafted services := by
  have hwords : ∀ verb ∈ ["get", "put", "post", "delete", "patch"], Lexeme.isWord verb = true := by
    decide
  have hbody : Lexeme.isWord "body" = true := by decide
  unfold httpRule at h
  dsimp only at h
  split at h
  · rename_i hverb
    obtain ⟨template, -, h⟩ := Except.bind_eq_ok_iff.1 h
    obtain rfl := Except.ok.inj h
    refine drafted_group (by decide) (by decide) fun e he => ?_
    rcases List.mem_cons.1 he with rfl | he
    · exact ⟨hwords _ (List.contains_iff_mem.1 hverb), trivial⟩
    · cases body? with
      | none => simp at he
      | some body =>
        obtain rfl : e = ("body", .string body) := by simpa using he
        exact ⟨hbody, trivial⟩
  · cases h

theorem drafted_signature {m : Method} {body? : Option String} {ss : List Setting}
    (h : signature m body? = .ok ss) : ∀ s ∈ ss, s.Drafted services := by
  obtain ⟨names, -, h⟩ := Except.bind_eq_ok_iff.1 h
  split at h
  · obtain rfl := Except.ok.inj h
    simp
  · obtain rfl := Except.ok.inj h
    simpa using drafted_string (by decide) (by decide) _

theorem drafted_addBody {request m : Message} {s? : Option Schema} {body? : Option String}
    {known : Table Message} (hr : request.Drafted N known)
    (hN : ∀ s ∈ s?, ∀ type name, bodyMessage s = .ok type → Name.ofIdentifier? type = .ok name →
      N.field (name.append (.ofWord "resource")).lowerUnderscore)
    (h : addBody request s? = .ok (m, body?)) : m.Drafted N known ∧ m.name = request.name := by
  cases s? with
  | none =>
    obtain rfl := (Prod.mk.inj (Except.ok.inj h)).1
    exact ⟨hr, rfl⟩
  | some s =>
    obtain ⟨f, hf, h⟩ := Except.bind_eq_ok_iff.1 h
    obtain ⟨m', hadd, h⟩ := Except.bind_eq_ok_iff.1 h
    obtain rfl := (Prod.mk.inj (Except.ok.inj h)).1
    obtain ⟨type, htype, hf⟩ := Except.bind_eq_ok_iff.1 hf
    obtain ⟨name, hname, hf⟩ := Except.bind_eq_ok_iff.1 hf
    obtain rfl := Except.ok.inj hf
    have hadd := eq_ok_addUniqueField hadd
    refine ⟨hr.addField ?_ hadd, by rw [(Message.of_addField? hadd).2]⟩
    exact {
      name := hN s rfl type name htype hname
      type := trivial
      keyType := by simp
      map_repeated := by simp [Field.isMap]
      not_both := by simp
      not_first := rfl
      settings := by
        have hrequired : Setting.required.Drafted [] :=
          Setting.drafted_of_ne (by decide) (by decide)
        simpa using hrequired }

theorem leads_outputOf {emptyName : String} (hname : N.type emptyName) (description : String)
    (response : Option Schema) :
    Leads N (outputOf emptyName description response) w fun _ _ => True := by
  cases response with
  | none =>
    exact Leads.bind (leads_addMessage (.empty hname description)) fun _ _ _ _ => Leads.pure trivial
  | some s => exact Leads.lift fun _ _ => trivial

theorem clean_request : (Name.ofWord "request").Clean :=
  Name.clean_ofWord (by decide) (by decide)

theorem clean_response : (Name.ofWord "response").Clean :=
  Name.clean_ofWord (by decide) (by decide)

theorem leads_rpcOf {opts : Options} {document : Document} {service : String} {m : Method}
    (hN : N.AdmitsMethod m) :
    Leads N (rpcOf opts document service m) w fun r _ => r.Drafted N [] := by
  refine Leads.bind (Leads.lift (Q := fun verb _ => Name.ofIdentifier? m.verb = .ok verb)
    fun _ h => h) fun verb w₁ _ hverb => ?_
  refine Leads.bind (Leads.lift (Q := fun (name : Name) _ => name.Clean)
    fun _ h => Name.clean_of_ofIdentifier? h) fun collection w₂ _ hclean => ?_
  have hnames := hN.rpc verb hverb
  have happend : ∀ more : Name, more.Clean →
      N.type ((verb.append collection).append more).upperCamel := fun more hmore => by
    have := hnames.2 (collection.append more) (hclean.append hmore)
    simpa [Name.append] using this
  dsimp only
  refine Leads.bind (leads_addProperties opts m.parameters hN.parameters _ _ w₂
    (.empty (happend _ clean_request) _) rfl) fun request w₃ _ hrequest => ?_
  refine Leads.bind (Leads.lift (Q := fun r w => r.1.Drafted N w.messages) fun r hr =>
    (drafted_addBody hrequest.1 hN.body hr).1) fun r w₄ _ hr => ?_
  obtain ⟨request, body?⟩ := r
  refine Leads.bind (leads_addMessage hr) fun _ w₅ _ _ => ?_
  refine Leads.bind (leads_outputOf (happend _ clean_response) _ _) fun output w₆ _ _ => ?_
  refine Leads.bind (Leads.lift (Q := fun http _ => http.Drafted []) fun _ h => drafted_httpRule h)
    fun http w₇ _ hhttp => ?_
  refine Leads.bind (Leads.lift (Q := fun ss _ => ∀ s ∈ ss, s.Drafted [])
    fun _ h => drafted_signature h) fun signature w₈ _ hsignature => ?_
  have hrpc : ∀ r : Rpc, r.name = verb.upperCamel → r.settings = http :: signature →
      r.Drafted N [] := fun r hname hsettings =>
    ⟨hname ▸ hnames.1, hsettings ▸ List.forall_mem_cons.2 ⟨hhttp, hsignature⟩⟩
  split
  · exact Leads.bind (leads_addResource _ _) fun _ w₉ _ _ => Leads.pure (hrpc _ rfl rfl)
  · exact Leads.pure (hrpc _ rfl rfl)

/-! ## Services -/

/-- What a service has so far: rpcs in the making, each under its own name. -/
def RpcsDrafted (N : Naming) (rpcs : Table Rpc) : Prop :=
  rpcs.Named Rpc.name ∧ ∀ r ∈ rpcs.values, r.Drafted N []

theorem leads_addMethod {opts : Options} {document : Document} {service : String} {d : Draft}
    {m : Method} (hN : N.AdmitsMethod m)
    (hd : RpcsDrafted N d.rpcs) :
    Leads N (addMethod opts document service d m) w fun d _ => RpcsDrafted N d.rpcs := by
  unfold addMethod
  split
  · exact Leads.bind (leads_note _) fun _ _ _ _ => Leads.pure hd
  · refine Leads.bind (leads_rpcOf hN) fun r w₁ _ hr => Leads.pure ⟨hd.1.insert r, fun x hx => ?_⟩
    rcases Table.mem_values_insert hx with rfl | hx
    · exact hr
    · exact hd.2 x hx

theorem drafted_serviceSettings (host : String) (scopes : NameSet) (version : String) :
    ∀ s ∈ serviceSettings host scopes version, s.Drafted services := by
  have hunless : ∀ name value, Lexeme.isWord name = true → name ≠ Setting.operationService →
      ∀ s ∈ settingUnlessEmpty name value, s.Drafted services := by
    intro name value hname hne s hs
    unfold settingUnlessEmpty at hs
    split at hs
    · cases hs
    · exact List.mem_singleton.1 hs ▸ drafted_string hname hne value
  intro s hs
  rcases List.mem_append.1 hs with hs | hs
  · rcases List.mem_append.1 hs with hs | hs
    · exact hunless _ _ (by decide) (by decide) s hs
    · split at hs
      · cases hs
      · exact List.mem_singleton.1 hs ▸ drafted_string (by decide) (by decide) _
  · exact hunless _ _ (by decide) (by decide) s hs

/-- Services in the making, each under its own name. -/
def ServicesDrafted (N : Naming) (services : Table Service) : Prop :=
  services.Named Service.name ∧ ∀ s ∈ services.values, s.Drafted N []

theorem leads_addService {opts : Options} {document : Document} {services : Table Service}
    {resource : String × List Method} (hN : N.AdmitsResource resource)
    (hs : ServicesDrafted N services) :
    Leads N (addService opts document services resource) w fun services _ =>
      ServicesDrafted N services := by
  obtain ⟨key, methods⟩ := resource
  refine Leads.bind (Leads.lift (Q := fun name _ => N.type name) fun n hn => hN.service n hn)
    fun name w₁ _ hname => ?_
  split
  · exact Leads.bind (leads_note _) fun _ _ _ _ => Leads.pure hs
  · refine Leads.bind (Leads.lift (Q := fun _ _ => True) fun _ _ => trivial)
      fun version w₂ _ _ => ?_
    refine Leads.bind (Leads.foldlM (R := fun d _ => RpcsDrafted N d.rpcs)
      (fun m hm d w' _ hd => leads_addMethod (hN.methods m hm) hd) ⟨.nil _, by simp [Table.values]⟩)
      fun d w₃ _ hd => ?_
    split
    · exact Leads.pure hs
    · refine Leads.pure ⟨hs.1.insert ⟨name, "", _, d.rpcs⟩, fun s hmem => ?_⟩
      rcases Table.mem_values_insert hmem with rfl | hmem
      · exact ⟨hname, drafted_serviceSettings _ _ _, hd.1, hd.2⟩
      · exact hs.2 s hmem

end Conversion

end DiscoveryGrpc
