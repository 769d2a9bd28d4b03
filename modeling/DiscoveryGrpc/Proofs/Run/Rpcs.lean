import DiscoveryGrpc.Proofs.Loss
import DiscoveryGrpc.Proofs.Conversion.Settled
import DiscoveryGrpc.Proofs.Run.Requests

/-!
# Which methods have rpcs

Between the resources of a document and the services of its file lie three tables: the resources by
dotted key, the services by name and the rpcs of a service by name. Whatever goes into one of them
takes the place of what is there under the same name. `Built.calls` says what is lost in this way
between the resources and the services, and `perm_calls_iff_of_convert` that a file has an rpc for
each of the methods that its document declares if and only if none of the three loses anything
(`Apart`). Other rpcs it has none in any case.

`exists_not_mem_calls_nestedLakes` is a run in which two resources have one name for their services,
and a method has no rpc.
-/

namespace DiscoveryGrpc

open Proto Api

/-! ## The rpcs of a file -/

/-- An rpc by its name, the name of its service and that of its request. -/
structure Call where
  service : String
  rpc : String
  request : String
  deriving DecidableEq

/-- Where an rpc is found. -/
def Call.slot (c : Call) : String × String := (c.service, c.rpc)

/-- An rpc of the service with a name. -/
def Proto.Rpc.call (service : String) (r : Rpc) : Call := ⟨service, r.name, r.input⟩

/-- The rpcs of a service. -/
def Proto.Service.calls (s : Service) : List Call := s.rpcs.values.map (·.call s.name)

/-- The rpcs of a file. -/
def Proto.File.calls (f : File) : List Call := f.services.values.flatMap Service.calls

theorem Table.map_values_modify {α β : Type} {g : α → β} {f : α → α} (h : ∀ x, g (f x) = g x)
    (t : Table α) (name : String) : (t.modify name f).values.map g = t.values.map g := by
  rw [values, values, modify, List.map_map, List.map_map, List.map_map]
  refine List.map_congr_left fun e _ => ?_
  by_cases hname : e.1 = name <;> simp [hname, h]

/-- What each step of a fold keeps, the fold keeps. -/
theorem apply_foldl_eq {α β γ : Type} {f : β → α → β} (g : β → γ)
    (h : ∀ b a, g (f b a) = g b) (xs : List α) (b : β) : g (xs.foldl f b) = g b := by
  induction xs generalizing b with
  | nil => rfl
  | cons x xs ih => rw [List.foldl_cons, ih, h]

namespace Proto

theorem Merge.calls_mergeRpc (service : String) (rpcs : Table Rpc) (old : Rpc) :
    (mergeRpc rpcs old).values.map (·.call service) = rpcs.values.map (·.call service) := by
  have hkeeps : ∀ r : Rpc, ({ r with settings := mergeSignatures old.settings r.settings } :
    Rpc).call service = r.call service := fun _ => rfl
  exact Table.map_values_modify hkeeps rpcs old.name

theorem Merge.calls_mergeService (services : Table Service) (old : Service) :
    (mergeService services old).values.map Service.calls = services.values.map Service.calls := by
  refine Table.map_values_modify (fun s => ?_) services old.name
  exact apply_foldl_eq (fun rpcs : Table Rpc => rpcs.values.map (·.call s.name))
    (calls_mergeRpc s.name) old.rpcs.values s.rpcs

/-- Merging changes nothing about which rpcs there are. -/
theorem File.calls_merge (new old : File) : (new.merge old).1.calls = new.calls := by
  have hservices := apply_foldl_eq
    (fun services : Table Service => services.values.map Service.calls)
    Merge.calls_mergeService old.services.values new.services
  rw [calls, calls, List.flatMap_def, List.flatMap_def]
  exact congrArg List.flatten hservices

/-- No two rpcs of a file are found at the same place. -/
theorem File.nodup_slots {f : File} (hf : f.WellFormed) : (f.calls.map Call.slot).Nodup := by
  rw [calls, Table.values, List.flatMap_map, List.map_flatMap]
  refine Table.nodup_flatMap hf.services.sorted Prod.fst (fun e he x hx => ?_) fun e he => ?_
  · obtain ⟨c, hc, rfl⟩ := List.mem_map.1 hx
    obtain ⟨r, -, rfl⟩ := List.mem_map.1 hc
    exact hf.services.own e he
  · have hrpcs := hf.rpcs e.2 (Table.mem_values_of_mem he)
    have hnames : e.2.rpcs.values.map (·.name) = e.2.rpcs.names := by
      rw [Table.values, List.map_map]
      exact List.map_congr_left fun x hx => hrpcs.own x hx
    have hnodup : (e.2.rpcs.values.map (·.name)).Nodup := by
      rw [hnames]
      exact hrpcs.sorted.nodup_names
    rw [Service.calls, List.map_map]
    exact List.Nodup.of_map Prod.snd (by rwa [List.map_map])

end Proto

/-! ## The rpcs of methods -/

/-- The rpc for a method, with the dotted key of its resource. -/
def callOf (x : String × Method) : Call :=
  ⟨Name.camelOf x.1, Conversion.rpcName x.2, Conversion.requestName x.2⟩

/-- The rpcs for methods: for those that are not left out, neither for their resources nor for the
messages that they use. -/
def Options.calls (o : Options) (ms : List (String × Method)) : List Call :=
  (ms.filter fun x => o.serves x.1 && o.keeps x.2).map callOf

/-- The rpcs for the methods of a resource. -/
def Options.callsOf (o : Options) (resource : String × List Method) : List Call :=
  o.calls (resource.2.map (resource.1, ·))

namespace Conversion

variable {opts : Options} {d : Document} {start final : Workspace}

theorem calls_methodsOf (entries : List (String × List Method)) :
    opts.calls (methodsOf entries) = entries.flatMap opts.callsOf := by
  rw [Options.calls, methodsOf, List.filter_flatMap, List.map_flatMap]
  rfl

theorem callsOf_eq {resource : String × List Method} (hserves : opts.serves resource.1 = true) :
    opts.callsOf resource = (resource.2.filter opts.keeps).map fun m => callOf (resource.1, m) := by
  simp [Options.callsOf, Options.calls, List.filter_map, Function.comp_def, hserves]

theorem callsOf_eq_nil_iff {resource : String × List Method} :
    opts.callsOf resource = [] ↔ opts.isServed resource = false := by
  cases hserves : opts.serves resource.1 with
  | false => simp [Options.callsOf, Options.calls, Options.isServed, hserves]
  | true =>
    rw [callsOf_eq hserves, Options.isServed, hserves]
    simp

/-! ## What is lost -/

theorem call_of_rpcOf {service : String} {m : Method} {r : Rpc}
    (h : During start final (rpcOf opts d service m) r) (key : String)
    (hservice : service = Name.camelOf key) : r.call service = callOf (key, m) := by
  obtain ⟨w, w', -, hr, -⟩ := h
  obtain ⟨hname, hinput, -⟩ := rpcMade_of_rpcOf hr
  rw [Rpc.call, hname, hinput, hservice]
  rfl

/-- Rpcs of a service are of methods of its resource, and no such method is without one if and only
if the methods have different names for their rpcs. -/
theorem ServiceMade.calls {resource : String × List Method} {s : Service}
    (h : ServiceMade opts d start final resource s) (hserves : opts.serves resource.1 = true) :
    s.calls.Subperm (opts.callsOf resource) ∧ (s.calls.Perm (opts.callsOf resource) ↔
      ((resource.2.filter opts.keeps).map rpcName).Nodup) := by
  obtain ⟨rs, hrs, hrpcs⟩ := h.rpcs
  let single (e : String × Rpc) : List Call := [e.2.call s.name]
  have hhave : s.calls = (Table.ofList (rpcEntries rs)).flatMap single := by
    rw [Service.calls, Table.values, hrpcs, List.map_map]
    exact (List.flatMap_pure_eq_map _ _).symm
  have hcalls : opts.callsOf resource = rs.map (·.call s.name) := by
    rw [callsOf_eq hserves, ← List.forall₂_eq_eq_eq, List.forall₂_map_left_iff,
      List.forall₂_map_right_iff]
    exact hrs.imp fun m r hr => (call_of_rpcOf hr resource.1 (eq_camelOf h.name)).symm
  have hwanted : opts.callsOf resource = (rpcEntries rs).flatMap single := by
    rw [hcalls, rpcEntries, List.flatMap_map]
    exact (List.flatMap_pure_eq_map _ _).symm
  have hnames : (resource.2.filter opts.keeps).map rpcName = rs.map (·.name) := by
    have hrpcs := congrArg (List.map Call.rpc) hcalls
    rw [callsOf_eq hserves, List.map_map, List.map_map] at hrpcs
    exact hrpcs
  rw [hhave, hwanted, hnames]
  refine ⟨Table.subperm_flatMap_ofList _ _, (Table.perm_flatMap_ofList_iff _ _).trans ?_⟩
  rw [rpcEntries, List.pairwise_map, List.Nodup, List.pairwise_map]
  simp [single]

theorem ServiceMade.calls_ne_nil {resource : String × List Method} {s : Service}
    (h : ServiceMade opts d start final resource s) (hserved : opts.isServed resource = true) :
    s.calls ≠ [] := by
  obtain ⟨rs, hrs, hrpcs⟩ := h.rpcs
  obtain ⟨-, hkeeps⟩ := Bool.and_eq_true_iff.1 hserved
  obtain ⟨m, hm, hm'⟩ := List.any_eq_true.1 hkeeps
  obtain ⟨r, hr, -⟩ :=
    Resolution.exists_mem_of_forall₂ hrs.flip m (List.mem_filter.2 ⟨hm, hm'⟩)
  intro hnil
  rw [Service.calls, List.map_eq_nil_iff, Table.values, List.map_eq_nil_iff, hrpcs] at hnil
  have hempty := isEmpty_ofList (rpcEntries rs)
  rw [hnil, rpcEntries, List.isEmpty_map] at hempty
  exact List.ne_nil_of_mem hr (List.isEmpty_iff.1 hempty.symm)

theorem forall₂_iff_forall {α β : Type} {R S : α → β → Prop} {P : α → Prop} {xs : List α}
    {ys : List β} (h : List.Forall₂ R xs ys) (hP : ∀ x ∈ xs, ∀ y, R x y → (S x y ↔ P x)) :
    List.Forall₂ S xs ys ↔ ∀ x ∈ xs, P x := by
  induction h with
  | nil => simp
  | cons hxy _ ih =>
    rw [List.forall₂_cons, List.forall_mem_cons, hP _ List.mem_cons_self _ hxy,
      ih fun x hx => hP x (List.mem_cons_of_mem _ hx)]

theorem flatMap_callsOf (resources : List (String × List Method)) :
    resources.flatMap opts.callsOf = (resources.filter opts.isServed).flatMap opts.callsOf := by
  induction resources with
  | nil => rfl
  | cons resource resources ih =>
    rw [List.flatMap_cons, ih]
    cases hserved : opts.isServed resource with
    | false =>
      rw [List.filter_cons_of_neg (by simp [hserved]), callsOf_eq_nil_iff.2 hserved]
      rfl
    | true => rw [List.filter_cons_of_pos hserved, List.flatMap_cons]

/-- The rpcs of services. -/
def callsIn (services : Table Service) : List Call := services.values.flatMap Service.calls

section Services

variable {resources : List (String × List Method)} {ss : List Service}
  (hss : List.Forall₂ (ServiceMade opts d start final) resources ss)
  (hserved : ∀ resource ∈ resources, opts.isServed resource = true)

include hss hserved

/-- Among services by name, those are lost whose names come again. -/
theorem perm_callsIn_iff :
    (callsIn (Table.ofList (serviceEntries ss))).Subperm (ss.flatMap Service.calls) ∧
      ((callsIn (Table.ofList (serviceEntries ss))).Perm (ss.flatMap Service.calls) ↔
        (resources.map (Name.camelOf ·.1)).Nodup) := by
  let ofEntry (e : String × Service) : List Call := e.2.calls
  have hhave : callsIn (Table.ofList (serviceEntries ss))
      = (Table.ofList (serviceEntries ss)).flatMap ofEntry := by
    rw [callsIn, Table.values, List.flatMap_map]
  have hmade : ss.flatMap Service.calls = (serviceEntries ss).flatMap ofEntry := by
    rw [serviceEntries, List.flatMap_map]
  have hnames : resources.map (Name.camelOf ·.1) = ss.map (·.name) := by
    rw [← List.forall₂_eq_eq_eq, List.forall₂_map_left_iff, List.forall₂_map_right_iff]
    exact hss.imp fun _ _ hs => (eq_camelOf hs.name).symm
  rw [hhave, hmade, hnames]
  refine ⟨Table.subperm_flatMap_ofList _ _, (Table.perm_flatMap_ofList_iff _ _).trans ?_⟩
  rw [serviceEntries, List.pairwise_map, List.Nodup, List.pairwise_map]
  refine List.Pairwise.iff_of_mem fun {a b} ha _ => ?_
  obtain ⟨resource, hresource, hs⟩ := Resolution.exists_mem_of_forall₂ hss a ha
  have hne := hs.calls_ne_nil (hserved _ hresource)
  exact ⟨fun h heq => hne (h heq), fun h heq => absurd heq h⟩

/-- In services, those rpcs are lost whose names come again in their service. -/
theorem perm_flatMap_calls_iff :
    (ss.flatMap Service.calls).Subperm (resources.flatMap opts.callsOf) ∧
      ((ss.flatMap Service.calls).Perm (resources.flatMap opts.callsOf) ↔
        ∀ resource ∈ resources, ((resource.2.filter opts.keeps).map rpcName).Nodup) := by
  have hcalls : ∀ resource ∈ resources, ∀ s, ServiceMade opts d start final resource s →
      s.calls.Subperm (opts.callsOf resource) ∧ (s.calls.Perm (opts.callsOf resource) ↔
        ((resource.2.filter opts.keeps).map rpcName).Nodup) := fun resource hr s hs =>
    hs.calls (Bool.and_eq_true_iff.1 (hserved resource hr)).1
  have hparts : List.Forall₂ List.Subperm (ss.map Service.calls)
      (resources.map opts.callsOf) := by
    rw [List.forall₂_map_left_iff, List.forall₂_map_right_iff]
    exact ((forall₂_iff_forall hss fun resource hr s hs =>
      iff_true_intro (hcalls resource hr s hs).1).2 fun _ _ => trivial).flip
  rw [List.flatMap_def, List.flatMap_def]
  refine ⟨subperm_flatten hparts, (perm_flatten_iff hparts).trans ?_⟩
  rw [List.forall₂_map_left_iff, List.forall₂_map_right_iff]
  refine Iff.trans ⟨.flip, .flip⟩ (forall₂_iff_forall hss fun resource hr s hs => ?_)
  exact (hcalls resource hr s hs).2

end Services

/-- What is lost between resources and services: services of one name, and rpcs of one name in a
service. -/
theorem Built.calls {services : Table Service} (h : Built opts d start services final) :
    (callsIn services).Subperm (d.resources.flatMap opts.callsOf) ∧
      ((callsIn services).Perm (d.resources.flatMap opts.callsOf) ↔
        ((d.resources.filter opts.isServed).map (Name.camelOf ·.1)).Nodup ∧
          ∀ resource ∈ d.resources.filter opts.isServed,
            ((resource.2.filter opts.keeps).map rpcName).Nodup) := by
  obtain ⟨ss, hss, rfl⟩ := h.resources
  have hserved : ∀ resource ∈ d.resources.filter opts.isServed,
      opts.isServed resource = true := fun _ hr => (List.mem_filter.1 hr).2
  obtain ⟨hfirst, hservices⟩ := perm_callsIn_iff hss hserved
  obtain ⟨hsecond, hrpcs⟩ := perm_flatMap_calls_iff hss hserved
  rw [flatMap_callsOf]
  exact ⟨hfirst.trans hsecond, by rw [perm_trans_iff hfirst hsecond, hservices, hrpcs]⟩

theorem calls_addOperations (messages : Table Message) (services : Table Service) :
    callsIn (addOperations messages services) = callsIn services := by
  rw [callsIn, callsIn, addOperations, Table.values_mapValues, List.flatMap_map]
  refine List.flatMap_congr fun s _ => ?_
  rw [Service.calls, Service.calls, withOperations, Table.values_mapValues, List.map_map]
  rfl

/-! ## What is declared -/

/-- No method that is not left out is lost: its resource is the only one with its dotted key and
with its name for a service, and it is the only method there with its name for an rpc. -/
structure Apart (opts : Options) (entries : List (String × List Method)) : Prop where
  /-- Of resources with one dotted key, the last one takes the place of the others. -/
  keys : entries.Pairwise fun a b => opts.isServed a = true → a.1 ≠ b.1
  services : ((entries.filter opts.isServed).map (Name.camelOf ·.1)).Nodup
  rpcs : ∀ resource ∈ entries.filter opts.isServed,
    ((resource.2.filter opts.keeps).map rpcName).Nodup

/-- What is lost between the declaration of a document and the services: also resources of one
key. -/
theorem Built.calls_declared {services : Table Service} (h : Built opts d start services final)
    {entries : List (String × List Method)} (hentries : d.resources = Table.ofList entries) :
    (callsIn services).Subperm (opts.calls (methodsOf entries)) ∧
      ((callsIn services).Perm (opts.calls (methodsOf entries)) ↔ Apart opts entries) := by
  obtain ⟨hfirst, hbuilt⟩ := h.calls
  rw [hentries] at hfirst hbuilt
  have hsecond := Table.subperm_flatMap_ofList opts.callsOf entries
  have hkeys : entries.Pairwise (fun a b => a.1 = b.1 → opts.callsOf a = []) ↔
      entries.Pairwise fun a b => opts.isServed a = true → a.1 ≠ b.1 := by
    refine List.Pairwise.iff fun a b => ?_
    rw [callsOf_eq_nil_iff, ← Bool.not_eq_true]
    tauto
  rw [calls_methodsOf]
  refine ⟨hfirst.trans hsecond, ?_⟩
  rw [perm_trans_iff hfirst hsecond, Table.perm_flatMap_ofList_iff, hkeys, hbuilt]
  -- with different keys the table has all resources that are served
  have hserved : (entries.Pairwise fun a b => opts.isServed a = true → a.1 ≠ b.1) →
      ((Table.ofList entries).filter opts.isServed).Perm (entries.filter opts.isServed) := by
    intro hkeys
    rw [← List.filterMap_eq_filter, List.filterMap_eq_flatMap_toList,
      List.filterMap_eq_flatMap_toList, Table.perm_flatMap_ofList_iff]
    refine hkeys.imp fun {a b} hab heq => ?_
    rw [Option.guard, if_neg fun hserved => hab hserved heq]
    rfl
  constructor
  · rintro ⟨⟨hservices, hrpcs⟩, hkeys⟩
    have hperm := hserved hkeys
    exact ⟨hkeys, (hperm.map _).nodup_iff.1 hservices, fun resource hr =>
      hrpcs resource (hperm.mem_iff.2 hr)⟩
  · rintro ⟨hkeys, hservices, hrpcs⟩
    have hperm := hserved hkeys
    exact ⟨⟨(hperm.map _).nodup_iff.2 hservices, fun resource hr =>
      hrpcs resource (hperm.mem_iff.1 hr)⟩, hkeys⟩

end Conversion

/-! ## Runs -/

/-- The rpcs of the file of a run are of methods that its document declares and that are not left
out, each at a place of its own. No such method is without one if and only if none is lost. -/
theorem perm_calls_iff_of_convert {input : Input} {o : Output} (h : (convert input).1 = .ok o) :
    ∃ decl d entries, DocumentDeclaration.ofText input.document = .ok decl ∧
      Document.ofDeclaration decl = .ok d ∧
      Document.flattenTable d.name "" (decl.resources.getD []) = .ok entries ∧
      List.Forall₂ (StandsFor d.name) decl.declared (methodsOf entries) ∧
      (o.file.calls.map Call.slot).Nodup ∧
      o.file.calls.Subperm (input.options.calls (methodsOf entries)) ∧
      (o.file.calls.Perm (input.options.calls (methodsOf entries)) ↔
        Conversion.Apart input.options entries) := by
  obtain ⟨d, registry, f, w, hd, -, hf, hmerged, -⟩ := convert_eq_ok_iff.1 h
  obtain ⟨decl, hdecl, hofDeclaration⟩ := Document.exists_of_ofText hd
  obtain ⟨-, entries, hentries, hresources⟩ := Document.exists_of_ofDeclaration hofDeclaration
  obtain ⟨services, final, -, hbuilt, -, -, hservices⟩ := Conversion.built_of_fileOf hf
  have hwf := (Conversion.settled_of_fileOf (Naming.admitsDocument_any d)
    ⟨fun _ _ => trivial, fun _ _ => trivial⟩ hf).wellFormed
  have hcalls : o.file.calls = f.calls := by
    rcases mergedFile_eq_ok_iff.1 hmerged with ⟨-, hfile⟩ | ⟨_, old, -, -, hfile⟩
    · rw [hfile]
    · rw [hfile, File.calls_merge]
  have hbuiltCalls : f.calls = Conversion.callsIn services := by
    rw [File.calls, hservices]
    exact Conversion.calls_addOperations f.messages services
  refine ⟨decl, d, entries, hdecl, hofDeclaration, hentries,
    Document.forall₂_flattenTable "" _ entries hentries, ?_, ?_⟩
  · rw [hcalls]
    exact File.nodup_slots hwf
  · rw [hcalls, hbuiltCalls]
    exact hbuilt.calls_declared hresources

/-- A document with two methods of lakes, one of their bays and one of rivers. -/
def servedLakes : String :=
  lakesApi [] [
    ("lakes", .object [
      ("methods", .object [
        ("get", .object [("path", .string "lake")]),
        ("list", .object [("path", .string "lakes")])]),
      ("resources", .object [("bays", methodResource "list" [("path", .string "bays")])])]),
    ("rivers", methodResource "get" [("path", .string "river")])]

/-- Each of the four methods has its rpc. -/
theorem perm_calls_iff_of_convert_servedLakes :
    ∃ o, (convert { document := servedLakes }).1 = .ok o ∧
      o.file.calls.map Call.slot =
        [("Lakes", "Get"), ("Lakes", "List"), ("LakesBays", "List"), ("Rivers", "Get")] ∧
      ∃ decl d entries, DocumentDeclaration.ofText servedLakes = .ok decl ∧
        decl.declared.length = 4 ∧ Document.ofDeclaration decl = .ok d ∧
        Document.flattenTable d.name "" (decl.resources.getD []) = .ok entries ∧
        List.Forall₂ (StandsFor d.name) decl.declared (methodsOf entries) ∧
        (o.file.calls.map Call.slot).Nodup ∧
        o.file.calls.Subperm (Options.calls {} (methodsOf entries)) ∧
        (o.file.calls.Perm (Options.calls {} (methodsOf entries)) ↔
          Conversion.Apart {} entries) ∧
        Conversion.Apart {} entries := by
  have hspells : Json.Spells servedLakes _ := Json.spells_compact (by
    simp [Json.Printable, Json.PrintableMembers, methodResource])
  obtain ⟨o, ho, hslots⟩ : ∃ o, (convert { document := servedLakes }).1 = .ok o ∧
      decide (o.file.calls.map Call.slot =
        [("Lakes", "Get"), ("Lakes", "List"), ("LakesBays", "List"), ("Rivers", "Get")]) = true :=
    exists_eq_ok_of_eq (convert_of_spells hspells) (by decide +kernel)
  obtain ⟨decl', hdecl', hdeclared⟩ : ∃ decl, DocumentDeclaration.ofText servedLakes = .ok decl ∧
      decide (decl.declared.length = 4) = true :=
    exists_eq_ok_of_eq (DocumentDeclaration.ofText_of_spells hspells) (by decide +kernel)
  obtain ⟨decl, d, entries, hdecl, hd, hentries, hstands, hnodup, hsubperm, hiff⟩ :=
    perm_calls_iff_of_convert ho
  obtain rfl := Except.ok.inj (hdecl'.symm.trans hdecl)
  have hslots := of_decide_eq_true hslots
  have hdeclared := of_decide_eq_true hdeclared
  -- there are as many rpcs as methods, so none is lost
  have hlength : (Options.calls {} (methodsOf entries)).length ≤ o.file.calls.length := calc
    (Options.calls {} (methodsOf entries)).length ≤ (methodsOf entries).length := by
      rw [Options.calls, List.length_map]
      exact List.length_filter_le ..
    _ = decl'.declared.length := hstands.length_eq.symm
    _ = (o.file.calls.map Call.slot).length := by rw [hdeclared, hslots]; rfl
    _ = o.file.calls.length := List.length_map ..
  exact ⟨o, ho, hslots, decl', d, entries, hdecl, hdeclared, hd, hentries, hstands, hnodup,
    hsubperm, hiff, hiff.1 (hsubperm.perm_of_length_le hlength)⟩

/-- A document in which the locations of projects and the locations for projects are resources. -/
def nestedLakes : String :=
  lakesApi [] [
    ("projects", .object [("resources", .object
      [("locations", methodResource "list" [("path", .string "locations")])])]),
    ("projectsLocations", methodResource "get" [("path", .string "location")])]

/-- One of the methods has no rpc. -/
theorem exists_not_mem_calls_nestedLakes : ∃ o decl d entries,
    (convert { document := nestedLakes }).1 = .ok o ∧
    DocumentDeclaration.ofText nestedLakes = .ok decl ∧
    Document.ofDeclaration decl = .ok d ∧
    Document.flattenTable d.name "" (decl.resources.getD []) = .ok entries ∧
    List.Forall₂ (StandsFor d.name) decl.declared (methodsOf entries) ∧
    ∃ c ∈ Options.calls {} (methodsOf entries), c.slot ∉ o.file.calls.map Call.slot := by
  let lost : Call := ⟨"ProjectsLocations", "List", "ListLocationRequest"⟩
  have hspells : Json.Spells nestedLakes _ := Json.spells_compact (by
    simp [Json.Printable, Json.PrintableMembers, methodResource])
  obtain ⟨o, ho, hlost⟩ : ∃ o, (convert { document := nestedLakes }).1 = .ok o ∧
      decide (lost.slot ∉ o.file.calls.map Call.slot) = true :=
    exists_eq_ok_of_eq (convert_of_spells hspells) (by decide +kernel)
  obtain ⟨decl, hdecl, hd⟩ : ∃ decl, DocumentDeclaration.ofText nestedLakes = .ok decl ∧
      ((Document.ofDeclaration decl).toOption.any fun d =>
        (Document.flattenTable d.name "" (decl.resources.getD [])).toOption.any fun entries =>
          decide (lost ∈ Options.calls {} (methodsOf entries))) = true :=
    exists_eq_ok_of_eq (DocumentDeclaration.ofText_of_spells hspells) (by decide +kernel)
  obtain ⟨d, hd, hentries⟩ := exists_eq_ok hd
  obtain ⟨entries, hentries, hmem⟩ := exists_eq_ok hentries
  exact ⟨o, decl, d, entries, ho, hdecl, hd, hentries,
    Document.forall₂_flattenTable "" _ entries hentries, lost, of_decide_eq_true hmem,
    of_decide_eq_true hlost⟩

end DiscoveryGrpc
