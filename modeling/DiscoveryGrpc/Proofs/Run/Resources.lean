import DiscoveryGrpc.Proofs.Conversion.Resources
import DiscoveryGrpc.Proofs.Run.Requests

/-!
# Resources of a file

The options of a file itself are the definitions of resources. A run that succeeds has one for each
type that a method names and that is converted, and no other (`resources_of_convert`).
-/

namespace DiscoveryGrpc

open Proto Api

namespace Conversion

/-- A method of a resource is converted: neither the resource or its service is left out, nor a
message that the request or the response of the method refers to. -/
structure IsConverted (opts : Options) (d : Document) (resource : String × List Method)
    (m : Method) : Prop where
  resource_mem : resource ∈ d.resources
  mem : m ∈ resource.2
  key : resource.1 ∉ opts.ignoredServices
  service : Name.camelOf resource.1 ∉ opts.ignoredServices
  bodies : ∀ s, m.request = some s ∨ m.response = some s → s.isReference = true →
    ∀ name, messageName s.reference = .ok name → name ∉ opts.ignoredNames

/-- An option defines a resource, where collections and `*` alternate in a pattern. -/
structure DefinesResource (document : String) (pattern : List Char)
    (collections : List (List Char)) (s : Setting) : Prop where
  name : s.name = Setting.resourceDefinition
  type : s.property? "type" = some (.string (Resource.type document collections))
  pattern : ∃ text, s.property? "pattern" = some (.string text) ∧ Path.Starred text.toList pattern

/-- Options are the definitions of the resources that the methods of a document name. -/
structure ResourcesDefined (opts : Options) (d : Document) (settings : List Setting) : Prop where
  /-- There is one definition of each type. -/
  unique : (settings.map (·.property? "type")).Nodup
  /-- Every option is the definition of a resource that a method names. -/
  sound : ∀ s ∈ settings, ∃ resource m pattern collections, IsConverted opts d resource m ∧
    m.NamesResource pattern collections ∧ DefinesResource d.name pattern collections s
  /-- The type of every resource that a method names is defined. -/
  complete : ∀ resource m pattern collections, IsConverted opts d resource m →
    m.NamesResource pattern collections →
    ∃ s ∈ settings, s.property? "type" = some (.string (Resource.type d.name collections))

variable {opts : Options} {d : Document} {m : Method} {pattern : List Char}
  {collections : List (List Char)}

theorem keeps_iff : opts.keeps m = true ↔ ∀ s, m.request = some s ∨ m.response = some s →
    s.isReference = true → ∀ name, messageName s.reference = .ok name →
    name ∉ opts.ignoredNames := by
  simp only [Options.keeps, ignoredReference?, Option.isNone_iff_eq_none, List.find?_eq_none,
    List.mem_filterMap, List.mem_filter, List.mem_append, Option.mem_toList,
    List.contains_iff_mem]
  constructor
  · intro h s hs href name hname hmem
    exact h name ⟨s, ⟨hs, href⟩, by rw [hname]; rfl⟩ hmem
  · rintro h name ⟨s, ⟨hs, href⟩, hname⟩ hmem
    cases hreference : messageName s.reference with
    | error fault =>
      rw [hreference] at hname
      cases hname
    | ok n =>
      rw [hreference] at hname
      obtain rfl := Option.some.inj hname
      exact h s hs href n hreference hmem

theorem isConverted_iff {resource : String × List Method} : IsConverted opts d resource m ↔
    resource ∈ d.resources ∧ opts.serves resource.1 = true ∧ m ∈ resource.2 ∧
      opts.keeps m = true := by
  rw [keeps_iff]
  simp only [Options.serves, Bool.not_eq_true', Bool.or_eq_false_iff, List.contains_eq_mem,
    decide_eq_false_iff_not]
  constructor
  · intro h
    exact ⟨h.resource_mem, ⟨h.key, h.service⟩, h.mem, h.bodies⟩
  · rintro ⟨hresource, ⟨hkey, hservice⟩, hm, hbodies⟩
    exact ⟨hresource, hm, hkey, hservice, hbodies⟩

theorem definesResource_definition (h : m.NamesResource pattern collections) (document : String) :
    DefinesResource document pattern collections (Resource.definition document collections) where
  name := rfl
  type := Resource.property?_type_definition ..
  pattern := ⟨_, Resource.property?_pattern_definition .., Resource.starred_pattern h.alternates⟩

theorem mem_documentDefinitions_iff_exists {s : Setting} : s ∈ documentDefinitions opts d ↔
    ∃ resource m pattern collections, IsConverted opts d resource m ∧
      m.NamesResource pattern collections ∧ s = Resource.definition d.name collections := by
  simp only [mem_documentDefinitions_iff, isConverted_iff]
  constructor
  · rintro ⟨resource, hresource, hserves, m, hm, hkeeps, pattern, collections, hnames, rfl⟩
    exact ⟨resource, m, pattern, collections, ⟨hresource, hserves, hm, hkeeps⟩, hnames, rfl⟩
  · rintro ⟨resource, m, pattern, collections, ⟨hresource, hserves, hm, hkeeps⟩, hnames, rfl⟩
    exact ⟨resource, hresource, hserves, m, hm, hkeeps, pattern, collections, hnames, rfl⟩

theorem Defined.resourcesDefined {settings : List Setting}
    (h : Defined (documentDefinitions opts d) settings) : ResourcesDefined opts d settings where
  unique := h.nodup
  sound s hs := by
    obtain ⟨resource, m, pattern, collections, hm, hnames, rfl⟩ :=
      mem_documentDefinitions_iff_exists.1 (h.subset hs)
    exact ⟨resource, m, pattern, collections, hm, hnames, definesResource_definition hnames d.name⟩
  complete resource m pattern collections hm hnames := h.complete _
    (mem_documentDefinitions_iff_exists.2 ⟨resource, m, pattern, collections, hm, hnames, rfl⟩)

/-- The options of the file for a document are the definitions of its resources. -/
theorem resourcesDefined_of_fileOf {registry : Registry} {f : File} {w : Workspace}
    (h : fileOf opts d { registry } = .ok f w) : ResourcesDefined opts d f.settings := by
  obtain ⟨services, final, hbuild, -, -, -, rfl⟩ := fileOf_eq_ok h
  have hresources := (defines_buildAll opts d).resources hbuild
  exact Defined.resourcesDefined (hresources ▸ defined_foldl _)

end Conversion

/-- A file that is merged keeps its options. -/
theorem settings_of_mergedFile {f g : File} {proto? : Option String}
    (h : mergedFile f proto? = .ok g) : g.settings = f.settings := by
  rcases mergedFile_eq_ok_iff.1 h with ⟨-, rfl⟩ | ⟨_, old, -, -, rfl⟩
  · rfl
  · rfl

/-- The options of the file of a run are the definitions of the resources that the methods of the
document name: there is one of each type, and no other. -/
theorem resources_of_convert {input : Input} {o : Output} (h : (convert input).1 = .ok o) :
    ∃ d, Document.ofText input.document = .ok d ∧
      Conversion.ResourcesDefined input.options d o.file.settings := by
  obtain ⟨d, registry, f, w, hd, -, hf, hmerged, -⟩ := convert_eq_ok_iff.1 h
  exact ⟨d, hd, settings_of_mergedFile hmerged ▸ Conversion.resourcesDefined_of_fileOf hf⟩

/-- A document in which lakes of projects are got and stopped. -/
def projectLakes : String :=
  lakesApi [] [("lakes", .object [("methods", .object (["get", "stop"].map fun verb =>
    (verb, .object [("path", .string s!"v1/\x7b+name\x7d:{verb}"),
      ("flatPath", .string s!"v1/projects/\x7bprojectsId\x7d/lakes/\x7blakesId\x7d:{verb}")])))])]

/-- Two methods name a resource of one type, and it is defined once. -/
theorem resources_of_convert_projectLakes :
    ∃ o, (convert { document := projectLakes }).1 = .ok o ∧
      o.file.settings =
        [Conversion.Resource.definition "lakes" ["projects".toList, "lakes".toList]] ∧
      ∃ d, Document.ofText projectLakes = .ok d ∧
        Conversion.ResourcesDefined {} d o.file.settings := by
  have hspells : Json.Spells projectLakes _ := Json.spells_compact (by
    simp [Json.Printable, Json.PrintableMembers])
  obtain ⟨o, ho, hsettings⟩ : ∃ o, (convert { document := projectLakes }).1 = .ok o ∧
      decide (o.file.settings =
        [Conversion.Resource.definition "lakes" ["projects".toList, "lakes".toList]]) = true :=
    exists_eq_ok_of_eq (convert_of_spells hspells) (by decide +kernel)
  have hresources := resources_of_convert ho
  exact ⟨o, ho, of_decide_eq_true hsettings, hresources⟩

end DiscoveryGrpc
