import DiscoveryGrpc.Proofs.Api.Forest

/-!
# Reading an arena back

In a forest, the way up from a schema ends at a place of the document (`Forest.exists_stands`), and
the way down from it ends too (`Forest.isSome_schema?`). Neither takes more steps than there are
schemas, and neither meets one that is not there.

A schema that lies in a forest, and stands where it should, is what the way down puts together
(`Lies.schema?_eq`). From this, methods and resources are read back one after the other, so that the
arena for a document has the schemas and the methods of the document: `forest_of_ofText`. A text that
is no document has no arena, for the same fault: `Arena.ofText_eq_error_iff`.
-/

namespace DiscoveryGrpc.Api

open Proto

namespace Arena

variable {a b : Arena} {id p : Nat} {n c : Node} {place : Place}

/-! ## The way up -/

theorem place?_eq_some_iff {budget : Nat} : a.place? budget id = some place ↔
    ∃ root, a.root? budget id = some root ∧ a.path? budget id = some place.path ∧
      a.owner? budget id = some place.owner ∧
      root.mapM (fun r => (a.nodes[r]?).map (·.key)) = some place.root := by
  obtain ⟨path, owner, key⟩ := place
  simp [place?, Option.bind_eq_some_iff]

/-- The way up from a schema ends at a place, as soon as the budget is more than its number. -/
def Stands (a : Arena) (id : Nat) (place : Place) : Prop :=
  ∀ budget, id < budget → a.place? budget id = some place

theorem stands_topLevel (hn : a.nodes[id]? = some n) (hparent : n.parent = .document) :
    a.Stands id (.topLevel n.key) := by
  rintro (_ | budget) hid
  · cases hid
  · simp [place?, root?, path?, owner?, hn, hparent, Place.topLevel]

theorem stands_ofMethod {i : Nat} {m : MethodNode} (hn : a.nodes[id]? = some n)
    (hparent : n.parent = .method i) (hm : a.methods[i]? = some m) :
    a.Stands id (.ofMethod m.id n.key) := by
  rintro (_ | budget) hid
  · cases hid
  · simp [place?, root?, path?, owner?, hn, hparent, hm, Place.ofMethod]

/-- The place of a schema that belongs to another one. -/
theorem Stands.child (h : a.Stands p place) (hn : a.nodes[p]? = some n)
    (hc : a.nodes[id]? = some c) (hparent : c.parent = .schema p) (hlt : p < id) :
    a.Stands id (if n.items == some id || n.additional == some id then place.element
      else place.property c.key) := by
  rintro (_ | budget) hid
  · cases hid
  · obtain ⟨root, hroot, hpath, -, hkey⟩ := place?_eq_some_iff.1 (h budget (by omega))
    obtain ⟨-, -, hpath', -, -⟩ := place?_eq_some_iff.1 (h (budget + 1) (by omega))
    refine place?_eq_some_iff.2 ⟨root, ?_, ?_, ?_, ?_⟩
    case refine_1 => simp [root?, hc, hparent, hroot]
    case refine_2 =>
      simp only [path?, hc, hparent, hn, hpath, Option.bind_eq_bind, Option.bind_some]
      split <;> rfl
    case refine_3 =>
      simp only [owner?, hc, hparent, hpath', Option.bind_eq_bind, Option.bind_some]
      split <;> rfl
    case refine_4 => split <;> exact hkey

theorem isSome_mapM {α β : Type} {f : α → Option β} {x : Option α} (h : ∀ y ∈ x, (f y).isSome) :
    (x.mapM f).isSome := by
  cases x with
  | none => rfl
  | some x => simpa using h x rfl

namespace Forest

/-- What a link leads to belongs to the schema with the link. -/
theorem exists_linked (h : a.Forest) (hn : a.nodes[p]? = some n) (hlink : id ∈ n.links) :
    ∃ c, a.nodes[id]? = some c ∧ c.parent = .schema p := by
  obtain ⟨-, hlt⟩ := h.link p n hn id hlink
  have hc := List.getElem?_eq_getElem hlt
  exact ⟨_, hc, (h.parent_schema id _ hc p).2
    ⟨n, hn, List.count_eq_one_of_mem (h.link_nodup p n hn) hlink⟩⟩

theorem exists_stands (h : a.Forest) (hid : id < a.nodes.length) :
    ∃ place, a.Stands id place := by
  induction id using Nat.strong_induction_on with
  | h id ih =>
    have hc := List.getElem?_eq_getElem hid
    cases hparent : a.nodes[id].parent with
    | document => exact ⟨_, stands_topLevel hc hparent⟩
    | method i =>
      obtain ⟨m, hm, -⟩ := (h.parent_method id _ hc i).1 hparent
      exact ⟨_, stands_ofMethod hc hparent hm⟩
    | schema p =>
      obtain ⟨n, hn, hcount⟩ := (h.parent_schema id _ hc p).1 hparent
      have hlink : id ∈ n.links := List.count_pos_iff.1 (by omega)
      obtain ⟨hlt, -⟩ := h.link p n hn id hlink
      obtain ⟨place, hplace⟩ := ih p hlt (by omega)
      exact ⟨_, hplace.child hn hc hparent hlt⟩

/-- A property stands behind its owner, with its key. -/
theorem stands_property (h : a.Forest) (hp : a.Stands p place) (hn : a.nodes[p]? = some n)
    (hlink : id ∈ n.properties.values) (hc : a.nodes[id]? = some c) :
    a.Stands id (place.property c.key) := by
  have hlinks : id ∈ n.links := by simp [Node.links, hlink]
  obtain ⟨c', hc', hparent⟩ := h.exists_linked hn hlinks
  obtain rfl := Option.some.inj (hc.symm.trans hc')
  have hstands := hp.child hn hc hparent (h.link p n hn id hlinks).1
  -- a link is not there twice, so the property is not for elements or other values
  have hnodup := h.link_nodup p n hn
  rw [Node.links, List.append_assoc, List.nodup_append] at hnodup
  rwa [if_neg] at hstands
  intro hother
  refine hnodup.2.2 id hlink id ?_ rfl
  simpa [Option.mem_toList] using hother

/-- Items and values stand where their owner stands. -/
theorem stands_element (h : a.Forest) (hp : a.Stands p place) (hn : a.nodes[p]? = some n)
    (hlink : id ∈ n.items ∨ id ∈ n.additional) : a.Stands id place.element := by
  have hlinks : id ∈ n.links := by
    rcases hlink with hlink | hlink <;> simp [Node.links, Option.mem_def.1 hlink]
  obtain ⟨c, hc, hparent⟩ := h.exists_linked hn hlinks
  have hstands := hp.child hn hc hparent (h.link p n hn id hlinks).1
  rwa [if_pos] at hstands
  simpa using hlink

/-! ## The way down -/

theorem isSome_schema? (h : a.Forest) {budget : Nat} (hid : id < a.nodes.length)
    (hbudget : a.nodes.length ≤ budget + id) : (a.schema? budget id).isSome := by
  induction budget generalizing id with
  | zero => omega
  | succ budget ih =>
    have hn := List.getElem?_eq_getElem hid
    obtain ⟨place, hplace⟩ := h.exists_stands hid
    have hlink : ∀ j ∈ a.nodes[id].links, (a.schema? budget j).isSome := fun j hj => by
      obtain ⟨hlt, hj⟩ := h.link id _ hn j hj
      exact ih hj (by omega)
    simp only [Node.links, List.forall_mem_append, Option.mem_toList] at hlink
    obtain ⟨⟨hproperties, hitems⟩, hadditional⟩ := hlink
    obtain ⟨properties, hproperties⟩ :=
      Option.isSome_iff_exists.1 (Table.isSome_mapValues? hproperties)
    obtain ⟨items, hitems⟩ := Option.isSome_iff_exists.1 (isSome_mapM hitems)
    obtain ⟨additional, hadditional⟩ := Option.isSome_iff_exists.1 (isSome_mapM hadditional)
    simp [schema?, hn, hplace _ hid, hproperties, hitems, hadditional]

end Forest

/-! ## Schemas that are read back -/

/-- The places of a table are read back if what lies at each of them is. -/
theorem Holds.mapValues?_placesOfTable {parent : Parent} {start : Nat} {ss : Table Schema}
    {read : Nat → Option Schema} (h : a.Holds start (Schema.nodesOfTable parent start ss))
    (hread : ∀ e ∈ ss, ∀ id ∈ Table.values (Schema.placesOfTable parent start ss),
      a.Lies parent id e.2 → read id = some e.2) :
    Table.mapValues? read (Schema.placesOfTable parent start ss) = some ss := by
  have hlies := List.forall₂_iff_zip.1 h.lies_table
  refine Table.mapValues?_eq_some (List.forall₂_iff_zip.2 ⟨hlies.1, fun {p e} hmem => ?_⟩)
  obtain ⟨hp, he⟩ := List.of_mem_zip hmem
  obtain ⟨hkey, hlie⟩ := hlies.2 hmem
  exact ⟨hkey, hread e he p.2 (Table.mem_values_of_mem hp) hlie⟩

theorem Holds.mapM_placeOfOption {parent : Parent} {start : Nat} {s : Option Schema}
    {read : Nat → Option Schema} (h : a.Holds start (Schema.nodesOfOption parent start s))
    (hread : ∀ c ∈ s, a.Lies parent start c → read start = some c) :
    (s.map fun _ => start).mapM read = some s := by
  cases s with
  | none => rfl
  | some s => simp [hread s rfl h]

/-- A schema that lies in a forest, and stands where it should, is read back. -/
theorem Lies.schema?_eq {s : Schema} {key : String} {parent : Parent} {budget : Nat}
    (hlies : a.Lies parent id s) (h : a.Forest) (hs : s.Placed place key)
    (hstands : a.Stands id place) (hbudget : a.nodes.length ≤ budget + id) :
    a.schema? budget id = some s := by
  induction hs generalizing parent id budget with
  | @intro s hplaced _ hproperty helement =>
    obtain ⟨head, properties, items, additional⟩ := s
    rw [Lies, Schema.nodes, holds_cons_iff, holds_append_iff, holds_append_iff] at hlies
    obtain ⟨hn, ⟨hps, his⟩, has⟩ := hlies
    rw [List.length_append, ← Nat.add_assoc] at has
    have hid := (List.getElem?_eq_some_iff.1 hn).1
    cases budget with
    | zero => omega
    | succ budget =>
      have hproperties := hps.mapValues?_placesOfTable fun e he j hj hlie => by
        obtain ⟨c, hc, -, hkey⟩ := hlie.exists_node
        have hlt := (h.link id _ hn j (by simp [Node.links, hj])).1
        have hstands := h.stands_property hstands hn hj hc
        rw [hkey, (hplaced e he).key_eq] at hstands
        exact hproperty e he hlie hstands (show _ ≤ budget + j by omega)
      have hitems := his.mapM_placeOfOption fun c hc hlie => by
        refine helement c (.inl hc) hlie (h.stands_element hstands hn (.inl ?_))
          (show _ ≤ budget + _ by omega)
        simp [Option.mem_def.1 hc]
      have hadditional := has.mapM_placeOfOption fun c hc hlie => by
        refine helement c (.inr hc) hlie (h.stands_element hstands hn (.inr ?_))
          (show _ ≤ budget + _ by omega)
        simp [Option.mem_def.1 hc]
      simp only [schema?, hn, hstands _ hid, hproperties, hitems, hadditional, Option.bind_eq_bind,
        Option.bind_some]
      rfl

/-! ## Methods that are read back -/

/-- A schema of a method is read back. -/
theorem Lies.schema?_eq_of_method {s : Schema} {key : String} {i : Nat} {m : MethodNode}
    (hlies : a.Lies (.method i) id s) (h : a.Forest) (hm : a.methods[i]? = some m)
    (hs : s.Placed (.ofMethod m.id key) key) : a.schema? a.nodes.length id = some s := by
  obtain ⟨n, hn, hparent, hkey⟩ := hlies.exists_node
  have hstands := stands_ofMethod hn hparent hm
  rw [hkey, hs.key_eq] at hstands
  exact hlies.schema?_eq h hs hstands (Nat.le_add_right ..)

/-- A method is read back from every arena that goes on from where it was put down. -/
theorem method?_eq {m : Method} (h : b.Forest) (hab : Extends (a.layMethod m) b)
    (hm : m.Placed) : b.method? a.methods.length = some m := by
  have hmethod := getElem?_of_isPrefix hab.methods List.getElem?_concat_length
  have hnodes := (holds_nodes (a.layMethod m)).extends hab
  simp only [layMethod, holds_append_iff, Nat.zero_add] at hnodes
  obtain ⟨⟨⟨-, hparameters⟩, hrequest⟩, hresponse⟩ := hnodes
  have hparameters := hparameters.mapValues?_placesOfTable fun e he j _ hlie =>
    hlie.schema?_eq_of_method h hmethod (hm.parameters e he)
  have hrequest := hrequest.mapM_placeOfOption fun c hc hlie =>
    hlie.schema?_eq_of_method h hmethod (hm.request c hc)
  have hresponse := hresponse.mapM_placeOfOption fun c hc hlie =>
    hlie.schema?_eq_of_method h hmethod (hm.response c hc)
  simp only [method?, schemaTable?, hmethod, hparameters, hrequest, hresponse, Option.bind_eq_bind,
    Option.bind_some]
  rfl

theorem mapM_method?_layMethods {ms : List Method} (h : b.Forest)
    (hab : Extends (a.layMethods ms) b) (hms : ∀ m ∈ ms, m.Placed) :
    (List.range' a.methods.length ms.length).mapM b.method? = some ms := by
  induction ms generalizing a with
  | nil => rfl
  | cons m ms ih =>
    obtain ⟨hm, hms⟩ := List.forall_mem_cons.1 hms
    have hfirst := method?_eq h ((extends_layMethods (a.layMethod m) ms).trans hab) hm
    have hrest := ih (a := a.layMethod m) hab hms
    have hlength : (a.layMethod m).methods.length = a.methods.length + 1 :=
      List.length_append
    rw [hlength] at hrest
    rw [List.length_cons, List.range'_succ, List.mapM_cons, hfirst, hrest]
    rfl

theorem methodTable?_layResources {rs t : List (String × List Method)} (h : b.Forest)
    (hab : Extends (a.layResources rs) b) (hrs : ∀ r ∈ rs, ∀ m ∈ r.2, m.Placed)
    (ht : b.methodTable? a.resources = some t) : b.methodTable? (a.layResources rs).resources =
      some (rs.foldl (fun t r => Table.insert r.1 r.2 t) t) := by
  induction rs generalizing a t with
  | nil => exact ht
  | cons r rs ih =>
    obtain ⟨hr, hrs⟩ := List.forall_mem_cons.1 hrs
    have hresource := (extends_layResources (a.layResource r) rs).trans hab
    have hmethods : Extends (a.layMethods r.2) b :=
      ⟨hresource.nodes, hresource.methods, hresource.schemas⟩
    exact ih hab hrs (Table.mapValues?_insert ht (mapM_method?_layMethods h hmethods hr) r.1)

/-! ## Documents that are read back -/

section

variable {schemas : Table Schema} {rs : List (String × List Method)}

theorem schemaTable?_lay (h : (lay schemas rs).Forest)
    (hschemas : ∀ e ∈ schemas, Schema.Placed (.topLevel e.1) e.1 e.2) :
    (lay schemas rs).schemaTable? (lay schemas rs).schemas = some schemas := by
  have hextends := extends_layResources {
    nodes := Schema.nodesOfTable .document 0 schemas
    schemas := Schema.placesOfTable .document 0 schemas } rs
  have hnodes := (holds_nodes _).extends hextends
  refine (congrArg (schemaTable? _) hextends.schemas).trans ?_
  refine hnodes.mapValues?_placesOfTable fun e he j _ hlie => ?_
  obtain ⟨n, hn, hparent, hkey⟩ := hlie.exists_node
  have hstands := stands_topLevel hn hparent
  rw [hkey, (hschemas e he).key_eq] at hstands
  exact hlie.schema?_eq h (hschemas e he) hstands (Nat.le_add_right ..)

theorem methodTable?_lay (h : (lay schemas rs).Forest) (hrs : ∀ r ∈ rs, ∀ m ∈ r.2, m.Placed) :
    (lay schemas rs).methodTable? (lay schemas rs).resources = some (Table.ofList rs) :=
  methodTable?_layResources h (.refl _) hrs rfl

end

end Arena

/-- What is known of the parts of a document. -/
theorem DocumentDeclaration.of_parts {text : String} {decl : DocumentDeclaration}
    {schemas : Table Schema} {rs : List (String × List Method)} (hdecl : ofText text = .ok decl)
    (h : decl.parts = .ok (schemas, rs)) : TabledSchemas schemas ∧
      (∀ e ∈ schemas, Schema.Placed (.topLevel e.1) e.1 e.2) ∧
      ∀ r ∈ rs, ∀ m ∈ r.2, m.Placed ∧ m.parameters.names.Nodup := by
  unfold parts at h
  dsimp only at h
  split at h
  · cases h
  · obtain ⟨schemas', hschemas, h⟩ := Except.bind_eq_ok_iff.1 h
    obtain ⟨rs', hrs, h⟩ := Except.bind_eq_ok_iff.1 h
    obtain ⟨rfl, rfl⟩ := Prod.mk.inj (Except.ok.inj h)
    obtain ⟨hsorted, htabled⟩ := tabled_of_ofText hdecl
    refine ⟨tabledSchemas_of_mapM hsorted hschemas, Schema.placed_of_mapM hschemas,
      fun r hr m hm => ?_⟩
    have hmem : (r.1, m) ∈ methodsOf rs' := List.mem_flatMap.2 ⟨r, hr, List.mem_map_of_mem hm⟩
    obtain ⟨x, hx, -, hmethod⟩ := Resolution.exists_mem_of_forall₂
      (Document.forall₂_flattenTable "" _ rs' hrs) _ hmem
    obtain ⟨place, hparameters⟩ := (Method.checked_of_ofDeclaration hmethod).parameters
    exact ⟨Method.placed_of_ofDeclaration hmethod,
      (tabledSchemas_of_mapM (htabled x hx) hparameters).sorted.nodup_names⟩

/-- A text has an arena just if it has a document, and has none for the same fault. -/
theorem Arena.ofText_eq_error_iff {text : String} {fault : Fault} :
    ofText text = .error fault ↔ Document.ofText text = .error fault := by
  unfold ofText Document.ofText
  cases DocumentDeclaration.ofText text with
  | error _ => exact ⟨by rintro ⟨⟩; rfl, by rintro ⟨⟩; rfl⟩
  | ok decl =>
    change ofDeclaration decl = _ ↔ Document.ofDeclaration decl = _
    rw [ofDeclaration_eq, Document.ofDeclaration_eq]
    cases decl.parts with
    | error _ => simp [Except.map]
    | ok parts => simp [Except.map]

/-- The arena for a document is a forest. In it, the ways up and down from a schema end and meet
only what is there, and the ways down from what belongs to the document give the document back. -/
theorem forest_of_ofText {text : String} {d : Document} (h : Document.ofText text = .ok d) :
    ∃ a, Arena.ofText text = .ok a ∧ a.Forest ∧
      (∀ id < a.nodes.length, (a.path? a.nodes.length id).isSome ∧
        (a.root? a.nodes.length id).isSome ∧ (a.schema? a.nodes.length id).isSome) ∧
      a.schemaTable? a.schemas = some d.schemas ∧
      a.methodTable? a.resources = some d.resources := by
  obtain ⟨decl, hdecl, h⟩ := Document.exists_of_ofText h
  rw [Document.ofDeclaration_eq] at h
  cases hparts : decl.parts with
  | error fault =>
    rw [hparts] at h
    cases h
  | ok parts =>
    obtain ⟨schemas, rs⟩ := parts
    rw [hparts] at h
    obtain rfl := Except.ok.inj h
    obtain ⟨htabled, hschemas, hrs⟩ := DocumentDeclaration.of_parts hdecl hparts
    have hforest := Arena.forest_lay htabled fun r hr m hm => (hrs r hr m hm).2
    refine ⟨Arena.lay schemas rs, ?_, hforest, fun id hid => ?_,
      Arena.schemaTable?_lay hforest hschemas,
      Arena.methodTable?_lay hforest fun r hr m hm => (hrs r hr m hm).1⟩
    · rw [Arena.ofText, hdecl]
      exact (Arena.ofDeclaration_eq decl).trans (by rw [hparts]; rfl)
    · obtain ⟨place, hplace⟩ := hforest.exists_stands hid
      obtain ⟨root, hroot, hpath, -⟩ := Arena.place?_eq_some_iff.1 (hplace _ hid)
      exact ⟨by simp [hpath], by simp [hroot], hforest.isSome_schema? hid (Nat.le_add_right ..)⟩

/-- A document with lakes, of which depths are known by season, and with a method. -/
def seasonalLakes : Json := .object [
  ("name", .string "lakes"),
  ("version", .string "v1"),
  ("schemas", .object [("Lake", .object [("properties", .object [("seasons",
    .object [("additionalProperties", .object [("properties", .object [("depths",
      .object [("items", .object [])])])])])])])]),
  ("resources", .object [("lakes", .object [("methods", .object [("add", .object [
    ("path", .string "\x7bsea\x7d"),
    ("parameters", .object [
      ("dry", .object []),
      ("sea", .object [("location", .string "path")])])])])])])]

/-- Items share the path of their owner, and parameters are in no schema at the top level. -/
theorem forest_of_ofText_seasonalLakes :
    ∃ d a, Document.ofText seasonalLakes.compact = .ok d ∧
      Arena.ofText seasonalLakes.compact = .ok a ∧ a.nodes.length = 7 ∧
      a.path? 7 4 = some "schemas.Lake.seasons.depths" ∧ a.root? 7 4 = some (some 0) ∧
      a.path? 7 5 = some "methods.lakes.lakes.add.dry" ∧ a.root? 7 5 = some none ∧ a.Forest ∧
      a.schemaTable? a.schemas = some d.schemas ∧
      a.methodTable? a.resources = some d.resources := by
  have hspells : Json.Spells seasonalLakes.compact seasonalLakes := Json.spells_compact (by
    simp [seasonalLakes, Json.Printable, Json.PrintableMembers])
  have hdeclaration := DocumentDeclaration.ofText_of_spells hspells
  obtain ⟨decl, hdecl, hlakes⟩ : ∃ decl,
      DocumentDeclaration.ofText seasonalLakes.compact = .ok decl ∧
      ((Document.ofDeclaration decl).toOption.any fun _ =>
        (Arena.ofDeclaration decl).toOption.any fun a => decide (a.nodes.length = 7 ∧
          a.path? 7 4 = some "schemas.Lake.seasons.depths" ∧ a.root? 7 4 = some (some 0) ∧
          a.path? 7 5 = some "methods.lakes.lakes.add.dry" ∧ a.root? 7 5 = some none)) = true :=
    exists_eq_ok_of_eq hdeclaration (by decide +kernel)
  obtain ⟨d, hd, hlakes⟩ := exists_eq_ok hlakes
  obtain ⟨a, ha, hpaths⟩ := exists_eq_ok hlakes
  obtain ⟨hlength, hdepths, hroot, hdry, hnone⟩ := of_decide_eq_true hpaths
  have hd : Document.ofText seasonalLakes.compact = .ok d :=
    Except.bind_eq_ok_iff.2 ⟨decl, hdecl, hd⟩
  have ha : Arena.ofText seasonalLakes.compact = .ok a :=
    Except.bind_eq_ok_iff.2 ⟨decl, hdecl, ha⟩
  obtain ⟨a', ha', hforest, -, hschemas, hresources⟩ := forest_of_ofText hd
  obtain rfl := Except.ok.inj (ha.symm.trans ha')
  exact ⟨d, a, hd, ha, hlength, hdepths, hroot, hdry, hnone, hforest, hschemas, hresources⟩

end DiscoveryGrpc.Api
