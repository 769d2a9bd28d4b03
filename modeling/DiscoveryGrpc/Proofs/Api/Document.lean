import DiscoveryGrpc.Proofs.Api.Schema
import DiscoveryGrpc.Proofs.Json.Record
import DiscoveryGrpc.Proofs.Json.Spelling
import DiscoveryGrpc.Proofs.Proto.Parsed

/-!
# Documents of texts

What is known of a document because it was read from a text. The tables of a text are in order, and
so are those of the document (`Document.Tabled`), which stores schemas under their keys.

Resources are written as a tree, of which `ResourceDeclaration.declared` lists the methods. The
document has its resources flat, in a table by dotted key: `Document.exists_of_ofText` gives the
list that the table is made of, and `forall₂_flattenTable` says that this list has the methods of
the tree, all of them, each one for itself.
-/

namespace DiscoveryGrpc

open Proto

namespace Api

/-! ## Schemas -/

theorem Schema.key_of_ofDeclaration {place : Place} {key : String} {decl : Declaration} {s : Schema}
    (h : Schema.ofDeclaration place key decl = .ok s) : s.key = key := by
  obtain ⟨attributes, properties, items, additional⟩ := decl
  obtain ⟨head, hhead, h⟩ := Except.bind_eq_ok_iff.1 h
  obtain ⟨properties, -, h⟩ := Except.bind_eq_ok_iff.1 h
  obtain ⟨items, -, h⟩ := Except.bind_eq_ok_iff.1 h
  obtain ⟨additional, -, h⟩ := Except.bind_eq_ok_iff.1 h
  obtain rfl := Except.ok.inj h
  obtain ⟨type, -, hhead⟩ := Except.bind_eq_ok_iff.1 hhead
  obtain ⟨location, -, hhead⟩ := Except.bind_eq_ok_iff.1 hhead
  obtain rfl := Except.ok.inj hhead
  rfl

/-- A table of schemas is in order and stores them under their keys. -/
structure TabledSchemas (t : Table Schema) : Prop where
  sorted : t.Sorted
  keys : ∀ e ∈ t, e.2.key = e.1

/-- A declaration under its key as a schema under that key. -/
def entryOf (place : String → Place) (e : String × Declaration) :
    Except Fault (String × Schema) := do
  let s ← Schema.ofDeclaration (place e.1) e.1 e.2
  return (e.1, s)

theorem keys_of_entryOf {place : String → Place} {e : String × Declaration} {e' : String × Schema}
    (h : entryOf place e = .ok e') : e'.1 = e.1 ∧ e'.2.key = e'.1 := by
  obtain ⟨s, hs, h⟩ := Except.bind_eq_ok_iff.1 h
  obtain rfl := Except.ok.inj h
  exact ⟨rfl, Schema.key_of_ofDeclaration hs⟩

theorem tabledSchemas_of_mapM {place : String → Place} {ds : Table Declaration} {t : Table Schema}
    (hds : ds.Sorted) (h : ds.mapM (entryOf place) = .ok t) : TabledSchemas t := by
  have hall := Resolution.forall₂_of_mapM h
  have hnames : t.names = ds.names := by
    symm
    rw [Table.names, Table.names, ← List.forall₂_eq_eq_eq, List.forall₂_map_left_iff,
      List.forall₂_map_right_iff]
    exact hall.imp fun _ _ he => (keys_of_entryOf he).1.symm
  refine ⟨hds.of_names hnames, fun e' he' => ?_⟩
  obtain ⟨e, -, he⟩ := Resolution.exists_mem_of_forall₂ hall e' he'
  exact (keys_of_entryOf he).2

theorem Declaration.sorted_of_readTable {budget : Nat} {v : Json} {t : Table Declaration}
    (h : readTable budget v = some t) : t.Sorted := by
  cases budget with
  | zero => cases h
  | succ budget => exact (Json.of_table? h).1

/-! ## Methods -/

/-- The parameters of a method as it is written are in order. -/
def MethodDeclaration.Tabled (m : MethodDeclaration) : Prop :=
  Table.Sorted (m.parameters.getD [])

theorem MethodDeclaration.tabled_of_read {budget : Nat} {v : Json} {m : MethodDeclaration}
    (h : read budget v = some m) : m.Tabled := by
  cases budget with
  | zero => cases h
  | succ budget =>
    obtain ⟨r, -, h⟩ := Option.bind_eq_some_iff.1 h
    simp only [Option.bind_eq_bind, Option.bind_eq_some_iff] at h
    obtain ⟨id, -, path, -, flatPath, -, httpMethod, -, description, -, parameters, hparameters,
      parameterOrder, -, request, -, response, -, scopes, -, apiVersion, -, h⟩ := h
    obtain rfl := Option.some.inj h
    cases parameters with
    | none => exact List.Pairwise.nil
    | some t =>
      obtain ⟨v, hv⟩ := Json.Record.exists_of_optional hparameters
      exact Declaration.sorted_of_readTable hv

/-- What is known of a method from what is written. -/
structure Method.Checked (decl : MethodDeclaration) (m : Method) : Prop where
  path : decl.path = some m.path
  /-- Without a flat path, the template is made of the path. -/
  plain : decl.flatPath = none → m.flatPath = plainPath m.path
  flat : ∀ flat ∈ decl.flatPath, normalizePath m.path flat = .ok m.flatPath
  /-- Parameters are checked one by one. -/
  parameters : ∃ place, (decl.parameters.getD []).mapM (entryOf place) = .ok m.parameters

theorem Method.checked_of_ofDeclaration {document resource key : String}
    {decl : MethodDeclaration} {m : Method}
    (h : Method.ofDeclaration document resource key decl = .ok m) : m.Checked decl := by
  unfold Method.ofDeclaration at h
  cases hpath : decl.path with
  | none =>
    simp only [hpath] at h
    cases h
  | some path =>
    cases hflatPath : decl.flatPath
    all_goals
      simp only [hpath, hflatPath] at h
      obtain ⟨flatPath, hflat, h⟩ := Except.bind_eq_ok_iff.1 h
      obtain ⟨parameters, hparameters, h⟩ := Except.bind_eq_ok_iff.1 h
      obtain ⟨request, -, h⟩ := Except.bind_eq_ok_iff.1 h
      obtain ⟨response, -, h⟩ := Except.bind_eq_ok_iff.1 h
      obtain rfl := Except.ok.inj h
    case none =>
      exact ⟨hpath, fun _ => (Except.ok.inj hflat).symm, by simp [hflatPath], _, hparameters⟩
    case some flat =>
      refine ⟨hpath, by simp [hflatPath], fun flat' hflat' => ?_, _, hparameters⟩
      obtain rfl := Option.some.inj (hflatPath.symm.trans hflat')
      exact hflat

/-! ## Resources -/

/-- A method as it is written, with its own key and the dotted key of its resource. -/
structure DeclaredMethod where
  resource : String
  key : String
  declaration : MethodDeclaration

namespace ResourceDeclaration

mutual

/-- The methods of a resource with a dotted key and of those nested in it. -/
def declared (key : String) : ResourceDeclaration → List DeclaredMethod
  | ⟨methods, resources⟩ =>
    (methods.getD []).map (fun e => ⟨key, e.1, e.2⟩) ++ declaredOption key resources

/-- The methods of the resources nested under a dotted key, where there may be none. -/
def declaredOption (key : String) :
    Option (List (String × ResourceDeclaration)) → List DeclaredMethod
  | none => []
  | some ds => declaredTable (key ++ ".") ds

/-- The methods of the resources in a table whose keys follow a prefix. -/
def declaredTable (start : String) : List (String × ResourceDeclaration) → List DeclaredMethod
  | [] => []
  | (key, d) :: ds => declared (start ++ key) d ++ declaredTable start ds

end

mutual

theorem tabled_of_read : (budget : Nat) → (v : Json) → (d : ResourceDeclaration) →
    read budget v = some d → ∀ key, ∀ x ∈ d.declared key, x.declaration.Tabled
  | 0, _, _, h => by cases h
  | budget + 1, v, d, h => by
    obtain ⟨r, -, h⟩ := Option.bind_eq_some_iff.1 h
    obtain ⟨methods, hmethods, h⟩ := Option.bind_eq_some_iff.1 h
    obtain ⟨resources, hresources, h⟩ := Option.bind_eq_some_iff.1 h
    obtain rfl := Option.some.inj h
    intro key x hx
    rw [declared] at hx
    rcases List.mem_append.1 hx with hx | hx
    · obtain ⟨e, he, rfl⟩ := List.mem_map.1 hx
      cases methods with
      | none => cases he
      | some ms =>
        obtain ⟨v, hv⟩ := Json.Record.exists_of_optional hmethods
        obtain ⟨v', hv'⟩ := (Json.of_table? hv).2 e he
        exact MethodDeclaration.tabled_of_read hv'
    · cases resources with
      | none => cases hx
      | some ds =>
        obtain ⟨v, hv⟩ := Json.Record.exists_of_optional hresources
        exact tabled_of_readTable budget v ds hv _ x hx

theorem tabled_of_readTable : (budget : Nat) → (v : Json) →
    (ds : List (String × ResourceDeclaration)) → readTable budget v = some ds →
    ∀ start, ∀ x ∈ declaredTable start ds, x.declaration.Tabled
  | 0, _, _, h => by cases h
  | budget + 1, v, ds, h => by
    have hread := (Json.of_table? h).2
    clear h
    intro start x hx
    induction ds with
    | nil => cases hx
    | cons e ds ih =>
      rw [declaredTable] at hx
      rcases List.mem_append.1 hx with hx | hx
      · obtain ⟨v, hv⟩ := hread e List.mem_cons_self
        exact tabled_of_read budget v e.2 hv _ x hx
      · exact ih (fun e he => hread e (List.mem_cons_of_mem _ he)) hx

end

end ResourceDeclaration

/-- The methods that a document declares, in all its resources. -/
def DocumentDeclaration.declared (d : DocumentDeclaration) : List DeclaredMethod :=
  ResourceDeclaration.declaredTable "" (d.resources.getD [])

theorem DocumentDeclaration.tabled_of_ofText {text : String} {d : DocumentDeclaration}
    (h : ofText text = .ok d) :
    Table.Sorted (d.schemas.getD []) ∧ ∀ x ∈ d.declared, x.declaration.Tabled := by
  obtain ⟨v, hv⟩ : ∃ v, ofJson? v = some d := by
    unfold ofText at h
    split at h
    · cases h
    · rename_i v _
      split at h
      · cases h
      · rename_i d' hd
        exact ⟨v, Except.ok.inj h ▸ hd⟩
  obtain ⟨r, -, hv⟩ := Option.bind_eq_some_iff.1 hv
  simp only [Option.bind_eq_bind, Option.bind_eq_some_iff] at hv
  obtain ⟨name, -, version, -, revision, -, title, -, description, -, rootUrl, -, servicePath, -,
    schemas, hschemas, resources, hresources, hv⟩ := hv
  obtain rfl := Option.some.inj hv
  constructor
  · cases schemas with
    | none => exact List.Pairwise.nil
    | some t =>
      obtain ⟨v, hv⟩ := Json.Record.exists_of_optional hschemas
      exact Declaration.sorted_of_readTable hv
  · cases resources with
    | none => exact fun x hx => by cases hx
    | some ds =>
      obtain ⟨v, hv⟩ := Json.Record.exists_of_optional hresources
      exact ResourceDeclaration.tabled_of_readTable _ v ds hv ""

/-- The document as it is written that a value stands for. -/
def DocumentDeclaration.ofJson (v : Json) : Except Fault DocumentDeclaration :=
  match ofJson? v with
  | none => .error .unreadableDocument
  | some d => .ok d

theorem DocumentDeclaration.ofText_of_spells {text : String} {v : Json} (h : Json.Spells text v) :
    ofText text = ofJson v := by
  rw [ofText, Json.ofText?_of_spells h]
  rfl

/-- The methods of resources by the dotted keys of these. -/
def methodsOf (entries : List (String × List Method)) : List (String × Method) :=
  entries.flatMap fun e => e.2.map (e.1, ·)

/-- A method of a document is the one that a declaration stands for. -/
def StandsFor (document : String) (x : DeclaredMethod) (y : String × Method) : Prop :=
  y.1 = x.resource ∧ Method.ofDeclaration document x.resource x.key x.declaration = .ok y.2

namespace Document

variable {document : String}

mutual

theorem forall₂_flatten (key : String) : (d : ResourceDeclaration) →
    (entries : List (String × List Method)) → flatten document key d = .ok entries →
    List.Forall₂ (StandsFor document) (d.declared key) (methodsOf entries)
  | ⟨methods, resources⟩, entries, h => by
    obtain ⟨own, hown, h⟩ := Except.bind_eq_ok_iff.1 h
    obtain ⟨nested, hnested, h⟩ := Except.bind_eq_ok_iff.1 h
    have hmethods : methodsOf entries = own.map (key, ·) ++ methodsOf nested := by
      obtain rfl := Except.ok.inj h
      cases own <;> simp [methodsOf]
    rw [hmethods, ResourceDeclaration.declared]
    refine List.rel_append ?_ (forall₂_flattenOption key resources nested hnested)
    rw [List.forall₂_map_left_iff, List.forall₂_map_right_iff]
    exact (Resolution.forall₂_of_mapM hown).imp fun _ _ he => ⟨rfl, he⟩

theorem forall₂_flattenOption (key : String) :
    (ds : Option (List (String × ResourceDeclaration))) →
    (entries : List (String × List Method)) → flattenOption document key ds = .ok entries →
    List.Forall₂ (StandsFor document) (ResourceDeclaration.declaredOption key ds)
      (methodsOf entries)
  | none, entries, h => by
    obtain rfl : [] = entries := Except.ok.inj h
    exact .nil
  | some ds, entries, h => forall₂_flattenTable (key ++ ".") ds entries h

theorem forall₂_flattenTable (start : String) : (ds : List (String × ResourceDeclaration)) →
    (entries : List (String × List Method)) → flattenTable document start ds = .ok entries →
    List.Forall₂ (StandsFor document) (ResourceDeclaration.declaredTable start ds)
      (methodsOf entries)
  | [], entries, h => by
    obtain rfl : [] = entries := Except.ok.inj h
    exact .nil
  | (key, d) :: ds, entries, h => by
    obtain ⟨here, hhere, h⟩ := Except.bind_eq_ok_iff.1 h
    obtain ⟨rest, hrest, h⟩ := Except.bind_eq_ok_iff.1 h
    obtain rfl := Except.ok.inj h
    rw [ResourceDeclaration.declaredTable, methodsOf, List.flatMap_append]
    exact List.rel_append (forall₂_flatten _ d here hhere)
      (forall₂_flattenTable start ds rest hrest)

end

/-! ## The whole document -/

/-- A document whose tables are in order, with schemas under their keys. -/
structure Tabled (d : Document) : Prop where
  schemas : TabledSchemas d.schemas
  resources : d.resources.Sorted
  parameters : ∀ resource ∈ d.resources, ∀ m ∈ resource.2, TabledSchemas m.parameters

theorem exists_of_ofDeclaration {decl : DocumentDeclaration} {d : Document}
    (h : ofDeclaration decl = .ok d) :
    (decl.schemas.getD []).mapM (entryOf Place.topLevel) = .ok d.schemas ∧
      ∃ entries, flattenTable d.name "" (decl.resources.getD []) = .ok entries ∧
        d.resources = Table.ofList entries := by
  unfold ofDeclaration at h
  dsimp only at h
  split at h
  · cases h
  · obtain ⟨schemas, hschemas, h⟩ := Except.bind_eq_ok_iff.1 h
    obtain ⟨entries, hentries, h⟩ := Except.bind_eq_ok_iff.1 h
    obtain rfl := Except.ok.inj h
    exact ⟨hschemas, entries, hentries, rfl⟩

/-- The document in a text of a value. -/
theorem ofText_of_spells {text : String} {v : Json} (h : Json.Spells text v) :
    ofText text = DocumentDeclaration.ofJson v >>= ofDeclaration := by
  rw [ofText, DocumentDeclaration.ofText_of_spells h]

theorem exists_of_ofText {text : String} {d : Document} (h : ofText text = .ok d) :
    ∃ decl, DocumentDeclaration.ofText text = .ok decl ∧ ofDeclaration decl = .ok d :=
  Except.bind_eq_ok_iff.1 h

/-- Every method of a document was checked from one that is declared. -/
theorem exists_declared {decl : DocumentDeclaration} {d : Document} (h : ofDeclaration decl = .ok d)
    {resource : String × List Method} (hresource : resource ∈ d.resources) {m : Method}
    (hm : m ∈ resource.2) : ∃ x ∈ decl.declared, StandsFor d.name x (resource.1, m) := by
  obtain ⟨-, entries, hentries, hresources⟩ := exists_of_ofDeclaration h
  have hmem : (resource.1, m) ∈ methodsOf entries :=
    List.mem_flatMap.2 ⟨resource, Table.mem_ofList (hresources ▸ hresource),
      List.mem_map_of_mem hm⟩
  exact Resolution.exists_mem_of_forall₂ (forall₂_flattenTable "" _ entries hentries) _ hmem

/-- A document that is read from a text has its tables in order. -/
theorem tabled_of_ofText {text : String} {d : Document} (h : ofText text = .ok d) : d.Tabled := by
  obtain ⟨decl, hdecl, h⟩ := exists_of_ofText h
  obtain ⟨hschemas, entries, -, hresources⟩ := exists_of_ofDeclaration h
  obtain ⟨hsorted, htabled⟩ := DocumentDeclaration.tabled_of_ofText hdecl
  refine ⟨tabledSchemas_of_mapM hsorted hschemas, hresources ▸ Table.sorted_ofList entries,
    fun resource hresource m hm => ?_⟩
  obtain ⟨x, hx, -, hmethod⟩ := exists_declared h hresource hm
  obtain ⟨place, hparameters⟩ := (Method.checked_of_ofDeclaration hmethod).parameters
  exact tabledSchemas_of_mapM (htabled x hx) hparameters

end Document

/-- Whether something is so for all methods that are declared, as they are in the document. -/
def DocumentDeclaration.allMethods (decl : DocumentDeclaration)
    (p : DeclaredMethod → Method → Bool) : Bool :=
  (Document.ofDeclaration decl).toOption.all fun d => decl.declared.all fun x =>
    (Method.ofDeclaration d.name x.resource x.key x.declaration).toOption.all (p x)

theorem DocumentDeclaration.of_allMethods {decl : DocumentDeclaration} {d : Document}
    {p : DeclaredMethod → Method → Bool} (h : decl.allMethods p = true)
    (hd : Document.ofDeclaration decl = .ok d) {x : DeclaredMethod} (hx : x ∈ decl.declared)
    {m : Method} (hm : Method.ofDeclaration d.name x.resource x.key x.declaration = .ok m) :
    p x m = true := by
  rw [allMethods, hd] at h
  have hx := List.all_eq_true.1 h x hx
  rw [hm] at hx
  exact hx

end Api

end DiscoveryGrpc
