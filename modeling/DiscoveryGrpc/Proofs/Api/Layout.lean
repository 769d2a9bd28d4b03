import DiscoveryGrpc.Api.Arena
import DiscoveryGrpc.Proofs.Api.Canonical
import DiscoveryGrpc.Proofs.Api.Document

/-!
# How a document lies in an arena

A schema lies in an arena in front of all that it owns: its properties one after the other, then its
items, then its additional properties. So its links are known without putting anything down, and
`Schema.nodes` is what the arena has for a schema from some place on.

Putting down a declaration comes to the same as checking it and laying out the schema
(`Arena.lays`), with the same faults. In the same way `Arena.layMethod` and `Arena.layResource` are
what putting down methods and resources comes to. A whole arena is laid out for the parts of a
document (`Arena.ofDeclaration_eq`), of which the document is made as well
(`Document.ofDeclaration_eq`).
-/

namespace DiscoveryGrpc.Api

open Proto

/-! ## Schemas -/

/-- A schema in an arena before it has links. -/
def SchemaHead.node (parent : Arena.Parent) (h : SchemaHead) : Arena.Node where
  parent := parent
  key := h.key
  id := h.id
  type := h.type
  format := h.format
  reference := h.reference
  description := h.description
  properties := []
  items := none
  additional := none
  enumValues := h.enumValues
  enumDescriptions := h.enumDescriptions
  required := h.required
  repeated := h.repeated
  deprecated := h.deprecated
  location := h.location
  canonical := h.canonical

namespace Schema

mutual

/-- A schema and all that it owns, as they lie from a place on. -/
def nodes (parent : Arena.Parent) (start : Nat) : Schema → List Arena.Node
  | ⟨h, properties, items, additional⟩ =>
    let ps := nodesOfTable (.schema start) (start + 1) properties
    let is := nodesOfOption (.schema start) (start + 1 + ps.length) items
    let as := nodesOfOption (.schema start) (start + 1 + ps.length + is.length) additional
    { h.node parent with
      properties := placesOfTable (.schema start) (start + 1) properties
      items := items.map fun _ => start + 1 + ps.length
      additional := additional.map fun _ => start + 1 + ps.length + is.length } :: (ps ++ is ++ as)

/-- The schemas of a table, one after the other, as they lie from a place on. -/
def nodesOfTable (parent : Arena.Parent) (start : Nat) :
    List (String × Schema) → List Arena.Node
  | [] => []
  | (_, s) :: ss =>
    nodes parent start s ++ nodesOfTable parent (start + (nodes parent start s).length) ss

/-- A schema, if there is one, as it lies at a place. -/
def nodesOfOption (parent : Arena.Parent) (start : Nat) : Option Schema → List Arena.Node
  | none => []
  | some s => nodes parent start s

/-- The places of the schemas of a table, one after the other. -/
def placesOfTable (parent : Arena.Parent) (start : Nat) :
    List (String × Schema) → List (String × Nat)
  | [] => []
  | (key, s) :: ss =>
    (key, start) :: placesOfTable parent (start + (nodes parent start s).length) ss

end

theorem ofTable_eq_mapM (place : Place) (ds : Table Declaration) :
    ofTable place ds = ds.mapM (entryOf place.property) := by
  induction ds with
  | nil => rfl
  | cons e ds ih =>
    rw [ofTable, ih, List.mapM_cons, entryOf, bind_assoc]
    rfl

theorem ofOption_eq_mapM (place : Place) (key : String) (d : Option Declaration) :
    ofOption place key d = d.mapM (ofDeclaration place.element key) := by
  cases d <;> rfl

end Schema

namespace Arena

theorem node_ofDeclaration (parent : Parent) (place : Place) (key : String) (d : Declaration) :
    Node.ofDeclaration parent key d = (Schema.headOf place key d).map (·.node parent) := by
  rw [Node.ofDeclaration, Schema.headOf]
  cases SchemaType.ofText d.type with
  | error fault => rfl
  | ok type =>
    cases Location.ofText d.location with
    | error fault => rfl
    | ok location => rfl

theorem modify_length_append {α : Type} (xs ys : List α) (y : α) (f : α → α) :
    (xs ++ y :: ys).modify xs.length f = xs ++ f y :: ys := by
  induction xs with
  | nil => rfl
  | cons x xs ih => exact congrArg (x :: ·) ih

/-- Putting down a declaration comes to checking it and laying out the schema. -/
def Lays (d : Declaration) : Prop := ∀ parent place key nodes,
  addSchema parent key d nodes = (Schema.ofDeclaration place key d).map fun s =>
    (nodes ++ s.nodes parent nodes.length, nodes.length)

theorem addOption_eq {d : Option Declaration} (h : ∀ c ∈ d, Lays c) (parent : Parent)
    (place : Place) (key : String) (nodes : List Node) : addOption parent key d nodes =
      (d.mapM (Schema.ofDeclaration place key)).map fun s =>
        (nodes ++ Schema.nodesOfOption parent nodes.length s, s.map fun _ => nodes.length) := by
  cases d with
  | none => exact congrArg Except.ok (by simp [Schema.nodesOfOption])
  | some d =>
    rw [addOption, h d rfl parent place key nodes, Option.mapM_some]
    cases Schema.ofDeclaration place key d <;> rfl

theorem addTable_eq {ds : Table Declaration} (h : ∀ c ∈ ds.values, Lays c) (parent : Parent)
    (place : String → Place) (nodes : List Node) : addTable parent ds nodes =
      (ds.mapM (entryOf place)).map fun ss => (nodes ++ Schema.nodesOfTable parent nodes.length ss,
        Schema.placesOfTable parent nodes.length ss) := by
  induction ds generalizing nodes with
  | nil => exact congrArg Except.ok (by simp [Schema.nodesOfTable, Schema.placesOfTable])
  | cons e ds ih =>
    obtain ⟨hd, hds⟩ := List.forall_mem_cons.1 h
    rw [addTable, hd parent (place e.1) e.1 nodes, List.mapM_cons, entryOf]
    cases Schema.ofDeclaration (place e.1) e.1 e.2 with
    | error fault => rfl
    | ok s =>
      change (addTable parent ds (nodes ++ s.nodes parent nodes.length) >>= _) = _
      rw [ih hds]
      cases ds.mapM (entryOf place) with
      | error fault => rfl
      | ok ss =>
        refine congrArg Except.ok ?_
        simp [Schema.nodesOfTable, Schema.placesOfTable]

theorem addOptionTable_eq {ds : Option (Table Declaration)}
    (h : ∀ cs ∈ ds, ∀ c ∈ Table.values cs, Lays c) (parent : Parent) (place : Place)
    (nodes : List Node) : addOptionTable parent ds nodes =
      (Schema.ofOptionTable place ds).map fun ss =>
        (nodes ++ Schema.nodesOfTable parent nodes.length ss,
          Schema.placesOfTable parent nodes.length ss) := by
  cases ds with
  | none => exact congrArg Except.ok (by simp [Schema.nodesOfTable, Schema.placesOfTable])
  | some ds =>
    rw [addOptionTable, Schema.ofOptionTable, Schema.ofTable_eq_mapM]
    exact addTable_eq (h ds rfl) parent place.property nodes

theorem lays (d : Declaration) : Lays d := by
  induction d using Declaration.induct with
  | h d ih =>
    obtain ⟨a, properties, items, additional⟩ := d
    intro parent place key nodes
    have hproperties := addOptionTable_eq fun cs hcs c hc => ih c (.inl ⟨cs, hcs, hc⟩)
    have hitems := addOption_eq fun c hc => ih c (.inr (.inl hc))
    have hadditional := addOption_eq fun c hc => ih c (.inr (.inr hc))
    rw [addSchema, node_ofDeclaration parent place, Schema.ofDeclaration,
      Schema.ofOption_eq_mapM, Schema.ofOption_eq_mapM]
    cases Schema.headOf place key ⟨a, properties, items, additional⟩ with
    | error fault => rfl
    | ok head =>
      change (addOptionTable (.schema nodes.length) properties (nodes ++ [head.node parent])
        >>= _) = _
      rw [hproperties _ place]
      cases Schema.ofOptionTable place properties with
      | error fault => rfl
      | ok ps =>
        change (addOption (.schema nodes.length) key items _ >>= _) = _
        rw [hitems _ place.element]
        cases items.mapM (Schema.ofDeclaration place.element key) with
        | error fault => rfl
        | ok is =>
          change (addOption (.schema nodes.length) key additional _ >>= _) = _
          rw [hadditional _ place.element]
          cases additional.mapM (Schema.ofDeclaration place.element key) with
          | error fault => rfl
          | ok as =>
            refine congrArg Except.ok (Prod.ext ?_ rfl)
            -- the links are put in where the schema lies
            simp only [List.append_assoc, List.cons_append]
            rw [modify_length_append]
            simp [Schema.nodes, Nat.add_assoc, Nat.add_comm 1]

/-! ## Methods -/

/-- The arena with a method, after its parameters and its bodies. -/
def layMethod (a : Arena) (m : Method) : Arena :=
  let parent := Parent.method a.methods.length
  let parameters := Schema.placesOfTable parent a.nodes.length m.parameters
  let first := a.nodes ++ Schema.nodesOfTable parent a.nodes.length m.parameters
  let second := first ++ Schema.nodesOfOption parent first.length m.request
  { a with
    nodes := second ++ Schema.nodesOfOption parent second.length m.response
    methods := a.methods ++ [{
      id := m.id
      resource := m.resource
      description := m.description
      httpMethod := m.httpMethod
      path := m.path
      flatPath := m.flatPath
      parameters
      pathParameters := parameters.filter fun p => isInPath first p.2
      queryParameters := parameters.filter fun p => !isInPath first p.2
      parameterOrder := m.parameterOrder
      requiredParameters := requiredNames first parameters m.parameterOrder
      request := m.request.map fun _ => first.length
      response := m.response.map fun _ => second.length
      scopes := m.scopes
      apiVersion := m.apiVersion }] }

theorem bodyOf_eq_mapM (id key : String) (d : Option Declaration) : Method.bodyOf id key d =
    d.mapM (Schema.ofDeclaration (.ofMethod id key) key) := by
  cases d <;> rfl

theorem addMethod_eq (document resource key : String) (d : MethodDeclaration) (a : Arena) :
    addMethod document resource key d a =
      (Method.ofDeclaration document resource key d).map fun m =>
        (a.layMethod m, a.methods.length) := by
  unfold addMethod Method.ofDeclaration
  dsimp only
  cases d.path with
  | none => rfl
  | some path =>
    generalize d.id.getD s!"{document}.{resource}.{key}" = id
    cases d.flatPath <;> dsimp only
    case' some flat => cases normalizePath path flat
    case some.error fault => rfl
    -- with the template of the path, or with one that was normalised
    all_goals
      change (addTable _ (d.parameters.getD []) a.nodes >>= _) =
        Except.map _ ((d.parameters.getD []).mapM (entryOf (Place.ofMethod id)) >>= _)
      rw [addTable_eq (fun c _ => lays c) _ (Place.ofMethod id)]
      cases (d.parameters.getD []).mapM (entryOf (Place.ofMethod id)) with
      | error fault => rfl
      | ok parameters =>
        change (addOption _ "request" d.request _ >>= _) =
          Except.map _ (Method.bodyOf id "request" d.request >>= _)
        rw [addOption_eq (fun c _ => lays c) _ (Place.ofMethod id "request"), bodyOf_eq_mapM]
        cases d.request.mapM (Schema.ofDeclaration (.ofMethod id "request") "request") with
        | error fault => rfl
        | ok request =>
          change (addOption _ "response" d.response _ >>= _) =
            Except.map _ (Method.bodyOf id "response" d.response >>= _)
          rw [addOption_eq (fun c _ => lays c) _ (Place.ofMethod id "response"), bodyOf_eq_mapM]
          cases d.response.mapM (Schema.ofDeclaration (.ofMethod id "response") "response") <;> rfl

/-- The arena with methods, one after the other. -/
def layMethods (a : Arena) (ms : List Method) : Arena := ms.foldl layMethod a

theorem length_methods_layMethods (a : Arena) (ms : List Method) :
    (a.layMethods ms).methods.length = a.methods.length + ms.length := by
  induction ms generalizing a with
  | nil => rfl
  | cons m ms ih =>
    rw [layMethods, List.foldl_cons, ← layMethods, ih, layMethod, List.length_cons]
    simp
    omega

theorem addMethods_eq (document resource : String) (ds : List (String × MethodDeclaration))
    (a : Arena) : addMethods document resource ds a =
      (ds.mapM fun e => Method.ofDeclaration document resource e.1 e.2).map fun ms =>
        (a.layMethods ms, List.range' a.methods.length ms.length) := by
  induction ds generalizing a with
  | nil => rfl
  | cons e ds ih =>
    obtain ⟨key, d⟩ := e
    rw [addMethods, addMethod_eq, List.mapM_cons]
    dsimp only
    cases Method.ofDeclaration document resource key d with
    | error fault => rfl
    | ok m =>
      change (addMethods document resource ds (a.layMethod m) >>= _) = _
      rw [ih]
      cases ds.mapM fun e => Method.ofDeclaration document resource e.1 e.2 with
      | error fault => rfl
      | ok ms =>
        refine congrArg Except.ok (Prod.ext rfl ?_)
        simp [layMethod, List.range'_succ]

/-! ## Resources -/

/-- The arena with the methods of a resource. -/
def layResource (a : Arena) (resource : String × List Method) : Arena :=
  { a.layMethods resource.2 with
    resources := a.resources.insert resource.1
      (List.range' a.methods.length resource.2.length) }

/-- The arena with the methods of resources, one after the other. -/
def layResources (a : Arena) (rs : List (String × List Method)) : Arena := rs.foldl layResource a

theorem resources_layMethods (a : Arena) (ms : List Method) :
    (a.layMethods ms).resources = a.resources := by
  induction ms generalizing a with
  | nil => rfl
  | cons m ms ih => exact ih (a.layMethod m)

mutual

theorem addResource_eq (document key : String) : (d : ResourceDeclaration) → (a : Arena) →
    addResource document key d a = (Document.flatten document key d).map a.layResources
  | ⟨methods, resources⟩, a => by
    rw [addResource, addMethods_eq, Document.flatten]
    change _ = Except.map _
      ((methods.getD []).mapM (fun e => Method.ofDeclaration document key e.1 e.2) >>= _)
    cases (methods.getD []).mapM fun e => Method.ofDeclaration document key e.1 e.2 with
    | error fault => rfl
    | ok ms =>
      cases ms with
      | nil =>
        change addResourceOption document key resources a = _
        rw [addResourceOption_eq document key resources]
        change _ = Except.map _ (Document.flattenOption document key resources >>= _)
        cases Document.flattenOption document key resources <;> rfl
      | cons m ms =>
        change addResourceOption document key resources
          { a.layMethods (m :: ms) with resources := _ } = _
        rw [addResourceOption_eq document key resources, resources_layMethods]
        change _ = Except.map _ (Document.flattenOption document key resources >>= _)
        cases Document.flattenOption document key resources <;> rfl

theorem addResourceOption_eq (document key : String) :
    (ds : Option (List (String × ResourceDeclaration))) → (a : Arena) →
    addResourceOption document key ds a =
      (Document.flattenOption document key ds).map a.layResources
  | none, _ => rfl
  | some ds, a => addResourceTable_eq document (key ++ ".") ds a

theorem addResourceTable_eq (document start : String) :
    (ds : List (String × ResourceDeclaration)) → (a : Arena) →
    addResourceTable document start ds a =
      (Document.flattenTable document start ds).map a.layResources
  | [], _ => rfl
  | (key, d) :: ds, a => by
    rw [addResourceTable, addResource_eq document _ d, Document.flattenTable]
    cases Document.flatten document (start ++ key) d with
    | error fault => rfl
    | ok here =>
      change addResourceTable document start ds (a.layResources here) =
        Except.map _ (Document.flattenTable document start ds >>= _)
      rw [addResourceTable_eq document start ds]
      cases Document.flattenTable document start ds with
      | error fault => rfl
      | ok rest => exact congrArg Except.ok (List.foldl_append ..).symm

end

/-! ## Documents -/

/-- The arena for schemas at the top level and for the methods of resources. -/
def lay (schemas : Table Schema) (rs : List (String × List Method)) : Arena :=
  layResources {
    nodes := Schema.nodesOfTable .document 0 schemas
    schemas := Schema.placesOfTable .document 0 schemas } rs

end Arena

/-- What a document is made of, checked: its schemas, and its resources as they are declared. -/
def DocumentDeclaration.parts (d : DocumentDeclaration) :
    Except Fault (Table Schema × List (String × List Method)) := do
  let name := d.name.getD ""
  let version := d.version.getD ""
  if name.isEmpty || version.isEmpty then throw .unnamedDocument
  let schemas ← (d.schemas.getD []).mapM (entryOf .topLevel)
  let resources ← Document.flattenTable name "" (d.resources.getD [])
  return (schemas, resources)

/-- An arena is laid out for what its document is made of. -/
theorem Arena.ofDeclaration_eq (d : DocumentDeclaration) :
    ofDeclaration d = d.parts.map fun (schemas, rs) => lay schemas rs := by
  unfold ofDeclaration DocumentDeclaration.parts
  dsimp only
  split
  · rfl
  · rw [addTable_eq (fun c _ => lays c) .document .topLevel]
    cases (d.schemas.getD []).mapM (entryOf .topLevel) with
    | error fault => rfl
    | ok schemas =>
      change addResourceTable _ "" (d.resources.getD []) _ = _
      rw [addResourceTable_eq]
      change _ = Except.map _ (Document.flattenTable _ "" (d.resources.getD []) >>= _)
      cases Document.flattenTable (d.name.getD "") "" (d.resources.getD []) <;> rfl

/-- A document is made of the same parts. -/
theorem Document.ofDeclaration_eq (d : DocumentDeclaration) :
    ofDeclaration d = d.parts.map fun (schemas, rs) => {
      name := d.name.getD ""
      version := d.version.getD ""
      revision := d.revision.getD ""
      title := d.title.getD ""
      description := d.description.getD ""
      rootUrl := d.rootUrl.getD ""
      servicePath := d.servicePath.getD ""
      schemas
      resources := Table.ofList rs } := by
  unfold ofDeclaration DocumentDeclaration.parts
  dsimp only
  split
  · rfl
  · change ((d.schemas.getD []).mapM (entryOf .topLevel) >>= _) = _
    cases (d.schemas.getD []).mapM (entryOf .topLevel) with
    | error fault => rfl
    | ok schemas =>
      change (Document.flattenTable _ "" (d.resources.getD []) >>= _) =
        Except.map _ (Document.flattenTable _ "" (d.resources.getD []) >>= _)
      cases Document.flattenTable (d.name.getD "") "" (d.resources.getD []) <;> rfl

end DiscoveryGrpc.Api
