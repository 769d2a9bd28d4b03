import DiscoveryGrpc.Proofs.Api.Document
import DiscoveryGrpc.Proofs.Seen

/-!
# Documents without documentation

Titles and descriptions can be taken away from a document before or after it is checked, with the
same result (`Document.ofDeclaration_undocumented`): nothing is checked about them, and the
canonical text of a schema leaves them out already. So of two declarations that differ in nothing
else, either both stand for documents that differ in nothing else, or both are refused for the same
reason.
-/

namespace DiscoveryGrpc

namespace Api

/-! ## Schemas -/

namespace Declaration

mutual

/-- Taking documentation away twice is taking it away once. -/
theorem undocumented_undocumented : (d : Declaration) →
    d.undocumented.undocumented = d.undocumented
  | ⟨a, properties, items, additional⟩ => by
    rw [undocumented, undocumented, optionTableUndocumented_twice properties,
      optionUndocumented_twice items, optionUndocumented_twice additional]

theorem optionUndocumented_twice : (d : Option Declaration) →
    optionUndocumented (optionUndocumented d) = optionUndocumented d
  | none => rfl
  | some d => congrArg some (undocumented_undocumented d)

theorem optionTableUndocumented_twice : (ds : Option (List (String × Declaration))) →
    optionTableUndocumented (optionTableUndocumented ds) = optionTableUndocumented ds
  | none => rfl
  | some ds => congrArg some (tableUndocumented_twice ds)

theorem tableUndocumented_twice : (ds : List (String × Declaration)) →
    tableUndocumented (tableUndocumented ds) = tableUndocumented ds
  | [] => rfl
  | (name, d) :: ds => by
    rw [tableUndocumented, tableUndocumented, undocumented_undocumented d,
      tableUndocumented_twice ds]

end

/-- The canonical text leaves documentation out. -/
theorem canonical_undocumented (d : Declaration) : d.undocumented.canonical = d.canonical := by
  rw [canonical, undocumented_undocumented, canonical]

end Declaration

/-- What a schema says of itself, without documentation. -/
def SchemaHead.undocumented (h : SchemaHead) : SchemaHead :=
  { h with description := "", enumDescriptions := [] }

section

variable (h : SchemaHead)

@[simp]
theorem SchemaHead.undocumented_type : h.undocumented.type = h.type := rfl

@[simp]
theorem SchemaHead.undocumented_key : h.undocumented.key = h.key := rfl

@[simp]
theorem SchemaHead.undocumented_place : h.undocumented.place = h.place := rfl

@[simp]
theorem SchemaHead.undocumented_format : h.undocumented.format = h.format := rfl

@[simp]
theorem SchemaHead.undocumented_reference : h.undocumented.reference = h.reference := rfl

@[simp]
theorem SchemaHead.undocumented_isReference : h.undocumented.isReference = h.isReference := rfl

@[simp]
theorem SchemaHead.undocumented_isEnum : h.undocumented.isEnum = h.isEnum := rfl

end

namespace Schema

mutual

/-- A schema without documentation, at any depth. -/
def undocumented : Schema → Schema
  | ⟨h, properties, items, additional⟩ =>
    ⟨h.undocumented, tableUndocumented properties, optionUndocumented items,
      optionUndocumented additional⟩

/-- A schema that may be missing, without documentation. -/
def optionUndocumented : Option Schema → Option Schema
  | none => none
  | some s => some (undocumented s)

/-- A table of schemas without documentation. -/
def tableUndocumented : List (String × Schema) → List (String × Schema)
  | [] => []
  | (key, s) :: ss => (key, undocumented s) :: tableUndocumented ss

end

theorem tableUndocumented_eq (t : Table Schema) :
    tableUndocumented t = t.mapValues undocumented := by
  induction t with
  | nil => rfl
  | cons e t ih => rw [tableUndocumented, ih]; rfl

theorem undocumented_toSchemaHead (s : Schema) :
    s.undocumented.toSchemaHead = s.toSchemaHead.undocumented := by
  cases s
  rfl

theorem undocumented_isObject (s : Schema) : s.undocumented.isObject = s.isObject := by
  obtain ⟨h, properties, items, additional⟩ := s
  cases additional <;> rfl

theorem headOf_undocumented (place : Place) (key : String) (d : Declaration) :
    headOf place key d.undocumented = (headOf place key d).map SchemaHead.undocumented := by
  have hcanonical := d.canonical_undocumented
  obtain ⟨a, properties, items, additional⟩ := d
  rw [Declaration.undocumented] at hcanonical ⊢
  simp only [headOf, hcanonical]
  exact Except.bind_same fun type => Except.bind_same fun location => rfl

mutual

/-- Documentation is taken away before or after a schema is checked. -/
theorem ofDeclaration_undocumented (place : Place) (key : String) : (d : Declaration) →
    ofDeclaration place key d.undocumented = (ofDeclaration place key d).map undocumented
  | ⟨a, properties, items, additional⟩ => by
    have hhead := headOf_undocumented place key ⟨a, properties, items, additional⟩
    rw [Declaration.undocumented] at hhead ⊢
    rw [ofDeclaration, ofDeclaration]
    refine Except.bind_eq_map hhead fun head => ?_
    refine Except.bind_eq_map (ofOptionTable_undocumented place properties) fun _ => ?_
    refine Except.bind_eq_map (ofOption_undocumented place key items) fun _ => ?_
    exact Except.bind_eq_map (ofOption_undocumented place key additional) fun _ => rfl

theorem ofOption_undocumented (place : Place) (key : String) : (d : Option Declaration) →
    ofOption place key (Declaration.optionUndocumented d) =
      (ofOption place key d).map optionUndocumented
  | none => rfl
  | some d => by
    rw [Declaration.optionUndocumented, ofOption, ofOption]
    exact Except.bind_eq_map (ofDeclaration_undocumented _ key d) fun _ => rfl

theorem ofOptionTable_undocumented (place : Place) :
    (ds : Option (List (String × Declaration))) →
    ofOptionTable place (Declaration.optionTableUndocumented ds) =
      (ofOptionTable place ds).map tableUndocumented
  | none => rfl
  | some ds => ofTable_undocumented place ds

theorem ofTable_undocumented (place : Place) : (ds : List (String × Declaration)) →
    ofTable place (Declaration.tableUndocumented ds) = (ofTable place ds).map tableUndocumented
  | [] => rfl
  | (key, d) :: ds => by
    rw [Declaration.tableUndocumented, ofTable, ofTable]
    refine Except.bind_eq_map (ofDeclaration_undocumented _ key d) fun _ => ?_
    exact Except.bind_eq_map (ofTable_undocumented place ds) fun _ => rfl

end

end Schema

/-- Schemas of a table, without documentation before or after they are checked. -/
theorem mapM_entryOf_undocumented (place : String → Place) (ds : Table Declaration) :
    (ds.mapValues Declaration.undocumented).mapM (entryOf place) =
      (ds.mapM (entryOf place)).map (Table.mapValues Schema.undocumented) :=
  Except.mapM_eq_map fun e _ =>
    Except.bind_eq_map (Schema.ofDeclaration_undocumented _ e.1 e.2) fun _ => rfl

/-! ## Methods -/

/-- A method as it is written, without documentation. -/
def MethodDeclaration.undocumented (m : MethodDeclaration) : MethodDeclaration :=
  { m with
    description := none
    parameters := m.parameters.map (Table.mapValues Declaration.undocumented)
    request := m.request.map Declaration.undocumented
    response := m.response.map Declaration.undocumented }

/-- A method without documentation. -/
def Method.undocumented (m : Method) : Method :=
  { m with
    description := ""
    parameters := m.parameters.mapValues Schema.undocumented
    request := m.request.map Schema.undocumented
    response := m.response.map Schema.undocumented }

namespace Method

theorem bodyOf_undocumented (id key : String) (d : Option Declaration) :
    bodyOf id key (d.map Declaration.undocumented) =
      (bodyOf id key d).map (Option.map Schema.undocumented) := by
  cases d with
  | none => rfl
  | some d =>
    exact Except.bind_eq_map (Schema.ofDeclaration_undocumented _ key d) fun _ => rfl

theorem ofDeclaration_undocumented (document resource key : String) (d : MethodDeclaration) :
    ofDeclaration document resource key d.undocumented =
      (ofDeclaration document resource key d).map undocumented := by
  obtain ⟨id, path, flatPath, httpMethod, description, parameters, parameterOrder, request,
    response, scopes, apiVersion⟩ := d
  have hparameters (id : String) :
      ((parameters.map (Table.mapValues Declaration.undocumented)).getD []).mapM
          (entryOf (.ofMethod id)) =
        ((parameters.getD []).mapM (entryOf (.ofMethod id))).map
          (Table.mapValues Schema.undocumented) := by
    cases parameters with
    | none => rfl
    | some ps => exact mapM_entryOf_undocumented _ ps
  cases path with
  | none => rfl
  | some path =>
    cases flatPath <;>
      exact Except.bind_same fun _ => Except.bind_eq_map (hparameters _) fun _ =>
        Except.bind_eq_map (bodyOf_undocumented _ _ request) fun _ =>
          Except.bind_eq_map (bodyOf_undocumented _ _ response) fun _ => rfl

end Method

/-! ## Resources -/

namespace ResourceDeclaration

mutual

/-- A resource as it is written, without documentation. -/
def undocumented : ResourceDeclaration → ResourceDeclaration
  | ⟨methods, resources⟩ =>
    ⟨methods.map (Table.mapValues MethodDeclaration.undocumented),
      optionTableUndocumented resources⟩

/-- A table of resources that may be missing, without documentation. -/
def optionTableUndocumented : Option (List (String × ResourceDeclaration)) →
    Option (List (String × ResourceDeclaration))
  | none => none
  | some ds => some (tableUndocumented ds)

/-- A table of resources without documentation. -/
def tableUndocumented : List (String × ResourceDeclaration) → List (String × ResourceDeclaration)
  | [] => []
  | (key, d) :: ds => (key, undocumented d) :: tableUndocumented ds

end

end ResourceDeclaration

/-! ## Documents -/

/-- A document as it is written, without documentation. -/
def DocumentDeclaration.undocumented (d : DocumentDeclaration) : DocumentDeclaration :=
  { d with
    title := none
    description := none
    schemas := d.schemas.map (Table.mapValues Declaration.undocumented)
    resources := d.resources.map ResourceDeclaration.tableUndocumented }

/-- A document without documentation. -/
def Document.undocumented (d : Document) : Document :=
  { d with
    title := ""
    description := ""
    schemas := d.schemas.mapValues Schema.undocumented
    resources := d.resources.mapValues (List.map Method.undocumented) }

namespace Document

mutual

theorem flatten_undocumented (document : String) (key : String) : (d : ResourceDeclaration) →
    flatten document key d.undocumented =
      (flatten document key d).map (Table.mapValues (List.map Method.undocumented))
  | ⟨methods, resources⟩ => by
    rw [ResourceDeclaration.undocumented, flatten, flatten]
    refine Except.bind_eq_map (g := List.map Method.undocumented) ?_ fun own => ?_
    · cases methods with
      | none => rfl
      | some ms =>
        exact Except.mapM_eq_map fun e _ => Method.ofDeclaration_undocumented document key e.1 e.2
    · refine Except.bind_eq_map (flattenOption_undocumented document key resources) fun nested => ?_
      cases own <;> rfl

theorem flattenOption_undocumented (document : String) (key : String) :
    (ds : Option (List (String × ResourceDeclaration))) →
    flattenOption document key (ResourceDeclaration.optionTableUndocumented ds) =
      (flattenOption document key ds).map (Table.mapValues (List.map Method.undocumented))
  | none => rfl
  | some ds => flattenTable_undocumented document (key ++ ".") ds

theorem flattenTable_undocumented (document : String) (start : String) :
    (ds : List (String × ResourceDeclaration)) →
    flattenTable document start (ResourceDeclaration.tableUndocumented ds) =
      (flattenTable document start ds).map (Table.mapValues (List.map Method.undocumented))
  | [] => rfl
  | (key, d) :: ds => by
    rw [ResourceDeclaration.tableUndocumented, flattenTable, flattenTable]
    refine Except.bind_eq_map (flatten_undocumented document (start ++ key) d) fun here => ?_
    refine Except.bind_eq_map (flattenTable_undocumented document start ds) fun rest => ?_
    exact congrArg Except.ok (List.map_append ..).symm

end

/-- Documentation is taken away before or after a document is checked. -/
theorem ofDeclaration_undocumented (d : DocumentDeclaration) :
    ofDeclaration d.undocumented = (ofDeclaration d).map undocumented := by
  unfold ofDeclaration
  dsimp only [DocumentDeclaration.undocumented]
  split
  · rfl
  · refine Except.bind_eq_map (g := Table.mapValues Schema.undocumented) ?_ fun _ => ?_
    · cases d.schemas with
      | none => rfl
      | some ds => exact mapM_entryOf_undocumented .topLevel ds
    · refine Except.bind_eq_map
        (g := Table.mapValues (List.map Method.undocumented)) ?_ fun entries => ?_
      · cases d.resources with
        | none => rfl
        | some ds => exact flattenTable_undocumented _ "" ds
      · rw [← Table.mapValues_ofList]
        rfl

end Document

end Api

end DiscoveryGrpc
