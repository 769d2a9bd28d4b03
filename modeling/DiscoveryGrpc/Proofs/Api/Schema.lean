import DiscoveryGrpc.Api.Document

/-!
# Schemas of a tree

`Schema.All P` says that a property of heads holds of a schema and of all schemas nested in it.
`Document.inlinePaths` lists where the inline objects of a document stand.
-/

namespace DiscoveryGrpc.Api

namespace Schema

variable (P : SchemaHead → Prop)

mutual

/-- A property holds of a schema and all schemas nested in it. -/
def All : Schema → Prop
  | ⟨h, properties, items, additional⟩ =>
    P h ∧ AllTable properties ∧ AllOption items ∧ AllOption additional

/-- A property holds of all schemas of a table and those nested in them. -/
def AllTable : List (String × Schema) → Prop
  | [] => True
  | (_, s) :: ss => All s ∧ AllTable ss

/-- A property holds of a schema, if there is one, and of those nested in it. -/
def AllOption : Option Schema → Prop
  | none => True
  | some s => All s

end

variable {P} {Q : SchemaHead → Prop}

theorem All.head : {s : Schema} → All P s → P s.toSchemaHead
  | ⟨_, _, _, _⟩, ⟨h, _⟩ => h

theorem allTable_iff {ss : List (String × Schema)} : AllTable P ss ↔ ∀ e ∈ ss, All P e.2 := by
  induction ss with
  | nil => simp [AllTable]
  | cons e ss ih => rw [AllTable, ih, List.forall_mem_cons]

mutual

/-- A weaker property holds of all schemas too. -/
theorem All.imp (h : ∀ x, P x → Q x) : (s : Schema) → All P s → All Q s
  | ⟨_, properties, items, additional⟩, ⟨hh, hp, hi, ha⟩ =>
    ⟨h _ hh, AllTable.imp h properties hp, AllOption.imp h items hi, AllOption.imp h additional ha⟩

theorem AllTable.imp (h : ∀ x, P x → Q x) :
    (ss : List (String × Schema)) → AllTable P ss → AllTable Q ss
  | [], _ => trivial
  | (_, s) :: ss, ⟨hs, hss⟩ => ⟨All.imp h s hs, AllTable.imp h ss hss⟩

theorem AllOption.imp (h : ∀ x, P x → Q x) : (s : Option Schema) → AllOption P s → AllOption Q s
  | none, _ => trivial
  | some s, hs => All.imp h s hs

end

mutual

/-- What holds of all heads holds of all schemas. -/
theorem All.intro (h : ∀ x, P x) : (s : Schema) → All P s
  | ⟨_, properties, items, additional⟩ =>
    ⟨h _, AllTable.intro h properties, AllOption.intro h items, AllOption.intro h additional⟩

theorem AllTable.intro (h : ∀ x, P x) : (ss : List (String × Schema)) → AllTable P ss
  | [] => trivial
  | (_, s) :: ss => ⟨All.intro h s, AllTable.intro h ss⟩

theorem AllOption.intro (h : ∀ x, P x) : (s : Option Schema) → AllOption P s
  | none => trivial
  | some s => All.intro h s

end

/-! ### Deciding them -/

mutual

instance decidableAll [DecidablePred P] : (s : Schema) → Decidable (All P s)
  | ⟨h, properties, items, additional⟩ =>
    have := decidableAllTable properties
    have := decidableAllOption items
    have := decidableAllOption additional
    inferInstanceAs (Decidable (P h ∧ AllTable P properties ∧ AllOption P items ∧ AllOption P additional))

instance decidableAllTable [DecidablePred P] :
    (ss : List (String × Schema)) → Decidable (AllTable P ss)
  | [] => .isTrue trivial
  | (_, s) :: ss =>
    have := decidableAll s
    have := decidableAllTable ss
    inferInstanceAs (Decidable (All P s ∧ AllTable P ss))

instance decidableAllOption [DecidablePred P] : (s : Option Schema) → Decidable (AllOption P s)
  | none => .isTrue trivial
  | some s => decidableAll s

end

/-! ## Inline objects -/

/-- Whether a schema is an object that has no id and refers to no other one, so that its message is
named after its place. -/
def isInline (s : Schema) : Bool := s.isObject && s.id.isEmpty && !s.isReference

mutual

/-- The paths of the inline objects among a schema and the schemas nested in it. -/
def inlinePaths : Schema → List String
  | ⟨h, properties, items, additional⟩ =>
    (if isInline ⟨h, properties, items, additional⟩ then [h.place.path] else [])
      ++ (inlinePathsOfTable properties
      ++ (inlinePathsOfOption items ++ inlinePathsOfOption additional))

/-- The paths of the inline objects of a table. -/
def inlinePathsOfTable : List (String × Schema) → List String
  | [] => []
  | (_, s) :: ss => inlinePaths s ++ inlinePathsOfTable ss

/-- The paths of the inline objects of a schema, if there is one. -/
def inlinePathsOfOption : Option Schema → List String
  | none => []
  | some s => inlinePaths s

end

theorem items_sublist_inlinePaths (h : SchemaHead) (properties : List (String × Schema))
    (items additional : Option Schema) :
    (inlinePathsOfOption items).Sublist (inlinePaths ⟨h, properties, items, additional⟩) := by
  rw [inlinePaths]
  refine List.sublist_append_of_sublist_right (List.sublist_append_of_sublist_right ?_)
  exact List.sublist_append_left _ _

theorem additional_sublist_inlinePaths (h : SchemaHead) (properties : List (String × Schema))
    (items additional : Option Schema) :
    (inlinePathsOfOption additional).Sublist (inlinePaths ⟨h, properties, items, additional⟩) := by
  rw [inlinePaths]
  refine List.sublist_append_of_sublist_right (List.sublist_append_of_sublist_right ?_)
  exact List.sublist_append_right _ _

/-- The paths of the inline objects nested in a schema. -/
def nestedInlinePaths (s : Schema) : List String :=
  inlinePathsOfTable s.properties
    ++ (inlinePathsOfOption s.items ++ inlinePathsOfOption s.additional)

end Schema

/-- The paths of the inline objects of a document: those nested in its schemas, and those of the
parameters of its methods. Of the bodies of methods no messages are made. -/
def Document.inlinePaths (d : Document) : List String :=
  d.schemas.flatMap (fun e => e.2.nestedInlinePaths)
    ++ d.resources.flatMap fun resource =>
      resource.2.flatMap fun m => Schema.inlinePathsOfTable m.parameters

end DiscoveryGrpc.Api
