import DiscoveryGrpc.Proofs.Conversion.Course
import DiscoveryGrpc.Proofs.Run.EnumScopes

/-!
# What goes with enums in conflict

An enum collides if another enum of its message has a member of the same name. When the references
of a conversion are resolved, all enums that collide go, however they are chained, and fields of
their types become strings. Nothing else changes (`Message.Cleaned`), so that the members of all
enums that are left are different and fields still have types that are there.

`cleaned_of_resolveAll` says this of every conversion that comes so far; the messages of its file
are those that are left.
-/

namespace DiscoveryGrpc

open Proto Api

namespace Proto

/-- An enum of a message has a member whose name is one in another enum, too. -/
def Message.Collides (m : Message) (enum : String) : Prop :=
  ∃ other name, other ≠ enum ∧ m.Member enum name ∧ m.Member other name

/-- A field when some enums are gone: if one of them was its type, it is a string, and otherwise
the same. -/
structure Field.Cleaned (gone : String → Prop) (x y : Field) : Prop where
  string : ∀ enum, x.type = .enum enum → gone enum → y = { x with type := .primitive .string }
  same : (∀ enum, x.type = .enum enum → ¬gone enum) → y = x

/-- A message when the enums that collide are gone. -/
structure Message.Cleaned (m m' : Message) : Prop where
  /-- Fields and enums apart, the message is the same. -/
  head : m' = { m with fields := m'.fields, enums := m'.enums }
  /-- The fields are those of the message, in their order. -/
  fields : List.Forall₂ (Field.Cleaned m.Collides) m.fields m'.fields
  /-- The enums that are left are those that do not collide, and they are the same. -/
  enums : ∀ name e, m'.enum? name = some e ↔ m.enum? name = some e ∧ ¬m.Collides name
  /-- The enums that are left are in their order. -/
  order : m'.enums.Sublist m.enums
  apart : m'.EnumsApart
  /-- Enums that are types are there. -/
  typed : ∀ x ∈ m'.fields, ∀ name, x.type = .enum name ∨ x.keyType = some (.enum name) →
    m'.hasEnum name = true
  /-- Without collisions nothing changes. -/
  same : (∀ name, ¬m.Collides name) → m' = m

end Proto

namespace Conversion

variable {N : Naming} {known : Table Message} {m : Message} {w : Workspace}

/-! ## One message -/

/-- The enums that are removed are those that collide. -/
theorem mem_conflictingEnums (hm : Table.Sorted m.enums) {enum : String} :
    enum ∈ conflictingEnums m ↔ m.Collides enum := by
  constructor
  · intro h
    obtain ⟨⟨_, e⟩, he, rfl⟩ := List.mem_map.1 h
    obtain ⟨he, hany⟩ := List.mem_filter.1 he
    obtain ⟨⟨other, e'⟩, he', hshare⟩ := List.any_eq_true.1 hany
    obtain ⟨hne, hshare⟩ := Bool.and_eq_true_iff.1 hshare
    obtain ⟨x, hx, hmatch⟩ := List.any_eq_true.1 hshare
    obtain ⟨y, hy, hname⟩ := List.any_eq_true.1 hmatch
    exact ⟨other, x.name, by simpa using hne, ⟨e, Table.get?_of_mem hm he, x, hx, rfl⟩,
      e', Table.get?_of_mem hm he', y, hy, by simpa using hname⟩
  · rintro ⟨other, name, hne, ⟨e, he, x, hx, rfl⟩, e', he', y, hy, hname⟩
    exact mem_conflictingEnums_of_mem (Table.mem_of_get? he) (Table.mem_of_get? he') hne hx hy hname

/-- Removing conflicts does not move fields. -/
theorem fields_removeConflicts (hm : Field.Distinct m.fields) :
    (removeConflicts m).fields = m.fields.map (stripEnums (conflictingEnums m)) := by
  unfold removeConflicts
  dsimp only
  split
  · rename_i h
    rw [List.isEmpty_iff.1 h]
    refine (List.map_id'' (fun x => ?_) _).symm
    rw [stripEnums, withoutEnums_nil]
  · rw [removeEnums_eq]
    exact hm.sort_map (stripEnums _) (fun _ => rfl) fun _ => rfl

theorem cleaned_stripEnums (hm : Table.Sorted m.enums) (x : Field) :
    x.Cleaned m.Collides (stripEnums (conflictingEnums m) x) where
  string enum htype hgone := by
    have hmem := List.contains_iff_mem.2 ((mem_conflictingEnums hm).2 hgone)
    rw [stripEnums, htype, withoutEnums, if_pos hmem]
  same hstays := by
    cases htype : x.type with
    | enum n =>
      have hmem : ¬(conflictingEnums m).contains n = true := fun h =>
        hstays n htype ((mem_conflictingEnums hm).1 (List.contains_iff_mem.1 h))
      rw [stripEnums, htype, withoutEnums, if_neg hmem, ← htype]
    | _ =>
      rw [stripEnums, htype]
      exact congrArg (fun type => { x with type }) htype.symm

theorem head_removeConflicts (m : Message) : removeConflicts m =
    { m with fields := (removeConflicts m).fields, enums := (removeConflicts m).enums } := by
  unfold removeConflicts
  dsimp only
  split
  · exact m.eta.symm
  · rw [removeEnums_eq]
    rfl

/-- Removing conflicts removes the enums that collide, and changes the fields of their types and
nothing else. -/
theorem cleaned_removeConflicts (h : m.Drafted N known) : m.Cleaned (removeConflicts m) where
  head := head_removeConflicts m
  fields := by
    rw [fields_removeConflicts h.distinct, List.forall₂_map_right_iff]
    exact List.forall₂_same.2 fun x _ => cleaned_stripEnums h.named.sorted x
  enums name e := by
    rw [Message.enum?, enums_removeConflicts,
      Table.get?_filter (fun n => !(conflictingEnums m).contains n),
      ← mem_conflictingEnums h.named.sorted]
    rw [Message.enum?]
    by_cases hname : name ∈ conflictingEnums m <;> simp [hname]
  order := by
    rw [enums_removeConflicts]
    exact List.filter_sublist
  apart := enumsApart_removeConflicts m
  typed x hx name hname := by
    rw [fields_removeConflicts h.distinct] at hx
    obtain ⟨y, hy, rfl⟩ := List.mem_map.1 hx
    rcases hname with hname | hname
    · obtain ⟨htype, hstays⟩ := eq_enum_of_withoutEnums hname
      have hhas := (h.fields y hy).type
      rw [htype] at hhas
      rw [Message.hasEnum, enums_removeConflicts, hasEnum_filter, Bool.and_eq_true_iff]
      exact ⟨hhas, by rw [hstays]; rfl⟩
    · cases (h.fields y hy).keyType _ hname
  same hnone := by
    have hempty : conflictingEnums m = [] := List.eq_nil_iff_forall_not_mem.2 fun enum henum =>
      hnone enum ((mem_conflictingEnums h.named.sorted).1 henum)
    rw [removeConflicts, hempty]
    rfl

/-! ## All messages of a conversion -/

/-- A conversion up to the point where conflicts are removed. The result are the services; the
messages are in the workspace. -/
def resolveAll (opts : Options) (d : Document) : Build (Table Service) := do
  let services ← buildAll opts d
  resolveReferences opts.ignoredNames services
  return services

/-- What is left to do are the conflicts, and then the file is made of what is there. -/
theorem fileOf_eq_resolveAll (opts : Options) (d : Document) :
    fileOf opts d = do
      let services ← resolveAll opts d
      removeConflictingEnums
      let w ← get
      note (.converted d.name d.version w.messages.length services.length)
      return {
        package := packageName opts d
        messages := w.messages
        services := addOperations w.messages services
        settings := w.resources
        source := sourceOf d } := by
  simp only [fileOf, resolveAll, buildAll, bind_assoc, pure_bind]

/-- The messages that are made of a document are drafted. -/
theorem drafted_of_buildAll {opts : Options} {d : Document} {registry : Registry}
    {services : Table Service} (h : buildAll opts d { registry } = .ok services w) :
    ∀ m ∈ w.messages.values, m.Drafted .any w.messages := by
  obtain ⟨hsteps, -⟩ := (leads_buildAll opts (Naming.admitsDocument_any d) { registry }).of_ok h
  exact (Steps.sound hsteps (sound_start registry)).messages

theorem drafted_of_resolveAll {opts : Options} {d : Document} {registry : Registry}
    {services : Table Service} (h : resolveAll opts d { registry } = .ok services w) :
    ∃ known, ∀ m ∈ w.messages.values, m.Drafted .any known := by
  obtain ⟨services, w₁, hbuild, h⟩ := bind_eq_ok_iff.1 h
  obtain ⟨_, w₂, hresolve, h⟩ := bind_eq_ok_iff.1 h
  obtain ⟨-, -, rfl⟩ := resolveReferences_eq_ok hresolve
  cases h
  have hdrafted := drafted_of_buildAll hbuild
  refine ⟨w₁.messages, fun m hm => ?_⟩
  rw [resolvedWorkspace, resolvedMessages, Table.values_mapValues] at hm
  obtain ⟨m₀, hm₀, rfl⟩ := List.mem_map.1 hm
  exact drafted_resolveMessage (hdrafted m₀ hm₀) _

/-- When the messages of a conversion are there and their references are resolved, removing
conflicts does to every message what `Message.Cleaned` says and nothing else to the workspace. The
conversion succeeds, and these are the messages of its file. -/
theorem cleaned_of_resolveAll {opts : Options} {d : Document} {registry : Registry}
    {services : Table Service} (h : resolveAll opts d { registry } = .ok services w) :
    ∃ w', removeConflictingEnums w = .ok () w' ∧
      List.Forall₂ (fun e e' => e'.1 = e.1 ∧ e.2.Cleaned e'.2) w.messages w'.messages ∧
      w' = { w with messages := w'.messages, log := w'.log } ∧
      ∃ f w'', fileOf opts d { registry } = .ok f w'' ∧ f.messages = w'.messages := by
  obtain ⟨known, hdrafted⟩ := drafted_of_resolveAll h
  refine ⟨_, rfl, ?_, rfl, ?_⟩
  · dsimp only
    rw [Table.mapValues, List.forall₂_map_right_iff]
    exact List.forall₂_same.2 fun e he =>
      ⟨rfl, cleaned_removeConflicts (hdrafted e.2 (Table.mem_values_of_mem he))⟩
  · rw [fileOf_eq_resolveAll]
    exact ⟨_, _, bind_eq_ok_iff.2 ⟨services, w, h, rfl⟩, rfl⟩

/-- A document in which ice is a state and a kind of lakes, salt is a kind and an origin, and
winter is a season only. -/
def frozenLakes : String :=
  lakesDocument [("Lake", objectSchema [
    ("state", enumSchema "ICE"),
    ("kind", .object [("type", .string "string"),
      ("enum", .array [.string "ICE", .string "SALT"])]),
    ("origin", enumSchema "SALT"),
    ("season", enumSchema "WINTER")])]

theorem cleaned_of_resolveAll_frozenLakes :
    ∃ d services w w', Document.ofText frozenLakes = .ok d ∧
      resolveAll {} d { registry := .empty } = .ok services w ∧
      ((w.messages.get? "Lake").map fun m => Table.names m.enums)
        = some ["Kind", "Origin", "Season", "State"] ∧
      removeConflictingEnums w = .ok () w' ∧
      List.Forall₂ (fun e e' => e'.1 = e.1 ∧ e.2.Cleaned e'.2) w.messages w'.messages ∧
      w' = { w with messages := w'.messages, log := w'.log } ∧
      ∃ f w'', fileOf {} d { registry := .empty } = .ok f w'' ∧ f.messages = w'.messages := by
  have hspells : Json.Spells frozenLakes _ := Json.spells_compact (by
    simp [Json.Printable, Json.PrintableMembers, Json.PrintableElements, objectSchema, enumSchema])
  obtain ⟨d, hd, hpasses⟩ : ∃ d, Document.ofText frozenLakes = .ok d ∧
      passes (resolveAll {} d) { registry := .empty }
        (fun _ w => ((w.messages.get? "Lake").map fun m => Table.names m.enums)
          = some ["Kind", "Origin", "Season", "State"]) = true :=
    exists_eq_ok_of_eq (Document.ofText_of_spells hspells) (by decide +kernel)
  obtain ⟨services, w, h, henums⟩ := exists_eq_ok_of_passes hpasses
  obtain ⟨w', hclean⟩ := cleaned_of_resolveAll h
  exact ⟨d, services, w, w', hd, h, of_decide_eq_true henums, hclean⟩

end Conversion

end DiscoveryGrpc
