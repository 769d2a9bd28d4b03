import DiscoveryGrpc.Proofs.Proto.Numbering
import DiscoveryGrpc.Proofs.Proto.WellFormed

/-!
# The history of a message

A message is made without fields and then goes through any sequence of operations. Each of them
leaves the fields in order (`Message.sorted_run`), and each but an update leaves no two of them with
one name if there were none before (`Message.distinct_run`), so this is how the fields are at any
time.

Order and numbers look at nothing of a field but its name and its mark. Two lists of fields in order
with the same names and marks have these in the same places (`Field.map_bare_eq`), and numbers
follow the names (`Message.numbersByName_congr`). So no history shows in the numbers
(`Message.canonical_runAll`).
-/

namespace DiscoveryGrpc.Proto

namespace Field

/-! ## Names and marks -/

/-- A field comes before another one: it is marked first and the other one is not, or both are
marked alike and its name is the smaller one. -/
def Precedes (f g : Field) : Prop :=
  f.first = true ∧ g.first = false ∨ f.first = g.first ∧ f.name < g.name

instance (f g : Field) : Decidable (f.Precedes g) :=
  inferInstanceAs (Decidable
    (f.first = true ∧ g.first = false ∨ f.first = g.first ∧ f.name < g.name))

/-- A field with nothing but the name and the mark of another one. -/
def bare (f : Field) : Field := { name := f.name, type := .primitive .unformatted, first := f.first }

theorem precedes_of_le {f g : Field} (hn : f.name ≠ g.name) (h : f.le g = true) :
    f.Precedes g := by
  have hlt (hle : f.name ≤ g.name) : f.name < g.name :=
    String.not_le.1 fun hge => hn (String.le_antisymm hle hge)
  unfold le at h
  unfold Precedes
  cases hf : f.first <;> cases hg : g.first <;> simp_all

theorem Distinct.precedes {fs : List Field} (h : Distinct fs) : fs.Pairwise Precedes :=
  h.sorted.imp₂ (fun _ _ hle hn => precedes_of_le hn hle) (List.pairwise_map.1 h.nodup)

theorem first_eq_of_le {f g : Field} (h : f.le g = true) (h' : g.le f = true) :
    f.first = g.first := by
  unfold le at h h'
  cases hf : f.first <;> cases hg : g.first <;> simp_all

/-- What the order of fields looks at is in the same places if it is the same altogether. -/
theorem map_bare_eq {fs gs : List Field} (hf : Sorted fs) (hg : Sorted gs)
    (h : (fs.map bare).Perm (gs.map bare)) : fs.map bare = gs.map bare := by
  have hsorted {fs : List Field} (h : Sorted fs) : Sorted (fs.map bare) := List.pairwise_map.2 h
  refine h.eq_of_pairwise (fun x y hx hy hxy hyx => ?_) (hsorted hf) (hsorted hg)
  have hname : x.name = y.name := by
    by_contra hne
    exact not_le hne hxy hyx
  obtain ⟨f, -, rfl⟩ := List.mem_map.1 hx
  obtain ⟨g, -, rfl⟩ := List.mem_map.1 hy
  have hfirst : f.first = g.first := first_eq_of_le hxy hyx
  have hname : f.name = g.name := hname
  rw [bare, bare, hname, hfirst]

end Field

namespace Message

/-! ## Operations -/

/-- What can be done to the fields and the enums of a message. Tests and changes are functions of
the field: since no two fields of a message are equal, one that counts the fields that it has seen
comes to nothing else. -/
inductive Operation
  | addField (f : Field)
  | putField (f : Field)
  | removeField (name : String)
  | retainFields (keep : Field → Bool)
  | updateFields (change : Field → Field)
  | addEnum (e : Message)
  | removeEnum (name : String)

/-- The message behind an operation. -/
def run (m : Message) : Operation → Message
  | .addField f => m.addField f
  | .putField f => m.putField f
  | .removeField name => m.removeField name
  | .retainFields keep => m.retainFields keep
  | .updateFields change => m.updateFields change
  | .addEnum e => m.addEnum e
  | .removeEnum name => m.removeEnum name

/-- The message behind a sequence of operations. -/
def runAll (m : Message) (ops : List Operation) : Message := ops.foldl run m

/-- An update does not give one name to two fields. -/
def KeepsNames (m : Message) : Operation → Prop
  | .updateFields change => ((m.fields.map change).map (·.name)).Nodup
  | _ => True

/-- No update in a sequence of operations gives one name to two fields. -/
def AllKeepNames (m : Message) : List Operation → Prop
  | [] => True
  | op :: ops => m.KeepsNames op ∧ (m.run op).AllKeepNames ops

instance (m : Message) (op : Operation) : Decidable (m.KeepsNames op) := by
  cases op <;> unfold KeepsNames <;> infer_instance

/-- Whether all updates keep names apart can be decided. -/
def decAllKeepNames : (m : Message) → (ops : List Operation) → Decidable (m.AllKeepNames ops)
  | _, [] => isTrue trivial
  | m, op :: ops =>
    have := decAllKeepNames (m.run op) ops
    inferInstanceAs (Decidable (m.KeepsNames op ∧ (m.run op).AllKeepNames ops))

instance (m : Message) (ops : List Operation) : Decidable (m.AllKeepNames ops) :=
  decAllKeepNames m ops

/-! ## One operation -/

theorem sorted_run {m : Message} (h : Field.Sorted m.fields) (op : Operation) :
    Field.Sorted (m.run op).fields := by
  cases op with
  | addField f =>
    rw [run, addField]
    cases hadd : m.addField? f with
    | none => exact h
    | some m' =>
      obtain ⟨-, rfl⟩ := of_addField? hadd
      exact Field.sorted_insert h
  | putField f => exact Field.sorted_insert (h.filter _)
  | removeField name => exact h.sublist List.eraseP_sublist
  | retainFields keep => exact h.filter _
  | updateFields change => exact Field.sorted_sort _
  | addEnum e => exact h
  | removeEnum name => exact h

theorem distinct_run {m : Message} (h : Field.Distinct m.fields) {op : Operation}
    (hop : m.KeepsNames op) : Field.Distinct (m.run op).fields := by
  refine ⟨sorted_run h.sorted op, ?_⟩
  cases op with
  | addField f =>
    rw [run, addField]
    cases hadd : m.addField? f with
    | none => exact h.nodup
    | some m' =>
      obtain ⟨hnew, rfl⟩ := of_addField? hadd
      exact (h.insert hnew).nodup
  | putField f => exact (distinct_putField h f).nodup
  | removeField name => exact h.nodup.sublist (List.eraseP_sublist.map _)
  | retainFields keep => exact h.nodup.sublist (List.filter_sublist.map _)
  | updateFields change => exact (((Field.sort_perm _).map _).nodup_iff).2 hop
  | addEnum e => exact h.nodup
  | removeEnum name => exact h.nodup

theorem isEnum_run (m : Message) (op : Operation) : (m.run op).isEnum = m.isEnum := by
  cases op with
  | addField f =>
    rw [run, addField]
    cases hadd : m.addField? f with
    | none => rfl
    | some m' =>
      obtain ⟨-, rfl⟩ := of_addField? hadd
      rfl
  | _ => rfl

/-! ## All operations -/

theorem sorted_runAll {m : Message} (h : Field.Sorted m.fields) (ops : List Operation) :
    Field.Sorted (m.runAll ops).fields := by
  induction ops generalizing m with
  | nil => exact h
  | cons op ops ih => exact ih (sorted_run h op)

theorem distinct_runAll {m : Message} (h : Field.Distinct m.fields) {ops : List Operation}
    (hops : m.AllKeepNames ops) : Field.Distinct (m.runAll ops).fields := by
  induction ops generalizing m with
  | nil => exact h
  | cons op ops ih => exact ih (distinct_run h hops.1) hops.2

theorem isEnum_runAll (m : Message) (ops : List Operation) : (m.runAll ops).isEnum = m.isEnum := by
  induction ops generalizing m with
  | nil => rfl
  | cons op ops ih => exact (ih (m.run op)).trans (isEnum_run m op)

/-! ## Adding and putting -/

/-- A field that is put into a message is the only one with its name. -/
theorem filter_putField (m : Message) (f : Field) :
    (m.putField f).fields.filter (·.name == f.name) = [f] := by
  have hp := (Field.insert_perm f (m.fields.filter (·.name != f.name))).filter (·.name == f.name)
  have hrest : (m.fields.filter (·.name != f.name)).filter (·.name == f.name) = [] := by
    simp +contextual
  rw [List.filter_cons, if_pos (beq_self_eq_true f.name), hrest] at hp
  exact List.perm_singleton.1 hp

/-! ## Numbers -/

/-- Messages of one kind with the same names and marks in the same places have the same numbers. -/
theorem numbersByName_congr {a b : Message} (hkind : a.isEnum = b.isEnum)
    (h : a.fields.map Field.bare = b.fields.map Field.bare) : a.numbersByName = b.numbersByName :=
  calc a.numbersByName
    _ = ({ a with fields := a.fields.map Field.bare } : Message).numbersByName :=
        (numbersByName_map Field.bare (fun _ => rfl) a).symm
    _ = ({ b with fields := b.fields.map Field.bare } : Message).numbersByName := by
        simp only [numbersByName, numberedAscending, numbered, hkind, h]
    _ = b.numbersByName := numbersByName_map Field.bare (fun _ => rfl) b

/-- Whatever the history of a message is, its fields are in order, those marked first before all
others and then by name, and no two have one name; a field is refused just if one with its name is
there, which changes nothing; and a field that is put is the only one with its name. Messages of one
kind with the same names and marks have the same numbers, whatever their histories are. -/
theorem canonical_runAll (name description : String) (isEnum : Bool) (ops : List Operation) :
    let m := runAll { name, isEnum, description } ops
    (AllKeepNames { name, isEnum, description } ops →
      m.fields.Pairwise Field.Precedes ∧ (m.fields.map (·.name)).Nodup ∧
      (∀ f, (m.addField? f = none ↔ ∃ g ∈ m.fields, g.name = f.name) ∧
        (m.addField? f = none → m.addField f = m)) ∧
      ∀ f, (m.putField f).fields.filter (·.name == f.name) = [f]) ∧
    ∀ name' description' ops',
      let m' := runAll { name := name', isEnum, description := description' } ops'
      (m.fields.map fun f => (f.name, f.first)).Perm (m'.fields.map fun f => (f.name, f.first)) →
      m.numbersByName = m'.numbersByName := by
  have hnone : Field.Distinct [] := ⟨.nil, .nil⟩
  dsimp only
  refine ⟨fun h => ?_, fun name' description' ops' h => ?_⟩
  · have hfields := distinct_runAll hnone h
    exact ⟨hfields.precedes, hfields.nodup,
      fun f => ⟨addField?_eq_none, addField_of_addField?⟩, fun f => filter_putField _ f⟩
  · have hbare := h.map fun x =>
      ({ name := x.1, type := .primitive .unformatted, first := x.2 } : Field)
    rw [List.map_map, List.map_map] at hbare
    refine numbersByName_congr ?_ (Field.map_bare_eq ?_ ?_ hbare)
    · rw [isEnum_runAll, isEnum_runAll]
    · exact sorted_runAll hnone.sorted ops
    · exact sorted_runAll hnone.sorted ops'

/-- A member of an enum. -/
def plainMember (name : String) : Field := { name, type := .primitive .unformatted }

/-- A history in which a member is refused, members of one hash are put twice, two trade their names
in one update, and others come and go. -/
def longHistory : List Operation :=
  [.addField (plainMember "UNDEFINED"), .addField (plainMember "BB"), .addField (plainMember "BB"),
    .putField (plainMember "Aa"), .addField (plainMember "ICE"),
    .updateFields fun f => { f with first := f.name == "UNDEFINED" },
    .updateFields fun f =>
      if f.name = "Aa" then { f with name := "BB" }
      else if f.name = "BB" then { f with name := "Aa" } else f,
    .putField { plainMember "BB" with description := "Twice." }, .addEnum { name := "Depth" },
    .removeField "ICE", .addField (plainMember "SALT"), .retainFields (·.name != "SALT")]

/-- A history that comes to the same names and marks. -/
def shortHistory : List Operation :=
  [.addField (plainMember "BB"), .addField { plainMember "UNDEFINED" with first := true },
    .addField (plainMember "Aa")]

theorem canonical_runAll_longHistory :
    let m := runAll { name := "State", isEnum := true } longHistory
    let m' := runAll { name := "Phase", isEnum := true, description := "A phase." } shortHistory
    (AllKeepNames { name := "State", isEnum := true } longHistory ∧
      m.fields.map (·.name) = ["UNDEFINED", "Aa", "BB"] ∧
      (m.fields.map fun f => (f.name, f.first)).Perm
        (m'.fields.map fun f => (f.name, f.first))) ∧
    m.fields.Pairwise Field.Precedes ∧ (m.fields.map (·.name)).Nodup ∧
      m.addField (plainMember "BB") = m ∧
      (m.putField (plainMember "BB")).fields.filter (·.name == "BB") = [plainMember "BB"] ∧
      m.numbersByName = m'.numbersByName ∧
      m.numbered.map (fun x => (x.2.name, x.1)) = [("UNDEFINED", 0), ("Aa", 2112), ("BB", 2113)] :=
  have hkeep : AllKeepNames { name := "State", isEnum := true } longHistory := by decide +kernel
  have hperm := by decide +kernel
  have hrefused := by decide +kernel
  have hall := canonical_runAll "State" "" true longHistory
  ⟨⟨hkeep, by decide +kernel, hperm⟩, (hall.1 hkeep).1, (hall.1 hkeep).2.1,
    ((hall.1 hkeep).2.2.1 (plainMember "BB")).2 hrefused,
    (hall.1 hkeep).2.2.2 (plainMember "BB"), hall.2 "Phase" "A phase." shortHistory hperm,
    by decide +kernel⟩

end Message

end DiscoveryGrpc.Proto
