import DiscoveryGrpc.Proofs.Proto.Merge
import DiscoveryGrpc.Proofs.Proto.Parsed
import DiscoveryGrpc.Proofs.Run.Basic

/-!
# Members of enums share a scope

The members of the enums of a message stand in the scope of the message, so no two of its enums may
have a member of one name. A conversion sees to that: enums in conflict are removed
(`enumsApart_removeConflicts`). Merging does not: an enum gets all members back that it had, even
those that another enum has by now (`member_merged`).

So the file of a run keeps members apart if and only if those that come back meet none of another
enum (`enumsApart_iff_of_convert`). `exists_not_enumsApart_saltyLakes` is a run in which they do.
-/

namespace DiscoveryGrpc

open Proto Api

namespace Proto

/-- An enum nested in a message has a member. -/
def Message.Member (m : Message) (enum name : String) : Prop :=
  ∃ e ∈ m.enum? enum, ∃ x ∈ e.fields, x.name = name

instance (m : Message) (enum name : String) : Decidable (m.Member enum name) :=
  inferInstanceAs (Decidable (∃ e ∈ m.enum? enum, ∃ x ∈ e.fields, x.name = name))

/-- No two enums of a message have a member of the same name. -/
def Message.EnumsApart (m : Message) : Prop :=
  ∀ a b name, m.Member a name → m.Member b name → a = b

/-- In no message do two enums have a member of the same name. -/
def File.EnumsApart (f : File) : Prop := ∀ m ∈ f.messages.values, m.EnumsApart

/-- No two enums of a message have a member of the same name, if they have the members that they
have in an old message, too. -/
def Message.ApartWith (m old : Message) : Prop :=
  ∀ a b name, m.hasEnum a = true → m.hasEnum b = true →
    m.Member a name ∨ old.Member a name → m.Member b name ∨ old.Member b name → a = b

/-- In no message do two enums have a member of the same name, if they have the members that they
have in an old file, too. -/
def File.ApartWith (f old : File) : Prop :=
  ∀ name m m', f.messages.get? name = some m → old.messages.get? name = some m' → m.ApartWith m'

theorem Message.exists_field_iff {m : Message} {name : String} :
    (∃ x ∈ m.fields, x.name = name) ↔ m.field? name ≠ none := by
  rw [Ne, field?_eq_none]
  simp

theorem Message.Member.hasEnum {m : Message} {enum name : String} (h : m.Member enum name) :
    m.hasEnum enum = true := by
  obtain ⟨e, he, -⟩ := h
  exact Table.has_of_get? he

end Proto

/-! ## Removing conflicts -/

namespace Conversion

theorem enums_removeConflicts (m : Message) :
    (removeConflicts m).enums = m.enums.filter fun e => !(conflictingEnums m).contains e.1 := by
  unfold removeConflicts
  dsimp only
  split
  · rename_i h
    rw [List.isEmpty_iff.1 h]
    simp
  · rw [removeEnums_eq]

/-- An enum goes if it has a member whose name is one in another enum, too. -/
theorem mem_conflictingEnums_of_mem {m e e' : Message} {enum other : String} {x y : Field}
    (he : (enum, e) ∈ m.enums) (he' : (other, e') ∈ m.enums) (hne : other ≠ enum)
    (hx : x ∈ e.fields) (hy : y ∈ e'.fields) (hname : y.name = x.name) :
    enum ∈ conflictingEnums m := by
  have hshare : shareMember e e' = true :=
    List.any_eq_true.2 ⟨x, hx, List.any_eq_true.2 ⟨y, hy, by simpa using hname⟩⟩
  refine List.mem_map_of_mem (List.mem_filter.2 ⟨he, ?_⟩)
  exact List.any_eq_true.2 ⟨(other, e'), he', by simp [hshare, hne]⟩

/-- What is left when conflicting enums are gone has no conflicts. -/
theorem enumsApart_removeConflicts (m : Message) : (removeConflicts m).EnumsApart := by
  rintro a b name ⟨e, he, x, hx, rfl⟩ ⟨e', he', y, hy, hname⟩
  have he := Table.mem_of_get? (Option.mem_def.1 he)
  have he' := Table.mem_of_get? (Option.mem_def.1 he')
  rw [enums_removeConflicts] at he he'
  obtain ⟨he, hstays⟩ := List.mem_filter.1 he
  have he' := (List.mem_filter.1 he').1
  by_contra hne
  -- both enums have the member, so the first one would have been removed
  have hremoved := mem_conflictingEnums_of_mem he he' (Ne.symm hne) hx hy hname
  simp [hremoved] at hstays

/-- The file of a document keeps the members of its enums apart. -/
theorem enumsApart_of_fileOf {opts : Options} {d : Document} {w w' : Workspace} {f : File}
    (h : fileOf opts d w = .ok f w') : f.EnumsApart := by
  obtain ⟨services, w₁, -, -, -, -, rfl⟩ := fileOf_eq_ok h
  intro m hm
  rw [finalMessages, Table.values_mapValues] at hm
  obtain ⟨m₀, -, rfl⟩ := List.mem_map.1 hm
  exact enumsApart_removeConflicts m₀

end Conversion

/-! ## Merging -/

namespace Proto.Merge

variable {known : NameSet}

/-- Members have a type that is never gone. -/
theorem available_member {x : Field} {owner : Message}
    (h : x.type = .primitive .unformatted ∧ x.keyType = none) : x.Available known owner := by
  refine ⟨?_, by simp [h.2]⟩
  rw [h.1]
  trivial

/-- An enum that is merged has its new members and its old ones. -/
theorem exists_member_merged {new old : Message} (hn : new.WellFormed) (ho : old.ParsedEnum)
    (name : String) : (∃ x ∈ (merged known new old).fields, x.name = name) ↔
      (∃ x ∈ new.fields, x.name = name) ∨ ∃ x ∈ old.fields, x.name = name := by
  rw [Message.exists_field_iff, Message.exists_field_iff, Message.exists_field_iff,
    field?_merged hn ho.wellFormed]
  cases hold : old.field? name with
  | none => simp
  | some y =>
    have hy : y.Available known new := available_member (ho.bare y (List.mem_of_find?_eq_some hold))
    cases hnew : new.field? name with
    | none => simp [mergedField?_restored hy]
    | some x =>
      by_cases hs : y.Supersedes x
      · simp [mergedField?_superseded hs hy]
      · simp [mergedField?_untouched fun h => hs h.1]

theorem member_merged {new old : Message} (hn : new.WellFormed) (ho : old.Parsed)
    (enum name : String) : (merged known new old).Member enum name ↔
      new.hasEnum enum = true ∧ (new.Member enum name ∨ old.Member enum name) := by
  have hover := overlaid_enums known hn.named.sorted ho.named
  have hhas := hasEnum_merged known hn.named.sorted ho.named enum
  cases hx : new.enum? enum with
  | none =>
    have hnone : new.hasEnum enum = false := by
      rw [Message.hasEnum, ← Table.isSome_get?, ← Message.enum?, hx]
      rfl
    refine iff_of_false (fun h => ?_) (by simp [hnone])
    rw [h.hasEnum, hnone] at hhas
    cases hhas
  | some x =>
    have hnew : new.hasEnum enum = true := Table.has_of_get? hx
    obtain ⟨z, hz⟩ : ∃ z, (merged known new old).enum? enum = some z :=
      Table.exists_get? (hhas.trans hnew)
    have hxwf := hn.enums x (Table.mem_values_of_get? hx)
    cases hy : old.enum? enum with
    | none =>
      obtain rfl : z = x := Option.some.inj (hz.symm.trans ((hover.kept hy).trans hx))
      simp [Message.Member, hx, hy, hz, hnew]
    | some y =>
      have hparsed := ho.enums y (Table.mem_values_of_get? hy)
      obtain rfl : merged known x y = z := hover.both hx hy hz
      simp only [Message.Member, hx, hy, hz, hnew, Option.mem_some_iff, exists_eq_left', true_and]
      exact exists_member_merged hxwf hparsed name

theorem enumsApart_merged_iff {new old : Message} (hn : new.WellFormed) (ho : old.Parsed) :
    (merged known new old).EnumsApart ↔ new.ApartWith old := by
  simp only [Message.EnumsApart, Message.ApartWith, member_merged hn ho]
  constructor
  · exact fun h a b name ha hb hma hmb => h a b name ⟨ha, hma⟩ ⟨hb, hmb⟩
  · exact fun h a b name hma hmb => h a b name hma.1 hmb.1 hma.2 hmb.2

/-- Merging keeps members apart if and only if those that come back meet none of another enum. -/
theorem enumsApart_merge_iff {new old : File} (hn : new.WellFormed) (ho : old.Parsed)
    (h : new.EnumsApart) : (new.merge old).1.EnumsApart ↔ new.ApartWith old := by
  have hover := overlaid_messages hn.messages.sorted ho.messages
  constructor
  · intro hapart name x y hx hy
    obtain ⟨z, hz⟩ := Table.exists_get?
      ((Table.has_of_names hover.names name).trans (Table.has_of_get? hx))
    obtain rfl := hover.both hx hy hz
    refine (enumsApart_merged_iff (hn.wellFormed x (Table.mem_values_of_get? hx))
      (ho.parsed y (Table.mem_values_of_get? hy))).1 (hapart _ (Table.mem_values_of_get? hz))
  · intro hwith z hz
    obtain ⟨name, hname⟩ := Table.exists_get?_of_mem_values
      (hover.sorted hn.messages.sorted) hz
    rcases hover.cases hname with ⟨-, hz⟩ | ⟨x, y, hx, hy, rfl⟩
    · exact h z (Table.mem_values_of_get? hz)
    · exact (enumsApart_merged_iff (hn.wellFormed x (Table.mem_values_of_get? hx))
        (ho.parsed y (Table.mem_values_of_get? hy))).2 (hwith name x y hx hy)

end Proto.Merge

/-! ## Runs -/

/-- Without an earlier file a run keeps the members of enums apart. With one it does if and only if
the members that come back meet none of another enum. -/
theorem enumsApart_iff_of_convert {input : Input} {o : Output} (h : (convert input).1 = .ok o) :
    ∃ fresh, (convert { input with proto? := none }).1 = .ok fresh ∧ fresh.file.EnumsApart ∧
      (o.file.EnumsApart ↔ ∀ text ∈ input.proto?, ∀ old, File.ofText text = .ok old →
        fresh.file.ApartWith old) := by
  obtain ⟨fresh, d, registry, w, hfresh, hf, hmerged⟩ := exists_fresh_of_convert h
  have hapart := Conversion.enumsApart_of_fileOf hf
  have hwf := (Conversion.settled_of_fileOf (Naming.admitsDocument_any d)
    ⟨fun _ _ => trivial, fun _ _ => trivial⟩ hf).wellFormed
  refine ⟨fresh, hfresh, hapart, ?_⟩
  rcases mergedFile_eq_ok_iff.1 hmerged with ⟨hnone, hfile⟩ | ⟨text, old, htext, hold, hfile⟩
  · rw [hfile, hnone]
    simp [hapart]
  · rw [hfile, htext, Merge.enumsApart_merge_iff hwf (File.parsed_of_ofText hold) hapart]
    simp [hold]

/-- The schema of a string with one value. -/
def enumSchema (value : String) : Json :=
  .object [("type", .string "string"), ("enum", .array [.string value])]

/-- A document in which ice is a state of lakes and salt a kind. -/
def icyLakes : String :=
  lakesDocument [("Lake", objectSchema [("state", enumSchema "ICE"), ("kind", enumSchema "SALT")])]

/-- An earlier file in which both were states. -/
def saltyLakes : String :=
  "message Lake \x7b\n  enum State \x7b\n    UNDEFINED_STATE = 0;\n    ICE = 1;\n    SALT = 2;\n"
    ++ "  \x7d\n\x7d\n"

theorem enumsApart_iff_of_convert_saltyLakes :
    ∃ o fresh, (convert { document := icyLakes, proto? := some saltyLakes }).1 = .ok o ∧
      o.file.messages.has "Lake" = true ∧
      (convert { document := icyLakes }).1 = .ok fresh ∧ fresh.file.EnumsApart ∧
      (o.file.EnumsApart ↔ ∀ text ∈ some saltyLakes, ∀ old, File.ofText text = .ok old →
        fresh.file.ApartWith old) := by
  have hspells : Json.Spells icyLakes _ := Json.spells_compact (by
    simp [Json.Printable, Json.PrintableMembers, Json.PrintableElements, objectSchema, enumSchema])
  obtain ⟨o, ho, hlake⟩ : ∃ o,
      (convert { document := icyLakes, proto? := some saltyLakes }).1 = .ok o ∧
      o.file.messages.has "Lake" = true :=
    exists_eq_ok_of_eq (convert_of_spells hspells) (by decide +kernel)
  obtain ⟨fresh, hfresh, hapart, hiff⟩ := enumsApart_iff_of_convert ho
  exact ⟨o, fresh, ho, hlake, hfresh, hapart, hiff⟩

/-- Salt comes back as a state of lakes, although it is a kind by now. -/
theorem exists_not_enumsApart_saltyLakes :
    ∃ o, (convert { document := icyLakes, proto? := some saltyLakes }).1 = .ok o ∧
      ¬o.file.EnumsApart := by
  have hspells : Json.Spells icyLakes _ := Json.spells_compact (by
    simp [Json.Printable, Json.PrintableMembers, Json.PrintableElements, objectSchema, enumSchema])
  obtain ⟨o, ho, hshared⟩ : ∃ o,
      (convert { document := icyLakes, proto? := some saltyLakes }).1 = .ok o ∧
      decide (∃ m ∈ o.file.messages.values,
        m.Member "Kind" "SALT" ∧ m.Member "State" "SALT") = true :=
    exists_eq_ok_of_eq (convert_of_spells hspells) (by decide +kernel)
  obtain ⟨m, hm, hkind, hstate⟩ := of_decide_eq_true hshared
  exact ⟨o, ho, fun hapart => absurd (hapart m hm _ _ _ hkind hstate) (by decide)⟩

end DiscoveryGrpc
