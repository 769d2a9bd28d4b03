import DiscoveryGrpc.Proofs.Conversion.EnumStrings
import DiscoveryGrpc.Proofs.Run.EnumCleanup

/-!
# A run that keeps enums as strings

With strings for enums a run that succeeds without an earlier file, and makes no `Errors`, succeeds
again: its configuration is the same, and so is its file, but for the types of fields that held
enums (`convert_withStrings`).
-/

namespace DiscoveryGrpc

open Proto Api

variable {input : Input} {o : Output}

/-- The messages of a file are those of the workspace that is left. -/
theorem Conversion.messages_of_fileOf {opts : Options} {d : Document} {f : File}
    {w w' : Workspace} (h : fileOf opts d w = .ok f w') : w'.messages = f.messages := by
  obtain ⟨_, _, -, h⟩ := bind_eq_ok_iff.1 h
  obtain ⟨_, _, -, h⟩ := bind_eq_ok_iff.1 h
  obtain ⟨_, _, -, h⟩ := bind_eq_ok_iff.1 h
  obtain ⟨_, _, -, h⟩ := bind_eq_ok_iff.1 h
  cases h
  rfl

/-- Keeping enums as strings changes nothing but types: without an earlier file, and without a
message that is named `Errors`, a run that succeeds does so with strings for enums, too, and gives
an equal configuration, and the same file but for strings as types of fields that hold enums. -/
theorem convert_withStrings (hproto : input.proto? = none) (h : (convert input).1 = .ok o)
    (herrors : o.file.messages.has "Errors" = false) :
    (convert { input with options := { input.options with enumsAsStrings := true } }).1 =
      .ok { file := o.file.withStrings, config := o.config } := by
  obtain ⟨d, registry, f, w, hd, hr, hf, hfile, hconfig⟩ := convert_eq_ok_iff.1 h
  rw [hproto] at hfile
  obtain rfl := Except.ok.inj hfile
  rw [← Conversion.messages_of_fileOf hf] at herrors
  obtain ⟨-, hstrings⟩ := (Conversion.mirrors_fileOf input.options d).run hf herrors
  refine convert_eq_ok_iff.2 ⟨d, registry, _, _, hd, hr, hstrings, ?_, hconfig⟩
  rw [hproto]
  rfl

theorem convert_withStrings_frozenLakes :
    ∃ o, (convert { document := Conversion.frozenLakes }).1 = .ok o ∧
      ((o.file.messages.get? "Lake").map fun m => m.fields.map fun f => (f.name, f.type)) =
        some [("kind", .primitive .string), ("origin", .primitive .string),
          ("season", .enum "Season"), ("state", .primitive .string)] ∧
      o.file.messages.has "Errors" = false ∧
      (convert { document := Conversion.frozenLakes, options := { enumsAsStrings := true } }).1 =
        .ok { file := o.file.withStrings, config := o.config } := by
  have hspells : Json.Spells Conversion.frozenLakes _ := Json.spells_compact (by
    simp [Json.Printable, Json.PrintableMembers, Json.PrintableElements, objectSchema, enumSchema])
  obtain ⟨o, ho, hlake⟩ : ∃ o, (convert { document := Conversion.frozenLakes }).1 = .ok o ∧
      (((o.file.messages.get? "Lake").map fun m => m.fields.map fun f => (f.name, f.type)) ==
        some [("kind", .primitive .string), ("origin", .primitive .string),
          ("season", .enum "Season"), ("state", .primitive .string)] &&
        !o.file.messages.has "Errors") = true :=
    exists_eq_ok_of_eq (convert_of_spells hspells) (by decide +kernel)
  rw [Bool.and_eq_true, beq_iff_eq, Bool.not_eq_true'] at hlake
  obtain ⟨htypes, herrors⟩ := hlake
  refine ⟨o, ho, htypes, herrors, ?_⟩
  exact @convert_withStrings { document := Conversion.frozenLakes } o rfl ho herrors

end DiscoveryGrpc
