import DiscoveryGrpc.Proofs.Conversion.Translation
import DiscoveryGrpc.Proofs.Run.Basic

/-!
# Messages translate schemas

A run makes a message of every object at the top level of its document that is not ignored, and of
every object nested in one of those or in a parameter, at any depth. `Translated` says what the file
has for them: under the name that an object was given there is a message with one field for each of
its properties, but for those that refer to a message that is left out. Messages of one name share
their place in the file, references are resolved and enums may go after a message was made; none of
this changes which fields it has. The one exception are objects with the name `Errors` in which
another `Errors` is nested: of those only the first one is in the file.
-/

namespace DiscoveryGrpc

open Proto Api

namespace Conversion

variable {opts : Options} {d : Document} {start final : Workspace}

/-- The messages of a file translate the schemas of a document, where `start` and `final` are the
first and the last workspace of the conversion. -/
structure Translated (opts : Options) (d : Document) (start final : Workspace)
    (messages : Table Message) : Prop where
  /-- A message is made of every schema at the top level that is an object and not ignored. -/
  topLevel : ∀ e ∈ d.schemas, opts.converts e = true → ∃ name r kept,
    messageName e.2.identifier = .ok name ∧ Makes opts start final r e.2 name kept
  /-- A message is made of every object nested in one of these, or in a parameter. -/
  nested : ∀ v, Nested opts d v → ∃ name, Gives opts start final v name
  /-- A message that is made and kept is in the file with its fields. -/
  message : ∀ r s name, Makes opts start final r s name true →
    ∃ m, messages.get? name = some m ∧
      ∃ fs, FieldsFor (.settled opts start final m)
        (s.properties.filter fun p => !isLeftOut opts messages p.2) fs ∧ m.fields.Perm fs
  /-- Only a message `Errors` that has such a message for a field is not kept. -/
  passedThrough : ∀ r s name, Makes opts start final r s name false →
    name = "Errors" ∧ ∃ p ∈ s.properties, ∃ v, p.2.value? = some v ∧ v.isNested = true ∧
      Gives opts start final v "Errors"

theorem isLeftOut_finalMessages (ignored : NameSet) (s : Schema) :
    isLeftOut opts (finalMessages ignored final) s = isLeftOut opts final.messages s := by
  simp only [isLeftOut, has_finalMessages]

theorem Built.translated {services : Table Service} (h : Built opts d start services final)
    (hdangling : NothingDangles opts.ignoredNames final) :
    Translated opts d start final (finalMessages opts.ignoredNames final) where
  topLevel := h.schemas
  nested _ hv := h.exists_gives hv
  message r s name hmakes := by
    simp only [isLeftOut_finalMessages]
    exact hmakes.exists_translation hdangling
  passedThrough _ _ _ hmakes := hmakes.passedThrough

end Conversion

/-- A run without an earlier file has the messages and services that are built for its document. -/
theorem exists_built_of_convert {input : Input} {o : Output} (h : (convert input).1 = .ok o)
    (hproto : input.proto? = none) : ∃ d registry services final,
      Document.ofText input.document = .ok d ∧
      startingRegistry input.config? = .ok registry ∧
      Conversion.buildAll input.options d { registry } = .ok services final ∧
      Conversion.Built input.options d { registry } services final ∧
      Conversion.NothingDangles input.options.ignoredNames final ∧
      o.file.messages = Conversion.finalMessages input.options.ignoredNames final ∧
      o.file.services = Conversion.addOperations o.file.messages services := by
  obtain ⟨d, registry, f, w, hd, hr, hf, hmerged, -⟩ := convert_eq_ok_iff.1 h
  rw [hproto] at hmerged
  obtain rfl : f = o.file := Except.ok.inj hmerged
  obtain ⟨services, final, hbuild⟩ := Conversion.built_of_fileOf hf
  exact ⟨d, registry, services, final, hd, hr, hbuild⟩

/-- The messages of a run without an earlier file translate the schemas of its document. -/
theorem translated_of_convert {input : Input} {o : Output} (h : (convert input).1 = .ok o)
    (hproto : input.proto? = none) : ∃ d registry services final,
      Document.ofText input.document = .ok d ∧
      startingRegistry input.config? = .ok registry ∧
      Conversion.buildAll input.options d { registry } = .ok services final ∧
      Conversion.Translated input.options d { registry } final o.file.messages := by
  obtain ⟨d, registry, services, final, hd, hr, hbuild, hbuilt, hdangling, hmessages, -⟩ :=
    exists_built_of_convert h hproto
  exact ⟨d, registry, services, final, hd, hr, hbuild, hmessages ▸ hbuilt.translated hdangling⟩

/-- A document in which lakes have beaches. -/
def beachLakes : String :=
  lakesDocument [("Lake", objectSchema
    [("beaches", .object [("type", .string "array"), ("items", objectSchema
      [("length", .object [("type", .string "integer")])])])])]

theorem translated_of_convert_beachLakes : ∃ o, (convert { document := beachLakes }).1 = .ok o ∧
    o.file.messages.has "Beaches" = true ∧ ∃ d registry services final,
      Document.ofText beachLakes = .ok d ∧
      startingRegistry none = .ok registry ∧
      Conversion.buildAll {} d { registry } = .ok services final ∧
      Conversion.Translated {} d { registry } final o.file.messages := by
  have hspells : Json.Spells beachLakes _ := Json.spells_compact (by
    simp [Json.Printable, Json.PrintableMembers, objectSchema])
  obtain ⟨o, ho, hbeaches⟩ : ∃ o, (convert { document := beachLakes }).1 = .ok o ∧
      o.file.messages.has "Beaches" = true :=
    exists_eq_ok_of_eq (convert_of_spells hspells) (by decide +kernel)
  have htranslated := translated_of_convert ho rfl
  exact ⟨o, ho, hbeaches, htranslated⟩

end DiscoveryGrpc
