import DiscoveryGrpc.Proofs.Api.Comparison
import DiscoveryGrpc.Proofs.Conversion.Undocumented
import DiscoveryGrpc.Proofs.Run.Basic

/-!
# Documentation does not influence a run

A run reads a document, converts it, merges an earlier file and exports a configuration. Documents
that differ in documentation only are the same to each of these parts but for descriptions, so the
runs come to the same failure, or to the same configuration and to files that agree up to
descriptions (`convert_of_undocumented`).
-/

namespace DiscoveryGrpc

open Proto Api

/-- The result of a run without descriptions and without the source. -/
def Output.undocumented (o : Output) : Output := { o with file := o.file.undocumented }

/-- What is seen of the file of a document and the registry that the conversion leaves. -/
def seenFile (r : File × Registry) : File × Registry := (r.1.undocumented, r.2)

variable {d d' : Document}

theorem map_ofText_of_undocumented {text text' : String} {d d' : DocumentDeclaration}
    (hd : DocumentDeclaration.ofText text = .ok d)
    (hd' : DocumentDeclaration.ofText text' = .ok d') (h : d.undocumented = d'.undocumented) :
    (Document.ofText text).map Document.undocumented =
      (Document.ofText text').map Document.undocumented := by
  rw [Document.ofText, Document.ofText, hd, hd']
  change (Document.ofDeclaration d).map _ = (Document.ofDeclaration d').map _
  rw [← Document.ofDeclaration_undocumented, h, Document.ofDeclaration_undocumented]

/-- Documents that differ in documentation only are converted to files that agree up to
descriptions, with the same registry. -/
theorem Conversion.map_run_of_undocumented (opts : Options) (h : d.undocumented = d'.undocumented)
    (registry : Registry) :
    ((run opts d registry).result.map (·, (run opts d registry).registry)).map seenFile =
      ((run opts d' registry).result.map (·, (run opts d' registry).registry)).map seenFile := by
  have hagree : Agree File.undocumented (fileOf opts d) (fileOf opts d') :=
    (agree_fileOf opts d).trans (h ▸ (agree_fileOf opts d').symm)
  have halike := hagree.run (w := { registry }) rfl
  rw [run, run, EStateM.run, EStateM.run]
  revert halike
  generalize fileOf opts d { registry } = r, fileOf opts d' { registry } = r'
  intro halike
  cases halike with
  | ok hfile hw =>
    exact congrArg Except.ok (congrArg₂ Prod.mk hfile (Workspace.undocumented_eq_iff.1 hw).1)
  | error fault w w' => rfl

theorem map_mergedFile_of_undocumented {f f' : File} (h : f.undocumented = f'.undocumented)
    (proto? : Option String) :
    (mergedFile f proto?).map File.undocumented = (mergedFile f' proto?).map File.undocumented := by
  cases proto? with
  | none => exact congrArg Except.ok h
  | some text =>
    rw [mergedFile, mergedFile]
    cases File.ofText text with
    | error fault => rfl
    | ok old => exact congrArg Except.ok (File.undocumented_merge h old)

/-- Runs on documents that differ in documentation only come to the same up to descriptions. -/
theorem map_convert_of_undocumented (input : Input) {text : String} {d d' : DocumentDeclaration}
    (hd : DocumentDeclaration.ofText input.document = .ok d)
    (hd' : DocumentDeclaration.ofText text = .ok d') (h : d.undocumented = d'.undocumented) :
    (convert input).1.map Output.undocumented =
      (convert { input with document := text }).1.map Output.undocumented := by
  rw [convert, convert, (comesTo_run _).fst_run [], (comesTo_run _).fst_run []]
  refine Except.map_bind_eq (map_ofText_of_undocumented hd hd' h) fun d d' h => ?_
  refine Except.map_bind_congr fun registry => ?_
  refine Except.map_bind_eq (Conversion.map_run_of_undocumented _ h registry) fun r r' hr => ?_
  obtain ⟨file, registry⟩ := r
  obtain ⟨file', registry'⟩ := r'
  obtain ⟨hfile, rfl⟩ := Prod.mk.inj hr
  refine Except.map_bind_eq (map_mergedFile_of_undocumented hfile input.proto?) fun f f' hf => ?_
  have hversion : d.version = d'.version := congrArg (·.version) h
  have hrevision : d.revision = d'.revision := congrArg (·.revision) h
  rw [hversion, hrevision]
  exact Except.map_bind_congr fun config =>
    congrArg (fun file => Except.ok { file, config : Output }) hf

/-- Documentation does not influence a run: of two documents that are written alike but for
documentation, a run makes files that are the same and equal configurations, or it fails for the
same cause. -/
theorem convert_of_undocumented (input : Input) {text : String} {d d' : DocumentDeclaration}
    (hd : DocumentDeclaration.ofText input.document = .ok d)
    (hd' : DocumentDeclaration.ofText text = .ok d') (h : d.undocumented = d'.undocumented) :
    (∃ o o', (convert input).1 = .ok o ∧ (convert { input with document := text }).1 = .ok o' ∧
      o.file.same o'.file = true ∧ o.config = o'.config) ∨
    ∃ fault, (convert input).1 = .error fault ∧
      (convert { input with document := text }).1 = .error fault := by
  rcases Except.ok_or_error_of_map_eq (map_convert_of_undocumented input hd hd' h) with
    ⟨o, o', ho, ho', hsame⟩ | hfault
  · obtain ⟨hfile, hconfig⟩ := Output.mk.inj hsame
    exact .inl ⟨o, o', ho, ho', beq_iff_eq.2 hfile, hconfig⟩
  · exact .inr hfault

/-- A document about lakes with a property that is called a description, and has documentation or
none. -/
def describedLakes (documentation : List (String × Json)) : String :=
  lakesDocument [("Lake", objectSchema [("description",
    .object ([("type", .string "string"), ("enum", .array [.string "ICE"])] ++ documentation))])]

/-- Documentation of the description and of its value. -/
def frozen : List (String × Json) :=
  [("description", .string "Now."), ("enumDescriptions", .array [.string "Cold."])]

theorem convert_of_undocumented_frozen :
    ∃ d d' o o', DocumentDeclaration.ofText (describedLakes []) = .ok d ∧
      DocumentDeclaration.ofText (describedLakes frozen) = .ok d' ∧
      d.undocumented = d'.undocumented ∧
      (convert { document := describedLakes [] }).1 = .ok o ∧
      (convert { document := describedLakes frozen }).1 = .ok o' ∧
      o.file.messages.has "Lake" = true ∧
      o.file.same o'.file = true ∧ o.config = o'.config := by
  have hspells : Json.Spells (describedLakes []) _ := Json.spells_compact (by
    simp [Json.Printable, Json.PrintableMembers, Json.PrintableElements, objectSchema])
  have hspells' : Json.Spells (describedLakes frozen) _ := Json.spells_compact (by
    simp [Json.Printable, Json.PrintableMembers, Json.PrintableElements, objectSchema, frozen])
  obtain ⟨d, hd, hd'⟩ : ∃ d, DocumentDeclaration.ofText (describedLakes []) = .ok d ∧
      (DocumentDeclaration.ofText (describedLakes frozen)).toOption.any
        (fun d' => d.undocumented = d'.undocumented) = true := by
    rw [DocumentDeclaration.ofText_of_spells hspells']
    exact exists_eq_ok_of_eq (DocumentDeclaration.ofText_of_spells hspells) (by decide +kernel)
  obtain ⟨d', hd', h⟩ := exists_eq_ok hd'
  obtain ⟨r, hr, hlake⟩ : ∃ r, (convert { document := describedLakes [] }).1 = .ok r ∧
      r.file.messages.has "Lake" = true :=
    exists_eq_ok_of_eq (convert_of_spells hspells) (by decide +kernel)
  have h := of_decide_eq_true h
  rcases convert_of_undocumented { document := describedLakes [] } hd hd' h with
    ⟨o, o', ho, ho', hfile, hconfig⟩ | ⟨fault, hfault, -⟩
  · obtain rfl := Except.ok.inj (hr.symm.trans ho)
    exact ⟨d, d', r, o', hd, hd', h, ho, ho', hlake, hfile, hconfig⟩
  · cases hr.symm.trans hfault

end DiscoveryGrpc
