import DiscoveryGrpc.Proofs.Api.Document
import DiscoveryGrpc.Proofs.Config.Export
import DiscoveryGrpc.Proofs.Conversion.Registered
import DiscoveryGrpc.Proofs.Json.Printed
import DiscoveryGrpc.Pipeline

/-!
# What a run comes to

Notes are taken along the way and decide nothing. `Noting.ComesTo x r` says that a computation has
one result whatever was noted before, and `convert_eq_ok_iff` says what a run that succeeds has
done, step by step and without the notes.
-/

namespace DiscoveryGrpc

open Proto Api

/-- The result of a computation does not depend on the notes before it. -/
structure Noting.ComesTo {α : Type} (x : Noting α) (r : Except Fault α) : Prop where
  fst_run : ∀ log, (x.run.run log).1 = r

namespace Noting

variable {α β : Type} {x : Noting α} {r : Except Fault α}

theorem run_bind (x : Noting α) (f : α → Noting β) (log : Log) :
    (x >>= f).run.run log = match x.run.run log with
      | (.ok a, log') => (f a).run.run log'
      | (.error fault, log') => (.error fault, log') := by
  simp only [bind, ExceptT.bind, ExceptT.mk, ExceptT.run, StateT.bind, StateT.run,
    ExceptT.bindCont]
  cases x log with
  | mk r log' => cases r <;> rfl

namespace ComesTo

theorem pure (a : α) : ComesTo (pure a) (.ok a) := ⟨fun _ => rfl⟩

theorem lift (r : Except Fault α) : ComesTo (Noting.lift r) r := ⟨fun _ => rfl⟩

theorem notes_bind (log : Log) (h : x.ComesTo r) :
    ComesTo (Noting.notes log >>= fun _ => x) r :=
  ⟨fun log' => h.fst_run (log' ++ log)⟩

theorem bind {f : α → Noting β} {g : α → Except Fault β} (hx : ComesTo x r)
    (hf : ∀ a, ComesTo (f a) (g a)) : ComesTo (x >>= f) (r >>= g) := by
  refine ⟨fun log => ?_⟩
  rw [run_bind, ← hx.fst_run log]
  cases hr : x.run.run log with
  | mk result log' =>
    cases result with
    | error fault => rfl
    | ok a => exact (hf a).fst_run log'

/-- What comes after the last result that may fail. -/
theorem map {f : α → Noting β} {g : α → β} (hx : ComesTo x r)
    (hf : ∀ a, ComesTo (f a) (.ok (g a))) : ComesTo (x >>= f) (r.map g) := by
  have h := hx.bind hf
  cases r <;> exact h

theorem bind_pure {f : α → Noting α} (hx : ComesTo x r) (hf : ∀ a, ComesTo (f a) (.ok a)) :
    ComesTo (x >>= f) r := by
  have h := hx.map hf
  cases r <;> exact h

end ComesTo

end Noting

/-! ## The parts of a run -/

/-- The registry that a run begins with. -/
def startingRegistry : Option Config → Except Fault Registry
  | none => .ok .empty
  | some c => Registry.ofConfig c

/-- Nothing is registered when a run begins. -/
theorem exists_of_startingRegistry {config? : Option Config} {r : Registry}
    (h : startingRegistry config? = .ok r) : ∃ configured, r = { configured } := by
  cases config? with
  | none => exact ⟨[], (Except.ok.inj h).symm⟩
  | some c =>
    obtain ⟨configured, hr, -⟩ := Registry.exists_of_ofConfig h
    exact ⟨configured, hr⟩

/-- The file of a run, given the file of the document. -/
def mergedFile (file : File) : Option String → Except Fault File
  | none => .ok file
  | some text => (File.ofText text).map fun previous => (file.merge previous).1

/-- The file of a run is that of the document, or it is merged with one that was read. -/
theorem mergedFile_eq_ok_iff {f g : File} {proto? : Option String} :
    mergedFile f proto? = .ok g ↔ (proto? = none ∧ g = f) ∨
      ∃ text old, proto? = some text ∧ File.ofText text = .ok old ∧ g = (f.merge old).1 := by
  cases proto? with
  | none => simp [mergedFile, eq_comm]
  | some text =>
    cases hold : File.ofText text with
    | error fault => simp [mergedFile, hold, Except.map]
    | ok old => simpa [mergedFile, hold, Except.map] using eq_comm

theorem comesTo_readDocument (text : String) :
    (readDocument text).ComesTo (Document.ofText text) :=
  (Noting.ComesTo.lift _).bind_pure fun d => .notes_bind _ (.pure d)

theorem comesTo_startRegistry (config? : Option Config) :
    (startRegistry config?).ComesTo (startingRegistry config?) := by
  cases config? with
  | none => exact .pure _
  | some c => exact (Noting.ComesTo.lift _).bind_pure fun r => .notes_bind _ (.pure r)

theorem comesTo_convertDocument (opts : Options) (d : Document) (registry : Registry) :
    (convertDocument opts d registry).ComesTo
      ((Conversion.run opts d registry).result.map
        (·, (Conversion.run opts d registry).registry)) :=
  .notes_bind _ ((Noting.ComesTo.lift _).map fun file => .pure (file, _))

theorem comesTo_mergePrevious (file : File) (proto? : Option String) :
    (mergePrevious file proto?).ComesTo (mergedFile file proto?) := by
  cases proto? with
  | none => exact .pure _
  | some text =>
    exact (Noting.ComesTo.lift (File.ofText text)).map fun previous =>
      .notes_bind _ (.notes_bind _ (.pure (file.merge previous).1))

/-- What a run makes of a document. -/
def outcome (input : Input) (d : Document) : Except Fault Output := do
  let registry ← startingRegistry input.config?
  let (file, registry) ← (Conversion.run input.options d registry).result.map
    (·, (Conversion.run input.options d registry).registry)
  let file ← mergedFile file input.proto?
  let config ← registry.toConfig d.version d.revision
  return { file, config }

/-- The result of a run, without its notes. -/
theorem comesTo_run (input : Input) :
    (run input).ComesTo (Document.ofText input.document >>= outcome input) :=
  (comesTo_readDocument _).bind fun d => (comesTo_startRegistry _).bind fun _ =>
    (comesTo_convertDocument _ d _).bind fun (file, _) =>
      (comesTo_mergePrevious file _).bind fun _ => (Noting.ComesTo.lift _).bind fun _ => .pure _

theorem Conversion.run_eq_ok_iff {opts : Options} {d : Document} {registry r : Registry} {f : File} :
    (run opts d registry).result.map (·, (run opts d registry).registry) = .ok (f, r) ↔
      ∃ w, fileOf opts d { registry } = .ok f w ∧ w.registry = r := by
  rw [run, EStateM.run]
  cases fileOf opts d { registry } <;> simp [Except.map, and_comm]

/-- A run succeeds if and only if each of its parts does, and this is what it gives. -/
theorem convert_eq_ok_iff {input : Input} {o : Output} :
    (convert input).1 = .ok o ↔ ∃ d registry f w,
      Document.ofText input.document = .ok d ∧
      startingRegistry input.config? = .ok registry ∧
      Conversion.fileOf input.options d { registry } = .ok f w ∧
      mergedFile f input.proto? = .ok o.file ∧
      w.registry.toConfig d.version d.revision = .ok o.config := by
  rw [convert, (comesTo_run input).fst_run []]
  simp only [outcome, Except.bind_eq_ok_iff, Prod.exists, Conversion.run_eq_ok_iff]
  constructor
  · rintro ⟨d, hd, registry, hr, f, _, ⟨w, hf, rfl⟩, file, hfile, config, hconfig, ⟨⟩⟩
    exact ⟨d, registry, f, w, hd, hr, hf, hfile, hconfig⟩
  · rintro ⟨d, registry, f, w, hd, hr, hf, hfile, hconfig⟩
    exact ⟨d, hd, registry, hr, f, _, ⟨w, hf, rfl⟩, o.file, hfile, o.config, hconfig, rfl⟩

/-- Without an earlier file, a run that succeeds gives the file of the document, which is merged
otherwise. -/
theorem exists_fresh_of_convert {input : Input} {o : Output} (h : (convert input).1 = .ok o) :
    ∃ fresh d registry w, (convert { input with proto? := none }).1 = .ok fresh ∧
      Conversion.fileOf input.options d { registry } = .ok fresh.file w ∧
      mergedFile fresh.file input.proto? = .ok o.file := by
  obtain ⟨d, registry, f, w, hd, hr, hf, hfile, hconfig⟩ := convert_eq_ok_iff.1 h
  refine ⟨⟨f, o.config⟩, d, registry, w, ?_, hf, hfile⟩
  exact convert_eq_ok_iff.2 ⟨d, registry, f, w, hd, hr, hf, rfl, hconfig⟩

/-! ## Runs of small documents -/

/-- A run on a text of a value comes to what is made of the value. The value is there already, so
that small runs are decided without reading texts. -/
theorem convert_of_spells {input : Input} {v : Json} (h : Json.Spells input.document v) :
    (convert input).1 =
      DocumentDeclaration.ofJson v >>= Document.ofDeclaration >>= outcome input := by
  rw [convert, (comesTo_run input).fst_run [], Document.ofText_of_spells h]

/-- The text of a document with schemas. -/
def lakesDocument (schemas : List (String × Json)) : String :=
  Json.compact (.object
    [("name", .string "lakes"), ("version", .string "v1"), ("schemas", .object schemas)])

/-- The schema of an object with properties. -/
def objectSchema (properties : List (String × Json)) : Json :=
  .object [("type", .string "object"), ("properties", .object properties)]

end DiscoveryGrpc
