import DiscoveryGrpc.Conversion.Document
import DiscoveryGrpc.Proto.Merge
import DiscoveryGrpc.Proto.Text

/-!
# The whole run

A run reads a document, converts it, merges the file of an earlier run if there is one, and checks
the configuration. With the configuration of an earlier run inline schemas keep their names, with
its file the fields and signatures stay that clients depend on.
-/

namespace DiscoveryGrpc

open Proto

/-- What a run is given. -/
structure Input where
  document : String
  options : Options := {}
  /-- The configuration of an earlier run. -/
  config? : Option Config := none
  /-- The text of an earlier file. -/
  proto? : Option String := none

/-- What a run gives: a file, and the configuration for the next run. -/
structure Output where
  file : File
  config : Config

/-- A computation that takes notes, which stay when it fails. -/
abbrev Noting := ExceptT Fault (StateM Log)

namespace Noting

/-- Takes notes. -/
def notes (log : Log) : Noting Unit := modify (· ++ log)

/-- The result of a computation without notes. -/
def lift (x : Except Fault α) : Noting α := ExceptT.mk (pure x)

end Noting

/-- Reads a document. -/
def readDocument (text : String) : Noting Api.Document := do
  let d ← Noting.lift (Api.Document.ofText text)
  Noting.notes [d.readEvent]
  return d

/-- The registry of a run that may follow another one. -/
def startRegistry : Option Config → Noting Registry
  | none => return .empty
  | some c => do
    let r ← Noting.lift (Registry.ofConfig c)
    Noting.notes [r.loadedEvent]
    return r

/-- Converts a document. The result has the registry as the conversion leaves it. -/
def convertDocument (options : Options) (d : Api.Document) (registry : Registry) :
    Noting (File × Registry) := do
  let o := Conversion.run options d registry
  Noting.notes o.log
  return (← Noting.lift o.result, o.registry)

/-- Merges the file of an earlier run into a new one, if there is one. -/
def mergePrevious (file : File) : Option String → Noting File
  | none => return file
  | some text => do
    let previous ← Noting.lift (File.ofText text)
    Noting.notes [.mergingPrevious previous.messages.length previous.services.length]
    let (merged, log) := file.merge previous
    Noting.notes log
    return merged

/-- One run. -/
def run (input : Input) : Noting Output := do
  let d ← readDocument input.document
  let registry ← startRegistry input.config?
  let (file, registry) ← convertDocument input.options d registry
  let file ← mergePrevious file input.proto?
  let config ← Noting.lift (registry.toConfig d.version d.revision)
  return { file, config }

/-- One run, with its notes. -/
def convert (input : Input) : Except Fault Output × Log := (run input).run.run []

end DiscoveryGrpc
