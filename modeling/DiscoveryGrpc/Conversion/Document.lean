import DiscoveryGrpc.Conversion.Service
import DiscoveryGrpc.Conversion.References
import DiscoveryGrpc.Conversion.Enums
import DiscoveryGrpc.Conversion.Operations

/-!
# From a document to a proto file

A conversion makes messages of the schemas at the top level, then services of the resources with
the messages they need. References are resolved when all messages are there; then conflicting enums
go, and rpcs learn about operations. There is a file only if every step succeeds.
-/

namespace DiscoveryGrpc.Conversion

open Proto Api

/-- Adds the message for a schema at the top level, if it is an object and not ignored. -/
def addSchema (opts : Options) (entry : String × Schema) : Build Unit := do
  let (key, s) := entry
  if opts.ignoredMessages.contains key then note (.ignoringSchema key)
  else if !s.isObject then note (.skippingSchema key)
  else
    let name ← messageName s.identifier
    let m ← messageOf opts s name
    let _ ← addMessage m

/-- A text as a part of a package name. -/
def packagePart (s : String) : String :=
  String.ofList (s.toList.map fun c => if c.isAlphanum then c.toLower else '_')

/-- The package for a document. -/
def packageName (opts : Options) (d : Document) : String :=
  let api := packagePart d.name ++ "." ++ packagePart d.version
  if opts.packagePrefix.isEmpty then api else opts.packagePrefix ++ "." ++ api

/-- What the header of the file for a document says. -/
def sourceOf (d : Document) : Source where
  filename := s!"{d.name}.{d.version}.json"
  name := d.name
  version := d.version
  revision := d.revision

/-- The proto file for a document. -/
def fileOf (opts : Options) (d : Document) : Build File := do
  d.schemas.forM (addSchema opts)
  let services ← d.resources.foldlM (addService opts d) []
  resolveReferences opts.ignoredNames services
  removeConflictingEnums
  let w ← get
  note (.converted d.name d.version w.messages.length services.length)
  return {
    package := packageName opts d
    messages := w.messages
    services := addOperations w.messages services
    settings := w.resources
    source := sourceOf d }

/-- What a conversion comes to: the file or why there is none, the registry and the notes. -/
structure Outcome where
  result : Except Fault File
  registry : Registry
  log : Log

/-- Converts a document, with the inline schemas of a registry. -/
def run (opts : Options) (d : Document) (registry : Registry) : Outcome :=
  match (fileOf opts d).run { registry } with
  | .ok file w => ⟨.ok file, w.registry, w.log⟩
  | .error fault w => ⟨.error fault, w.registry, w.log⟩

end DiscoveryGrpc.Conversion
