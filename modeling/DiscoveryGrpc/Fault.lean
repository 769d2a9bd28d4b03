import DiscoveryGrpc.Report
import DiscoveryGrpc.Name.Casing
import DiscoveryGrpc.Proto.SyntaxFault

/-!
# Why a run can fail

One constructor per cause, holding the names that the message shows. `Fault.report` is the only
place where causes get their wording, so every other module speaks of causes alone.
-/

namespace DiscoveryGrpc

/-- The part of a schema that holds the elements of an array or a map. -/
inductive ElementSlot
  | items
  | additionalProperties
  deriving DecidableEq, Repr

/-- The key under which a document writes the slot. -/
def ElementSlot.key : ElementSlot → String
  | items => "items"
  | additionalProperties => "additionalProperties"

/-- A use of a message that was not generated. -/
inductive Dangling
  | field (message name target : String)
  | rpc (service name target : String)
  deriving DecidableEq, Repr

/-- The line that reports a dangling use. -/
def Dangling.text : Dangling → String
  | field message name target => s!"field {message}.{name} refers to unknown message {target}"
  | rpc service name target => s!"method {service}.{name} refers to unknown message {target}"

/-- One inconsistency between a configuration and a run. A configuration fixes the message name of
every inline schema by its location; all inconsistencies of one pass are reported together. -/
inductive Config.Drift
  /-- The loaded configuration lists a location twice. -/
  | ambiguous (location first second : String)
  /-- The run used a location twice. -/
  | repeated (location first second : String)
  /-- The run did not use a configured location. -/
  | unused (location name : String)
  /-- Different schemas have one message name. -/
  | sharedName (name : String) (schemas : Nat)
  /-- One schema has different message names, each with its locations. -/
  | manyNames (names : List (String × List String))
  deriving DecidableEq, Repr

/-- The line that reports an inconsistency. -/
def Config.Drift.text : Config.Drift → String
  | ambiguous location first second =>
    s!"location {location} is configured for both {first} and {second}"
  | repeated location first second =>
    s!"location {location} is registered twice, as {first} and as {second}"
  | unused location name => s!"location {location} configured for {name} is not used anymore"
  | sharedName name schemas => s!"message {name} is used for {schemas} different inline schemas"
  | manyNames names =>
    let described := names.map fun (name, locations) => name ++ " at " ++ ", ".intercalate locations
    "one inline schema has different message names: " ++ "; ".intercalate described

/-- The causes of failure. -/
inductive Fault
  -- names and paths
  | fragment (text : String) (casing : Casing)
  | unusableIdentifier (text : String)
  | manyExpansions (path : String)
  | flatPathMismatch (flatPath path : String)
  | httpMethod (method verb : String)
  -- schemas
  | anySchema (path : String)
  | nestedArray (path : String)
  | untyped (path : String)
  | noElement (path : String) (slot : ElementSlot)
  | nestedElement (path : String) (slot : ElementSlot)
  -- collisions
  | enumCollision (message enum : String)
  | messageCollision (message : String)
  | fieldCollision (message field : String)
  -- versions and configurations
  | apiVersions (service : String) (versions : List String)
  | ambiguousConfig (problems : List Config.Drift)
  | configDrift (problems : List Config.Drift)
  -- input
  | unreadableDocument
  | unreadableConfig
  | unreadableFile (path reason : String)
  | unwritableFile (path reason : String)
  | unnamedDocument
  | schemaType (name : String)
  | parameterLocation (name : String)
  | noPath (method : String)
  | danglingReferences (uses : List Dangling)
  -- proto text
  | badToken (text : String) (line : Nat)
  | badSyntax (fault : Proto.SyntaxFault) (line : Nat)
  | unknownFieldType (message field type : String)
  | unknownRpcMessage (service rpc message : String)
  deriving DecidableEq, Repr

namespace Fault

/-- What is told of a fault. -/
def report : Fault → Report
  | fragment text casing =>
    { kind := .format, text := s!"Name fragment '{text}' is not {casing.label}" }
  | unusableIdentifier text => { kind := .format, text := s!"'{text}' is not a usable identifier" }
  | manyExpansions path =>
    { kind := .format
      text := s!"Unsupported path '{path}', only a single expansion is supported" }
  | flatPathMismatch flatPath path =>
    { kind := .format, text := s!"Flat path '{flatPath}' doesn't match path '{path}'" }
  | httpMethod method verb =>
    { kind := .format, text := s!"method {method} uses unsupported http method {verb}" }
  | anySchema path =>
    { kind := .unsupportedSchema
      text := s!"schema {path} has type any, which proto3 can't express" }
  | nestedArray path =>
    { kind := .unsupportedSchema
      text := s!"schema {path} is an array directly inside an array or map" }
  | untyped path =>
    { kind := .unsupportedSchema, text := s!"schema {path} has neither a type nor a reference" }
  | noElement path slot =>
    { kind := .unsupportedSchema, text := s!"schema {path} has no {slot.key}" }
  | nestedElement path slot =>
    { kind := .unsupportedSchema
      text := s!"schema {path} nests an array or map in its {slot.key}" }
  | enumCollision message enum =>
    { kind := .nameCollision, text := s!"message {message} has two different enums named {enum}" }
  | messageCollision message =>
    { kind := .nameCollision
      text := s!"message {message} is generated from two different schemas" }
  | fieldCollision message field =>
    { kind := .nameCollision, text := s!"message {message} has two fields named {field}" }
  | apiVersions service versions =>
    { kind := .inconsistentApiVersions
      text := s!"methods of service {service} use different api versions: "
        ++ Text.quoteSet versions }
  | ambiguousConfig problems =>
    { kind := .configurationDrift
      text := "loaded inline schema configuration is ambiguous"
      details := problems.map Config.Drift.text }
  | configDrift problems =>
    { kind := .configurationDrift
      text := "inline schema configuration is inconsistent with the document"
      details := problems.map Config.Drift.text }
  | unreadableDocument =>
    { kind := .invalidArgument
      text := "could not read discovery document"
      cause := some "the text is not the expected JSON" }
  | unreadableConfig =>
    { kind := .invalidArgument
      text := "could not read converter configuration"
      cause := some "the text is not the expected JSON" }
  | unreadableFile path reason =>
    { kind := .invalidArgument, text := s!"could not read {path}", cause := some reason }
  | unwritableFile path reason =>
    { kind := .invalidArgument, text := s!"could not write {path}", cause := some reason }
  | unnamedDocument =>
    { kind := .invalidArgument, text := "discovery document needs both a name and a version" }
  | schemaType name => { kind := .invalidArgument, text := s!"Unknown schema type '{name}'" }
  | parameterLocation name =>
    { kind := .invalidArgument, text := s!"Unknown parameter location '{name}'" }
  | noPath method => { kind := .invalidArgument, text := s!"method {method} has no path" }
  | danglingReferences uses =>
    { kind := .invalidArgument
      text := "references could not be resolved"
      details := uses.map Dangling.text }
  | badToken text line => { kind := .parse, text := s!"unexpected '{text}' on line {line}" }
  | badSyntax fault line => { kind := .parse, text := s!"{fault.text} on line {line}" }
  | unknownFieldType message field type =>
    { kind := .parse, text := s!"field {message}.{field} has unknown type {type}" }
  | unknownRpcMessage service rpc message =>
    { kind := .parse, text := s!"rpc {service}.{rpc} uses unknown message {message}" }

end Fault

end DiscoveryGrpc
