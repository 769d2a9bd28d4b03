/-!
# Reports of failures

What a caller is told when a run stops: a kind to decide on, a message, the foreign cause if there
is one, and one detail per problem when a pass collects several.
-/

namespace DiscoveryGrpc

/-- The kinds of failure. -/
inductive Kind
  /-- A malformed name, path template or method. -/
  | format
  /-- A schema that the target language cannot express. -/
  | unsupportedSchema
  /-- Two things that need the same name. -/
  | nameCollision
  /-- Methods of one service that disagree on their version. -/
  | inconsistentApiVersions
  /-- A configuration that does not match the document. -/
  | configurationDrift
  /-- Input that is no valid document or configuration. -/
  | invalidArgument
  /-- Proto text that cannot be read. -/
  | parse
  deriving DecidableEq, Repr

/-- How a kind of failure is called. -/
def Kind.label : Kind → String
  | format => "format"
  | unsupportedSchema => "unsupported schema"
  | nameCollision => "name collision"
  | inconsistentApiVersions => "inconsistent api versions"
  | configurationDrift => "configuration drift"
  | invalidArgument => "invalid argument"
  | parse => "parse"

/-- A failure as it is told. -/
structure Report where
  kind : Kind
  text : String
  cause : Option String := none
  details : List String := []
  deriving DecidableEq, Repr

namespace Report

/-- The report on one line, followed by one line per detail. -/
def display (r : Report) : String :=
  let cause := match r.cause with
    | some cause => ", was caused by " ++ cause
    | none => ""
  let details := r.details.map ("\n  - " ++ ·)
  s!"Error ({r.kind.label}): {r.text}" ++ cause ++ String.join details

/-- Whether a run failed because the methods of a service disagree on their version. -/
def isInconsistentApiVersions (r : Report) : Bool := r.kind = .inconsistentApiVersions

end Report

end DiscoveryGrpc
