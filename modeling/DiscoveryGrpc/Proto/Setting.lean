/-!
# Options

A file, a service, a method and a field can carry options: a name with one value, or with a group
of named values between braces. The names that the converter itself uses are listed here.
-/

namespace DiscoveryGrpc.Proto

/-- A value in an option. -/
inductive SettingValue
  | string (s : String)
  | bool (b : Bool)
  | int (i : Int)
  /-- A bare word such as `REQUIRED`. -/
  | literal (word : String)
  deriving DecidableEq, Repr

/-- What an option is set to. -/
inductive SettingBody
  | scalar (value : SettingValue)
  /-- Named values, in the order in which they are written. -/
  | group (entries : List (String × SettingValue))
  deriving DecidableEq, Repr

/-- An option that is set. -/
structure Setting where
  name : String
  body : SettingBody
  deriving DecidableEq, Repr

namespace Setting

/-- An option set to one value. -/
def scalar (name : String) (value : SettingValue) : Setting := ⟨name, .scalar value⟩

/-- An option set to a string. -/
def string (name value : String) : Setting := scalar name (.string value)

/-- An option set to named values. -/
def group (name : String) (entries : List (String × SettingValue)) : Setting :=
  ⟨name, .group entries⟩

/-- The value of an option with one value. -/
def value? (s : Setting) : Option SettingValue :=
  match s.body with
  | .scalar v => some v
  | .group _ => none

/-- The first value under a key of an option with named values. -/
def property? (s : Setting) (key : String) : Option SettingValue :=
  match s.body with
  | .scalar _ => none
  | .group entries => entries.lookup key

/-- Custom options have a dotted name, which is written between parentheses. -/
def isCustom (s : Setting) : Bool := s.name.toList.contains '.'

/-! ## The options in use -/

def http : String := "google.api.http"
def methodSignature : String := "google.api.method_signature"
def defaultHost : String := "google.api.default_host"
def oauthScopes : String := "google.api.oauth_scopes"
def apiVersion : String := "google.api.api_version"
def fieldBehavior : String := "google.api.field_behavior"
def resourceDefinition : String := "google.api.resource_definition"
def operationService : String := "google.cloud.operation_service"
def operationPolling : String := "google.cloud.operation_polling_method"
def deprecated : String := "deprecated"

/-- Marks a field that has to be set. -/
def required : Setting := scalar fieldBehavior (.literal "REQUIRED")

end Setting

/-- The string in a value that is one. -/
def SettingValue.string? : SettingValue → Option String
  | string s => some s
  | _ => none

end DiscoveryGrpc.Proto
