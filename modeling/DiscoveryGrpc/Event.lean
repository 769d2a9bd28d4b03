import DiscoveryGrpc.Text.Quoted

/-!
# The log of a run

What a run notes while it works, in the order in which it happens. Each constructor is one kind of
note; `Event.level` and `Event.text` give the line that is shown for it.
-/

namespace DiscoveryGrpc

/-- How much a note matters. -/
inductive Level
  | debug
  | info
  | warn
  deriving DecidableEq, Repr

/-- How a level is called. -/
def Level.label : Level → String
  | debug => "DEBUG"
  | info => "INFO"
  | warn => "WARN"

/-- One note. -/
inductive Event
  -- reading
  | readDocument (name version : String) (schemas resources : Nat)
  | loadedConfig (locations : Nat)
  -- conversion
  | ignoringSchema (key : String)
  | skippingSchema (key : String)
  | repeatedEnumValue (enum value : String)
  | keepingMessage (name : String)
  | ignoringService (name : String)
  | skippingMethod (id message : String)
  | noResource (pattern : String)
  | droppingField (message field : String)
  | removingEnums (names : List String) (message : String)
  | converted (name version : String) (messages services : Nat)
  -- merging
  | mergingPrevious (messages services : Nat)
  | lostMessage (name : String)
  | droppingOldField (message field : String)
  | merged (package : String) (restored : Nat)
  deriving DecidableEq, Repr

namespace Event

/-- The level of a note. Only a method left out is worth a warning. -/
def level : Event → Level
  | skippingMethod .. => .warn
  | converted .. => .info
  | merged .. => .info
  | _ => .debug

/-- The line of a note. -/
def text : Event → String
  | readDocument name version schemas resources =>
    s!"read discovery document {name}.{version} with {schemas} schemas and {resources} resources"
  | loadedConfig locations =>
    s!"loaded {locations} inline schema locations from configuration"
  | ignoringSchema key => s!"ignoring schema {key}"
  | skippingSchema key => s!"skipping top level schema {key} that is not an object"
  | repeatedEnumValue enum value => s!"enum {enum} has value {value} twice"
  | keepingMessage name => s!"keeping the first {name} message"
  | ignoringService name => s!"ignoring service {name}"
  | skippingMethod id message => s!"skipping method {id} using ignored message {message}"
  | noResource pattern => s!"no resource definition for pattern {pattern}"
  | droppingField message field => s!"dropping field {message}.{field} of ignored type"
  | removingEnums names message =>
    let shown := Text.quoteSet names
    s!"removing enums {shown} from {message} because their values collide"
  | converted name version messages services =>
    s!"converted {name}.{version} into {messages} messages and {services} services"
  | mergingPrevious messages services =>
    s!"merging previous proto with {messages} messages and {services} services"
  | lostMessage name => s!"message {name} is not generated anymore"
  | droppingOldField message field => s!"dropping old field {message}.{field}, its type is gone"
  | merged package restored =>
    s!"merged previous proto into {package}, restored {restored} fields"

end Event

/-- The notes of a run, first to last. -/
abbrev Log := List Event

end DiscoveryGrpc
