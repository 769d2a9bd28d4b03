import DiscoveryGrpc.Proto.Message
import DiscoveryGrpc.Proto.Service

/-!
# Proto files

A file has messages and services by name and the options that define resources. Where it came from
is kept for its header only: it takes no part in comparison, and neither do descriptions.
-/

namespace DiscoveryGrpc.Proto

/-- Where a file came from. -/
structure Source where
  filename : String := ""
  name : String := ""
  version : String := ""
  revision : String := ""
  deriving DecidableEq, Repr

/-- A proto file. -/
structure File where
  package : String := ""
  messages : Table Message := []
  services : Table Service := []
  /-- The options at the top level. -/
  settings : List Setting := []
  source : Source := {}
  deriving DecidableEq

namespace File

/-- The content of a file without descriptions and source. -/
def undocumented (f : File) : File :=
  { f with
    messages := f.messages.mapValues Message.undocumented
    services := f.services.mapValues Service.undocumented
    source := {} }

/-- Whether two files agree up to descriptions and source. -/
def same (a b : File) : Bool := a.undocumented == b.undocumented

end File

end DiscoveryGrpc.Proto
