import DiscoveryGrpc.Table
import DiscoveryGrpc.Proto.Setting

/-!
# Services and their methods

A service has rpcs by name, each with the message it takes and the message it gives.
-/

namespace DiscoveryGrpc.Proto

/-- A method of a service. -/
structure Rpc where
  name : String
  input : String
  output : String
  description : String := ""
  settings : List Setting := []
  deriving DecidableEq, Repr

namespace Rpc

/-- The rpc without its description. -/
def undocumented (r : Rpc) : Rpc := { r with description := "" }

/-- The options with a name. -/
def settingsNamed (r : Rpc) (name : String) : List Setting := r.settings.filter (·.name == name)

end Rpc

/-- A service. -/
structure Service where
  name : String
  description : String := ""
  settings : List Setting := []
  rpcs : Table Rpc := []
  deriving DecidableEq, Repr

namespace Service

/-- The service without descriptions. -/
def undocumented (s : Service) : Service :=
  { s with description := "", rpcs := s.rpcs.mapValues Rpc.undocumented }

/-- Whether two services agree up to their descriptions. -/
def same (a b : Service) : Bool := a.undocumented == b.undocumented

end Service

end DiscoveryGrpc.Proto
