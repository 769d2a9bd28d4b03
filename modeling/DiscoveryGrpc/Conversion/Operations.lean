import DiscoveryGrpc.Conversion.Workspace

/-!
# Long running operations

A service whose name ends in `Operations` is polled: its `Get` method is marked. An rpc of another
service that gives an `Operation` names the service to poll, which follows from the scope of its
request: a zone, a region, an organization, or none of them.
-/

namespace DiscoveryGrpc.Conversion

open Proto

/-- Whether a service is polled for operations. -/
def isOperationService (name : String) : Bool :=
  "Operations".toList.isSuffixOf name.toList

/-- The service to poll for the operations that a request starts. -/
def operationTarget (request? : Option Message) : String :=
  let has (name : String) : Bool := request?.any fun r => (r.field? name).isSome
  if has "zone" then "ZoneOperations"
  else if has "region" then "RegionOperations"
  else if has "parent_id" then "GlobalOrganizationOperations"
  else "GlobalOperations"

/-- What an rpc says about operations. -/
def operationSettings (messages : Table Message) (operationServices : NameSet) (service : String)
    (r : Rpc) : List Setting :=
  if operationServices.contains service then
    if r.name = "Get" then [.scalar Setting.operationPolling (.bool true)] else []
  else if r.output = "Operation" then
    let target := operationTarget (messages.get? r.input)
    if operationServices.contains target then [.string Setting.operationService target] else []
  else []

/-- A service whose rpcs say what they have to about operations. -/
def withOperations (messages : Table Message) (operationServices : NameSet) (s : Service) :
    Service :=
  { s with rpcs := s.rpcs.mapValues fun r =>
      { r with settings := r.settings ++ operationSettings messages operationServices s.name r } }

/-- Services whose rpcs say what they have to about operations. -/
def addOperations (messages : Table Message) (services : Table Service) : Table Service :=
  let operationServices := services.names.filter isOperationService
  services.mapValues (withOperations messages operationServices)

end DiscoveryGrpc.Conversion
