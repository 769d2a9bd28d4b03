import DiscoveryGrpc.Pipeline
import DiscoveryGrpc.Proofs.Api.Arena
import DiscoveryGrpc.Proofs.Config.Loading
import DiscoveryGrpc.Proofs.Name.Camel
import DiscoveryGrpc.Proofs.Name.Spelling
import DiscoveryGrpc.Proofs.Proto.History
import DiscoveryGrpc.Proofs.Proto.Padding
import DiscoveryGrpc.Proofs.Proto.Rearranged
import DiscoveryGrpc.Proofs.Proto.Remerge
import DiscoveryGrpc.Proofs.Proto.Resolved
import DiscoveryGrpc.Proofs.Proto.Stability
import DiscoveryGrpc.Proofs.Run.Chain
import DiscoveryGrpc.Proofs.Run.Closed
import DiscoveryGrpc.Proofs.Run.Dangling
import DiscoveryGrpc.Proofs.Run.EnumStrings
import DiscoveryGrpc.Proofs.Run.MergedText
import DiscoveryGrpc.Proofs.Run.PathVariables
import DiscoveryGrpc.Proofs.Run.ReadBack
import DiscoveryGrpc.Proofs.Run.References
import DiscoveryGrpc.Proofs.Run.Regeneration
import DiscoveryGrpc.Proofs.Run.Resources
import DiscoveryGrpc.Proofs.Run.Rewriting
import DiscoveryGrpc.Proofs.Run.Rpcs
import DiscoveryGrpc.Proofs.Run.Sharing
import DiscoveryGrpc.Proofs.Run.Undocumented
