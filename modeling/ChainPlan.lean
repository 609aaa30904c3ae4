import ChainPlan.Main
import ChainPlan.Handler.Printer
import ChainPlan.Handler.Summary
import ChainPlan.Codec.Settings
import ChainPlan.Proofs.Meaning
import ChainPlan.Proofs.Planning
import ChainPlan.Proofs.Telemetry
import ChainPlan.Proofs.Optimum
import ChainPlan.Proofs.Sides
import ChainPlan.Proofs.Occurrences
import ChainPlan.Proofs.Strategies
import ChainPlan.Proofs.Consolidation
import ChainPlan.Proofs.Preservation
import ChainPlan.Proofs.Stability
import ChainPlan.Proofs.TrafficCost
import ChainPlan.Proofs.Boundary
import ChainPlan.Proofs.RenamedProfiles
import ChainPlan.Proofs.Refusals
import ChainPlan.Proofs.Forwarding
import ChainPlan.Proofs.Serialization
import ChainPlan.Proofs.Hoisting
import ChainPlan.Proofs.LocalOptimum
import ChainPlan.Proofs.References
import ChainPlan.Proofs.Partners
import ChainPlan.Proofs.Rows
import ChainPlan.Proofs.MarkerPlaces
import ChainPlan.Proofs.Splitting
import ChainPlan.Proofs.FusedState
import ChainPlan.Proofs.Grouping
import ChainPlan.Proofs.Duplicates
import ChainPlan.Proofs.SideMoves
import ChainPlan.Proofs.ArmOrder
import ChainPlan.Proofs.NormalForm
import ChainPlan.Proofs.Detection
import ChainPlan.Proofs.FusedProperties
import ChainPlan.Proofs.MalformedProperties
import ChainPlan.Proofs.Texts
