import Secdogie.Agent.Trace
import Secdogie.Agent.SkillRuns
import Secdogie.Citadel.StateStore
import Secdogie.Lib.FirstN
import Secdogie.Lib.FirstPer
import Secdogie.Lib.Grouping
import Secdogie.Lib.RankedDag
import Secdogie.Lib.StrMap
import Secdogie.Atlas.MctCommand
import Secdogie.Atlas.ReportJob
import Secdogie.Citadel.Goals
import Secdogie.Citadel.ActionGate
import Secdogie.Citadel.Memory
import Secdogie.Dialogue.Stream
import Secdogie.Fleet.Site
import Secdogie.Graph.Convergence
import Secdogie.Graph.DeltaRoundTrip
import Secdogie.Graph.LongHistory
import Secdogie.Graph.Plan
import Secdogie.Graph.Reexport
import Secdogie.Graph.RawText
import Secdogie.Graph.Recordable
import Secdogie.Identity.Did
import Secdogie.Identity.Quorum
import Secdogie.Identity.Trust
import Secdogie.Inference.Broker
import Secdogie.Inference.Health
import Secdogie.Inference.ClientRuns
import Secdogie.Inference.Screen
import Secdogie.Inference.Topology
import Secdogie.Transport.Gossip
import Secdogie.Transport.Dht
import Secdogie.Transport.Relay
import Secdogie.Transport.Upgrade
import Secdogie.Tunnel.Agreement
import Secdogie.Tunnel.Hub
import Secdogie.Tunnel.Replayed
import Secdogie.Dialogue.Inspected
import Secdogie.Dialogue.ReplayGuard
import Secdogie.Dialogue.ProbeLedger
import Secdogie.Dialogue.Rounds
import Secdogie.Atlas.Chains
import Secdogie.Atlas.ControlLoop
import Secdogie.Agent.Risk
import Secdogie.Symbiont.Discipline
import Secdogie.Agent.FocusNav
import Secdogie.Agent.Target
import Secdogie.Agent.Elevate
import Secdogie.Agent.Adapter
import Secdogie.Agent.Pruned
import Secdogie.Agent.Stitch
import Secdogie.Agent.Fused
import Secdogie.Transport.TokenBucket
import Secdogie.Transport.Buckets
import Secdogie.Atlas.PrivilegeTwin
import Secdogie.Signaling.Told
import Secdogie.Identity.Capability
