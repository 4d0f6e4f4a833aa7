import Blackadder.Lib.ListSet
import Blackadder.Lib.Loops
import Blackadder.Lib.NameGraph
import Blackadder.Lib.Runs
import Blackadder.Lib.Replay
import Blackadder.Lib.Flood
import Blackadder.Lib.Walk
import Blackadder.Lib.Roster
import Blackadder.Lib.Cells
import Blackadder.Lib.Registers
import Blackadder.Lib.Wire
import Blackadder.Lib.StdSet
import Blackadder.Lib.Ledger
import Blackadder.Lib.Pool
import Blackadder.Lib.NormalBasis
import Blackadder.Lib.Koblitz
import Blackadder.Lib.TauAdic
import Blackadder.Lib.Calendar
import Blackadder.Lib.Text
import Blackadder.Lib.SlidingWindow
import Blackadder.Rendezvous.Basic
import Blackadder.Rendezvous.Graph
import Blackadder.Rendezvous.LocalRV
import Blackadder.Rendezvous.Fields
import Blackadder.Rendezvous.Invariant
import Blackadder.Rendezvous.Growth
import Blackadder.Rendezvous.Attach
import Blackadder.Rendezvous.Registrations
import Blackadder.Rendezvous.Detach
import Blackadder.Rendezvous.Effects
import Blackadder.Rendezvous.Pruning
import Blackadder.Rendezvous.Requests
import Blackadder.Rendezvous.Withdrawals
import Blackadder.Rendezvous.Steps
import Blackadder.Rendezvous.Acyclic
import Blackadder.Rendezvous.Representation
import Blackadder.Rendezvous.Records
import Blackadder.Rendezvous.Refusals
import Blackadder.Rendezvous.Orphans
import Blackadder.Rendezvous.Freshness
import Blackadder.Rendezvous.Undo
import Blackadder.Rendezvous.Views
import Blackadder.Rendezvous.Homogeneous
import Blackadder.Lipsin.BitVector
import Blackadder.Lipsin.Forwarder
import Blackadder.Lipsin.Topology
import Blackadder.Lipsin.Multicast
import Blackadder.Lipsin.TMIgraph
import Blackadder.Lipsin.Delivery
import Blackadder.Lipsin.Matching
import Blackadder.Lipsin.Assignment
import Blackadder.Lipsin.Weighted
import Blackadder.Lipsin.TEgraphMF
import Blackadder.Lipsin.Simulated
import Blackadder.Lipsin.CachedFIDs
import Blackadder.Proxy.LocalProxy
import Blackadder.Proxy.Notifications
import Blackadder.Proxy.Tables
import Blackadder.Proxy.Disconnect
import Blackadder.Proxy.Runs
import Blackadder.Proxy.Token
import Blackadder.Proxy.Names
import Blackadder.Proxy.Publications
import Blackadder.Proxy.ByHand
import Blackadder.Proxy.Forwarding
import Blackadder.System.Agreement
import Blackadder.Api.Packets
import Blackadder.Api.Requests
import Blackadder.Api.ClickRequests
import Blackadder.Api.Pipeline
import Blackadder.Api.Assistance
import Blackadder.Api.Lengths
import Blackadder.Api.Manager
import Blackadder.Api.Libraries
import Blackadder.Api.Selector
import Blackadder.Api.Relay
import Blackadder.Api.RoundTrip
import Blackadder.Qos.ByteArray
import Blackadder.Qos.BitFields
import Blackadder.Qos.LSMPacket
import Blackadder.Qos.LongReports
import Blackadder.Qos.LibraryReports
import Blackadder.Qos.MetaDataPacket
import Blackadder.Qos.IIMetaCache
import Blackadder.Qos.LinkWeights
import Blackadder.Qos.ClassSelection
import Blackadder.Qos.LinkMon
import Blackadder.Network.Frames
import Blackadder.Network.Push
import Blackadder.Network.Publications
import Blackadder.Resilience.Paths
import Blackadder.Resilience.Broker
import Blackadder.Resilience.Routes
import Blackadder.Resilience.Recovery
import Blackadder.Resilience.Links
import Blackadder.Resilience.Failures
import Blackadder.Resilience.Messages
import Blackadder.Resilience.Rematch
import Blackadder.Pla.Gnb
import Blackadder.Pla.Field
import Blackadder.Pla.Words
import Blackadder.Pla.Curve
import Blackadder.Pla.Packing
import Blackadder.Pla.Signature
import Blackadder.Pla.Header
import Blackadder.Pla.Window
import Blackadder.Pla.Group
import Blackadder.Pla.Arithmetic
import Blackadder.Pla.Multiply
import Blackadder.Pla.RoundTrip
import Blackadder.Pla.Rejected
import Blackadder.Pla.Receive
import Blackadder.Pla.Forwarding
import Blackadder.Pla.CertFile
import Blackadder.Deployment.Network
import Blackadder.Deployment.Parser
import Blackadder.Deployment.LIDs
import Blackadder.Deployment.ClickFiles
import Blackadder.Deployment.Wired
import Blackadder.AccessControl.Transport
import Blackadder.AccessControl.Requests
import Blackadder.AccessControl.Matches
import Blackadder.Lib.ConcurrentFlow
import Blackadder.Lib.Spread
import Blackadder.System.EndToEnd
import Blackadder.Lipsin.Circulation
import Blackadder.Lipsin.FlowAccounting
import Blackadder.Lipsin.FlowTermination
import Blackadder.Lipsin.FlowCapacity
import Blackadder.Lipsin.FlowApproximation
import Blackadder.Api.Worker
import Blackadder.Lipsin.Unicast
import Blackadder.Deployment.Deployed
import Blackadder.Api.KernelTasks
import Blackadder.Lipsin.WordVector
