import HMC.Machine.Blocks
import HMC.Machine.CString
import HMC.Machine.Endian
import HMC.Machine.Log
import HMC.Machine.Packed
import HMC.Machine.Places
import HMC.Machine.Retirement
import HMC.Machine.PostingLoop
import HMC.Machine.Run
import HMC.Machine.SendQueues
import HMC.Machine.Settle
import HMC.Machine.SlotRing
import HMC.Machine.Splice
import HMC.Machine.Stream
import HMC.Machine.Strided
import HMC.Machine.Strtoul
import HMC.Machine.Tables
import HMC.Comm.Bounds
import HMC.Comm.Clients
import HMC.Comm.ConnManager
import HMC.Comm.ConnectTo
import HMC.Comm.ConnectP2p
import HMC.Comm.DataReady
import HMC.Comm.Inflight
import HMC.Comm.Lifetime
import HMC.Comm.WaitList
import HMC.Core.Basic
import HMC.Core.ConnBuffer
import HMC.Core.HostBuffer
import HMC.Core.Environ
import HMC.Core.Chunks
import HMC.Core.Tiles
import HMC.Ctrl.Link
import HMC.Ctrl.Frame
import HMC.Ctrl.Connection
import HMC.Ctrl.Senders
import HMC.Ctrl.BrokenFrames
import HMC.Ctrl.Reconnect
import HMC.Ctrl.UdsPath
import HMC.Ucx.Endpoint
import HMC.Ucx.Wait
import HMC.Ucx.Handshake
import HMC.Uhm.Model
import HMC.Uhm.SenderOrder
import HMC.Uhm.ReceiverOrder
import HMC.Uhm.Order
import HMC.Uhm.Exclusion
import HMC.Uhm.Session
import HMC.Uhm.Calls
import HMC.Uhm.Isolation
import HMC.Uhm.Geometry
import HMC.Uhm.Staging
import HMC.Uhm.Delivery
import HMC.Uhm.Integrity
import HMC.Uhm.Signals
import HMC.Uhm.Progress
import HMC.Uhm.Side
import HMC.Uhm.Untrusted
import HMC.Uhm.Willing
import HMC.Uhm.StagingStatus
import HMC.Uhm.SenderQueues
import HMC.Uhm.ReceiverQueues
import HMC.Uhm.QueueBound
import HMC.Collective.Ring
import HMC.Collective.Direct
import HMC.Collective.Connect
import HMC.Collective.Chunked
import HMC.Collective.Group
import HMC.Collective.Alltoall
import HMC.Python.Bindings
import HMC.Python.IOBuffer
import HMC.Python.Put
import HMC.Python.Relay
import HMC.Rdma.Completion
import HMC.Rdma.WaitSteps
import HMC.Rdma.Served
import HMC.Rdma.Outcomes
import HMC.Rdma.Window
import HMC.Rdma.Tiling
import HMC.Rdma.Endpoint
import HMC.Rdma.Pipeline
import HMC.Rdma.Issued
import HMC.Rdma.WrId
import HMC.Rdma.Server
import HMC.Rdma.MetaExchange
import HMC.Rdma.MetaSockets
import HMC.Rdma.Narrowing
import HMC.Rdma.QueuePairs
import HMC.Rdma.DataLink
import HMC.Rdma.Disconnect
import HMC.Machine.Ledger
import HMC.Machine.Setup
import HMC.Machine.Landing
import HMC.Machine.Holders
import HMC.Rdma.Resources
import HMC.Rdma.Accounts
import HMC.Ctrl.Descriptors
import HMC.Ctrl.NumberReuse
import HMC.Comm.Servers
import HMC.App.WriteStage
