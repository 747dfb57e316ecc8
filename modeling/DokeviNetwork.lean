import DokeviNetwork.Support.Run
import DokeviNetwork.Support.Region
import DokeviNetwork.Support.Linked
import DokeviNetwork.Support.Related
import DokeviNetwork.Support.Loop
import DokeviNetwork.Support.Framing
import DokeviNetwork.Support.Workers
import DokeviNetwork.Support.Wrap
import DokeviNetwork.Support.Maps
import DokeviNetwork.Support.LittleEndian
import DokeviNetwork.Core.NetworkUtils
import DokeviNetwork.Pool.History
import DokeviNetwork.Pool.MistakenFrees
import DokeviNetwork.Pool.Layout
import DokeviNetwork.Pool.Indices
import DokeviNetwork.Pool.Reclaim
import DokeviNetwork.Queue.Misuse
import DokeviNetwork.Queue.Producers
import DokeviNetwork.Packet.Accounts
import DokeviNetwork.Packet.Capacity
import DokeviNetwork.SendQueue.Memory
import DokeviNetwork.SendQueue.Abstract
import DokeviNetwork.SendQueue.Bounds
import DokeviNetwork.SendQueue.Stream
import DokeviNetwork.SendQueue.Isolation
import DokeviNetwork.SendQueue.Failure
import DokeviNetwork.Receive.RoundTrip
import DokeviNetwork.Server.Packets
import DokeviNetwork.Receive.Limits
import DokeviNetwork.Receive.Progress
import DokeviNetwork.Client.SendPacket
import DokeviNetwork.Client.Sessions
import DokeviNetwork.Client.RecvPacket
import DokeviNetwork.Client.Lifecycle
import DokeviNetwork.Sync.Exclusion
import DokeviNetwork.Sync.Writers
import DokeviNetwork.Sync.Reentrancy
import DokeviNetwork.Sync.LockCalls
import DokeviNetwork.Server.Receives
import DokeviNetwork.Server.Disconnects
import DokeviNetwork.Server.Slots
import DokeviNetwork.Server.Callbacks
import DokeviNetwork.Progress.Takeover
import DokeviNetwork.Progress.EarlyTakeover
import DokeviNetwork.Progress.Timeouts
import DokeviNetwork.Trace.LockStackTracer
import DokeviNetwork.Trace.CrashReport
import DokeviNetwork.Config.ConfigManager
import DokeviNetwork.Threads.Indices
import DokeviNetwork.Threads.Removal
import DokeviNetwork.Threads.Shutdown
import DokeviNetwork.Trace.Registration
import DokeviNetwork.Trace.TracerLock
import DokeviNetwork.SendQueue.Batching
import DokeviNetwork.SendQueue.Drain
import DokeviNetwork.Server.Sends
import DokeviNetwork.Server.Uplink
import DokeviNetwork.Server.Downlink
import DokeviNetwork.Sync.Sections
import DokeviNetwork.SendQueue.Interleaved
import DokeviNetwork.SendQueue.Quiescence
import DokeviNetwork.Queue.Sizes
import DokeviNetwork.Server.Work
