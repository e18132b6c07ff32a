import Awcotn.Foundation.Run
import Awcotn.Foundation.OrderedSet
import Awcotn.Foundation.Ledger
import Awcotn.Foundation.Process
import Awcotn.Timer.Manager
import Awcotn.Timer.Order
import Awcotn.Timer.Expiry
import Awcotn.Timer.Callbacks
import Awcotn.Timer.Armed
import Awcotn.Timer.History
import Awcotn.Timer.Front
import Awcotn.IOManager.Manager
import Awcotn.IOManager.Delivery
import Awcotn.IOManager.Pending
import Awcotn.IOManager.Registration
import Awcotn.IOManager.Table
import Awcotn.IOManager.Twice
import Awcotn.IOManager.Wakeup
import Awcotn.Scheduler.Active
import Awcotn.Scheduler.Exclusive
import Awcotn.Scheduler.Lifetime
import Awcotn.Scheduler.Dequeue
import Awcotn.Scheduler.Lifecycle
import Awcotn.Scheduler.Reuse
import Awcotn.Hook.Calls
import Awcotn.Hook.Closing
import Awcotn.Hook.Closed
import Awcotn.Hook.Shared
import Awcotn.Hook.Timeouts
import Awcotn.Hook.Waiting
import Awcotn.Hook.Blocking
import Awcotn.EntryPoint.Modes
import Awcotn.EntryPoint.Fresh
import Awcotn.EntryPoint.Transparent
import Awcotn.Config.RoundTrip
import Awcotn.Log.Codec
import Awcotn.Log.Grammar
import Awcotn.Log.Reloaded
import Awcotn.Shutdown.Program
import Awcotn.Shutdown.Returned
import Awcotn.Hook.Deadlines
import Awcotn.EntryPoint.Limits
import Awcotn.Hook.Connect
import Awcotn.EntryPoint.Sleeping
import Awcotn.IOManager.Idle
import Awcotn.Timer.Conserved
import Awcotn.Timer.Early
import Awcotn.Timer.Gap
import Awcotn.Config.Listeners
import Awcotn.Config.LoadFromYaml
import Awcotn.Log.Scan
import Awcotn.Hook.Contexts
import Awcotn.EntryPoint.Descriptors
import Awcotn.Log.Restored
import Awcotn.Scheduler.Pinned
import Awcotn.Scheduler.AtRest
import Awcotn.Scheduler.Switching
import Awcotn.Scheduler.Fifo
import Awcotn.Scheduler.References
import Awcotn.Scheduler.ThreadRuns
import Awcotn.Foundation.Holders
import Awcotn.Config.Registry
import Awcotn.Config.Directory
import Awcotn.Config.Overlap
import Awcotn.Config.Keys
import Awcotn.Log.Output
import Awcotn.Thread.Start
import Awcotn.Foundation.Locking
import Awcotn.Locks.Functions
import Awcotn.Locks.Order
import Awcotn.Scheduler.Turns
import Awcotn.Log.Accepted
import Awcotn.Scheduler.Restart
import Awcotn.Foundation.Streams
import Awcotn.Log.Files
