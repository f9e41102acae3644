import Beethoven.Lib.TransitionSystem
import Beethoven.Lib.Coupling
import Beethoven.Lib.OrderedSet
import Beethoven.Lib.Runs
import Beethoven.Lib.Rendezvous
import Beethoven.Lib.Claims
import Beethoven.Lib.Mailboxes
import Beethoven.Lib.InFlight
import Beethoven.Lib.Reassembly
import Beethoven.Lib.Sharing
import Beethoven.Lib.AddressSpace
import Beethoven.Lib.AccessProgram
import Beethoven.Lib.PolledStream
import Beethoven.Lib.Framing
import Beethoven.Lib.BitField
import Beethoven.Lib.FileLock
import Beethoven.Lib.Utf8
import Beethoven.Lib.Replace
import Beethoven.Lib.ShellWords
import Beethoven.Lib.FileTree
import Beethoven.Lib.Clocked
import Beethoven.Lib.ArrayLoops
import Beethoven.Lib.Calendar
import Beethoven.Lib.Decimal
import Beethoven.Lib.SignedWord
import Beethoven.Lib.Outcome
import Beethoven.Lib.SlidingWindow
import Beethoven.Lib.Distances
import Beethoven.Lib.WriteBuffer
import Beethoven.Allocator.DeviceAllocator
import Beethoven.Allocator.Arithmetic
import Beethoven.Allocator.Layout
import Beethoven.Allocator.LayoutSteps
import Beethoven.Allocator.Outcomes
import Beethoven.Allocator.Session
import Beethoven.Allocator.Ownership
import Beethoven.Allocator.Requests
import Beethoven.Allocator.Restoration
import Beethoven.Allocator.Segments
import Beethoven.Allocator.Addresses
import Beethoven.Command.Rocc
import Beethoven.Command.Packing
import Beethoven.Command.CmdServer
import Beethoven.Command.Steps
import Beethoven.Command.Handshake
import Beethoven.Command.Submission
import Beethoven.Command.Shutdown
import Beethoven.Command.Collection
import Beethoven.Command.Slots
import Beethoven.Command.Flow
import Beethoven.Command.Routing
import Beethoven.Command.Unsolicited
import Beethoven.DataServer.Translator
import Beethoven.DataServer.Refinement
import Beethoven.DataServer.Dma
import Beethoven.DataServer.DmaEngine
import Beethoven.DataServer.DmaThreads
import Beethoven.DataServer.Server
import Beethoven.Memory.Transaction
import Beethoven.Memory.Controller
import Beethoven.Memory.Reads
import Beethoven.Memory.Delivery
import Beethoven.Memory.Tracking
import Beethoven.Memory.Writes
import Beethoven.Memory.Ordering
import Beethoven.Memory.WriteData
import Beethoven.Memory.Responses
import Beethoven.Memory.Answers
import Beethoven.Memory.Containment
import Beethoven.Memory.Lanes
import Beethoven.Memory.WideSignals
import Beethoven.Control.AXIControl
import Beethoven.Control.Exclusion
import Beethoven.Control.Accesses
import Beethoven.Control.CommandStream
import Beethoven.Control.ResponseStream
import Beethoven.Control.Simulation
import Beethoven.Client.RemotePtr
import Beethoven.Client.Unmapping
import Beethoven.Client.Handle
import Beethoven.Client.DataCalls
import Beethoven.Client.CacheMaintenance
import Beethoven.Baremetal.Driver
import Beethoven.Baremetal.Collection
import Beethoven.Daemon.SingletonLock
import Beethoven.Daemon.Exclusion
import Beethoven.Daemon.LockfilePath
import Beethoven.Cli.Pipeline
import Beethoven.Cli.TestbenchMode
import Beethoven.Cli.ShellQuote
import Beethoven.Cli.Paths
import Beethoven.Cli.Files
import Beethoven.Cli.Uninstall
import Beethoven.Cli.Update
import Beethoven.Cli.Template
import Beethoven.Cli.Scaffold
import Beethoven.Cli.Timestamp
import Beethoven.Chipkit.Uart
import Beethoven.Chipkit.Transmit
import Beethoven.Chipkit.Receive
import Beethoven.Chipkit.MemFile
import Beethoven.Chipkit.Placement
import Beethoven.Dram.Configuration
import Beethoven.Dram.AddressMapping
import Beethoven.Dram.Timing
import Beethoven.Dram.BankState
import Beethoven.Dram.ChannelState
import Beethoven.Dram.CommandQueue
import Beethoven.Dram.Controller
import Beethoven.Dram.Selection
import Beethoven.Dram.Bookkeeping
import Beethoven.Dram.DramSystem
import Beethoven.Dram.Issued
import Beethoven.Dram.Coherence
import Beethoven.Dram.WriteDrain
import Beethoven.Dram.RefreshSchedule
import Beethoven.Memory.WithDram
