import Vans.Common.Machine
import Vans.Common.Keyed
import Vans.Common.Words
import Vans.Common.Digits
import Vans.Common.History
import Vans.Common.Merge
import Vans.Common.Regions
import Vans.Common.Window
import Vans.Common.Numerals
import Vans.Common.Lines
import Vans.Common.Slots
import Vans.Model.Base
import Vans.Model.Component
import Vans.Model.Recorded
import Vans.Model.Interleave
import Vans.Model.Eviction
import Vans.Model.Numbering
import Vans.Imc.Model
import Vans.Imc.Delivery
import Vans.Imc.Order
import Vans.Imc.Fcfs
import Vans.Imc.Drain
import Vans.Nvram.System
import Vans.Dram.System
import Vans.Imc.Flush
import Vans.Rmc.Retry
import Vans.Dram.Retire
import Vans.Dram.Exact
import Vans.Rmc.Model
import Vans.Trace.Model
import Vans.Trace.Order
import Vans.Trace.Replay
import Vans.Trace.Reader
import Vans.Trace.Grammar
import Vans.Rmw.Model
import Vans.Rmw.Step
import Vans.Rmw.Moves
import Vans.Rmw.Invariant
import Vans.Rmw.Writes
import Vans.Rmw.Order
import Vans.Rmw.Reads
import Vans.Ait.Model
import Vans.Ait.Moves
import Vans.Ait.Invariant
import Vans.Ait.Engine
import Vans.Ait.Serial
import Vans.Ait.Wear
import Vans.Ait.Total
import Vans.Rmw.Waiting
import Vans.Rmw.Total
import Vans.Rmw.Complete
import Vans.Rmw.Eviction
import Vans.Rmw.Numbering
import Vans.Rmw.Counters
import Vans.Rmw.ReadCounters
import Vans.Ait.Eviction
import Vans.Ait.Numbering
import Vans.Nvram.Wakeup
import Vans.Rmw.Addresses
import Vans.Rmc.Addresses
import Vans.Dram.Model
import Vans.Dram.Timing
import Vans.Dram.Controller
import Vans.Dram.Safety
import Vans.Dram.Ddr4
import Vans.Dram.Mapping
import Vans.Dram.Moves
import Vans.Dram.Ledger
import Vans.Dram.Rows
import Vans.Dram.Scheduler
import Vans.Dram.Conserved
import Vans.Dram.LineOrder
import Vans.Dram.Progress
import Vans.Dram.Backlog
import Vans.Dram.Service
import Vans.Dram.Room
import Vans.Dram.Deadlines
import Vans.Dram.Liveness
import Vans.Dram.Drain
import Vans.Model.Serves
import Vans.Dram.Serves
import Vans.Imc.Serves
import Vans.Model.Clears
import Vans.Model.Clocked
import Vans.Dram.Clears
import Vans.Imc.Clears
import Vans.Rmc.Serves
import Vans.Common.Fifos
import Vans.Gem5.Model
import Vans.Gem5.Moves
import Vans.Gem5.Packets
import Vans.Gem5.Handshake
import Vans.Gem5.Service
import Vans.Gem5.LowMemory
import Vans.Gem5.Calls
import Vans.Gem5.Drains
import Vans.Gem5.HighMemory
import Vans.Rmc.Pending
import Vans.Ait.Outstanding
import Vans.Ait.LocalMemory
import Vans.Ait.Lmemq
import Vans.Config.Model
import Vans.Config.RoundTrip
import Vans.Factory.Model
import Vans.Factory.Build
import Vans.Cxl.Model
import Vans.Cxl.Reference
import Vans.Cxl.Host
import Vans.Cxl.Dispatch
