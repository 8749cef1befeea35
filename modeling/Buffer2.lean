import Buffer2.CommandLine.Basic
import Buffer2.CommandLine.Errors
import Buffer2.CommandLine.Marks
import Buffer2.CommandLine.Options
import Buffer2.CommandLine.Order
import Buffer2.CommandLine.Parseint
import Buffer2.CommandLine.RequestSize
import Buffer2.CommandLine.RoundTrip
import Buffer2.CommandLine.Rounding
import Buffer2.CommandLine.Settings
import Buffer2.CommandLine.Sizes
import Buffer2.Fifo.Construction
import Buffer2.Fifo.Fragments
import Buffer2.Fifo.Lengths
import Buffer2.Fifo.Misuse
import Buffer2.Fifo.Progress
import Buffer2.Fifo.Refinement
import Buffer2.Fifo.Shutdown
import Buffer2.Fifo.Statements
import Buffer2.Fifo.Statistics
import Buffer2.Fifo.WaterMark
import Buffer2.Fifo.Woken
import Buffer2.Io.Basic
import Buffer2.Io.Descriptors
import Buffer2.Io.Steps
import Buffer2.Ipc.Event
import Buffer2.Ipc.Log
import Buffer2.Ipc.Mutex
import Buffer2.Ipc.Overtaken
import Buffer2.Ipc.Resume
import Buffer2.Ipc.Steps
import Buffer2.Machine.Cache
import Buffer2.Machine.Composition
import Buffer2.Machine.Fold
import Buffer2.Machine.Lock
import Buffer2.Machine.Loop
import Buffer2.Machine.Occurrence
import Buffer2.Machine.Pipeline
import Buffer2.Machine.Potential
import Buffer2.Machine.Recursive
import Buffer2.Machine.Section
import Buffer2.Machine.Threads
import Buffer2.Memory.ByteOrder
import Buffer2.Memory.Ownership
import Buffer2.PerfCount.Basic
import Buffer2.PerfCount.Elapsed
import Buffer2.Pointers.Custody
import Buffer2.Pointers.Exclusive
import Buffer2.Pointers.OwnPtr
import Buffer2.Pointers.SglOwnPtr
import Buffer2.Pointers.Singleton
import Buffer2.Pointers.Steps
import Buffer2.Program.Basic
import Buffer2.Program.Transfer
import Buffer2.Program.WaterMarks
import Buffer2.Rounding.Basic
import Buffer2.Scanf.Basic
import Buffer2.Scanf.Decimal
import Buffer2.Scanf.Numeral
import Buffer2.Simple.Basic
import Buffer2.Simple.Ledger
import Buffer2.Simple.Progress
import Buffer2.Simple.Results
import Buffer2.Simple.RoundTrip
import Buffer2.Tcpip.Basic
import Buffer2.Tcpip.Port
import Buffer2.Tcpip.RoundTrip
import Buffer2.Workers.Basic
import Buffer2.Workers.ExitValue
import Buffer2.Workers.Flow
import Buffer2.Workers.Lengths
import Buffer2.Workers.Requests
import Buffer2.Workers.Statements
import Buffer2.Workers.Statistics
import Buffer2.Workers.Status
import Buffer2.Workers.Termination
import Buffer2.Workers.Transfer
import Buffer2.Workers.WaitFailure
import Buffer2.Workers.Work
