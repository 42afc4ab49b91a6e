import KernelElevator.Scheduler
import KernelElevator.Library.Delivery
import KernelElevator.Accounting
import KernelElevator.Service
import KernelElevator.Frames
import KernelElevator.Position
import KernelElevator.Offload
import KernelElevator.StopKept
import KernelElevator.Iteration
import KernelElevator.Restart
import KernelElevator.Ride
import KernelElevator.Records
import KernelElevator.Leaks
import KernelElevator.Completion
import KernelElevator.Overtaking
import KernelElevator.Indices
import KernelElevator.Requests
import KernelElevator.FloorStop
import KernelElevator.Drain
import KernelElevator.Library.Decimal
import KernelElevator.XTime
import KernelElevator.Loading
import KernelElevator.ProcFile
import KernelElevator.Library.Ring
import KernelElevator.Library.TailInsertion
import KernelElevator.Insertion
import KernelElevator.Startup
import KernelElevator.LateStart
import KernelElevator.EarlyUse
import KernelElevator.Library.Lines
import KernelElevator.ReportedLoad
import KernelElevator.Buffers
import KernelElevator.ReadContract
import KernelElevator.Library.Fraction
import KernelElevator.PrintedTime
import KernelElevator.Mutex
import KernelElevator.Nearest
import KernelElevator.PassingBy
import KernelElevator.Library.LinkedLists
import KernelElevator.LinkLevel
import KernelElevator.LinkRefinement
import KernelElevator.Clearing
import KernelElevator.Printing
import KernelElevator.MinFloor
import KernelElevator.Library.Cost
import KernelElevator.Clock
import KernelElevator.Arrival
import KernelElevator.Exit
import KernelElevator.Leaving
import KernelElevator.Library.FrontRemoval
import KernelElevator.Boarding
import KernelElevator.BoardingInvariant
import KernelElevator.BoardingLoad
import KernelElevator.BoardingAtomic
import KernelElevator.Arithmetic
import KernelElevator.Overflow
import KernelElevator.Library.Gate
import KernelElevator.Switching
import KernelElevator.ReportedState
import KernelElevator.Library.Traversal
import KernelElevator.Reading
import KernelElevator.ReadingShown
import KernelElevator.Straying
import KernelElevator.Library.Territory
import KernelElevator.RushHour
import KernelElevator.Preemption
import KernelElevator.Bookkeeping
import KernelElevator.Footing
import KernelElevator.AtTheSleeps
import KernelElevator.Stranded
