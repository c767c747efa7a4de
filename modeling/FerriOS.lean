import FerriOS.Lib.Outcome
import FerriOS.Lib.Processes
import FerriOS.Lib.Radix
import FerriOS.Lib.Reads
import FerriOS.Memory.Entry
import FerriOS.Memory.Ram
import FerriOS.Memory.FrameAllocator
import FerriOS.Memory.FrameHistory
import FerriOS.Memory.Va
import FerriOS.Memory.Umem
import FerriOS.Memory.Ownership
import FerriOS.Memory.Walk
import FerriOS.Memory.Widening
import FerriOS.Memory.Ledger
import FerriOS.Memory.Spaces
import FerriOS.Memory.Copying
import FerriOS.Memory.AddressSpaces
import FerriOS.Memory.MapTo
import FerriOS.Memory.UserView
import FerriOS.Memory.FaithfulCopy
import FerriOS.Memory.Pages
import FerriOS.Memory.Flags
import FerriOS.Memory.Relabel
import FerriOS.Memory.Leaves
import FerriOS.Memory.Growth
import FerriOS.Memory.PageWalk
import FerriOS.Memory.Shrinking
import FerriOS.Memory.Releasing
import FerriOS.Exec.Image
import FerriOS.Exec.Loading
import FerriOS.Exec.InitialStack
import FerriOS.Exec.Bare
import FerriOS.Exec.Contents
import FerriOS.Exec.Arguments
import FerriOS.Kernel.State
import FerriOS.Kernel.Process
import FerriOS.Kernel.Calls
import FerriOS.Kernel.Machine
import FerriOS.Kernel.Effects
import FerriOS.Kernel.Coherence
import FerriOS.Kernel.Invariant
import FerriOS.Kernel.Actions
import FerriOS.Kernel.Steps
import FerriOS.Kernel.Runs
import FerriOS.Kernel.Plans
import FerriOS.Kernel.Frames
import FerriOS.Kernel.UserMode
import FerriOS.Kernel.Children
import FerriOS.Kernel.Fork
import FerriOS.Kernel.UserAccess
import FerriOS.Kernel.Waiting
import FerriOS.Kernel.Slots
import FerriOS.Kernel.RoundRobin
import FerriOS.Kernel.Footprint
import FerriOS.Kernel.TrapFrames
import FerriOS.Kernel.ThreadStates
import FerriOS.Kernel.KernelStacks
import FerriOS.Kernel.GsOrientation
import FerriOS.Kernel.Conservation
import FerriOS.Kernel.Break
import FerriOS.Kernel.TableLocks
import FerriOS.Kernel.UserCopies
import FerriOS.Kernel.HeapSize
import FerriOS.Kernel.Programs
import FerriOS.Kernel.Refinement
import FerriOS.Kernel.Isolation
import FerriOS.Kernel.Lifetimes
import FerriOS.Kernel.Fairness
import FerriOS.Kernel.Answers
import FerriOS.Kernel.ExecReads
import FerriOS.Kernel.ExitStatus
import FerriOS.Kernel.Family
import FerriOS.Kernel.Shelter
import FerriOS.Exec.Leaks
import FerriOS.Exec.GuardPage
import FerriOS.Exec.Args
import FerriOS.Exec.RoundTrip
import FerriOS.Kernel.Printing
import FerriOS.Exec.HeapPages
import FerriOS.Exec.Permissions
import FerriOS.Exec.UserHalf
import FerriOS.Exec.Totality
import FerriOS.Exec.Prepared
import FerriOS.Kernel.RawReads
import FerriOS.Asm.SyscallStub
import FerriOS.Asm.SwitchContext
import FerriOS.Asm.Ring3Entry
import FerriOS.Console.Framebuffer
import FerriOS.Console.VgaBuffer
import FerriOS.Allocator.FixedSizeBlock
import FerriOS.Task.Executor
import FerriOS.Task.Delivery
import FerriOS.Task.Progress
import FerriOS.Task.Wakes
