import Mykonos.Lib.Run
import Mykonos.Lib.Cover
import Mykonos.Lib.Radix
import Mykonos.Lib.Threaded
import Mykonos.Lib.Acyclic
import Mykonos.Lib.Bytes
import Mykonos.Lib.Tiles
import Mykonos.Lib.Words
import Mykonos.Lib.Numerals
import Mykonos.Memory.Block
import Mykonos.Memory.FreeSet
import Mykonos.Memory.Reserve
import Mykonos.Memory.Offered
import Mykonos.Memory.BlockMapRuns
import Mykonos.Memory.Capacity
import Mykonos.Memory.Merging
import Mykonos.Memory.Frames
import Mykonos.Paging.Machine
import Mykonos.Paging.Tables
import Mykonos.Paging.Tree
import Mykonos.Paging.Effects
import Mykonos.Paging.Refinement
import Mykonos.Paging.Entries
import Mykonos.Heap.Kmalloc
import Mykonos.Heap.Frames
import Mykonos.Heap.Exhaustion
import Mykonos.Heap.Loops
import Mykonos.Heap.Calls
import Mykonos.Heap.Ownership
import Mykonos.Heap.Sizes
import Mykonos.Heap.Release
import Mykonos.Heap.Custody
import Mykonos.Heap.Mapping
import Mykonos.Heap.Additions
import Mykonos.Smp.Shootdown
import Mykonos.Smp.Simulation
import Mykonos.Smp.Reuse
import Mykonos.Smp.Calls
import Mykonos.Smp.Startup
import Mykonos.Smp.Bringup
import Mykonos.Smp.Rendezvous
import Mykonos.Smp.Chain
import Mykonos.Smp.Progress
import Mykonos.Tasks.Queue
import Mykonos.Tasks.Queues
import Mykonos.Tasks.Sections
import Mykonos.Tasks.Contention
import Mykonos.Tasks.Scheduler
import Mykonos.Tasks.Single
import Mykonos.Tasks.Slices
import Mykonos.Tasks.Places
import Mykonos.Tasks.Wakeups
import Mykonos.Tasks.Stacks
import Mykonos.Tasks.Registers
import Mykonos.Tasks.Mutex
import Mykonos.Tasks.Completion
import Mykonos.Tasks.BlockingQueue
import Mykonos.Tasks.Cleaner
import Mykonos.Tasks.Nesting
import Mykonos.Tasks.Threads
import Mykonos.Tasks.Discipline
import Mykonos.Tasks.Spinlocks
import Mykonos.Tasks.Deadlock
import Mykonos.Drivers.Hpet
import Mykonos.Drivers.PcieBars
import Mykonos.Drivers.PcieTree
import Mykonos.Lib.Program
import Mykonos.Apic.IoApic
import Mykonos.Apic.Routing
import Mykonos.Acpi.Tables
import Mykonos.Acpi.Images
import Mykonos.Acpi.Madt
import Mykonos.Acpi.Bounds
import Mykonos.Acpi.Loading
import Mykonos.Acpi.Mappings
import Mykonos.Interrupts.Handlers
import Mykonos.Lib.Stack
import Mykonos.Interrupts.Gates
import Mykonos.Interrupts.Entry
import Mykonos.Tasks.Switching
import Mykonos.Tasks.Multiplexing
import Mykonos.Tasks.Transparency
import Mykonos.Drivers.Tree
import Mykonos.Boot.Mbi
import Mykonos.Boot.Tags
import Mykonos.Boot.MemoryMap
import Mykonos.Boot.Rounding
import Mykonos.Boot.Strides
import Mykonos.Boot.PageTables
import Mykonos.Boot.Handover
import Mykonos.Util.Vector
import Mykonos.Util.Vectors
import Mykonos.Util.Copying
import Mykonos.Util.Bytewise
import Mykonos.Fs.String
import Mykonos.Fs.Searching
import Mykonos.Fs.Initramfs
import Mykonos.Fs.Archive
import Mykonos.Fs.Provider
import Mykonos.Fs.Listing
import Mykonos.Fs.Vfs
import Mykonos.Fs.Population
import Mykonos.Fs.Handles
import Mykonos.Fs.Paths
import Mykonos.Fs.Counts
import Mykonos.Fs.Unmounted
import Mykonos.Fs.Reading
import Mykonos.Fs.Names
import Mykonos.Fs.Bounds
import Mykonos.Display.Console
import Mykonos.Display.Sheet
import Mykonos.Display.Wrapping
import Mykonos.Display.Calls
import Mykonos.Display.Numbers
import Mykonos.Display.Printf
import Mykonos.Display.Signed
import Mykonos.Display.FrameBuffer
import Mykonos.Display.Geometry
import Mykonos.Display.Accesses
import Mykonos.Display.Drawing
import Mykonos.Display.Pixelwise
import Mykonos.Display.Snapshot
import Mykonos.Display.Glyphs
import Mykonos.Display.Pictures
import Mykonos.Display.Cells
import Mykonos.Fs.Growth
import Mykonos.Fs.Serving
