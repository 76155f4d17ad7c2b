import MallocLab.BoundaryTag.Block
import MallocLab.BoundaryTag.Clients
import MallocLab.BoundaryTag.Coalesce
import MallocLab.BoundaryTag.Contract
import MallocLab.BoundaryTag.Edit
import MallocLab.BoundaryTag.Equivalence
import MallocLab.BoundaryTag.Growth
import MallocLab.BoundaryTag.Join
import MallocLab.BoundaryTag.Layout
import MallocLab.BoundaryTag.Links
import MallocLab.BoundaryTag.Macros
import MallocLab.BoundaryTag.Place
import MallocLab.BoundaryTag.Procedures
import MallocLab.BoundaryTag.Refinement
import MallocLab.BoundaryTag.Relocation
import MallocLab.BoundaryTag.Represents
import MallocLab.BoundaryTag.Requests
import MallocLab.BoundaryTag.Settle
import MallocLab.BoundaryTag.Sight
import MallocLab.BoundaryTag.Single
import MallocLab.BoundaryTag.Stamp
import MallocLab.BoundaryTag.Tags
import MallocLab.BoundaryTag.Threaded
import MallocLab.BoundaryTag.Undo
import MallocLab.BoundaryTag.Walk
import MallocLab.Break
import MallocLab.Buddy.Allocation
import MallocLab.Buddy.Boundary
import MallocLab.Buddy.Canonical
import MallocLab.Buddy.Capacity
import MallocLab.Buddy.Contract
import MallocLab.Buddy.Geometry
import MallocLab.Buddy.Growth
import MallocLab.Buddy.Heap
import MallocLab.Buddy.Init
import MallocLab.Buddy.Invariant
import MallocLab.Buddy.Lists
import MallocLab.Buddy.Nodes
import MallocLab.Buddy.Offers
import MallocLab.Buddy.Realloc
import MallocLab.Buddy.Refusal
import MallocLab.Buddy.Release
import MallocLab.Buddy.Replies
import MallocLab.Buddy.Restart
import MallocLab.Buddy.Runs
import MallocLab.Buddy.SizeGuard
import MallocLab.Buddy.Source
import MallocLab.Buddy.SplitBits
import MallocLab.Buddy.Stale
import MallocLab.Buddy.Tracking
import MallocLab.Buddy.Tree
import MallocLab.Checktrace.Balancing
import MallocLab.Checktrace.Conformance
import MallocLab.Checktrace.Protocol
import MallocLab.Checktrace.Source
import MallocLab.Client
import MallocLab.Contracts
import MallocLab.Driver.Acceptance
import MallocLab.Driver.Accounting
import MallocLab.Driver.Allocator
import MallocLab.Driver.BuddySystem
import MallocLab.Driver.Capacity
import MallocLab.Driver.Linked
import MallocLab.Driver.Main
import MallocLab.Driver.Measuring
import MallocLab.Driver.Overlap
import MallocLab.Driver.Packages
import MallocLab.Driver.Ranges
import MallocLab.Driver.ReadTrace
import MallocLab.Driver.Replay
import MallocLab.Driver.Reporting
import MallocLab.Driver.Resting
import MallocLab.Driver.Results
import MallocLab.Driver.Source
import MallocLab.Driver.TraceFile
import MallocLab.Driver.Utilization
import MallocLab.Driver.Verdict
import MallocLab.Explicit.Equivalence
import MallocLab.Explicit.FirstFit
import MallocLab.Explicit.Lifo
import MallocLab.Foundation.BinaryTree
import MallocLab.Foundation.Fusion
import MallocLab.Foundation.Intervals
import MallocLab.Foundation.LinkedList
import MallocLab.Foundation.Memory
import MallocLab.Foundation.Numerals
import MallocLab.Foundation.Partial
import MallocLab.Foundation.Program
import MallocLab.Foundation.Rings
import MallocLab.Foundation.Smallest
import MallocLab.Foundation.Text
import MallocLab.Foundation.Word
import MallocLab.Implicit.AddressOrder
import MallocLab.Implicit.Init
import MallocLab.Implicit.Package
import MallocLab.Implicit.Reference
import MallocLab.Implicit.Refinement
import MallocLab.Implicit.Runs
import MallocLab.Implicit.Source
import MallocLab.Memlib
import MallocLab.Mm.Copying
import MallocLab.Mm.FreeList
import MallocLab.Mm.Independence
import MallocLab.Mm.Init
import MallocLab.Mm.Package
import MallocLab.Mm.Requests
import MallocLab.Mm.Runs
import MallocLab.Mm.Source
import MallocLab.Mm.Undo
import MallocLab.Refer.FreeList
import MallocLab.Refer.Init
import MallocLab.Refer.Package
import MallocLab.Refer.Source
import MallocLab.Script.Checking
import MallocLab.Script.Coalescing
import MallocLab.Script.Format
import MallocLab.Script.Generated
import MallocLab.Script.Generators
import MallocLab.Script.Holding
import MallocLab.Script.LightTraces
import MallocLab.Script.Pipeline
import MallocLab.Script.Reading
import MallocLab.Segregated.FreeLists
import MallocLab.Segregated.Init
import MallocLab.Segregated.Insertion
import MallocLab.Segregated.Package
import MallocLab.Segregated.Policy
import MallocLab.Segregated.Realloc
import MallocLab.Segregated.Requests
import MallocLab.Segregated.Runs
import MallocLab.Segregated.Source
import MallocLab.Timing.Fcyc
