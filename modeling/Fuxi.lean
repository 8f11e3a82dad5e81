import Fuxi.Lib.Supplier
import Fuxi.Common.Util
import Fuxi.Base.IdAllocator.Exclusive
import Fuxi.Base.IdAllocator.Sequential
import Fuxi.Base.IdAllocator.Enumeration
import Fuxi.Base.IdAllocator.Versions
import Fuxi.Base.IdAllocator.LockFree
import Fuxi.Base.ConcurrentVector
import Fuxi.Base.ConcurrentVector.Growth
import Fuxi.Base.ConcurrentVector.BlockSize
import Fuxi.Base.ConcurrentVector.Snapshot.ForEach
import Fuxi.Base.ConcurrentVector.RetireList
import Fuxi.Base.ConcurrentVector.RetireList.Cooled
import Fuxi.Base.ConcurrentVector.RetireList.ExactlyOnce
import Fuxi.Base.ConcurrentVector.WaitFree
import Fuxi.Base.ThreadLocal
import Fuxi.Base.ThreadLocal.Isolated
import Fuxi.Base.ThreadLocal.Enumeration
import Fuxi.Base.Counter
import Fuxi.Base.Counter.Sums
import Fuxi.Base.Counter.Interleaving
import Fuxi.Base.Counter.Maxer
import Fuxi.Base.Counter.Sampler
import Fuxi.Base.Counter.Sampler.Modulus
import Fuxi.Base.Counter.Sampler.Genuine
import Fuxi.Base.FlatObjectQueue.Sequential
import Fuxi.Base.FlatSignalQueue.Interleaving
import Fuxi.Base.FlatSignalQueue.Wakeup
import Fuxi.Base.RteRing.ExactlyOnce
import Fuxi.Base.RteRing.Fifo
import Fuxi.Base.RteRing.Refinement
import Fuxi.Base.RteRing.Copy
import Fuxi.Base.RteRing.Completion
import Fuxi.Base.BoundedQueue.Batch
import Fuxi.Base.BoundedQueue.ExactlyOnce
import Fuxi.Base.BoundedQueue.Fifo
import Fuxi.Base.BoundedQueue.Refused
import Fuxi.Base.BoundedQueue.Refinement
import Fuxi.Base.BoundedQueue.TimedPop
import Fuxi.Base.BoundedQueue.TimedPop.Prompt
import Fuxi.Base.BoundedQueue.Timeout
import Fuxi.Base.BoundedQueue.Completion
import Fuxi.Base.BoundedQueue.SlotVector
import Fuxi.Mm.PageAllocator.Conserved
import Fuxi.Mm.PageAllocator.Batch
import Fuxi.Mm.PageAllocator.Stack
import Fuxi.Mm.MemoryResource.Contains
import Fuxi.Mm.MemoryResource.Release
import Fuxi.Mm.MemoryResource.Sizes
import Fuxi.Mm.MemoryResource.Shared
import Fuxi.Mm.MemoryResource.Shared.NoCollision
import Fuxi.Mm.MemoryResource.SharedHeap
import Fuxi.Mm.MemoryResource.Moves
import Fuxi.Mm.Port.XsiShm
import Fuxi.Mm.Port.XsiShm.Outcomes
import Fuxi.Mm.Port.XsiShm.Completion
import Fuxi.Mm.Port.XsiShm.Key
import Fuxi.Shm.Impl.Block
import Fuxi.Shm.Impl.Segment
import Fuxi.Shm.Impl.Segment.Blocks
import Fuxi.Shm.Impl.ExtentLayout.RequestSize
import Fuxi.Shm.Impl.Extent
import Fuxi.Shm.Port.XsiSegment
import Fuxi.Shm.Arena.ShmDeleter
import Fuxi.Shm.Arena.ShmArena
import Fuxi.Shm.Arena.ShmArena.Aligned
import Fuxi.Shm.Arena.ShmArena.Recorded
import Fuxi.Shm.ShmDomain
import Fuxi.Shm.ShmDomain.GetSegment
import Fuxi.Shm.ShmDomain.SegmentDirectory
import Fuxi.Shm.ShmDomain.StoredName
import Fuxi.Shm.Topo.DomainLayout.Allocate
import Fuxi.Shm.Topo.DomainLayout.Registration
import Fuxi.Shm.Topo.ProcessState.Balance
import Fuxi.Shm.Topo.TopoState.Registration
import Fuxi.Shm.Topo.TopoState.Capacity
import Fuxi.Shm.Topo.TopoState.Refused
