import Bonostl.EpochDomain.Guarantee
import Bonostl.EpochDomain.Wrap
import Bonostl.HazardPtr.Protocol
import Bonostl.LockfreeStack.Linear
import Bonostl.LockfreeList.Unlink
import Bonostl.LockfreeHashMap.Sentinels
import Bonostl.LockfreeHashMap.Counter
import Bonostl.LockfreeHashMap.Segments
import Bonostl.LockfreeHashMap.FindBucket
import Bonostl.LockfreeQueue.Polling
import Bonostl.ConcurrentSkipList.Lifetime
import Bonostl.ConcurrentSkipList.Linear
import Bonostl.BlockingQueue.Waiters
import Bonostl.BlockingQueue.Fifo
import Bonostl.ThreadsafeQueue.Wakeup
import Bonostl.ThreadsafeList.Memory
import Bonostl.ThreadsafeLookupTable.Sequential
import Bonostl.ThreadsafeLookupTable.Concurrent
import Bonostl.Queue.Fifo
import Bonostl.ThreadsafeStack.Stack
import Bonostl.WorkStealingQueue.Deque
import Bonostl.ThreadPool.Helping
import Bonostl.ThreadPool.Steal
import Bonostl.Parallel.Lifetime
import Bonostl.ParallelSearch.Predicates
import Bonostl.ParallelPartialSum.Throws
import Bonostl.ParallelScan.Wide
import Bonostl.ParallelAccumulate.Wide
import Bonostl.ParallelForEach.Truncated
import Bonostl.ParallelSort.MergeSort
import Bonostl.ParallelSort.QuickSort
import Bonostl.Seqlock.Snapshot
import Bonostl.SharedSpinlock.Exclusion
import Bonostl.SharedSpinlock.Linear
import Bonostl.SharedSpinlock.Holders
import Bonostl.SpinlockMutex.Exclusion
import Bonostl.CountingSemaphore.Permits
import Bonostl.CountingSemaphore.Linear
import Bonostl.CountingSemaphore.Conserved
import Bonostl.CountingSemaphore.Holders
import Bonostl.Latch.Gate
import Bonostl.Barrier.Phases
import Bonostl.Barrier.Progress
