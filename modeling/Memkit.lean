import Memkit.Foundations.Transition
import Memkit.Core.Status
import Memkit.Concurrency.SpscQueueFifo
import Memkit.Concurrency.SpscQueueOverwrite
import Memkit.Boxes.BoxInitFailures
import Memkit.Boxes.NodeBoxes
import Memkit.Caching.LruCacheFailure
import Memkit.Caching.LruCacheLedger
import Memkit.Concurrency.DoubleBuffer
import Memkit.Concurrency.MpscQueue
import Memkit.Concurrency.MpscQueueDelivery
import Memkit.Concurrency.MpscQueueDrain
import Memkit.Core.CopyCalls
import Memkit.Core.ElementStorage
import Memkit.Core.WordArithmetic
import Memkit.Foundations.BigEndianBits
import Memkit.Foundations.BinaryHeap
import Memkit.Foundations.Checked
import Memkit.Foundations.CircularWindow
import Memkit.Foundations.Meter
import Memkit.Foundations.Noninterference
import Memkit.Foundations.SortedArray
import Memkit.Foundations.SparseIndex
import Memkit.Hashing.ChainingCopies
import Memkit.Hashing.ChainingMap
import Memkit.Hashing.HashDivisors
import Memkit.Hashing.HashMapUpdates
import Memkit.Hashing.OpenAddressingLedger
import Memkit.Maps.FlatMap
import Memkit.Maps.MapLedger
import Memkit.Memory.Arena
import Memkit.Memory.ArenaCarving
import Memkit.Memory.ArenasApart
import Memkit.Memory.ContainerParts
import Memkit.Memory.ArenaTemplate
import Memkit.Moves.MovedContexts
import Memkit.Moves.MovedFrom
import Memkit.Pools.HandlePoolClients
import Memkit.Pools.ObjPoolSound
import Memkit.Sequences.ByteRing
import Memkit.Sequences.DListRefinement
import Memkit.Sequences.IntrusiveHeads
import Memkit.Sequences.PQueueFailure
import Memkit.Sequences.RingBufferDivisors
import Memkit.Sequences.RingBufferFailure
import Memkit.Sequences.SListRefinement
import Memkit.Sequences.StackBox
import Memkit.Sequences.StackGrowth
import Memkit.Sequences.StackConformance
import Memkit.Sequences.StackReference
import Memkit.Sets.Bitset
import Memkit.Sets.BitsetRefinement
import Memkit.Sets.SparseSet
import Memkit.Streams.BitStream
import Memkit.Streams.BitStreamRoundTrip
import Memkit.Timing.TimerAgenda
import Memkit.Timing.TimerWheel
import Memkit.Timing.TimerWheelDeadlines
import Memkit.Timing.TimerWheelTick
import Memkit.Timing.TokenBucket
import Memkit.Trees.BTreeConservation
import Memkit.Trees.MapStatuses
import Memkit.Boxes.CapacityDoubling
import Memkit.Boxes.PQueueGrowth
import Memkit.Foundations.IntegralType
import Memkit.Foundations.RecordLayout
import Memkit.Foundations.RollingWindow
import Memkit.Hashing.DefaultHash
import Memkit.Memory.NodeLayouts
import Memkit.Streams.RunningStats
import Memkit.Streams.SlidingAverages
import Memkit.Tables.Interpolation
import Memkit.Timing.TimerWheelMove
import Memkit.Concurrency.WaitFreedom
import Memkit.Concurrency.SpscQueueLifetimes
import Memkit.Timing.TokenBucketConformance
import Memkit.Sequences.RingLog
import Memkit.Timing.TimerWheelSteps
import Memkit.Memory.FixedVariant
import Memkit.Pools.HandlePoolObjects
import Memkit.Pools.ObjPoolObjects
