import Alpaka.OnAcc.SimdConcurrent
import Alpaka.OnAcc.SimdConcurrentWidth
import Alpaka.OnAcc.SimdAligned
import Alpaka.OnAcc.SimdTransformReduce
import Alpaka.Rand.PhiloxEngine
import Alpaka.Rand.PhiloxRounds
import Alpaka.Rand.PhiloxStream
import Alpaka.Rand.UniformReal
import Alpaka.Api.OneApiVotes
import Alpaka.Api.OneApiWarp
import Alpaka.Api.IdxLayer
import Alpaka.OnAcc.Atomics
import Alpaka.OnAcc.IdxWithin
import Alpaka.Api.SyclQueue
import Alpaka.Api.SyclSharedMemorySound
import Alpaka.Host.OmpCollective
import Alpaka.Host.OmpRegion
import Alpaka.Simd.SimdMask
import Alpaka.Simd.SimdPtr
import Alpaka.Math.Segment
import Alpaka.Math.Search
import Alpaka.Math.WeakCache
import Alpaka.Math.While
import Alpaka.Math.Bisection
import Alpaka.Math.SharedSum
import Alpaka.Math.SingleRounds
import Alpaka.Math.TreeReduce
import Alpaka.Simd.ReduceRange
import Alpaka.Host.EventSound
import Alpaka.Math.WaitFor
import Alpaka.Host.BlockingQueues
import Alpaka.Host.MixedInvariant
import Alpaka.Math.Sweep
import Alpaka.OnHost.ScanMiniBlocks
import Alpaka.OnHost.ScanMiniBlock
import Alpaka.OnHost.ScanBuffer
import Alpaka.OnHost.ScanParameters
import Alpaka.OnHost.ScanBlocks
import Alpaka.OnHost.ScanGrid
import Alpaka.OnHost.ScanSound
import Alpaka.Math.Strides
import Alpaka.Math.Odometer
import Alpaka.Math.SharedLoop
import Alpaka.Mem.MdSpan
import Alpaka.VecWidth
import Alpaka.NthRoot
import Alpaka.Mem.IndexWidth
import Alpaka.Mem.RangeWidth
import Alpaka.Mem.ThreadSpaceWidth
import Alpaka.Mem.FlatWidth
import Alpaka.Mem.FlatSelection
import Alpaka.Mem.TiledWidth
import Alpaka.Mem.TiledBlocksWidth
import Alpaka.Mem.MdForwardIter
import Alpaka.Mem.SubView
import Alpaka.OnHost.FrameSpec
import Alpaka.Api.AdjustToLimit
import Alpaka.OnHost.IotaWidth
import Alpaka.OnHost.TransformReduce
import Alpaka.Mem.BoundaryIter
import Alpaka.Mem.BoundaryParts
import Alpaka.Meta.NdLoop
import Alpaka.Host.Executors
import Alpaka.Mem.RowWrites
import Alpaka.Host.Memcpy
import Alpaka.Mem.FusedRows
import Alpaka.Host.SharedStorage
import Alpaka.Host.SharedStorageSound
import Alpaka.Host.OmpStaticShared
import Alpaka.Api.DeviceBoxes
import Alpaka.Api.DeviceReset
import Alpaka.Host.CallbackThreadLifetime
import Alpaka.Host.MixedDeadlock
import Alpaka.Host.NonBlockingQueues
import Alpaka.Host.ManagedDeallocSound
import Alpaka.Host.ManagedDeallocFreed
import Alpaka.Math.RecursiveMutex
import Alpaka.Math.Rounding
import Alpaka.Math.Stacks
import Alpaka.Host.Platform
import Alpaka.Host.CpuDevice
import Alpaka.Host.CpuQueueSound
import Alpaka.Host.DeviceWait
import Alpaka.OnHost.Launch
import Alpaka.OnAcc.Tiles
import Alpaka.OnHost.Transform
import Alpaka.OnHost.EveryExecutor
import Alpaka.OnHost.Reduce
