import TensorFlowCore.CommonRuntime.BfcAllocator.Backpedal
import TensorFlowCore.CommonRuntime.ConstantFolding.Preservation
import TensorFlowCore.CommonRuntime.DirectSession.Model
import TensorFlowCore.CommonRuntime.DirectSession.PartialRun
import TensorFlowCore.CommonRuntime.Executor.DeadExits
import TensorFlowCore.CommonRuntime.Executor.FrameRuns
import TensorFlowCore.CommonRuntime.Executor.MergeOrder
import TensorFlowCore.CommonRuntime.PoolAllocator.Runs
import TensorFlowCore.CommonRuntime.SimplePlacer.Following
import TensorFlowCore.CommonRuntime.SimplePlacer.Groups
import TensorFlowCore.Framework.CancellationManager.Callbacks
import TensorFlowCore.Framework.Rendezvous.OneShot
import TensorFlowCore.Framework.RendezvousKey
import TensorFlowCore.Framework.ShapeExactness
import TensorFlowCore.Framework.TensorRoundTrip
import TensorFlowCore.Framework.WindowedOutputSize
import TensorFlowCore.Graph.CsePreservation
import TensorFlowCore.Graph.Cycles
import TensorFlowCore.Graph.ImportUndo
import TensorFlowCore.Graph.Partition.ControlEdges
import TensorFlowCore.Graph.Partition.FrameCheck
import TensorFlowCore.Graph.RoundTrip
import TensorFlowCore.Graph.Subgraph.NeededSubgraph
import TensorFlowCore.Kernels.Barrier.Callbacks
import TensorFlowCore.Kernels.Barrier.Conservation
import TensorFlowCore.Kernels.DecodeCsv
import TensorFlowCore.Kernels.FifoQueue.Cancellation
import TensorFlowCore.Kernels.FifoQueue.InStep
import TensorFlowCore.Kernels.RandomShuffleQueue.Delivery
import TensorFlowCore.Kernels.TensorArray
import TensorFlowCore.Lib.Core.VarintPointers
import TensorFlowCore.Lib.Io.BufferedInputStream
import TensorFlowCore.Lib.Io.PathNormalisation
import TensorFlowCore.Lib.Io.RecordIo
import TensorFlowCore.Lib.Io.Snappy.RoundTrip
import TensorFlowCore.Lib.Io.Table.BlockSafety
import TensorFlowCore.Lib.Io.Table.TableRoundTrip
import TensorFlowCore.Lib.Io.ZlibInputStream
import TensorFlowCore.Lib.Random.PhiloxRandom
import TensorFlowCore.Lib.Random.WeightedPicker
import TensorFlowCore.Lib.Strings.Base64
import TensorFlowCore.Lib.Strings.CEscape
import TensorFlowCore.Lib.Strings.SafeStrto
import TensorFlowCore.Lib.Wav.WavIo
import TensorFlowCore.Util.BCast
import TensorFlowCore.Util.DeviceNameUtils.Merging
import TensorFlowCore.Util.DeviceNameUtils.Printing
import TensorFlowCore.Util.ExampleParsing.LastEntry
import TensorFlowCore.Util.ExampleParsing.Sequential
import TensorFlowCore.Util.SavedTensorSliceKey
import TensorFlowCore.Util.Sparse.SplitRoundTrip
import TensorFlowCore.Util.TensorSliceCopy
import TensorFlowCore.Util.TensorSliceCoverage
import TensorFlowCore.Util.WorkSharder
