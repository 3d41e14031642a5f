import RdmaSync.OptimisticLocks.Exclusive
import RdmaSync.OptimisticLocks.FarmLines
import RdmaSync.OptimisticLocks.Undisturbed
import RdmaSync.OptimisticLocks.CopyOut
import RdmaSync.OptimisticLocks.Throughput
import RdmaSync.LockingBenchmark.Serializable
import RdmaSync.LockingBenchmark.TailSerializable
import RdmaSync.LockingBenchmark.Region
import RdmaSync.BenchmarkHelper.Stages
import RdmaSync.OptdbExperiment.RunCheck
import RdmaSync.WorkerPool.Progress
import RdmaSync.SyncPrimitives.HybridSound
import RdmaSync.SyncPrimitives.OptimisticSound
import RdmaSync.Concurrency.Barrier
import RdmaSync.Profiling.WorkerCounters
import RdmaSync.MemoryManagement.MonotonicBuffer
import RdmaSync.BatchQueue.Sound
import RdmaSync.CommunicationManager.Handshake
import RdmaSync.CommunicationManager.Served
import RdmaSync.Cluster.BringUp
import RdmaSync.Helper
import RdmaSync.BrokenRemoteWrite.Writer
import RdmaSync.AtomicAlignmentWs.Batches
import RdmaSync.RandomGenerator
import RdmaSync.OptimisticBenchmark.GflagString
import RdmaSync.OrderingFixed.BlockFunction
import RdmaSync.BenchmarkHelper.Ordering
import RdmaSync.MPMCQueue.Progress
import RdmaSync.Crcspeed.Bursts
import RdmaSync.RandomGenerator.MersenneTwister
import RdmaSync.NamExperiment.Sound
import RdmaSync.Lock.Worker
import RdmaSync.OptimisticSt.Reader
import RdmaSync.BTree.Sound
import RdmaSync.BatchedAtomics.Sound
import RdmaSync.OptBTree.Sound
