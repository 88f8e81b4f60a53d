import Inca.Core.BinaryFormat
import Inca.Core.BitList
import Inca.Core.Bytes
import Inca.Core.FirstFit
import Inca.Core.FloatArith
import Inca.Core.Gather
import Inca.Core.Hadamard
import Inca.Core.Heap
import Inca.Core.IterSum
import Inca.Core.LTS
import Inca.Core.Laps
import Inca.Core.Maximum
import Inca.Core.Memory
import Inca.Core.RoundBits
import Inca.Core.Runs
import Inca.Core.SatAdd
import Inca.Core.Scatter
import Inca.Core.ShiftXor
import Inca.Core.While
import Inca.L1Encoding.BitStream
import Inca.L1Encoding.BitWords
import Inca.L1Encoding.CommandType
import Inca.L1Encoding.CpuText
import Inca.L1Encoding.DpdkLayout
import Inca.L1Encoding.DpdkPkt
import Inca.L1Encoding.Half
import Inca.L1Encoding.Kwargs
import Inca.L1Encoding.P4Headers
import Inca.L2Machine.AggSlot
import Inca.L2Machine.Chunks
import Inca.L2Machine.Compress
import Inca.L2Machine.DitherSize
import Inca.L2Machine.Dithering
import Inca.L2Machine.DpdkManager
import Inca.L2Machine.Drive
import Inca.L2Machine.Generator
import Inca.L2Machine.GradMax
import Inca.L2Machine.HalfSum
import Inca.L2Machine.Lanes
import Inca.L2Machine.LevelBits
import Inca.L2Machine.LevelStream
import Inca.L2Machine.NewInca
import Inca.L2Machine.NormAgg
import Inca.L2Machine.OnebitWidths
import Inca.L2Machine.ParameterServer
import Inca.L2Machine.PriorityQueue
import Inca.L2Machine.Quantizer
import Inca.L2Machine.ReadyTable
import Inca.L2Machine.SignedSum
import Inca.L2Machine.SlotBitmap
import Inca.L2Machine.SlotSim
import Inca.L2Machine.Switch
import Inca.L2Machine.Terngrad
import Inca.L2Machine.TopkSelect
import Inca.L3Protocol.Aggregate
import Inca.L3Protocol.AllReduce
import Inca.L3Protocol.Completion
import Inca.L3Protocol.FinalSlot
import Inca.L3Protocol.Forward
import Inca.L3Protocol.NormCall
import Inca.L3Protocol.Progress
import Inca.L3Protocol.PushOrder
import Inca.L3Protocol.Recirc
import Inca.L3Protocol.Resender
import Inca.L3Protocol.SendBuffers
import Inca.L3Protocol.SlotEcho
import Inca.L3Protocol.WorkerBuffers
import Inca.L3Protocol.WorkerJobs
import Inca.L4App.AsyncServer
import Inca.L4App.BatchSync
import Inca.L4App.CompressChecks
import Inca.L4App.CpuAllocation
import Inca.L4App.CrossBarrier
import Inca.L4App.ErrorFeedback
import Inca.L4App.GlobalReduce
import Inca.L4App.InitAcks
import Inca.L4App.KeyDraw
import Inca.L4App.KeyMachine
import Inca.L4App.LocalProgress
import Inca.L4App.LocalRanks
import Inca.L4App.MixedMode
import Inca.L4App.NcclSlices
import Inca.L4App.Partition
import Inca.L4App.Pipeline
import Inca.L4App.PullRounds
import Inca.L4App.Redeclare
import Inca.L4App.ScheduledQueue
import Inca.L4App.Server
import Inca.L4App.StoreSum
import Inca.L4App.TensorKeys
import Inca.L4App.ThreadLoad
import Inca.L4App.TorchTopk
