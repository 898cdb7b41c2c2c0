import Course.Lib.Machine
import Course.Lib.SafeSequence
import Course.Lib.LittleEndian
import Course.Lib.Codec
import Course.Lib.Ring
import Course.Lib.Tiling
import Course.Os.Freelist
import Course.Os.Allocator
import Course.Os.LRUCache
import Course.Os.TLB
import Course.Os.PhysicalMemory
import Course.Os.VirtualMemory
import Course.Os.Paging
import Course.Rdt.Protocol
import Course.Os.Banker
import Course.Lib.MerkleDamgard
import Course.Lib.Md5
import Course.Rdt.Checksum
import Course.Rdt.Channel
import Course.Rdt.Server
import Course.Rdt.Truthful
import Course.Rdt.Client
import Course.Rdt.Receive
import Course.Rdt.System
import Course.Rdt.Download
import Course.Rdt.Progress
import Course.Rdt.Transfer
import Course.Rdt.Bookkeeping
import Course.Rdt.Isolation
import Course.Rdt.Process
import Course.Rdt.Verdict
import Course.Rdt.Retransmission
import Course.Lib.Crc
import Course.Rdt.Crc32
import Course.Rdt.Framing
import Course.Rdt.Burst
import Course.Lib.Heap
import Course.Lib.RedBlack
import Course.Stl.Map
import Course.Stl.MapShape
import Course.Stl.Rotation
import Course.Stl.Insertion
import Course.Stl.Erasure
import Course.Lib.CircularBuffer
import Course.Os.ThreadPool
import Course.Os.Scheduler
import Course.Os.TaskQueue
import Course.Os.Elimination
import Course.Os.Policies
import Course.Os.Allotment
import Course.Os.Statistics
import Course.Stl.Vector
import Course.Stl.Storage
import Course.Stl.Vectors
import Course.Stl.VectorActions
import Course.Lib.StrictWeak
import Course.Stl.PriorityQueue
import Course.Stl.Forest
import Course.Stl.Linking
import Course.Stl.Selection
import Course.Stl.QueueMembers
import Course.Stl.PriorityQueues
import Course.Lib.Objects
import Course.Lib.HeapRing
import Course.Stl.LinkedList
import Course.Stl.ListLinks
import Course.Stl.ListItems
import Course.Stl.ListMembers
import Course.Stl.ListLoops
import Course.Stl.ListSort
import Course.Stl.Lists
import Course.Lib.Trace
import Course.Cpu.Programs
import Course.Packing.Ecommerce
import Course.Packing.Heuristic
import Course.Lib.Framing
import Course.Socket.Protocol
import Course.Socket.Server
import Course.Socket.Client
import Course.VisualQuadtree.Coverage
import Course.Gemm.DMAWriteRuns
import Course.Lib.Leads
import Course.Lib.Grid
import Course.Gemm.Memory
import Course.Gemm.MatrixMultiplicationCore
import Course.Gemm.MatrixMultiplication
import Course.Gemm.CoreRuns
import Course.Gemm.Reachable
import Course.Gemm.Padding
import Course.Gemm.Blocks
import Course.Gemm.Product
import Course.Gemm.RoccShell
import Course.Gemm.MatMultAcc
import Course.Rdt.Digests
import Course.Stl.ListAssignment
import Course.Rdt.Timeouts
import Course.Rdt.Statistics
import Course.Packing.Environment
import Course.Stl.QueueShapes
import Course.Stl.Degrees
import Course.Os.OshHistory
import Course.Lib.Text
import Course.Packing.Solver
import Course.Packing.Validator
import Course.Lib.TreeWalk
import Course.Stl.Exchange
import Course.Stl.Removal
import Course.Stl.Search
import Course.Stl.MapMembers
import Course.Stl.MapEntries
import Course.Stl.MapActions
import Course.Stl.Maps
import Course.Stl.MapWalks
import Course.Stl.MapIterators
import Course.Lib.Segment
import Course.Stl.Algorithm
import Course.Os.PriorityRoundRobin
import Course.Os.LRUCacheCalls
import Course.Lib.Recency
import Course.Os.Replacement
import Course.Os.OshHistoryFile
import Course.Os.Placement
import Course.Lib.Strtok
import Course.Os.OshParse
import Course.Lib.Descriptors
import Course.Os.OshPipes
import Course.Lib.HeapArray
import Course.Lib.HeapThread
import Course.Stl.LinkedHashmap
import Course.Stl.HashmapShape
import Course.Stl.HashmapChains
import Course.Stl.HashmapMembers
import Course.Stl.HashmapActions
import Course.Stl.Hashmaps
import Course.Socket.Headers
import Course.VisualQuadtree.Query
import Course.Lib.Waiting
import Course.Os.ShortestFirst
import Course.Rdt.Interface
import Course.Lib.LineWalk
import Course.MapAreaCalculator.Polygon
import Course.MapAreaCalculator.Conflicts
import Course.MapAreaCalculator.ConflictRuns
import Course.MapAreaCalculator.Segments
import Course.MapAreaCalculator.Area
import Course.MapAreaCalculator.ExportImport
import Course.Lib.ForkJoin
import Course.Lib.StableMerge
import Course.Os.MergeSort
import Course.Os.QuickSort
import Course.Gemm.DMAReadCtl
import Course.Gemm.DMAReadRuns
import Course.Lib.Skyline
import Course.Packing.HeightMap
import Course.Packing.Episode
import Course.Lib.CountedLoops
import Course.Lib.RowMajor
import Course.Lib.BlockProduct
import Course.Matmul.Strassen
import Course.Matmul.StrassenSizes
import Course.Matmul.Transpose
import Course.Matmul.Optimized
import Course.Socket.Transfers
import Course.Os.ProducerConsumer
import Course.Gemm.StreamReaderRuns
import Course.Gemm.StreamWriter
import Course.Gemm.DMAReadPath
import Course.Gemm.DMAWritePath
import Course.Gemm.DMAReadProgress
import Course.Gemm.DMAWriteProgress
import Course.Lib.LazySegmentTree
import Course.Lib.TrueRuns
import Course.Lib.Forests
import Course.Oj.Flowers
import Course.Oj.Rooms
import Course.Oj.Kruskal
