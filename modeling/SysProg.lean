import SysProg.Proofs.Kvs.RwLockQueue
import SysProg.Proofs.Kvs.RwLockStep
import SysProg.Proofs.Kvs.RwLockExclusion
import SysProg.Proofs.Kvs.RwLockFifo
import SysProg.Proofs.Kvs.RwLockWake
import SysProg.Proofs.Kvs.RwLockQuick
import SysProg.Kvs.HashTable
import SysProg.Lib.Chain
import SysProg.Proofs.Kvs.HashBucket
import SysProg.Proofs.Kvs.HashTable
import SysProg.Kvs.SharedTable
import SysProg.Proofs.Kvs.SharedInv
import SysProg.Proofs.Kvs.SharedStep
import SysProg.Proofs.Kvs.SharedLinear
import SysProg.Kvs.Protocol
import SysProg.Lib.Tokens
import SysProg.Proofs.Kvs.Strtok
import SysProg.Kvs.Reference
import SysProg.Kvs.Session
import SysProg.Proofs.Kvs.Parse
import SysProg.Proofs.Kvs.Session
import SysProg.Proofs.Kvs.Grammar
import SysProg.Proofs.Kvs.OneLine
import SysProg.Lib.ByteMemory
import SysProg.Lib.DoublyLinked
import SysProg.Memory.Chunk
import SysProg.Memory.Heap
import SysProg.Memory.Heapmgr1
import SysProg.Memory.Heapmgr2
import SysProg.Memory.Client
import SysProg.Memory.HeapSpec
import SysProg.Lib.Coalesce
import SysProg.Memory.Physical
import SysProg.Proofs.Memory.Layout
import SysProg.Proofs.Memory.FreeList
import SysProg.Proofs.Memory.Merge
import SysProg.Proofs.Memory.Validity
import SysProg.Proofs.Memory.Carve
import SysProg.Proofs.Memory.Grow
import SysProg.Proofs.Memory.Settle
import SysProg.Proofs.Memory.Physical
import SysProg.Proofs.Memory.Malloc
import SysProg.Proofs.Memory.Client
import SysProg.Proofs.Memory.Invariant
import SysProg.Proofs.Memory.Fit
import SysProg.Proofs.Memory.Confluence
import SysProg.Lib.PrefixMatch
import SysProg.Dirtree.Pattern
import SysProg.Dirtree.PatternSpec
import SysProg.Proofs.Dirtree.Submatch
import SysProg.Proofs.Dirtree.Validate
import SysProg.Dirtree.Traverse
import SysProg.Dirtree.TraverseSpec
import SysProg.Proofs.Dirtree.Listing
import SysProg.Proofs.Dirtree.Traverse
import SysProg.Lib.Processes
import SysProg.Decomment.Main
import SysProg.Decomment.Segments
import SysProg.Proofs.Decomment.Output
import SysProg.Shell.Lexsyn
import SysProg.Shell.LexSpec
import SysProg.Proofs.Shell.Renders
import SysProg.Proofs.Shell.Lex
import SysProg.Shell.Grammar
import SysProg.Proofs.Shell.Syntax
import SysProg.Shell.Execute
import SysProg.Shell.Stages
import SysProg.Proofs.Shell.Stages
import SysProg.Shell.Job
import SysProg.Shell.Snush
import SysProg.Shell.SnushSpec
import SysProg.Proofs.Shell.JobTable
import SysProg.Proofs.Shell.Children
import SysProg.Proofs.Shell.Snush
import SysProg.Proofs.Shell.JobIds
import SysProg.Proofs.Shell.Reports
import SysProg.Proofs.Shell.Timely
import SysProg.Proofs.Kvs.Loop
import SysProg.Proofs.Kvs.Overlong
import SysProg.Kvs.Server
import SysProg.Proofs.Kvs.ParseBounds
import SysProg.Proofs.Kvs.Server
import SysProg.Memory.Sizes
import SysProg.Proofs.Memory.Sizes
import SysProg.Memory.Addresses
import SysProg.Proofs.Memory.Addresses
import SysProg.Memory.DoubleFree
import SysProg.Proofs.Memory.DoubleFree
import SysProg.Memory.HeapImage
import SysProg.Proofs.Memory.HeapImage
import SysProg.Decomment.Lines
import SysProg.Proofs.Decomment.Idempotent
import SysProg.Proofs.Decomment.Lines
import SysProg.Decomment.Unterminated
import SysProg.Proofs.Decomment.Unterminated
import SysProg.Shell.Calls
import SysProg.Proofs.Shell.Calls
import SysProg.Proofs.Shell.Builtin
import SysProg.Lib.Descriptors
import SysProg.Shell.Pipeline
import SysProg.Shell.PipelineSpec
import SysProg.Proofs.Shell.Pipeline
import SysProg.Lib.Barrier
import SysProg.Proofs.Shell.Barrier
import SysProg.Proofs.Shell.FailedStart
import SysProg.Lib.Regular
import SysProg.Dirtree.Grammar
import SysProg.Lib.Logged
import SysProg.Proofs.Dirtree.Grammar
import SysProg.Dirtree.Summary
import SysProg.Proofs.Dirtree.Summary
import SysProg.Shell.WaitFg
import SysProg.Shell.EndOfInput
import SysProg.Proofs.Shell.EndOfInput
import SysProg.Proofs.Shell.WaitFg
import SysProg.Lib.Arena
import SysProg.Memory.Allocator
import SysProg.Memory.Heapmgrbase
import SysProg.Lib.Headers
import SysProg.Lib.Simulation
import SysProg.Memory.LiveBlocks
import SysProg.Memory.FirstFit
import SysProg.Memory.NextFit
import SysProg.Memory.Heapmgrkr
import SysProg.Proofs.Memory.Implements
import SysProg.Proofs.Memory.BaseBlocks
import SysProg.Proofs.Memory.BaseList
import SysProg.Proofs.Memory.BaseTake
import SysProg.Proofs.Memory.BaseWalks
import SysProg.Proofs.Memory.BaseMalloc
import SysProg.Proofs.Memory.BaseRefines
import SysProg.Proofs.Memory.BaseRuns
import SysProg.Proofs.Memory.KrBlocks
import SysProg.Proofs.Memory.KrFree
import SysProg.Proofs.Memory.KrMalloc
import SysProg.Proofs.Memory.KrRefines
import SysProg.Proofs.Memory.KrRuns
import SysProg.Lib.Progress
import SysProg.Kvs.Teardown
import SysProg.Kvs.Main
import SysProg.Proofs.Kvs.Teardown
import SysProg.Proofs.Kvs.SharedMoves
import SysProg.Proofs.Kvs.SharedProgress
import SysProg.Proofs.Kvs.ServerStep
import SysProg.Proofs.Kvs.Main
import SysProg.Proofs.Kvs.MainEnds
import SysProg.Kvs.Dialogue
import SysProg.Proofs.Kvs.Dialogue
import SysProg.Memory.Lookups
import SysProg.Proofs.Memory.Lookups
