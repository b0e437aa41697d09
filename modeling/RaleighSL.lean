import RaleighSL.Library.Run
import RaleighSL.Core.Errno
import RaleighSL.Objects.Deque.Model
import RaleighSL.Objects.Deque.Layout
import RaleighSL.Objects.Deque.Sequential
import RaleighSL.Objects.Deque.Ledger
import RaleighSL.Objects.Deque.Agreement
import RaleighSL.Objects.Deque.Transactions
import RaleighSL.Objects.Deque.Interleaving
import RaleighSL.Library.SortedMap
import RaleighSL.Zcl.Map
import RaleighSL.Zcl.Size
import RaleighSL.Zcl.Coding.Int
import RaleighSL.Zcl.Bucket
import RaleighSL.Core.Transaction
import RaleighSL.Objects.SSet.Model
import RaleighSL.Objects.SSet.Index
import RaleighSL.Objects.SSet.Balance
import RaleighSL.Objects.SSet.Layers
import RaleighSL.Objects.SSet.Embed
import RaleighSL.Objects.SSet.Simulation
import RaleighSL.Objects.SSet.Locks
import RaleighSL.Objects.SSet.Store
import RaleighSL.Objects.SSet.Values
import RaleighSL.Objects.SSet.Visible
import RaleighSL.Objects.SSet.Refinement
import RaleighSL.Objects.SSet.Sequential
import RaleighSL.Objects.SSet.Transactions
import RaleighSL.Objects.SSet.Isolation
import RaleighSL.Objects.SSet.Rollback
import RaleighSL.Objects.Deque.Rollback
import RaleighSL.Objects.Number.Model
import RaleighSL.Objects.Number.Transactions
import RaleighSL.Zcl.RwcHolders
import RaleighSL.Zcl.RwcTasks
import RaleighSL.Zcl.TaskRwcSem
import RaleighSL.Core.Scheduler.Model
import RaleighSL.Core.Scheduler.Moves
import RaleighSL.Core.Scheduler.Transactions
import RaleighSL.Core.Scheduler.Barrier
import RaleighSL.Core.Scheduler.Outcome
import RaleighSL.Core.Scheduler.Exclusion
import RaleighSL.Core.Scheduler.Semaphores
import RaleighSL.Core.Scheduler.Progress
import RaleighSL.Core.Semantic.Model
import RaleighSL.Core.Semantic.Table
import RaleighSL.Core.Semantic.Errors
import RaleighSL.Core.Semantic.Namespace
import RaleighSL.Library.Places
import RaleighSL.Zcl.RwLock
import RaleighSL.Library.Circular
import RaleighSL.Zcl.RingBuf
import RaleighSL.Zcl.RingFifo
import RaleighSL.Zcl.Ipc.Frame
import RaleighSL.Zcl.Ipc.Input
import RaleighSL.Zcl.Ipc.Output
import RaleighSL.Zcl.Ipc.Delivery
import RaleighSL.Core.Scheduler.Pairing
import RaleighSL.Core.Scheduler.References
import RaleighSL.Zcl.Avl.Model
import RaleighSL.Zcl.Avl.Contents
import RaleighSL.Library.Chain
import RaleighSL.Library.Placement
import RaleighSL.Zcl.Dispatcher.Model
import RaleighSL.Zcl.Dispatcher.Links
import RaleighSL.Zcl.Dispatcher.Places
import RaleighSL.Zcl.Dispatcher.Conservation
import RaleighSL.Library.Buckets
import RaleighSL.Zcl.Cache.Model
import RaleighSL.Zcl.Cache.Table
import RaleighSL.Zcl.Cache.Books
import RaleighSL.Zcl.Cache.Reclaim
import RaleighSL.Zcl.Cache.Calls
import RaleighSL.Zcl.Cache.Runs
import RaleighSL.Zcl.Evaluator.Meaning
import RaleighSL.Library.Precedence
import RaleighSL.Zcl.Evaluator.Grammar
import RaleighSL.Zcl.Evaluator.Reading
import RaleighSL.Zcl.Evaluator.Grouping
import RaleighSL.Zcl.Coding.IntGroup
import RaleighSL.Client.Coding
import RaleighSL.Client.Field
import RaleighSL.Zcl.Reader.Iovec
import RaleighSL.Zcl.Reader.Methods
import RaleighSL.Zcl.Rpc.Head
import RaleighSL.Client.Rpc
import RaleighSL.Objects.Deque.Removal
import RaleighSL.Objects.SSet.Blocks
import RaleighSL.Objects.SSet.Scanning
import RaleighSL.Zcl.Coding.Zigzag
import RaleighSL.Zcl.Reader.Fields
import RaleighSL.Compiler.Model
import RaleighSL.Compiler.Integers
import RaleighSL.Compiler.RoundTrip
import RaleighSL.Compiler.Losses
import RaleighSL.Core.Atoms
import RaleighSL.Objects.Number.Arithmetic
import RaleighSL.Zcl.Avl.Edge
import RaleighSL.Zcl.Avl.Iterator
import RaleighSL.Zcl.Bucket.Layout
import RaleighSL.Zcl.Bucket.Search
import RaleighSL.Zcl.Bucket.Iterator
import RaleighSL.Zcl.Map.Merger
import RaleighSL.Zcl.Cache.Termination
import RaleighSL.Library.Links
import RaleighSL.Zcl.SkipList.Model
import RaleighSL.Zcl.SkipList.Search
import RaleighSL.Zcl.SkipList.Levels
import RaleighSL.Zcl.SkipList.Changes
import RaleighSL.Zcl.SkipList.Calls
import RaleighSL.Zcl.SkipList.Runs
import RaleighSL.Library.Probing
import RaleighSL.Zcl.HashMap.Model
import RaleighSL.Zcl.HashMap.Search
import RaleighSL.Zcl.SkipList.Navigation
import RaleighSL.Zcl.HashMap.Calls
import RaleighSL.Zcl.HashMap.Runs
import RaleighSL.Zcl.BlockArray
import RaleighSL.Zcl.Cleared
import RaleighSL.Zcl.Reader.Fetching
import RaleighSL.Client.Signed
import RaleighSL.Zcl.Reader.Headers
import RaleighSL.Zcl.Slice.Model
import RaleighSL.Zcl.Slice.Content
import RaleighSL.Zcl.Slice.Front
import RaleighSL.Zcl.Slice.Runs
import RaleighSL.Zcl.Slice.Reader
import RaleighSL.Zcl.Reader.Tokenize
import RaleighSL.Library.Area
import RaleighSL.Zcl.Buffer.Model
import RaleighSL.Zcl.Buffer.Content
import RaleighSL.Zcl.Buffer.Changes
import RaleighSL.Zcl.Evaluator.Membership
import RaleighSL.Zcl.Evaluator.Stuck
import RaleighSL.Zcl.RpcMap.Chains
import RaleighSL.Zcl.RpcMap.Table
import RaleighSL.Zcl.RpcMap.Runs
import RaleighSL.Zcl.Reader.Search
import RaleighSL.Client.Message
import RaleighSL.Client.Parsing
import RaleighSL.Client.Written
import RaleighSL.Zcl.Compression.Model
import RaleighSL.Zcl.Compression.Blocks
import RaleighSL.Zcl.Compression.Runs
import RaleighSL.Zcl.Compression.Deltas
import RaleighSL.Library.Texts
import RaleighSL.Zcl.Evaluator.Scanner
import RaleighSL.Zcl.Evaluator.Words
import RaleighSL.Zcl.Evaluator.Tokens
import RaleighSL.Zcl.Bitmap
import RaleighSL.Zcl.MemShared
import RaleighSL.Library.Crc
import RaleighSL.Zcl.Crc32c
import RaleighSL.Zcl.Murmur3
import RaleighSL.Client.Rql.Lexer
import RaleighSL.Client.Rql.Parser
import RaleighSL.Library.EagerClimbing
import RaleighSL.Client.Rql.Spine
import RaleighSL.Client.Rql.Grammar
import RaleighSL.Client.Rql.Climbing
import RaleighSL.Client.Rql.Grouping
import RaleighSL.Client.Rql.Balance
import RaleighSL.Client.Rql.Reading
import RaleighSL.Server.Redis.Model
import RaleighSL.Zcl.Reader.Words
import RaleighSL.Server.Redis.Bounds
import RaleighSL.Client.Rql.Values
import RaleighSL.Client.Rql.Evaluation
import RaleighSL.Client.Rql.Folding
import RaleighSL.Client.Rql.Texts
import RaleighSL.Client.Rql.Tokenizing
import RaleighSL.Client.Rql.Wholeness
import RaleighSL.Zcl.FreeList
import RaleighSL.Zcl.Strtol
import RaleighSL.Library.Blocks
import RaleighSL.Zcl.Sha.Context
import RaleighSL.Zcl.Sha.Sha1
import RaleighSL.Zcl.Sha.Sha256
import RaleighSL.Zcl.AtomicQueue
import RaleighSL.Zcl.Ticket
import RaleighSL.Zcl.Dlink
import RaleighSL.Zcl.Semaphore
import RaleighSL.Zcl.Workers.Model
import RaleighSL.Zcl.Workers.Steps
import RaleighSL.Zcl.Workers.Runs
