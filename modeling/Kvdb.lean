import Kvdb.BitFunction
import Kvdb.BitOperations
import Kvdb.BitRanges
import Kvdb.Changes
import Kvdb.Command.Elements
import Kvdb.Command.Footprint
import Kvdb.Command.Node
import Kvdb.Command.Observation
import Kvdb.Command.Outcomes
import Kvdb.Command.Registry
import Kvdb.Command.Table
import Kvdb.Crashes
import Kvdb.Data.Binary
import Kvdb.Data.Bytes
import Kvdb.Data.Incremental
import Kvdb.Data.Indexing
import Kvdb.Data.OrderedMap
import Kvdb.Data.Spans
import Kvdb.Data.Sparse
import Kvdb.Data.Utf8
import Kvdb.Decoding
import Kvdb.Deletion
import Kvdb.Emptiness
import Kvdb.Encoding
import Kvdb.Expiry.Deadlines
import Kvdb.Expiry.Forgotten
import Kvdb.Expiry.Revival
import Kvdb.Expiry.Rewrite
import Kvdb.Generations
import Kvdb.HashFields
import Kvdb.HashScan
import Kvdb.Keyspace
import Kvdb.Legacy
import Kvdb.Lists.Commands
import Kvdb.Lua.Calls
import Kvdb.Lua.Values
import Kvdb.Namespaces
import Kvdb.Orphans
import Kvdb.Paging
import Kvdb.Protocol.Capacity
import Kvdb.Protocol.Grammar
import Kvdb.Protocol.Parser
import Kvdb.Protocol.RoundTrip
import Kvdb.Registers
import Kvdb.Semantics.Program
import Kvdb.Semantics.Runs
import Kvdb.Separation
import Kvdb.Server.Cluster
import Kvdb.Server.Config
import Kvdb.Server.Connection
import Kvdb.Server.Histories
import Kvdb.Server.Isolation
import Kvdb.Server.PubSub
import Kvdb.Server.Subscriptions
import Kvdb.Server.ThreadPool
import Kvdb.Server.Transactions
import Kvdb.Server.Watching
import Kvdb.SetAlgebra
import Kvdb.SetMembers
import Kvdb.SortedSet.Additions
import Kvdb.SortedSet.Agreement
import Kvdb.SortedSet.Cardinality
import Kvdb.SortedSet.Ranges
import Kvdb.SortedSet.Ranks
import Kvdb.SortedSet.ScoreOrder
import Kvdb.SortedSet.Windows
import Kvdb.Storage
import Kvdb.StreamCounts
import Kvdb.StreamIds
import Kvdb.StreamRanges
import Kvdb.Types
