import QuickjsDart.Codec.Utf
import QuickjsDart.Codec.Binary64
import QuickjsDart.Codec.Decimal
import QuickjsDart.Codec.Numeral
import QuickjsDart.Codec.Json
import QuickjsDart.Memory.RefCount
import QuickjsDart.Text
import QuickjsDart.Util
import QuickjsDart.Number
import QuickjsDart.Value
import QuickjsDart.Heap
import QuickjsDart.Machine
import QuickjsDart.Property
import QuickjsDart.Promise
import QuickjsDart.Engine
import QuickjsDart.Mutation
import QuickjsDart.Stringify
import QuickjsDart.Read
import QuickjsDart.Plain
import QuickjsDart.Strings
import QuickjsDart.Nested
import QuickjsDart.Marshal.Tree
import QuickjsDart.Marshal.Simulation
import QuickjsDart.Marshal.Members
import QuickjsDart.Marshal.RoundTrip
import QuickjsDart.Marshal.Keys
import QuickjsDart.Conversion
import QuickjsDart.Ownership
import QuickjsDart.Ledger
import QuickjsDart.Discipline
import QuickjsDart.Evolution
import QuickjsDart.Dispatch
import QuickjsDart.Jobs
import QuickjsDart.Memory.Array
import QuickjsDart.Arguments
import QuickjsDart.Buffers
import QuickjsDart.Lifecycle
import QuickjsDart.Marshal.Counts
import QuickjsDart.Marshal.Registry
import QuickjsDart.Marshal.Leaks
import QuickjsDart.Callback
import QuickjsDart.Accounts
import QuickjsDart.Handles
import QuickjsDart.ReadRules
import QuickjsDart.SafeReads
import QuickjsDart.Wrapper
import QuickjsDart.Futures
import QuickjsDart.Concurrency
import QuickjsDart.Memory.Reach
import QuickjsDart.Collector
import QuickjsDart.Collections
import QuickjsDart.Memory.Forest
import QuickjsDart.Integrity
import QuickjsDart.Lawful
import QuickjsDart.Protocol.Deferred
import QuickjsDart.Reactions
import QuickjsDart.Settlement
import QuickjsDart.PromiseMirror
import QuickjsDart.Memory.HashChain
import QuickjsDart.Shapes
import QuickjsDart.ShapeLayout
import QuickjsDart.Sharing
import QuickjsDart.SharedObjects
import QuickjsDart.ShapeEdits
import QuickjsDart.ShapeLives
import QuickjsDart.Protocol.Machine
import QuickjsDart.ShapeRuns
import QuickjsDart.SparseArrays
