import KrabkaRegistry.Library.DepthFirst
import KrabkaRegistry.Library.Compaction
import KrabkaRegistry.Library.PartitionLog
import KrabkaRegistry.Library.Trace
import KrabkaRegistry.Library.Base128
import KrabkaRegistry.Basic
import KrabkaRegistry.Format.Json
import KrabkaRegistry.Format.Descriptor
import KrabkaRegistry.Format.Parse
import KrabkaRegistry.Kafkastore.Record
import KrabkaRegistry.Store.State
import KrabkaRegistry.Store.Views
import KrabkaRegistry.Store.Index
import KrabkaRegistry.Store.Closure
import KrabkaRegistry.Compat
import KrabkaRegistry.Kafkastore.Ops
import KrabkaRegistry.Kafkastore.Effects
import KrabkaRegistry.Kafkastore.Run
import KrabkaRegistry.Guarantees.Ids
import KrabkaRegistry.Guarantees.Replay
import KrabkaRegistry.Guarantees.Identity
import KrabkaRegistry.Guarantees.Isolation
import KrabkaRegistry.Guarantees.References
import KrabkaRegistry.Guarantees.Transitivity
import KrabkaRegistry.Rest.Subjects
import KrabkaRegistry.Guarantees.Lookup
import KrabkaRegistry.Cluster.Model
import KrabkaRegistry.Cluster.Transactions
import KrabkaRegistry.Cluster.Fencing
import KrabkaRegistry.Guarantees.SplitBrain
import KrabkaRegistry.Reader.Model
import KrabkaRegistry.Reader.Invariant
import KrabkaRegistry.Reader.Runs
import KrabkaRegistry.Guarantees.ReadYourWrites
import KrabkaRegistry.Guarantees.Representation
import KrabkaRegistry.Guarantees.Bindings
import KrabkaRegistry.Guarantees.ReadOnly
import KrabkaRegistry.Serde.Wire
import KrabkaRegistry.Serde.MessageIndex
import KrabkaRegistry.Guarantees.Framing
import KrabkaRegistry.Format.JsonText
import KrabkaRegistry.Kafkastore.Codec
import KrabkaRegistry.Guarantees.TopicBytes
import KrabkaRegistry.Election.Protocol
import KrabkaRegistry.Guarantees.Election
import KrabkaRegistry.Serde.Registry
import KrabkaRegistry.Serde.Cache
import KrabkaRegistry.Guarantees.SerializerIds
import KrabkaRegistry.Library.PercentCoding
import KrabkaRegistry.Rest.Router
import KrabkaRegistry.Rest.Authz
import KrabkaRegistry.Guarantees.Authorization
import KrabkaRegistry.Guarantees.Addressing
import KrabkaRegistry.Format.Diff
import KrabkaRegistry.Format.Check
import KrabkaRegistry.Rest.Compatibility
import KrabkaRegistry.Guarantees.Prediction
import KrabkaRegistry.Guarantees.ClientClosure
import KrabkaRegistry.Library.Binary64
import KrabkaRegistry.Library.Matching
import KrabkaRegistry.Format.JsonValue
import KrabkaRegistry.Format.JsonDiff
import KrabkaRegistry.Library.Fuel
import KrabkaRegistry.Format.JsonVerdict
import KrabkaRegistry.Format.JsonWalk
import KrabkaRegistry.Format.JsonTermination
import KrabkaRegistry.Format.JsonSelf
import KrabkaRegistry.Format.JsonSample
import KrabkaRegistry.Guarantees.JsonReflexive
import KrabkaRegistry.Library.CallGraph
import KrabkaRegistry.Guarantees.JsonEnds
import KrabkaRegistry.Format.JsonAlike
import KrabkaRegistry.Format.JsonDropped
import KrabkaRegistry.Guarantees.JsonTop
import KrabkaRegistry.Format.JsonBranches
import KrabkaRegistry.Format.JsonExpand
import KrabkaRegistry.Format.JsonInline
import KrabkaRegistry.Guarantees.JsonInlining
import KrabkaRegistry.Library.KeyedMap
import KrabkaRegistry.Format.DiffLaws
import KrabkaRegistry.Format.Reordered
import KrabkaRegistry.Guarantees.ProtobufOrder
import KrabkaRegistry.Format.ProtobufSample
import KrabkaRegistry.Guarantees.ProtobufOneofs
import KrabkaRegistry.Guarantees.Rediscovery
import KrabkaRegistry.Guarantees.Credentials
import KrabkaRegistry.Guarantees.Closures
import KrabkaRegistry.Guarantees.FreshNumbers
import KrabkaRegistry.Guarantees.Resumption
import KrabkaRegistry.Rest.Delete
import KrabkaRegistry.Guarantees.LatestDelete
import KrabkaRegistry.Library.TopologicalOrder
import KrabkaRegistry.Rest.Import
import KrabkaRegistry.Guarantees.ImportOrder
import KrabkaRegistry.Guarantees.TypeChange
import KrabkaRegistry.Format.Avro
import KrabkaRegistry.Guarantees.AvroNesting
import KrabkaRegistry.Guarantees.AvroAliases
import KrabkaRegistry.Guarantees.BranchMatching
import KrabkaRegistry.Guarantees.Reapplied
import KrabkaRegistry.Library.Delimited
import KrabkaRegistry.Guarantees.CanonicalForm
import KrabkaRegistry.Guarantees.MessageIndexes
import KrabkaRegistry.Guarantees.ReservedRanges
import KrabkaRegistry.Format.JsonValid
import KrabkaRegistry.Format.JsonSound
import KrabkaRegistry.Guarantees.JsonSoundness
import KrabkaRegistry.Guarantees.JsonArrays
import KrabkaRegistry.Library.UrlPath
import KrabkaRegistry.Rest.Forward
import KrabkaRegistry.Rest.Journey
import KrabkaRegistry.Guarantees.Forwarding
import KrabkaRegistry.Format.JsonPaired
import KrabkaRegistry.Format.JsonTruncate
import KrabkaRegistry.Guarantees.JsonRecursion
import KrabkaRegistry.Library.Seconds
import KrabkaRegistry.Library.Attempts
import KrabkaRegistry.Serde.Retry
import KrabkaRegistry.Serde.Fetch
import KrabkaRegistry.Guarantees.Fetching
import KrabkaRegistry.Rest.Response
import KrabkaRegistry.Rest.Reads
import KrabkaRegistry.Serde.Http
import KrabkaRegistry.Guarantees.Documents
import KrabkaRegistry.Guarantees.Targets
import KrabkaRegistry.Guarantees.OverHttp
import KrabkaRegistry.Guarantees.EndToEnd
