import Cynos.Query.RawAgreement
import Cynos.Storage.ConsistentRuns
import Cynos.Storage.ScanRuns
import Cynos.Storage.GinFastPath
import Cynos.Index.Scan
import Cynos.Storage.IndexKey
import Cynos.Storage.Rollback
import Cynos.Incremental.Compile
import Cynos.Optimizer.FilterPasses
import Cynos.Optimizer.LimitPushdown
import Cynos.Optimizer.OuterJoinSimplification
import Cynos.Optimizer.NotSimplification
import Cynos.Query.PlanCache
import Cynos.Query.ReactivePatch
import Cynos.Reactive.Notify
import Cynos.Reactive.LiveRegistry
import Cynos.Database.FilterAgreement
import Cynos.Binary.RoundTrip
import Cynos.Query.JoinAlgorithms
import Cynos.Lib.Sort
import Cynos.Core.Text
import Cynos.Jsonb.Path
import Cynos.Jsonb.PathEval
import Cynos.Jsonb.PathFaithful
import Cynos.Jsonb.SimplePath
import Cynos.Lib.BinaryHeap
import Cynos.Lib.TopK
import Cynos.Optimizer.GinPath
import Cynos.Query.Checked
import Cynos.Query.TopN
import Cynos.Lib.Regex
import Cynos.Query.RegexFaithful
import Cynos.Core.PatternMatch
import Cynos.Core.RawValue
import Cynos.Query.PatternAgreement
import Cynos.Core.ParseF64
import Cynos.Jsonb.Document
import Cynos.Jsonb.TextParser
import Cynos.Query.JsonAgreement
import Cynos.Query.JsonText
import Cynos.Lib.Binary64
import Cynos.Lib.Varint
import Cynos.Jsonb.Object
import Cynos.Jsonb.Containment
import Cynos.Jsonb.Binary
import Cynos.Jsonb.BinarySafety
import Cynos.Gql.Coercion
import Cynos.Gql.FilterAgreement
import Cynos.Gql.ParserFaithful
import Cynos.Index.Hash
import Cynos.Index.HashAgreement
import Cynos.Index.Nullable
import Cynos.Index.BatchRemoval
import Cynos.Index.Descending
import Cynos.Index.GinAgreement
import Cynos.Storage.GinContent
import Cynos.Storage.Lock
import Cynos.Incremental.StateIds
import Cynos.Incremental.Derivation
import Cynos.Storage.SlotRuns
import Cynos.Incremental.VisibleStore
import Cynos.Incremental.JoinActions
import Cynos.Incremental.JoinNormalize
import Cynos.Incremental.JoinSide
import Cynos.Jsonb.RawProbe
import Cynos.Query.RawAgreement
import Cynos.Storage.ConsistentRuns
import Cynos.Storage.ScanRuns
import Cynos.Storage.GinFastPath
import Cynos.Lib.Trie
import Cynos.Storage.GinStreaming
import Cynos.Storage.Alike
import Cynos.Storage.Transaction
import Cynos.Storage.TransactionJournal
import Cynos.Database.JsTransaction
