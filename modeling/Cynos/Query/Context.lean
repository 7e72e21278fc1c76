import Cynos.Query.Physical

/-! What the optimizer knows of tables and their indexes. -/
namespace Cynos.Query

inductive QueryIndexType where
  | hash
  | bTree
  | gin
  deriving DecidableEq

structure IndexInfo where
  name : IndexName
  columns : List String
  isUnique : Bool
  indexType : QueryIndexType
  deriving DecidableEq

def IndexInfo.supportsOrdering (info : IndexInfo) : Bool := info.indexType = .bTree

structure TableStats where
  rowCount : Nat
  indexes : List IndexInfo
  deriving DecidableEq

structure ExecutionContext where
  tableStats : TableName → Option TableStats
  effectiveRowCounts : TableName → Option Nat
  anchorTable : Option TableName

namespace ExecutionContext

def rowCount (ctx : ExecutionContext) (table : TableName) : Nat :=
  (ctx.effectiveRowCounts table).getD (((ctx.tableStats table).map TableStats.rowCount).getD 0)

def findPrimaryIndex (ctx : ExecutionContext) (table : TableName) : Option IndexInfo :=
  (ctx.tableStats table).bind fun stats =>
    stats.indexes.find? fun info => info.isUnique && info.supportsOrdering

end ExecutionContext

end Cynos.Query
