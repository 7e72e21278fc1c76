import Cynos.Query.Compiled

/-! Layouts of the rows of dataflow nodes. -/
namespace Cynos.Database

open Query

/-- The tables of a node's rows in order, with their widths: the same data as the context
of a relation. -/
abbrev CompileLayout := EvalContext

namespace CompileLayout

def table (table : TableName) (columnCount : Nat) : CompileLayout := ⟨[table], [columnCount]⟩

def projected (layout : CompileLayout) (outputColumnCount : Nat) : CompileLayout :=
  ⟨layout.tables, [outputColumnCount]⟩

def tableWidth (layout : CompileLayout) (tableName : TableName) : Option Nat :=
  (layout.tables.findIdx? fun table => table = tableName).bind fun index =>
    layout.tableColumnCounts[index]?

/-- A table that neither side has gets no width at all. -/
def join (left right : CompileLayout) (outputTables : List TableName) : CompileLayout :=
  ⟨outputTables, outputTables.filterMap fun table =>
    (tableWidth left table).orElse fun _ => tableWidth right table⟩

def combined (left right : CompileLayout) : CompileLayout :=
  join left right (left.tables ++ right.tables)

def containsTable (layout : CompileLayout) (table : TableName) : Bool :=
  layout.tables.contains table

/-- A column without a table keeps its index. -/
def resolveColumnIndex (layout : CompileLayout) (tableName : TableName)
    (tableRelativeIndex : Nat) : Nat :=
  resolveMetaColumnIndex layout tableName tableRelativeIndex

def projectionIndicesFor (layout : CompileLayout) (outputTables : List TableName) : List Nat :=
  outputTables.flatMap fun table =>
    List.range' (layout.resolveColumnIndex table 0) ((tableWidth layout table).getD 0)

def totalWidth (layout : CompileLayout) : Nat := layout.tableColumnCounts.sum

end CompileLayout

/-- Columns are bound to a layout as the runner binds them to the tables of a plan. -/
def bindExprToLayout (expr : Expr) (layout : CompileLayout) : Expr := bindExprToMeta layout expr

end Cynos.Database
