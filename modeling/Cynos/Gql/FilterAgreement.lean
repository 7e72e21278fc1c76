import Cynos.Gql.FilterOps

/-! A filter on a row against the expression it is lowered to. -/
namespace Cynos.Gql

open Cynos.Core (CharClasses Scalar Value)
open Query

section Filtered

variable (machine : Jsonb.Machine) (limit : Nat) (chars : CharClasses)

mutual

/-- The operations of a filter with their columns. -/
def columnOps : BoundFilter → List (Nat × PredicateOp)
  | .and filters | .or filters => columnOpsAll filters
  | .column predicate => predicate.ops.map fun op => (predicate.columnIndex, op)
  | .relation _ _ _ => []

def columnOpsAll : List BoundFilter → List (Nat × PredicateOp)
  | [] => []
  | filter :: filters => columnOps filter ++ columnOpsAll filters

end

mutual

def filterUsesRelations : BoundFilter → Bool
  | .and filters | .or filters => anyUsesRelations filters
  | .column _ => false
  | .relation _ _ _ => true

def anyUsesRelations : List BoundFilter → Bool
  | [] => false
  | filter :: filters => filterUsesRelations filter || anyUsesRelations filters

end

/-- A filter, the filters below it, and every operation as a filter of its own. -/
inductive Part : BoundFilter → BoundFilter → Prop
  | self (filter : BoundFilter) : Part filter filter
  | and {part filter : BoundFilter} {filters : List BoundFilter} (hmem : filter ∈ filters)
      (h : Part part filter) : Part part (.and filters)
  | or {part filter : BoundFilter} {filters : List BoundFilter} (hmem : filter ∈ filters)
      (h : Part part filter) : Part part (.or filters)
  | op {index : Nat} {op : PredicateOp} {ops : List PredicateOp} (hmem : op ∈ ops) :
      Part (.column ⟨index, [op]⟩) (.column ⟨index, ops⟩)

variable (row : Core.Row Scalar)

def OpsMeet (filter : BoundFilter) : Prop :=
  ∀ leaf ∈ columnOps filter, OpMeets machine limit chars (cell row leaf.1) leaf.2

def NeverReadTwice (filter : BoundFilter) : Prop :=
  ∀ leaf ∈ columnOps filter, ¬ ReadTwice machine limit chars (cell row leaf.1) leaf.2

end Filtered

section Lowered

variable (machine : Jsonb.Machine) (limit : Nat) (functions : CheckedFunctions)
  (catalog : GraphqlCatalog) (tableName : String) (table : TableMeta) (row : Core.Row Scalar)

/-- An expression on a row of the table. -/
def planned (expression : Expr) : Option (Value Scalar) :=
  tryAccessorExpr functions row.get (some ⟨[tableName], [table.columns.length]⟩) expression

/-- A filter with all of its parts answers alike on the row and in a plan. -/
def PartsAgree (filter : BoundFilter) : Prop :=
  ∀ part, Part part filter → ∀ path expression state state',
    buildFilterExpr catalog tableName table part path state = .ok (expression, state') →
    SameAnswer (matchesFilter machine limit functions.chars row part)
      (planned functions tableName table row expression)

end Lowered

section Filters

variable {machine : Jsonb.Machine} {limit : Nat} {functions : CheckedFunctions}
  {catalog : GraphqlCatalog} {tableName : String} {table : TableMeta} {row : Core.Row Scalar}
  {path : List String} {expression : Expr} {state state' : RelationLoweringState}

theorem planned_column {index : Nat} {column : ColumnMeta}
    (h : findColumn table index tableName = .ok column) :
    planned functions tableName table row (columnExpr tableName column) = some (cell row index) := by
  unfold findColumn at h
  cases hcolumn : table.columnByIndex index with
  | none =>
    rw [hcolumn] at h
    cases h
  | some found =>
    rw [hcolumn] at h
    cases h
    have hindex := table.index_eq index column hcolumn
    unfold planned columnExpr
    rw [tryAccessorExpr]
    change some ((row.get (EvalContext.resolveFrom tableName column.index 0 [tableName] _)).getD none) = _
    rw [EvalContext.resolveFrom, if_pos rfl, Nat.zero_add, hindex]
    rfl

theorem build_column {predicate : ColumnPredicate}
    (h : buildFilterExpr catalog tableName table (.column predicate) path state =
      .ok (expression, state')) :
    ∃ column expressions, findColumn table predicate.columnIndex tableName = .ok column ∧
      List.Forall₂ (fun op result => buildPredicateExpr (columnExpr tableName column) op = .ok result)
        predicate.ops expressions ∧ expression = andAll expressions := by
  rw [buildFilterExpr] at h
  unfold buildColumnExpr at h
  cases hcolumn : findColumn table predicate.columnIndex tableName with
  | error e =>
    rw [hcolumn] at h
    cases h
  | ok column =>
    rw [hcolumn] at h
    cases hops : predicate.ops.mapM (buildPredicateExpr (columnExpr tableName column)) with
    | error e =>
      change (liftM (predicate.ops.mapM (buildPredicateExpr (columnExpr tableName column)) >>=
        fun expressions => Except.ok (andAll expressions)) : Lowering Expr) state = _ at h
      rw [hops] at h
      cases h
    | ok expressions =>
      change (liftM (predicate.ops.mapM (buildPredicateExpr (columnExpr tableName column)) >>=
        fun expressions => Except.ok (andAll expressions)) : Lowering Expr) state = _ at h
      rw [hops] at h
      cases h
      exact ⟨column, expressions, rfl, forall₂_of_mapM hops, rfl⟩

theorem build_and {filters : List BoundFilter}
    (h : buildFilterExpr catalog tableName table (.and filters) path state =
      .ok (expression, state')) :
    ∃ expressions, buildFilterExprs catalog tableName table filters path state =
      .ok (expressions, state') ∧ expression = andAll expressions := by
  rw [buildFilterExpr] at h
  cases hfilters : buildFilterExprs catalog tableName table filters path state with
  | error e =>
    change (buildFilterExprs catalog tableName table filters path state >>= _) = _ at h
    rw [hfilters] at h
    cases h
  | ok result =>
    change (buildFilterExprs catalog tableName table filters path state >>= _) = _ at h
    rw [hfilters] at h
    cases h
    exact ⟨_, rfl, rfl⟩

theorem build_or {filters : List BoundFilter}
    (h : buildFilterExpr catalog tableName table (.or filters) path state =
      .ok (expression, state')) :
    ∃ expressions, buildFilterExprs catalog tableName table filters path state =
      .ok (expressions, state') ∧ expression = orAll expressions := by
  rw [buildFilterExpr] at h
  cases hfilters : buildFilterExprs catalog tableName table filters path state with
  | error e =>
    change (buildFilterExprs catalog tableName table filters path state >>= _) = _ at h
    rw [hfilters] at h
    cases h
  | ok result =>
    change (buildFilterExprs catalog tableName table filters path state >>= _) = _ at h
    rw [hfilters] at h
    cases h
    exact ⟨_, rfl, rfl⟩

theorem build_cons {filter : BoundFilter} {filters : List BoundFilter} {expressions : List Expr}
    (h : buildFilterExprs catalog tableName table (filter :: filters) path state =
      .ok (expressions, state')) :
    ∃ first rest between, buildFilterExpr catalog tableName table filter path state =
        .ok (first, between) ∧
      buildFilterExprs catalog tableName table filters path between = .ok (rest, state') ∧
      expressions = first :: rest := by
  rw [buildFilterExprs] at h
  change (buildFilterExpr catalog tableName table filter path state >>= fun first =>
    buildFilterExprs catalog tableName table filters path first.2 >>= _) = _ at h
  cases hfilter : buildFilterExpr catalog tableName table filter path state with
  | error e =>
    rw [hfilter] at h
    cases h
  | ok first =>
    rw [hfilter] at h
    change (buildFilterExprs catalog tableName table filters path first.2 >>= _) = _ at h
    cases hfilters : buildFilterExprs catalog tableName table filters path first.2 with
    | error e =>
      rw [hfilters] at h
      cases h
    | ok rest =>
      rw [hfilters] at h
      cases h
      exact ⟨_, _, _, rfl, hfilters, rfl⟩

theorem matchesAll_eq (chars : CharClasses) (filters : List BoundFilter) :
    matchesAll machine limit chars row filters =
      filters.allM (matchesFilter machine limit chars row) := by
  induction filters with
  | nil => rfl
  | cons filter filters ih =>
    rw [matchesAll, ih, List.allM]
    cases matchesFilter machine limit chars row filter with
    | none => rfl
    | some b => cases b <;> rfl

theorem matchesAny_eq (chars : CharClasses) (filters : List BoundFilter) :
    matchesAny machine limit chars row filters =
      filters.anyM (matchesFilter machine limit chars row) := by
  induction filters with
  | nil => rfl
  | cons filter filters ih =>
    rw [matchesAny, ih, List.anyM]
    cases matchesFilter machine limit chars row filter with
    | none => rfl
    | some b => cases b <;> rfl

theorem answers_column {predicate : ColumnPredicate}
    (hmeets : ∀ op ∈ predicate.ops, OpMeets machine limit functions.chars
      (cell row predicate.columnIndex) op)
    (hbuild : buildFilterExpr catalog tableName table (.column predicate) path state =
      .ok (expression, state')) :
    Answers (matchesFilter machine limit functions.chars row (.column predicate))
      (planned functions tableName table row expression) := by
  obtain ⟨column, expressions, hcolumn, hops, rfl⟩ := build_column hbuild
  have hcell := @planned_column functions tableName table row _ _ hcolumn
  rw [matchesFilter, matchesColumnPredicate]
  apply answers_andAll
  refine forall₂_imp_mem hops fun op hop result hresult => ?_
  obtain ⟨b, v, hb, hv, hiff⟩ :=
    compared hcell (not_readTwice_of_meets (hmeets op hop)) hresult
  exact ⟨v, hv, hb.trans (congrArg some (hiff.mp (hmeets op hop)))⟩

mutual

/-- Where every operation meets its condition the filter and its expression answer alike. -/
theorem answers_filter (filter : BoundFilter) (hplain : filterUsesRelations filter = false)
    (hmeets : OpsMeet machine limit functions.chars row filter)
    (state state' : RelationLoweringState) (expression : Expr)
    (hbuild : buildFilterExpr catalog tableName table filter path state = .ok (expression, state')) :
    Answers (matchesFilter machine limit functions.chars row filter)
      (planned functions tableName table row expression) := by
  match filter with
  | .column predicate =>
    refine answers_column (fun op hop => ?_) hbuild
    refine hmeets (predicate.columnIndex, op) ?_
    rw [columnOps]
    exact List.mem_map_of_mem hop
  | .relation _ _ _ => exact nomatch hplain
  | .and filters =>
    obtain ⟨expressions, hfilters, rfl⟩ := build_and hbuild
    rw [matchesFilter, matchesAll_eq]
    exact answers_andAll (answers_filters filters hplain
      (fun leaf hleaf => hmeets leaf (by rwa [columnOps])) state state' expressions hfilters)
  | .or filters =>
    obtain ⟨expressions, hfilters, rfl⟩ := build_or hbuild
    rw [matchesFilter, matchesAny_eq]
    exact answers_orAll (answers_filters filters hplain
      (fun leaf hleaf => hmeets leaf (by rwa [columnOps])) state state' expressions hfilters)

theorem answers_filters (filters : List BoundFilter) (hplain : anyUsesRelations filters = false)
    (hmeets : ∀ leaf ∈ columnOpsAll filters,
      OpMeets machine limit functions.chars (cell row leaf.1) leaf.2)
    (state state' : RelationLoweringState) (expressions : List Expr)
    (hbuild : buildFilterExprs catalog tableName table filters path state =
      .ok (expressions, state')) :
    List.Forall₂ (fun filter expression =>
      Answers (matchesFilter machine limit functions.chars row filter)
        (planned functions tableName table row expression)) filters expressions := by
  match filters with
  | [] =>
    cases hbuild
    exact .nil
  | filter :: filters =>
    obtain ⟨first, rest, between, hfirst, hrest, rfl⟩ := build_cons hbuild
    rw [anyUsesRelations, Bool.or_eq_false_iff] at hplain
    rw [columnOpsAll] at hmeets
    exact .cons
      (answers_filter filter hplain.1 (fun leaf hleaf => hmeets leaf (List.mem_append_left _ hleaf))
        state between first hfirst)
      (answers_filters filters hplain.2
        (fun leaf hleaf => hmeets leaf (List.mem_append_right _ hleaf)) between state' rest hrest)

end

mutual

/-- Every operation of a filter that is lowered is lowered by itself. -/
theorem built_leaf (filter : BoundFilter) (state state' : RelationLoweringState) (expression : Expr)
    (hplain : filterUsesRelations filter = false)
    (hbuild : buildFilterExpr catalog tableName table filter path state = .ok (expression, state')) :
    ∀ leaf ∈ columnOps filter, Part (.column ⟨leaf.1, [leaf.2]⟩) filter ∧
      ∃ column result, findColumn table leaf.1 tableName = .ok column ∧
        buildPredicateExpr (columnExpr tableName column) leaf.2 = .ok result := by
  match filter with
  | .column ⟨index, ops⟩ =>
    obtain ⟨column, expressions, hcolumn, hops, -⟩ := build_column hbuild
    rintro leaf hleaf
    rw [columnOps] at hleaf
    obtain ⟨op, hop, rfl⟩ := List.mem_map.mp hleaf
    refine ⟨.op hop, column, ?_⟩
    obtain ⟨result, hresult⟩ := exists_of_forall₂ hops hop
    exact ⟨result, hcolumn, hresult⟩
  | .relation _ _ _ => exact nomatch hplain
  | .and filters =>
    obtain ⟨expressions, hfilters, -⟩ := build_and hbuild
    intro leaf hleaf
    rw [columnOps] at hleaf
    obtain ⟨⟨filter, hmem, hpart⟩, hbuilt⟩ :=
      built_leaves filters state state' expressions hplain hfilters leaf hleaf
    exact ⟨.and hmem hpart, hbuilt⟩
  | .or filters =>
    obtain ⟨expressions, hfilters, -⟩ := build_or hbuild
    intro leaf hleaf
    rw [columnOps] at hleaf
    obtain ⟨⟨filter, hmem, hpart⟩, hbuilt⟩ :=
      built_leaves filters state state' expressions hplain hfilters leaf hleaf
    exact ⟨.or hmem hpart, hbuilt⟩

theorem built_leaves (filters : List BoundFilter) (state state' : RelationLoweringState)
    (expressions : List Expr) (hplain : anyUsesRelations filters = false)
    (hbuild : buildFilterExprs catalog tableName table filters path state =
      .ok (expressions, state')) :
    ∀ leaf ∈ columnOpsAll filters,
      (∃ filter ∈ filters, Part (.column ⟨leaf.1, [leaf.2]⟩) filter) ∧
        ∃ column result, findColumn table leaf.1 tableName = .ok column ∧
          buildPredicateExpr (columnExpr tableName column) leaf.2 = .ok result := by
  match filters with
  | [] => exact nofun
  | filter :: filters =>
    obtain ⟨first, rest, between, hfirst, hrest, -⟩ := build_cons hbuild
    rw [anyUsesRelations, Bool.or_eq_false_iff] at hplain
    intro leaf hleaf
    rw [columnOpsAll] at hleaf
    rcases List.mem_append.mp hleaf with hleaf | hleaf
    · obtain ⟨hpart, hbuilt⟩ := built_leaf filter state between first hplain.1 hfirst leaf hleaf
      exact ⟨⟨filter, List.mem_cons_self .., hpart⟩, hbuilt⟩
    · obtain ⟨⟨other, hmem, hpart⟩, hbuilt⟩ :=
        built_leaves filters between state' rest hplain.2 hrest leaf hleaf
      exact ⟨⟨other, List.mem_cons_of_mem _ hmem, hpart⟩, hbuilt⟩

end

theorem columnOpsAll_of_mem {filter : BoundFilter} {filters : List BoundFilter} (h : filter ∈ filters)
    {leaf : Nat × PredicateOp} (hleaf : leaf ∈ columnOps filter) : leaf ∈ columnOpsAll filters := by
  induction filters with
  | nil => cases h
  | cons first filters ih =>
    rw [columnOpsAll]
    rcases List.mem_cons.mp h with rfl | h
    · exact List.mem_append_left _ hleaf
    · exact List.mem_append_right _ (ih h)

theorem anyUsesRelations_of_mem {filter : BoundFilter} {filters : List BoundFilter}
    (hplain : anyUsesRelations filters = false) (h : filter ∈ filters) :
    filterUsesRelations filter = false := by
  induction filters with
  | nil => cases h
  | cons first filters ih =>
    rw [anyUsesRelations, Bool.or_eq_false_iff] at hplain
    rcases List.mem_cons.mp h with rfl | h
    · exact hplain.1
    · exact ih hplain.2 h

theorem Part.usesRelations {part filter : BoundFilter} (h : Part part filter)
    (hplain : filterUsesRelations filter = false) : filterUsesRelations part = false := by
  induction h with
  | self filter => exact hplain
  | and hmem _ ih => exact ih (anyUsesRelations_of_mem hplain hmem)
  | or hmem _ ih => exact ih (anyUsesRelations_of_mem hplain hmem)
  | op hmem => rfl

theorem Part.columnOps {part filter : BoundFilter} (h : Part part filter)
    {leaf : Nat × PredicateOp} (hleaf : leaf ∈ Gql.columnOps part) : leaf ∈ Gql.columnOps filter := by
  induction h with
  | self filter => exact hleaf
  | and hmem _ ih =>
    rw [Gql.columnOps]
    exact columnOpsAll_of_mem hmem (ih hleaf)
  | or hmem _ ih =>
    rw [Gql.columnOps]
    exact columnOpsAll_of_mem hmem (ih hleaf)
  | op hmem =>
    rw [Gql.columnOps] at hleaf ⊢
    obtain ⟨op, hop, rfl⟩ := List.mem_map.mp hleaf
    rw [List.mem_singleton.mp hop]
    exact List.mem_map_of_mem hmem

def plainFunctions : CheckedFunctions :=
  ⟨id, id, fun _ _ => false, .ascii, fun _ => none, fun _ => "", fun _ _ _ => false,
    fun _ _ _ => false, fun _ _ => false⟩

/-- One column of integers. -/
def countTable : TableMeta where
  tableName := "items"
  columns := [⟨"count", 0, .int32, true⟩]
  primaryKey := none
  index_eq := by
    intro i column h
    cases i with
    | zero =>
      cases h
      rfl
    | succ i => cases h

def notOne : BoundFilter := .column ⟨0, [.ne (some (.int32 1))]⟩

theorem build_notOne : buildFilterExpr ⟨[]⟩ "items" countTable notOne []
    (RelationLoweringState.new "items" countTable) =
      .ok (.binaryOp (.column ⟨"items", "count", 0⟩) .ne (.literal (some (.int32 1))),
        RelationLoweringState.new "items" countTable) := by
  rw [notOne, buildFilterExpr]
  rfl

end Filters

end Cynos.Gql
