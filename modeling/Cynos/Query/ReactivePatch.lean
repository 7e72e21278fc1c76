import Cynos.Lib.Keyed
import Cynos.Query.Runner

/-! Patching the result of a one-table plan row by row instead of executing the plan again.
The result is ordered by row id, as the table is, so it is a finite map from row ids and a
patch is an update of one entry. -/
namespace Cynos.Query

open Core
open Index (RowId)
open Keyed (Sorted lookup)

section Source

/-- A data source without tables. -/
def InMemoryDataSource.new : DataSource where
  getTableRows := fun table => .error (.tableNotFound table)
  getColumnCount := fun table => .error (.tableNotFound table)
  getIndexRange := fun table _ _ _ => .error (.tableNotFound table)
  getGinIndexRows := fun table _ _ _ => .error (.tableNotFound table)
  getGinIndexRowsByKey := fun table _ _ => .error (.tableNotFound table)
  getGinIndexRowsMulti := fun table _ _ _ => .error (.tableNotFound table)

def rowsEqual (left right : Entry) : Bool :=
  left.id == right.id && left.version == right.version &&
    left.values.isEqv right.values Value.eq

def patchRowById (currentRows : List Entry) (rowId : RowId) (nextRow : Option Entry) :
    List Entry × Bool :=
  match Keyed.search Row.id currentRows rowId with
  | .ok index =>
    match nextRow with
    | some row =>
      if (currentRows[index]?.map fun current => rowsEqual current row) = some true then
        (currentRows, false)
      else (currentRows.set index row, true)
    | none => (currentRows.eraseIdx index, true)
  | .error index =>
    match nextRow with
    | some row => (currentRows.insertIdx index row, true)
    | none => (currentRows, false)

def patchRows (project : Entry → Option Entry) (currentRows : List Entry)
    (orderedChanges : List (RowId × Option Entry)) : List Entry × Bool :=
  orderedChanges.foldl (fun patched change =>
    let (rows, changed) := patchRowById patched.1 change.1 (change.2.bind project)
    (rows, patched.2 || changed)) (currentRows, false)

def sortByRowId (changedRows : List (RowId × Option Entry)) : List (RowId × Option Entry) :=
  changedRows.mergeSort fun a b => a.1 ≤ b.1

namespace PhysicalPlanRunner

variable (runner : PhysicalPlanRunner)

def projectPipelineRow (pipeline : CachedSingleTablePipeline) (row : Entry) : Option Entry :=
  if pipeline.filters.all fun f => runner.compiledHolds f row then
    some (runner.projectRow pipeline.projection row)
  else none

def withSource (source : DataSource) : PhysicalPlanRunner := { runner with dataSource := source }

def evaluator : PhysicalPlanRunner := runner.withSource InMemoryDataSource.new

def applySingleTablePipelinePatch (pipeline : CachedSingleTablePipeline)
    (currentRows : List Entry) (changedRows : List (RowId × Option Entry)) : List Entry × Bool :=
  patchRows (runner.evaluator.projectPipelineRow pipeline) currentRows (sortByRowId changedRows)

def applyFilteredTableScanPatch (predicate : CompiledRowPredicate) (currentRows : List Entry)
    (changedRows : List (RowId × Option Entry)) : List Entry × Bool :=
  patchRows (fun row => if runner.evaluator.compiledHolds predicate row then some row else none)
    currentRows (sortByRowId changedRows)

def applyReactivePatch (artifact : PlanExecutionArtifact) (currentRows : List Entry)
    (changedRows : List (RowId × Option Entry)) : Option (List Entry × Bool) :=
  match artifact with
  | .singleTablePipeline pipeline =>
    if pipeline.limit.isNone then
      some (runner.applySingleTablePipelinePatch pipeline currentRows changedRows)
    else none
  | .filteredTableScan _ predicate =>
    some (runner.applyFilteredTableScanPatch predicate currentRows changedRows)
  | .none => none

def executeWithArtifact (plan : PhysicalPlan) (artifact : PlanExecutionArtifact) :
    ExecutionResult Relation :=
  match artifact with
  | .singleTablePipeline pipeline => runner.executeCachedSingleTablePipeline pipeline
  | .filteredTableScan table predicate => runner.executeCompiledFilteredTableScan table predicate
  | .none => runner.execute plan

end PhysicalPlanRunner

/-- The table a patch of the artifact's result reads, where there is one. -/
def reactivePatchTable : PlanExecutionArtifact → Option TableName
  | .singleTablePipeline pipeline => if pipeline.limit.isNone then some pipeline.table else none
  | .filteredTableScan table _ => some table
  | .none => none

end Source

section RowsEqual

theorem isEqv_iff (as bs : List (Value Scalar)) :
    as.isEqv bs Value.eq = true ↔ List.Forall₂ (fun a b => Value.eq a b = true) as bs := by
  induction as generalizing bs with
  | nil => cases bs <;> simp [List.isEqv]
  | cons a as ih =>
    cases bs with
    | nil => simp [List.isEqv]
    | cons b bs => rw [List.isEqv, Bool.and_eq_true, ih, List.forall₂_cons]

/-- Rows with one id, one version and equal values, as the runner and the live queries
compare them. -/
def SameRow (a b : Entry) : Prop := rowsEqual a b = true

theorem sameRow_iff {a b : Entry} :
    SameRow a b ↔ a.id = b.id ∧ a.version = b.version ∧
      List.Forall₂ (fun a b => Value.eq a b = true) a.values b.values := by
  unfold SameRow rowsEqual
  rw [Bool.and_eq_true, Bool.and_eq_true, beq_iff_eq, beq_iff_eq, isEqv_iff, and_assoc]

theorem SameRow.refl (a : Entry) : SameRow a a :=
  sameRow_iff.mpr ⟨rfl, rfl, List.forall₂_same.mpr fun value _ => Value.eq_refl value⟩

theorem sameRow_id (a b : Entry) (h : SameRow a b) : a.id = b.id := (sameRow_iff.mp h).1

theorem SameRow.version_eq {a b : Entry} (h : SameRow a b) : a.version = b.version :=
  (sameRow_iff.mp h).2.1

/-- `rowsEqual` of what an id has before and after a patch. -/
def entriesEqual : Option Entry → Option Entry → Bool
  | none, none => true
  | some a, some b => rowsEqual a b
  | _, _ => false

theorem entriesEqual_iff {a b : Option Entry} :
    entriesEqual a b = true ↔ Option.Rel SameRow a b := by
  cases a <;> cases b <;> simp [entriesEqual, SameRow]

end RowsEqual

section PatchRow

variable {rows : List Entry} {rowId : RowId} {next : Option Entry}

/-- What an id has after a patch: nothing is replaced by a row equal to it. -/
def patchedEntry (current next : Option Entry) : Option Entry :=
  if entriesEqual current next then current else next

theorem entriesEqual_patchedEntry (current next : Option Entry) :
    entriesEqual (patchedEntry current next) next = true := by
  unfold patchedEntry
  split
  next h => exact h
  next =>
    apply entriesEqual_iff.mpr
    cases next with
    | none => exact .none
    | some row => exact .some (SameRow.refl row)

theorem patchRowById_found {lo hi : List Entry} {x : Entry}
    (h : Keyed.search Row.id (lo ++ x :: hi) rowId = .ok lo.length) (next : Option Entry) :
    patchRowById (lo ++ x :: hi) rowId next =
      match next with
      | some row =>
        if rowsEqual x row then (lo ++ x :: hi, false) else (lo ++ row :: hi, true)
      | none => (lo ++ hi, true) := by
  unfold patchRowById
  rw [h]
  cases next with
  | none => exact congrArg (·, true) (Vec.eraseIdx_append lo hi x)
  | some row => simp

theorem patchRowById_missing {lo hi : List Entry}
    (h : Keyed.search Row.id (lo ++ hi) rowId = .error lo.length) (next : Option Entry) :
    patchRowById (lo ++ hi) rowId next =
      match next with
      | some row => (lo ++ row :: hi, true)
      | none => (lo ++ hi, false) := by
  unfold patchRowById
  rw [h]
  cases next with
  | none => rfl
  | some row => exact congrArg (·, true) (Vec.insertIdx_append lo hi row)

/-- `rows'` is `rows` with the entry of one id replaced. -/
def Updates (rows : List Entry) (rowId : RowId) (entry : Option Entry) (rows' : List Entry) : Prop :=
  Sorted Row.id rows' ∧
    ∀ id, lookup Row.id rows' id = if id = rowId then entry else lookup Row.id rows id

theorem updates_self (hrows : Sorted Row.id rows) :
    Updates rows rowId (lookup Row.id rows rowId) rows := by
  refine ⟨hrows, fun id => ?_⟩
  split
  next h => rw [h]
  next => rfl

theorem updates_insert {lo hi : List Entry} {row : Entry}
    (h : Sorted Row.id (lo ++ row :: hi)) (hrow : row.id = rowId) :
    Updates (lo ++ hi) rowId (some row) (lo ++ row :: hi) := by
  refine ⟨h, fun id => ?_⟩
  rw [h.lookup_middle, hrow]
  exact if_congr eq_comm rfl rfl

theorem updates_remove {lo hi : List Entry} {x : Entry}
    (h : Sorted Row.id (lo ++ x :: hi)) (hx : x.id = rowId) :
    Updates (lo ++ x :: hi) rowId none (lo ++ hi) := by
  refine ⟨(Keyed.sorted_middle.mp h).1, fun id => ?_⟩
  by_cases hid : id = rowId
  · rw [if_pos hid, hid, ← hx, h.lookup_removed]
  · rw [if_neg hid, h.lookup_middle, if_neg (hx ▸ Ne.symm hid)]

theorem updates_replace {lo hi : List Entry} {x row : Entry}
    (h : Sorted Row.id (lo ++ x :: hi)) (hx : x.id = rowId) (hrow : row.id = rowId) :
    Updates (lo ++ x :: hi) rowId (some row) (lo ++ row :: hi) := by
  have hkey : row.id = x.id := hrow.trans hx.symm
  have hsorted : Sorted Row.id (lo ++ row :: hi) := by
    rw [Keyed.sorted_middle, hkey]
    exact Keyed.sorted_middle.mp h
  refine ⟨hsorted, fun id => ?_⟩
  rw [hsorted.lookup_middle, h.lookup_middle, hrow, hx]
  by_cases hid : id = rowId
  · rw [if_pos hid.symm, if_pos hid]
  · rw [if_neg (Ne.symm hid), if_neg hid, if_neg (Ne.symm hid)]

/-- One patch is an update of one entry, and it reports whether that changed anything. -/
theorem patchRowById_spec (hrows : Sorted Row.id rows) (hnext : ∀ row ∈ next, row.id = rowId) :
    Updates rows rowId (patchedEntry (lookup Row.id rows rowId) next)
        (patchRowById rows rowId next).1 ∧
      (patchRowById rows rowId next).2 = !entriesEqual (lookup Row.id rows rowId) next := by
  rcases hrows.search_cases rowId with ⟨lo, x, hi, rfl, hx, hsearch⟩ |
    ⟨lo, hi, rfl, hlo, hhi, hsearch⟩
  · have hcurrent : lookup Row.id (lo ++ x :: hi) rowId = some x := by
      rw [hrows.lookup_middle, if_pos hx]
    rw [patchRowById_found hsearch, hcurrent]
    cases next with
    | none => exact ⟨updates_remove hrows hx, rfl⟩
    | some row =>
      by_cases hsame : rowsEqual x row = true
      · simp only [patchedEntry, entriesEqual, hsame, if_true]
        exact ⟨hcurrent ▸ updates_self hrows, rfl⟩
      · simp only [patchedEntry, entriesEqual, hsame]
        exact ⟨updates_replace hrows hx (hnext row rfl), rfl⟩
  · have hcurrent : lookup Row.id (lo ++ hi) rowId = none := by
      apply Keyed.lookup_eq_none
      intro y hy
      rcases List.mem_append.mp hy with hy | hy
      · exact (hlo y hy).ne
      · exact (hhi y hy).ne'
    rw [patchRowById_missing hsearch, hcurrent]
    cases next with
    | none =>
      have hself : Updates (lo ++ hi) rowId _ (lo ++ hi) := updates_self hrows
      rw [hcurrent] at hself
      exact ⟨hself, rfl⟩
    | some row =>
      have hrow : row.id = rowId := hnext row rfl
      have hsorted : Sorted Row.id (lo ++ row :: hi) :=
        Keyed.sorted_middle.mpr ⟨hrows, hrow ▸ hlo, hrow ▸ hhi⟩
      exact ⟨updates_insert hsorted hrow, rfl⟩

end PatchRow

section PatchRows

variable {project : Entry → Option Entry}

theorem patchRows_cons (rows : List Entry) (change : RowId × Option Entry)
    (changes : List (RowId × Option Entry)) :
    patchRows project rows (change :: changes) =
      let patched := patchRowById rows change.1 (change.2.bind project)
      ((patchRows project patched.1 changes).1,
        patched.2 || (patchRows project patched.1 changes).2) := by
  have hflag : ∀ (changes : List (RowId × Option Entry)) (rows : List Entry) (flag : Bool),
      changes.foldl (fun patched change =>
          let (rows, changed) := patchRowById patched.1 change.1 (change.2.bind project)
          (rows, patched.2 || changed)) (rows, flag) =
        ((patchRows project rows changes).1, flag || (patchRows project rows changes).2) := by
    intro changes
    induction changes with
    | nil => exact fun rows flag => Prod.ext rfl (Bool.or_false flag).symm
    | cons change changes ih =>
      intro rows flag
      unfold patchRows
      rw [List.foldl_cons, List.foldl_cons, ih, ih, Bool.or_assoc, Bool.false_or]
  rw [patchRows, List.foldl_cons, hflag, Bool.false_or]

/-- The changes of one batch, one by one: every listed id has what its patch leaves, the
others keep what they had. -/
theorem patchRows_spec {rows : List Entry} {changes : List (RowId × Option Entry)}
    (hrows : Sorted Row.id rows) (honce : (changes.map Prod.fst).Nodup)
    (hnext : ∀ change ∈ changes, ∀ row ∈ change.2.bind project, row.id = change.1) :
    Sorted Row.id (patchRows project rows changes).1 ∧
      (∀ change ∈ changes, lookup Row.id (patchRows project rows changes).1 change.1 =
        patchedEntry (lookup Row.id rows change.1) (change.2.bind project)) ∧
      (∀ id, id ∉ changes.map Prod.fst →
        lookup Row.id (patchRows project rows changes).1 id = lookup Row.id rows id) ∧
      (patchRows project rows changes).2 = changes.any fun change =>
        !entriesEqual (lookup Row.id rows change.1) (change.2.bind project) := by
  induction changes generalizing rows with
  | nil => exact ⟨hrows, by simp, fun _ _ => rfl, rfl⟩
  | cons change changes ih =>
    obtain ⟨hfresh, honce⟩ := List.nodup_cons.mp honce
    obtain ⟨⟨hsorted, hlookup⟩, hflag⟩ := patchRowById_spec hrows (hnext change (by simp))
    obtain ⟨hsorted', hlisted, hothers, hflags⟩ := ih hsorted honce fun c hc => hnext c (by simp [hc])
    -- the other changes are about other ids
    have hold : ∀ c ∈ changes, lookup Row.id
        (patchRowById rows change.1 (change.2.bind project)).1 c.1 = lookup Row.id rows c.1 := by
      intro c hc
      rw [hlookup, if_neg]
      intro hid
      exact hfresh (hid ▸ List.mem_map_of_mem hc)
    rw [patchRows_cons]
    refine ⟨hsorted', fun c hc => ?_, fun id hid => ?_, ?_⟩
    · rcases List.mem_cons.mp hc with rfl | hc
      · rw [hothers c.1 hfresh, hlookup, if_pos rfl]
      · rw [hlisted c hc, hold c hc]
    · rw [List.map_cons, List.mem_cons, not_or] at hid
      rw [hothers id hid.2, hlookup, if_neg hid.1]
    · have hrest : (changes.any fun c => !entriesEqual (lookup Row.id
          (patchRowById rows change.1 (change.2.bind project)).1 c.1) (c.2.bind project)) =
          changes.any fun c => !entriesEqual (lookup Row.id rows c.1) (c.2.bind project) := by
        rw [Bool.eq_iff_iff, List.any_eq_true, List.any_eq_true]
        apply exists_congr
        intro c
        apply and_congr_right
        intro hc
        rw [hold c hc]
      rw [List.any_cons, ← hflag, ← hrest, ← hflags]

end PatchRows

section Execution

variable (runner : PhysicalPlanRunner)

namespace PhysicalPlanRunner

/-- What a patchable artifact shows of a row of its table. -/
def visibleRow (artifact : PlanExecutionArtifact) (row : Entry) : Option Entry :=
  match artifact with
  | .singleTablePipeline pipeline => runner.projectPipelineRow pipeline row
  | .filteredTableScan _ predicate => if runner.compiledHolds predicate row then some row else none
  | .none => none

variable {runner} {artifact : PlanExecutionArtifact} {table : TableName}

/-- Filters and projections read the row, never the tables. -/
theorem visibleRow_withSource (source : DataSource) :
    (runner.withSource source).visibleRow artifact = runner.visibleRow artifact := by
  cases artifact <;> rfl

theorem projectRow_id (projection : CachedSingleTableProjection) (row : Entry) :
    (runner.projectRow projection row).id = row.id := by
  cases projection <;> rfl

theorem projectRow_version (projection : CachedSingleTableProjection) (row : Entry) :
    (runner.projectRow projection row).version = row.version := by
  cases projection <;> rfl

theorem projectPipelineRow_eq_some {pipeline : CachedSingleTablePipeline} {row shown : Entry}
    (h : runner.projectPipelineRow pipeline row = some shown) :
    runner.projectRow pipeline.projection row = shown := by
  unfold projectPipelineRow at h
  split at h
  · exact Option.some.inj h
  · cases h

/-- A row keeps its id and its version through every artifact. -/
theorem visibleRow_keeps {row shown : Entry} (h : runner.visibleRow artifact row = some shown) :
    shown.id = row.id ∧ shown.version = row.version := by
  cases artifact with
  | none => cases h
  | singleTablePipeline pipeline =>
    obtain rfl := projectPipelineRow_eq_some h
    exact ⟨projectRow_id _ _, projectRow_version _ _⟩
  | filteredTableScan _ predicate =>
    change (if _ then some row else none) = some shown at h
    split at h
    · obtain rfl := Option.some.inj h
      exact ⟨rfl, rfl⟩
    · cases h

theorem limit_of_reactivePatchTable {pipeline : CachedSingleTablePipeline}
    (h : reactivePatchTable (.singleTablePipeline pipeline) = some table) :
    pipeline.limit = none ∧ pipeline.table = table := by
  change (if pipeline.limit.isNone then some pipeline.table else none) = some table at h
  split at h
  next hlimit => exact ⟨Option.isNone_iff_eq_none.mp hlimit, Option.some.inj h⟩
  next => cases h

theorem map_filter_eq_filterMap (p : Entry → Bool) (f : Entry → Entry) (rows : List Entry) :
    (rows.filter p).map f = rows.filterMap fun row => if p row then some (f row) else none := by
  induction rows with
  | nil => rfl
  | cons row rows ih =>
    rw [List.filter_cons, List.filterMap_cons]
    cases p row
    · exact ih
    · exact congrArg (f row :: ·) ih

/-- Executing a patchable artifact shows the visible rows of its table, in the table's order. -/
theorem executeWithArtifact_entries {plan : PhysicalPlan} {rows : List Entry}
    {relation : Relation} (htable : reactivePatchTable artifact = some table)
    (hrows : runner.dataSource.getTableRows table = .ok rows)
    (h : runner.executeWithArtifact plan artifact = .ok relation) :
    relation.entries = rows.filterMap (runner.visibleRow artifact) := by
  cases artifact with
  | none => cases htable
  | singleTablePipeline pipeline =>
    obtain ⟨hlimit, rfl⟩ := limit_of_reactivePatchTable htable
    unfold executeWithArtifact executeCachedSingleTablePipeline at h
    obtain ⟨count, -, h⟩ := ok_of_bind h
    rw [hrows, ok_bind, hlimit] at h
    cases h
    exact map_filter_eq_filterMap _ _ _
  | filteredTableScan name predicate =>
    obtain rfl := Option.some.inj htable
    unfold executeWithArtifact executeCompiledFilteredTableScan at h
    obtain ⟨count, -, h⟩ := ok_of_bind h
    rw [hrows, ok_bind] at h
    cases h
    have hshown := map_filter_eq_filterMap (runner.compiledHolds predicate) id rows
    rw [List.map_id] at hshown
    exact hshown

theorem applyReactivePatch_eq (htable : reactivePatchTable artifact = some table)
    (currentRows : List Entry) (changedRows : List (RowId × Option Entry)) :
    runner.applyReactivePatch artifact currentRows changedRows =
      some (patchRows (runner.visibleRow artifact) currentRows (sortByRowId changedRows)) := by
  cases artifact with
  | none => cases htable
  | singleTablePipeline pipeline =>
    obtain ⟨hlimit, -⟩ := limit_of_reactivePatchTable htable
    change (if pipeline.limit.isNone then some _ else none) = some _
    rw [hlimit]
    rfl
  | filteredTableScan name predicate => rfl

end PhysicalPlanRunner

end Execution

section Changes

/-- A table goes from `rows` to `rows'`: every id that differs is listed, each once, with the
row it has now. -/
structure TableChange (rows rows' : List Entry) (changes : List (RowId × Option Entry)) : Prop where
  once : (changes.map Prod.fst).Nodup
  listed : ∀ change ∈ changes, change.2 = lookup Row.id rows' change.1
  others : ∀ id, id ∉ changes.map Prod.fst → lookup Row.id rows' id = lookup Row.id rows id

variable {rows rows' : List Entry} {changes : List (RowId × Option Entry)}

theorem sortByRowId_perm (changes : List (RowId × Option Entry)) :
    (sortByRowId changes).Perm changes := List.mergeSort_perm _ _

theorem TableChange.sorted (h : TableChange rows rows' changes) :
    TableChange rows rows' (sortByRowId changes) := by
  have hperm := sortByRowId_perm changes
  constructor
  · exact (hperm.map Prod.fst).nodup_iff.mpr h.once
  · exact fun change hchange => h.listed change (hperm.mem_iff.mp hchange)
  · exact fun id hid => h.others id fun hmem => hid ((hperm.map Prod.fst).mem_iff.mpr hmem)

namespace PhysicalPlanRunner

variable {runner : PhysicalPlanRunner} {artifact : PlanExecutionArtifact}

theorem sorted_visible (hrows : Sorted Row.id rows) :
    Sorted Row.id (rows.filterMap (runner.visibleRow artifact)) :=
  hrows.filterMap fun _ _ h => (visibleRow_keeps h).1

theorem lookup_visible (hrows : Sorted Row.id rows) (id : RowId) :
    lookup Row.id (rows.filterMap (runner.visibleRow artifact)) id =
      (lookup Row.id rows id).bind (runner.visibleRow artifact) :=
  hrows.lookup_filterMap (fun _ _ h => (visibleRow_keeps h).1) id

theorem entriesEqual_of_sameRows {current shown : List Entry}
    (h : List.Forall₂ SameRow current shown) (id : RowId) :
    entriesEqual (lookup Row.id current id) (lookup Row.id shown id) = true :=
  entriesEqual_iff.mpr (Keyed.lookup_of_forall₂ sameRow_id h id)

/-- A patch brings what was shown before the change, up to equal rows, to what is shown after
it, and reports whether that is something else. -/
theorem patchRows_visible (hrows : Sorted Row.id rows) (hrows' : Sorted Row.id rows')
    (hchange : TableChange rows rows' changes) {current : List Entry}
    (hcurrent : List.Forall₂ SameRow current (rows.filterMap (runner.visibleRow artifact))) :
    let patched := patchRows (runner.visibleRow artifact) current changes
    let shown := rows'.filterMap (runner.visibleRow artifact)
    List.Forall₂ SameRow patched.1 shown ∧ (patched.2 = false ↔ patched.1 = current) ∧
      (patched.2 = false ↔ List.Forall₂ SameRow current shown) ∧
      ∀ id, lookup Row.id patched.1 id =
        patchedEntry (lookup Row.id current id) (lookup Row.id shown id) := by
  intro patched shown
  have hsorted : Sorted Row.id current :=
    Keyed.sorted_of_forall₂ sameRow_id hcurrent (sorted_visible hrows)
  have hnow : ∀ change ∈ changes,
      change.2.bind (runner.visibleRow artifact) = lookup Row.id shown change.1 := by
    intro change hmem
    rw [hchange.listed change hmem, lookup_visible hrows']
  have hnext : ∀ change ∈ changes,
      ∀ row ∈ change.2.bind (runner.visibleRow artifact), row.id = change.1 := by
    intro change hmem row hrow
    rw [hnow change hmem] at hrow
    exact Keyed.key_of_lookup hrow
  obtain ⟨hpatched, hlisted, hothers, hflag⟩ := patchRows_spec hsorted hchange.once hnext
  -- an id that is not listed shows now what it showed before
  have hkept : ∀ id, id ∉ changes.map Prod.fst →
      entriesEqual (lookup Row.id current id) (lookup Row.id shown id) = true := by
    intro id hid
    rw [lookup_visible hrows', hchange.others id hid, ← lookup_visible hrows]
    exact entriesEqual_of_sameRows hcurrent id
  have hlookup : ∀ id, lookup Row.id patched.1 id =
      patchedEntry (lookup Row.id current id) (lookup Row.id shown id) := by
    intro id
    by_cases hid : id ∈ changes.map Prod.fst
    · obtain ⟨change, hmem, rfl⟩ := List.mem_map.mp hid
      rw [hlisted change hmem, hnow change hmem]
    · rw [hothers id hid, patchedEntry, if_pos (hkept id hid)]
  have hunchanged : patched.2 = false ↔
      ∀ id, entriesEqual (lookup Row.id current id) (lookup Row.id shown id) = true := by
    rw [hflag, List.any_eq_false]
    constructor
    · intro hall id
      by_cases hid : id ∈ changes.map Prod.fst
      · obtain ⟨change, hmem, rfl⟩ := List.mem_map.mp hid
        have hequal := hall change hmem
        rwa [hnow change hmem, Bool.not_eq_true', Bool.not_eq_false] at hequal
      · exact hkept id hid
    · intro hall change hmem
      rw [hnow change hmem, hall]
      exact Bool.false_ne_true
  have hsame : List.Forall₂ SameRow patched.1 shown := by
    apply hpatched.forall₂_of_lookup (sorted_visible hrows')
    intro id
    rw [hlookup]
    exact entriesEqual_iff.mp (entriesEqual_patchedEntry _ _)
  refine ⟨hsame, ?_, ?_, hlookup⟩
  · constructor
    · intro h
      apply hpatched.ext hsorted
      intro id
      rw [hlookup, patchedEntry, if_pos (hunchanged.mp h id)]
    · intro h
      rw [hunchanged, ← h]
      exact entriesEqual_of_sameRows hsame
  · constructor
    · intro h
      apply hsorted.forall₂_of_lookup (sorted_visible hrows')
      exact fun id => entriesEqual_iff.mp (hunchanged.mp h id)
    · exact fun h => hunchanged.mpr (entriesEqual_of_sameRows h)

/-- Where a version determines a row, what is shown of it under equal rows is the same. -/
theorem visible_eq_of_version {id : RowId}
    (hversions : ∀ row ∈ rows, ∀ row' ∈ rows', row.id = row'.id → row.version = row'.version →
      row = row')
    (h : entriesEqual ((lookup Row.id rows id).bind (runner.visibleRow artifact))
      ((lookup Row.id rows' id).bind (runner.visibleRow artifact)) = true) :
    (lookup Row.id rows id).bind (runner.visibleRow artifact) =
      (lookup Row.id rows' id).bind (runner.visibleRow artifact) := by
  rw [entriesEqual_iff] at h
  cases hshown : (lookup Row.id rows id).bind (runner.visibleRow artifact) with
  | none =>
    rw [hshown] at h
    generalize (lookup Row.id rows' id).bind (runner.visibleRow artifact) = shown' at h ⊢
    cases h
    rfl
  | some shown =>
    cases hshown' : (lookup Row.id rows' id).bind (runner.visibleRow artifact) with
    | none =>
      rw [hshown, hshown'] at h
      cases h
    | some shown' =>
      rw [hshown, hshown'] at h
      have hsame : SameRow shown shown' := by
        cases h with
        | some hsame => exact hsame
      obtain ⟨row, hrow, hvisible⟩ := Option.bind_eq_some_iff.mp hshown
      obtain ⟨row', hrow', hvisible'⟩ := Option.bind_eq_some_iff.mp hshown'
      have hid : row.id = row'.id := (Keyed.key_of_lookup hrow).trans (Keyed.key_of_lookup hrow').symm
      have hversion : row.version = row'.version := by
        rw [← (visibleRow_keeps hvisible).2, ← (visibleRow_keeps hvisible').2, hsame.version_eq]
      obtain rfl := hversions row (Keyed.mem_of_lookup hrow) row' (Keyed.mem_of_lookup hrow') hid
        hversion
      exact hvisible.symm.trans hvisible'

/-- Patching the result of an artifact brings it to what executing the artifact on the
changed table gives, and reports a change exactly when there is one. -/
theorem applyReactivePatch_eq_execute {table : TableName} {source : DataSource}
    (htable : reactivePatchTable artifact = some table)
    (hrows : runner.dataSource.getTableRows table = .ok rows) (hsorted : Sorted Row.id rows)
    (hrows' : source.getTableRows table = .ok rows') (hsorted' : Sorted Row.id rows')
    (hchange : TableChange rows rows' changes) {plan : PhysicalPlan} {previous next : Relation}
    (hprevious : runner.executeWithArtifact plan artifact = .ok previous)
    (hnext : (runner.withSource source).executeWithArtifact plan artifact = .ok next) :
    ∃ patched changed,
      runner.applyReactivePatch artifact previous.entries changes = some (patched, changed) ∧
        List.Forall₂ SameRow patched next.entries ∧
        (changed = false ↔ patched = previous.entries) ∧
        (changed = false ↔ List.Forall₂ SameRow previous.entries next.entries) ∧
        -- where a row with another content has another version, also bit by bit
        ((∀ row ∈ rows, ∀ row' ∈ rows', row.id = row'.id → row.version = row'.version → row = row') →
          patched = next.entries) := by
  have hbefore := executeWithArtifact_entries htable hrows hprevious
  have hafter : next.entries =
      rows'.filterMap ((runner.withSource source).visibleRow artifact) :=
    executeWithArtifact_entries htable hrows' hnext
  rw [visibleRow_withSource] at hafter
  have hcurrent : List.Forall₂ SameRow previous.entries
      (rows.filterMap (runner.visibleRow artifact)) := by
    rw [hbefore]
    exact List.forall₂_same.mpr fun row _ => SameRow.refl row
  obtain ⟨hsame, hflag, hreport, hlookup⟩ :=
    patchRows_visible hsorted hsorted' hchange.sorted hcurrent
  rw [← hafter] at hsame hreport hlookup
  refine ⟨_, _, applyReactivePatch_eq htable _ _, hsame, hflag, hreport, fun hversions => ?_⟩
  have hshown : Sorted Row.id next.entries := hafter ▸ sorted_visible hsorted'
  apply (Keyed.sorted_of_forall₂ sameRow_id hsame hshown).ext hshown
  intro id
  rw [hlookup, patchedEntry]
  split
  next hequal =>
    rw [hbefore, hafter, lookup_visible hsorted, lookup_visible hsorted'] at hequal ⊢
    exact visible_eq_of_version hversions hequal
  next => rfl

end PhysicalPlanRunner

end Changes

section Batches

/-- A table goes through batches of changes. -/
inductive TableRun : List Entry → List (List (RowId × Option Entry)) → List Entry → Prop
  | nil (rows : List Entry) : TableRun rows [] rows
  | cons {rows rows' rows'' : List Entry} {changes : List (RowId × Option Entry)}
      {batches : List (List (RowId × Option Entry))} (sorted : Sorted Row.id rows')
      (change : TableChange rows rows' changes) (rest : TableRun rows' batches rows'') :
      TableRun rows (changes :: batches) rows''

namespace PhysicalPlanRunner

/-- The result a live query holds after the batches. -/
def patchBatches (runner : PhysicalPlanRunner) (artifact : PlanExecutionArtifact)
    (current : List Entry) (batches : List (List (RowId × Option Entry))) : List Entry :=
  batches.foldl (fun current changes =>
    ((runner.applyReactivePatch artifact current changes).map Prod.fst).getD current) current

variable {runner : PhysicalPlanRunner} {artifact : PlanExecutionArtifact}

/-- Patched batch by batch, a result stays what executing the artifact would give. -/
theorem patchBatches_sameRows {table : TableName} {rows rows' current : List Entry}
    {batches : List (List (RowId × Option Entry))}
    (htable : reactivePatchTable artifact = some table) (hsorted : Sorted Row.id rows)
    (hrun : TableRun rows batches rows')
    (hcurrent : List.Forall₂ SameRow current (rows.filterMap (runner.visibleRow artifact))) :
    List.Forall₂ SameRow (runner.patchBatches artifact current batches)
      (rows'.filterMap (runner.visibleRow artifact)) := by
  induction hrun generalizing current with
  | nil rows => exact hcurrent
  | cons hsorted' hchange _ ih =>
    unfold patchBatches
    rw [List.foldl_cons, applyReactivePatch_eq htable]
    exact ih hsorted' (patchRows_visible hsorted hsorted' hchange.sorted hcurrent).1

end PhysicalPlanRunner

end Batches

section Sample

namespace PhysicalPlanRunner

def itemsPipeline : CachedSingleTablePipeline := ⟨"items", [.isNotNull 0], .columns [0], none⟩

def itemsSource (rows : List Entry) : DataSource :=
  { InMemoryDataSource.new with
    getTableRows := fun _ => .ok rows
    getColumnCount := fun _ => .ok 1 }

def itemsBefore : List Entry :=
  [.newWithVersion 1 1 [some (.int32 1)], .newWithVersion 2 1 [none],
    .newWithVersion 4 1 [some (.int32 4)]]

def itemsAfter : List Entry :=
  [.newWithVersion 2 2 [some (.int32 5)], .newWithVersion 3 1 [none],
    .newWithVersion 4 1 [some (.int32 4)]]

def itemsChanges : List (RowId × Option Entry) :=
  [(3, some (.newWithVersion 3 1 [none])), (1, none),
    (2, some (.newWithVersion 2 2 [some (.int32 5)]))]

theorem items_change : TableChange itemsBefore itemsAfter itemsChanges := by
  constructor
  · decide
  · intro change hchange
    simp only [itemsChanges, List.mem_cons, List.not_mem_nil, or_false] at hchange
    rcases hchange with rfl | rfl | rfl <;> rfl
  · intro id hid
    simp only [itemsChanges, List.map_cons, List.map_nil, List.mem_cons, List.not_mem_nil, not_or] at hid
    obtain ⟨h3, h1, h2, -⟩ := hid
    simp only [itemsBefore, itemsAfter, Keyed.lookup_cons, Row.newWithVersion_id, Ne.symm h1,
      Ne.symm h2, Ne.symm h3, if_false]

/-- One item deleted, one that becomes visible, one that stays invisible. -/
theorem applyReactivePatch_eq_execute_items :
    ∃ patched changed,
      (ofSource (itemsSource itemsBefore)).applyReactivePatch (.singleTablePipeline itemsPipeline)
          [.newWithVersion 1 1 [some (.int32 1)], .newWithVersion 4 1 [some (.int32 4)]]
          itemsChanges = some (patched, changed) ∧
        List.Forall₂ SameRow patched
          [.newWithVersion 2 2 [some (.int32 5)], .newWithVersion 4 1 [some (.int32 4)]] := by
  have hsorted : Sorted Row.id itemsBefore ∧ Sorted Row.id itemsAfter := by
    unfold Sorted
    decide
  have hprevious : (ofSource (itemsSource itemsBefore)).executeWithArtifact .empty
      (.singleTablePipeline itemsPipeline) = .ok (.ofTable "items" 1
        [.newWithVersion 1 1 [some (.int32 1)], .newWithVersion 4 1 [some (.int32 4)]]) := rfl
  have hnext : ((ofSource (itemsSource itemsBefore)).withSource
      (itemsSource itemsAfter)).executeWithArtifact .empty
      (.singleTablePipeline itemsPipeline) = .ok (.ofTable "items" 1
        [.newWithVersion 2 2 [some (.int32 5)], .newWithVersion 4 1 [some (.int32 4)]]) := rfl
  obtain ⟨patched, changed, hpatch, hsame, -⟩ :=
    applyReactivePatch_eq_execute rfl rfl hsorted.1 rfl hsorted.2 items_change hprevious hnext
  exact ⟨patched, changed, hpatch, hsame⟩

end PhysicalPlanRunner

end Sample

end Cynos.Query
