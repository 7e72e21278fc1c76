import Cynos.Query.LogicalRows

/-! Cross products: the tables of both sides one after the other, every row of one with every
row of the other, and no difference in how three of them are multiplied. -/
namespace Cynos.Query.CrossProduct

open Core PhysicalPlanRunner

/-- The cells of a row that a join copies. -/
def cells (ctx : EvalContext) (entry : Entry) : List (Value Scalar) :=
  (freeSegments 0 ctx.tables ctx.tableColumnCounts (ctx.tables.map fun _ => false)).flatMap
    fun segment => (List.range segment.2.2).map fun index =>
      (entry.get (segment.2.1 + index)).getD .null

/-- The widths of the tables of a context, one for each. -/
def widths (ctx : EvalContext) : List Nat :=
  (freeSegments 0 ctx.tables ctx.tableColumnCounts (ctx.tables.map fun _ => false)).map
    fun segment => segment.2.2

/-- The tables of a side are taken one after the other. -/
theorem layoutSegments_left {left right : EvalContext} {rightUsed : List Bool}
    (outputTables : List TableName) (segments : List (TableName × Nat × Nat)) :
    ∀ {leftUsed : List Bool},
      freeSegments 0 left.tables left.tableColumnCounts leftUsed = segments →
      ∃ used, freeSegments 0 left.tables left.tableColumnCounts used = [] ∧
        layoutSegments left right (segments.map Prod.fst ++ outputTables) leftUsed rightUsed =
          onSide .left segments ++ layoutSegments left right outputTables used rightUsed := by
  induction segments with
  | nil => exact fun {leftUsed} hfree => ⟨leftUsed, hfree, rfl⟩
  | cons segment segments ih =>
    intro leftUsed hfree
    obtain ⟨table, offset, width⟩ := segment
    rw [List.map_cons, List.cons_append, layoutSegments]
    split
    next offset' width' leftUsed' htake =>
      obtain ⟨before, after, hbefore, hne, hafter⟩ := takeSegment_some htake
      rw [hfree] at hbefore
      cases before with
      | nil =>
        rw [List.nil_append] at hbefore hafter
        obtain ⟨hhead, rfl⟩ := List.cons.inj hbefore
        cases hhead
        obtain ⟨used, hused, hlayout⟩ := ih hafter
        exact ⟨used, hused, by rw [hlayout]; rfl⟩
      | cons first before =>
        rw [List.cons_append] at hbefore
        obtain ⟨rfl, -⟩ := List.cons.inj hbefore
        exact absurd rfl (hne _ List.mem_cons_self)
    next hnone =>
      have hne := takeSegment_none hnone (table, offset, width)
      rw [hfree] at hne
      exact absurd rfl (hne List.mem_cons_self)

theorem layoutSegments_right {left right : EvalContext} {leftUsed : List Bool}
    (hleft : freeSegments 0 left.tables left.tableColumnCounts leftUsed = [])
    (segments : List (TableName × Nat × Nat)) :
    ∀ {rightUsed : List Bool},
      freeSegments 0 right.tables right.tableColumnCounts rightUsed = segments →
      layoutSegments left right (segments.map Prod.fst) leftUsed rightUsed =
        onSide .right segments := by
  induction segments with
  | nil => exact fun _ => rfl
  | cons segment segments ih =>
    intro rightUsed hfree
    obtain ⟨table, offset, width⟩ := segment
    rw [List.map_cons, layoutSegments]
    split
    next offset' width' leftUsed' htake =>
      obtain ⟨before, after, hbefore, -, -⟩ := takeSegment_some htake
      rw [hleft] at hbefore
      cases before <;> cases hbefore
    next =>
      split
      next offset' width' rightUsed' htake =>
        obtain ⟨before, after, hbefore, hne, hafter⟩ := takeSegment_some htake
        rw [hfree] at hbefore
        cases before with
        | nil =>
          rw [List.nil_append] at hbefore hafter
          obtain ⟨hhead, rfl⟩ := List.cons.inj hbefore
          cases hhead
          rw [ih hafter]
          rfl
        | cons first before =>
          rw [List.cons_append] at hbefore
          obtain ⟨rfl, -⟩ := List.cons.inj hbefore
          exact absurd rfl (hne _ List.mem_cons_self)
      next hnone =>
        have hne := takeSegment_none hnone (table, offset, width)
        rw [hfree] at hne
        exact absurd rfl (hne List.mem_cons_self)

variable (left right : EvalContext)

theorem layoutSegments_crossProduct :
    layoutSegments left right (left.tables ++ right.tables) (left.tables.map fun _ => false)
        (right.tables.map fun _ => false) =
      onSide .left (freeSegments 0 left.tables left.tableColumnCounts
          (left.tables.map fun _ => false)) ++
        onSide .right (freeSegments 0 right.tables right.tableColumnCounts
          (right.tables.map fun _ => false)) := by
  obtain ⟨used, hused, hleft⟩ := @layoutSegments_left left right
    (right.tables.map fun _ => false) right.tables
    (freeSegments 0 left.tables left.tableColumnCounts (left.tables.map fun _ => false)) _ rfl
  have hright := @layoutSegments_right left right _ hused
    (freeSegments 0 right.tables right.tableColumnCounts (right.tables.map fun _ => false)) _ rfl
  rw [map_fst_freeSegments] at hleft hright
  rw [hleft, hright]

/-- The tables and widths of both sides, one after the other. -/
theorem context_crossProduct :
    (JoinOutputLayout.fromSources left right (left.tables ++ right.tables)).context =
      ⟨left.tables ++ right.tables, widths left ++ widths right⟩ := by
  unfold JoinOutputLayout.fromSources JoinOutputLayout.context
  dsimp only
  rw [layoutSegments_crossProduct, List.map_append, List.map_append, map_fst_onSide,
    map_fst_onSide, map_fst_freeSegments, map_fst_freeSegments]
  unfold onSide widths
  rw [List.map_map, List.map_map]
  rfl

theorem values_crossProduct (a b : Entry) :
    ((JoinOutputLayout.fromSources left right (left.tables ++ right.tables)).materializeRow
        (some a) (some b)).values = cells left a ++ cells right b := by
  unfold JoinOutputLayout.materializeRow JoinOutputLayout.fromSources
  rw [Row.newWithVersion_values]
  dsimp only
  rw [layoutSegments_crossProduct, List.map_append, List.flatMap_append]
  unfold onSide cells
  rw [List.map_map, List.map_map, List.flatMap_map, List.flatMap_map]
  rfl

theorem length_widths (ctx : EvalContext) : (widths ctx).length = ctx.tables.length := by
  unfold widths
  rw [List.length_map]
  have hnames := congrArg List.length (map_fst_freeSegments ctx.tables 0 ctx.tableColumnCounts)
  rwa [List.length_map] at hnames

theorem length_cells (ctx : EvalContext) (entry : Entry) :
    (cells ctx entry).length = (widths ctx).sum := by
  unfold cells widths
  rw [List.length_flatMap]
  congr 1
  apply List.map_congr_left
  intro segment _
  rw [List.length_map, List.length_range]

/-- One width for each table, and the segments follow each other without a gap. -/
theorem freeSegments_tile {tables : List TableName} {counts : List Nat} (entry : Entry)
    (hlength : counts.length = tables.length) :
    ∀ offset : Nat, offset + counts.sum ≤ entry.values.length →
      (freeSegments offset tables counts (tables.map fun _ => false)).map
          (fun segment => segment.2.2) = counts ∧
        ((freeSegments offset tables counts (tables.map fun _ => false)).flatMap fun segment =>
          (List.range segment.2.2).map fun index =>
            (entry.get (segment.2.1 + index)).getD .null) =
          (entry.values.drop offset).take counts.sum := by
  induction tables generalizing counts with
  | nil =>
    intro _ _
    obtain rfl := List.length_eq_zero_iff.mp hlength
    exact ⟨rfl, rfl⟩
  | cons table tables ih =>
    intro offset hoffset
    cases counts with
    | nil => cases hlength
    | cons count counts =>
      rw [List.sum_cons] at hoffset ⊢
      obtain ⟨hwidths, hcells⟩ := ih (Nat.succ.inj hlength) (offset + count) (by omega)
      have hfree : freeSegments offset (table :: tables) (count :: counts)
          ((table :: tables).map fun _ => false) =
            (table, offset, count) :: freeSegments (offset + count) tables counts
              (tables.map fun _ => false) := rfl
      have hsegment : ((List.range count).map fun index =>
          (entry.get (offset + index)).getD .null) = (entry.values.drop offset).take count := by
        apply List.ext_getElem?
        intro i
        rw [List.getElem?_map, List.getElem?_take]
        split
        · next hi =>
          rw [List.getElem?_range hi, List.getElem?_drop]
          change some ((entry.values[offset + i]?).getD .null) = _
          rw [List.getElem?_eq_getElem (by omega)]
          rfl
        · next hi => rw [List.getElem?_eq_none (by simpa using hi), Option.map_none]
      rw [hfree, List.map_cons, hwidths, List.flatMap_cons, hcells, hsegment]
      refine ⟨rfl, ?_⟩
      rw [List.take_add, List.drop_drop]

theorem length_widths_append :
    (widths left ++ widths right).length = (left.tables ++ right.tables).length := by
  rw [List.length_append, List.length_append, length_widths, length_widths]

theorem widths_crossProduct :
    widths ⟨left.tables ++ right.tables, widths left ++ widths right⟩ =
      widths left ++ widths right := by
  let blank : Entry :=
    .newWithVersion 0 0 (List.replicate (widths left ++ widths right).sum Value.null)
  have hlength : 0 + (widths left ++ widths right).sum ≤ blank.values.length := by
    rw [Row.newWithVersion_values, List.length_replicate, Nat.zero_add]
  exact (freeSegments_tile blank (length_widths_append left right) 0 hlength).1

/-- A row of a cross product is copied whole. -/
theorem cells_crossProduct {entry a b : Entry} (h : entry.values = cells left a ++ cells right b) :
    cells ⟨left.tables ++ right.tables, widths left ++ widths right⟩ entry =
      cells left a ++ cells right b := by
  have hsum : (widths left ++ widths right).sum = entry.values.length := by
    rw [h, List.length_append, length_cells, length_cells, List.sum_append]
  have htile := (freeSegments_tile entry (length_widths_append left right) 0
    (by rw [hsum, Nat.zero_add])).2
  rw [hsum, List.drop_zero, List.take_length, h] at htile
  exact htile

/-- The tables and widths of a cross product. -/
abbrev crossContext (left right : EvalContext) : EvalContext :=
  (JoinOutputLayout.fromSources left right (left.tables ++ right.tables)).context

theorem widths_crossContext :
    widths (crossContext left right) = widths left ++ widths right := by
  rw [crossContext, context_crossProduct]
  exact widths_crossProduct left right

theorem tables_crossContext : (crossContext left right).tables = left.tables ++ right.tables := by
  rw [crossContext, context_crossProduct]

theorem crossContext_assoc (ctx : EvalContext) :
    crossContext (crossContext left right) ctx = crossContext left (crossContext right ctx) := by
  have hleft : crossContext (crossContext left right) ctx =
      ⟨(crossContext left right).tables ++ ctx.tables,
        widths (crossContext left right) ++ widths ctx⟩ := context_crossProduct _ _
  have hright : crossContext left (crossContext right ctx) =
      ⟨left.tables ++ (crossContext right ctx).tables,
        widths left ++ widths (crossContext right ctx)⟩ := context_crossProduct _ _
  rw [hleft, hright, widths_crossContext, widths_crossContext, tables_crossContext,
    tables_crossContext, List.append_assoc, List.append_assoc]

variable (a b c : Relation)

theorem executeCrossProduct_values :
    (executeCrossProduct a b).entries.map Row.values =
      a.entries.flatMap fun l => b.entries.map fun r => cells a.context l ++ cells b.context r := by
  unfold executeCrossProduct emitCrossProductEntries
  rw [joinRelation, List.map_flatMap]
  congr 1
  funext l
  rw [List.map_map]
  congr 1
  funext r
  exact values_crossProduct a.context b.context l r

/-- However three relations are multiplied, the rows are the same. -/
theorem executeCrossProduct_assoc :
    (executeCrossProduct (executeCrossProduct a b) c).Same
      (executeCrossProduct a
        (executeCrossProduct b c)) := by
  constructor
  · exact crossContext_assoc a.context b.context c.context
  · apply forall₂_sameValues.mpr
    rw [executeCrossProduct_values, executeCrossProduct_values]
    have hcells : ∀ (a b : Relation) (l r : Entry),
        cells (executeCrossProduct a b).context
          ((JoinOutputLayout.fromSources a.context b.context (a.tables ++ b.tables)).materializeRow
            (some l) (some r)) = cells a.context l ++ cells b.context r := by
      intro a b l r
      rw [show (executeCrossProduct a b).context = _ from
        context_crossProduct a.context b.context]
      exact cells_crossProduct a.context b.context (values_crossProduct a.context b.context l r)
    have hentries : ∀ a b : Relation, (executeCrossProduct a b).entries =
        a.entries.flatMap fun l => b.entries.map fun r =>
          (JoinOutputLayout.fromSources a.context b.context (a.tables ++ b.tables)).materializeRow
            (some l) (some r) := fun _ _ => rfl
    rw [hentries a b, hentries b c, List.flatMap_assoc]
    congr 1
    funext l
    rw [List.flatMap_map, List.map_flatMap]
    congr 1
    funext r
    rw [List.map_map, hcells]
    congr 1
    funext x
    rw [Function.comp_apply, hcells, List.append_assoc]

end Cynos.Query.CrossProduct
