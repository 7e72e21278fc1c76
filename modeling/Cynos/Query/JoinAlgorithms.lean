import Cynos.Query.JoinLayout

/-! The three ways to run an equi-join. Each is a loop over both inputs on a test of the
two keys: a nested loop tests by `sql_eq`, a hash join also compares the bits of floats,
and an index finds a row under the key that it holds the row under. -/
namespace Cynos.Query

open Core Join
open Index (RowId)

section Keys

/-- The key of an entry, if it has one that is not `Null`. -/
def keyAt (index : Nat) (entry : Entry) : Option Scalar := (Entry.getField entry index).getD none

/-- A column that only the left input has, and one that only the right input has. -/
structure JoinColumns (left right : EvalContext) (leftCol rightCol : ColumnRef) : Prop where
  leftHas : left.HasColumn leftCol
  rightHas : right.HasColumn rightCol
  leftOnly : leftCol.table ∉ right.tables
  rightOnly : rightCol.table ∉ left.tables

/-- An equality of two columns, written either way round. -/
def IsEquiCondition (condition : Expr) (leftCol rightCol : ColumnRef) : Prop :=
  condition = .binaryOp (.column leftCol) .eq (.column rightCol) ∨
    condition = .binaryOp (.column rightCol) .eq (.column leftCol)

def equiJoinKeys (left right : EvalContext) (leftCol rightCol : ColumnRef) : EquiJoinKeys :=
  ⟨left.resolveColumnIndex leftCol.table leftCol.index,
    right.resolveColumnIndex rightCol.table rightCol.index⟩

variable {left right : EvalContext} {leftCol rightCol : ColumnRef} {condition : Expr}

theorem extractJoinKeys_eq (hcols : JoinColumns left right leftCol rightCol)
    (hcond : IsEquiCondition condition leftCol rightCol) :
    extractJoinKeys condition left right = .ok (equiJoinKeys left right leftCol rightCol) := by
  obtain rfl | rfl := hcond
  · exact if_pos ⟨hcols.leftHas.table, hcols.rightHas.table⟩
  · exact (if_neg fun h => hcols.rightOnly h.1).trans
      (if_pos ⟨hcols.leftHas.table, hcols.rightHas.table⟩)

theorem extractOuterKeyIndex_left (hcols : JoinColumns left right leftCol rightCol)
    (hcond : IsEquiCondition condition leftCol rightCol) :
    extractOuterKeyIndex condition left =
      .ok (equiJoinKeys left right leftCol rightCol).leftKeyIdx := by
  obtain rfl | rfl := hcond
  · exact if_pos hcols.leftHas.table
  · exact (if_neg hcols.rightOnly).trans (if_pos hcols.leftHas.table)

theorem extractOuterKeyIndex_right (hcols : JoinColumns left right leftCol rightCol)
    (hcond : IsEquiCondition condition leftCol rightCol) :
    extractOuterKeyIndex condition right =
      .ok (equiJoinKeys left right leftCol rightCol).rightKeyIdx := by
  obtain rfl | rfl := hcond
  · exact (if_neg hcols.leftOnly).trans (if_pos hcols.rightHas.table)
  · exact if_pos hcols.rightHas.table

variable {outputTables : List TableName}

/-- A joined row shows the keys of its sides. -/
theorem keyAt_materializeRow (hcols : JoinColumns left right leftCol rightCol)
    (hout : outputTables.Perm (left.tables ++ right.tables)) (l r : Option Entry) :
    let layout := JoinOutputLayout.fromSources left right outputTables
    let keys := equiJoinKeys left right leftCol rightCol
    keyAt (layout.context.resolveColumnIndex leftCol.table leftCol.index)
        (layout.materializeRow l r) = l.bind (keyAt keys.leftKeyIdx) ∧
      keyAt (layout.context.resolveColumnIndex rightCol.table rightCol.index)
        (layout.materializeRow l r) = r.bind (keyAt keys.rightKeyIdx) := by
  have hleft : leftCol.table ∈ outputTables :=
    hout.mem_iff.mpr (List.mem_append_left _ hcols.leftHas.table)
  have hright : rightCol.table ∈ outputTables :=
    hout.mem_iff.mpr (List.mem_append_right _ hcols.rightHas.table)
  unfold keyAt
  dsimp only
  rw [getField_left hcols.leftHas hleft l r, getField_right hcols.rightHas hcols.rightOnly hright l r]
  refine ⟨?_, ?_⟩
  · cases l <;> rfl
  · cases r <;> rfl

theorem isTrue_evalBinaryOp_eq (a b : Value Scalar) :
    (evalBinaryOp .eq a b).isTrue = keyed id id Scalar.sqlEq a b := by
  cases a <;> cases b <;> rfl

theorem keyed_swap {A B : Type} (keyA : A → Value Scalar) (keyB : B → Value Scalar) (a : A)
    (b : B) : keyed keyB keyA Scalar.sqlEq b a = keyed keyA keyB Scalar.sqlEq a b := by
  unfold keyed
  cases keyA a <;> cases keyB b <;> first | rfl | exact Scalar.sqlEq_comm _ _

end Keys

section Algorithms

variable (runner : PhysicalPlanRunner) {left right : Relation} {leftCol rightCol : ColumnRef}
  {condition : Expr} {outputTables : List TableName}

/-- A loop over both inputs on a test of their keys. -/
def keyedJoin (test : Scalar → Scalar → Bool) (left right : Relation) (keys : EquiJoinKeys)
    (joinType : JoinType) (outputTables : List TableName) : Relation :=
  let layout := JoinOutputLayout.fromSources left.context right.context outputTables
  PhysicalPlanRunner.joinRelation layout (loopJoin (keyed (keyAt keys.leftKeyIdx) (keyAt keys.rightKeyIdx) test)
    layout.materializeRow (emitUnmatchedLeft joinType) (trackRightMatches joinType)
    left.entries right.entries)

/-- What a join is for: the pairs whose keys are equal, with the unmatched rows of the sides
that the join type keeps. -/
def sqlJoin (left right : Relation) (keys : EquiJoinKeys) (joinType : JoinType)
    (outputTables : List TableName) : Relation :=
  let layout := JoinOutputLayout.fromSources left.context right.context outputTables
  let equal := keyed (keyAt keys.leftKeyIdx) (keyAt keys.rightKeyIdx) Scalar.sqlEq
  PhysicalPlanRunner.joinRelation layout
    (matched equal layout.materializeRow left.entries right.entries ++
      ((if joinType = .leftOuter ∨ joinType = .fullOuter then
          unmatchedLeft equal layout.materializeRow left.entries right.entries else []) ++
        if joinType = .rightOuter ∨ joinType = .fullOuter then
          unmatchedRight equal layout.materializeRow left.entries right.entries else []))

theorem sqlJoin_perm (keys : EquiJoinKeys) (joinType : JoinType) :
    (sqlJoin left right keys joinType outputTables).entries.Perm
      (keyedJoin Scalar.sqlEq left right keys joinType outputTables).entries := by
  refine List.Perm.trans (.of_eq ?_) (loopJoin_perm _ _ _ _ _ _).symm
  cases joinType <;> rfl

/-- The condition of a nested loop join holds of the pairs with equal keys. -/
theorem evalPredicate_materializeRow
    (hcols : JoinColumns left.context right.context leftCol rightCol)
    (hcond : IsEquiCondition condition leftCol rightCol)
    (hout : outputTables.Perm (left.tables ++ right.tables)) (l r : Entry) :
    let layout := JoinOutputLayout.fromSources left.context right.context outputTables
    let keys := equiJoinKeys left.context right.context leftCol rightCol
    evalPredicate runner.functions (Entry.getField (layout.materializeRow (some l) (some r)))
        (some layout.context) condition =
      keyed (keyAt keys.leftKeyIdx) (keyAt keys.rightKeyIdx) Scalar.sqlEq l r := by
  obtain ⟨hleft, hright⟩ := keyAt_materializeRow hcols hout (some l) (some r)
  dsimp only at hleft hright ⊢
  obtain rfl | rfl := hcond
  · change (evalBinaryOp .eq (keyAt _ _) (keyAt _ _)).isTrue = _
    rw [hleft, hright]
    exact isTrue_evalBinaryOp_eq _ _
  · change (evalBinaryOp .eq (keyAt _ _) (keyAt _ _)).isTrue = _
    rw [hleft, hright]
    exact (isTrue_evalBinaryOp_eq _ _).trans (keyed_swap id id _ _)

/-- A nested loop join joins by `sql_eq`. -/
theorem executeNestedLoopJoin_eq (joinType : JoinType)
    (hcols : JoinColumns left.context right.context leftCol rightCol)
    (hcond : IsEquiCondition condition leftCol rightCol)
    (hout : outputTables.Perm (left.tables ++ right.tables)) :
    runner.executeNestedLoopJoin left right condition joinType outputTables =
      keyedJoin Scalar.sqlEq left right
        (equiJoinKeys left.context right.context leftCol rightCol) joinType outputTables := by
  change PhysicalPlanRunner.joinRelation _ (loopJoin _ _ _ _ _ _) = _
  unfold keyedJoin
  dsimp only
  congr 1
  exact loopJoin_holds_congr fun l _ r _ =>
    evalPredicate_materializeRow runner hcols hcond hout l r

theorem keysMatch_eq (a b : Option (Value Scalar)) :
    keysMatch a b = keyed (fun _ => a.getD none) (fun _ => b.getD none) sqlKeyEq () () := by
  rcases a with _ | _ | a <;> rcases b with _ | _ | b <;> rfl

theorem hashKeysMatch_eq (keys : EquiJoinKeys) :
    hashKeysMatch keys = keyed (keyAt keys.leftKeyIdx) (keyAt keys.rightKeyIdx) sqlKeyEq := by
  funext l r
  exact keysMatch_eq _ _

/-- A hash join joins by the keys of one bucket. -/
theorem executeHashJoin_eq (joinType : JoinType)
    (hcols : JoinColumns left.context right.context leftCol rightCol)
    (hcond : IsEquiCondition condition leftCol rightCol) :
    let layout := JoinOutputLayout.fromSources left.context right.context outputTables
    PhysicalPlanRunner.executeHashJoin left right condition joinType outputTables =
      .ok (PhysicalPlanRunner.joinRelation layout (emitHashJoinEntries left right
        (equiJoinKeys left.context right.context leftCol rightCol) joinType layout
        (chooseHashJoinBuildSide left.entries.length right.entries.length joinType))) := by
  unfold PhysicalPlanRunner.executeHashJoin
  rw [extractJoinKeys_eq hcols hcond, ok_bind]
  rfl

theorem emitHashJoinEntries_keyed (keys : EquiJoinKeys) (joinType : JoinType)
    (layout : JoinOutputLayout) (buildSide : HashJoinBuildSide) :
    (emitHashJoinEntries left right keys joinType layout buildSide).Perm
      (loopJoin (keyed (keyAt keys.leftKeyIdx) (keyAt keys.rightKeyIdx) sqlKeyEq)
        layout.materializeRow (emitUnmatchedLeft joinType) (trackRightMatches joinType)
        left.entries right.entries) := by
  rw [← hashKeysMatch_eq]
  exact emitHashJoinEntries_perm layout keys joinType left right buildSide

end Algorithms

section PointLookups

/-- The two kinds of index that a point lookup may use. -/
inductive IndexKind where
  | bTree
  | hash
  deriving DecidableEq

/-- Whether a lookup of `key` finds what is held under `heldKey`: a hash index also compares the
bits of floats, which are what it hashes. -/
def IndexKind.finds (kind : IndexKind) (heldKey key : Scalar) : Bool :=
  match kind with
  | .bTree => heldKey.eq key
  | .hash =>
    match heldKey, key with
    | .float64 a, .float64 b => a.toBits == b.toBits && (Scalar.float64 a).eq (.float64 b)
    | a, b => a.eq b

/-- The key under which an index holds a value is one that it takes for the same. -/
def IndexKind.Holds (kind : IndexKind) (value heldKey : Scalar) : Prop :=
  match kind with
  | .bTree => value.cmp heldKey = .eq
  | .hash => kind.finds heldKey value = true

/-- Whether one probe key finds a value. -/
def probeFinds (kind : IndexKind) (held : Scalar → Scalar) (value : Scalar) :
    Value Scalar → Bool
  | some probeKey => kind.finds (held value) probeKey
  | none => false

def indexFinds (kind : IndexKind) (held : Scalar → Scalar) (key value : Scalar) : Bool :=
  (sqlPointLookupKeys (some key)).any (probeFinds kind held value)

/-- A scan of a whole table, with an index over one of its columns. -/
structure IndexedScan (source : DataSource) (relation : Relation) (table : TableName)
    (index : IndexName) (keyIdx : Nat) (kind : IndexKind) (held : Scalar → Scalar) : Prop where
  columnCount : ∃ count, source.getColumnCount table = .ok count ∧
    relation.context = ⟨[table], [count]⟩
  nodup : (relation.entries.map Row.id).Nodup
  holds : ∀ entry ∈ relation.entries, ∀ value, keyAt keyIdx entry = some value →
    kind.Holds value (held value)
  lookup : ∀ key, ∃ rows,
    source.getIndexRange table index (.scalar (.only (some key))) false = .ok rows ∧
      rows.Perm (relation.entries.filter fun entry =>
        (keyAt keyIdx entry).any fun value => kind.finds (held value) key)

variable {entries : List Entry}

/-- A row not seen before is fresh. -/
theorem freshRows_eq_filter {rows : List Entry} (h : (rows.map Row.id).Nodup) :
    ∀ seen, freshRows seen rows = rows.filter fun row => row.id ∉ seen := by
  induction rows with
  | nil => exact fun _ => rfl
  | cons row rows ih =>
    intro seen
    rw [List.map_cons, List.nodup_cons] at h
    rw [freshRows, List.filter_cons]
    by_cases hseen : row.id ∈ seen
    · rw [if_pos hseen, if_neg (by simpa using hseen)]
      exact ih h.2 seen
    · rw [if_neg hseen, if_pos (by simpa using hseen), ih h.2]
      congr 1
      refine List.filter_congr fun other hother => ?_
      have hne : other.id ≠ row.id := fun heq => h.1 (heq ▸ List.mem_map_of_mem hother)
      simp [hne]

/-- A row is found when its id is that of a row found. -/
theorem mem_map_id_filter (hnodup : (entries.map Row.id).Nodup) {p : Entry → Bool} {entry : Entry}
    (hentry : entry ∈ entries) : entry.id ∈ (entries.filter p).map Row.id ↔ p entry = true := by
  rw [List.mem_map]
  constructor
  · rintro ⟨other, hother, heq⟩
    rw [List.mem_filter] at hother
    obtain rfl := List.inj_on_of_nodup_map hnodup hother.1 hentry heq
    exact hother.2
  · exact fun hp => ⟨entry, List.mem_filter.mpr ⟨hentry, hp⟩, rfl⟩

variable {source : DataSource} {table : TableName} {index : IndexName}

/-- The loop over probe keys collects each row once that one of them finds. -/
theorem visitProbeKeys_perm (hnodup : (entries.map Row.id).Nodup)
    {finds : Value Scalar → Entry → Bool} {probeKeys : List (Value Scalar)} :
    ∀ (s : PointState (List Entry)), (∀ key ∈ probeKeys, ∃ rows,
      source.getIndexRange table index (.scalar (.only key)) false = .ok rows ∧
        rows.Perm (entries.filter (finds key))) →
    ∃ s' rows, visitProbeKeys (source.getIndexPointWithLimit table index) false collectRow
        probeKeys s = .ok s' ∧ s'.state = s.state ++ rows ∧
      rows.Perm (entries.filter fun entry =>
        entry.id ∉ s.seenIds ∧ probeKeys.any (finds · entry) = true) := by
  induction probeKeys with
  | nil =>
    intro s _
    exact ⟨s, [], rfl, (List.append_nil _).symm, .of_eq (by simp)⟩
  | cons key probeKeys ih =>
    intro s hlookup
    obtain ⟨rows, hrange, hrows⟩ := hlookup key List.mem_cons_self
    obtain ⟨s', hvisit, hstate, hseen⟩ := visitProbeKeys_unlimited probeKeys hrange s
    obtain ⟨s'', rest, hrest, hstate', hperm⟩ :=
      ih s' fun k hk => hlookup k (List.mem_cons_of_mem _ hk)
    have hids : (rows.map Row.id).Nodup :=
      (hrows.map Row.id).nodup_iff.mpr (hnodup.sublist (List.filter_sublist.map _))
    refine ⟨s'', freshRows s.seenIds rows ++ rest, hvisit.trans hrest, ?_, ?_⟩
    · rw [hstate', hstate, List.append_assoc]
    -- The rows of the first key, then those that only later keys find.
    rw [freshRows_eq_filter hids]
    refine ((hrows.filter _).append hperm).trans ?_
    rw [List.filter_filter]
    refine List.Perm.trans (.of_eq ?_) (List.filter_append_perm (finds key) _)
    rw [List.filter_filter, List.filter_filter]
    congr 1
    · refine List.filter_congr fun entry _ => ?_
      cases hfinds : finds key entry <;> simp [hfinds]
    · refine List.filter_congr fun entry hentry => ?_
      have hfound : entry.id ∈ rows.map Row.id ↔ finds key entry = true :=
        (hrows.map Row.id).mem_iff.trans (mem_map_id_filter hnodup hentry)
      cases hfinds : finds key entry <;> simp [hfinds, hseen, hfound]

variable {relation : Relation} {keyIdx : Nat} {kind : IndexKind} {held : Scalar → Scalar}

theorem sqlPointLookupKeys_some (key : Scalar) :
    ∃ keys : List Scalar, sqlPointLookupKeys (some key) = keys.map some := by
  cases key with
  | int32 value => exact ⟨[.int32 value, .int64 value.toInt64], rfl⟩
  | int64 value =>
    by_cases h : value.toInt32.toInt64 = value
    · exact ⟨[.int64 value, .int32 value.toInt32], if_pos h⟩
    · exact ⟨[.int64 value], if_neg h⟩
  | _ => exact ⟨[_], rfl⟩

/-- A point lookup yields the rows that a probe key finds. -/
theorem IndexedScan.indexPointRows_perm
    (hscan : IndexedScan source relation table index keyIdx kind held) (key : Scalar) :
    ∃ rows, indexPointRows source table index (some key) none = .ok rows ∧
      rows.Perm (relation.entries.filter fun entry =>
        (keyAt keyIdx entry).any (indexFinds kind held key)) := by
  let finds (probeKey : Value Scalar) (entry : Entry) : Bool :=
    (keyAt keyIdx entry).any fun value => probeFinds kind held value probeKey
  have hlookup : ∀ probeKey ∈ sqlPointLookupKeys (some key), ∃ rows,
      source.getIndexRange table index (.scalar (.only probeKey)) false = .ok rows ∧
        rows.Perm (relation.entries.filter (finds probeKey)) := by
    obtain ⟨keys, hkeys⟩ := sqlPointLookupKeys_some key
    rw [hkeys]
    intro probeKey hmem
    obtain ⟨probeKey, -, rfl⟩ := List.mem_map.mp hmem
    exact hscan.lookup probeKey
  obtain ⟨s, rows, hvisit, hstate, hperm⟩ :=
    visitProbeKeys_perm hscan.nodup ⟨[], maxUsize, []⟩ hlookup
  refine ⟨rows, ?_, hperm.trans (.of_eq (List.filter_congr fun entry _ => ?_))⟩
  · unfold indexPointRows visitIndexPointWithSqlSemantics
    change (visitProbeKeys _ false _ _ ⟨[], maxUsize, []⟩ >>= _) = _
    rw [hvisit, ok_bind, hstate]
    rfl
  · change decide (entry.id ∉ [] ∧ (List.any _ fun probeKey => (keyAt keyIdx entry).any _) = true) = _
    cases keyAt keyIdx entry with
    | none => simp
    | some value =>
      rw [Bool.eq_iff_iff, decide_eq_true_iff]
      simp [indexFinds]

end PointLookups

section IndexJoins

variable {runner : PhysicalPlanRunner} {inner : Relation} {innerTable : TableName}
  {innerIndex : IndexName} {innerKeyIdx : Nat} {kind : IndexKind} {held : Scalar → Scalar}

/-- A joined row from an outer and an inner row. -/
def outerJoinRow (layout : JoinOutputLayout) (outerIsLeft : Bool) (outer inner : Option Entry) :
    Entry :=
  if outerIsLeft then layout.materializeRow outer inner else layout.materializeRow inner outer

/-- The rows of one outer row. -/
theorem IndexedScan.probe_perm
    (hscan : IndexedScan runner.dataSource inner innerTable innerIndex innerKeyIdx kind held)
    (outerKeyIdx : Nat) (emitUnmatchedOuter outerIsLeft : Bool) (layout : JoinOutputLayout)
    (outer : Entry) :
    ∃ rows, runner.indexNestedLoopProbe innerTable innerIndex outerKeyIdx emitUnmatchedOuter
        outerIsLeft layout outer = .ok rows ∧
      rows.Perm (probe (keyed (keyAt outerKeyIdx) (keyAt innerKeyIdx) (indexFinds kind held))
        (outerJoinRow layout outerIsLeft) emitUnmatchedOuter inner.entries outer) := by
  -- What is left to do once the lookup has found its rows.
  have hfinish : ∀ found : List Entry, found.Perm (inner.entries.filter
        (keyed (keyAt outerKeyIdx) (keyAt innerKeyIdx) (indexFinds kind held) outer)) →
      ∃ rows, (if found.isEmpty then
          pure (if emitUnmatchedOuter then [indexNestedLoopRow layout outerIsLeft outer none]
            else [])
        else pure (found.map fun row =>
          indexNestedLoopRow layout outerIsLeft outer (some row)) : ExecutionResult _) =
          .ok rows ∧
        rows.Perm (probe (keyed (keyAt outerKeyIdx) (keyAt innerKeyIdx) (indexFinds kind held))
          (outerJoinRow layout outerIsLeft) emitUnmatchedOuter inner.entries outer) := by
    intro found hperm
    unfold probe
    dsimp only
    rw [← hperm.isEmpty_eq]
    cases found.isEmpty with
    | true => exact ⟨_, rfl, .refl _⟩
    | false => exact ⟨_, rfl, hperm.map _⟩
  unfold PhysicalPlanRunner.indexNestedLoopProbe
  dsimp only
  split
  next key hfield =>
    have hkey : keyAt outerKeyIdx outer = some key := by
      rw [keyAt, hfield]
      rfl
    obtain ⟨found, hpoint, hperm⟩ := hscan.indexPointRows_perm key
    rw [hpoint]
    refine hfinish found (hperm.trans (.of_eq (List.filter_congr fun entry _ => ?_)))
    rw [keyed, hkey]
    cases keyAt innerKeyIdx entry <;> rfl
  next hfield =>
    have hkey : keyAt outerKeyIdx outer = none := by
      unfold keyAt
      rcases hvalue : Entry.getField outer outerKeyIdx with _ | _ | key
      · rfl
      · rfl
      · exact absurd hvalue (hfield key)
    refine hfinish [] (.of_eq (Eq.symm (List.filter_eq_nil_iff.mpr fun entry _ => ?_)))
    rw [keyed, hkey]
    exact Bool.false_ne_true

/-- The rows of all outer rows. -/
theorem IndexedScan.mapM_perm
    (hscan : IndexedScan runner.dataSource inner innerTable innerIndex innerKeyIdx kind held)
    (outerKeyIdx : Nat) (emitUnmatchedOuter outerIsLeft : Bool) (layout : JoinOutputLayout)
    (outer : List Entry) :
    ∃ rows, outer.mapM (runner.indexNestedLoopProbe innerTable innerIndex outerKeyIdx
        emitUnmatchedOuter outerIsLeft layout) = .ok rows ∧
      rows.flatten.Perm (outer.flatMap
        (probe (keyed (keyAt outerKeyIdx) (keyAt innerKeyIdx) (indexFinds kind held))
          (outerJoinRow layout outerIsLeft) emitUnmatchedOuter inner.entries)) := by
  induction outer with
  | nil => exact ⟨[], rfl, .refl _⟩
  | cons entry outer ih =>
    obtain ⟨rest, hrest, hperm⟩ := ih
    obtain ⟨rows, hrows, hprobe⟩ :=
      hscan.probe_perm outerKeyIdx emitUnmatchedOuter outerIsLeft layout entry
    refine ⟨rows :: rest, ?_, ?_⟩
    · rw [List.mapM_cons, hrows, ok_bind, hrest]
      rfl
    · rw [List.flatten_cons, List.flatMap_cons]
      exact hprobe.append hperm

/-- An index nested loop join joins by what the probe keys of a key find. -/
theorem executeIndexNestedLoopJoin_perm
    (hscan : IndexedScan runner.dataSource inner innerTable innerIndex innerKeyIdx kind held)
    {outer : Relation} {condition : Expr} {outerKeyIdx : Nat}
    (hkey : extractOuterKeyIndex condition outer.context = .ok outerKeyIdx) (joinType : JoinType)
    (outerIsLeft : Bool) (outputTables : List TableName) :
    let layout := if outerIsLeft then
        JoinOutputLayout.fromSources outer.context inner.context outputTables
      else JoinOutputLayout.fromSources inner.context outer.context outputTables
    ∃ relation, runner.executeIndexNestedLoopJoin outer innerTable innerIndex condition joinType
        outerIsLeft outputTables = .ok relation ∧
      relation.context = layout.context ∧
      relation.entries.Perm (loopJoin
        (keyed (keyAt outerKeyIdx) (keyAt innerKeyIdx) (indexFinds kind held))
        (outerJoinRow layout outerIsLeft) (indexJoinEmitsUnmatchedOuter joinType outerIsLeft)
        false outer.entries inner.entries) := by
  obtain ⟨count, hcount, hcontext⟩ := hscan.columnCount
  have hlayout : indexJoinOutputLayout outer.context innerTable count outerIsLeft outputTables =
      if outerIsLeft then JoinOutputLayout.fromSources outer.context inner.context outputTables
      else JoinOutputLayout.fromSources inner.context outer.context outputTables := by
    rw [hcontext]
    rfl
  dsimp only
  rw [← hlayout]
  obtain ⟨rows, hrows, hperm⟩ := hscan.mapM_perm outerKeyIdx
    (indexJoinEmitsUnmatchedOuter joinType outerIsLeft) outerIsLeft
    (indexJoinOutputLayout outer.context innerTable count outerIsLeft outputTables) outer.entries
  unfold PhysicalPlanRunner.executeIndexNestedLoopJoin
  rw [hcount, ok_bind, hkey, ok_bind, hrows, ok_bind]
  refine ⟨_, rfl, rfl, ?_⟩
  rw [loopJoin, if_neg Bool.false_ne_true, List.append_nil]
  exact hperm

end IndexJoins

section Agreement

/-- The join types for which the optimizer may probe an index of the inner side. -/
def findsIndexJoin : JoinType → Bool → Bool
  | .inner, _ => true
  | .leftOuter, outerIsLeft => outerIsLeft
  | .rightOuter, outerIsLeft => !outerIsLeft
  | .fullOuter, _ | .cross, _ => false

/-- A run that returns the rows of a relation, in any order, all of one width. -/
def Yields (run : ExecutionResult Relation) (expected : Relation) (width : Nat) : Prop :=
  ∃ relation, run = .ok relation ∧ relation.context = expected.context ∧
    relation.entries.Perm expected.entries ∧
    ∀ entry ∈ relation.entries, entry.values.length = width

variable (runner : PhysicalPlanRunner) (left right : Relation) (keys : EquiJoinKeys)
  (condition : Expr) (joinType : JoinType) (outputTables : List TableName)

/-- Every algorithm that may be picked joins the pairs whose keys are equal. -/
def JoinsAgree : Prop :=
  let expected := sqlJoin left right keys joinType outputTables
  let width := left.context.width + right.context.width
  Yields (.ok (runner.executeNestedLoopJoin left right condition joinType outputTables))
      expected width ∧
    Yields (PhysicalPlanRunner.executeHashJoin left right condition joinType outputTables)
      expected width ∧
    ∀ table index kind held,
      (IndexedScan runner.dataSource right table index keys.rightKeyIdx kind held →
        findsIndexJoin joinType true = true →
        Yields (runner.executeIndexNestedLoopJoin left table index condition joinType true
          outputTables) expected width) ∧
      (IndexedScan runner.dataSource left table index keys.leftKeyIdx kind held →
        findsIndexJoin joinType false = true →
        Yields (runner.executeIndexNestedLoopJoin right table index condition joinType false
          outputTables) expected width)

/-- A statement about the keys of every left and every right row. -/
def ForKeys (p : Scalar → Scalar → Prop) : Prop :=
  ∀ a ∈ left.entries, ∀ b ∈ right.entries, ∀ k l,
    keyAt keys.leftKeyIdx a = some k → keyAt keys.rightKeyIdx b = some l → p k l

/-- Floats that are equal have the same bits. -/
def SameBits (k l : Scalar) : Prop :=
  ∀ a b, k = .float64 a → l = .float64 b → k.sqlEq l = true → a.toBits = b.toBits

/-- Every index that may be probed finds, under the probe keys of a key, what is equal to it. -/
def IndexesFind : Prop :=
  ∀ table index kind held,
    (IndexedScan runner.dataSource right table index keys.rightKeyIdx kind held →
      findsIndexJoin joinType true = true →
      ForKeys left right keys fun k l => indexFinds kind held k l = k.sqlEq l) ∧
    (IndexedScan runner.dataSource left table index keys.leftKeyIdx kind held →
      findsIndexJoin joinType false = true →
      ForKeys left right keys fun k l => indexFinds kind held l k = k.sqlEq l)

theorem sqlKeyEq_eq_iff (k l : Scalar) : sqlKeyEq k l = k.sqlEq l ↔ SameBits k l := by
  unfold sqlKeyEq
  split
  next a b =>
    rw [Bool.and_eq_right_iff_imp, beq_iff_eq]
    constructor
    · rintro h a b ⟨⟩ ⟨⟩
      exact h
    · exact fun h => h a b rfl rfl
  next hne =>
    refine iff_of_true rfl fun a b hk hl => ?_
    exact absurd hl (hne a b hk)

variable {left right} {leftCol rightCol : ColumnRef} {outputTables}

/-- A join on keys yields the expected rows if and only if its test is `sql_eq` on all keys. -/
theorem yields_iff (hcols : JoinColumns left.context right.context leftCol rightCol)
    (hout : outputTables.Perm (left.tables ++ right.tables)) {run : ExecutionResult Relation}
    {relation : Relation} {test : Scalar → Scalar → Bool} (hrun : run = .ok relation)
    (hcontext : relation.context =
      (JoinOutputLayout.fromSources left.context right.context outputTables).context)
    (hentries : relation.entries.Perm (keyedJoin test left right
      (equiJoinKeys left.context right.context leftCol rightCol) joinType outputTables).entries) :
    Yields run (sqlJoin left right (equiJoinKeys left.context right.context leftCol rightCol)
        joinType outputTables) (left.context.width + right.context.width) ↔
      ForKeys left right (equiJoinKeys left.context right.context leftCol rightCol)
        fun k l => test k l = k.sqlEq l := by
  let layout := JoinOutputLayout.fromSources left.context right.context outputTables
  let keysOf (entry : Entry) : Option Scalar × Option Scalar :=
    (keyAt (layout.context.resolveColumnIndex leftCol.table leftCol.index) entry,
      keyAt (layout.context.resolveColumnIndex rightCol.table rightCol.index) entry)
  have hkeys : ∀ l r, keysOf (layout.materializeRow l r) = (l.bind (keyAt _), r.bind (keyAt _)) :=
    fun l r => Prod.ext (keyAt_materializeRow hcols hout l r).1
      (keyAt_materializeRow hcols hout l r).2
  have hiff : (keyedJoin test left right (equiJoinKeys left.context right.context leftCol rightCol)
        joinType outputTables).entries.Perm
      (sqlJoin left right (equiJoinKeys left.context right.context leftCol rightCol)
        joinType outputTables).entries ↔
      ForKeys left right (equiJoinKeys left.context right.context leftCol rightCol)
        fun k l => test k l = k.sqlEq l := by
    have hloop : (keyedJoin test left right
          (equiJoinKeys left.context right.context leftCol rightCol) joinType
          outputTables).entries.Perm
        (keyedJoin Scalar.sqlEq left right
          (equiJoinKeys left.context right.context leftCol rightCol) joinType
          outputTables).entries ↔ _ := loopJoin_perm_iff hkeys
    rw [(sqlJoin_perm _ joinType).congr_right]
    exact hloop
  rw [← hiff]
  constructor
  · rintro ⟨relation', hrun', -, hperm, -⟩
    obtain rfl : relation = relation' := Except.ok.inj (hrun.symm.trans hrun')
    exact hentries.symm.trans hperm
  · intro hperm
    refine ⟨relation, hrun, hcontext, hentries.trans hperm, fun entry hentry => ?_⟩
    rw [hentries.mem_iff] at hentry
    obtain ⟨l, r, rfl⟩ := exists_of_mem_loopJoin _ _ hentry
    exact length_materializeRow hout l r

variable {runner joinType} {condition : Expr}

theorem yields_hashJoin_iff (hcols : JoinColumns left.context right.context leftCol rightCol)
    (hcond : IsEquiCondition condition leftCol rightCol)
    (hout : outputTables.Perm (left.tables ++ right.tables)) :
    Yields (PhysicalPlanRunner.executeHashJoin left right condition joinType outputTables)
        (sqlJoin left right (equiJoinKeys left.context right.context leftCol rightCol)
          joinType outputTables) (left.context.width + right.context.width) ↔
      ForKeys left right (equiJoinKeys left.context right.context leftCol rightCol) SameBits := by
  rw [yields_iff joinType hcols hout (executeHashJoin_eq joinType hcols hcond) rfl
    (emitHashJoinEntries_keyed _ _ _ _)]
  simp only [ForKeys, sqlKeyEq_eq_iff]

variable {table : TableName} {index : IndexName} {kind : IndexKind} {held : Scalar → Scalar}

/-- The index is one of the right side: -/
theorem yields_indexJoin_right_iff
    (hcols : JoinColumns left.context right.context leftCol rightCol)
    (hcond : IsEquiCondition condition leftCol rightCol)
    (hout : outputTables.Perm (left.tables ++ right.tables))
    (hscan : IndexedScan runner.dataSource right table index
      (equiJoinKeys left.context right.context leftCol rightCol).rightKeyIdx kind held)
    (hjoin : findsIndexJoin joinType true = true) :
    Yields (runner.executeIndexNestedLoopJoin left table index condition joinType true
          outputTables)
        (sqlJoin left right (equiJoinKeys left.context right.context leftCol rightCol)
          joinType outputTables) (left.context.width + right.context.width) ↔
      ForKeys left right (equiJoinKeys left.context right.context leftCol rightCol)
        fun k l => indexFinds kind held k l = k.sqlEq l := by
  obtain ⟨relation, hrun, hcontext, hperm⟩ := executeIndexNestedLoopJoin_perm hscan
    (extractOuterKeyIndex_left hcols hcond) joinType true outputTables
  refine yields_iff joinType hcols hout hrun hcontext (hperm.trans (.of_eq ?_))
  cases joinType <;> first | rfl | contradiction

/-- it is one of the left side, and the loop is over the right one. -/
theorem yields_indexJoin_left_iff
    (hcols : JoinColumns left.context right.context leftCol rightCol)
    (hcond : IsEquiCondition condition leftCol rightCol)
    (hout : outputTables.Perm (left.tables ++ right.tables))
    (hscan : IndexedScan runner.dataSource left table index
      (equiJoinKeys left.context right.context leftCol rightCol).leftKeyIdx kind held)
    (hjoin : findsIndexJoin joinType false = true) :
    Yields (runner.executeIndexNestedLoopJoin right table index condition joinType false
          outputTables)
        (sqlJoin left right (equiJoinKeys left.context right.context leftCol rightCol)
          joinType outputTables) (left.context.width + right.context.width) ↔
      ForKeys left right (equiJoinKeys left.context right.context leftCol rightCol)
        fun k l => indexFinds kind held l k = k.sqlEq l := by
  obtain ⟨relation, hrun, hcontext, hperm⟩ := executeIndexNestedLoopJoin_perm hscan
    (extractOuterKeyIndex_right hcols hcond) joinType false outputTables
  let keys := equiJoinKeys left.context right.context leftCol rightCol
  let layout := JoinOutputLayout.fromSources left.context right.context outputTables
  have hswap : keyed (keyAt keys.rightKeyIdx) (keyAt keys.leftKeyIdx) (indexFinds kind held) =
      fun r l => keyed (keyAt keys.leftKeyIdx) (keyAt keys.rightKeyIdx)
        (fun k l => indexFinds kind held l k) l r := by
    funext r l
    unfold keyed
    cases keyAt keys.leftKeyIdx l <;> cases keyAt keys.rightKeyIdx r <;> rfl
  refine yields_iff joinType hcols hout hrun hcontext (hperm.trans ?_)
  rw [hswap]
  have hloop := loopJoin_swap (keyed (keyAt keys.leftKeyIdx) (keyAt keys.rightKeyIdx)
      fun k l => indexFinds kind held l k)
    layout.materializeRow (emitUnmatchedLeft joinType) (trackRightMatches joinType)
    left.entries right.entries
  refine List.Perm.trans (.of_eq ?_) hloop
  cases joinType <;> first | rfl | contradiction

/-- A table of one row with one float. -/
def reading (table : TableName) (value : Float) : Relation :=
  .ofTable table 1 [.new 1 [some (.float64 value)]]

def readingsEqual : Expr := .binaryOp (.column ⟨"a", "value", 0⟩) .eq (.column ⟨"b", "value", 0⟩)

/-- A source of tables of one column, whose indexes are empty. -/
def unindexedSource : DataSource where
  getTableRows _ := .ok []
  getColumnCount _ := .ok 1
  getIndexRange _ _ _ _ := .ok []
  getGinIndexRows _ _ _ _ := .ok []
  getGinIndexRowsByKey _ _ _ := .ok []
  getGinIndexRowsMulti _ _ _ _ := .ok []

theorem joinColumns_readings (a b : Float) :
    JoinColumns (reading "a" a).context (reading "b" b).context ⟨"a", "value", 0⟩
      ⟨"b", "value", 0⟩ :=
  have h : JoinColumns ⟨["a"], [1]⟩ ⟨["b"], [1]⟩ ⟨"a", "value", 0⟩ ⟨"b", "value", 0⟩ :=
    { leftHas := ⟨by decide, by decide⟩
      rightHas := ⟨by decide, by decide⟩
      leftOnly := by decide
      rightOnly := by decide }
  h

end Agreement

section Indexes

variable {held : Scalar → Scalar} {key value : Scalar}

/-- A number that is a 32-bit one is that of its lower half. -/
theorem eq_toInt32_iff {k : Int64} (hfits : k.toInt32.toInt64 = k) (l : Int32) :
    l = k.toInt32 ↔ k = l.toInt64 := by
  constructor
  · rintro rfl
    exact hfits.symm
  · rintro rfl
    exact (Int32.toInt32_toInt64 l).symm

/-- Both widths of an integer key find both widths of the integer. -/
theorem any_sqlPointLookupKeys (key value : Scalar) :
    ((sqlPointLookupKeys (some key)).any fun probeKey => probeKey.any value.eq) =
      key.sqlEq value := by
  cases key with
  | int32 k =>
    change (value.eq (.int32 k) || (value.eq (.int64 k.toInt64) || false)) = _
    cases value <;> simp [Scalar.eq, Scalar.sqlEq, Bool.beq_comm]
  | int64 k =>
    by_cases hfits : k.toInt32.toInt64 = k
    · have hkeys : sqlPointLookupKeys (some (.int64 k)) =
          [some (.int64 k), some (.int32 k.toInt32)] := if_pos hfits
      rw [hkeys]
      change (value.eq (.int64 k) || (value.eq (.int32 k.toInt32) || false)) = _
      cases value with
      | int32 l =>
        rw [Bool.eq_iff_iff]
        simp [Scalar.eq, Scalar.sqlEq, eq_toInt32_iff hfits]
      | _ => simp [Scalar.eq, Scalar.sqlEq, Bool.beq_comm]
    · have hkeys : sqlPointLookupKeys (some (.int64 k)) = [some (.int64 k)] := if_neg hfits
      rw [hkeys]
      change (value.eq (.int64 k) || false) = _
      cases value with
      | int32 l =>
        have hne : k ≠ l.toInt64 := by
          rintro rfl
          exact hfits (congrArg _ (Int32.toInt32_toInt64 l))
        simp [Scalar.eq, Scalar.sqlEq, hne]
      | _ => simp [Scalar.eq, Scalar.sqlEq, Bool.beq_comm]
  | _ =>
    change (value.eq _ || false) = Scalar.eq _ value
    rw [Bool.or_false, Scalar.eq_comm]

/-- A B-tree that holds a value under one of the same type finds what is equal to a key. -/
theorem indexFinds_bTree (htype : (held value).typeOrder = value.typeOrder)
    (hholds : IndexKind.bTree.Holds value (held value)) :
    indexFinds .bTree held key value = key.sqlEq value := by
  have heq : value.eq (held value) = true := (Scalar.eq_iff_cmp htype.symm).mpr hholds
  rw [← any_sqlPointLookupKeys]
  unfold indexFinds
  congr 1
  funext probeKey
  cases probeKey with
  | none => rfl
  | some probeKey => exact (Scalar.eq_congr heq probeKey).symm

theorem eq_of_toBits {a b : Float} (h : a.toBits = b.toBits) : a = b := by
  rcases a with ⟨⟨bits, hbits⟩⟩
  rcases b with ⟨⟨bits', hbits'⟩⟩
  obtain rfl : bits = bits' := h
  rfl

/-- A hash index holds a value under itself. -/
theorem eq_of_holds_hash {heldKey : Scalar} (hholds : IndexKind.hash.Holds value heldKey) :
    heldKey = value := by
  unfold IndexKind.Holds IndexKind.finds at hholds
  cases heldKey <;> cases value <;> first | exact absurd hholds Bool.false_ne_true | skip
  case float64.float64 a b =>
    have hbits : a.toBits = b.toBits := eq_of_beq (Bool.and_eq_true_iff.mp hholds).1
    rw [eq_of_toBits hbits]
  all_goals exact congrArg _ (eq_of_beq hholds)

theorem sqlPointLookupKeys_int64 (k : Int64) :
    sqlPointLookupKeys (some (.int64 k)) = [some (.int64 k)] ∨
      sqlPointLookupKeys (some (.int64 k)) = [some (.int64 k), some (.int32 k.toInt32)] := by
  by_cases hfits : k.toInt32.toInt64 = k
  · exact .inr (if_pos hfits)
  · exact .inl (if_neg hfits)

theorem finds_hash_of_ne {heldKey probeKey : Scalar} (hne : ∀ a, probeKey ≠ .float64 a) :
    IndexKind.hash.finds heldKey probeKey = heldKey.eq probeKey := by
  unfold IndexKind.finds
  cases heldKey <;> cases probeKey <;> first | rfl | exact absurd rfl (hne _)

/-- The probe keys of a key that is no float are none. -/
theorem ne_float_of_mem_probeKeys {probeKey : Scalar} (hne : ∀ a, key ≠ .float64 a)
    (hmem : some probeKey ∈ sqlPointLookupKeys (some key)) : ∀ a, probeKey ≠ .float64 a := by
  rintro a rfl
  have hother : some (.float64 a) ∈ [some key] → False := fun h =>
    hne a (Option.some.inj (List.mem_singleton.mp h)).symm
  cases key with
  | int32 k =>
    obtain h | h := List.mem_cons.mp hmem
    · cases h
    · cases List.mem_singleton.mp h
  | int64 k =>
    obtain heq | heq := sqlPointLookupKeys_int64 k
    · rw [heq] at hmem
      cases List.mem_singleton.mp hmem
    · rw [heq] at hmem
      obtain h | h := List.mem_cons.mp hmem
      · cases h
      · cases List.mem_singleton.mp h
  | _ => exact hother hmem

/-- A hash index finds what a hash join matches. -/
theorem indexFinds_hash (hholds : IndexKind.hash.Holds value (held value)) :
    indexFinds .hash held key value = sqlKeyEq key value := by
  have hheld := eq_of_holds_hash hholds
  by_cases hkey : ∃ a, key = .float64 a
  · obtain ⟨a, rfl⟩ := hkey
    change (IndexKind.hash.finds (held value) (.float64 a) || false) = _
    rw [hheld, Bool.or_false]
    cases value with
    | float64 b => exact congrArg₂ and Bool.beq_comm (Scalar.eq_comm _ _)
    | _ => rfl
  · have hne : ∀ a, key ≠ .float64 a := fun a heq => hkey ⟨a, heq⟩
    have hsql : sqlKeyEq key value = key.sqlEq value := by
      unfold sqlKeyEq
      cases key <;> first | rfl | exact absurd rfl (hne _)
    rw [hsql, ← any_sqlPointLookupKeys]
    unfold indexFinds
    rw [Bool.eq_iff_iff, List.any_eq_true, List.any_eq_true]
    refine exists_congr fun probeKey => and_congr_right fun hmem => ?_
    cases probeKey with
    | none => rfl
    | some probeKey =>
      change IndexKind.hash.finds (held value) probeKey = true ↔ value.eq probeKey = true
      rw [hheld, finds_hash_of_ne (ne_float_of_mem_probeKeys hne hmem)]

end Indexes

end Cynos.Query
