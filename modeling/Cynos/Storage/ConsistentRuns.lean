import Cynos.Storage.BatchConsistency

/-! The indexes of a store along all its calls: they list the keys of the stored rows and nothing
else, and no unique key twice. -/
namespace Cynos.Storage

open Core (Row Scalar Value)
open Index (BTreeIndex GinIndex RowId)

section Schema

/-- Whether an index keeps its keys unique; a later definition of its name replaces the first. -/
def uniqueAfter (unique : String → Bool) (idx : IndexDef) (name : String) : Bool :=
  match idx.indexType with
  | .gin => unique name
  | _ => if name = idx.name then idx.unique else unique name

def TableSchema.uniqueIndex (schema : TableSchema) : String → Bool :=
  schema.indices.foldl uniqueAfter fun _ => false

variable {P S κ : Type} [LinearOrder κ] {keys : KeyOps P S} {keyOf : IndexKey Scalar → κ}
  {Ok : IndexKey Scalar → Prop} {laws : KeyLaws keys keyOf Ok} {unique : String → Bool}
  {store : GinStore P S}

/-- An empty store with one index more. -/
theorem Consistent.addIndex (h : Consistent laws unique store) (hempty : store.slots = .empty)
    (schema : TableSchema) (idx : IndexDef) :
    Consistent laws (uniqueAfter unique idx) (store.addIndex keys schema idx) ∧
      (store.addIndex keys schema idx).slots = .empty := by
  have hnone : ∀ cols (k : κ) r, ¬RowKeys keyOf store.slots cols k r := fun cols k r =>
    rowKeys_gone (by rw [hempty]; simp [RowSlots.empty, RowSlots.rowRefById]) k
  have hplain : ∀ indexType, Consistent laws
      (fun name => if name = idx.name then idx.unique else unique name)
      { store with
        secondaryIndices :=
          store.secondaryIndices.insert idx.name (keys.newSecondary indexType idx.unique)
        indexColumns := store.indexColumns.insert idx.name (schema.columnIndices idx.columns) } := by
    intro indexType
    refine ⟨h.valid, h.named, h.lists.keyed, h.lists.primary, fun name => ?_⟩
    dsimp only
    rw [getElem?_insert_name, getElem?_insert_name]
    split
    next =>
      exact .some ((laws.newSecondary indexType idx.unique).congr
        fun k r => iff_of_false id (hnone _ k r))
    next => exact h.lists.secondary name
  unfold RowStore.addIndex uniqueAfter
  cases idx.indexType with
  | gin =>
    dsimp only
    split
    · exact ⟨⟨h.valid, h.named, ⟨h.lists.keyed, h.lists.primary, h.lists.secondary⟩⟩, hempty⟩
    · exact ⟨h, hempty⟩
  | hash => exact ⟨hplain .hash, hempty⟩
  | bTree => exact ⟨hplain .bTree, hempty⟩

theorem Consistent.addIndexes (h : Consistent laws unique store) (hempty : store.slots = .empty)
    (schema : TableSchema) (indices : List IndexDef) :
    Consistent laws (indices.foldl uniqueAfter unique)
      (indices.foldl (RowStore.addIndex keys schema) store) := by
  induction indices generalizing store unique with
  | nil => exact h
  | cons idx indices ih =>
    obtain ⟨hnext, hnextEmpty⟩ := h.addIndex hempty schema idx
    exact ih hnext hnextEmpty

/-- A new store, if a primary key has a column. -/
theorem consistent_new (laws : KeyLaws keys keyOf Ok) (schema : TableSchema)
    (hpk : ∀ names, schema.primaryKey = some names → schema.columnIndices names ≠ []) :
    Consistent laws schema.uniqueIndex (.new keys schema) := by
  have hgone : ∀ r : RowId, (RowSlots.empty : RowSlots Scalar).rowRefById r = none := fun r => by
    simp [RowSlots.empty, RowSlots.rowRefById]
  change Consistent laws (schema.indices.foldl uniqueAfter fun _ => false) _
  refine Consistent.addIndexes ?_ rfl schema schema.indices
  refine ⟨RowSlots.valid_empty, fun rowId row hrow => ?_, fun index hindex => ?_,
    fun index hindex => ?_, fun name => ?_⟩
  · rw [hgone] at hrow
    cases hrow
  · obtain ⟨names, hnames, -⟩ := Option.map_eq_some_iff.mp hindex
    dsimp only
    rw [hnames]
    exact List.isEmpty_eq_false_iff.mpr (hpk names hnames)
  · obtain ⟨names, -, rfl⟩ := Option.map_eq_some_iff.mp hindex
    exact laws.newPrimary.congr fun k r => iff_of_false id (rowKeys_gone (hgone r) k)
  · simp

end Schema

section Runs

variable {P S κ : Type} [LinearOrder κ] {keys : KeyOps P S} {keyOf : IndexKey Scalar → κ}
  {Ok : IndexKey Scalar → Prop} (laws : KeyLaws keys keyOf Ok) {unique : String → Bool}
  {store : GinStore P S} (formats : JsonbFormats)

/-- Rows have keys that the indexes can tell apart, a changed row keeps its id, and the indexes
can take a batch in at once. A row is not changed in its place. -/
def KeepsIndexes (store : GinStore P S) : RowStoreOperation → Prop
  | .insert row | .insertWithDelta row | .insertOrReplace row => RowOk Ok row
  | .insertBatch rows => (∀ row ∈ rows, RowOk Ok row) ∧
      (store.slots.rows.isEmpty = true ∨ Meets laws store rows)
  | .bulkLoad rows => ∀ row ∈ rows, RowOk Ok row
  | .update rowId newRow | .updateWithDelta rowId newRow => RowOk Ok newRow ∧ newRow.id = rowId
  | .delete _ | .deleteWithDelta _ | .deleteBatch _ | .clear => True
  | .getMut _ _ => False

variable {laws}

theorem Consistent.operate (h : Consistent laws unique store) (firstRowId : RowStore.FirstRowId P)
    (operation : RowStoreOperation) (hkeeps : KeepsIndexes laws store operation) :
    ∃ next, store.operate (keys.withGin formats) firstRowId operation = some next ∧
      Consistent laws unique next ∧ SameKeys store next := by
  cases operation with
  | insert row =>
    obtain ⟨next, result, hinsert, hnext, hkeys, -⟩ := h.insert formats hkeeps
    exact ⟨next, by rw [RowStore.operate, hinsert], hnext, hkeys⟩
  | insertWithDelta row =>
    obtain ⟨next, result, hinsert, hnext, hkeys, -⟩ := h.insert formats hkeeps
    exact ⟨next, by rw [RowStore.operate, RowStore.insertWithDelta, hinsert], hnext, hkeys⟩
  | insertBatch rows =>
    have hsame := h.insertBatch formats hkeeps.1 hkeeps.2
    exact ⟨_, rfl, hsame.firstKept, hsame.firstKeys⟩
  | bulkLoad rows => exact ⟨_, rfl, h.loadEmpty formats hkeeps⟩
  | update rowId newRow =>
    obtain ⟨next, result, hupdate, hnext, hkeys, -⟩ := h.update formats hkeeps.1 hkeeps.2
    exact ⟨next, by rw [RowStore.operate, hupdate], hnext, hkeys⟩
  | delete rowId =>
    obtain ⟨next, result, hdelete, hnext, hkeys, -⟩ := h.delete formats rowId
    exact ⟨next, by rw [RowStore.operate, hdelete]; rfl, hnext, hkeys⟩
  | deleteBatch rowIds =>
    obtain ⟨next, result, hdelete, hnext, hkeys, -⟩ := h.deleteBatch formats rowIds
    exact ⟨next, by rw [RowStore.operate, hdelete]; rfl, hnext, hkeys⟩
  | clear => exact ⟨_, rfl, h.clear formats⟩
  | insertOrReplace row =>
    rw [RowStore.operate, RowStore.insertOrReplace]
    split
    next existingRowId _ =>
      have hok : RowOk Ok (.new existingRowId row.values) := hkeeps
      have hid : (Row.new existingRowId row.values : Row Scalar).id = existingRowId := rfl
      obtain ⟨next, result, hupdate, hnext, hkeys, -⟩ := h.update formats hok hid
      exact ⟨next, by rw [hupdate], hnext, hkeys⟩
    next =>
      obtain ⟨next, result, hinsert, hnext, hkeys, -⟩ := h.insert formats hkeeps
      exact ⟨next, by rw [hinsert], hnext, hkeys⟩
  | getMut rowId change => exact hkeeps.elim
  | deleteWithDelta rowId =>
    obtain ⟨next, result, hdelete, hnext, hkeys, -⟩ := h.delete formats rowId
    exact ⟨next, by rw [RowStore.operate, RowStore.deleteWithDelta, hdelete]; rfl, hnext, hkeys⟩
  | updateWithDelta rowId newRow =>
    rw [RowStore.operate, RowStore.updateWithDelta]
    split
    · exact ⟨_, rfl, h, .refl store⟩
    · obtain ⟨next, result, hupdate, hnext, hkeys, -⟩ := h.update formats hkeeps.1 hkeeps.2
      exact ⟨next, by rw [hupdate], hnext, hkeys⟩

theorem run_keepsConsistent (laws : KeyLaws keys keyOf Ok) (schema : TableSchema)
    (hpk : ∀ names, schema.primaryKey = some names → schema.columnIndices names ≠ [])
    (firstRowId : RowStore.FirstRowId P) {operations : List RowStoreOperation}
    (h : Run.Along (RowStore.operate (keys.withGin formats) firstRowId) (KeepsIndexes laws)
      (.new keys schema) operations) :
    ∃ store, Run.run (RowStore.operate (keys.withGin formats) firstRowId) (.new keys schema)
        operations = some store ∧ Consistent laws schema.uniqueIndex store ∧
      SameKeys (.new keys schema) store := by
  refine @Run.preserves _ _ _ _ (fun store : GinStore P S =>
    Consistent laws schema.uniqueIndex store ∧ SameKeys (.new keys schema) store)
    (fun store operation hkept hkeeps => ?_) _ ⟨consistent_new laws schema hpk, .refl _⟩ _ h
  obtain ⟨next, hnext, hconsistent, hkeys⟩ := hkept.1.operate formats firstRowId operation hkeeps
  exact ⟨next, hnext, hconsistent, hkept.2.trans hkeys⟩

end Runs

section Lookups

variable {κ : Type} [LinearOrder κ]

/-- The row ids that a lookup finds. -/
def getIndexKey (index : BTreeIndex κ) (key : κ) : List RowId := (index.get key).getD []

def SecondaryIndexStore.getIndexKey : SecondaryIndexStore κ → κ → List RowId
  | .bTree index, key => Storage.getIndexKey index key
  | .hash index, key => index.get key

end Lookups

section Coded

variable {V : Type} [LinearOrder V] (code : ValueCode V)
  (debugValues : List (Value Scalar) → String) (formats : JsonbFormats)

/-- A store whose indexes are those of the source. -/
abbrev CodedStore (V : Type) :=
  GinStore (BTreeIndex (IndexKey V)) (SecondaryIndexStore (IndexKey V))

/-- A lookup finds the stored rows that have the key, each of them once. -/
def Finds (code : ValueCode V) (store : CodedStore V) (cols : List Nat)
    (get : IndexKey V → List RowId) : Prop :=
  ∀ key, (get key).Nodup ∧ ∀ id, id ∈ get key ↔
    ∃ row, store.slots.rowRefById id = some row ∧ code.keyOf (extractKey row cols) = key

structure ListsStoredRows (code : ValueCode V) (store : CodedStore V) : Prop where
  primary : ∀ index, store.primaryIndex = some index →
    Finds code store store.pkColumns (getIndexKey index)
  secondary : ∀ (name : String) (cols : List Nat), store.indexColumns[name]? = some cols →
    ∃ index, store.secondaryIndices[name]? = some index ∧ Finds code store cols index.getIndexKey

variable {code debugValues}

theorem Consistent.listsStoredRows {unique : String → Bool} {store : CodedStore V}
    (h : Consistent (code.laws debugValues) unique store) : ListsStoredRows code store := by
  refine ⟨fun index hindex key => ?_, fun name cols hcols => ?_⟩
  · have hlisting := h.lists.primary index hindex
    exact ⟨hlisting.distinct.nodup key, fun id => hlisting.lists key id⟩
  · obtain ⟨index, hindex, hlisting⟩ := h.lists.secondary.get hcols
    refine ⟨index, hindex, fun key => ?_⟩
    cases index with
    | bTree index => exact ⟨hlisting.distinct.nodup key, fun id => hlisting.lists key id⟩
    | hash index => exact ⟨hlisting.distinct.nodup key, fun id => hlisting.lists key id⟩

theorem ValueCode.rowOk {row : Row Scalar} (h : ∀ value ∈ row.values, code.OkValue value) :
    RowOk code.OkKey row := by
  intro cols
  have hvalues : ∀ value ∈ cols.map fun i => (row.get i).getD Value.null, code.OkValue value := by
    intro value hvalue
    obtain ⟨i, -, rfl⟩ := List.mem_map.mp hvalue
    cases hget : row.get i with
    | none => trivial
    | some value => exact h value (List.mem_of_getElem? hget)
  unfold extractKey IndexKey.fromRow IndexKey.fromValues
  split
  next value hone => exact hvalues value (by rw [hone]; exact List.mem_singleton_self value)
  next => exact hvalues

variable (code debugValues)

end Coded

section Sample

theorem compare_int64 (a b : Int64) : compare a b = compare a.toInt b.toInt := by
  change compareOfLessAndEq a b = compareOfLessAndEq a.toInt b.toInt
  simp only [compareOfLessAndEq, Int64.lt_iff_toInt_lt, Int64.toInt_inj]

def int64Of : Scalar → ℤ
  | .int64 value => value.toInt
  | _ => 0

/-- Keys over columns of integers. -/
def int64Code : ValueCode ℤ where
  encode := int64Of
  Ok scalar := ∃ value, scalar = .int64 value
  cmp_eq := by
    rintro _ _ ⟨a, rfl⟩ ⟨b, rfl⟩
    exact compare_int64 a b
  eq_iff := by
    rintro _ _ ⟨a, rfl⟩ ⟨b, rfl⟩
    exact Core.Scalar.eq_iff_cmp rfl
  not_float := by
    rintro _ ⟨_, heq⟩
    cases heq

/-- Members with a number of their own, in teams. -/
def members : TableSchema where
  columns := [⟨"id", .int64, false⟩, ⟨"team", .int64, true⟩, ⟨"number", .int64, false⟩]
  name := "members"
  primaryKey := some ["id"]
  indices := [⟨"number", ["number"], true, .hash, none⟩,
    ⟨"team", ["team", "number"], false, .bTree, none⟩]

def member (id : RowId) (team : Value Scalar) (number : Int64) : Row Scalar :=
  .new id [some (.int64 (.ofNat id)), team, some (.int64 number)]

theorem member_ok (id : RowId) (team number : Int64) :
    RowOk int64Code.OkKey (member id (some (.int64 team)) number) := by
  refine ValueCode.rowOk fun value hvalue => ?_
  have hcell : ∃ cell, value = some (.int64 cell) := by
    rcases List.mem_cons.mp hvalue with rfl | hvalue
    · exact ⟨_, rfl⟩
    rcases List.mem_cons.mp hvalue with rfl | hvalue
    · exact ⟨_, rfl⟩
    · exact ⟨_, List.mem_singleton.mp hvalue⟩
  obtain ⟨cell, rfl⟩ := hcell
  exact ⟨cell, rfl⟩

/-- The first row id under a primary key. -/
def firstMember : RowStore.FirstRowId (BTreeIndex (IndexKey ℤ)) :=
  fun index key => (getIndexKey index (int64Code.keyOf key)).head?

end Sample

end Cynos.Storage
