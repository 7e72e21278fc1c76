import Cynos.Storage.StoreRuns

/-! A GIN index lists under every token exactly the stored rows whose cell yields it, as long as
rows that are deleted in a batch carry the ids they are stored under. -/
namespace Cynos.Storage

open Core (Row Scalar Value)
open Index

section Loops

variable {C I : Type} {visitor : String → C → I → I}

theorem getElem?_visited (indices : Std.ExtTreeMap String I) (name : String) (config : C)
    (other : String) :
    (RowStore.forEachIndexMut visitor [(name, config)] indices)[other]? =
      if other = name then indices[name]?.map (visitor name config) else indices[other]? := by
  simp only [RowStore.forEachIndexMut, List.foldl_cons, List.foldl_nil]
  cases hindex : indices[name]? with
  | none =>
    by_cases heq : other = name
    · rw [if_pos heq, heq, hindex, Option.map_none]
    · rw [if_neg heq]
  | some index =>
    rw [Std.ExtTreeMap.getElem?_insert]
    exact if_congr (Std.LawfulEqCmp.compare_eq_iff_eq.trans eq_comm) rfl rfl

theorem forEachIndexMut_cons (name : String) (config : C) (defs : List (String × C))
    (indices : Std.ExtTreeMap String I) :
    RowStore.forEachIndexMut visitor ((name, config) :: defs) indices =
      RowStore.forEachIndexMut visitor defs
        (RowStore.forEachIndexMut visitor [(name, config)] indices) := rfl

theorem getElem?_forEachIndexMut_of_not_mem (defs : List (String × C))
    (indices : Std.ExtTreeMap String I) {name : String} (hname : name ∉ defs.map Prod.fst) :
    (RowStore.forEachIndexMut visitor defs indices)[name]? = indices[name]? := by
  induction defs generalizing indices with
  | nil => rfl
  | cons definition defs ih =>
    obtain ⟨first, config⟩ := definition
    rw [List.map_cons, List.mem_cons, not_or] at hname
    rw [forEachIndexMut_cons, ih _ hname.2, getElem?_visited, if_neg hname.1]

/-- Every index is visited with its own definition. -/
theorem getElem?_forEachIndexMut {defs : List (String × C)} (hnames : (defs.map Prod.fst).Nodup)
    (indices : Std.ExtTreeMap String I) {name : String} {config : C}
    (hmem : (name, config) ∈ defs) :
    (RowStore.forEachIndexMut visitor defs indices)[name]? =
      indices[name]?.map (visitor name config) := by
  induction defs generalizing indices with
  | nil => cases hmem
  | cons definition defs ih =>
    obtain ⟨first, other⟩ := definition
    obtain ⟨hfirst, hnames⟩ := List.nodup_cons.mp hnames
    rw [forEachIndexMut_cons]
    rcases List.mem_cons.mp hmem with heq | hrest
    · obtain ⟨rfl, rfl⟩ := Prod.mk.inj heq
      rw [getElem?_forEachIndexMut_of_not_mem _ _ hfirst, getElem?_visited, if_pos rfl]
    · have hname : name ∈ defs.map Prod.fst := List.mem_map.mpr ⟨_, hrest, rfl⟩
      have hne : name ≠ first := ne_of_mem_of_not_mem hname hfirst
      rw [ih hnames _ hrest, getElem?_visited, if_neg hne]

end Loops

section Content

/-- What the lists of every index hold, by the definition of the index. -/
def HoldAll (configs : Std.ExtTreeMap String GinIndexConfig)
    (indices : Std.ExtTreeMap String GinIndex) (P : GinIndexConfig → GinToken → RowId → Prop) : Prop :=
  ∀ (name : String) (config : GinIndexConfig), configs[name]? = some config →
    ∃ gin : GinIndex, indices[name]? = some gin ∧ gin.Holds (P config)

variable {configs : Std.ExtTreeMap String GinIndexConfig} {indices : Std.ExtTreeMap String GinIndex}
  {P Q : GinIndexConfig → GinToken → RowId → Prop}

theorem HoldAll.congr (h : HoldAll configs indices P)
    (hPQ : ∀ config token id, P config token id ↔ Q config token id) :
    HoldAll configs indices Q := by
  intro name config hconfig
  obtain ⟨gin, hgin, hholds⟩ := h name config hconfig
  exact ⟨gin, hgin, fun token => (hholds token).congr (hPQ config token)⟩

/-- A loop that changes what each index holds. -/
theorem HoldAll.forEach {C : Type} (h : HoldAll configs indices P)
    (f : String × GinIndexConfig → C) {visitor : String → C → GinIndex → GinIndex}
    (hvisit : ∀ name config gin, gin.Holds (P config) →
      (visitor name (f (name, config)) gin).Holds (Q config)) :
    HoldAll configs (RowStore.forEachIndexMut visitor
      (configs.toList.map fun definition => (definition.1, f definition)) indices) Q := by
  intro name config hconfig
  obtain ⟨gin, hgin, hholds⟩ := h name config hconfig
  have hnames : ((configs.toList.map fun definition => (definition.1, f definition)).map
      Prod.fst).Nodup := by
    rw [List.map_map]
    change (configs.toList.map Prod.fst).Nodup
    rw [Std.ExtTreeMap.map_fst_toList_eq_keys]
    exact Std.ExtTreeMap.nodup_keys
  have hmem : (name, f (name, config)) ∈
      configs.toList.map fun definition => (definition.1, f definition) :=
    List.mem_map.mpr
      ⟨(name, config), Std.ExtTreeMap.mem_toList_iff_getElem?_eq_some.mpr hconfig, rfl⟩
  refine ⟨visitor name (f (name, config)) gin, ?_, hvisit name config gin hholds⟩
  rw [getElem?_forEachIndexMut hnames indices hmem, hgin]
  rfl

theorem HoldAll.forEachConfig (h : HoldAll configs indices P)
    {visitor : String → GinIndexConfig → GinIndex → GinIndex}
    (hvisit : ∀ name config gin, gin.Holds (P config) →
      (visitor name config gin).Holds (Q config)) :
    HoldAll configs (RowStore.forEachIndexMut visitor configs.toList indices) Q := by
  have hloop := h.forEach Prod.snd hvisit
  rwa [show configs.toList.map (fun definition => (definition.1, definition.2)) = configs.toList
    from List.map_id _] at hloop

variable (formats : JsonbFormats)

/-- The row yields the tokens of its cell in the indexed column. -/
def RowYields (config : GinIndexConfig) (row : Row Scalar) (token : GinToken) : Prop :=
  ∃ value, row.get config.columnIdx = some value ∧ Yields formats config value token

/-- A stored row yields the token. -/
def Stored (slots : RowSlots Scalar) (config : GinIndexConfig) (token : GinToken) (id : RowId) :
    Prop :=
  ∃ row, slots.rowRefById id = some row ∧ RowYields formats config row token

variable {P S : Type} (keys : KeyOps P S) {store : GinStore P S}
  {P : GinIndexConfig → GinToken → RowId → Prop}

theorem rowYields_iff {config : GinIndexConfig} {row : Row Scalar} {token : GinToken}
    {value : Value Scalar} (hvalue : row.get config.columnIdx = some value) :
    RowYields formats config row token ↔ Yields formats config value token := by
  simp [RowYields, hvalue]

theorem not_rowYields {config : GinIndexConfig} {row : Row Scalar} (token : GinToken)
    (hvalue : row.get config.columnIdx = none) : ¬RowYields formats config row token := by
  simp [RowYields, hvalue]

theorem holds_indexRow {config : GinIndexConfig} {gin : GinIndex} {P : GinToken → RowId → Prop}
    (h : gin.Holds P) (row : Row Scalar) (rowId : RowId) :
    (match row.get config.columnIdx with
      | some value => indexJsonbValue formats config gin value rowId
      | none => gin).Holds fun token id =>
        P token id ∨ RowYields formats config row token ∧ id = rowId := by
  cases hvalue : row.get config.columnIdx with
  | none =>
    exact fun token => (h token).congr fun id => by simp [not_rowYields formats token hvalue]
  | some value =>
    exact fun token => (holds_indexJsonbValue formats config h value rowId token).congr fun id => by
      simp only [rowYields_iff formats hvalue]

theorem holds_removeRow {config : GinIndexConfig} {gin : GinIndex} {P : GinToken → RowId → Prop}
    (h : gin.Holds P) (row : Row Scalar) (rowId : RowId) :
    (match row.get config.columnIdx with
      | some value => removeJsonbFromGin formats config gin value rowId
      | none => gin).Holds fun token id =>
        P token id ∧ ¬(RowYields formats config row token ∧ id = rowId) := by
  cases hvalue : row.get config.columnIdx with
  | none =>
    exact fun token => (h token).congr fun id => by simp [not_rowYields formats token hvalue]
  | some value =>
    exact fun token =>
      (holds_removeJsonbFromGin formats config h value rowId token).congr fun id => by
        simp only [rowYields_iff formats hvalue]

/-- Only the text of a cell is indexed. -/
theorem jsonbCalls_congr (config : GinIndexConfig) {a b : Value Scalar}
    (h : jsonText a = jsonText b) : jsonbCalls formats config a = jsonbCalls formats config b := by
  have hparse : parseJsonbValue a = parseJsonbValue b := by
    rw [parseJsonbValue, parseJsonbValue, h]
  have hextract (paths : List CompiledGinPath) : extractSelectedJsonbEntriesFromText a paths =
      extractSelectedJsonbEntriesFromText b paths := by
    rw [extractSelectedJsonbEntriesFromText, extractSelectedJsonbEntriesFromText, h]
  unfold jsonbCalls
  simp only [hparse, hextract]

theorem jsonText_of_eq {a b : Value Scalar} (h : Value.eq a b = true) :
    jsonText a = jsonText b := by
  rcases a with _ | a <;> rcases b with _ | b
  · rfl
  · cases h
  · cases h
  cases a with
  | jsonb x =>
    cases b with
    | jsonb y => rw [show x = y from beq_iff_eq.mp h]
    | _ => cases h
  | _ =>
    cases b with
    | jsonb y => cases h
    | _ => rfl

theorem rowYields_of_cellsEqual {config : GinIndexConfig} {a b : Row Scalar} (token : GinToken)
    (h : RowStore.cellsEqual (a.get config.columnIdx) (b.get config.columnIdx) = true) :
    RowYields formats config a token ↔ RowYields formats config b token := by
  unfold RowYields
  cases ha : a.get config.columnIdx with
  | none =>
    cases hb : b.get config.columnIdx with
    | none => simp
    | some value => rw [ha, hb] at h; cases h
  | some value =>
    cases hb : b.get config.columnIdx with
    | none => rw [ha, hb] at h; cases h
    | some other =>
      rw [ha, hb] at h
      have hcalls := jsonbCalls_congr formats config (jsonText_of_eq h)
      simp [Yields, hcalls]

theorem holds_updateRow {config : GinIndexConfig} {gin : GinIndex} {P : GinToken → RowId → Prop}
    (h : gin.Holds P) {oldRow : Row Scalar} (newRow : Row Scalar) {rowId : RowId}
    (hold : ∀ token, P token rowId ↔ RowYields formats config oldRow token) :
    (if RowStore.cellsEqual (oldRow.get config.columnIdx) (newRow.get config.columnIdx) then gin
      else
        match newRow.get config.columnIdx with
        | some value => indexJsonbValue formats config
          (match oldRow.get config.columnIdx with
            | some value => removeJsonbFromGin formats config gin value rowId
            | none => gin) value rowId
        | none =>
          match oldRow.get config.columnIdx with
          | some value => removeJsonbFromGin formats config gin value rowId
          | none => gin).Holds fun token id =>
      (P token id ∧ id ≠ rowId) ∨ RowYields formats config newRow token ∧ id = rowId := by
  intro token
  split
  next hequal =>
    refine (h token).congr fun id => ?_
    by_cases hid : id = rowId
    · simp [hid, hold, rowYields_of_cellsEqual formats token hequal]
    · simp [hid]
  next =>
    refine (holds_indexRow formats (holds_removeRow formats h oldRow rowId) newRow rowId
      token).congr fun id => or_congr_left ?_
    by_cases hid : id = rowId
    · simp [hid, hold]
    · simp [hid]

end Content

section Changes

variable {P S : Type} (formats : JsonbFormats) (keys : KeyOps P S) {store : GinStore P S}
  {Q : GinIndexConfig → GinToken → RowId → Prop}

theorem HoldAll.indexGin (h : HoldAll store.ginIndexConfigs store.ginIndices Q) (rowId : RowId)
    (row : Row Scalar) :
    HoldAll store.ginIndexConfigs (store.indexGin (keys.withGin formats).toIndexOps rowId row)
      fun config token id => Q config token id ∨ RowYields formats config row token ∧ id = rowId :=
  h.forEachConfig fun _ _ _ hgin => holds_indexRow formats hgin row rowId

theorem HoldAll.removeGin (h : HoldAll store.ginIndexConfigs store.ginIndices Q) (rowId : RowId)
    (row : Row Scalar) :
    HoldAll store.ginIndexConfigs (store.removeGin (keys.withGin formats).toIndexOps rowId row)
      fun config token id =>
        Q config token id ∧ ¬(RowYields formats config row token ∧ id = rowId) :=
  h.forEachConfig fun _ _ _ hgin => holds_removeRow formats hgin row rowId

theorem HoldAll.removeGinBatch (h : HoldAll store.ginIndexConfigs store.ginIndices Q)
    (rows : List (Row Scalar)) :
    HoldAll store.ginIndexConfigs (store.removeGinBatch (keys.withGin formats) rows)
      fun config token id => Q config token id ∧
        ∀ row ∈ rows, ¬(RowYields formats config row token ∧ id = row.id) := by
  refine h.forEachConfig fun _ config gin hgin => ?_
  generalize Q config = Q at hgin
  induction rows generalizing gin Q with
  | nil => exact fun token => (hgin token).congr fun id => by simp
  | cons row rows ih =>
    intro token
    refine (ih _ _ (holds_removeRow formats hgin row row.id) token).congr fun id => ?_
    simp only [List.forall_mem_cons, and_assoc]

/-- What a row adds to a builder. -/
def rowEntries (config : GinIndexConfig) (row : Row Scalar) : List GinEntry :=
  match row.get config.columnIdx with
  | some value => (jsonbCalls formats config value).map (GinCall.entry row.id)
  | none => []

theorem posts_rowEntries (config : GinIndexConfig) (row : Row Scalar) (token : GinToken)
    (id : RowId) :
    (∃ e ∈ rowEntries formats config row, e.Posts token id) ↔
      RowYields formats config row token ∧ id = row.id := by
  unfold rowEntries
  cases hvalue : row.get config.columnIdx with
  | none => simp [not_rowYields formats token hvalue]
  | some value =>
    simp [rowYields_iff formats hvalue, posts_entry, Yields, ← and_assoc, exists_and_right]

/-- The builders of the indexes when the rows are collected. -/
def buildersOf (defs : List (String × GinIndexConfig)) (rows : List (Row Scalar)) :
    List GinBulkBuilder :=
  defs.map fun definition => .addAll .new (rows.flatMap (rowEntries formats definition.2))

theorem addAll_append (b : GinBulkBuilder) (entries entries' : List GinEntry) :
    b.addAll (entries ++ entries') = (b.addAll entries).addAll entries' :=
  List.foldl_append

theorem collectRow_buildersOf (defs : List (String × GinIndexConfig))
    (rows : List (Row Scalar)) (row : Row Scalar) :
    RowStore.collectRow (keys.withGin formats) defs (buildersOf formats defs rows) row =
      buildersOf formats defs (rows ++ [row]) := by
  unfold RowStore.collectRow buildersOf
  rw [List.zipWith_map_right, List.zipWith_self]
  apply List.map_congr_left
  intro definition _
  rw [List.flatMap_append, List.flatMap_singleton, addAll_append, rowEntries]
  cases row.get definition.2.columnIdx with
  | none => rfl
  | some value => exact collectJsonbValueIntoBuilder_eq formats definition.2 _ value row.id

theorem foldl_collectRow (defs : List (String × GinIndexConfig))
    (done rows : List (Row Scalar)) :
    rows.foldl (RowStore.collectRow (keys.withGin formats) defs) (buildersOf formats defs done) =
      buildersOf formats defs (done ++ rows) := by
  induction rows generalizing done with
  | nil => rw [List.append_nil, List.foldl_nil]
  | cons row rows ih =>
    rw [List.foldl_cons, collectRow_buildersOf, ih, List.append_assoc, List.singleton_append]

/-- Flushing the builders adds the tokens of the collected rows. -/
theorem HoldAll.flushGinBulkBuilders (h : HoldAll store.ginIndexConfigs store.ginIndices Q)
    (rows : List (Row Scalar)) :
    HoldAll store.ginIndexConfigs
      (store.flushGinBulkBuilders (keys.withGin formats)
        (buildersOf formats store.ginDefs rows)).ginIndices
      fun config token id =>
        Q config token id ∨ ∃ row ∈ rows, RowYields formats config row token ∧ id = row.id := by
  unfold RowStore.flushGinBulkBuilders buildersOf
  rw [← List.map_prod_left_eq_zip, List.map_map]
  refine h.forEach (fun definition =>
    GinBulkBuilder.new.addAll (rows.flatMap (rowEntries formats definition.2)))
    fun _ config gin hgin => ?_
  intro token
  refine (hgin.applyBulk (rows.flatMap (rowEntries formats config)) token).congr fun id => ?_
  simp only [← posts_rowEntries, List.mem_flatMap]
  grind

theorem HoldAll.indexGinBatch (h : HoldAll store.ginIndexConfigs store.ginIndices Q)
    (rows : List (Row Scalar)) :
    HoldAll store.ginIndexConfigs (store.indexGinBatch (keys.withGin formats) rows).ginIndices
      fun config token id =>
        Q config token id ∨ ∃ row ∈ rows, RowYields formats config row token ∧ id = row.id := by
  have hcollected := foldl_collectRow formats keys store.ginDefs [] rows
  have hflushed := HoldAll.flushGinBulkBuilders formats keys h rows
  rw [List.nil_append] at hcollected
  rw [← hcollected] at hflushed
  exact hflushed

theorem HoldAll.clear (h : HoldAll store.ginIndexConfigs store.ginIndices Q) :
    HoldAll store.ginIndexConfigs (store.clear (keys.withGin formats)).ginIndices
      fun _ _ _ => False := by
  intro name config hconfig
  obtain ⟨gin, hgin, -⟩ := h name config hconfig
  refine ⟨gin.clear, ?_, fun token => ?_⟩
  · change (store.ginIndices.map fun _ => GinIndex.clear)[name]? = _
    rw [Std.ExtTreeMap.getElem?_map, hgin]
    rfl
  · cases token with
    | key key => exact .none fun _ => id
    | pair key value => exact .none fun _ => id

end Changes

section Rows

variable {formats : JsonbFormats} {slots slots' : RowSlots Scalar} {config : GinIndexConfig}
  {token : GinToken} {id rowId : RowId} {row : Row Scalar}

theorem not_stored (h : slots.rowRefById id = none) : ¬Stored formats slots config token id := by
  simp [Stored, h]

theorem stored_iff (h : slots.rowRefById id = some row) :
    Stored formats slots config token id ↔ RowYields formats config row token := by
  simp [Stored, h]

/-- A row is put under an id, in the place of the one that was there. -/
theorem stored_put
    (h : slots'.rowRefById id = if id = rowId then some row else slots.rowRefById id) :
    Stored formats slots' config token id ↔
      (Stored formats slots config token id ∧ id ≠ rowId) ∨
        RowYields formats config row token ∧ id = rowId := by
  unfold Stored
  rw [h]
  by_cases hid : id = rowId
  · simp [hid]
  · simp [hid]

theorem stored_insertRowSlot (hvalid : slots.Valid) (hfresh : slots.rows[row.id]? = none) :
    Stored formats slots config token id ∨ RowYields formats config row token ∧ id = row.id ↔
      Stored formats (slots.insertRowSlot row.id row) config token id := by
  rw [stored_put (RowSlots.rowRefById_insertRowSlot hvalid hfresh row id)]
  by_cases hid : id = row.id
  · simp [hid, not_stored (hvalid.rowRefById_eq_none.mpr hfresh)]
  · simp [hid]

theorem stored_insertAll {rows : List (Row Scalar)} (hvalid : slots.Valid)
    (hfresh : ∀ row ∈ rows, slots.rowRefById row.id = none) (hnodup : (rows.map Row.id).Nodup) :
    (Stored formats slots config token id ∨
        ∃ row ∈ rows, RowYields formats config row token ∧ id = row.id) ↔
      Stored formats (slots.insertAll rows) config token id := by
  induction rows generalizing slots with
  | nil => simp [RowSlots.insertAll]
  | cons row rows ih =>
    obtain ⟨hnone, hrest⟩ := hvalid.fresh_tail hfresh hnodup
    rw [RowSlots.insertAll, List.foldl_cons, ← RowSlots.insertAll,
      ← ih (hvalid.insertRowSlot hnone row) hrest (List.nodup_cons.mp hnodup).2,
      ← stored_insertRowSlot hvalid hnone,
      List.exists_mem_cons_iff, or_assoc]

end Rows

section Steps

variable {P S : Type}

/-- The lists hold the stored rows, and the definitions are those the store began with. -/
structure GinSound (formats : JsonbFormats) (configs : Std.ExtTreeMap String GinIndexConfig)
    (store : GinStore P S) : Prop where
  valid : store.slots.Valid
  configs_eq : store.ginIndexConfigs = configs
  holds : HoldAll store.ginIndexConfigs store.ginIndices (Stored formats store.slots)

variable {formats : JsonbFormats} {configs : Std.ExtTreeMap String GinIndexConfig}
  {store : GinStore P S} (keys : KeyOps P S)

theorem GinSound.insert (h : GinSound formats configs store) (row : Row Scalar) :
    GinSound formats configs (store.insert (keys.withGin formats).toIndexOps row).1 := by
  obtain ⟨hvalid, rfl, hholds⟩ := h
  unfold RowStore.insert
  split
  · exact ⟨hvalid, rfl, hholds⟩
  next hexists =>
    have hfresh : store.slots.rows[row.id]? = none := by simpa using hexists
    split
    · exact ⟨hvalid, rfl, hholds⟩
    split
    · exact ⟨hvalid, rfl, hholds⟩
    dsimp only
    split
    · -- the row's tokens are taken out, although none was put in
      refine ⟨hvalid, rfl, (HoldAll.removeGin formats keys hholds row.id row).congr fun config token id => ?_⟩
      refine and_iff_left_of_imp fun hstored hid => ?_
      exact not_stored (hid.2 ▸ hvalid.rowRefById_eq_none.mpr hfresh) hstored
    · exact ⟨hvalid.insertRowSlot hfresh row, rfl, (HoldAll.indexGin formats keys hholds row.id row).congr
        fun config token id => stored_insertRowSlot hvalid hfresh⟩

theorem GinSound.update (h : GinSound formats configs store) (rowId : RowId)
    (newRow : Row Scalar) :
    GinSound formats configs (store.update (keys.withGin formats).toIndexOps rowId newRow).1 := by
  obtain ⟨hvalid, rfl, hholds⟩ := h
  unfold RowStore.update
  cases hold : store.slots.rowRefById rowId with
  | none => exact ⟨hvalid, rfl, hholds⟩
  | some oldRow =>
    dsimp only
    split
    · exact ⟨hvalid, rfl, hholds⟩
    · have hgin : HoldAll store.ginIndexConfigs
          (store.updateGin (keys.withGin formats).toIndexOps rowId oldRow newRow)
          fun config token id => (Stored formats store.slots config token id ∧ id ≠ rowId) ∨
            RowYields formats config newRow token ∧ id = rowId :=
        hholds.forEachConfig fun _ config _ hgin =>
          holds_updateRow formats hgin newRow fun token => stored_iff hold
      refine ⟨hvalid.replaceRowSlot newRow, rfl, HoldAll.congr hgin fun config token id => ?_⟩
      refine (stored_put ?_).symm
      rw [RowSlots.rowRefById_replaceRowSlot hvalid, hold, Option.map_some]

theorem GinSound.delete (h : GinSound formats configs store) (rowId : RowId) :
    ∃ left, (store.delete (keys.withGin formats).toIndexOps rowId).map Prod.fst = some left ∧
      GinSound formats configs left := by
  obtain ⟨hvalid, rfl, hholds⟩ := h
  unfold RowStore.delete
  cases hrow : store.slots.rows[rowId]? with
  | none =>
    have hremove : store.slots.removeRowSlot rowId = some (store.slots, none) := by
      unfold RowSlots.removeRowSlot
      rw [hrow]
    rw [hremove]
    exact ⟨_, rfl, hvalid, rfl, hholds⟩
  | some slotIdx =>
    obtain ⟨slots, row, hremove, hleft, hfound, hlookup⟩ := hvalid.removeRowSlot hrow
    rw [hremove]
    refine ⟨_, rfl, hleft, rfl,
      (HoldAll.removeGin formats keys hholds rowId row).congr fun config token id => ?_⟩
    change Stored formats store.slots config token id ∧
      ¬(RowYields formats config row token ∧ id = rowId) ↔ Stored formats slots config token id
    by_cases hid : id = rowId
    · rw [hid, stored_iff hfound, eq_self, and_true, and_not_self_iff, false_iff]
      exact not_stored (by rw [hlookup, if_pos rfl])
    · simp [Stored, hlookup, hid]

theorem GinSound.deleteBatch (h : GinSound formats configs store) {rowIds : List RowId}
    (hids : store.KeepsIds (.deleteBatch rowIds)) :
    ∃ left, (store.deleteBatch (keys.withGin formats) rowIds).map Prod.fst = some left ∧
      GinSound formats configs left := by
  obtain ⟨hvalid, rfl, hholds⟩ := h
  obtain ⟨slots, removed, hremove, hleft, hlookup, hmem⟩ := hvalid.removeRowSlots rowIds
  have hstored config token id : Stored formats store.slots config token id ∧
      (∀ row ∈ removed, ¬(RowYields formats config row token ∧ id = row.id)) ↔
        Stored formats slots config token id := by
    unfold Stored
    rw [hlookup]
    by_cases hid : id ∈ rowIds
    · rw [if_pos hid]
      refine iff_of_false (fun hkept => ?_) (by simp)
      obtain ⟨⟨row, hrow, hyields⟩, hothers⟩ := hkept
      exact hothers row ((hmem row).mpr ⟨id, hid, hrow⟩) ⟨hyields, (hids id hid row hrow).symm⟩
    · rw [if_neg hid]
      refine and_iff_left fun row hrow hyields => hid ?_
      obtain ⟨rowId, hrowId, hfound⟩ := (hmem row).mp hrow
      rwa [hyields.2, hids rowId hrowId row hfound]
  unfold RowStore.deleteBatch
  rw [hremove]
  cases removed with
  | nil =>
    refine ⟨_, rfl, hleft, rfl, hholds.congr fun config token id => ?_⟩
    simpa using hstored config token id
  | cons row rows =>
    exact ⟨_, rfl, hleft, rfl, (HoldAll.removeGinBatch formats keys hholds (row :: rows)).congr hstored⟩

theorem GinSound.clear {Q : GinIndexConfig → GinToken → RowId → Prop}
    (hconfigs : store.ginIndexConfigs = configs)
    (h : HoldAll store.ginIndexConfigs store.ginIndices Q) :
    GinSound formats configs (store.clear (keys.withGin formats)) :=
  ⟨RowSlots.valid_empty, hconfigs, (HoldAll.clear formats keys h).congr fun config token id =>
    iff_of_false not_false
      (not_stored (by simp [RowStore.clear, RowSlots.rowRefById, RowSlots.empty]))⟩

theorem GinSound.bulkLoad (h : GinSound formats configs store) (hempty : store.slots.rows.isEmpty)
    (defs : List BatchSecondaryDef) {rows : List (Row Scalar)}
    (hrows : (rows.map Row.id).Pairwise (· < ·)) :
    GinSound formats configs (store.bulkLoad (keys.withGin formats) defs rows).1 := by
  obtain ⟨hvalid, rfl, hholds⟩ := h
  unfold RowStore.bulkLoad
  split
  · exact GinSound.clear keys rfl hholds
  dsimp only
  split
  · exact GinSound.clear keys rfl hholds
  · have hnone : ∀ row ∈ rows, store.slots.rowRefById row.id = none := by
      intro row _
      rw [hvalid.rowRefById_eq_none, Std.ExtTreeMap.isEmpty_iff.mp hempty]
      simp
    have hnodup : (rows.map Row.id).Nodup := hrows.imp fun hlt => hlt.ne
    have hslots := hvalid.bulkSlots hempty hrows
    refine ⟨?_, rfl, (HoldAll.indexGinBatch formats keys hholds rows).congr fun config token id => ?_⟩
    · change (RowStore.bulkSlots store.slots rows).Valid
      rw [hslots]
      exact hvalid.insertAll hnone hnodup
    · change _ ↔ Stored formats (RowStore.bulkSlots store.slots rows) config token id
      rw [hslots]
      exact stored_insertAll hvalid hnone hnodup

theorem GinSound.applyPreparedBatchInsert (h : GinSound formats configs store)
    (defs : List BatchSecondaryDef) {rows : List (Row Scalar)}
    (hfresh : ∀ row ∈ rows, store.slots.rowRefById row.id = none)
    (hnodup : (rows.map Row.id).Nodup) (prepared : RowStore.PreparedBatchInsert) :
    GinSound formats configs
      (store.applyPreparedBatchInsert (keys.withGin formats) defs rows prepared).1 := by
  obtain ⟨hvalid, rfl, hholds⟩ := h
  unfold RowStore.applyPreparedBatchInsert
  split
  · exact ⟨hvalid, rfl, hholds⟩
  dsimp only
  split
  · exact ⟨hvalid, rfl, hholds⟩
  · exact ⟨hvalid.insertAll hfresh hnodup, rfl, (HoldAll.indexGinBatch formats keys hholds rows).congr
      fun config token id => stored_insertAll hvalid hfresh hnodup⟩

theorem addKeys_spec {G B : Type} (ops : BatchOps P S G B) (store : RowStore P S G)
    (defs : List BatchSecondaryDef) (row : Row Scalar) :
    (store.addKeys ops defs row).1.slots = store.slots ∧
      (store.addKeys ops defs row).1.ginIndices = store.ginIndices ∧
      (store.addKeys ops defs row).1.ginIndexConfigs = store.ginIndexConfigs ∧
      ((store.addKeys ops defs row).2 = none → store.slots.rows[row.id]? = none) := by
  unfold RowStore.addKeys
  split
  · exact ⟨rfl, rfl, rfl, nofun⟩
  next hexists =>
    have hfresh : store.slots.rows[row.id]? = none := by simpa using hexists
    split
    · exact ⟨rfl, rfl, rfl, fun _ => hfresh⟩
    split
    · exact ⟨rfl, rfl, rfl, fun _ => hfresh⟩
    split
    · exact ⟨rfl, rfl, rfl, fun _ => hfresh⟩
    dsimp only
    split
    · exact ⟨rfl, rfl, rfl, fun _ => hfresh⟩
    · exact ⟨rfl, rfl, rfl, fun _ => hfresh⟩

/-- Rows that are merged in have ids of their own, which the store does not have. -/
theorem fresh_of_prepareBatchInsertMerge {G B : Type} {ops : BatchOps P S G B}
    {store : RowStore P S G} {defs : List BatchSecondaryDef} {rows : List (Row Scalar)}
    {prepared : RowStore.PreparedBatchInsert} (h : store.slots.Valid)
    (hprepared : store.prepareBatchInsertMerge ops defs rows = some prepared) :
    (∀ row ∈ rows, store.slots.rowRefById row.id = none) ∧ (rows.map Row.id).Nodup := by
  unfold RowStore.prepareBatchInsertMerge at hprepared
  split at hprepared
  · cases hprepared
  next hclear =>
    simp only [Bool.or_eq_true, not_or, Bool.not_eq_true, Bool.not_eq_false',
      List.any_eq_false] at hclear
    refine ⟨fun row hrow => ?_, nodup_of_hasDistinctKeys hclear.2⟩
    have hkeys := hclear.1.2 row hrow
    rw [h.rowRefById_eq_none]
    simp only [RowStore.keyTaken, Bool.or_eq_false_iff, decide_eq_false_iff_not] at hkeys
    simpa using hkeys.1.1

/-- The collected rows are in the slots already, and get into the lists at the end. -/
theorem GinSound.insertRows (defs : List BatchSecondaryDef) (done : List (Row Scalar))
    {Q : GinIndexConfig → GinToken → RowId → Prop} (hvalid : store.slots.Valid)
    (hholds : HoldAll store.ginIndexConfigs store.ginIndices Q)
    (hstored : ∀ config token id,
      (Q config token id ∨ ∃ row ∈ done, RowYields formats config row token ∧ id = row.id) ↔
        Stored formats store.slots config token id) (inserted : Nat) (rows : List (Row Scalar)) :
    GinSound formats store.ginIndexConfigs (RowStore.insertRows (keys.withGin formats) defs store
      (buildersOf formats store.ginDefs done) inserted rows).1 := by
  induction rows generalizing store done inserted with
  | nil => exact ⟨hvalid, rfl, (HoldAll.flushGinBulkBuilders formats keys hholds done).congr hstored⟩
  | cons row rows ih =>
    have hspec := addKeys_spec (keys.withGin formats) store defs row
    rw [RowStore.insertRows]
    rcases hkeys : store.addKeys (keys.withGin formats) defs row with ⟨next, error⟩
    rw [hkeys] at hspec
    obtain ⟨hslots, hgin, hconfigs, hfresh⟩ := hspec
    have hdefs : store.ginDefs = next.ginDefs := by
      rw [RowStore.ginDefs, RowStore.ginDefs, hconfigs]
    dsimp only at hslots hgin hconfigs hfresh
    rw [← hconfigs, ← hgin] at hholds
    rw [← hconfigs, hdefs]
    cases error with
    | some error =>
      rw [← hslots] at hvalid hstored
      exact ⟨hvalid, rfl, (HoldAll.flushGinBulkBuilders formats keys hholds done).congr hstored⟩
    | none =>
      dsimp only
      rw [collectRow_buildersOf]
      rw [← hslots] at hfresh hvalid hstored
      refine @ih { next with slots := next.slots.insertRowSlot row.id row } _
        (hvalid.insertRowSlot (hfresh rfl) row) hholds (fun config token id => ?_) (inserted + 1)
      dsimp only
      rw [← stored_insertRowSlot hvalid (hfresh rfl), ← hstored]
      simp only [List.mem_append, List.mem_singleton]
      grind

theorem GinSound.insertBatch (h : GinSound formats configs store) (rows : List (Row Scalar)) :
    GinSound formats configs (store.insertBatch (keys.withGin formats) rows).1 := by
  unfold RowStore.insertBatch
  split
  · exact h
  dsimp only
  split
  next hbulk =>
    rw [Bool.and_eq_true, RowStore.canUseBulkInsertFastPath, Bool.and_eq_true] at hbulk
    exact h.bulkLoad keys hbulk.1 _ (ascending_of_canUseBulkInsertFastPath hbulk.2.1 hbulk.2.2)
  next =>
    split
    next prepared hprepared =>
      obtain ⟨hfresh, hnodup⟩ := fresh_of_prepareBatchInsertMerge h.valid hprepared
      exact h.applyPreparedBatchInsert keys _ hfresh hnodup prepared
    next =>
      obtain ⟨hvalid, rfl, hholds⟩ := h
      exact GinSound.insertRows keys _ [] hvalid hholds
        (fun config token id => by simp) 0 rows

end Steps

section Runs

variable {P S : Type} (formats : JsonbFormats) (keys : KeyOps P S) (schema : TableSchema)

/-- Every list of the defined indexes has the ids of exactly the stored rows whose cell yields
its token. -/
def PostsStoredRows (configs : Std.ExtTreeMap String GinIndexConfig) (store : GinStore P S) :
    Prop :=
  ∀ (name : String) (config : GinIndexConfig), configs[name]? = some config →
    ∃ gin : GinIndex, store.ginIndices[name]? = some gin ∧
      (∀ key id, id ∈ gin.getByKey key ↔ Stored formats store.slots config (.key key) id) ∧
      ∀ key value id,
        id ∈ gin.getByKeyValue key value ↔ Stored formats store.slots config (.pair key value) id

theorem GinSound.postsStoredRows {configs : Std.ExtTreeMap String GinIndexConfig}
    {store : GinStore P S} (h : GinSound formats configs store) :
    PostsStoredRows formats configs store := by
  obtain ⟨-, rfl, hholds⟩ := h
  intro name config hconfig
  obtain ⟨gin, hgin, hlists⟩ := hholds name config hconfig
  exact ⟨gin, hgin, fun key => (hlists (.key key)).mem,
    fun key value => (hlists (.pair key value)).mem⟩

theorem HoldAll.addIndex {store : GinStore P S} {Q : GinIndexConfig → GinToken → RowId → Prop}
    (h : HoldAll store.ginIndexConfigs store.ginIndices Q)
    (hnew : ∀ config token id, ¬Q config token id) (idx : IndexDef) :
    HoldAll (store.addIndex keys schema idx).ginIndexConfigs
      (store.addIndex keys schema idx).ginIndices Q := by
  unfold RowStore.addIndex
  dsimp only
  split
  · split
    · intro name config hconfig
      rw [Std.ExtTreeMap.getElem?_insert] at hconfig ⊢
      split
      next hname =>
        refine ⟨.new, rfl, fun token => ?_⟩
        cases token <;> exact .none (hnew config _)
      next hname =>
        rw [if_neg hname] at hconfig
        exact h name config hconfig
    · exact h
  · exact h

theorem slots_addIndex (store : GinStore P S) (idx : IndexDef) :
    (store.addIndex keys schema idx).slots = store.slots := by
  unfold RowStore.addIndex
  dsimp only
  split
  · split
    · rfl
    · rfl
  · rfl

theorem ginSound_addIndexes {store : GinStore P S} (indices : List IndexDef)
    (hslots : store.slots = .empty)
    (h : HoldAll store.ginIndexConfigs store.ginIndices fun _ _ _ => False) :
    GinSound formats (indices.foldl (RowStore.addIndex keys schema) store).ginIndexConfigs
      (indices.foldl (RowStore.addIndex keys schema) store) := by
  induction indices generalizing store with
  | nil =>
    have hnone (id : RowId) : store.slots.rowRefById id = none := by
      simp [hslots, RowSlots.rowRefById, RowSlots.empty]
    exact ⟨hslots ▸ RowSlots.valid_empty, rfl, h.congr fun config token id =>
      iff_of_false not_false (not_stored (hnone id))⟩
  | cons idx indices ih =>
    exact ih ((slots_addIndex keys schema store idx).trans hslots)
      (h.addIndex keys schema (fun _ _ _ => id) idx)

theorem ginSound_new :
    GinSound formats (RowStore.new keys schema).ginIndexConfigs (RowStore.new keys schema) :=
  ginSound_addIndexes formats keys schema schema.indices rfl fun name config hconfig => by
    simp at hconfig

theorem GinSound.call {configs : Std.ExtTreeMap String GinIndexConfig} {store : GinStore P S}
    (h : GinSound formats configs store) (call : RowStoreCall) (hids : store.KeepsIds call) :
    ∃ next, store.call formats keys call = some next ∧ GinSound formats configs next := by
  cases call with
  | insert row => exact ⟨_, rfl, h.insert keys row⟩
  | insertBatch rows => exact ⟨_, rfl, h.insertBatch keys rows⟩
  | update rowId newRow => exact ⟨_, rfl, h.update keys rowId newRow⟩
  | delete rowId => exact h.delete keys rowId
  | deleteBatch rowIds => exact h.deleteBatch keys hids

theorem run_posts_stored_rows {calls : List RowStoreCall}
    (h : Run.Along (RowStore.call formats keys) RowStore.KeepsIds (.new keys schema) calls) :
    ∃ store, Run.run (RowStore.call formats keys) (.new keys schema) calls = some store ∧
      PostsStoredRows formats (RowStore.new keys schema).ginIndexConfigs store := by
  obtain ⟨store, hrun, hsound⟩ := Run.preserves
    (fun _ call hsound hids => GinSound.call formats keys hsound call hids)
    (ginSound_new formats keys schema) h
  exact ⟨store, hrun, hsound.postsStoredRows⟩

end Runs

section Sample

/-- A row that carries another id leaves its postings behind when it is deleted in a batch. -/
theorem GinSound.deleteBatch_stale {P S : Type} {formats : JsonbFormats} (keys : KeyOps P S)
    {configs : Std.ExtTreeMap String GinIndexConfig} {store : GinStore P S}
    (h : GinSound formats configs store) {rowId : RowId} {row : Row Scalar}
    (hrow : store.slots.rowRefById rowId = some row) (hid : row.id ≠ rowId) {name key : String}
    {config : GinIndexConfig} (hconfig : configs[name]? = some config)
    (hyields : RowYields formats config row (.key key)) :
    ∃ left, store.call formats keys (.deleteBatch [rowId]) = some left ∧
      ¬PostsStoredRows formats configs left := by
  obtain ⟨hvalid, rfl, hholds⟩ := h
  obtain ⟨slots, removed, hremove, hleft, hlookup, hmem⟩ := hvalid.removeRowSlots [rowId]
  simp only [List.mem_singleton, exists_eq_left, hrow, Option.some.injEq] at hlookup hmem
  rw [RowStore.call, RowStore.deleteBatch, hremove]
  cases removed with
  | nil => exact absurd ((hmem row).mpr rfl) List.not_mem_nil
  | cons first rows =>
    refine ⟨_, rfl, fun hposts => ?_⟩
    obtain ⟨gin, hgin, hkeys, -⟩ := hposts name config hconfig
    obtain ⟨gin', hgin', hlists⟩ := HoldAll.removeGinBatch formats keys
      hholds (first :: rows) name config hconfig
    obtain rfl : gin' = gin := Option.some.inj (hgin'.symm.trans hgin)
    have hkept : rowId ∈ gin'.getByKey key := by
      refine ((hlists (.key key)).mem rowId).mpr ⟨⟨row, hrow, hyields⟩, fun other hother => ?_⟩
      rw [← (hmem other).mp hother]
      exact fun hsame => hid hsame.2.symm
    have hstored := (hkeys key rowId).mp hkept
    have hgone : slots.rowRefById rowId = none := by rw [hlookup, if_pos rfl]
    exact not_stored hgone hstored

def sampleFormats : JsonbFormats := ⟨fun n => toString n, fun _ => ""⟩

/-- A table without keys has no indexes for them. -/
def noKeys : KeyOps Unit Unit where
  primary := ⟨fun _ _ => false, fun _ _ _ => ((), true), fun _ _ _ => (), fun _ => false⟩
  secondary := ⟨fun _ _ => false, fun _ _ _ => ((), true), fun _ _ _ => (), fun _ => false⟩
  primaryBatch := ⟨fun _ _ => ((), true), fun _ _ => (), fun _ => ()⟩
  secondaryBatch := ⟨fun _ _ => ((), true), fun _ _ => (), fun _ => ()⟩
  newPrimary := ()
  newSecondary _ _ := ()
  debugValues _ := ""

def documents : TableSchema where
  columns := [⟨"doc", .jsonb, true⟩]
  name := "documents"
  primaryKey := none
  indices := [⟨"doc_gin", ["doc"], false, .gin, none⟩]

def nullArray (id : RowId) : Row Scalar :=
  .new id [some (.jsonb ⟨Bytes.utf8Bytes "[null]"⟩)]

theorem documents_config :
    (RowStore.new noKeys documents).ginIndexConfigs["doc_gin"]? = some ⟨0, none⟩ := by
  rfl

theorem nullArray_yields (id : RowId) :
    RowYields sampleFormats ⟨0, none⟩ (nullArray id)
      (.key (appendGinPathSegment "" (toString 0))) := by
  have hparse : parseJsonbValue (some (.jsonb ⟨Bytes.utf8Bytes "[null]"⟩)) =
      some (.array [.null]) := by
    simp only [parseJsonbValue, jsonText, Bytes.ofUtf8?_utf8Bytes]
    exact Jsonb.parseJsonText_text (fun _ => rfl) (.array (.last .none .null .none)) _ (by decide)
  refine ⟨_, rfl, .key (appendGinPathSegment "" (toString 0)), ?_, rfl⟩
  simp [jsonbCalls, GinIndexConfig.compiledIndexedPaths, hparse, nodeCalls, indexJsonbNode,
    indexJsonbItems]

theorem rejects_nullArray : (RowStore.new noKeys documents).rejectsInsert
    (noKeys.withGin sampleFormats).toIndexOps (nullArray 1) = false := by
  decide

/-- The run of a row that gets another id before it is deleted. -/
theorem deleteBatch_leaves_posting :
    ∃ store, Run.run (RowStore.call sampleFormats noKeys) (.new noKeys documents)
        [.insert (nullArray 1), .update 1 (nullArray 2), .deleteBatch [1]] = some store ∧
      ¬PostsStoredRows sampleFormats (RowStore.new noKeys documents).ginIndexConfigs store := by
  have hnew := ginSound_new sampleFormats noKeys documents
  have hinserted := hnew.insert noKeys (nullArray 1)
  have hupdated := hinserted.update noKeys 1 (nullArray 2)
  have hrow : ((((RowStore.new noKeys documents).insert (noKeys.withGin sampleFormats).toIndexOps
      (nullArray 1)).1.update (noKeys.withGin sampleFormats).toIndexOps 1
        (nullArray 2)).1).slots.rowRefById 1 = some (nullArray 2) := rfl
  obtain ⟨store, hcall, hstale⟩ :=
    hupdated.deleteBatch_stale noKeys hrow (by decide) documents_config (nullArray_yields 2)
  exact ⟨store, congrArg (Option.bind · some) hcall, hstale⟩

/-- A batch that deletes rows under their own ids leaves nothing behind. -/
theorem run_posts_stored_rows_documents :
    ∃ store, Run.run (RowStore.call sampleFormats noKeys) (.new noKeys documents)
        [.insert (nullArray 1), .deleteBatch [1]] = some store ∧
      PostsStoredRows sampleFormats (RowStore.new noKeys documents).ginIndexConfigs store := by
  refine run_posts_stored_rows sampleFormats noKeys documents ⟨trivial, ?_, ?_⟩
  · intro rowId hrowId row hrow
    obtain rfl := List.mem_singleton.mp hrowId
    have hstored : ((RowStore.new noKeys documents).insert (noKeys.withGin sampleFormats).toIndexOps
        (nullArray 1)).1.slots.rowRefById 1 = some (nullArray 1) := rfl
    obtain rfl : nullArray 1 = row := Option.some.inj (hstored.symm.trans hrow)
    rfl
  · unfold Option.elim
    split
    · trivial
    · trivial

end Sample

end Cynos.Storage
