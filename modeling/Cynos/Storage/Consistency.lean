import Cynos.Storage.KeyCode
import Cynos.Storage.SlotRuns

/-! The indexes of a store list exactly the keys of its rows, along every run of calls on single
rows and of deletions in batches, refused or not. -/
namespace Cynos.Storage

open Core (Row Scalar Value)
open Index (GinIndex RowId)

section Loops

variable {C I E : Type} {visitor : String → C → I → I × Except E Unit}

theorem getElem?_insert_name (indices : Std.ExtTreeMap String I) (name other : String) (index : I) :
    (indices.insert name index)[other]? = if other = name then some index else indices[other]? := by
  rw [Std.ExtTreeMap.getElem?_insert]
  exact if_congr (Std.LawfulEqCmp.compare_eq_iff_eq.trans eq_comm) rfl rfl

/-- A loop that may stop leaves every index as it was or as its visit left it; when it does not
stop, all are visited. -/
theorem getElem?_tryForEachIndexMut {defs : List (String × C)} (hnames : (defs.map Prod.fst).Nodup)
    (indices : Std.ExtTreeMap String I) :
    (∀ name, (RowStore.tryForEachIndexMut visitor defs indices).1[name]? = indices[name]? ∨
      ∃ config, (name, config) ∈ defs ∧
        (RowStore.tryForEachIndexMut visitor defs indices).1[name]? =
          indices[name]?.map fun index => (visitor name config index).1) ∧
    ((RowStore.tryForEachIndexMut visitor defs indices).2 = .ok () → ∀ name config,
      (name, config) ∈ defs → (RowStore.tryForEachIndexMut visitor defs indices).1[name]? =
        indices[name]?.map fun index => (visitor name config index).1) := by
  induction defs generalizing indices with
  | nil => exact ⟨fun name => .inl rfl, fun _ name config hmem => by cases hmem⟩
  | cons definition defs ih =>
    obtain ⟨first, config⟩ := definition
    obtain ⟨hfirst, hnames⟩ := List.nodup_cons.mp hnames
    rw [RowStore.tryForEachIndexMut]
    cases hindex : indices[first]? with
    | none =>
      obtain ⟨hany, hall⟩ := ih hnames indices
      refine ⟨fun name => (hany name).imp_right fun hvisited => ?_, fun hok name other hmem => ?_⟩
      · obtain ⟨config, hmem, heq⟩ := hvisited
        exact ⟨config, List.mem_cons_of_mem _ hmem, heq⟩
      rcases List.mem_cons.mp hmem with heq | hmem
      · obtain ⟨rfl, rfl⟩ := Prod.mk.inj heq
        rcases hany name with hsame | ⟨other, hmem, -⟩
        · rw [hindex] at hsame ⊢
          exact hsame
        · exact absurd (List.mem_map_of_mem hmem) hfirst
      · exact hall hok name other hmem
    | some index =>
      dsimp only
      rcases hvisit : visitor first config index with ⟨visited, error | _⟩
      · refine ⟨fun name => ?_, fun hok => by cases hok⟩
        change (indices.insert first visited)[name]? = _ ∨ _
        rw [getElem?_insert_name]
        by_cases hname : name = first
        · subst hname
          refine .inr ⟨config, List.mem_cons_self, ?_⟩
          rw [if_pos rfl, hindex, Option.map_some, hvisit]
        · rw [if_neg hname]
          exact .inl rfl
      · obtain ⟨hany, hall⟩ := ih hnames (indices.insert first visited)
        have hfirstLeft : (RowStore.tryForEachIndexMut visitor defs
            (indices.insert first visited)).1[first]? = some visited := by
          rcases hany first with hsame | ⟨other, hmem, -⟩
          · rw [hsame, getElem?_insert_name, if_pos rfl]
          · exact absurd (List.mem_map_of_mem hmem) hfirst
        have hothers : ∀ {name other}, (name, other) ∈ defs →
            (indices.insert first visited)[name]? = indices[name]? := by
          intro name other hmem
          have hmem' : name ∈ defs.map Prod.fst := List.mem_map.mpr ⟨_, hmem, rfl⟩
          have hne : name ≠ first := ne_of_mem_of_not_mem hmem' hfirst
          rw [getElem?_insert_name, if_neg hne]
        refine ⟨fun name => ?_, fun hok name other hmem => ?_⟩
        · change (RowStore.tryForEachIndexMut visitor defs (indices.insert first visited)).1[name]? =
            _ ∨ _
          by_cases hname : name = first
          · subst hname
            refine .inr ⟨config, List.mem_cons_self, ?_⟩
            rw [hfirstLeft, hindex, Option.map_some, hvisit]
          · refine (hany name).imp (fun hsame => ?_) fun hvisited => ?_
            · rw [hsame, getElem?_insert_name, if_neg hname]
            · obtain ⟨other, hmem, heq⟩ := hvisited
              exact ⟨other, List.mem_cons_of_mem _ hmem, heq.trans (by rw [hothers hmem])⟩
        · rcases List.mem_cons.mp hmem with heq | hmem
          · obtain ⟨rfl, rfl⟩ := Prod.mk.inj heq
            change (RowStore.tryForEachIndexMut visitor defs
              (indices.insert name visited)).1[name]? = _
            rw [hfirstLeft, hindex, Option.map_some, hvisit]
          · refine (hall hok name other hmem).trans ?_
            rw [hothers hmem]

theorem rel_imp {α β : Type} {r q : α → β → Prop} (hrq : ∀ a b, r a b → q a b) {a : Option α}
    {b : Option β} (h : Option.Rel r a b) : Option.Rel q a b := by
  cases h with
  | some hab => exact .some (hrq _ _ hab)
  | none => exact .none

theorem rel_swap {α β : Type} {r : α → β → Prop} {a : Option α} {b : Option β}
    (h : Option.Rel r a b) : Option.Rel (fun b a => r a b) b a := by
  cases h with
  | some hab => exact .some hab
  | none => exact .none

theorem rel_get {α β : Type} {r : α → β → Prop} {a : α} {b : Option β}
    (h : Option.Rel r (some a) b) : ∃ b', b = some b' ∧ r a b' := by
  cases h with
  | some hab => exact ⟨_, rfl, hab⟩

/-- Every index stands beside the definition of its name. -/
def Beside (defs : Std.ExtTreeMap String C) (indices : Std.ExtTreeMap String I)
    (R : String → C → I → Prop) : Prop :=
  ∀ name : String, Option.Rel (R name) defs[name]? indices[name]?

variable {defs : Std.ExtTreeMap String C} {indices : Std.ExtTreeMap String I}
  {R Q : String → C → I → Prop}

theorem names_nodup (defs : Std.ExtTreeMap String C) : (defs.toList.map Prod.fst).Nodup := by
  rw [Std.ExtTreeMap.map_fst_toList_eq_keys]
  exact Std.ExtTreeMap.nodup_keys

theorem mem_defs {name : String} {config : C} :
    (name, config) ∈ defs.toList ↔ defs[name]? = some config :=
  Std.ExtTreeMap.mem_toList_iff_getElem?_eq_some

theorem Beside.imp (h : Beside defs indices R) (hRQ : ∀ name config index, R name config index →
    Q name config index) : Beside defs indices Q := fun name => rel_imp (hRQ name) (h name)

theorem Beside.get (h : Beside defs indices R) {name : String} {config : C}
    (hconfig : defs[name]? = some config) :
    ∃ index, indices[name]? = some index ∧ R name config index :=
  rel_get (hconfig ▸ h name)

theorem Beside.none (h : Beside defs indices R) {name : String} (hconfig : defs[name]? = none) :
    indices[name]? = none := by
  cases hindex : indices[name]? with
  | none => rfl
  | some index =>
    obtain ⟨config, hsome, -⟩ := rel_get (hindex ▸ rel_swap (h name))
    rw [hconfig] at hsome
    cases hsome

/-- From lookups alone. -/
theorem Beside.of_lookups {indices' : Std.ExtTreeMap String I} (h : Beside defs indices R)
    (hnone : ∀ name : String, defs[name]? = Option.none → indices'[name]? = indices[name]?)
    (hsome : ∀ (name : String) (config : C) (index : I), defs[name]? = some config → indices[name]? = some index →
      R name config index → ∃ index', indices'[name]? = some index' ∧ Q name config index') :
    Beside defs indices' Q := by
  intro name
  cases hconfig : defs[name]? with
  | none =>
    rw [hnone name hconfig, h.none hconfig]
    exact .none
  | some config =>
    obtain ⟨index, hindex, hR⟩ := h.get hconfig
    obtain ⟨index', hindex', hQ⟩ := hsome name config index hconfig hindex hR
    rw [hindex']
    exact .some hQ

/-- A loop over all definitions. -/
theorem Beside.forEach (h : Beside defs indices R) {visitor : String → C → I → I}
    (hvisit : ∀ name config index, R name config index → Q name config (visitor name config index)) :
    Beside defs (RowStore.forEachIndexMut visitor defs.toList indices) Q := by
  refine h.of_lookups (fun name hconfig => ?_) fun name config index hconfig hindex hR => ?_
  · refine getElem?_forEachIndexMut_of_not_mem _ _ fun hmem => ?_
    obtain ⟨definition, hdefinition, rfl⟩ := List.mem_map.mp hmem
    rw [mem_defs.mp hdefinition] at hconfig
    cases hconfig
  · refine ⟨visitor name config index, ?_, hvisit name config index hR⟩
    rw [getElem?_forEachIndexMut (names_nodup defs) indices (mem_defs.mpr hconfig), hindex]
    rfl

/-- One that may stop. -/
theorem Beside.tryForEach (h : Beside defs indices R)
    (hkeep : ∀ name config index, R name config index →
      Q name config index ∧ Q name config (visitor name config index).1) :
    Beside defs (RowStore.tryForEachIndexMut visitor defs.toList indices).1 Q := by
  obtain ⟨hany, -⟩ := @getElem?_tryForEachIndexMut C I E visitor _ (names_nodup defs) indices
  refine h.of_lookups (fun name hconfig => ?_) fun name config index hconfig hindex hR => ?_
  · rcases hany name with hsame | ⟨config, hmem, -⟩
    · exact hsame
    · rw [mem_defs.mp hmem] at hconfig
      cases hconfig
  · rcases hany name with hsame | ⟨other, hmem, heq⟩
    · exact ⟨index, hsame.trans hindex, (hkeep name config index hR).1⟩
    · obtain rfl : other = config := Option.some.inj ((mem_defs.mp hmem).symm.trans hconfig)
      exact ⟨_, heq.trans (by rw [hindex]; rfl), (hkeep name other index hR).2⟩

theorem Beside.tryForEach_ok (h : Beside defs indices R)
    (hok : (RowStore.tryForEachIndexMut visitor defs.toList indices).2 = .ok ())
    (hvisit : ∀ name config index, R name config index → (visitor name config index).2 = .ok () →
      Q name config (visitor name config index).1) :
    Beside defs (RowStore.tryForEachIndexMut visitor defs.toList indices).1 Q := by
  obtain ⟨hany, hall⟩ := @getElem?_tryForEachIndexMut C I E visitor _ (names_nodup defs) indices
  have heach := (RowStore.tryForEachIndexMut_eq_ok (names_nodup defs) indices).mp hok
  refine h.of_lookups (fun name hconfig => ?_) fun name config index hconfig hindex hR => ?_
  · rcases hany name with hsame | ⟨config, hmem, -⟩
    · exact hsame
    · rw [mem_defs.mp hmem] at hconfig
      cases hconfig
  · have hmem := mem_defs.mpr hconfig
    exact ⟨_, (hall hok name config hmem).trans (by rw [hindex]; rfl),
      hvisit name config index hR (heach _ hmem index hindex)⟩

end Loops

section Keys

variable {κ : Type} (keyOf : IndexKey Scalar → κ) {slots : RowSlots Scalar} {cols : List Nat}

/-- The pairs that an index over some columns lists. -/
def RowKeys (slots : RowSlots Scalar) (cols : List Nat) (k : κ) (r : RowId) : Prop :=
  ∃ row, slots.rowRefById r = some row ∧ keyOf (extractKey row cols) = k

variable {keyOf}

theorem rowKeys_put {slots' : RowSlots Scalar} {id : RowId} {row : Row Scalar}
    (h : ∀ r, slots'.rowRefById r = if r = id then some row else slots.rowRefById r) (k : κ)
    (r : RowId) : RowKeys keyOf slots' cols k r ↔
      (r ≠ id ∧ RowKeys keyOf slots cols k r) ∨ k = keyOf (extractKey row cols) ∧ r = id := by
  unfold RowKeys
  rw [h]
  by_cases hr : r = id
  · simp [hr, eq_comm]
  · simp [hr]

theorem rowKeys_gone {id : RowId} (h : slots.rowRefById id = none) (k : κ) :
    ¬RowKeys keyOf slots cols k id := by
  rintro ⟨row, hrow, -⟩
  rw [h] at hrow
  cases hrow

theorem rowKeys_stored {id : RowId} {row : Row Scalar} (h : slots.rowRefById id = some row) (k : κ) :
    RowKeys keyOf slots cols k id ↔ keyOf (extractKey row cols) = k := by
  simp [RowKeys, h]

end Keys

section Consistent

variable {P S κ : Type} [LinearOrder κ] {keys : KeyOps P S} {keyOf : IndexKey Scalar → κ}
  {Ok : IndexKey Scalar → Prop}

def RowOk (Ok : IndexKey Scalar → Prop) (row : Row Scalar) : Prop := ∀ cols, Ok (extractKey row cols)

/-- The indexes over the columns `cols` list the pairs of `R cols`. -/
structure IndexesList (laws : KeyLaws keys keyOf Ok) (unique : String → Bool)
    (store : GinStore P S) (R : List Nat → κ → RowId → Prop) : Prop where
  keyed : ∀ index, store.primaryIndex = some index → store.pkColumns.isEmpty = false
  primary : ∀ index, store.primaryIndex = some index →
    Listing laws.primary true (R store.pkColumns) index
  secondary : Beside store.indexColumns store.secondaryIndices fun name cols =>
    Listing laws.secondary (unique name) (R cols)

/-- The indexes list the keys of the stored rows, each of which has the id it is stored under. -/
structure Consistent (laws : KeyLaws keys keyOf Ok) (unique : String → Bool)
    (store : GinStore P S) : Prop where
  valid : store.slots.Valid
  named : ∀ rowId row, store.slots.rowRefById rowId = some row → row.id = rowId ∧ RowOk Ok row
  lists : IndexesList laws unique store (RowKeys keyOf store.slots)

variable {laws : KeyLaws keys keyOf Ok} {unique : String → Bool} {store : GinStore P S}
  (formats : JsonbFormats)

theorem IndexesList.congr {R Q : List Nat → κ → RowId → Prop} (h : IndexesList laws unique store R)
    (hRQ : ∀ cols k r, R cols k r ↔ Q cols k r) : IndexesList laws unique store Q where
  keyed := h.keyed
  primary index hindex := (h.primary index hindex).congr (hRQ _)
  secondary := h.secondary.imp fun _ cols _ hlisting => hlisting.congr (hRQ cols)

section Additions

variable {R : List Nat → κ → RowId → Prop} {row : Row Scalar}

/-- The pairs with those of one row more. -/
def WithRow (keyOf : IndexKey Scalar → κ) (R : List Nat → κ → RowId → Prop) (row : Row Scalar)
    (cols : List Nat) (k : κ) (r : RowId) : Prop :=
  R cols k r ∨ k = keyOf (extractKey row cols) ∧ r = row.id

/-- A pair has the primary key of the row. -/
def PrimaryHas (keyOf : IndexKey Scalar → κ) (store : GinStore P S)
    (R : List Nat → κ → RowId → Prop) (row : Row Scalar) : Prop :=
  store.primaryIndex.isSome ∧
    ∃ id, R store.pkColumns (keyOf (extractKey row store.pkColumns)) id

/-- A pair has a key of the row in a unique index. -/
def SecondaryHas (keyOf : IndexKey Scalar → κ) (unique : String → Bool) (store : GinStore P S)
    (R : List Nat → κ → RowId → Prop) (row : Row Scalar) : Prop :=
  ∃ (name : String) (cols : List Nat), store.indexColumns[name]? = some cols ∧
    unique name = true ∧ ∃ id, R cols (keyOf (extractKey row cols)) id

theorem IndexesList.primaryTaken_iff (h : IndexesList laws unique store R) :
    store.primaryTaken (keys.withGin formats).toIndexOps row = true ↔
      PrimaryHas keyOf store R row := by
  unfold RowStore.primaryTaken PrimaryHas
  cases hindex : store.primaryIndex with
  | none => simp
  | some index =>
    rw [h.keyed index hindex]
    exact ((h.primary index hindex).contains_iff _).trans (by simp)

theorem IndexesList.addPrimary (h : IndexesList laws unique store R)
    (hfresh : ∀ cols k, ¬R cols k row.id) (hfree : ¬PrimaryHas keyOf store R row) :
    ∃ primaryIndex, store.addPrimary (keys.withGin formats).toIndexOps row = (primaryIndex, true) ∧
      primaryIndex.isSome = store.primaryIndex.isSome ∧
      (∀ index, primaryIndex = some index →
        Listing laws.primary true (WithRow keyOf R row store.pkColumns) index) ∧
      ∀ index, primaryIndex = some index → Listing laws.primary true (R store.pkColumns)
        (keys.primary.removeIndexKey index (extractKey row store.pkColumns) row.id) := by
  unfold RowStore.addPrimary
  cases hindex : store.primaryIndex with
  | none => exact ⟨none, rfl, rfl, nofun, nofun⟩
  | some index =>
    have hlisting := h.primary index hindex
    have hadded : (keys.primary.addIndexKey index (extractKey row store.pkColumns) row.id).2 =
        true := by
      rw [hlisting.added_iff]
      rintro ⟨-, hother⟩
      exact hfree ⟨by rw [hindex]; rfl, hother⟩
    refine ⟨some (keys.primary.addIndexKey index (extractKey row store.pkColumns) row.id).1,
      ?_, rfl, fun index' heq => ?_, fun index' heq => ?_⟩
    · rw [h.keyed index hindex]
      exact Prod.ext rfl hadded
    · obtain rfl := Option.some.inj heq
      refine (hlisting.add (hfresh _ _)).congr fun k r => ?_
      rw [hadded]
      simp [WithRow]
    · obtain rfl := Option.some.inj heq
      exact hlisting.add_remove (hfresh _) _

/-- What the visit of one index by `addSecondary` does. -/
theorem IndexesList.addSecondary_iff (h : IndexesList laws unique store R) :
    (store.addSecondary (keys.withGin formats).toIndexOps row.id row).2 = .ok () ↔
      ¬SecondaryHas keyOf unique store R row := by
  rw [RowStore.addSecondary_eq_ok, List.any_eq_false]
  have hrefuses : ∀ {name : String} {cols : List Nat} (hcols : store.indexColumns[name]? = some cols),
      (store.secondaryIndices[name]?.any fun index =>
        !(keys.secondary.addIndexKey index (extractKey row cols) row.id).2) = true ↔
        unique name = true ∧ ∃ id, R cols (keyOf (extractKey row cols)) id := by
    intro name cols hcols
    obtain ⟨index, hindex, hlisting⟩ := h.secondary.get hcols
    rw [hindex, Option.any_some, Bool.not_eq_true', Bool.eq_false_iff, ne_eq, hlisting.added_iff,
      not_not]
  constructor
  · rintro hall ⟨name, cols, hcols, hunique, hother⟩
    exact hall (name, cols) (mem_defs.mpr hcols) ((hrefuses hcols).mpr ⟨hunique, hother⟩)
  · rintro hnone ⟨name, cols⟩ hmem hany
    exact hnone ⟨name, cols, mem_defs.mp hmem, (hrefuses (mem_defs.mp hmem)).mp hany⟩

theorem IndexesList.addSecondary (h : IndexesList laws unique store R)
    (hfresh : ∀ cols k, ¬R cols k row.id)
    (hok : (store.addSecondary (keys.withGin formats).toIndexOps row.id row).2 = .ok ()) :
    Beside store.indexColumns
      (store.addSecondary (keys.withGin formats).toIndexOps row.id row).1 fun name cols =>
        Listing laws.secondary (unique name) (WithRow keyOf R row cols) := by
  refine h.secondary.tryForEach_ok hok fun name cols index hlisting hvisit => ?_
  refine (hlisting.add (hfresh _ _)).congr fun k r => ?_
  have hadded : (keys.secondary.addIndexKey index (extractKey row cols) row.id).2 = true := by
    by_contra hnot
    rw [Bool.not_eq_true] at hnot
    dsimp only at hvisit
    change (if (keys.secondary.addIndexKey index (extractKey row cols) row.id).2 = true then _
      else _) = _ at hvisit
    rw [hnot] at hvisit
    cases hvisit
  rw [hadded]
  simp [WithRow]

/-- Wherever it stopped, the row's keys can be taken out again. -/
theorem IndexesList.addSecondary_undone (h : IndexesList laws unique store R)
    (hfresh : ∀ cols k, ¬R cols k row.id) {store' : GinStore P S}
    (hcolumns : store'.indexColumns = store.indexColumns)
    (hindices : store'.secondaryIndices =
      (store.addSecondary (keys.withGin formats).toIndexOps row.id row).1) :
    Beside store.indexColumns
      (store'.removeSecondary (keys.withGin formats).toIndexOps row.id row) fun name cols =>
        Listing laws.secondary (unique name) (R cols) := by
  rw [RowStore.removeSecondary, hcolumns, hindices]
  have hpartial : Beside store.indexColumns
      (store.addSecondary (keys.withGin formats).toIndexOps row.id row).1 fun name cols index =>
        Listing laws.secondary (unique name) (R cols)
          (keys.secondary.removeIndexKey index (extractKey row cols) row.id) :=
    h.secondary.tryForEach fun name cols index hlisting =>
      ⟨hlisting.remove_absent (hfresh _) _, hlisting.add_remove (hfresh _) _⟩
  exact hpartial.forEach fun name cols index hlisting => hlisting

end Additions

/-- The keys that the indexes are over. -/
structure SameKeys (store store' : GinStore P S) : Prop where
  primary : store'.primaryIndex.isSome = store.primaryIndex.isSome
  pkColumns : store'.pkColumns = store.pkColumns
  indexColumns : store'.indexColumns = store.indexColumns

theorem SameKeys.refl (store : GinStore P S) : SameKeys store store := ⟨rfl, rfl, rfl⟩

theorem SameKeys.trans {first second third : GinStore P S} (h : SameKeys first second)
    (h' : SameKeys second third) : SameKeys first third :=
  ⟨h'.primary.trans h.primary, h'.pkColumns.trans h.pkColumns,
    h'.indexColumns.trans h.indexColumns⟩

theorem SameKeys.symm {first second : GinStore P S} (h : SameKeys first second) :
    SameKeys second first := ⟨h.primary.symm, h.pkColumns.symm, h.indexColumns.symm⟩

structure UniqueKeys (unique : String → Bool) (store : GinStore P S) : Prop where
  primary : store.primaryIndex.isSome → ∀ {rowId rowId' : RowId} {row row' : Row Scalar},
    store.slots.rowRefById rowId = some row → store.slots.rowRefById rowId' = some row' →
      (extractKey row store.pkColumns).eq (extractKey row' store.pkColumns) = true → rowId = rowId'
  secondary : ∀ {name : String} {cols : List Nat}, store.indexColumns[name]? = some cols →
    unique name = true → ∀ {rowId rowId' : RowId} {row row' : Row Scalar},
      store.slots.rowRefById rowId = some row → store.slots.rowRefById rowId' = some row' →
        (extractKey row cols).eq (extractKey row' cols) = true → rowId = rowId'

namespace Consistent

/-- No two stored rows share the primary key, or a key of a unique index. -/
theorem keys_unique (h : Consistent laws unique store) : UniqueKeys unique store := by
  have hkey : ∀ {rowId row cols}, store.slots.rowRefById rowId = some row →
      Ok (extractKey row cols) := fun hrow => (h.named _ _ hrow).2 _
  refine ⟨fun hsome rowId rowId' row row' hrow hrow' heq => ?_,
    fun hcols hunique rowId rowId' row row' hrow hrow' heq => ?_⟩
  · obtain ⟨index, hindex⟩ := Option.isSome_iff_exists.mp hsome
    rw [laws.eq_iff (hkey hrow) (hkey hrow')] at heq
    exact (h.lists.primary index hindex).single ⟨_, hrow, heq⟩ ⟨_, hrow', rfl⟩
  · obtain ⟨index, -, hlisting⟩ := h.lists.secondary.get hcols
    rw [hunique] at hlisting
    rw [laws.eq_iff (hkey hrow) (hkey hrow')] at heq
    exact hlisting.single ⟨_, hrow, heq⟩ ⟨_, hrow', rfl⟩

section Insert

variable {row : Row Scalar}

/-- Another row with its id or one of its unique keys is stored. -/
def Taken (keyOf : IndexKey Scalar → κ) (unique : String → Bool) (store : GinStore P S)
    (row : Row Scalar) : Prop :=
  (∃ other, store.slots.rowRefById row.id = some other) ∨
    PrimaryHas keyOf store (RowKeys keyOf store.slots) row ∨
    SecondaryHas keyOf unique store (RowKeys keyOf store.slots) row

theorem stored_iff (h : Consistent laws unique store) (row : Row Scalar) :
    row.id ∈ store.slots.rows ↔ ∃ other, store.slots.rowRefById row.id = some other := by
  rw [← Option.ne_none_iff_exists', ne_eq, h.valid.rowRefById_eq_none]
  simp

theorem fresh (h : Consistent laws unique store) (hid : row.id ∉ store.slots.rows)
    (cols : List Nat) (k : κ) : ¬RowKeys keyOf store.slots cols k row.id :=
  rowKeys_gone (h.valid.rowRefById_eq_none.mpr (by simpa using hid)) k

/-- A row that comes into the slots and the indexes. -/
theorem put (h : Consistent laws unique store) (hok : RowOk Ok row)
    (hid : row.id ∉ store.slots.rows) {store' : GinStore P S}
    (hslots : store'.slots = store.slots.insertRowSlot row.id row)
    (hlists : IndexesList laws unique store' (WithRow keyOf (RowKeys keyOf store.slots) row)) :
    Consistent laws unique store' := by
  have hnone : store.slots.rows[row.id]? = none := by simpa using hid
  have hlookup := RowSlots.rowRefById_insertRowSlot h.valid hnone row
  rw [← hslots] at hlookup
  refine ⟨hslots ▸ h.valid.insertRowSlot hnone row, fun rowId other hother => ?_,
    hlists.congr fun cols k r => ?_⟩
  · rw [hlookup] at hother
    split at hother
    next heq =>
      obtain rfl := Option.some.inj hother
      exact ⟨heq.symm, hok⟩
    next => exact h.named rowId other hother
  · rw [rowKeys_put hlookup, WithRow]
    refine or_congr_left (and_iff_right_of_imp ?_).symm
    rintro hkey rfl
    exact h.fresh hid cols k hkey

/-- A row is refused exactly when its id or one of its unique keys is taken; then nothing that
is stored changes. -/
theorem insert (h : Consistent laws unique store) (hok : RowOk Ok row) :
    ∃ store' result, store.insert (keys.withGin formats).toIndexOps row = (store', result) ∧
      Consistent laws unique store' ∧ SameKeys store store' ∧
      (Taken keyOf unique store row ∧ (∃ error, result = .error error) ∧
          store'.slots = store.slots ∨
        ¬Taken keyOf unique store row ∧ result = .ok row.id ∧
          store'.slots = store.slots.insertRowSlot row.id row) := by
  unfold RowStore.insert
  by_cases hid : row.id ∈ store.slots.rows
  · rw [if_pos hid]
    exact ⟨_, _, rfl, h, .refl store, .inl ⟨.inl ((h.stored_iff row).mp hid), ⟨_, rfl⟩, rfl⟩⟩
  have hgone := mt (h.stored_iff row).mpr hid
  rw [if_neg hid]
  by_cases htaken : store.primaryTaken (keys.withGin formats).toIndexOps row = true
  · rw [if_pos htaken]
    exact ⟨_, _, rfl, h, .refl store,
      .inl ⟨.inr (.inl ((h.lists.primaryTaken_iff formats).mp htaken)), ⟨_, rfl⟩, rfl⟩⟩
  rw [if_neg htaken]
  have hfree := mt (h.lists.primaryTaken_iff formats).mpr htaken
  obtain ⟨primaryIndex, hprimary, hsome, hadded, hundone⟩ :=
    h.lists.addPrimary formats (h.fresh hid) hfree
  have hkeyed : ∀ index, primaryIndex = some index → store.pkColumns.isEmpty = false := by
    intro index hindex
    rw [hindex, Option.isSome_some] at hsome
    obtain ⟨index', hindex'⟩ := Option.isSome_iff_exists.mp hsome.symm
    exact h.lists.keyed index' hindex'
  have hsecondary : (store.addSecondary (keys.withGin formats).toIndexOps row.id row).2 = .ok () ↔
      _ := h.lists.addSecondary_iff formats
  rw [hprimary]
  dsimp only
  rw [show ({ store with primaryIndex := primaryIndex } : GinStore P S).addSecondary
    (keys.withGin formats).toIndexOps row.id row =
      store.addSecondary (keys.withGin formats).toIndexOps row.id row from rfl]
  rcases haddSecondary : store.addSecondary (keys.withGin formats).toIndexOps row.id row with
    ⟨secondaryIndices, error | _⟩
  · have hhas : SecondaryHas keyOf unique store (RowKeys keyOf store.slots) row := by
      by_contra hnot
      rw [← hsecondary, haddSecondary] at hnot
      cases hnot
    refine ⟨_, _, rfl, ⟨h.valid, h.named, fun index hindex => ?_, fun index hindex => ?_, ?_⟩,
      ⟨?_, rfl, rfl⟩, .inl ⟨.inr (.inr hhas), ⟨_, rfl⟩, rfl⟩⟩
    · obtain ⟨added, hsomeAdded, -⟩ := Option.map_eq_some_iff.mp hindex
      exact hkeyed added hsomeAdded
    · obtain ⟨added, hsomeAdded, rfl⟩ := Option.map_eq_some_iff.mp hindex
      exact hundone added hsomeAdded
    · exact h.lists.addSecondary_undone formats (h.fresh hid) rfl (by rw [haddSecondary])
    · exact Option.isSome_map.trans hsome
  · have hok' : (store.addSecondary (keys.withGin formats).toIndexOps row.id row).2 = .ok () := by
      rw [haddSecondary]
    have hlisted := h.lists.addSecondary formats (h.fresh hid) hok'
    rw [haddSecondary] at hlisted
    exact ⟨_, _, rfl, h.put hok hid rfl ⟨hkeyed, hadded, hlisted⟩, ⟨hsome, rfl, rfl⟩,
      .inr ⟨not_or.mpr ⟨hgone, not_or.mpr ⟨hfree, hsecondary.mp hok'⟩⟩, rfl, rfl⟩⟩

end Insert

section Update

variable {rowId : RowId} {oldRow newRow : Row Scalar} {slots' : RowSlots Scalar}

/-- One index over the columns of a row that changes. -/
theorem rekeyed {I : Type} {indexStore : IndexStore I} {batch : BatchStore I}
    {indexLaws : IndexLaws indexStore batch keyOf} {single : Bool} {cols : List Nat} {index : I}
    (h : Listing indexLaws single (RowKeys keyOf store.slots cols) index)
    (hrow : store.slots.rowRefById rowId = some oldRow)
    (hlookup : ∀ r, slots'.rowRefById r =
      if r = rowId then some newRow else store.slots.rowRefById r)
    (heq : (extractKey oldRow cols).eq (extractKey newRow cols) = true ↔
      keyOf (extractKey oldRow cols) = keyOf (extractKey newRow cols))
    (hfree : (extractKey oldRow cols).eq (extractKey newRow cols) = false →
      ¬(single = true ∧ ∃ other, RowKeys keyOf store.slots cols (keyOf (extractKey newRow cols)) other)) :
    Listing indexLaws single (RowKeys keyOf slots' cols)
      (if (extractKey oldRow cols).eq (extractKey newRow cols) then index
        else (indexStore.addIndexKey
          (indexStore.removeIndexKey index (extractKey oldRow cols) rowId)
          (extractKey newRow cols) rowId).1) := by
  have hmine : ∀ k, RowKeys keyOf store.slots cols k rowId ↔ k = keyOf (extractKey oldRow cols) :=
    fun k => (rowKeys_stored hrow k).trans eq_comm
  split
  next hsame =>
    rw [heq] at hsame
    refine h.congr fun k r => ?_
    rw [rowKeys_put hlookup]
    by_cases hr : r = rowId
    · subst hr
      simp [hmine, hsame]
    · simp [hr]
  next hdiffer =>
    refine (h.move hmine (mt heq.mpr hdiffer) (hfree (by simpa using hdiffer))).congr fun k r => ?_
    rw [rowKeys_put hlookup]

/-- A change that the check lets through leaves the changed keys of unique indexes free. -/
theorem free_of_updateConflict (h : Consistent laws unique store)
    (hconflict : store.updateConflict (keys.withGin formats).toIndexOps oldRow newRow = none) :
    (∀ index, store.primaryIndex = some index →
      (extractKey oldRow store.pkColumns).eq (extractKey newRow store.pkColumns) = false →
        ¬∃ other, RowKeys keyOf store.slots store.pkColumns
          (keyOf (extractKey newRow store.pkColumns)) other) ∧
    ∀ (name : String) (cols : List Nat), store.indexColumns[name]? = some cols →
      (extractKey oldRow cols).eq (extractKey newRow cols) = false →
        ¬(unique name = true ∧
          ∃ other, RowKeys keyOf store.slots cols (keyOf (extractKey newRow cols)) other) := by
  unfold RowStore.updateConflict at hconflict
  dsimp only at hconflict
  split at hconflict
  · cases hconflict
  next hprimary =>
    refine ⟨fun index hindex hdiffer hother => hprimary ?_, fun name cols hcols hdiffer hother => ?_⟩
    · rw [h.lists.keyed index hindex, hindex]
      have hcontains := ((h.lists.primary index hindex).contains_iff _).mpr hother
      change (true && (!IndexKey.eq _ _ && keys.primary.containsIndexKey _ _)) = true
      rw [hdiffer, hcontains]
      rfl
    · obtain ⟨index, hindex, hlisting⟩ := h.lists.secondary.get hcols
      have hnone := List.findSome?_eq_none_iff.mp hconflict (name, cols) (mem_defs.mpr hcols)
      dsimp only at hnone
      rw [hindex] at hnone
      have hcontains := (hlisting.contains_iff _).mpr hother.2
      have hunique := hlisting.storeUnique.trans hother.1
      change (if (keys.secondary.isUnique index && !IndexKey.eq _ _ &&
        keys.secondary.containsIndexKey _ _) = true then _ else _) = none at hnone
      rw [hdiffer, hcontains, hunique] at hnone
      cases hnone

theorem update (h : Consistent laws unique store) (hok : RowOk Ok newRow)
    (hid : newRow.id = rowId) :
    ∃ store' result, store.update (keys.withGin formats).toIndexOps rowId newRow =
        (store', result) ∧ Consistent laws unique store' ∧ SameKeys store store' ∧
      ((∃ error, result = .error error) ∧ store' = store ∨
        result = .ok () ∧ (∃ oldRow, store.slots.rowRefById rowId = some oldRow) ∧
          store'.slots = store.slots.replaceRowSlot rowId newRow) := by
  unfold RowStore.update
  cases hrow : store.slots.rowRefById rowId with
  | none => exact ⟨_, _, rfl, h, .refl store, .inl ⟨⟨_, rfl⟩, rfl⟩⟩
  | some oldRow =>
    dsimp only
    cases hconflict : store.updateConflict (keys.withGin formats).toIndexOps oldRow newRow with
    | some error => exact ⟨_, _, rfl, h, .refl store, .inl ⟨⟨_, rfl⟩, rfl⟩⟩
    | none =>
      obtain ⟨hprimary, hsecondary⟩ := h.free_of_updateConflict formats hconflict
      have hold := (h.named rowId oldRow hrow).2
      have hlookup : ∀ r, (store.slots.replaceRowSlot rowId newRow).rowRefById r = _ :=
        RowSlots.rowRefById_replaceRowSlot h.valid newRow
      rw [hrow, Option.map_some] at hlookup
      have hlists : IndexesList laws unique
          { store with
            primaryIndex :=
              store.updatePrimary (keys.withGin formats).toIndexOps rowId oldRow newRow
            secondaryIndices :=
              store.updateSecondary (keys.withGin formats).toIndexOps rowId oldRow newRow }
          (RowKeys keyOf (store.slots.replaceRowSlot rowId newRow)) := by
        have hpart : ∀ index, store.updatePrimary (keys.withGin formats).toIndexOps rowId oldRow
            newRow = some index → ∃ old, store.primaryIndex = some old ∧
              index = if (extractKey oldRow store.pkColumns).eq (extractKey newRow store.pkColumns)
                then old else (keys.primary.addIndexKey (keys.primary.removeIndexKey old
                  (extractKey oldRow store.pkColumns) rowId)
                  (extractKey newRow store.pkColumns) rowId).1 := by
          intro index hindex
          unfold RowStore.updatePrimary at hindex
          cases hstored : store.primaryIndex with
          | none => simp [hstored] at hindex
          | some old =>
            rw [h.lists.keyed old hstored, hstored] at hindex
            exact ⟨old, rfl, (Option.some.inj hindex).symm⟩
        refine ⟨fun index hindex => ?_, fun index hindex => ?_, ?_⟩
        · obtain ⟨old, hstored, -⟩ := hpart index hindex
          exact h.lists.keyed old hstored
        · obtain ⟨old, hstored, rfl⟩ := hpart index hindex
          exact rekeyed (h.lists.primary old hstored) hrow hlookup
            (laws.eq_iff (hold _) (hok _)) fun hdiffer hother =>
              hprimary old hstored hdiffer hother.2
        · refine h.lists.secondary.of_lookups (fun name hcols => ?_)
            fun name cols index hcols hindex hlisting => ?_
          · refine getElem?_forEachIndexMut_of_not_mem _ _ fun hmem => ?_
            obtain ⟨definition, hdefinition, rfl⟩ := List.mem_map.mp hmem
            rw [mem_defs.mp hdefinition] at hcols
            cases hcols
          · refine ⟨_, ?_, rekeyed hlisting hrow hlookup (laws.eq_iff (hold _) (hok _))
              (hsecondary name cols hcols)⟩
            change (RowStore.forEachIndexMut _ _ _)[name]? = _
            rw [getElem?_forEachIndexMut (names_nodup _) _ (mem_defs.mpr hcols), hindex]
            rfl
      refine ⟨_, _, rfl, ⟨h.valid.replaceRowSlot newRow, fun r other hother => ?_,
        ⟨hlists.keyed, hlists.primary, hlists.secondary⟩⟩, ⟨?_, rfl, rfl⟩,
        .inr ⟨rfl, ⟨oldRow, rfl⟩, rfl⟩⟩
      · change (store.slots.replaceRowSlot rowId newRow).rowRefById r = some other at hother
        rw [hlookup] at hother
        split at hother
        next heq =>
          obtain rfl := Option.some.inj hother
          exact ⟨hid.trans heq.symm, hok⟩
        next => exact h.named r other hother
      · change (store.updatePrimary _ rowId oldRow newRow).isSome = store.primaryIndex.isSome
        unfold RowStore.updatePrimary
        split
        · rfl
        · exact Option.isSome_map

end Update

section Delete

variable {slots' : RowSlots Scalar}

omit [LinearOrder κ] in
theorem mem_entriesOf {rows : List (Row Scalar)} {cols : List Nat} {k : κ} {r : RowId} :
    (k, r) ∈ coded keyOf (entriesOf rows cols) ↔
      ∃ row ∈ rows, keyOf (extractKey row cols) = k ∧ row.id = r := by
  simp [coded, entriesOf, List.mem_map, Prod.ext_iff]

/-- The pairs that are left behind the removal of some rows. -/
theorem rowKeys_removed (h : Consistent laws unique store) {rowIds : List RowId}
    {removed : List (Row Scalar)}
    (hlookup : ∀ id, slots'.rowRefById id =
      if id ∈ rowIds then none else store.slots.rowRefById id)
    (hremoved : ∀ row, row ∈ removed ↔ ∃ id ∈ rowIds, store.slots.rowRefById id = some row)
    (cols : List Nat) (k : κ) (r : RowId) : RowKeys keyOf slots' cols k r ↔
      RowKeys keyOf store.slots cols k r ∧ (k, r) ∉ coded keyOf (entriesOf removed cols) := by
  rw [mem_entriesOf]
  unfold RowKeys
  rw [hlookup]
  by_cases hmem : r ∈ rowIds
  · rw [if_pos hmem]
    refine iff_of_false (by simp) ?_
    rintro ⟨⟨row, hrow, hkey⟩, hnot⟩
    exact hnot ⟨row, (hremoved row).mpr ⟨r, hmem, hrow⟩, hkey, (h.named r row hrow).1⟩
  · rw [if_neg hmem]
    refine (and_iff_left ?_).symm
    rintro ⟨row, hrow, -, hid⟩
    obtain ⟨id, hid', hstored⟩ := (hremoved row).mp hrow
    rw [← hid, (h.named id row hstored).1] at hmem
    exact hmem hid'

theorem named_removed (h : Consistent laws unique store) {rowIds : List RowId}
    (hlookup : ∀ id, slots'.rowRefById id =
      if id ∈ rowIds then none else store.slots.rowRefById id) (rowId : RowId) (row : Row Scalar)
    (hrow : slots'.rowRefById rowId = some row) : row.id = rowId ∧ RowOk Ok row := by
  rw [hlookup] at hrow
  split at hrow
  · cases hrow
  · exact h.named rowId row hrow

/-- Rows are removed, and what they had in the indexes. -/
theorem take (h : Consistent laws unique store) {rowIds : List RowId} {removed : List (Row Scalar)}
    (hvalid : slots'.Valid)
    (hlookup : ∀ id, slots'.rowRefById id =
      if id ∈ rowIds then none else store.slots.rowRefById id)
    (hremoved : ∀ row, row ∈ removed ↔ ∃ id ∈ rowIds, store.slots.rowRefById id = some row)
    {store' : GinStore P S} (hslots : store'.slots = slots') (hkeys : SameKeys store store')
    (hprimary : ∀ index, store'.primaryIndex = some index →
      Listing laws.primary true (fun k r => RowKeys keyOf store.slots store.pkColumns k r ∧
        (k, r) ∉ coded keyOf (entriesOf removed store.pkColumns)) index)
    (hsecondary : Beside store.indexColumns store'.secondaryIndices fun name cols =>
      Listing laws.secondary (unique name) fun k r => RowKeys keyOf store.slots cols k r ∧
        (k, r) ∉ coded keyOf (entriesOf removed cols)) :
    Consistent laws unique store' := by
  have hleft := h.rowKeys_removed hlookup hremoved
  refine ⟨hslots ▸ hvalid, fun rowId row hrow => h.named_removed hlookup rowId row (hslots ▸ hrow),
    fun index hindex => ?_, fun index hindex => ?_, ?_⟩
  · have hsome := hkeys.primary
    rw [hindex, Option.isSome_some] at hsome
    obtain ⟨index', hindex'⟩ := Option.isSome_iff_exists.mp hsome.symm
    exact hkeys.pkColumns ▸ h.lists.keyed index' hindex'
  · rw [hkeys.pkColumns, hslots]
    exact (hprimary index hindex).congr fun k r => (hleft _ k r).symm
  · rw [hkeys.indexColumns, hslots]
    exact hsecondary.imp fun name cols index hlisting =>
      hlisting.congr fun k r => (hleft _ k r).symm

theorem delete (h : Consistent laws unique store) (rowId : RowId) :
    ∃ store' result, store.delete (keys.withGin formats).toIndexOps rowId =
        some (store', result) ∧ Consistent laws unique store' ∧ SameKeys store store' ∧
      ∀ id, store'.slots.rowRefById id =
        if id = rowId then none else store.slots.rowRefById id := by
  unfold RowStore.delete
  cases hrow : store.slots.rows[rowId]? with
  | none =>
    have hgone := h.valid.rowRefById_eq_none.mpr hrow
    have hremove : store.slots.removeRowSlot rowId = some (store.slots, none) := by
      unfold RowSlots.removeRowSlot
      rw [hrow]
    rw [hremove]
    refine ⟨_, _, rfl, h, .refl store, fun id => ?_⟩
    split
    next heq => rw [heq, hgone]
    next => rfl
  | some slotIdx =>
    obtain ⟨slots', row, hremove, hvalid, hstored, hlookup⟩ := h.valid.removeRowSlot hrow
    have hid := (h.named rowId row hstored).1
    have hone : ∀ cols k r, (k, r) ∈ coded keyOf (entriesOf [row] cols) ↔
        k = keyOf (extractKey row cols) ∧ r = rowId := by
      intro cols k r
      rw [mem_entriesOf]
      simp [hid, eq_comm]
    have hprimary : ∀ index, (if store.pkColumns.isEmpty then store.primaryIndex
        else store.primaryIndex.map fun index => keys.primary.removeIndexKey index
          (extractKey row store.pkColumns) rowId) = some index →
        Listing laws.primary true (fun k r => RowKeys keyOf store.slots store.pkColumns k r ∧
          (k, r) ∉ coded keyOf (entriesOf [row] store.pkColumns)) index := by
      intro index hindex
      cases hold : store.primaryIndex with
      | none => simp [hold] at hindex
      | some old =>
        rw [h.lists.keyed old hold, hold] at hindex
        obtain rfl := Option.some.inj hindex
        refine ((h.lists.primary old hold).remove _ rowId).congr fun k r => ?_
        rw [hone]
    have hlookup' : ∀ id, slots'.rowRefById id =
        if id ∈ [rowId] then none else store.slots.rowRefById id := by simpa using hlookup
    have hremoved : ∀ other, other ∈ [row] ↔
        ∃ id ∈ [rowId], store.slots.rowRefById id = some other := fun other => by
      simp [hstored, eq_comm]
    rw [hremove]
    refine ⟨_, _, rfl, h.take hvalid hlookup' hremoved rfl ⟨?_, rfl, rfl⟩ hprimary ?_,
      ⟨?_, rfl, rfl⟩, hlookup⟩
    · dsimp only
      split
      · rfl
      · exact Option.isSome_map
    · refine h.lists.secondary.forEach fun name cols index hlisting => ?_
      refine (hlisting.remove _ rowId).congr fun k r => ?_
      rw [hone]
    · dsimp only
      split
      · rfl
      · exact Option.isSome_map

theorem deleteBatch (h : Consistent laws unique store) (rowIds : List RowId) :
    ∃ store' removed, store.deleteBatch (keys.withGin formats) rowIds = some (store', removed) ∧
      Consistent laws unique store' ∧ SameKeys store store' ∧
      ∀ id, store'.slots.rowRefById id =
        if id ∈ rowIds then none else store.slots.rowRefById id := by
  obtain ⟨slots', removed, hremove, hvalid, hlookup, hremoved⟩ := h.valid.removeRowSlots rowIds
  unfold RowStore.deleteBatch
  rw [hremove]
  cases hempty : removed.isEmpty with
  | true =>
    obtain rfl := List.isEmpty_iff.mp hempty
    refine ⟨{ store with slots := slots' }, [], rfl, ?_, ⟨rfl, rfl, rfl⟩, hlookup⟩
    refine h.take hvalid hlookup hremoved rfl ⟨rfl, rfl, rfl⟩ (fun index hindex => ?_) ?_
    · exact (h.lists.primary index hindex).congr fun k r => by simp [mem_entriesOf]
    · exact h.lists.secondary.imp fun name cols index hlisting =>
        hlisting.congr fun k r => by simp [mem_entriesOf]
  | false =>
    have hprimary : ∀ index, (if store.pkColumns.isEmpty then store.primaryIndex
        else store.primaryIndex.map fun index => keys.primaryBatch.removeBatchIndexKeys index
          (entriesOf removed store.pkColumns)) = some index →
        Listing laws.primary true (fun k r => RowKeys keyOf store.slots store.pkColumns k r ∧
          (k, r) ∉ coded keyOf (entriesOf removed store.pkColumns)) index := by
      intro index hindex
      cases hold : store.primaryIndex with
      | none => simp [hold] at hindex
      | some old =>
        rw [h.lists.keyed old hold, hold] at hindex
        obtain rfl := Option.some.inj hindex
        exact (h.lists.primary old hold).removeBatch _
    have hsome : (if store.pkColumns.isEmpty then store.primaryIndex
        else store.primaryIndex.map fun index => keys.primaryBatch.removeBatchIndexKeys index
          (entriesOf removed store.pkColumns)).isSome = store.primaryIndex.isSome := by
      split
      · rfl
      · exact Option.isSome_map
    obtain ⟨row, rows, rfl⟩ := List.exists_cons_of_ne_nil (List.isEmpty_eq_false_iff.mp hempty)
    refine ⟨_, _, rfl, h.take hvalid hlookup hremoved rfl ⟨hsome, rfl, rfl⟩ hprimary ?_,
      ⟨hsome, rfl, rfl⟩, hlookup⟩
    exact h.lists.secondary.forEach fun name cols index hlisting => hlisting.removeBatch _

end Delete

section Clear

theorem clear (h : Consistent laws unique store) :
    Consistent laws unique (store.clear (keys.withGin formats)) ∧
      SameKeys store (store.clear (keys.withGin formats)) := by
  have hgone : ∀ r : RowId, (RowSlots.empty : RowSlots Scalar).rowRefById r = none := fun r => by
    simp [RowSlots.empty, RowSlots.rowRefById]
  have hnone : ∀ cols (k : κ) r, ¬RowKeys keyOf (RowSlots.empty : RowSlots Scalar) cols k r :=
    fun cols k r => rowKeys_gone (hgone r) k
  refine ⟨⟨RowSlots.valid_empty, fun rowId row hrow => ?_, fun index hindex => ?_,
    fun index hindex => ?_, ?_⟩, ⟨Option.isSome_map, rfl, rfl⟩⟩
  · rw [RowStore.clear, hgone] at hrow
    cases hrow
  · obtain ⟨old, hold, -⟩ := Option.map_eq_some_iff.mp hindex
    exact h.lists.keyed old hold
  · obtain ⟨old, hold, rfl⟩ := Option.map_eq_some_iff.mp hindex
    exact (h.lists.primary old hold).clear.congr fun k r => iff_of_false id (hnone _ k r)
  · refine h.lists.secondary.of_lookups (fun name hcols => ?_)
      fun name cols index hcols hindex hlisting => ?_
    · change (store.secondaryIndices.map _)[name]? = _
      rw [Std.ExtTreeMap.getElem?_map, h.lists.secondary.none hcols, Option.map_none]
    · refine ⟨keys.secondaryBatch.clear index, ?_,
        hlisting.clear.congr fun k r => iff_of_false id (hnone _ k r)⟩
      change (store.secondaryIndices.map _)[name]? = _
      rw [Std.ExtTreeMap.getElem?_map, hindex]
      rfl

end Clear

end Consistent

end Consistent

end Cynos.Storage
