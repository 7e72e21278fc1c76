import Cynos.Storage.BatchConsistency

/-! Stores with the same values under the same row ids: what one of them takes in or refuses, and
finds under a key, so does the other. A change is undone on whichever of them it is undone. -/
namespace Cynos.Storage

open Core (Row Scalar Value)
open Index (RowId)

section Values

/-- The same values under the same ids; the versions may differ. -/
def SameValues (slots slots' : RowSlots Scalar) : Prop :=
  ∀ id : RowId, (slots'.rowRefById id).map Row.values = (slots.rowRefById id).map Row.values

variable {slots slots' slots'' : RowSlots Scalar}

theorem SameValues.refl (slots : RowSlots Scalar) : SameValues slots slots := fun _ => rfl

theorem SameValues.symm (h : SameValues slots slots') : SameValues slots' slots :=
  fun id => (h id).symm

theorem SameValues.trans (h : SameValues slots slots') (h' : SameValues slots' slots'') :
    SameValues slots slots'' := fun id => (h' id).trans (h id)

theorem SameValues.stored (h : SameValues slots slots') {id : RowId} {row : Row Scalar}
    (hrow : slots.rowRefById id = some row) :
    ∃ row', slots'.rowRefById id = some row' ∧ row'.values = row.values := by
  have hid := h id
  rw [hrow, Option.map_some, Option.map_eq_some_iff] at hid
  exact hid

theorem extractKey_congr {row row' : Row Scalar} (h : row'.values = row.values) (cols : List Nat) :
    extractKey row' cols = extractKey row cols := by
  unfold extractKey IndexKey.fromRow Row.get
  rw [h]

variable {κ : Type} {keyOf : IndexKey Scalar → κ}

theorem SameValues.rowKeys (h : SameValues slots slots') (cols : List Nat) (k : κ) (r : RowId) :
    RowKeys keyOf slots' cols k r ↔ RowKeys keyOf slots cols k r := by
  have hpart : ∀ {first second : RowSlots Scalar}, SameValues first second →
      RowKeys keyOf first cols k r → RowKeys keyOf second cols k r := by
    rintro first second hsame ⟨row, hrow, hkey⟩
    obtain ⟨row', hrow', hvalues⟩ := hsame.stored hrow
    exact ⟨row', hrow', by rw [extractKey_congr hvalues, hkey]⟩
  exact ⟨hpart h.symm, hpart h⟩

end Values

variable {P S κ : Type} [LinearOrder κ] {keys : KeyOps P S} {keyOf : IndexKey Scalar → κ}
  {Ok : IndexKey Scalar → Prop} {laws : KeyLaws keys keyOf Ok} {unique : String → Bool}

/-- Two stores with indexes over the same columns, both consistent, that have the same values. -/
structure Alike (laws : KeyLaws keys keyOf Ok) (unique : String → Bool)
    (before after : GinStore P S) : Prop where
  first : Consistent laws unique before
  second : Consistent laws unique after
  keys : SameKeys before after
  values : SameValues before.slots after.slots

section Relation

variable {first second third : GinStore P S}

theorem Consistent.alike (h : Consistent laws unique first) : Alike laws unique first first :=
  ⟨h, h, .refl first, .refl first.slots⟩

theorem Alike.symm (h : Alike laws unique first second) : Alike laws unique second first :=
  ⟨h.second, h.first, h.keys.symm, h.values.symm⟩

theorem Alike.trans (h : Alike laws unique first second) (h' : Alike laws unique second third) :
    Alike laws unique first third :=
  ⟨h.first, h'.second, h.keys.trans h'.keys, h.values.trans h'.values⟩

/-- They refuse the same rows. -/
theorem Alike.taken (h : Alike laws unique first second) (row : Row Scalar) :
    Consistent.Taken keyOf unique second row ↔ Consistent.Taken keyOf unique first row := by
  have hstored : (∃ other, second.slots.rowRefById row.id = some other) ↔
      ∃ other, first.slots.rowRefById row.id = some other := by
    constructor
    · rintro ⟨other, hother⟩
      obtain ⟨other', hother', -⟩ := h.values.symm.stored hother
      exact ⟨other', hother'⟩
    · rintro ⟨other, hother⟩
      obtain ⟨other', hother', -⟩ := h.values.stored hother
      exact ⟨other', hother'⟩
  unfold Consistent.Taken PrimaryHas SecondaryHas
  rw [hstored, h.keys.primary, h.keys.pkColumns, h.keys.indexColumns]
  simp only [h.values.rowKeys]

end Relation

section Undo

variable {store next other : GinStore P S} {row oldRow newRow : Row Scalar} {rowId : RowId}
  (formats : JsonbFormats)

/-- An inserted row is deleted. -/
theorem Consistent.undo_insert (h : Consistent laws unique store) (hok : RowOk Ok row)
    (hinsert : (store.insert (keys.withGin formats).toIndexOps row) = (next, .ok rowId))
    (hother : Alike laws unique next other) :
    ∃ back result, other.delete (keys.withGin formats).toIndexOps rowId = some (back, result) ∧
      Alike laws unique store back := by
  obtain ⟨next', result', hinsert', -, hkeys, hcases⟩ := h.insert formats hok
  rw [hinsert, Prod.mk.injEq] at hinsert'
  obtain ⟨rfl, rfl⟩ := hinsert'
  obtain ⟨back, result, hdelete, hback, hbackKeys, hgone⟩ := hother.second.delete formats rowId
  refine ⟨back, result, hdelete, h, hback, (hkeys.trans hother.keys).trans hbackKeys, fun id => ?_⟩
  rcases hcases with ⟨-, ⟨error, herror⟩, -⟩ | ⟨hfree, hresult, hslots⟩
  · cases herror
  obtain rfl := Except.ok.inj hresult
  have hnone : store.slots.rowRefById row.id = none := by
    by_contra hsome
    exact hfree (.inl (Option.ne_none_iff_exists'.mp hsome))
  rw [hgone]
  by_cases hid : id = row.id
  · rw [if_pos hid, hid, hnone]
  · rw [if_neg hid, hother.values id, hslots,
      RowSlots.rowRefById_insertRowSlot h.valid (h.valid.rowRefById_eq_none.mp hnone), if_neg hid]

/-- A deletion gives the row that was stored, and fails where none is. -/
theorem Consistent.delete_result (h : Consistent laws unique store)
    {result : Except Error (Row Scalar)}
    (hdelete : store.delete (keys.withGin formats).toIndexOps rowId = some (next, result)) :
    match result with
    | .ok row => store.slots.rowRefById rowId = some row
    | .error _ => store.slots.rowRefById rowId = none := by
  unfold RowStore.delete at hdelete
  cases hrow : store.slots.rows[rowId]? with
  | none =>
    have hremove : store.slots.removeRowSlot rowId = some (store.slots, none) := by
      unfold RowSlots.removeRowSlot
      rw [hrow]
    rw [hremove] at hdelete
    obtain rfl := (Prod.mk.inj (Option.some.inj hdelete)).2
    exact h.valid.rowRefById_eq_none.mpr hrow
  | some slotIdx =>
    obtain ⟨slots', stored, hremove, -, hstored, -⟩ := h.valid.removeRowSlot hrow
    rw [hremove] at hdelete
    obtain rfl := (Prod.mk.inj (Option.some.inj hdelete)).2
    exact hstored

/-- A deleted row is inserted again: nothing that is left has its id or one of its keys. -/
theorem Consistent.undo_delete (h : Consistent laws unique store)
    (hdelete : store.delete (keys.withGin formats).toIndexOps rowId = some (next, .ok row))
    (hother : Alike laws unique next other) :
    Alike laws unique store (other.insert (keys.withGin formats).toIndexOps row).1 := by
  have hrow := h.delete_result formats hdelete
  obtain ⟨hid, hok⟩ := h.named rowId row hrow
  obtain ⟨next', result', hdelete', hnext, hkeys, hgone⟩ := h.delete formats rowId
  rw [hdelete, Option.some.injEq, Prod.mk.injEq] at hdelete'
  obtain ⟨rfl, rfl⟩ := hdelete'
  have hunique := h.keys_unique
  have hleft : ∀ {cols : List Nat} {r : RowId},
      RowKeys keyOf next.slots cols (keyOf (extractKey row cols)) r → r ≠ rowId ∧
        ∃ kept, store.slots.rowRefById r = some kept ∧
          (extractKey kept cols).eq (extractKey row cols) = true := by
    rintro cols r ⟨kept, hkept, hkey⟩
    rw [hgone] at hkept
    split at hkept
    · cases hkept
    next hne =>
      exact ⟨hne, kept, hkept, (laws.eq_iff ((h.named r kept hkept).2 cols) (hok cols)).mpr hkey⟩
  have hfree : ¬Taken keyOf unique next row := by
    rintro (⟨kept, hkept⟩ | ⟨hprimary, r, hkey⟩ | ⟨name, cols, hcols, huniqueName, r, hkey⟩)
    · rw [hgone, if_pos hid] at hkept
      cases hkept
    · rw [hkeys.pkColumns] at hkey
      rw [hkeys.primary] at hprimary
      obtain ⟨hne, kept, hkept, heq⟩ := hleft hkey
      exact hne (hunique.primary hprimary hkept hrow heq)
    · rw [hkeys.indexColumns] at hcols
      obtain ⟨hne, kept, hkept, heq⟩ := hleft hkey
      exact hne (hunique.secondary hcols huniqueName hkept hrow heq)
  obtain ⟨back, result, hinsert, hback, hbackKeys, hcases⟩ := hother.second.insert formats hok
  rw [hinsert]
  refine ⟨h, hback, (hkeys.trans hother.keys).trans hbackKeys, fun id => ?_⟩
  rcases hcases with ⟨htaken, -⟩ | ⟨hnot, -, hslots⟩
  · exact absurd ((hother.taken row).mp htaken) hfree
  · have hnone : other.slots.rowRefById row.id = none := by
      by_contra hsome
      exact hnot (.inl (Option.ne_none_iff_exists'.mp hsome))
    rw [hslots, RowSlots.rowRefById_insertRowSlot hother.second.valid
      (hother.second.valid.rowRefById_eq_none.mp hnone)]
    by_cases heq : id = rowId
    · rw [if_pos (heq.trans hid.symm), heq, hrow]
    · rw [if_neg (by rwa [hid]), hother.values id, hgone, if_neg heq]

/-- The check lets a change through that no other row stands in the way of. -/
theorem Consistent.updateConflict_eq_none (h : Consistent laws unique store)
    (hprimary : store.primaryIndex.isSome →
      (extractKey oldRow store.pkColumns).eq (extractKey newRow store.pkColumns) = false →
        ¬∃ other, RowKeys keyOf store.slots store.pkColumns
          (keyOf (extractKey newRow store.pkColumns)) other)
    (hsecondary : ∀ (name : String) (cols : List Nat), store.indexColumns[name]? = some cols →
      (extractKey oldRow cols).eq (extractKey newRow cols) = false → unique name = true →
        ¬∃ other, RowKeys keyOf store.slots cols (keyOf (extractKey newRow cols)) other) :
    store.updateConflict (keys.withGin formats).toIndexOps oldRow newRow = none := by
  unfold RowStore.updateConflict
  dsimp only
  rw [if_neg, List.findSome?_eq_none_iff]
  · rintro ⟨name, cols⟩ hmem
    obtain ⟨index, hindex, hlisting⟩ := h.lists.secondary.get (mem_defs.mp hmem)
    dsimp only
    rw [hindex]
    refine if_neg fun hconflict => ?_
    simp only [Bool.and_eq_true, Bool.not_eq_true'] at hconflict
    obtain ⟨⟨hunique, hdiffer⟩, hcontains⟩ := hconflict
    exact hsecondary name cols (mem_defs.mp hmem) hdiffer (hlisting.storeUnique.symm.trans hunique)
      ((hlisting.contains_iff _).mp hcontains)
  · intro hconflict
    obtain ⟨-, hany⟩ := Bool.and_eq_true_iff.mp hconflict
    obtain ⟨index, hindex, hindexConflict⟩ := (Option.any_eq_true _ _).mp hany
    simp only [Bool.and_eq_true, Bool.not_eq_true'] at hindexConflict
    exact hprimary (by rw [hindex]; rfl) hindexConflict.1
      (((h.lists.primary index hindex).contains_iff _).mp hindexConflict.2)

/-- A changed row gets its values back. -/
theorem Consistent.undo_update (h : Consistent laws unique store) (hok : RowOk Ok newRow)
    (hid : newRow.id = rowId) (hrow : store.slots.rowRefById rowId = some oldRow)
    (hupdate : store.update (keys.withGin formats).toIndexOps rowId newRow = (next, .ok ()))
    (hother : Alike laws unique next other) {restored : Row Scalar}
    (hrestored : restored.id = rowId) (hvalues : restored.values = oldRow.values) :
    Alike laws unique store (other.update (keys.withGin formats).toIndexOps rowId restored).1 := by
  obtain ⟨next', result', hupdate', hnext, hkeys, hcases⟩ := h.update formats hok hid
  rw [hupdate, Prod.mk.injEq] at hupdate'
  obtain ⟨rfl, rfl⟩ := hupdate'
  rcases hcases with ⟨⟨error, herror⟩, -⟩ | ⟨-, -, hslots⟩
  · cases herror
  have hnow : ∀ id, next.slots.rowRefById id =
      if id = rowId then some newRow else store.slots.rowRefById id := by
    intro id
    rw [hslots, RowSlots.rowRefById_replaceRowSlot h.valid newRow, hrow, Option.map_some]
  have hkept : RowOk Ok oldRow := (h.named rowId oldRow hrow).2
  have hrestoredOk : RowOk Ok restored := fun cols => by
    rw [extractKey_congr hvalues]
    exact hkept cols
  have hmine : next.slots.rowRefById rowId = some newRow := by rw [hnow, if_pos rfl]
  obtain ⟨current, hcurrent, hcurrentValues⟩ := hother.values.stored hmine
  have hunique := h.keys_unique
  -- a row with the restored key is the changed one, or stood beside the old one with the same key
  have hothers : ∀ {cols : List Nat},
      (extractKey current cols).eq (extractKey restored cols) = false →
      ∀ {r : RowId}, RowKeys keyOf other.slots cols (keyOf (extractKey restored cols)) r →
        r ≠ rowId ∧ ∃ kept, store.slots.rowRefById r = some kept ∧
          (extractKey kept cols).eq (extractKey oldRow cols) = true := by
    rintro cols hdiffer r hkey
    obtain ⟨kept, hkeptRow, hkeptKey⟩ := (hother.values.rowKeys cols _ r).mp hkey
    rw [extractKey_congr hvalues] at hkeptKey hdiffer
    rw [extractKey_congr hcurrentValues] at hdiffer
    rw [hnow] at hkeptRow
    split at hkeptRow
    · obtain rfl := Option.some.inj hkeptRow
      rw [(laws.eq_iff (hok cols) (hkept cols)).mpr hkeptKey] at hdiffer
      cases hdiffer
    next hne =>
      exact ⟨hne, kept, hkeptRow,
        (laws.eq_iff ((h.named r kept hkeptRow).2 cols) (hkept cols)).mpr hkeptKey⟩
  have hallKeys := hkeys.trans hother.keys
  have hconflict :
      other.updateConflict (keys.withGin formats).toIndexOps current restored = none := by
    refine hother.second.updateConflict_eq_none formats (fun hsome hdiffer => ?_)
      fun name cols hcols hdiffer huniqueName => ?_
    · rintro ⟨r, hkey⟩
      obtain ⟨hne, kept, hkeptRow, heq⟩ := hothers hdiffer hkey
      rw [hallKeys.pkColumns] at heq
      rw [hallKeys.primary] at hsome
      exact hne (hunique.primary hsome hkeptRow hrow heq)
    · rintro ⟨r, hkey⟩
      obtain ⟨hne, kept, hkeptRow, heq⟩ := hothers hdiffer hkey
      rw [hallKeys.indexColumns] at hcols
      exact hne (hunique.secondary hcols huniqueName hkeptRow hrow heq)
  obtain ⟨back, result, hback, hconsistent, hbackKeys, hbackCases⟩ :=
    hother.second.update formats hrestoredOk hrestored
  have hresult : (other.update (keys.withGin formats).toIndexOps rowId restored).2 = .ok () := by
    unfold RowStore.update
    rw [hcurrent]
    dsimp only
    rw [hconflict]
  rw [hback] at hresult ⊢
  refine ⟨h, hconsistent, hallKeys.trans hbackKeys, fun id => ?_⟩
  rcases hbackCases with ⟨⟨error, herror⟩, -⟩ | ⟨-, -, hbackSlots⟩
  · cases herror.symm.trans hresult
  rw [hbackSlots, RowSlots.rowRefById_replaceRowSlot hother.second.valid restored, hcurrent,
    Option.map_some]
  by_cases heq : id = rowId
  · rw [if_pos heq, heq, hrow, Option.map_some, Option.map_some, hvalues]
  · rw [if_neg heq, hother.values id, hnow, if_neg heq]

end Undo

end Cynos.Storage
