import Cynos.Index.Traits
import Mathlib.Tactic.Common

/-! Maps keyed by row ids. -/
namespace Cynos.Storage

open Index (RowId)

abbrev RowMap (A : Type) := Std.ExtTreeMap RowId A

section Lookups

variable {A : Type} (rows : RowMap A)

theorem getElem?_insert (id key : RowId) (a : A) :
    (rows.insert id a)[key]? = if key = id then some a else rows[key]? := by
  rw [Std.ExtTreeMap.getElem?_insert]
  exact if_congr (Nat.compare_eq_eq.trans eq_comm) rfl rfl

theorem getElem?_erase (id key : RowId) :
    (rows.erase id)[key]? = if key = id then none else rows[key]? := by
  rw [Std.ExtTreeMap.getElem?_erase]
  exact if_congr (Nat.compare_eq_eq.trans eq_comm) rfl rfl

theorem mem_iff_getElem? (id : RowId) : id ∈ rows ↔ ∃ a, rows[id]? = some a := by
  rw [Std.ExtTreeMap.mem_iff_isSome_getElem?, Option.isSome_iff_exists]

end Lookups

end Cynos.Storage
