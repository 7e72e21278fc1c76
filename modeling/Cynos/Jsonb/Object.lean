import Mathlib.Data.String.Basic
import Mathlib.Logic.Function.Basic
import Cynos.Jsonb.Document
import Cynos.Lib.Keyed

/-! Objects as they are kept: entries in the order of their keys, searched by bisection. -/
namespace Cynos.Jsonb

/-- A fact about a value follows from the same fact about the values inside it. -/
theorem JsonbValue.induction {P : JsonbValue → Prop} (null : P .null) (bool : ∀ b, P (.bool b))
    (number : ∀ n, P (.number n)) (string : ∀ s, P (.string s))
    (array : ∀ items : List JsonbValue, (∀ item ∈ items, P item) → P (.array items))
    (object : ∀ obj : JsonbObject, (∀ entry ∈ obj, P entry.2) → P (.object obj))
    (value : JsonbValue) : P value := by
  refine JsonbValue.rec (motive_1 := P) (motive_2 := fun items => ∀ item ∈ items, P item)
    (motive_3 := fun obj => ∀ entry ∈ obj, P entry.2) (motive_4 := fun entry => P entry.2)
    null bool number string array object ?_ ?_ ?_ ?_ ?_ value
  · exact fun item h => absurd h List.not_mem_nil
  · exact fun item items hitem hitems => List.forall_mem_cons.mpr ⟨hitem, hitems⟩
  · exact fun entry h => absurd h List.not_mem_nil
  · exact fun entry obj hentry hobj => List.forall_mem_cons.mpr ⟨hentry, hobj⟩
  · exact fun key value h => h

/-- The keys are in strictly increasing order. -/
abbrev JsonbObject.Sorted (obj : JsonbObject) : Prop := Keyed.Sorted Prod.fst obj

/-- Every object inside the value keeps sorted unique keys. -/
def JsonbValue.Sorted (value : JsonbValue) : Prop :=
  ∀ obj, JsonbValue.Within (.object obj) value → JsonbObject.Sorted obj

theorem JsonbValue.Sorted.item {items : List JsonbValue} {item : JsonbValue}
    (h : (JsonbValue.array items).Sorted) (hitem : item ∈ items) : item.Sorted :=
  fun obj hobj => h obj (.item hitem hobj)

theorem JsonbValue.Sorted.entry {obj : JsonbObject} {entry : String × JsonbValue}
    (h : (JsonbValue.object obj).Sorted) (hentry : entry ∈ obj) : entry.2.Sorted :=
  fun inner hinner => h inner (.entry hentry hinner)

theorem JsonbValue.Sorted.object {obj : JsonbObject} (h : (JsonbValue.object obj).Sorted) :
    obj.Sorted := h obj .refl

theorem JsonbValue.sorted_array {items : List JsonbValue} :
    (JsonbValue.array items).Sorted ↔ ∀ item ∈ items, item.Sorted := by
  refine ⟨fun h item hitem => h.item hitem, fun h obj hobj => ?_⟩
  cases hobj with
  | item mem within => exact h _ mem obj within

theorem JsonbValue.sorted_object {obj : JsonbObject} :
    (JsonbValue.object obj).Sorted ↔ obj.Sorted ∧ ∀ entry ∈ obj, entry.2.Sorted := by
  refine ⟨fun h => ⟨h.object, fun entry hentry => h.entry hentry⟩, fun h inner hinner => ?_⟩
  cases hinner with
  | refl => exact h.1
  | entry mem within => exact h.2 _ mem inner within

theorem JsonbValue.sorted_null : JsonbValue.null.Sorted := fun obj h => by cases h

theorem JsonbValue.sorted_bool (b : Bool) : (JsonbValue.bool b).Sorted := fun obj h => by cases h

theorem JsonbValue.sorted_number (n : Float) : (JsonbValue.number n).Sorted :=
  fun obj h => by cases h

theorem JsonbValue.sorted_string (s : String) : (JsonbValue.string s).Sorted :=
  fun obj h => by cases h

namespace Entries

variable {obj : JsonbObject} {key : String} {value : JsonbValue}

def get (obj : JsonbObject) (key : String) : Option JsonbValue :=
  match Keyed.search Prod.fst obj key with
  | .ok idx => obj[idx]?.map Prod.snd
  | .error _ => none

def insert (obj : JsonbObject) (key : String) (value : JsonbValue) : JsonbObject :=
  match Keyed.search Prod.fst obj key with
  | .ok idx => obj.modify idx fun entry => (entry.1, value)
  | .error idx => obj.insertIdx idx (key, value)

def remove (obj : JsonbObject) (key : String) : Option JsonbValue × JsonbObject :=
  match Keyed.search Prod.fst obj key with
  | .ok idx => (obj[idx]?.map Prod.snd, obj.eraseIdx idx)
  | .error _ => (none, obj)

def containsKey (obj : JsonbObject) (key : String) : Bool :=
  (Keyed.search Prod.fst obj key).isOk

theorem lookup_get (obj : JsonbObject) (key : String) :
    JsonbObject.get obj key = (Keyed.lookup Prod.fst obj key).map Prod.snd := rfl

theorem lookup_absent {lo hi : JsonbObject} (hlo : ∀ entry ∈ lo, entry.1 < key)
    (hhi : ∀ entry ∈ hi, key < entry.1) : Keyed.lookup Prod.fst (lo ++ hi) key = none := by
  apply Keyed.lookup_eq_none
  intro entry hentry
  rcases List.mem_append.mp hentry with hentry | hentry
  · exact (hlo entry hentry).ne
  · exact (hhi entry hentry).ne'

/-- Bisection finds the only entry of the key there is. -/
theorem get_eq (h : obj.Sorted) : get obj key = JsonbObject.get obj key := by
  rw [lookup_get]
  unfold get
  rcases h.search_cases key with ⟨lo, entry, hi, rfl, rfl, hsearch⟩ | ⟨lo, hi, rfl, hlo, hhi, hsearch⟩
  · rw [hsearch, h.lookup_middle, if_pos rfl]
    change (lo ++ entry :: hi)[lo.length]?.map Prod.snd = _
    rw [List.getElem?_append_right le_rfl, Nat.sub_self]
    rfl
  · rw [hsearch, lookup_absent hlo hhi]
    rfl

theorem containsKey_eq (h : obj.Sorted) : containsKey obj key = JsonbObject.containsKey obj key := by
  unfold JsonbObject.containsKey
  rw [← get_eq h]
  unfold containsKey get
  rcases h.search_cases key with ⟨lo, entry, hi, rfl, rfl, hsearch⟩ | ⟨lo, hi, rfl, -, -, hsearch⟩
  · rw [hsearch]
    change true = ((lo ++ entry :: hi)[lo.length]?.map Prod.snd).isSome
    rw [List.getElem?_append_right le_rfl, Nat.sub_self]
    rfl
  · rw [hsearch]
    rfl

theorem insert_append {lo hi : JsonbObject} (hlo : ∀ entry ∈ lo, entry.1 < key) :
    JsonbObject.insert key value (lo ++ hi) = lo ++ JsonbObject.insert key value hi := by
  induction lo with
  | nil => rfl
  | cons entry lo ih =>
    have hlt := hlo entry List.mem_cons_self
    rw [List.cons_append, JsonbObject.insert, if_neg hlt.ne, if_neg hlt.not_gt,
      ih fun entry hentry => hlo entry (List.mem_cons_of_mem _ hentry)]
    rfl

theorem insert_eq (h : obj.Sorted) : insert obj key value = JsonbObject.insert key value obj := by
  unfold insert
  rcases h.search_cases key with ⟨lo, entry, hi, rfl, rfl, hsearch⟩ | ⟨lo, hi, rfl, hlo, hhi, hsearch⟩
  · rw [hsearch, insert_append (Keyed.sorted_middle.mp h).2.1]
    refine (Vec.modify_append lo hi entry _).trans ?_
    rw [JsonbObject.insert, if_pos rfl]
  · rw [hsearch, insert_append hlo]
    refine (Vec.insertIdx_append lo hi _).trans ?_
    cases hi with
    | nil => rfl
    | cons entry hi =>
      have hgt := hhi entry List.mem_cons_self
      rw [JsonbObject.insert, if_neg hgt.ne', if_pos hgt]

theorem sorted_iff : obj.Sorted ↔ (obj.map Prod.fst).Pairwise (· < ·) := List.pairwise_map.symm

theorem insert_sorted (h : obj.Sorted) : JsonbObject.Sorted (insert obj key value) := by
  rw [insert_eq h, sorted_iff]
  exact JsonbObject.insert_ordered (sorted_iff.mp h)

theorem get_insert (h : obj.Sorted) (other : String) :
    get (insert obj key value) other = if key = other then some value else get obj other := by
  rw [get_eq (insert_sorted h), insert_eq h, JsonbObject.get_insert, get_eq h]

theorem remove_sorted (h : obj.Sorted) : JsonbObject.Sorted (remove obj key).2 := by
  unfold remove
  cases Keyed.search Prod.fst obj key with
  | ok idx => exact h.sublist (List.eraseIdx_sublist obj idx)
  | error idx => exact h

theorem remove_fst (obj : JsonbObject) (key : String) : (remove obj key).1 = get obj key := by
  unfold remove get
  cases Keyed.search Prod.fst obj key <;> rfl

theorem get_remove (h : obj.Sorted) (other : String) :
    get (remove obj key).2 other = if key = other then none else get obj other := by
  rw [get_eq (remove_sorted h), get_eq h, lookup_get, lookup_get]
  unfold remove
  rcases h.search_cases key with ⟨lo, entry, hi, rfl, rfl, hsearch⟩ | ⟨lo, hi, rfl, hlo, hhi, hsearch⟩
  · rw [hsearch]
    change (Keyed.lookup Prod.fst ((lo ++ entry :: hi).eraseIdx lo.length) other).map Prod.snd = _
    rw [Vec.eraseIdx_append, h.lookup_middle]
    by_cases hkey : entry.1 = other
    · rw [if_pos hkey, ← hkey, h.lookup_removed]
      rfl
    · rw [if_neg hkey, if_neg hkey]
  · rw [hsearch]
    change (Keyed.lookup Prod.fst (lo ++ hi) other).map Prod.snd = _
    by_cases hkey : key = other
    · rw [if_pos hkey, ← hkey, lookup_absent hlo hhi]
      rfl
    · rw [if_neg hkey]

theorem mem_iff_get (h : obj.Sorted) : (key, value) ∈ obj ↔ get obj key = some value := by
  rw [get_eq h]
  refine ⟨fun hmem => ?_, JsonbObject.mem_of_get⟩
  rw [lookup_get, h.lookup_of_mem hmem]
  rfl

end Entries

end Cynos.Jsonb
