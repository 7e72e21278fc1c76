import Cynos.Core.Scalar

/-! JSON values as paths are evaluated on them. Numbers are floats, and an object keeps its
entries in the order of their keys. -/
namespace Cynos.Jsonb

inductive JsonbValue where
  | null
  | bool (value : Bool)
  | number (value : Float)
  | string (value : String)
  | array (items : List JsonbValue)
  | object (entries : List (String × JsonbValue))

abbrev JsonbObject := List (String × JsonbValue)

namespace JsonbObject

/-- Bisection finds the only entry of the key there is. -/
def get (obj : JsonbObject) (key : String) : Option JsonbValue :=
  (obj.find? fun entry => entry.1 == key).map Prod.snd

def containsKey (obj : JsonbObject) (key : String) : Bool := (obj.get key).isSome

def values (obj : JsonbObject) : List JsonbValue := obj.map Prod.snd

theorem mem_of_get {obj : JsonbObject} {key : String} {value : JsonbValue}
    (h : obj.get key = some value) : (key, value) ∈ obj := by
  unfold get at h
  obtain ⟨entry, hentry, rfl⟩ := Option.map_eq_some_iff.mp h
  have hkey : entry.1 = key := by simpa using List.find?_some hentry
  exact hkey ▸ List.mem_of_find?_eq_some hentry

end JsonbObject

namespace JsonbValue

def asArray : JsonbValue → Option (List JsonbValue)
  | array items => some items
  | _ => none

def asObject : JsonbValue → Option JsonbObject
  | object entries => some entries
  | _ => none

theorem asArray_eq_some {value : JsonbValue} {items : List JsonbValue} :
    value.asArray = some items ↔ value = array items := by
  cases value <;> simp [asArray]

theorem asObject_eq_some {value : JsonbValue} {obj : JsonbObject} :
    value.asObject = some obj ↔ value = object obj := by
  cases value <;> simp [asObject]

/-- A value that is the other one or stands somewhere inside it. -/
inductive Within : JsonbValue → JsonbValue → Prop
  | refl {value : JsonbValue} : Within value value
  | item {inner item : JsonbValue} {items : List JsonbValue} (mem : item ∈ items)
      (within : Within inner item) : Within inner (array items)
  | entry {inner value : JsonbValue} {key : String} {entries : JsonbObject}
      (mem : (key, value) ∈ entries) (within : Within inner value) : Within inner (object entries)

end JsonbValue

end Cynos.Jsonb
