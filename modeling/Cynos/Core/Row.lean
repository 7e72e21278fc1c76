import Cynos.Index.Traits
import Mathlib.Order.WithBot

/-! Rows and the values in them. A row store looks at a value only to compare it,
so `V` stands for the values other than `Null` that the typed columns of a table
can hold: a linear order, in which `Null` is added as the least element. -/
namespace Cynos.Core

open Index (RowId)

abbrev Value (V : Type) := WithBot V

def Value.null {V : Type} : Value V := ⊥

structure Row (V : Type) where
  id : RowId
  version : Nat
  values : List (Value V)
  deriving DecidableEq

namespace Row

variable {V : Type}

def new (id : RowId) (values : List (Value V)) : Row V := ⟨id, 1, values⟩

def newWithVersion (id : RowId) (version : Nat) (values : List (Value V)) : Row V :=
  ⟨id, version, values⟩

def get (row : Row V) (index : Nat) : Option (Value V) := row.values[index]?

/-- Largest version number of a row. -/
def maxVersion : Nat := 2 ^ 64 - 1

@[simp] theorem new_id (id : RowId) (values : List (Value V)) : (new id values).id = id := rfl
@[simp] theorem new_values (id : RowId) (values : List (Value V)) :
    (new id values).values = values := rfl
@[simp] theorem newWithVersion_id (id : RowId) (version : Nat) (values : List (Value V)) :
    (newWithVersion id version values).id = id := rfl
@[simp] theorem newWithVersion_values (id : RowId) (version : Nat) (values : List (Value V)) :
    (newWithVersion id version values).values = values := rfl
@[simp] theorem newWithVersion_version (id : RowId) (version : Nat) (values : List (Value V)) :
    (newWithVersion id version values).version = version := rfl

end Row

end Cynos.Core
