import Cynos.Index.Traits
import Cynos.Lib.Vec

/-! Nodes of the B+tree arena. Leaves keep `values` beside `keys`, internal
nodes keep `children`; the other list stays empty. -/
namespace Cynos.Index

abbrev NodeId := Nat

structure Node (K : Type) where
  keys : List K
  values : List (List RowId)
  children : List NodeId
  next : Option NodeId
  prev : Option NodeId
  isLeaf : Bool
  parent : Option NodeId
  deriving DecidableEq, Repr

namespace Node

variable {K : Type}

def newLeaf : Node K := ⟨[], [], [], none, none, true, none⟩
def newInternal : Node K := ⟨[], [], [], none, none, false, none⟩

instance : Inhabited (Node K) := ⟨newLeaf⟩

def keyCount (node : Node K) : Nat := node.keys.length
def isEmpty (node : Node K) : Bool := node.keys.isEmpty

theorem isEmpty_iff {node : Node K} : node.isEmpty = true ↔ node.keys = [] := List.isEmpty_iff

section

variable [Ord K] [BEq K]

def findKeyPosition (node : Node K) (key : K) : Nat :=
  Vec.partitionPoint node.keys (keyLt · key)

def findKey (node : Node K) (key : K) : Option Nat :=
  let pos := node.findKeyPosition key
  match node.keys[pos]? with
  | some k => if k == key then some pos else none
  | none => none

/-- Inserts a key-value pair at the given position in a leaf node. -/
def insertAt (node : Node K) (pos : Nat) (key : K) (value : RowId) : Option (Node K) :=
  if (node.keys[pos]?).any (· == key) then do
    let ids ← node.values[pos]?
    let values ← Vec.setAt node.values pos (ids ++ [value])
    some { node with values }
  else do
    let keys ← Vec.insertAt node.keys pos key
    let values ← Vec.insertAt node.values pos [value]
    some { node with keys, values }

end

/-- Removes one row id, or with `none` the whole key, at the given position,
and counts the row ids removed. -/
def removeAt (node : Node K) (pos : Nat) (value : Option RowId) : Option (Node K × Nat) := do
  let ids ← node.values[pos]?
  match value with
  | some v =>
    let kept := ids.filter (· != v)
    if kept.isEmpty then
      let keys ← Vec.removeAt node.keys pos
      let values ← Vec.removeAt node.values pos
      some ({ node with keys, values }, ids.length - kept.length)
    else
      let values ← Vec.setAt node.values pos kept
      some ({ node with values }, ids.length - kept.length)
  | none =>
    let keys ← Vec.removeAt node.keys pos
    let values ← Vec.removeAt node.values pos
    some ({ node with keys, values }, ids.length)

end Node

end Cynos.Index
