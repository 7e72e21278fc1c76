import Cynos.Index.Node
import Mathlib.Data.List.Sort

/-! The B+tree index over an arena of nodes. A result `none` stands for a run
that does not return: an index out of range, an `unwrap` of nothing, or a loop
that outlives its fuel. Loops along tree edges or leaf links take the arena's
size as fuel; a run over a well-formed tree never visits a node twice. -/
namespace Cynos.Index

structure BTreeIndex (K : Type) where
  arena : List (Node K)
  root : NodeId
  order : Nat
  unique : Bool
  comparator : SimpleComparator
  stats : IndexStats
  deriving DecidableEq, Repr

namespace BTreeIndex

variable {K : Type}

def withComparator (order : Nat) (unique : Bool) (comparator : SimpleComparator) :
    BTreeIndex K :=
  { arena := [Node.newLeaf], root := 0, order, unique, comparator, stats := .new }

def new (order : Nat) (unique : Bool) : BTreeIndex K :=
  withComparator order unique .asc

def node (t : BTreeIndex K) (id : NodeId) : Option (Node K) := t.arena[id]?

def setNode (t : BTreeIndex K) (id : NodeId) (node : Node K) : BTreeIndex K :=
  { t with arena := t.arena.set id node }

def modifyNode (t : BTreeIndex K) (id : NodeId) (f : Node K → Node K) :
    Option (BTreeIndex K) :=
  (t.node id).map fun node => t.setNode id (f node)

def allocNode (t : BTreeIndex K) (node : Node K) : BTreeIndex K × NodeId :=
  ({ t with arena := t.arena ++ [node] }, t.arena.length)

def addRows (t : BTreeIndex K) (count : Nat) : BTreeIndex K :=
  { t with stats := t.stats.addRows count }

def removeRows (t : BTreeIndex K) (count : Nat) : BTreeIndex K :=
  { t with stats := t.stats.removeRows count }

def setParent (parent : Option NodeId) (node : Node K) : Node K := { node with parent }

def setParents (t : BTreeIndex K) (children : List NodeId) (parent : NodeId) :
    Option (BTreeIndex K) :=
  children.foldlM (fun t child => t.modifyNode child (setParent (some parent))) t

section Descent

variable [Ord K]

def findChildPosition (t : BTreeIndex K) (node : Node K) (key : K) : Nat :=
  min (Vec.partitionPoint node.keys fun k => !t.comparator.isLess key k)
    (node.children.length - 1)

def findLeafFrom (t : BTreeIndex K) (key : K) : Nat → NodeId → Option NodeId
  | 0, _ => none
  | fuel + 1, current => do
    let node ← t.node current
    if node.isLeaf then some current
    else
      let child ← node.children[t.findChildPosition node key]?
      t.findLeafFrom key fuel child

/-- Finds the leaf node that should contain the given key. -/
def findLeaf (t : BTreeIndex K) (key : K) : Option NodeId :=
  t.findLeafFrom key t.arena.length t.root

def walkLeaves (t : BTreeIndex K) (key : K) : Nat → NodeId → Option NodeId
  | 0, _ => none
  | fuel + 1, leafId => do
    let leaf ← t.node leafId
    match leaf.keys.getLast? with
    | none => some leafId
    | some lastKey =>
      if !t.comparator.isLess lastKey key then some leafId
      else match leaf.next with
        | none => some leafId
        | some nextId => do
          let next ← t.node nextId
          match next.keys.head? with
          | none => some nextId
          | some firstKey =>
            if !t.comparator.isLess key firstKey then t.walkLeaves key fuel nextId
            else some leafId

/-- Finds the leaf that should contain the given key, starting from a previous
leaf when keys arrive in non-decreasing order. -/
def findLeafFromHint (t : BTreeIndex K) (key : K) : Option NodeId → Option NodeId
  | none => t.findLeaf key
  | some leafId => t.walkLeaves key t.arena.length leafId

end Descent

section Growth

/-- `split_internal` up to its closing call of `insert_into_parent`: the key to
promote and the new right node. -/
def splitInternalNode (t : BTreeIndex K) (nodeId : NodeId) :
    Option (BTreeIndex K × K × NodeId) := do
  let node ← t.node nodeId
  let mid := node.keyCount / 2
  let promoteKey ← node.keys[mid]?
  let (leftKeys, rightKeys) ← Vec.splitOff node.keys (mid + 1)
  let (leftChildren, rightChildren) ← Vec.splitOff node.children (mid + 1)
  let newNode : Node K :=
    { (Node.newInternal : Node K) with keys := rightKeys, children := rightChildren, parent := node.parent }
  let t := t.setNode nodeId { node with keys := leftKeys.dropLast, children := leftChildren }
  let (t, newNodeId) := t.allocNode newNode
  let t ← t.setParents rightChildren newNodeId
  some (t, promoteKey, newNodeId)

variable [Ord K]

/-- Inserts a key and child into the parent node, splitting upwards. -/
def insertIntoParent : Nat → BTreeIndex K → NodeId → K → NodeId → Option (BTreeIndex K)
  | 0, _, _, _, _ => none
  | fuel + 1, t, leftId, key, rightId => do
    let left ← t.node leftId
    match left.parent with
    | none =>
      let newRoot : Node K :=
        { (Node.newInternal : Node K) with keys := [key], children := [leftId, rightId] }
      let (t, newRootId) := t.allocNode newRoot
      let t ← t.modifyNode leftId (setParent (some newRootId))
      let t ← t.modifyNode rightId (setParent (some newRootId))
      some { t with root := newRootId }
    | some parentId =>
      let parent ← t.node parentId
      let pos := t.findChildPosition parent key
      let keys ← Vec.insertAt parent.keys pos key
      let children ← Vec.insertAt parent.children (pos + 1) rightId
      let t := t.setNode parentId { parent with keys, children }
      let t ← t.modifyNode rightId (setParent (some parentId))
      if keys.length ≥ t.order then
        let (t, promoteKey, newNodeId) ← t.splitInternalNode parentId
        insertIntoParent fuel t parentId promoteKey newNodeId
      else some t

def splitLeaf (t : BTreeIndex K) (leafId : NodeId) : Option (BTreeIndex K) := do
  let leaf ← t.node leafId
  let mid := leaf.keyCount / 2
  let (leftKeys, rightKeys) ← Vec.splitOff leaf.keys mid
  let (leftValues, rightValues) ← Vec.splitOff leaf.values mid
  let newLeaf : Node K :=
    { (Node.newLeaf : Node K) with
      keys := rightKeys, values := rightValues, next := leaf.next, prev := some leafId
      parent := leaf.parent }
  let t := t.setNode leafId { leaf with keys := leftKeys, values := leftValues }
  let (t, newLeafId) := t.allocNode newLeaf
  let t ← match leaf.next with
    | some nextId => t.modifyNode nextId fun node => { node with prev := some newLeafId }
    | none => some t
  let t ← t.modifyNode leafId fun node => { node with next := some newLeafId }
  let promoteKey ← rightKeys.head?
  insertIntoParent t.arena.length t leafId promoteKey newLeafId

variable [BEq K]

/-- Inserts a key-value pair into the tree. -/
def insert (t : BTreeIndex K) (key : K) (value : RowId) :
    Option (BTreeIndex K × Except IndexError Unit) := do
  let leafId ← t.findLeaf key
  let leaf ← t.node leafId
  if t.unique && (leaf.findKey key).isSome then some (t, .error .duplicateKey)
  else
    let leaf ← leaf.insertAt (leaf.findKeyPosition key) key value
    let t := (t.setNode leafId leaf).addRows 1
    if leaf.keyCount ≥ t.order then
      let t ← t.splitLeaf leafId
      some (t, .ok ())
    else some (t, .ok ())

end Growth

section Shrink

/-- Moves the last entry of the left sibling to the front of `nodeId`. -/
def borrowFromLeft (t : BTreeIndex K) (nodeId leftId parentId : NodeId) (pos : Nat) :
    Option (BTreeIndex K) := do
  let node ← t.node nodeId
  let left ← t.node leftId
  let parent ← t.node parentId
  if node.isLeaf then
    let (key, leftKeys) ← Vec.pop left.keys
    let (values, leftValues) ← Vec.pop left.values
    let parentKeys ← Vec.setAt parent.keys (pos - 1) key
    let t := t.setNode leftId { left with keys := leftKeys, values := leftValues }
    let t := t.setNode nodeId
      { node with keys := key :: node.keys, values := values :: node.values }
    some (t.setNode parentId { parent with keys := parentKeys })
  else
    let parentKey ← parent.keys[pos - 1]?
    let (leftKey, leftKeys) ← Vec.pop left.keys
    let (leftChild, leftChildren) ← Vec.pop left.children
    let parentKeys ← Vec.setAt parent.keys (pos - 1) leftKey
    let t := t.setNode leftId { left with keys := leftKeys, children := leftChildren }
    let t := t.setNode nodeId
      { node with keys := parentKey :: node.keys, children := leftChild :: node.children }
    let t := t.setNode parentId { parent with keys := parentKeys }
    t.modifyNode leftChild (setParent (some nodeId))

/-- Moves the first entry of the right sibling to the end of `nodeId`. -/
def borrowFromRight (t : BTreeIndex K) (nodeId rightId parentId : NodeId) (pos : Nat) :
    Option (BTreeIndex K) := do
  let node ← t.node nodeId
  let right ← t.node rightId
  let parent ← t.node parentId
  if node.isLeaf then
    let key ← right.keys.head?
    let rightKeys ← Vec.removeAt right.keys 0
    let values ← right.values.head?
    let rightValues ← Vec.removeAt right.values 0
    let newSeparator ← rightKeys.head?
    let parentKeys ← Vec.setAt parent.keys pos newSeparator
    let t := t.setNode rightId { right with keys := rightKeys, values := rightValues }
    let t := t.setNode nodeId
      { node with keys := node.keys ++ [key], values := node.values ++ [values] }
    some (t.setNode parentId { parent with keys := parentKeys })
  else
    let parentKey ← parent.keys[pos]?
    let rightKey ← right.keys.head?
    let rightKeys ← Vec.removeAt right.keys 0
    let rightChild ← right.children.head?
    let rightChildren ← Vec.removeAt right.children 0
    let parentKeys ← Vec.setAt parent.keys pos rightKey
    let t := t.setNode rightId { right with keys := rightKeys, children := rightChildren }
    let t := t.setNode nodeId
      { node with keys := node.keys ++ [parentKey], children := node.children ++ [rightChild] }
    let t := t.setNode parentId { parent with keys := parentKeys }
    t.modifyNode rightChild (setParent (some nodeId))

/-- Moves everything of the right sibling to the left one. The right node stays
in the arena, emptied and unreachable. -/
def absorbRight (t : BTreeIndex K) (leftId rightId parentId : NodeId) (pos : Nat) :
    Option (BTreeIndex K) := do
  let left ← t.node leftId
  let right ← t.node rightId
  let parent ← t.node parentId
  if left.isLeaf then
    let t := t.setNode rightId { right with keys := [], values := [] }
    let t := t.setNode leftId
      { left with
        keys := left.keys ++ right.keys, values := left.values ++ right.values
        next := right.next }
    match right.next with
    | some nextId => t.modifyNode nextId fun node => { node with prev := some leftId }
    | none => some t
  else
    let separator ← parent.keys[pos]?
    let t := t.setNode rightId { right with keys := [], children := [] }
    let t := t.setNode leftId
      { left with
        keys := left.keys ++ separator :: right.keys
        children := left.children ++ right.children }
    t.setParents right.children leftId

/-- `merge_nodes` up to the check of the parent. -/
def mergeNodes (t : BTreeIndex K) (leftId rightId parentId : NodeId) (pos : Nat) :
    Option (BTreeIndex K) := do
  let t ← t.absorbRight leftId rightId parentId pos
  let parent ← t.node parentId
  let keys ← Vec.removeAt parent.keys pos
  let children ← Vec.removeAt parent.children (pos + 1)
  some (t.setNode parentId { parent with keys, children })

inductive Repair where
  | borrowLeft (left : NodeId)
  | borrowRight (right : NodeId)
  | mergeLeft (left : NodeId)
  | mergeRight (right : NodeId)
  | nothing
  deriving DecidableEq, Repr

/-- The branch that `handle_underflow` takes for the child at `pos`: the left
sibling is asked before the right one, first for a key and then for a merge. -/
def chooseRepair (t : BTreeIndex K) (parent : Node K) (pos minKeys : Nat) : Option Repair := do
  let leftId? := if 0 < pos then parent.children[pos - 1]? else none
  let rightId? := if pos < parent.children.length - 1 then parent.children[pos + 1]? else none
  let richLeft ← leftId?.elim (some false) fun id =>
    (t.node id).map fun left => decide (left.keyCount > minKeys)
  let richRight ← rightId?.elim (some false) fun id =>
    (t.node id).map fun right => decide (right.keyCount > minKeys)
  some <| match leftId?, rightId? with
    | some left, some right =>
      if richLeft then .borrowLeft left
      else if richRight then .borrowRight right
      else .mergeLeft left
    | some left, none => if richLeft then .borrowLeft left else .mergeLeft left
    | none, some right => if richRight then .borrowRight right else .mergeRight right
    | none, none => .nothing

/-- Handles underflow after deletion. The end of `merge_nodes` is part of it:
an emptied root gives way to the merged node, any other parent is repaired next. -/
def handleUnderflow : Nat → BTreeIndex K → NodeId → Option (BTreeIndex K)
  | 0, _, _ => none
  | fuel + 1, t, nodeId => do
    let node ← t.node nodeId
    match node.parent with
    | none => some t
    | some parentId =>
      let minKeys := (t.order - 1) / 2
      if node.keyCount ≥ minKeys then some t
      else
        let parent ← t.node parentId
        let pos ← parent.children.idxOf? nodeId
        let repair ← t.chooseRepair parent pos minKeys
        match repair with
        | .borrowLeft left => t.borrowFromLeft nodeId left parentId pos
        | .borrowRight right => t.borrowFromRight nodeId right parentId pos
        | .mergeLeft left =>
          let t ← t.mergeNodes left nodeId parentId (pos - 1)
          afterMerge fuel t left parentId
        | .mergeRight right =>
          let t ← t.mergeNodes nodeId right parentId pos
          afterMerge fuel t nodeId parentId
        | .nothing => some t
where
  afterMerge (fuel : Nat) (t : BTreeIndex K) (leftId parentId : NodeId) :
      Option (BTreeIndex K) := do
    let parent ← t.node parentId
    if parentId = t.root ∧ parent.isEmpty then
      let t := { t with root := leftId }
      t.modifyNode leftId (setParent none)
    else if parentId ≠ t.root then handleUnderflow fuel t parentId
    else some t

variable [Ord K] [BEq K]

/-- Removes a key (and optionally a specific value) from the tree. -/
def delete (t : BTreeIndex K) (key : K) (value : Option RowId) : Option (BTreeIndex K) := do
  let leafId ← t.findLeaf key
  let leaf ← t.node leafId
  match leaf.findKey key with
  | none => some t
  | some pos =>
    let (leaf, removed) ← leaf.removeAt pos value
    let t := (t.setNode leafId leaf).removeRows removed
    if leaf.isEmpty ∧ leafId ≠ t.root then handleUnderflow t.arena.length t leafId
    else some t

end Shrink

section Batches

variable [Ord K] [BEq K]

/-- `sort_by` on the keys: stable. -/
def sortEntries (entries : List (K × RowId)) : List (K × RowId) :=
  entries.insertionSort fun a b => keyLe a.1 b.1

/-- Consecutive entries of one key, with their row ids in order. -/
def groupEntries : List (K × RowId) → List (K × List RowId)
  | [] => []
  | (key, id) :: rest => go key [id] rest
where
  go (key : K) (ids : List RowId) : List (K × RowId) → List (K × List RowId)
    | [] => [(key, ids)]
    | (k, id) :: rest => if k == key then go key (ids ++ [id]) rest else (key, ids) :: go k [id] rest

/-- Row ids left under a key: more than four removals go through a set, fewer
are searched and removed one at a time. -/
def removeRowIds (values ids : List RowId) : List RowId :=
  if ids.length > 4 then values.filter fun v => !ids.contains v
  else ids.foldl (fun values id =>
    match values.idxOf? id with
    | some idx => (Vec.swapRemove values idx).getD values
    | none => values) values

def removeGroup (state : BTreeIndex K × List NodeId) (group : K × List RowId) :
    Option (BTreeIndex K × List NodeId) := do
  let (t, underflowNodes) := state
  let leafId ← t.findLeaf group.1
  let leaf ← t.node leafId
  match leaf.findKey group.1 with
  | none => some (t, underflowNodes)
  | some pos =>
    let values ← leaf.values[pos]?
    let kept := removeRowIds values group.2
    let t := t.removeRows (values.length - kept.length)
    if kept.isEmpty then
      let keys ← Vec.removeAt leaf.keys pos
      let values ← Vec.removeAt leaf.values pos
      let t := t.setNode leafId { leaf with keys, values }
      if keys.isEmpty ∧ leafId ≠ t.root ∧ leafId ∉ underflowNodes then
        some (t, underflowNodes ++ [leafId])
      else some (t, underflowNodes)
    else
      let values ← Vec.setAt leaf.values pos kept
      some (t.setNode leafId { leaf with values }, underflowNodes)

def repairLeaf (t : BTreeIndex K) (leafId : NodeId) : Option (BTreeIndex K) := do
  let leaf ← t.node leafId
  if !leaf.isEmpty then some t
  else if leafId = t.root then some t
  else handleUnderflow t.arena.length t leafId

/-- Removes the listed pairs leaf by leaf; emptied leaves are repaired at the
end, in reverse order. -/
def removeBatch (t : BTreeIndex K) (entries : List (K × RowId)) : Option (BTreeIndex K) := do
  let (t, underflowNodes) ← (groupEntries (sortEntries entries)).foldlM removeGroup (t, [])
  underflowNodes.reverse.foldlM repairLeaf t

def findDuplicate (t : BTreeIndex K) : Option K → List (K × RowId) → Option Bool
  | _, [] => some false
  | lastKey, (key, _) :: rest => do
    let leafId ← t.findLeaf key
    let leaf ← t.node leafId
    if (leaf.findKey key).isSome || lastKey.any (· == key) then some true
    else t.findDuplicate (some key) rest

inductive BatchStep (K : Type) where
  | continues (t : BTreeIndex K) (leafHint : Option NodeId)
  | fails (t : BTreeIndex K)

def addGroup (t : BTreeIndex K) (leafHint : Option NodeId) (group : K × List RowId) :
    Option (BatchStep K) := do
  let leafId ← t.findLeafFromHint group.1 leafHint
  let leaf ← t.node leafId
  let pos := leaf.findKeyPosition group.1
  if (leaf.keys[pos]?).any (· == group.1) then
    if t.unique then some (.fails t)
    else
      let ids ← leaf.values[pos]?
      let values ← Vec.setAt leaf.values pos (ids ++ group.2)
      finish (t.setNode leafId { leaf with values }) leafId leaf.keyCount
  else
    let keys ← Vec.insertAt leaf.keys pos group.1
    let values ← Vec.insertAt leaf.values pos group.2
    finish (t.setNode leafId { leaf with keys, values }) leafId keys.length
where
  finish (t : BTreeIndex K) (leafId : NodeId) (keyCount : Nat) : Option (BatchStep K) := do
    let t := t.addRows group.2.length
    if keyCount ≥ t.order then
      let t ← t.splitLeaf leafId
      some (.continues t none)
    else some (.continues t (some leafId))

def addGroups (t : BTreeIndex K) (leafHint : Option NodeId) :
    List (K × List RowId) → Option (BTreeIndex K × Except IndexError Unit)
  | [] => some (t, .ok ())
  | group :: rest => do
    match ← t.addGroup leafHint group with
    | .continues t leafHint => t.addGroups leafHint rest
    | .fails t => some (t, .error .duplicateKey)

/-- Adds a slice of entries in key order, reusing the last leaf as a hint. -/
def addBatch (t : BTreeIndex K) (entries : List (K × RowId)) :
    Option (BTreeIndex K × Except IndexError Unit) := do
  let sortedEntries := sortEntries entries
  let duplicate ← if t.unique then t.findDuplicate none sortedEntries else some false
  if duplicate then some (t, .error .duplicateKey)
  else t.addGroups none (groupEntries sortedEntries)

/-- The provided `add_batch` of the `Index` trait: one `add` after the other up to
the first error. -/
def addEach (t : BTreeIndex K) :
    List (K × RowId) → Option (BTreeIndex K × Except IndexError Unit)
  | [] => some (t, .ok ())
  | (key, id) :: rest => do
    match ← t.insert key id with
    | (t, .ok ()) => t.addEach rest
    | (t, .error e) => some (t, .error e)

end Batches

section Queries

variable [Ord K] [BEq K]

def set (t : BTreeIndex K) (key : K) (value : RowId) : Option (BTreeIndex K) := do
  let t ← t.delete key none
  let (t, _) ← t.insert key value
  some t

def get (t : BTreeIndex K) (key : K) : Option (List RowId) := do
  let leafId ← t.findLeaf key
  let leaf ← t.node leafId
  match leaf.findKey key with
  | some pos => leaf.values[pos]?
  | none => some []

def containsKey (t : BTreeIndex K) (key : K) : Option Bool := do
  let leafId ← t.findLeaf key
  let leaf ← t.node leafId
  some (leaf.findKey key).isSome

def len (t : BTreeIndex K) : Nat := t.stats.totalRows

def clear (t : BTreeIndex K) : BTreeIndex K :=
  { t with arena := [Node.newLeaf], root := 0, stats := t.stats.clear }

end Queries

end BTreeIndex

end Cynos.Index
