import Cynos.Index.BTree

/-! Range scans: where a scan starts, the iterator over the leaf links, and the
loop that skips, limits and visits. -/
namespace Cynos.Index

structure BTreeIterator where
  currentNode : Option NodeId
  currentPos : Nat
  valuePos : Nat
  reverse : Bool
  deriving DecidableEq, Repr

namespace BTreeIndex

variable {K : Type}

section Iterator

def newAt (nodeId : NodeId) (pos : Nat) (reverse : Bool) : BTreeIterator :=
  { currentNode := some nodeId, currentPos := pos, valuePos := 0, reverse }

/-- Advances to the next key, skipping what is left of the current one. -/
def advanceKey (t : BTreeIndex K) (it : BTreeIterator) : Option BTreeIterator :=
  match it.currentNode with
  | none => some it
  | some nodeId => do
    let node ← t.node nodeId
    let it ←
      if it.reverse then
        if it.currentPos > 0 then some { it with currentPos := it.currentPos - 1 }
        else match node.prev with
          | none => some { it with currentNode := none }
          | some prevId => do
            let prev ← t.node prevId
            let pos := if prev.keys.isEmpty then 0 else prev.keys.length - 1
            some { it with currentNode := some prevId, currentPos := pos }
      else if it.currentPos + 1 ≥ node.keys.length then
        some { it with currentNode := node.next, currentPos := 0 }
      else some { it with currentPos := it.currentPos + 1 }
    some { it with valuePos := 0 }

def next (t : BTreeIndex K) : Nat → BTreeIterator → Option (Option (K × RowId) × BTreeIterator)
  | 0, _ => none
  | fuel + 1, it =>
    match it.currentNode with
    | none => some (none, it)
    | some nodeId => do
      let node ← t.node nodeId
      if node.keys.isEmpty then some (none, it)
      else if it.currentPos ≥ node.keys.length then
        let it ← t.advanceKey it
        t.next fuel it
      else
        let key ← node.keys[it.currentPos]?
        let values ← node.values[it.currentPos]?
        match values[it.valuePos]? with
        | some value => some (some (key, value), { it with valuePos := it.valuePos + 1 })
        | none =>
          let it ← t.advanceKey it
          t.next fuel it

end Iterator

section Start

def leftmostFrom (t : BTreeIndex K) : Nat → NodeId → Option NodeId
  | 0, _ => none
  | fuel + 1, current => do
    let node ← t.node current
    if node.isLeaf then some current
    else
      let child ← node.children.head?
      t.leftmostFrom fuel child

def rightmostFrom (t : BTreeIndex K) : Nat → NodeId → Option NodeId
  | 0, _ => none
  | fuel + 1, current => do
    let node ← t.node current
    if node.isLeaf then some current
    else
      let child ← node.children.getLast?
      t.rightmostFrom fuel child

def leftmostLeaf (t : BTreeIndex K) : Option NodeId := t.leftmostFrom t.arena.length t.root
def rightmostLeaf (t : BTreeIndex K) : Option NodeId := t.rightmostFrom t.arena.length t.root

/-- The minimum key and its values. -/
protected def min (t : BTreeIndex K) : Option (Option (K × List RowId)) := do
  let leafId ← t.leftmostLeaf
  let leaf ← t.node leafId
  if leaf.isEmpty then some none
  else
    let key ← leaf.keys.head?
    let values ← leaf.values.head?
    some (some (key, values))

/-- The maximum key and its values. -/
protected def max (t : BTreeIndex K) : Option (Option (K × List RowId)) := do
  let leafId ← t.rightmostLeaf
  let leaf ← t.node leafId
  if leaf.isEmpty then some none
  else
    let last := leaf.keyCount - 1
    let key ← leaf.keys[last]?
    let values ← leaf.values[last]?
    some (some (key, values))

/-- A start `some none` is a scan without entries. -/
def firstStart (t : BTreeIndex K) : Option (Option (NodeId × Nat)) := do
  let leafId ← t.leftmostLeaf
  let leaf ← t.node leafId
  some (if leaf.isEmpty then none else some (leafId, 0))

def lastStart (t : BTreeIndex K) : Option (Option (NodeId × Nat)) := do
  let leafId ← t.rightmostLeaf
  let leaf ← t.node leafId
  some (if leaf.isEmpty then none else some (leafId, leaf.keyCount - 1))

variable [Ord K] [BEq K]

/-- The estimated number of rows in a key range. -/
def cost (t : BTreeIndex K) : KeyRange K → Option Nat
  | .all => some t.stats.totalRows
  | .only key => (t.get key).map List.length
  | .lowerBound _ _ | .upperBound _ _ | .bound _ _ _ _ => some t.stats.totalRows

def startFrom (t : BTreeIndex K) (key : K) : Option (Option (NodeId × Nat)) := do
  let leafId ← t.findLeaf key
  let leaf ← t.node leafId
  let pos := leaf.findKeyPosition key
  some (if pos < leaf.keyCount then some (leafId, pos) else leaf.next.map fun next => (next, 0))

def startBefore (t : BTreeIndex K) (key : K) : Option (Option (NodeId × Nat)) := do
  let leafId ← t.findLeaf key
  let leaf ← t.node leafId
  let pos := leaf.findKeyPosition key
  if pos > 0 then some (some (leafId, pos - 1))
  else match leaf.prev with
    | none => some none
    | some prevId => do
      let prev ← t.node prevId
      some (if prev.isEmpty then none else some (prevId, prev.keyCount - 1))

/-- Finds the leaf and position where a forward scan starts. -/
def findRangeStart (t : BTreeIndex K) : KeyRange K → Option (Option (NodeId × Nat))
  | .all => t.firstStart
  | .only key => t.startFrom key
  | .lowerBound key _ => t.startFrom key
  | .upperBound _ _ => t.firstStart
  | .bound lower _ _ _ => t.startFrom lower

/-- The reverse start that `visit_range` computes. -/
def findReverseStart (t : BTreeIndex K) : KeyRange K → Option (Option (NodeId × Nat))
  | .all => t.lastStart
  | .lowerBound _ _ => t.lastStart
  | .only key => t.startBefore key
  | .upperBound key _ => t.startBefore key
  | .bound _ key _ _ => t.startBefore key

end Start

section Visit

variable [Ord K] [BEq K]

def keyPastForwardRange : KeyRange K → K → Bool
  | .all, _ => false
  | .lowerBound _ _, _ => false
  | .only value, key => keyGt key value
  | .upperBound value exclusive, key => if exclusive then keyGe key value else keyGt key value
  | .bound _ upper _ upperExclusive, key =>
    if upperExclusive then keyGe key upper else keyGt key upper

def keyPastReverseRange : KeyRange K → K → Bool
  | .all, _ => false
  | .upperBound _ _, _ => false
  | .only value, key => keyLt key value
  | .lowerBound value exclusive, key => if exclusive then keyLe key value else keyLt key value
  | .bound lower _ lowerExclusive _, key =>
    if lowerExclusive then keyLe key lower else keyLt key lower

variable {σ : Type}

def visitLoop (t : BTreeIndex K) (range : KeyRange K) (limit : Option Nat) (skip : Nat)
    (visitor : σ → RowId → σ × Bool) : Nat → BTreeIterator → Nat → Nat → σ → Option σ
  | 0, _, _, _, _ => none
  | fuel + 1, it, skipped, emitted, state => do
    let (item, it) ← t.next (t.arena.length + 1) it
    match item with
    | none => some state
    | some (key, rowId) =>
      if range.contains key then
        if skipped < skip then
          t.visitLoop range limit skip visitor fuel it (skipped + 1) emitted state
        else if limit.any (emitted ≥ ·) then some state
        else
          let (state, goOn) := visitor state rowId
          if goOn then t.visitLoop range limit skip visitor fuel it skipped (emitted + 1) state
          else some state
      else if (!it.reverse && keyPastForwardRange range key) ||
          (it.reverse && keyPastReverseRange range key) then some state
      else t.visitLoop range limit skip visitor fuel it skipped emitted state

/-- Visits the row ids within a key range until the visitor returns `false`. -/
def visitRange (t : BTreeIndex K) (range : Option (KeyRange K)) (reverse : Bool)
    (limit : Option Nat) (skip : Nat) (visitor : σ → RowId → σ × Bool) (state : σ) :
    Option σ := do
  let range := range.getD .all
  let start ← if reverse then t.findReverseStart range else t.findRangeStart range
  match start with
  | none => some state
  | some (startNode, startPos) =>
    t.visitLoop range limit skip visitor (t.len + 1) (newAt startNode startPos reverse) 0 0 state

def getRange (t : BTreeIndex K) (range : Option (KeyRange K)) (reverse : Bool)
    (limit : Option Nat) (skip : Nat) : Option (List RowId) :=
  t.visitRange range reverse limit skip (fun result rowId => (result ++ [rowId], true)) []

end Visit

end BTreeIndex

section Scan

variable {K : Type} [Ord K] [BEq K]

/-- What a scan of the stored entries yields, from the definition of the range. -/
def KeyRange.scan (range : KeyRange K) (entries : List (K × List RowId)) (reverse : Bool)
    (limit : Option Nat) (skip : Nat) : List RowId :=
  let inOrder := if reverse then entries.reverse else entries
  let rows := ((inOrder.filter fun e => range.contains e.1).flatMap Prod.snd).drop skip
  limit.elim rows rows.take

/-- Offers row ids to a visitor until it returns `false`. -/
def offer {σ : Type} (visitor : σ → RowId → σ × Bool) (state : σ) : List RowId → σ
  | [] => state
  | id :: ids =>
    let (state, goOn) := visitor state id
    if goOn then offer visitor state ids else state

end Scan

end Cynos.Index
