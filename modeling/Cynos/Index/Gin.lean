import Cynos.Index.GinBulk
import Cynos.Index.Trigram
import Cynos.Lib.HashMap

/-! The GIN index: posting lists under keys and under pairs of a key and a value, with the
builder that collects the tokens of many rows before they are merged in. -/
namespace Cynos.Index

section Rows

structure GinBulkRows where
  rows : List RowId
  sortedUnique : Bool

namespace GinBulkRows

def default : GinBulkRows := ⟨[], false⟩

def push (r : GinBulkRows) (rowId : RowId) : GinBulkRows :=
  match r.rows.getLast? with
  | none => ⟨r.rows ++ [rowId], true⟩
  | some last =>
    if rowId > last then { r with rows := r.rows ++ [rowId] }
    else if rowId = last then r
    else ⟨r.rows ++ [rowId], false⟩

def intoSortedUnique (r : GinBulkRows) : List RowId :=
  if r.sortedUnique then r.rows else Ascending.dedup (r.rows.mergeSort (· ≤ ·))

end GinBulkRows

end Rows

section Builder

def trigramCacheCapacity : Nat := 256

abbrev ValueRows (V : Type) := HashMap String (HashMap String V)

structure GinBulkBuilder where
  keyIndex : HashMap String GinBulkRows
  keyValueIndex : ValueRows GinBulkRows
  containsValueIndex : ValueRows GinBulkRows
  trigramCache : HashMap String (List Nat)
  keyAddCount : Nat

structure GinBulkDelta where
  keyIndex : HashMap String PostingList
  keyValueIndex : HashMap (String × String) PostingList
  keyAddCount : Nat

namespace GinBulkBuilder

def new : GinBulkBuilder := ⟨∅, ∅, ∅, ∅, 0⟩

def pushRow (rowId : RowId) (rows : Option GinBulkRows) : GinBulkRows :=
  (rows.getD .default).push rowId

def pushUnder (index : ValueRows GinBulkRows) (key value : String) (rowId : RowId) :
    ValueRows GinBulkRows :=
  index.upsert key fun values => (values.getD ∅).upsert value (pushRow rowId)

def addKey (b : GinBulkBuilder) (key : String) (rowId : RowId) : GinBulkBuilder :=
  { b with
    keyAddCount := b.keyAddCount + 1
    keyIndex := b.keyIndex.upsert key (pushRow rowId) }

def addKeyValue (b : GinBulkBuilder) (key value : String) (rowId : RowId) : GinBulkBuilder :=
  { b with keyValueIndex := pushUnder b.keyValueIndex key value rowId }

def addContainsValue (b : GinBulkBuilder) (containsKey value : String) (rowId : RowId) :
    GinBulkBuilder :=
  { b with containsValueIndex := pushUnder b.containsValueIndex containsKey value rowId }

def trigramCodeCountForValue (b : GinBulkBuilder) (needle : String) : GinBulkBuilder × Nat :=
  match b.trigramCache.get needle with
  | some cached => (b, cached.length)
  | none =>
    let codes := uniqueTrigramCodes needle
    if b.trigramCache.iter.length < trigramCacheCapacity then
      ({ b with trigramCache := b.trigramCache.insert needle codes }, codes.length)
    else (b, codes.length)

def addContainsTrigramsForKey (b : GinBulkBuilder) (containsKey needle : String)
    (rowId : RowId) : GinBulkBuilder × Nat :=
  (b.addContainsValue containsKey needle rowId).trigramCodeCountForValue needle

def addContainsTrigrams (b : GinBulkBuilder) (path needle : String) (rowId : RowId) :
    GinBulkBuilder × Nat :=
  b.addContainsTrigramsForKey (containsTrigramKey path) needle rowId

def addTrigramRows (rows : List RowId) (keyValues : HashMap String (List RowId))
    (codes : List Nat) : HashMap String (List RowId) :=
  codes.foldl (fun keyValues code => keyValues.upsert (trigramStringFromCode code) fun entry =>
    extendSortedUniqueRows (entry.getD []) rows) keyValues

/-- The rows of one text go under each of its trigrams. -/
def expandValue (state : HashMap String (List RowId) × HashMap String (List Nat))
    (entry : String × GinBulkRows) : HashMap String (List RowId) × HashMap String (List Nat) :=
  let (keyValues, trigramCache) := state
  let (value, bulkRows) := entry
  let rows := bulkRows.intoSortedUnique
  match trigramCache.get value with
  | some cached => (addTrigramRows rows keyValues cached, trigramCache)
  | none =>
    let codes := uniqueTrigramCodes value
    (addTrigramRows rows keyValues codes,
      if trigramCache.iter.length < trigramCacheCapacity then trigramCache.insert value codes
      else trigramCache)

def expandKey (state : ValueRows (List RowId) × HashMap String (List Nat))
    (entry : String × HashMap String GinBulkRows) :
    ValueRows (List RowId) × HashMap String (List Nat) :=
  let (keyValueIndex, trigramCache) := state
  let (containsKey, values) := entry
  let (keyValues, trigramCache) :=
    values.iter.foldl expandValue ((keyValueIndex.get containsKey).getD ∅, trigramCache)
  (keyValueIndex.insert containsKey keyValues, trigramCache)

def finish (b : GinBulkBuilder) : GinBulkDelta :=
  let keyValueIndex := b.keyValueIndex.mapValues (·.mapValues GinBulkRows.intoSortedUnique)
  let (keyValueIndex, _) :=
    b.containsValueIndex.iter.foldl expandKey (keyValueIndex, b.trigramCache)
  { keyIndex := b.keyIndex.mapValues fun rows => ⟨rows.intoSortedUnique⟩
    keyValueIndex := HashMap.collect (keyValueIndex.iter.flatMap fun entry =>
      entry.2.iter.map fun e => ((entry.1, e.1), ⟨e.2⟩))
    keyAddCount := b.keyAddCount }

end GinBulkBuilder

end Builder

structure GinIndex where
  keyIndex : HashMap String PostingList
  keyValueIndex : HashMap (String × String) PostingList
  stats : IndexStats

namespace GinIndex

def new : GinIndex := ⟨∅, ∅, .new⟩

section Changes

def addPosting (rowId : RowId) (posting : Option PostingList) : PostingList :=
  (posting.getD .new).add rowId

/-- Indexes a key for a given row. -/
def addKey (g : GinIndex) (key : String) (rowId : RowId) : GinIndex :=
  { g with
    keyIndex := g.keyIndex.upsert key (addPosting rowId)
    stats := g.stats.addRows 1 }

/-- Indexes a key-value pair for a given row. -/
def addKeyValue (g : GinIndex) (key value : String) (rowId : RowId) : GinIndex :=
  { g with keyValueIndex := g.keyValueIndex.upsert (key, value) (addPosting rowId) }

/-- Indexes the trigrams of a text, and counts them. -/
def addContainsTrigrams (g : GinIndex) (path needle : String) (rowId : RowId) : GinIndex × Nat :=
  let key := containsTrigramKey path
  let codes := uniqueTrigramCodes needle
  (codes.foldl (fun g code => g.addKeyValue key (trigramStringFromCode code) rowId) g,
    codes.length)

def mergePosting (posting : PostingList) : Option PostingList → PostingList
  | some existing => existing.merge posting
  | none => posting

def applyBulkDelta (g : GinIndex) (delta : GinBulkDelta) : GinIndex :=
  { keyIndex := delta.keyIndex.iter.foldl (fun index e => index.upsert e.1 (mergePosting e.2))
      g.keyIndex
    keyValueIndex := delta.keyValueIndex.iter.foldl
      (fun index e => index.upsert e.1 (mergePosting e.2)) g.keyValueIndex
    stats := g.stats.addRows delta.keyAddCount }

def applyBulkBuilder (g : GinIndex) (builder : GinBulkBuilder) : GinIndex :=
  g.applyBulkDelta builder.finish

/-- Takes a row out of the posting list of a token, and the list out when it is empty. -/
def removePosting {T : Type} [DecidableEq T] (index : HashMap T PostingList) (token : T)
    (rowId : RowId) : HashMap T PostingList × Bool :=
  match index.get token with
  | none => (index, false)
  | some posting =>
    let (posting, removed) := posting.remove rowId
    (if posting.isEmpty then index.remove token else index.insert token posting, removed)

/-- Removes a key entry for a given row. -/
def removeKey (g : GinIndex) (key : String) (rowId : RowId) : GinIndex :=
  let (keyIndex, removed) := removePosting g.keyIndex key rowId
  { g with keyIndex, stats := if removed then g.stats.removeRows 1 else g.stats }

/-- Removes a key-value entry for a given row. -/
def removeKeyValue (g : GinIndex) (key value : String) (rowId : RowId) : GinIndex :=
  { g with keyValueIndex := (removePosting g.keyValueIndex (key, value) rowId).1 }

def clear (g : GinIndex) : GinIndex := ⟨∅, ∅, g.stats.clear⟩

end Changes

section Queries

/-- Gets all row IDs that contain the given key. -/
def getByKey (g : GinIndex) (key : String) : List RowId :=
  ((g.keyIndex.get key).map PostingList.rows).getD []

/-- Gets all row IDs that contain the given key-value pair. -/
def getByKeyValue (g : GinIndex) (key value : String) : List RowId :=
  ((g.keyValueIndex.get (key, value)).map PostingList.rows).getD []

/-- Intersects the shorter lists first, until nothing is left. -/
def intersectPostings (result : List RowId) : List PostingList → List RowId
  | [] => result
  | posting :: postings =>
    let result := posting.intersectSortedCandidates result
    if result.isEmpty then result else intersectPostings result postings

def intersectAll {T : Type} [DecidableEq T] (index : HashMap T PostingList) (tokens : List T) :
    List RowId :=
  if tokens.isEmpty then []
  else match tokens.mapM index.get with
    | none => []
    | some postings =>
      match postings.mergeSort (fun p q => p.len ≤ q.len) with
      | [] => []
      | first :: rest => intersectPostings first.rows rest

def unionAny {T : Type} [DecidableEq T] (index : HashMap T PostingList) (tokens : List T) :
    List RowId :=
  (tokens.foldl (fun result token => (index.get token).elim result result.union)
    PostingList.new).rows

/-- Gets all row IDs that contain all of the given keys. -/
def getByKeysAll (g : GinIndex) (keys : List String) : List RowId := intersectAll g.keyIndex keys

/-- Gets all row IDs that contain any of the given keys. -/
def getByKeysAny (g : GinIndex) (keys : List String) : List RowId := unionAny g.keyIndex keys

/-- Gets all row IDs that contain all of the given key-value pairs. -/
def getByKeyValuesAll (g : GinIndex) (pairs : List (String × String)) : List RowId :=
  intersectAll g.keyValueIndex pairs

/-- Gets all row IDs that contain any of the given key-value pairs. -/
def getByKeyValuesAny (g : GinIndex) (pairs : List (String × String)) : List RowId :=
  unionAny g.keyValueIndex pairs

end Queries

end GinIndex

end Cynos.Index
