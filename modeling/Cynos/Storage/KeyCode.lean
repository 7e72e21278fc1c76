import Cynos.Storage.IndexLaws

/-! The primary and secondary indexes of a store, over keys whose values an order code tells
apart. -/
namespace Cynos.Storage

open Core (Row Scalar Value)
open Index (BTreeIndex HashIndex RowId)

section Code

variable {V : Type} [LinearOrder V]

/-- Values that are ordered by a code, and equal where they compare as equal. Floats are left
out: a hash map tells equal ones apart by their bits. -/
structure ValueCode (V : Type) [LinearOrder V] where
  encode : Scalar → V
  Ok : Scalar → Prop
  cmp_eq : ∀ a b, Ok a → Ok b → a.cmp b = compare (encode a) (encode b)
  eq_iff : ∀ a b, Ok a → Ok b → (a.eq b = true ↔ a.cmp b = .eq)
  not_float : ∀ f, ¬Ok (.float64 f)

namespace ValueCode

variable (code : ValueCode V)

def value : Value Scalar → Value V := Option.map code.encode

def OkValue : Value Scalar → Prop
  | none => True
  | some scalar => code.Ok scalar

def keyOf : IndexKey Scalar → IndexKey V
  | .scalar value => .scalar (code.value value)
  | .composite values => .composite (values.map code.value)
  | .compositePrefixLower values => .compositePrefixLower (values.map code.value)
  | .compositePrefixUpper values => .compositePrefixUpper (values.map code.value)

def OkKey : IndexKey Scalar → Prop
  | .scalar value => code.OkValue value
  | .composite values | .compositePrefixLower values | .compositePrefixUpper values =>
    ∀ value ∈ values, code.OkValue value

def component : IndexKeyComponent Scalar → IndexKeyComponent V
  | .low => .low
  | .stop => .stop
  | .value value => .value (code.value value)
  | .high => .high

def OkComponent : IndexKeyComponent Scalar → Prop
  | .value value => code.OkValue value
  | _ => True

variable {code}

theorem value_cmp {a b : Value Scalar} (ha : code.OkValue a) (hb : code.OkValue b) :
    Value.cmp a b = compare (code.value a) (code.value b) := by
  cases a with
  | none =>
    cases b with
    | none => exact (compare_eq_iff_eq.mpr rfl).symm
    | some b => exact (compare_lt_iff_lt.mpr (WithBot.bot_lt_coe (code.encode b))).symm
  | some a =>
    cases b with
    | none => exact (compare_gt_iff_gt.mpr (WithBot.bot_lt_coe (code.encode a))).symm
    | some b =>
      refine (code.cmp_eq a b ha hb).trans ?_
      rcases hcmp : compare (code.encode a) (code.encode b)
      · exact (compare_lt_iff_lt.mpr (WithBot.coe_lt_coe.mpr (compare_lt_iff_lt.mp hcmp))).symm
      · exact (compare_eq_iff_eq.mpr (congrArg WithBot.some (compare_eq_iff_eq.mp hcmp))).symm
      · exact (compare_gt_iff_gt.mpr (WithBot.coe_lt_coe.mpr (compare_gt_iff_gt.mp hcmp))).symm

theorem value_eq_iff {a b : Value Scalar} (ha : code.OkValue a) (hb : code.OkValue b) :
    Value.eq a b = true ↔ code.value a = code.value b := by
  have heq : Value.eq a b = true ↔ Value.cmp a b = .eq := by
    cases a with
    | none => cases b <;> simp [Value.eq, Value.cmp]
    | some a =>
      cases b with
      | none => simp [Value.eq, Value.cmp]
      | some b => exact code.eq_iff a b ha hb
  rw [heq, value_cmp ha hb, compare_eq_iff_eq]

theorem component_cmp {a b : IndexKeyComponent Scalar} (ha : code.OkComponent a)
    (hb : code.OkComponent b) :
    @IndexKeyComponent.cmp Scalar ⟨Value.cmp⟩ a b = (code.component a).cmp (code.component b) := by
  cases a <;> cases b <;> first | rfl | exact value_cmp ha hb

theorem componentAt_values {values : List (Value Scalar)} (h : ∀ v ∈ values, code.OkValue v)
    (last : IndexKeyComponent Scalar) (hlast : code.OkComponent last) (i : Nat) :
    code.OkComponent ((values[i]?.map .value).getD last) ∧
      code.component ((values[i]?.map .value).getD last) =
        (((values.map code.value)[i]?.map .value).getD (code.component last)) := by
  rw [List.getElem?_map]
  cases hvalue : values[i]? with
  | none => exact ⟨hlast, rfl⟩
  | some value => exact ⟨h value (List.mem_of_getElem? hvalue), rfl⟩

theorem componentAt (key : IndexKey Scalar) (h : code.OkKey key) (i : Nat) :
    code.OkComponent (key.compositeComponentAt i) ∧
      code.component (key.compositeComponentAt i) = (code.keyOf key).compositeComponentAt i := by
  cases key with
  | scalar value =>
    simp only [IndexKey.compositeComponentAt, keyOf]
    split
    · exact ⟨h, rfl⟩
    · exact ⟨trivial, rfl⟩
  | composite values => exact componentAt_values h .stop trivial i
  | compositePrefixLower values => exact componentAt_values h .low trivial i
  | compositePrefixUpper values => exact componentAt_values h .high trivial i

theorem length_keyOf (key : IndexKey Scalar) :
    (code.keyOf key).compositeLikeLen = key.compositeLikeLen := by
  cases key <;> simp [keyOf, IndexKey.compositeLikeLen]

omit [LinearOrder V] in
theorem cmpFrom_congr {U W : Type} {o : Ord (Value U)} {o' : Ord (Value W)}
    {left right : Nat → IndexKeyComponent U} {left' right' : Nat → IndexKeyComponent W}
    (h : ∀ i, (left i).cmp (right i) = (left' i).cmp (right' i)) (index count : Nat) :
    IndexKeyComponent.cmpFrom left right index count =
      IndexKeyComponent.cmpFrom left' right' index count := by
  induction count generalizing index with
  | zero => rfl
  | succ count ih => rw [IndexKeyComponent.cmpFrom, IndexKeyComponent.cmpFrom, h, ih]

/-- The trees compare the codes of keys as the source compares the keys. -/
theorem keyCmp_eq {a b : IndexKey Scalar} (ha : code.OkKey a) (hb : code.OkKey b) :
    keyCmp a b = compare (code.keyOf a) (code.keyOf b) := by
  have hparts (i : Nat) :
      @IndexKeyComponent.cmp Scalar ⟨Value.cmp⟩ (a.compositeComponentAt i)
          (b.compositeComponentAt i) =
        ((code.keyOf a).compositeComponentAt i).cmp ((code.keyOf b).compositeComponentAt i) := by
    obtain ⟨hokA, hcodeA⟩ := componentAt a ha i
    obtain ⟨hokB, hcodeB⟩ := componentAt b hb i
    rw [← hcodeA, ← hcodeB]
    exact component_cmp hokA hokB
  have hloop := @cmpFrom_congr Scalar V ⟨Value.cmp⟩ _ _ _ _ _ hparts 0
    (max a.compositeLikeLen b.compositeLikeLen + 1)
  cases a <;> cases b
  case scalar.scalar => exact value_cmp ha hb
  all_goals first
    | rfl
    | exact hloop.trans (by
        rw [← @length_keyOf V _ code, ← @length_keyOf V _ code]
        rfl)

theorem values_eq_iff {vs ws : List (Value Scalar)} (hvs : ∀ v ∈ vs, code.OkValue v)
    (hws : ∀ w ∈ ws, code.OkValue w) :
    vs.isEqv ws Value.eq = true ↔ vs.map code.value = ws.map code.value := by
  induction vs generalizing ws with
  | nil => cases ws <;> simp
  | cons v vs ih =>
    cases ws with
    | nil => simp
    | cons w ws =>
      rw [List.forall_mem_cons] at hvs hws
      rw [List.isEqv, Bool.and_eq_true, value_eq_iff hvs.1 hws.1, ih hvs.2 hws.2, List.map_cons,
        List.map_cons, List.cons.injEq]

theorem eq_iff_keyOf {a b : IndexKey Scalar} (ha : code.OkKey a) (hb : code.OkKey b) :
    a.eq b = true ↔ code.keyOf a = code.keyOf b := by
  cases a <;> cases b
  case scalar.scalar v w =>
    rw [IndexKey.eq, value_eq_iff ha hb, keyOf, keyOf, IndexKey.scalar.injEq]
  case composite.composite vs ws =>
    rw [IndexKey.eq, values_eq_iff ha hb, keyOf, keyOf, IndexKey.composite.injEq]
  case compositePrefixLower.compositePrefixLower vs ws =>
    rw [IndexKey.eq, values_eq_iff ha hb, keyOf, keyOf, IndexKey.compositePrefixLower.injEq]
  case compositePrefixUpper.compositePrefixUpper vs ws =>
    rw [IndexKey.eq, values_eq_iff ha hb, keyOf, keyOf, IndexKey.compositePrefixUpper.injEq]
  all_goals simp [IndexKey.eq, keyOf]

end ValueCode

/-- The indexes of a store, whose keys of the kind `Ok` are equal when they are not told apart. -/
structure KeyLaws {P S κ : Type} [LinearOrder κ] (keys : KeyOps P S) (keyOf : IndexKey Scalar → κ)
    (Ok : IndexKey Scalar → Prop) where
  primary : IndexLaws keys.primary keys.primaryBatch keyOf
  secondary : IndexLaws keys.secondary keys.secondaryBatch keyOf
  newPrimary : Listing primary true (fun _ _ => False) keys.newPrimary
  newSecondary : ∀ indexType unique,
    Listing secondary unique (fun _ _ => False) (keys.newSecondary indexType unique)
  eq_iff : ∀ {a b}, Ok a → Ok b → (a.eq b = true ↔ keyOf a = keyOf b)
  cmp_iff : ∀ {a b}, Ok a → Ok b → (keyCmp a b = .eq ↔ keyOf a = keyOf b)

section Stores

variable {κ : Type} [LinearOrder κ] (keyOf : IndexKey Scalar → κ)

inductive SecondaryIndexStore (κ : Type) where
  | bTree (index : BTreeIndex κ)
  | hash (index : HashIndex κ)

namespace SecondaryIndexStore

def new : IndexType → Bool → SecondaryIndexStore κ
  | .hash, unique => .hash (.new unique)
  | .bTree, unique | .gin, unique => .bTree (.new 64 unique)

def store : IndexStore (SecondaryIndexStore κ) where
  containsIndexKey
    | .bTree index, key => (bTreeIndexStore keyOf).containsIndexKey index key
    | .hash index, key => (hashIndexStore keyOf).containsIndexKey index key
  addIndexKey
    | .bTree index, key, id =>
      ((bTreeIndexStore keyOf).addIndexKey index key id).map .bTree fun added => added
    | .hash index, key, id =>
      ((hashIndexStore keyOf).addIndexKey index key id).map .hash fun added => added
  removeIndexKey
    | .bTree index, key, id => .bTree ((bTreeIndexStore keyOf).removeIndexKey index key id)
    | .hash index, key, id => .hash ((hashIndexStore keyOf).removeIndexKey index key id)
  isUnique
    | .bTree index => (bTreeIndexStore keyOf).isUnique index
    | .hash index => (hashIndexStore keyOf).isUnique index

def batchStore : BatchStore (SecondaryIndexStore κ) where
  addBatchIndexKeys
    | .bTree index, entries =>
      ((bTreeBatchStore keyOf).addBatchIndexKeys index entries).map .bTree fun added => added
    | .hash index, entries =>
      ((hashBatchStore keyOf).addBatchIndexKeys index entries).map .hash fun added => added
  removeBatchIndexKeys
    | .bTree index, entries => .bTree ((bTreeBatchStore keyOf).removeBatchIndexKeys index entries)
    | .hash index, entries => .hash ((hashBatchStore keyOf).removeBatchIndexKeys index entries)
  clear
    | .bTree index => .bTree ((bTreeBatchStore keyOf).clear index)
    | .hash index => .hash ((hashBatchStore keyOf).clear index)

def laws : IndexLaws (store keyOf) (batchStore keyOf) keyOf where
  Inv
    | .bTree index => (bTreeLaws keyOf).Inv index
    | .hash index => (hashLaws keyOf).Inv index
  view
    | .bTree index => (bTreeLaws keyOf).view index
    | .hash index => (hashLaws keyOf).view index
  Meets
    | .bTree index, entries => (bTreeLaws keyOf).Meets index entries
    | .hash index, entries => (hashLaws keyOf).Meets index entries
  isUnique
    | .bTree index => (bTreeLaws keyOf).isUnique index
    | .hash index => (hashLaws keyOf).isUnique index
  contains {index} key h := by
    cases index with
    | bTree index => exact (bTreeLaws keyOf).contains key h
    | hash index => exact (hashLaws keyOf).contains key h
  add {index} key id h := by
    cases index with
    | bTree index => exact (bTreeLaws keyOf).add key id h
    | hash index => exact (hashLaws keyOf).add key id h
  remove {index} key id h := by
    cases index with
    | bTree index => exact (bTreeLaws keyOf).remove key id h
    | hash index => exact (hashLaws keyOf).remove key id h
  addBatch {index} entries h hmeets := by
    cases index with
    | bTree index => exact (bTreeLaws keyOf).addBatch entries h hmeets
    | hash index => exact (hashLaws keyOf).addBatch entries h hmeets
  removeBatch {index} entries h hdistinct := by
    cases index with
    | bTree index => exact (bTreeLaws keyOf).removeBatch entries h hdistinct
    | hash index => exact (hashLaws keyOf).removeBatch entries h hdistinct
  clear {index} h := by
    cases index with
    | bTree index => exact (bTreeLaws keyOf).clear h
    | hash index => exact (hashLaws keyOf).clear h
  meets_empty {index} h hempty entries := by
    cases index with
    | bTree index => exact (bTreeLaws keyOf).meets_empty h hempty entries
    | hash index => exact (hashLaws keyOf).meets_empty h hempty entries

theorem listing_new (indexType : IndexType) (unique : Bool) :
    Listing (laws keyOf) unique (fun _ _ => False) (new indexType unique) := by
  have htree := listing_newTree keyOf unique
  have hhash := listing_newHash keyOf unique
  cases indexType with
  | hash => exact ⟨hhash.inv, hhash.distinct, hhash.isUnique, hhash.lists⟩
  | bTree | gin => exact ⟨htree.inv, htree.distinct, htree.isUnique, htree.lists⟩

end SecondaryIndexStore

/-- A tree for the primary key, trees and hash maps for the others. -/
def codedKeys (debugValues : List (Value Scalar) → String) :
    KeyOps (BTreeIndex κ) (SecondaryIndexStore κ) where
  primary := bTreeIndexStore keyOf
  secondary := SecondaryIndexStore.store keyOf
  primaryBatch := bTreeBatchStore keyOf
  secondaryBatch := SecondaryIndexStore.batchStore keyOf
  newPrimary := .new 64 true
  newSecondary := .new
  debugValues := debugValues

end Stores

def ValueCode.laws (code : ValueCode V) (debugValues : List (Value Scalar) → String) :
    KeyLaws (codedKeys code.keyOf debugValues) code.keyOf code.OkKey where
  primary := bTreeLaws code.keyOf
  secondary := SecondaryIndexStore.laws code.keyOf
  newPrimary := listing_newTree code.keyOf true
  newSecondary := SecondaryIndexStore.listing_new code.keyOf
  eq_iff := eq_iff_keyOf
  cmp_iff ha hb := by rw [keyCmp_eq ha hb, compare_eq_iff_eq]

end Code

end Cynos.Storage
