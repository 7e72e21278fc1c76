import Cynos.Index.HashBatch
import Cynos.Storage.StoreRuns

/-! What the rows of a store rely on in an index: it holds a plain map of the keys it tells
apart, and its operations do to it what they do to such a map. B-trees and hash indexes keep
these laws. -/
namespace Cynos.Storage

open Core (Row Scalar Value)
open Index (BTreeIndex Clashes HashIndex PlainMap RowId)

section Laws

variable {I κ : Type} [LinearOrder κ]

def coded (keyOf : IndexKey Scalar → κ) (entries : BatchEntries) : List (κ × RowId) :=
  entries.map fun entry => (keyOf entry.1, entry.2)

/-- An index that tells keys apart by `keyOf` and takes in the batches it `Meets`. -/
structure IndexLaws (store : IndexStore I) (batch : BatchStore I) (keyOf : IndexKey Scalar → κ)
    where
  Inv : I → Prop
  view : I → PlainMap κ
  Meets : I → List (κ × RowId) → Prop
  isUnique : ∀ index, store.isUnique index = (view index).unique
  contains : ∀ {index} key, Inv index →
    store.containsIndexKey index key = !((view index).ids (keyOf key)).isEmpty
  add : ∀ {index} key id, Inv index → Inv (store.addIndexKey index key id).1 ∧
    (view (store.addIndexKey index key id).1).Same ((view index).add (keyOf key) id) ∧
    (store.addIndexKey index key id).2 =
      !((view index).unique && !((view index).ids (keyOf key)).isEmpty)
  remove : ∀ {index} key id, Inv index → Inv (store.removeIndexKey index key id) ∧
    (view (store.removeIndexKey index key id)).Same ((view index).remove (keyOf key) (some id))
  addBatch : ∀ {index} entries, Inv index → Meets index (coded keyOf entries) →
    Inv (batch.addBatchIndexKeys index entries).1 ∧
    (view (batch.addBatchIndexKeys index entries).1).Same
      ((view index).call (.addBatch (coded keyOf entries))) ∧
    ((batch.addBatchIndexKeys index entries).2 = true ↔
      ¬Clashes (view index).unique (view index).ids (coded keyOf entries))
  removeBatch : ∀ {index} entries, Inv index → (view index).Distinct →
    Inv (batch.removeBatchIndexKeys index entries) ∧
    (view (batch.removeBatchIndexKeys index entries)).Same
      ((view index).call (.removeBatch (coded keyOf entries)))
  clear : ∀ {index}, Inv index → Inv (batch.clear index) ∧
    (view (batch.clear index)).Same ((view index).call .clear)
  meets_empty : ∀ {index}, Inv index → (∀ key, (view index).ids key = []) → ∀ entries,
    Meets index entries

/-- An index that lists the pairs of `P`. -/
structure Listing {store : IndexStore I} {batch : BatchStore I} {keyOf : IndexKey Scalar → κ}
    (laws : IndexLaws store batch keyOf) (unique : Bool) (P : κ → RowId → Prop) (index : I) : Prop
    where
  inv : laws.Inv index
  distinct : (laws.view index).Distinct
  isUnique : (laws.view index).unique = unique
  lists : ∀ k r, r ∈ (laws.view index).ids k ↔ P k r

namespace Listing

variable {store : IndexStore I} {batch : BatchStore I} {keyOf : IndexKey Scalar → κ}
  {laws : IndexLaws store batch keyOf} {unique : Bool} {P Q : κ → RowId → Prop} {index : I}

theorem congr (h : Listing laws unique P index) (hPQ : ∀ k r, P k r ↔ Q k r) :
    Listing laws unique Q index :=
  ⟨h.inv, h.distinct, h.isUnique, fun k r => (h.lists k r).trans (hPQ k r)⟩

/-- From the plain map that a changed index holds. -/
theorem of_same {index' : I} {m : PlainMap κ} (h : Listing laws unique P index)
    (hinv : laws.Inv index') (hsame : (laws.view index').Same m) (hm : m.Distinct)
    (hunique : m.unique = (laws.view index).unique) (hQ : ∀ k r, r ∈ m.ids k ↔ Q k r) :
    Listing laws unique Q index' where
  inv := hinv
  distinct := hsame.distinct hm
  isUnique := hsame.unique.trans (hunique.trans h.isUnique)
  lists k r := (hsame.mem_iff k r).trans (hQ k r)

theorem storeUnique (h : Listing laws unique P index) : store.isUnique index = unique :=
  (laws.isUnique index).trans h.isUnique

theorem ids_ne_nil (h : Listing laws unique P index) (k : κ) :
    (laws.view index).ids k ≠ [] ↔ ∃ id, P k id := by
  rw [ne_eq, List.eq_nil_iff_forall_not_mem, not_forall_not]
  exact exists_congr fun id => h.lists k id

theorem contains_iff (h : Listing laws unique P index) (key : IndexKey Scalar) :
    store.containsIndexKey index key = true ↔ ∃ id, P (keyOf key) id := by
  rw [laws.contains key h.inv, ← h.ids_ne_nil, Bool.not_eq_true', List.isEmpty_eq_false_iff]

/-- A unique index lists one row id a key. -/
theorem single (h : Listing laws true P index) {k : κ} {id id' : RowId} (hid : P k id)
    (hid' : P k id') : id = id' :=
  h.distinct.unique h.isUnique ((h.lists k id).mpr hid) ((h.lists k id').mpr hid')

/-- A key is taken in unless the index is unique and has it. -/
theorem added_iff (h : Listing laws unique P index) (key : IndexKey Scalar) (id : RowId) :
    (store.addIndexKey index key id).2 = true ↔
      ¬(unique = true ∧ ∃ other, P (keyOf key) other) := by
  rw [(laws.add key id h.inv).2.2, h.isUnique, ← h.ids_ne_nil, Bool.not_eq_true',
    Bool.and_eq_false_iff]
  cases unique <;> simp

theorem add (h : Listing laws unique P index) {key : IndexKey Scalar} {id : RowId}
    (hfresh : ¬P (keyOf key) id) : Listing laws unique
      (fun k r => P k r ∨ (store.addIndexKey index key id).2 = true ∧ k = keyOf key ∧ r = id)
      (store.addIndexKey index key id).1 := by
  obtain ⟨hinv, hsame, hadded⟩ := laws.add key id h.inv
  obtain ⟨hdistinct, hunique, hids⟩ := h.distinct.add (mt (h.lists _ id).mp hfresh)
  refine h.of_same hinv hsame hdistinct hunique fun k r => ?_
  rw [hids, h.lists, hadded]

theorem remove (h : Listing laws unique P index) (key : IndexKey Scalar) (id : RowId) :
    Listing laws unique (fun k r => P k r ∧ ¬(k = keyOf key ∧ r = id))
      (store.removeIndexKey index key id) := by
  obtain ⟨hinv, hsame⟩ := laws.remove key id h.inv
  refine h.of_same hinv hsame (h.distinct.remove _ id) rfl fun k r => ?_
  rw [PlainMap.mem_remove, h.lists]

/-- Pairs that are not listed yet and come once are taken in, all or none of them. -/
theorem addBatch (h : Listing laws unique P index) {entries : BatchEntries}
    (hmeets : laws.Meets index (coded keyOf entries)) (hnodup : (coded keyOf entries).Nodup)
    (hfresh : ∀ entry ∈ coded keyOf entries, ¬P entry.1 entry.2) :
    ((batch.addBatchIndexKeys index entries).2 = true ↔ ¬(unique = true ∧
      ((∃ entry ∈ coded keyOf entries, ∃ id, P entry.1 id) ∨
        ¬((coded keyOf entries).map Prod.fst).Nodup))) ∧
    Listing laws unique (fun k r => P k r ∨
      (batch.addBatchIndexKeys index entries).2 = true ∧ (k, r) ∈ coded keyOf entries)
      (batch.addBatchIndexKeys index entries).1 := by
  obtain ⟨hinv, hsame, hadded⟩ := laws.addBatch entries h.inv hmeets
  obtain ⟨hdistinct, hunique, hids⟩ := h.distinct.addBatch hnodup
    fun entry hentry => mt (h.lists _ _).mp (hfresh entry hentry)
  refine ⟨?_, h.of_same hinv hsame hdistinct hunique fun k r => ?_⟩
  · simp only [hadded, Clashes, h.isUnique, h.ids_ne_nil]
  · rw [hids, h.lists, hadded]

theorem removeBatch (h : Listing laws unique P index) (entries : BatchEntries) :
    Listing laws unique (fun k r => P k r ∧ (k, r) ∉ coded keyOf entries)
      (batch.removeBatchIndexKeys index entries) := by
  obtain ⟨hinv, hsame⟩ := laws.removeBatch entries h.inv h.distinct
  refine h.of_same hinv hsame (h.distinct.removeBatch _) (PlainMap.removeBatch_ids _ _).1
    fun k r => ?_
  rw [PlainMap.mem_removeBatch, h.lists]

theorem clear (h : Listing laws unique P index) :
    Listing laws unique (fun _ _ => False) (batch.clear index) := by
  obtain ⟨hinv, hsame⟩ := laws.clear h.inv
  exact h.of_same hinv hsame PlainMap.distinct_clear rfl fun k r => by simp [PlainMap.call]

theorem meets_empty (h : Listing laws unique P index) (hempty : ∀ k r, ¬P k r)
    (entries : List (κ × RowId)) : laws.Meets index entries := by
  refine laws.meets_empty h.inv (fun k => ?_) entries
  by_contra hne
  obtain ⟨id, hid⟩ := (h.ids_ne_nil k).mp hne
  exact hempty k id hid

/-- The pair of a row id that is not listed at all comes in and goes out again. -/
theorem add_remove (h : Listing laws unique P index) {id : RowId} (hfresh : ∀ k, ¬P k id)
    (key : IndexKey Scalar) : Listing laws unique P
      (store.removeIndexKey (store.addIndexKey index key id).1 key id) := by
  refine ((h.add (hfresh _)).remove key id).congr fun k r => ?_
  constructor
  · rintro ⟨hP | ⟨-, hpair⟩, hnot⟩
    · exact hP
    · exact absurd hpair hnot
  · intro hP
    refine ⟨.inl hP, ?_⟩
    rintro ⟨-, rfl⟩
    exact hfresh k hP

theorem remove_absent (h : Listing laws unique P index) {id : RowId} (hfresh : ∀ k, ¬P k id)
    (key : IndexKey Scalar) : Listing laws unique P (store.removeIndexKey index key id) := by
  refine (h.remove key id).congr fun k r => and_iff_left_of_imp fun hP => ?_
  rintro ⟨-, rfl⟩
  exact hfresh k hP

/-- The pair of a row id moves to another key. -/
theorem move (h : Listing laws unique P index) {old new : IndexKey Scalar} {id : RowId}
    (hmine : ∀ k, P k id ↔ k = keyOf old) (hne : keyOf old ≠ keyOf new)
    (hfree : ¬(unique = true ∧ ∃ other, P (keyOf new) other)) : Listing laws unique
      (fun k r => r ≠ id ∧ P k r ∨ k = keyOf new ∧ r = id)
      (store.addIndexKey (store.removeIndexKey index old id) new id).1 := by
  have hremoved := h.remove old id
  have hadded : (store.addIndexKey (store.removeIndexKey index old id) new id).2 = true := by
    rw [hremoved.added_iff]
    rintro ⟨hunique, other, hother, -⟩
    exact hfree ⟨hunique, other, hother⟩
  have hfresh : ¬(P (keyOf new) id ∧ ¬(keyOf new = keyOf old ∧ id = id)) :=
    fun hnew => hne ((hmine _).mp hnew.1).symm
  refine (hremoved.add hfresh).congr fun k r => ?_
  rw [hadded]
  by_cases hr : r = id
  · subst hr
    simp [hmine]
  · simp [hr]

end Listing

end Laws

section Trees

variable {κ : Type} [LinearOrder κ] {t : BTreeIndex κ}

/-- The lists of a tree. -/
def treeView (t : BTreeIndex κ) : PlainMap κ := ⟨t.unique, fun key => (t.get key).getD []⟩

def IsTree (t : BTreeIndex κ) : Prop := ∃ leaves ups, Index.Tree t leaves ups

theorem treeView_eq {leaves : Index.Level κ} {ups : List (Index.Level κ)}
    (h : Index.Tree t leaves ups) : treeView t = t.plain leaves := by
  refine congrArg (PlainMap.mk t.unique) (funext fun key => ?_)
  rw [h.toShape.get_eq]
  rfl

/-- A call on a tree does what it does to the plain map of its lists. -/
theorem IsTree.call (h : IsTree t) (op : Index.Op κ) (hhints : t.meetsHints op)
    (hall : t.removesAll op) :
    ∃ t', t.call op = some t' ∧ IsTree t' ∧ (treeView t').Same ((treeView t).call op) := by
  obtain ⟨leaves, ups, htree⟩ := h
  obtain ⟨t', leaves', ups', hcall, htree', hholds⟩ := htree.call op hhints
  have hheld : Index.Holds t (treeView t) := by
    rw [treeView_eq htree]
    exact ⟨rfl, fun key => ⟨_, htree.toShape.get_eq key, .refl _⟩⟩
  obtain ⟨hunique, hids⟩ := hholds (treeView t) hheld hall
  refine ⟨t', hcall, ⟨leaves', ups', htree'⟩, hunique, fun key => ?_⟩
  obtain ⟨ids, hget, hperm⟩ := hids key
  change ((t'.get key).getD []).Perm _
  rwa [hget]

theorem IsTree.contains_eq (h : IsTree t) (key : κ) :
    t.containsKey key = some (!((treeView t).ids key).isEmpty) := by
  obtain ⟨leaves, ups, htree⟩ := h
  rw [htree.toShape.containsKey_eq, treeView_eq htree]
  rfl

/-- An addition tells whether the key was free. -/
theorem IsTree.insert (h : IsTree t) (key : κ) (id : RowId) :
    ∃ t' result, t.insert key id = some (t', result) ∧ IsTree t' ∧
      (treeView t').Same ((treeView t).add key id) ∧
      result = if (treeView t).unique && !((treeView t).ids key).isEmpty then .error .duplicateKey
        else .ok () := by
  obtain ⟨t', hcall, htree', hsame⟩ := h.call (.add key id) trivial trivial
  obtain ⟨leaves, ups, htree⟩ := h
  obtain ⟨t'', result, leaves', ups', hinsert, -, -, -, hstep, -⟩ := htree.insert key id
  obtain rfl : t'' = t' := by
    rw [BTreeIndex.call, hinsert] at hcall
    exact Option.some.inj hcall
  refine ⟨t'', result, hinsert, htree', hsame, ?_⟩
  rw [treeView_eq htree]
  split_ifs at hstep with hdup
  · rw [hstep.2, if_pos (by simpa [BTreeIndex.plain] using hdup)]
  · rw [hstep.1, if_neg (by simpa [BTreeIndex.plain] using hdup)]

theorem IsTree.addBatch (h : IsTree t) {entries : List (κ × RowId)}
    (hmeet : t.hintsMeet entries = true) :
    ∃ t' result, t.addBatch entries = some (t', result) ∧ IsTree t' ∧
      (treeView t').Same ((treeView t).call (.addBatch entries)) ∧
      (result = .ok () ↔ ¬Clashes (treeView t).unique (treeView t).ids entries) := by
  obtain ⟨t', hcall, htree', hsame⟩ := h.call (.addBatch entries) hmeet trivial
  obtain ⟨leaves, ups, htree⟩ := h
  obtain ⟨t'', result, leaves', ups', hadd, -, -, hfail, hok⟩ := htree.addBatch hmeet
  obtain rfl : t'' = t' := by
    rw [BTreeIndex.call, hadd] at hcall
    exact Option.some.inj hcall
  refine ⟨t'', result, hadd, htree', hsame, ?_⟩
  rw [treeView_eq htree]
  change _ ↔ ¬Clashes t.unique (Multimap.values (Index.leafEntries t.nodeAt leaves)) entries
  by_cases hclash : Clashes t.unique (Multimap.values (Index.leafEntries t.nodeAt leaves)) entries
  · rw [(hfail hclash).1]
    exact iff_of_false (by simp) (not_not.mpr hclash)
  · exact iff_of_true (hok hclash).1 hclash

/-- An empty tree has no gap that a hint could miss. -/
theorem IsTree.hintsMeet_empty (h : IsTree t) (hempty : ∀ key, (treeView t).ids key = [])
    (entries : List (κ × RowId)) : t.hintsMeet entries = true := by
  obtain ⟨leaves, ups, htree⟩ := h
  have hgap : ∀ key, t.inGap key = false := by
    intro key
    rw [Bool.eq_false_iff]
    intro hgap
    obtain ⟨low, e, he, -, -, first, hfirst, -⟩ := (htree.toShape.inGap_iff key).mp hgap
    have he := List.mem_of_mem_tail he
    obtain ⟨keys, hkeys⟩ := List.head?_eq_some_iff.mp hfirst
    have haligned := htree.leaf.aligned e he
    cases hvalues : (t.nodeAt e.2).values with
    | nil => simp [hkeys, hvalues] at haligned
    | cons ids values =>
      have hmem : (first, ids) ∈ Index.leafEntries t.nodeAt leaves :=
        List.mem_flatMap.mpr ⟨e, he, by simp [hkeys, hvalues]⟩
      have hids := hempty first
      rw [treeView_eq htree] at hids
      have hvalue := Multimap.values_of_mem htree.ordered.sorted_entries hmem
      refine htree.leaf.stored e he ids (by simp [hvalues]) ?_
      rw [← hvalue]
      exact hids
  rw [BTreeIndex.hintsMeet, List.all_eq_true]
  intro p _
  simp [hgap]

section Store

variable (keyOf : IndexKey Scalar → κ)

/-- The tree after an addition, and whether the key was taken in. -/
def taken {I E : Type} (index : I) : Option (I × Except E Unit) → I × Bool
  | some (index, .ok ()) => (index, true)
  | some (index, .error _) => (index, false)
  | none => (index, false)

theorem taken_some {I E : Type} (index index' : I) (result : Except E Unit) :
    (taken index (some (index', result))).1 = index' ∧
      ((taken index (some (index', result))).2 = true ↔ result = .ok ()) := by
  cases result with
  | error error => exact ⟨rfl, by simp [taken]⟩
  | ok _ => exact ⟨rfl, by simp [taken]⟩

def bTreeIndexStore : IndexStore (BTreeIndex κ) where
  containsIndexKey t key := (t.containsKey (keyOf key)).getD false
  addIndexKey t key id := taken t (t.insert (keyOf key) id)
  removeIndexKey t key id := (t.delete (keyOf key) (some id)).getD t
  isUnique t := t.unique

def bTreeBatchStore : BatchStore (BTreeIndex κ) where
  addBatchIndexKeys t entries := taken t (t.addBatch (coded keyOf entries))
  removeBatchIndexKeys t entries := (t.removeBatch (coded keyOf entries)).getD t
  clear t := t.clear

/-- B-trees keep the laws of indexes. -/
def bTreeLaws : IndexLaws (bTreeIndexStore keyOf) (bTreeBatchStore keyOf) keyOf where
  Inv := IsTree
  view := treeView
  Meets t entries := t.hintsMeet entries = true
  isUnique _ := rfl
  contains key h := congrArg (Option.getD · false) (h.contains_eq (keyOf key))
  add := by
    intro t key id h
    obtain ⟨t', result, hinsert, htree, hsame, hresult⟩ := h.insert (keyOf key) id
    change IsTree (taken t (t.insert (keyOf key) id)).1 ∧ _
    change _ ∧ (treeView (taken t (t.insert (keyOf key) id)).1).Same _ ∧
      (taken t (t.insert (keyOf key) id)).2 = _
    obtain ⟨hindex, htaken⟩ := taken_some t t' result
    rw [hinsert, hindex]
    refine ⟨htree, hsame, ?_⟩
    rw [Bool.eq_iff_iff, htaken, hresult, Bool.not_eq_true']
    split
    next hdup => simp [hdup]
    next hdup => simpa using hdup
  remove := by
    intro t key id h
    obtain ⟨t', hcall, htree, hsame⟩ := h.call (.remove (keyOf key) (some id)) trivial trivial
    have hremove : (bTreeIndexStore keyOf).removeIndexKey t key id = t' :=
      congrArg (Option.getD · t) hcall
    rw [hremove]
    exact ⟨htree, hsame⟩
  addBatch := by
    intro t entries h hmeets
    obtain ⟨t', result, hadd, htree, hsame, hresult⟩ := h.addBatch hmeets
    change IsTree (taken t (t.addBatch (coded keyOf entries))).1 ∧ _
    change _ ∧ (treeView (taken t (t.addBatch (coded keyOf entries))).1).Same _ ∧
      ((taken t (t.addBatch (coded keyOf entries))).2 = true ↔ _)
    obtain ⟨hindex, htaken⟩ := taken_some t t' result
    rw [hadd, hindex, htaken]
    exact ⟨htree, hsame, hresult⟩
  removeBatch := by
    intro t entries h hdistinct
    have hall : t.removesAll (.removeBatch (coded keyOf entries)) := by
      intro e he
      refine .inr ?_
      have hcount := List.nodup_iff_count_le_one.mp (hdistinct.nodup e.1) e.2
      have hlisted := List.count_pos_iff.mpr (Index.mem_listed.mpr he)
      exact hcount.trans hlisted
    obtain ⟨t', hcall, htree, hsame⟩ := h.call (.removeBatch (coded keyOf entries)) trivial hall
    have hremove : (bTreeBatchStore keyOf).removeBatchIndexKeys t entries = t' :=
      congrArg (Option.getD · t) hcall
    rw [hremove]
    exact ⟨htree, hsame⟩
  clear := by
    intro t h
    obtain ⟨t', hcall, htree, hsame⟩ := h.call .clear trivial trivial
    obtain rfl : t.clear = t' := Option.some.inj hcall
    exact ⟨htree, hsame⟩
  meets_empty h hempty entries := h.hintsMeet_empty hempty entries

theorem treeView_new (unique : Bool) :
    treeView (.new 64 unique : BTreeIndex κ) = .empty unique := by
  refine congrArg (PlainMap.mk unique) (funext fun key => ?_)
  obtain ⟨ids, hget, hperm⟩ := (Index.holds_new (K := κ) (show 3 ≤ 64 by decide) unique).2 key
  rw [hget]
  exact hperm.eq_nil

/-- An empty tree lists nothing. -/
theorem listing_newTree (unique : Bool) :
    Listing (bTreeLaws keyOf) unique (fun _ _ => False) (.new 64 unique) where
  inv := ⟨_, _, Index.tree_new (by decide) unique⟩
  distinct := by
    change (treeView (.new 64 unique : BTreeIndex κ)).Distinct
    rw [treeView_new]
    exact PlainMap.distinct_empty unique
  isUnique := rfl
  lists k r := by
    change r ∈ (treeView (.new 64 unique)).ids k ↔ False
    rw [treeView_new]
    exact iff_of_false List.not_mem_nil id

end Store

end Trees

section Hash

variable {κ : Type} [LinearOrder κ] (keyOf : IndexKey Scalar → κ)

def hashIndexStore : IndexStore (HashIndex κ) where
  containsIndexKey h key := h.containsKey (keyOf key)
  addIndexKey h key id := taken h (some (h.add (keyOf key) id))
  removeIndexKey h key id := h.remove (keyOf key) (some id)
  isUnique h := h.unique

def hashBatchStore : BatchStore (HashIndex κ) where
  addBatchIndexKeys h entries := taken h (some (h.addBatch (coded keyOf entries)))
  removeBatchIndexKeys h entries := h.removeBatch (coded keyOf entries)
  clear h := h.clear

/-- So do hash indexes. -/
def hashLaws : IndexLaws (hashIndexStore keyOf) (hashBatchStore keyOf) keyOf where
  Inv := HashIndex.Sound
  view := HashIndex.plain
  Meets _ _ := True
  isUnique _ := rfl
  contains key h := HashIndex.containsKey_eq h (keyOf key)
  add := by
    intro h key id hs
    obtain ⟨hsound, hplain, hresult⟩ := hs.add (keyOf key) id
    obtain ⟨hindex, htaken⟩ := taken_some h (h.add (keyOf key) id).1 (h.add (keyOf key) id).2
    change HashIndex.Sound (taken h (some (h.add (keyOf key) id))).1 ∧ _
    change _ ∧ (HashIndex.plain (taken h (some (h.add (keyOf key) id))).1).Same _ ∧
      (taken h (some (h.add (keyOf key) id))).2 = _
    rw [hindex, hplain]
    refine ⟨hsound, ⟨rfl, fun _ => .refl _⟩, ?_⟩
    rw [Bool.eq_iff_iff, htaken, hresult, Bool.not_eq_true']
    split
    next hdup => exact iff_of_false nofun (by rw [show (h.plain.unique &&
      !(h.plain.ids (keyOf key)).isEmpty) = true from hdup]; exact nofun)
    next hdup => exact iff_of_true rfl (Bool.eq_false_iff.mpr hdup)
  remove := by
    intro h key id hs
    obtain ⟨hsound, hplain⟩ := hs.remove (keyOf key) (some id)
    exact ⟨hsound, hplain ▸ ⟨rfl, fun _ => .refl _⟩⟩
  addBatch := by
    intro h entries hs _
    obtain ⟨hsound, hplain, hresult⟩ := hs.addBatch (coded keyOf entries)
    obtain ⟨hindex, htaken⟩ := taken_some h (h.addBatch (coded keyOf entries)).1
      (h.addBatch (coded keyOf entries)).2
    change HashIndex.Sound (taken h (some (h.addBatch (coded keyOf entries)))).1 ∧ _
    change _ ∧ (HashIndex.plain (taken h (some (h.addBatch (coded keyOf entries)))).1).Same _ ∧
      ((taken h (some (h.addBatch (coded keyOf entries)))).2 = true ↔ _)
    rw [hindex, htaken, hplain]
    exact ⟨hsound, ⟨rfl, fun _ => .refl _⟩, hresult⟩
  removeBatch := by
    intro h entries hs _
    obtain ⟨hsound, hplain⟩ := hs.removeBatch (coded keyOf entries)
    exact ⟨hsound, hplain ▸ ⟨rfl, fun _ => .refl _⟩⟩
  clear hs := ⟨HashIndex.sound_clear _, rfl, fun _ => .refl _⟩
  meets_empty _ _ _ := trivial

theorem listing_newHash (unique : Bool) :
    Listing (hashLaws keyOf) unique (fun _ _ => False) (.new unique) where
  inv := HashIndex.sound_new unique
  distinct := PlainMap.distinct_empty unique
  isUnique := rfl
  lists _ _ := iff_of_false List.not_mem_nil id

end Hash

end Cynos.Storage
