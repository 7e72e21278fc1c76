import Cynos.Index.HashAgreement

/-! The wrapper that keeps the rows of null keys beside an index. -/
namespace Cynos.Index

variable {K I : Type}

/-- The traits `Index` and `RangeIndex`. A result `none` of `min` or `max` is a panic. -/
class RangeIndex (K : outParam Type) (I : Type) where
  add : I → K → RowId → I × Except IndexError Unit
  set : I → K → RowId → I
  get : I → K → List RowId
  remove : I → K → Option RowId → I
  containsKey : I → K → Bool
  clear : I → I
  min : I → Option (Option (K × List RowId))
  max : I → Option (Option (K × List RowId))
  cost : I → KeyRange K → Nat
  getRange : I → Option (KeyRange K) → Bool → Option Nat → Nat → List RowId

/-- A row counter of `w` bits. The wrapper takes rows off it that it never counted, and the
atomic subtraction wraps. -/
structure RowCounter (w : Nat) where
  totalRows : BitVec w
  deriving DecidableEq, Repr

namespace RowCounter

variable {w : Nat}

def new : RowCounter w := ⟨0⟩
def addRows (c : RowCounter w) (count : Nat) : RowCounter w :=
  ⟨c.totalRows + BitVec.ofNat w count⟩
def removeRows (c : RowCounter w) (count : Nat) : RowCounter w :=
  ⟨c.totalRows - BitVec.ofNat w count⟩
def clear (_ : RowCounter w) : RowCounter w := ⟨0⟩

def Counts (c : RowCounter w) (rows : Nat) : Prop := c.totalRows = BitVec.ofNat w rows

theorem Counts.addRows {c : RowCounter w} {rows : Nat} (h : c.Counts rows) (count : Nat) :
    (c.addRows count).Counts (rows + count) := by
  rw [Counts, RowCounter.addRows, h, BitVec.ofNat_add]

theorem Counts.removeRows {c : RowCounter w} {rows count : Nat} (h : c.Counts (rows + count)) :
    (c.removeRows count).Counts rows := by
  rw [Counts, RowCounter.removeRows, h, BitVec.ofNat_add, BitVec.add_sub_cancel]

end RowCounter

structure NullableIndex (I : Type) (w : Nat) where
  inner : I
  nullValues : List RowId
  stats : RowCounter w

/-- No range, or the range of all keys. -/
def isUnbounded (range : Option (KeyRange K)) : Bool := range.elim true KeyRange.isAll

namespace NullableIndex

variable {w : Nat}

def new (inner : I) : NullableIndex I w := { inner, nullValues := [], stats := .new }

def getNull (n : NullableIndex I w) : List RowId := n.nullValues
def containsNull (n : NullableIndex I w) : Bool := !n.nullValues.isEmpty
def nullCount (n : NullableIndex I w) : Nat := n.nullValues.length
def len (n : NullableIndex I w) : BitVec w := n.stats.totalRows

def addNull (n : NullableIndex I w) (value : RowId) : NullableIndex I w :=
  { n with nullValues := n.nullValues ++ [value], stats := n.stats.addRows 1 }

def removeNull (n : NullableIndex I w) : Option RowId → NullableIndex I w
  | some value =>
    let kept := n.nullValues.filter (· != value)
    { n with
      nullValues := kept
      stats := n.stats.removeRows (n.nullValues.length - kept.length) }
  | none => { n with nullValues := [], stats := n.stats.removeRows n.nullValues.length }

def setNull (n : NullableIndex I w) (value : RowId) : NullableIndex I w :=
  let removed := n.nullValues.length
  let stats := if removed > 0 then n.stats.removeRows removed else n.stats
  { n with nullValues := [value], stats := stats.addRows 1 }

variable [RangeIndex K I]

def add (n : NullableIndex I w) (key : K) (value : RowId) :
    NullableIndex I w × Except IndexError Unit :=
  let (inner, result) := RangeIndex.add n.inner key value
  match result with
  | .ok () => ({ n with inner, stats := n.stats.addRows 1 }, result)
  | .error _ => ({ n with inner }, result)

def set (n : NullableIndex I w) (key : K) (value : RowId) : NullableIndex I w :=
  let oldCount := (RangeIndex.get n.inner key).length
  let stats := if oldCount > 0 then n.stats.removeRows oldCount else n.stats
  { n with inner := RangeIndex.set n.inner key value, stats := stats.addRows 1 }

def get (n : NullableIndex I w) (key : K) : List RowId := RangeIndex.get n.inner key

/-- With a value given the old count is taken to be one, whatever is stored. -/
def remove (n : NullableIndex I w) (key : K) (value : Option RowId) : NullableIndex I w :=
  let oldCount := if value.isSome then 1 else (RangeIndex.get n.inner key).length
  let inner := RangeIndex.remove n.inner key value
  let newCount := (RangeIndex.get inner key).length
  let removed := if value.isSome then (if newCount < oldCount then 1 else 0) else oldCount
  { n with inner, stats := n.stats.removeRows removed }

def containsKey (n : NullableIndex I w) (key : K) : Bool := RangeIndex.containsKey n.inner key

def clear (n : NullableIndex I w) : NullableIndex I w :=
  { n with inner := RangeIndex.clear n.inner, nullValues := [], stats := n.stats.clear }

protected def min (n : NullableIndex I w) : Option (Option (K × List RowId)) :=
  RangeIndex.min n.inner
protected def max (n : NullableIndex I w) : Option (Option (K × List RowId)) :=
  RangeIndex.max n.inner
def cost (n : NullableIndex I w) (range : KeyRange K) : Nat := RangeIndex.cost n.inner range

/-- Null rows come last, behind what the inner index leaves of the window. -/
def getRange (n : NullableIndex I w) (range : Option (KeyRange K)) (reverse : Bool)
    (limit : Option Nat) (skip : Nat) : List RowId :=
  let results := RangeIndex.getRange n.inner range reverse limit skip
  if isUnbounded range then
    let remainingLimit := limit.map (· - results.length)
    let remainingSkip := skip - results.length
    if remainingLimit.elim true (0 < ·) then
      let nulls := n.nullValues.drop remainingSkip
      results ++ remainingLimit.elim nulls nulls.take
    else results
  else results

end NullableIndex

/-- A correct index: its entries in key order, changed one key at a time, and scans that
read windows of them. -/
class CorrectIndex (K : outParam Type) (I : Type) [LinearOrder K] [RangeIndex K I] where
  Valid : I → Prop
  entries : I → List (K × List RowId)
  sorted : ∀ i, Valid i → Multimap.Sorted (entries i)
  stored : ∀ i, Valid i → ∀ e ∈ entries i, e.2 ≠ []
  get_eq : ∀ i, Valid i → ∀ key, RangeIndex.get i key = Multimap.values (entries i) key
  add_ok : ∀ i, Valid i → ∀ key value, (RangeIndex.add i key value).2 = .ok () →
    Valid (RangeIndex.add i key value).1 ∧
      Multimap.values (entries (RangeIndex.add i key value).1) =
        Function.update (Multimap.values (entries i)) key
          (Multimap.values (entries i) key ++ [value])
  add_error : ∀ i, Valid i → ∀ key value, (RangeIndex.add i key value).2 ≠ .ok () →
    (RangeIndex.add i key value).1 = i
  set_values : ∀ i, Valid i → ∀ key value, Valid (RangeIndex.set i key value) ∧
    Multimap.values (entries (RangeIndex.set i key value)) =
      Function.update (Multimap.values (entries i)) key [value]
  remove_values : ∀ i, Valid i → ∀ key value, Valid (RangeIndex.remove i key value) ∧
    Multimap.values (entries (RangeIndex.remove i key value)) =
      Function.update (Multimap.values (entries i)) key
        (remaining (Multimap.values (entries i) key) value)
  clear_entries : ∀ i, Valid i → Valid (RangeIndex.clear i) ∧ entries (RangeIndex.clear i) = []
  scan_all : ∀ i, Valid i → ∀ range : Option (KeyRange K), isUnbounded range = true →
    ∀ reverse limit skip, RangeIndex.getRange i range reverse limit skip =
      KeyRange.all.scan (entries i) reverse limit skip

section Windows

theorem passOn_append (skip : Nat) (limit : Option Nat) (xs ys : List RowId) :
    passOn skip limit (xs ++ ys) = passOn skip limit xs ++
      passOn (skip - xs.length) (limit.map (· - (passOn skip limit xs).length)) ys := by
  cases limit with
  | none => simp [passOn, List.drop_append]
  | some l =>
    simp only [passOn, Option.elim_some, Option.map_some, List.drop_append, List.take_append,
      List.length_take, List.length_drop]
    congr 2
    omega

theorem passOn_length (skip : Nat) (limit : Option Nat) (xs : List RowId) :
    (passOn skip limit xs).length = limit.elim (xs.length - skip) (min · (xs.length - skip)) := by
  cases limit <;> simp [passOn]

theorem passOn_eq {skip skip' : Nat} (hle : skip' ≤ skip) {limit : Option Nat}
    {xs : List RowId} (h : skip = skip' ∨ limit = some 0 ∨ xs.length ≤ skip') :
    passOn skip limit xs = passOn skip' limit xs := by
  rcases h with rfl | rfl | hlen
  · rfl
  · rw [passOn_limit, passOn_limit]
  · simp [passOn, List.drop_eq_nil_of_le hlen, List.drop_eq_nil_of_le (hlen.trans hle)]

/-- Windows of distinct rows are equal only when they begin alike or show nothing. -/
theorem of_passOn_eq {skip skip' : Nat} {limit : Option Nat} {xs : List RowId}
    (hnodup : xs.Nodup) (heq : passOn skip limit xs = passOn skip' limit xs) :
    skip = skip' ∨ limit = some 0 ∨ xs.length ≤ skip' := by
  by_contra hne
  push Not at hne
  obtain ⟨hskip, hlimit, hlen⟩ := hne
  have hfirst : ∀ s, (passOn s limit xs).head? = xs[s]? := by
    intro s
    cases limit with
    | none => simp [passOn]
    | some l =>
      have hl : l ≠ 0 := fun h => hlimit (by rw [h])
      simp [passOn, List.head?_take, hl]
  have hget := (hfirst skip').symm.trans ((congrArg List.head? heq.symm).trans (hfirst skip))
  exact hskip ((List.getElem?_inj hlen hnodup).mp hget).symm

end Windows

namespace NullableIndex

variable {w : Nat} [LinearOrder K] [RangeIndex K I] [CorrectIndex K I] {n : NullableIndex I w}

/-- The rows stored under keys and under null. -/
def storedRows (n : NullableIndex I w) : Nat :=
  Multimap.size (CorrectIndex.entries n.inner) + n.nullValues.length

/-- The offset into the null rows comes out right: the inner rows are none or at least twice
the skipped ones, or they fill the window, or the window starts behind the last row. -/
def windowFits (n : NullableIndex I w) (limit : Option Nat) (skip : Nat) : Prop :=
  let rows := Multimap.size (CorrectIndex.entries n.inner)
  rows = 0 ∨ 2 * skip ≤ rows ∨ limit.any (· ≤ rows - skip) ∨ n.nullValues.length ≤ skip - rows

theorem scan_length (es : List (K × List RowId)) (reverse : Bool) :
    (KeyRange.all.scan es reverse none 0).length = Multimap.size es := by
  have hlen : ∀ fs : List (K × List RowId), (fs.flatMap Prod.snd).length = Multimap.size fs :=
    fun fs => by rw [List.length_flatMap, Multimap.size]
  have hall : ∀ fs : List (K × List RowId), fs.filter (fun e => KeyRange.all.contains e.1) = fs :=
    fun fs => List.filter_eq_self.mpr fun _ _ => rfl
  rw [KeyRange.scan_eq, hall, passOn, Option.elim_none, List.drop_zero, hlen]
  cases reverse with
  | false => rfl
  | true => exact Multimap.size_perm es.reverse_perm

theorem scan_eq_passOn (es : List (K × List RowId)) (reverse : Bool) (limit : Option Nat)
    (skip : Nat) : KeyRange.all.scan es reverse limit skip =
      passOn skip limit (KeyRange.all.scan es reverse none 0) := by
  simp only [KeyRange.scan_eq, passOn, Option.elim_none, List.drop_zero]

/-- The range of all keys reads a window of the inner index and then one of the null rows. -/
theorem getRange_eq (hvalid : CorrectIndex.Valid n.inner) {range : Option (KeyRange K)}
    (hrange : isUnbounded range = true) (reverse : Bool) (limit : Option Nat) (skip : Nat) :
    let scan := RangeIndex.getRange n.inner none reverse none 0
    let shown := (passOn skip limit scan).length
    n.getRange range reverse limit skip =
      passOn skip limit scan ++ passOn (skip - shown) (limit.map (· - shown)) n.nullValues := by
  intro scan shown
  have hscan : RangeIndex.getRange n.inner range reverse limit skip = passOn skip limit scan := by
    rw [CorrectIndex.scan_all _ hvalid _ hrange, scan_eq_passOn,
      ← CorrectIndex.scan_all _ hvalid none rfl]
  rw [getRange, if_pos hrange, hscan]
  cases limit with
  | none => rfl
  | some l =>
    simp only [Option.map_some, Option.elim_some, decide_eq_true_eq]
    split_ifs with hleft
    · rfl
    · rw [show l - (passOn skip (some l) scan).length = 0 by omega, passOn_limit, List.append_nil]

/-- The window is that of all rows when its offset fits, and with distinct null rows only
then. -/
theorem getRange_window (hvalid : CorrectIndex.Valid n.inner) {range : Option (KeyRange K)}
    (hrange : isUnbounded range = true) (reverse : Bool) (limit : Option Nat) (skip : Nat) :
    let window := passOn skip limit
      (RangeIndex.getRange n.inner none reverse none 0 ++ n.nullValues)
    (n.windowFits limit skip → n.getRange range reverse limit skip = window) ∧
      (n.nullValues.Nodup → n.getRange range reverse limit skip = window →
        n.windowFits limit skip) := by
  intro window
  have hrows : (RangeIndex.getRange n.inner none reverse none 0).length =
      Multimap.size (CorrectIndex.entries n.inner) := by
    rw [CorrectIndex.scan_all _ hvalid none rfl, scan_length]
  have hshown := passOn_length skip limit (RangeIndex.getRange n.inner none reverse none 0)
  have hwindow : n.getRange range reverse limit skip = window ↔ _ = _ :=
    ((getRange_eq hvalid hrange reverse limit skip).congr_left).trans
      ((passOn_append ..).congr_right.trans (List.append_right_inj _))
  rw [hrows] at hshown hwindow
  have hfits : ∀ shown, shown = limit.elim
        (Multimap.size (CorrectIndex.entries n.inner) - skip)
        (min · (Multimap.size (CorrectIndex.entries n.inner) - skip)) →
      (n.windowFits limit skip ↔
        skip - shown = skip - Multimap.size (CorrectIndex.entries n.inner) ∨
          limit.map (· - shown) = some 0 ∨
          n.nullValues.length ≤ skip - Multimap.size (CorrectIndex.entries n.inner)) := by
    rintro _ rfl
    rw [windowFits]
    cases limit with
    | none => simp; omega
    | some l => simp; omega
  rw [hwindow, hfits _ hshown]
  exact ⟨passOn_eq (by cases limit <;> simp at hshown <;> omega), of_passOn_eq⟩

end NullableIndex

inductive NullableOp (K : Type) where
  | add (key : K) (value : RowId)
  | set (key : K) (value : RowId)
  | remove (key : K) (value : Option RowId)
  | addNull (value : RowId)
  | setNull (value : RowId)
  | removeNull (value : Option RowId)
  | clear

namespace NullableIndex

variable {w : Nat} [RangeIndex K I]

def call (n : NullableIndex I w) : NullableOp K → NullableIndex I w
  | .add key value => (n.add key value).1
  | .set key value => n.set key value
  | .remove key value => n.remove key value
  | .addNull value => n.addNull value
  | .setNull value => n.setNull value
  | .removeNull value => n.removeNull value
  | .clear => n.clear

def run (n : NullableIndex I w) (ops : List (NullableOp K)) : NullableIndex I w :=
  ops.foldl call n

/-- A removal of one row takes the only row of its key, or finds another row there and does not
find its own. -/
def countsRemoval (n : NullableIndex I w) : NullableOp K → Prop
  | .remove key (some value) =>
    n.get key = [value] ∨ n.get key ≠ [] ∧ value ∉ n.get key
  | _ => True

instance (n : NullableIndex I w) : ∀ op, Decidable (n.countsRemoval op)
  | .remove key (some value) =>
    inferInstanceAs (Decidable (n.get key = [value] ∨ n.get key ≠ [] ∧ value ∉ n.get key))
  | .remove _ none | .add .. | .set .. | .addNull _ | .setNull _ | .removeNull _ | .clear =>
    .isTrue trivial

variable [LinearOrder K] [CorrectIndex K I] {n : NullableIndex I w}

/-- What one call does to the entries of the inner index. -/
theorem valid_call (hvalid : CorrectIndex.Valid n.inner) (op : NullableOp K) :
    CorrectIndex.Valid (n.call op).inner := by
  cases op with
  | add key value =>
    rw [call, add]
    cases hadd : RangeIndex.add n.inner key value with
    | mk inner result =>
      cases result with
      | ok _ =>
        have := (CorrectIndex.add_ok _ hvalid key value (by rw [hadd])).1
        rwa [hadd] at this
      | error e =>
        have := CorrectIndex.add_error _ hvalid key value (by rw [hadd]; simp)
        rw [hadd] at this
        obtain rfl : inner = n.inner := this
        exact hvalid
  | set key value => exact (CorrectIndex.set_values _ hvalid key value).1
  | remove key value => exact (CorrectIndex.remove_values _ hvalid key value).1
  | addNull value => exact hvalid
  | setNull value => exact hvalid
  | removeNull value => cases value <;> exact hvalid
  | clear => exact (CorrectIndex.clear_entries _ hvalid).1

/-- The size of a correct index after other rows stand under one key. -/
theorem size_of_update {i i' : I} (hi : CorrectIndex.Valid i) (hi' : CorrectIndex.Valid i')
    {key : K} {ids : List RowId}
    (h : Multimap.values (CorrectIndex.entries i') =
      Function.update (Multimap.values (CorrectIndex.entries i)) key ids) :
    Multimap.size (CorrectIndex.entries i') + (RangeIndex.get i key).length =
      Multimap.size (CorrectIndex.entries i) + ids.length := by
  rw [CorrectIndex.get_eq i hi]
  exact Multimap.size_of_values (CorrectIndex.sorted _ hi) (CorrectIndex.sorted _ hi')
    (CorrectIndex.stored _ hi) (CorrectIndex.stored _ hi') h

theorem length_get_le {i : I} (hi : CorrectIndex.Valid i) (key : K) :
    (RangeIndex.get i key).length ≤ Multimap.size (CorrectIndex.entries i) := by
  obtain ⟨_, _, _, _, _, hsize⟩ :=
    Multimap.Sorted.cut (CorrectIndex.sorted _ hi) (CorrectIndex.stored _ hi) key
  rw [CorrectIndex.get_eq i hi]
  omega

/-- One call keeps the count right, where a removal is counted right. -/
theorem counts_call (hvalid : CorrectIndex.Valid n.inner) (op : NullableOp K)
    (hremoval : n.countsRemoval op) (hcounts : n.stats.Counts n.storedRows) :
    (n.call op).stats.Counts (n.call op).storedRows := by
  cases op with
  | add key value =>
    rw [call, add]
    cases hadd : RangeIndex.add n.inner key value with
    | mk inner result =>
      cases result with
      | ok _ =>
        obtain ⟨hvalid', hvalues⟩ := CorrectIndex.add_ok _ hvalid key value (by rw [hadd])
        have hsize := size_of_update hvalid hvalid' hvalues
        rw [hadd, CorrectIndex.get_eq _ hvalid, List.length_append, List.length_singleton] at hsize
        have := hcounts.addRows 1
        rw [storedRows] at this ⊢
        convert this using 1
        dsimp only at hsize ⊢
        omega
      | error e =>
        have := CorrectIndex.add_error _ hvalid key value (by rw [hadd]; simp)
        rw [hadd] at this
        obtain rfl : inner = n.inner := this
        exact hcounts
  | set key value =>
    obtain ⟨hvalid', hvalues⟩ := CorrectIndex.set_values _ hvalid key value
    have hsize := size_of_update hvalid hvalid' hvalues
    have hle := length_get_le hvalid key
    rw [List.length_singleton] at hsize
    have hold : (if (RangeIndex.get n.inner key).length > 0 then
        n.stats.removeRows (RangeIndex.get n.inner key).length else n.stats).Counts
          (n.storedRows - (RangeIndex.get n.inner key).length) := by
      rw [storedRows] at hcounts ⊢
      split_ifs with hpos
      · refine RowCounter.Counts.removeRows ?_
        convert hcounts using 1
        omega
      · convert hcounts using 1
        omega
    have hrows : (n.call (.set key value)).storedRows =
        n.storedRows - (RangeIndex.get n.inner key).length + 1 := by
      rw [storedRows, storedRows, call, set]
      dsimp only
      omega
    rw [hrows]
    exact hold.addRows 1
  | remove key value =>
    obtain ⟨hvalid', hvalues⟩ := CorrectIndex.remove_values _ hvalid key value
    have hsize := size_of_update hvalid hvalid' hvalues
    have hkept := CorrectIndex.get_eq _ hvalid' key
    rw [hvalues, Function.update_self] at hkept
    rw [← CorrectIndex.get_eq _ hvalid] at hsize hkept
    rw [call, remove]
    refine RowCounter.Counts.removeRows ?_
    convert hcounts using 1
    rw [storedRows, storedRows]
    dsimp only
    cases value with
    | none =>
      rw [remaining, List.length_nil] at hsize
      simp only [Option.isSome_none, Bool.false_eq_true, if_false]
      omega
    | some value =>
      rw [hkept]
      simp only [Option.isSome_some, if_true]
      rw [countsRemoval, get] at hremoval
      rw [remaining] at hsize ⊢
      rcases hremoval with hone | ⟨hne, hnot⟩
      · rw [hone] at hsize ⊢
        simp only [bne_self_eq_false, List.filter_cons_of_neg, Bool.false_eq_true,
          not_false_eq_true, List.filter_nil, List.length_nil, List.length_singleton,
          Nat.lt_one_iff, if_true] at hsize ⊢
        omega
      · have hall : (RangeIndex.get n.inner key).filter (· != value) =
            RangeIndex.get n.inner key := by
          refine List.filter_eq_self.mpr fun v hv => ?_
          simpa using fun heq : v = value => hnot (heq ▸ hv)
        have hpos := List.length_pos_iff.mpr hne
        rw [hall] at hsize ⊢
        rw [if_neg (by omega)]
        omega
  | addNull value =>
    have hrows : (n.call (.addNull value)).storedRows = n.storedRows + 1 := by
      rw [storedRows, storedRows, call, addNull, List.length_append, List.length_singleton,
        Nat.add_assoc]
    rw [hrows]
    exact hcounts.addRows 1
  | setNull value =>
    have hold : (if n.nullValues.length > 0 then n.stats.removeRows n.nullValues.length
        else n.stats).Counts (Multimap.size (CorrectIndex.entries n.inner)) := by
      rw [storedRows] at hcounts
      split_ifs with hpos
      · exact hcounts.removeRows
      · convert hcounts using 1
        omega
    exact hold.addRows 1
  | removeNull value =>
    cases value with
    | none => exact RowCounter.Counts.removeRows hcounts
    | some value =>
      have hle := List.length_filter_le (· != value) n.nullValues
      refine RowCounter.Counts.removeRows ?_
      convert hcounts using 1
      rw [storedRows, storedRows, call, removeNull]
      dsimp only
      omega
  | clear =>
    have hempty := (CorrectIndex.clear_entries _ hvalid).2
    rw [storedRows, call, clear]
    dsimp only
    rw [hempty]
    rfl

end NullableIndex

section Hashes

variable [LinearOrder K]

instance : RangeIndex K (HashIndex K) where
  add := HashIndex.add
  set := HashIndex.set
  get := HashIndex.get
  remove := HashIndex.remove
  containsKey := HashIndex.containsKey
  clear := HashIndex.clear
  min := HashIndex.min
  max := HashIndex.max
  cost := HashIndex.cost
  getRange := HashIndex.getRange

/-- The entries of the map in key order. -/
def HashIndex.sortedEntries (h : HashIndex K) : List (K × List RowId) :=
  h.map.iter.insertionSort fun left right => keyLe left.1 right.1

theorem HashIndex.lists_sortedEntries (h : HashIndex K) : h.Lists h.sortedEntries := by
  have hperm := List.perm_insertionSort (fun left right : K × List RowId =>
    keyLe left.1 right.1) h.map.iter
  have htotal : Std.Total fun a b : K × List RowId => keyLe a.1 b.1 = true :=
    ⟨fun a b => by simpa using le_total a.1 b.1⟩
  have htrans : IsTrans (K × List RowId) fun a b => keyLe a.1 b.1 = true :=
    ⟨fun a b c hab hbc => by
      rw [keyLe_eq, decide_eq_true_eq] at hab hbc ⊢
      exact hab.trans hbc⟩
  have hle := List.pairwise_insertionSort (fun left right : K × List RowId =>
    keyLe left.1 right.1) h.map.iter
  have hkeys : ((h.map.iter.insertionSort fun left right =>
      keyLe left.1 right.1).map Prod.fst).Nodup := by
    rw [List.Perm.nodup_iff (hperm.map Prod.fst), HashMap.map_fst_iter]
    exact h.map.keys_nodup
  refine ⟨?_, hperm.symm⟩
  refine (hle.and (List.pairwise_map.mp hkeys)).imp ?_
  rintro e f ⟨hef, hne⟩
  exact lt_of_le_of_ne (by simpa using hef) hne

theorem HashIndex.values_sortedEntries {h : HashIndex K} (hs : h.Sound) :
    Multimap.values h.sortedEntries = h.get := by
  have hl := h.lists_sortedEntries
  funext key
  by_cases hvalues : Multimap.values h.sortedEntries key = []
  · rw [hvalues, get]
    cases hget : h.map.get key with
    | none => rfl
    | some ids =>
      have hmem := hl.perm.mem_iff.mp (HashMap.mem_iter.mpr hget)
      rw [Multimap.values_of_mem hl.sorted hmem] at hvalues
      exact absurd hvalues (hs.ne_nil hget)
  · rw [get, hl.get_of_mem (Multimap.mem_of_values hvalues), Option.getD_some]

instance : CorrectIndex K (HashIndex K) where
  Valid h := h.Sound
  entries := HashIndex.sortedEntries
  sorted h _ := h.lists_sortedEntries.sorted
  stored h hs e he := hs.stored e (h.lists_sortedEntries.perm.mem_iff.mpr he)
  get_eq h hs key := by rw [HashIndex.values_sortedEntries hs]; rfl
  add_ok h hs key value hok := by
    obtain ⟨hs', hplain, hresult⟩ := hs.add key value
    refine ⟨hs', (HashIndex.values_sortedEntries hs').trans ?_⟩
    rw [HashIndex.values_sortedEntries hs]
    by_cases hdup : (h.unique && !(h.get key).isEmpty) = true
    · rw [if_pos hdup] at hresult
      exact absurd (hresult.symm.trans hok) (by simp)
    · have hput := hplain.trans (if_neg hdup)
      exact (PlainMap.mk.injEq .. ▸ hput).2
  add_error h hs key value herror := by
    change (h.add key value).2 ≠ .ok () at herror
    change (h.add key value).1 = h
    rw [HashIndex.add] at herror ⊢
    split_ifs at herror ⊢ with hdup
    · rfl
    · exact absurd rfl herror
  set_values h hs key value := by
    obtain ⟨hs', hplain⟩ := hs.set key value
    refine ⟨hs', (HashIndex.values_sortedEntries hs').trans ?_⟩
    rw [HashIndex.values_sortedEntries hs]
    exact (PlainMap.mk.injEq .. ▸ hplain).2
  remove_values h hs key value := by
    obtain ⟨hs', hplain⟩ := hs.remove key value
    refine ⟨hs', (HashIndex.values_sortedEntries hs').trans ?_⟩
    rw [HashIndex.values_sortedEntries hs]
    cases value <;> exact (PlainMap.mk.injEq .. ▸ hplain).2
  clear_entries h _ := ⟨HashIndex.sound_clear h, rfl⟩
  scan_all h _ range hrange reverse limit skip := by
    refine (h.lists_sortedEntries.getRange_eq range reverse limit skip).trans ?_
    cases range with
    | none => rfl
    | some range => cases range <;> first | rfl | exact absurd hrange Bool.false_ne_true

end Hashes

section Trees

variable [LinearOrder K]

/-- A tree with its invariant. -/
structure SoundTree (K : Type) [LinearOrder K] where
  tree : BTreeIndex K
  sound : ∃ leaves ups, Tree tree leaves ups

namespace SoundTree

def ofResult (result : Option (BTreeIndex K))
    (h : ∃ t, result = some t ∧ ∃ leaves ups, Tree t leaves ups) : SoundTree K where
  tree := result.get (by obtain ⟨t, rfl, _⟩ := h; rfl)
  sound := by
    obtain ⟨t, rfl, ht⟩ := h
    exact ht

def entries (s : SoundTree K) : List (K × List RowId) :=
  s.tree.leafIds.flatMap fun id => (s.tree.nodeAt id).keys.zip (s.tree.nodeAt id).values

theorem entries_eq {s : SoundTree K} {leaves : Level K} {ups : List (Level K)}
    (h : Tree s.tree leaves ups) : s.entries = leafEntries s.tree.nodeAt leaves := by
  rw [entries, h.toShape.leafIds_eq, leafEntries, Level.ids, List.flatMap_map]

theorem ofResult_eq {result : Option (BTreeIndex K)}
    (h : ∃ t, result = some t ∧ ∃ leaves ups, Tree t leaves ups) {s : SoundTree K}
    (hresult : result = some s.tree) : ofResult result h = s := by
  subst hresult
  rfl

theorem ofResult_entries {result : Option (BTreeIndex K)}
    (h : ∃ t, result = some t ∧ ∃ leaves ups, Tree t leaves ups) {t : BTreeIndex K}
    {leaves : Level K} {ups : List (Level K)} (hresult : result = some t) (ht : Tree t leaves ups) :
    (ofResult result h).entries = leafEntries t.nodeAt leaves := by
  subst hresult
  exact entries_eq (s := ⟨t, leaves, ups, ht⟩) ht

theorem insert_sound (s : SoundTree K) (key : K) (value : RowId) :
    ∃ t, (s.tree.insert key value).map Prod.fst = some t ∧ ∃ leaves ups, Tree t leaves ups := by
  obtain ⟨leaves, ups, h⟩ := s.sound
  obtain ⟨t', r, leaves', ups', hrun, ht, _⟩ := h.insert key value
  exact ⟨t', by rw [hrun, Option.map_some], leaves', ups', ht⟩

theorem set_sound (s : SoundTree K) (key : K) (value : RowId) :
    ∃ t, s.tree.set key value = some t ∧ ∃ leaves ups, Tree t leaves ups := by
  obtain ⟨leaves, ups, h⟩ := s.sound
  obtain ⟨t', leaves', ups', hrun, ht, _⟩ := h.set key value
  exact ⟨t', hrun, leaves', ups', ht⟩

theorem delete_sound (s : SoundTree K) (key : K) (value : Option RowId) :
    ∃ t, s.tree.delete key value = some t ∧ ∃ leaves ups, Tree t leaves ups := by
  obtain ⟨leaves, ups, h⟩ := s.sound
  obtain ⟨t', leaves', ups', hrun, ht, _⟩ := h.delete key value
  exact ⟨t', hrun, leaves', ups', ht⟩

instance : RangeIndex K (SoundTree K) where
  add s key value :=
    (ofResult _ (s.insert_sound key value), ((s.tree.insert key value).map Prod.snd).getD (.ok ()))
  set s key value := ofResult _ (s.set_sound key value)
  get s key := (s.tree.get key).getD []
  remove s key value := ofResult _ (s.delete_sound key value)
  containsKey s key := (s.tree.containsKey key).getD false
  clear s := ⟨s.tree.clear, by obtain ⟨_, _, h⟩ := s.sound; exact ⟨_, _, h.clear⟩⟩
  min s := s.tree.min
  max s := s.tree.max
  cost s range := (s.tree.cost range).getD 0
  getRange s range reverse limit skip := (s.tree.getRange range reverse limit skip).getD []

instance : CorrectIndex K (SoundTree K) where
  Valid _ := True
  entries := entries
  sorted s _ := by
    obtain ⟨leaves, ups, h⟩ := s.sound
    rw [entries_eq h]
    exact h.ordered.sorted_entries
  stored s _ := by
    obtain ⟨leaves, ups, h⟩ := s.sound
    rw [entries_eq h]
    exact h.entries_ne_nil
  get_eq s _ key := by
    obtain ⟨leaves, ups, h⟩ := s.sound
    rw [entries_eq h]
    exact congrArg (Option.getD · []) (h.toShape.get_eq key)
  add_ok s _ key value hok := by
    obtain ⟨leaves, ups, h⟩ := s.sound
    obtain ⟨t', r, leaves', ups', hrun, ht, _, _, hstep, _⟩ := h.insert key value
    have hr : r = .ok () := by
      change ((s.tree.insert key value).map Prod.snd).getD (.ok ()) = .ok () at hok
      rwa [hrun] at hok
    refine ⟨trivial, ?_⟩
    change Multimap.values (ofResult _ (s.insert_sound key value)).entries = _
    rw [ofResult_entries _ (by rw [hrun, Option.map_some]) ht, entries_eq h]
    split_ifs at hstep with hdup
    · exact absurd (hr.symm.trans hstep.2) (by simp)
    · exact hstep.2
  add_error s _ key value herror := by
    obtain ⟨leaves, ups, h⟩ := s.sound
    obtain ⟨t', r, leaves', ups', hrun, ht, _, _, hstep, _⟩ := h.insert key value
    refine ofResult_eq (s.insert_sound key value) ?_
    rw [hrun, Option.map_some]
    split_ifs at hstep with hdup
    · rw [hstep.1]
    · refine absurd ?_ herror
      change ((s.tree.insert key value).map Prod.snd).getD (.ok ()) = .ok ()
      rw [hrun, Option.map_some, Option.getD_some, hstep.1]
  set_values s _ key value := by
    obtain ⟨leaves, ups, h⟩ := s.sound
    obtain ⟨t', leaves', ups', hrun, ht, _, hvalues⟩ := h.set key value
    refine ⟨trivial, ?_⟩
    change Multimap.values (ofResult _ (s.set_sound key value)).entries = _
    rw [ofResult_entries _ hrun ht, entries_eq h, hvalues]
  remove_values s _ key value := by
    obtain ⟨leaves, ups, h⟩ := s.sound
    obtain ⟨t', leaves', ups', hrun, ht, _, _, hvalues⟩ := h.delete key value
    refine ⟨trivial, ?_⟩
    change Multimap.values (ofResult _ (s.delete_sound key value)).entries = _
    rw [ofResult_entries _ hrun ht, entries_eq h, hvalues]
  clear_entries s _ := by
    obtain ⟨leaves, ups, h⟩ := s.sound
    refine ⟨trivial, ?_⟩
    change entries ⟨s.tree.clear, _⟩ = []
    rw [entries_eq h.clear]
    simp [leafEntries, BTreeIndex.clear, BTreeIndex.nodeAt, BTreeIndex.node, Node.newLeaf]
  scan_all s _ range hrange reverse limit skip := by
    obtain ⟨leaves, ups, h⟩ := s.sound
    have hall : range.getD .all = .all := by
      cases range with
      | none => rfl
      | some range => cases range <;> first | rfl | exact absurd hrange Bool.false_ne_true
    rw [entries_eq h]
    change (s.tree.getRange range reverse limit skip).getD [] = _
    cases reverse with
    | false => rw [h.getRange_forward, hall, Option.getD_some]
    | true =>
      have hkeeps : s.tree.dropsUpperKey range true = false := by
        rw [BTreeIndex.dropsUpperKey, hall]
        rfl
      rw [(h.getRange_reverse_iff range).mpr hkeeps, hall, Option.getD_some]

end SoundTree

end Trees

section Runs

variable {w : Nat} [LinearOrder K] [RangeIndex K I] [CorrectIndex K I]

theorem valid_run {n : NullableIndex I w} (hvalid : CorrectIndex.Valid n.inner)
    (ops : List (NullableOp K)) : CorrectIndex.Valid (n.run ops).inner := by
  induction ops generalizing n with
  | nil => exact hvalid
  | cons op ops ih => exact ih (n.valid_call hvalid op)

theorem nullable_of_run {inner : I} (hvalid : CorrectIndex.Valid inner)
    (ops : List (NullableOp K)) :
    let n := (NullableIndex.new inner : NullableIndex I w).run ops
    (CorrectIndex.entries inner = [] →
      Run.Along (fun n op => some (n.call op)) NullableIndex.countsRemoval
        (NullableIndex.new inner : NullableIndex I w) ops →
      n.len = BitVec.ofNat w n.storedRows) ∧
    ∀ range reverse limit skip,
      (isUnbounded range = true →
        let window := passOn skip limit
          (RangeIndex.getRange n.inner none reverse none 0 ++ n.nullValues)
        (n.windowFits limit skip → n.getRange range reverse limit skip = window) ∧
          (n.nullValues.Nodup → n.getRange range reverse limit skip = window →
            n.windowFits limit skip)) ∧
      (isUnbounded range = false →
        n.getRange range reverse limit skip =
          RangeIndex.getRange n.inner range reverse limit skip) := by
  intro n
  refine ⟨fun hempty halong => ?_, fun range reverse limit skip =>
    ⟨fun hrange => ?_, fun hrange => ?_⟩⟩
  · obtain ⟨n', hrun, _, hcounts⟩ := Run.preserves
      (I := fun n : NullableIndex I w => CorrectIndex.Valid n.inner ∧ n.stats.Counts n.storedRows)
      (fun n op hn hop =>
        ⟨_, rfl, n.valid_call hn.1 op, n.counts_call hn.1 op hop hn.2⟩)
      ⟨hvalid, by rw [NullableIndex.storedRows, NullableIndex.new, hempty]; rfl⟩ halong
    obtain rfl : n = n' := Option.some.inj ((Run.run_total ..).symm.trans hrun)
    exact hcounts
  · exact NullableIndex.getRange_window (valid_run hvalid ops) hrange reverse limit skip
  · rw [NullableIndex.getRange, if_neg (by simp [hrange])]

def sampleNulls : List (NullableOp Nat) :=
  [.add 1 2, .addNull 7, .set 1 3, .remove 1 (some 3), .removeNull (some 8), .add 4 5]

abbrev sampleIndex : NullableIndex (HashIndex Nat) 64 := .new (.new false)

theorem nullable_of_run_sample :
    (sampleIndex.run sampleNulls).len = BitVec.ofNat 64 (sampleIndex.run sampleNulls).storedRows ∧
      (sampleIndex.run sampleNulls).getRange none false (some 4) 0 =
        passOn 0 (some 4)
          (RangeIndex.getRange (sampleIndex.run sampleNulls).inner none false none 0 ++
            (sampleIndex.run sampleNulls).nullValues) := by
  obtain ⟨hlen, hrange⟩ := @nullable_of_run Nat (HashIndex Nat) 64 _ _ _ (HashIndex.new false)
    (HashIndex.sound_new false) sampleNulls
  exact ⟨hlen rfl (by decide), ((hrange none false (some 4) 0).1 rfl).1 (.inr (.inl (by decide)))⟩

/-- Removing one of two rows is not counted, and a window behind the two rows of the inner
index misses the null row. -/
theorem nullable_miscounts :
    (sampleIndex.run [.add 1 2, .add 1 3, .remove 1 (some 2)]).len = 2 ∧
      (sampleIndex.run [.add 1 2, .add 1 3, .remove 1 (some 2)]).storedRows = 1 ∧
      (sampleIndex.run [.add 1 1, .add 2 2, .addNull 7]).getRange none false none 2 = [] ∧
      passOn 2 none (RangeIndex.getRange (sampleIndex.run [.add 1 1, .add 2 2, .addNull 7]).inner
        none false none 0 ++ (sampleIndex.run [.add 1 1, .add 2 2, .addNull 7]).nullValues) =
          [7] := by
  decide

end Runs

end Cynos.Index
