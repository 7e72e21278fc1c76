import Cynos.Index.Traits
import Cynos.Lib.HashMap
import Cynos.Lib.Multimap
import Mathlib.Data.List.Sort

/-! The hash index. A result `none` of `min` or `max` stands for an `unwrap` of nothing. -/
namespace Cynos.Index

structure HashIndex (K : Type) where
  map : HashMap K (List RowId)
  unique : Bool
  stats : IndexStats

namespace HashIndex

variable {K : Type}

def new (unique : Bool) : HashIndex K := { map := ∅, unique, stats := .new }

def isUnique (h : HashIndex K) : Bool := h.unique
def distinctKeyCount (h : HashIndex K) : Nat := h.map.iter.length
def getAllRowIds (h : HashIndex K) : List RowId := h.map.iter.flatMap Prod.snd
def len (h : HashIndex K) : Nat := h.stats.totalRows
def isEmpty (h : HashIndex K) : Bool := h.map.iter.isEmpty
def clear (h : HashIndex K) : HashIndex K := { h with map := ∅, stats := h.stats.clear }

section Keys

variable [DecidableEq K]

def get (h : HashIndex K) (key : K) : List RowId := (h.map.get key).getD []
def containsKey (h : HashIndex K) (key : K) : Bool := (h.map.get key).isSome

def add (h : HashIndex K) (key : K) (value : RowId) : HashIndex K × Except IndexError Unit :=
  if h.unique && h.containsKey key then (h, .error .duplicateKey)
  else
    ({ h with
        map := h.map.insert key ((h.map.get key).getD [] ++ [value])
        stats := h.stats.addRows 1 }, .ok ())

def set (h : HashIndex K) (key : K) (value : RowId) : HashIndex K :=
  let oldCount := ((h.map.get key).map List.length).getD 0
  let stats := if oldCount > 0 then h.stats.removeRows oldCount else h.stats
  { h with map := h.map.insert key [value], stats := stats.addRows 1 }

def remove (h : HashIndex K) (key : K) : Option RowId → HashIndex K
  | some value =>
    match h.map.get key with
    | none => h
    | some values =>
      let kept := values.filter (· != value)
      let removed := values.length - kept.length
      { h with
        map := if kept.isEmpty then h.map.remove key else h.map.insert key kept
        stats := if removed > 0 then h.stats.removeRows removed else h.stats }
  | none =>
    match h.map.get key with
    | none => h
    | some values =>
      { h with map := h.map.remove key, stats := h.stats.removeRows values.length }

end Keys

section Queries

variable [LinearOrder K]

protected def min (h : HashIndex K) : Option (Option (K × List RowId)) :=
  match (h.map.iter.map Prod.fst).min? with
  | none => some none
  | some k => (h.map.get k).map fun values => some (k, values)

protected def max (h : HashIndex K) : Option (Option (K × List RowId)) :=
  match (h.map.iter.map Prod.fst).max? with
  | none => some none
  | some k => (h.map.get k).map fun values => some (k, values)

def cost (h : HashIndex K) : KeyRange K → Nat
  | .all => h.stats.totalRows
  | .only key => ((h.map.get key).map List.length).getD 0
  | .lowerBound _ _ | .upperBound _ _ | .bound _ _ _ _ => h.stats.totalRows

def getRange (h : HashIndex K) (range : Option (KeyRange K)) (reverse : Bool)
    (limit : Option Nat) (skip : Nat) : List RowId :=
  let entries := h.map.iter.filter fun e => range.elim true (·.contains e.1)
  let entries := entries.insertionSort fun left right => keyLe left.1 right.1
  let entries := if reverse then entries.reverse else entries
  let ids := (entries.flatMap Prod.snd).drop skip
  limit.elim ids ids.take

end Queries

/-- The rows are counted and no key is kept without one. -/
structure Sound (h : HashIndex K) : Prop where
  counted : h.stats.totalRows = Multimap.size h.map.iter
  stored : ∀ e ∈ h.map.iter, e.2 ≠ []

section Steps

variable [DecidableEq K] {h : HashIndex K}

theorem Sound.ne_nil (hs : h.Sound) {key : K} {ids : List RowId} (hget : h.map.get key = some ids) :
    ids ≠ [] :=
  hs.stored (key, ids) (HashMap.mem_iter.mpr hget)

theorem get_eq_some {key : K} {ids : List RowId} (hne : ids ≠ []) :
    h.map.get key = some ids ↔ h.get key = ids := by
  rw [get]
  cases hget : h.map.get key with
  | none => simpa using hne.symm
  | some ids' => simp

theorem containsKey_eq (hs : h.Sound) (key : K) : h.containsKey key = !(h.get key).isEmpty := by
  rw [containsKey, get]
  cases hget : h.map.get key with
  | none => rfl
  | some ids => simpa using hs.ne_nil hget

theorem size_iter_insert (m : HashMap K (List RowId)) (key : K) (ids : List RowId) :
    Multimap.size (m.insert key ids).iter + ((m.get key).getD []).length =
      Multimap.size m.iter + ids.length := by
  rw [Multimap.size_perm (m.iter_insert_perm key ids), Multimap.size_cons]
  cases hget : m.get key with
  | none =>
    have hrest : (m.remove key).iter.Perm m.iter := HashMap.iter_perm m.nodup_iter fun k v => by
      rw [HashMap.mem_iter, HashMap.get_remove]
      split_ifs with hk
      · simp [hk, hget]
      · rfl
    rw [Multimap.size_perm hrest]
    simp [Nat.add_comm]
  | some old =>
    rw [Multimap.size_perm (HashMap.iter_perm_remove hget), Multimap.size_cons]
    simp only [Option.getD_some]
    omega

theorem size_iter_remove {m : HashMap K (List RowId)} {key : K} {ids : List RowId}
    (hget : m.get key = some ids) :
    Multimap.size (m.remove key).iter + ids.length = Multimap.size m.iter := by
  rw [Multimap.size_perm (HashMap.iter_perm_remove hget), Multimap.size_cons, Nat.add_comm]

omit [DecidableEq K] in
theorem sound_new (unique : Bool) : (HashIndex.new unique : HashIndex K).Sound :=
  ⟨rfl, by simp [new]⟩

omit [DecidableEq K] in
theorem sound_clear (h : HashIndex K) : h.clear.Sound := ⟨rfl, by simp [clear]⟩

/-- Inserting under a key keeps the index sound when the rows are counted. -/
theorem Sound.insert (hs : h.Sound) {key : K} {ids : List RowId} (hne : ids ≠ [])
    {stats : IndexStats}
    (hstats : stats.totalRows + (h.get key).length = h.stats.totalRows + ids.length) :
    ({ h with map := h.map.insert key ids, stats } : HashIndex K).Sound := by
  refine ⟨?_, fun e he => ?_⟩
  · have hsize := size_iter_insert h.map key ids
    rw [← hs.counted] at hsize
    rw [get] at hstats
    dsimp only
    omega
  · rw [show e = (e.1, e.2) from rfl, HashMap.mem_iter, HashMap.get_insert] at he
    split_ifs at he with hk
    · exact Option.some.inj he ▸ hne
    · exact hs.ne_nil he

theorem Sound.erase (hs : h.Sound) {key : K} {ids : List RowId} (hget : h.map.get key = some ids)
    {stats : IndexStats} (hstats : stats.totalRows + ids.length = h.stats.totalRows) :
    ({ h with map := h.map.remove key, stats } : HashIndex K).Sound := by
  refine ⟨?_, fun e he => ?_⟩
  · have hsize := size_iter_remove hget
    rw [← hs.counted] at hsize
    dsimp only
    omega
  · rw [show e = (e.1, e.2) from rfl, HashMap.mem_iter, HashMap.get_remove] at he
    split_ifs at he with hk
    exact hs.ne_nil he

end Steps

end HashIndex

end Cynos.Index
