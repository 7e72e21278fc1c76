import Mathlib.Data.List.AList

/-! Hash maps, as association lists with distinct keys. The list is the order in which a map
happens to be iterated: lookups do not depend on it. -/
namespace Cynos

abbrev HashMap (K V : Type) := AList fun _ : K => V

namespace HashMap

variable {K V : Type}

/-- What an iteration over the map yields. -/
def iter (m : HashMap K V) : List (K × V) := m.entries.map fun e => (e.1, e.2)

theorem map_fst_iter (m : HashMap K V) : m.iter.map Prod.fst = m.keys := by
  rw [iter, List.map_map]
  rfl

theorem nodup_iter (m : HashMap K V) : m.iter.Nodup := by
  have hkeys := m.keys_nodup
  rw [← map_fst_iter] at hkeys
  exact hkeys.of_map

@[simp] theorem iter_empty : iter (∅ : HashMap K V) = [] := rfl

variable [DecidableEq K]

def get (m : HashMap K V) (k : K) : Option V := m.lookup k
def insert (m : HashMap K V) (k : K) (v : V) : HashMap K V := AList.insert k v m
def remove (m : HashMap K V) (k : K) : HashMap K V := m.erase k

@[simp] theorem get_empty (k : K) : get (∅ : HashMap K V) k = none := rfl

theorem mem_iter {m : HashMap K V} {k : K} {v : V} : (k, v) ∈ m.iter ↔ m.get k = some v := by
  rw [get, ← Option.mem_def, AList.mem_lookup_iff, iter, List.mem_map]
  constructor
  · rintro ⟨e, he, heq⟩
    obtain ⟨rfl, rfl⟩ := Prod.mk.injEq .. ▸ heq
    exact he
  · exact fun h => ⟨⟨k, v⟩, h, rfl⟩

theorem get_insert (m : HashMap K V) (k : K) (v : V) (key : K) :
    (m.insert k v).get key = if key = k then some v else m.get key := by
  split_ifs with h
  · rw [h, get, insert, AList.lookup_insert]
  · exact AList.lookup_insert_ne h

theorem get_remove (m : HashMap K V) (k key : K) :
    (m.remove k).get key = if key = k then none else m.get key := by
  split_ifs with h
  · rw [h, get, remove, AList.lookup_erase]
  · exact AList.lookup_erase_ne h

/-- An iteration yields the entries of the map in some order. -/
theorem iter_perm {m : HashMap K V} {es : List (K × V)} (hes : es.Nodup)
    (h : ∀ k v, (k, v) ∈ es ↔ m.get k = some v) : m.iter.Perm es :=
  (List.perm_ext_iff_of_nodup m.nodup_iter hes).mpr fun e => by
    rw [show e = (e.1, e.2) from rfl, mem_iter, h]

theorem iter_perm_remove {m : HashMap K V} {k : K} {v : V} (h : m.get k = some v) :
    m.iter.Perm ((k, v) :: (m.remove k).iter) := by
  refine iter_perm ?_ ?_
  · rw [List.nodup_cons, mem_iter, get_remove, if_pos rfl]
    exact ⟨by simp, nodup_iter _⟩
  · intro key w
    rw [List.mem_cons, mem_iter, get_remove]
    split_ifs with hkey
    · subst hkey
      simp [h, eq_comm]
    · simp [hkey]

theorem iter_insert_perm (m : HashMap K V) (k : K) (v : V) :
    (m.insert k v).iter.Perm ((k, v) :: (m.remove k).iter) := by
  refine iter_perm ?_ ?_
  · rw [List.nodup_cons, mem_iter, get_remove, if_pos rfl]
    exact ⟨by simp, nodup_iter _⟩
  · intro key w
    rw [List.mem_cons, mem_iter, get_remove, get_insert]
    split_ifs with hkey
    · subst hkey
      simp [eq_comm]
    · simp [hkey]

section Upsert

variable {W : Type}

/-- `entry(k)` with what becomes of the value there. -/
def upsert (m : HashMap K V) (k : K) (f : Option V → V) : HashMap K V := m.insert k (f (m.get k))

def collect (es : List (K × V)) : HashMap K V := es.foldl (fun m e => m.insert e.1 e.2) ∅

def mapValues (f : V → W) (m : HashMap K V) : HashMap K W :=
  collect (m.iter.map fun e => (e.1, f e.2))

theorem get_upsert (m : HashMap K V) (k : K) (f : Option V → V) (key : K) :
    (m.upsert k f).get key = if key = k then some (f (m.get key)) else m.get key := by
  rw [upsert, get_insert]
  split_ifs with h
  · rw [h]
  · rfl

/-- Entries with distinct keys worked into a map touch each key once. -/
theorem foldl_upsert (f : W → Option V → V) {es : List (K × W)} (hkeys : (es.map Prod.fst).Nodup)
    (m : HashMap K V) (k : K) :
    (k ∉ es.map Prod.fst → (es.foldl (fun m e => m.upsert e.1 (f e.2)) m).get k = m.get k) ∧
      ∀ w, (k, w) ∈ es →
        (es.foldl (fun m e => m.upsert e.1 (f e.2)) m).get k = some (f w (m.get k)) := by
  induction es generalizing m with
  | nil => simp
  | cons e es ih =>
    obtain ⟨k', w'⟩ := e
    rw [List.map_cons, List.nodup_cons] at hkeys
    obtain ⟨hout, hin⟩ := ih hkeys.2 (m.upsert k' (f w'))
    simp only [List.foldl_cons, List.map_cons, List.mem_cons, Prod.mk.injEq, not_or]
    rw [get_upsert] at hout hin
    refine ⟨fun ⟨hne, hmem⟩ => by rw [hout hmem, if_neg hne], ?_⟩
    rintro w (⟨rfl, rfl⟩ | hmem)
    · rw [hout hkeys.1, if_pos rfl]
    · have hne : k ≠ k' := fun heq => hkeys.1 (heq ▸ List.mem_map.mpr ⟨_, hmem, rfl⟩)
      rw [hin w hmem, if_neg hne]

theorem get_collect {es : List (K × V)} (hkeys : (es.map Prod.fst).Nodup) {k : K} {v : V} :
    (collect es).get k = some v ↔ (k, v) ∈ es := by
  obtain ⟨hout, hin⟩ := foldl_upsert (fun v _ => v) hkeys (∅ : HashMap K V) k
  refine ⟨fun hget => ?_, hin v⟩
  by_cases hmem : k ∈ es.map Prod.fst
  · obtain ⟨⟨_, v'⟩, he, rfl⟩ := List.mem_map.mp hmem
    have hv : v' = v := Option.some.inj ((hin v' he).symm.trans hget)
    exact hv ▸ he
  · cases (hout hmem).symm.trans hget

theorem get_mapValues (f : V → W) (m : HashMap K V) (k : K) :
    (m.mapValues f).get k = (m.get k).map f := by
  have hkeys : ((m.iter.map fun e => (e.1, f e.2)).map Prod.fst).Nodup := by
    rw [List.map_map, show Prod.fst ∘ (fun e : K × V => (e.1, f e.2)) = Prod.fst from rfl,
      map_fst_iter]
    exact m.keys_nodup
  refine Option.ext fun w => ?_
  rw [mapValues, get_collect hkeys, List.mem_map, Option.map_eq_some_iff]
  constructor
  · rintro ⟨⟨k', v⟩, hmem, heq⟩
    obtain ⟨rfl, rfl⟩ := Prod.mk.inj heq
    exact ⟨v, mem_iter.mp hmem, rfl⟩
  · rintro ⟨v, hget, rfl⟩
    exact ⟨(k, v), mem_iter.mpr hget, rfl⟩

/-- Working the entries of one map into another. -/
theorem get_foldl_upsert (f : W → Option V → V) (d : HashMap K W) (m : HashMap K V) (k : K) :
    (d.iter.foldl (fun m e => m.upsert e.1 (f e.2)) m).get k =
      (d.get k).elim (m.get k) fun w => some (f w (m.get k)) := by
  have hkeys : (d.iter.map Prod.fst).Nodup := by
    rw [map_fst_iter]
    exact d.keys_nodup
  obtain ⟨hout, hin⟩ := foldl_upsert f hkeys m k
  cases hget : d.get k with
  | none =>
    refine hout fun hmem => ?_
    obtain ⟨⟨k', w⟩, he, rfl⟩ := List.mem_map.mp hmem
    rw [mem_iter, hget] at he
    cases he
  | some w => exact hin w (mem_iter.mpr hget)

end Upsert

end HashMap

end Cynos
