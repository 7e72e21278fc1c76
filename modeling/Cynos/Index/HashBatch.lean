import Cynos.Index.HashAgreement
import Cynos.Index.PlainMap

/-! Batches on the hash index: additions are grouped by their keys, removals made one by one. -/
namespace Cynos.Index.HashIndex

variable {K : Type} [DecidableEq K]

/-- Whether a key of the batch is stored or comes a second time. -/
def repeatsKey (h : HashIndex K) (seen : List K) : List (K × RowId) → Bool
  | [] => false
  | (key, _) :: entries => h.containsKey key || key ∈ seen || h.repeatsKey (key :: seen) entries

def insertSingles (map : HashMap K (List RowId)) (entries : List (K × RowId)) :
    HashMap K (List RowId) :=
  entries.foldl (fun map (key, rowId) => map.insert key [rowId]) map

/-- Pushes the ids of every group behind those of its key. -/
def append (map : HashMap K (List RowId)) (groups : List (K × List RowId)) :
    HashMap K (List RowId) :=
  groups.foldl (fun map (key, rowIds) => map.insert key ((map.get key).getD [] ++ rowIds)) map

def grouped (entries : List (K × RowId)) : HashMap K (List RowId) :=
  append ∅ (entries.map fun (key, rowId) => (key, [rowId]))

def addBatch (h : HashIndex K) (entries : List (K × RowId)) :
    HashIndex K × Except IndexError Unit :=
  if entries.isEmpty then (h, .ok ())
  else if h.unique then
    if h.repeatsKey [] entries then (h, .error .duplicateKey)
    else ({ h with
        map := insertSingles h.map entries
        stats := h.stats.addRows entries.length }, .ok ())
  else ({ h with
      map := append h.map (grouped entries).iter
      stats := h.stats.addRows entries.length }, .ok ())

def removeBatch (h : HashIndex K) (entries : List (K × RowId)) : HashIndex K :=
  entries.foldl (fun h (key, rowId) => h.remove key (some rowId)) h

section Removal

variable {K : Type} [LinearOrder K] {h : HashIndex K}

theorem Sound.removeBatch (hs : h.Sound) (entries : List (K × RowId)) :
    (h.removeBatch entries).Sound ∧
      (h.removeBatch entries).plain = h.plain.call (.removeBatch entries) := by
  induction entries generalizing h with
  | nil => exact ⟨hs, rfl⟩
  | cons entry entries ih =>
    obtain ⟨hnext, hplain⟩ := hs.remove entry.1 (some entry.2)
    obtain ⟨hrest, heq⟩ := ih hnext
    refine ⟨hrest, heq.trans ?_⟩
    rw [hplain]
    rfl

end Removal

section Addition

variable {K : Type} [LinearOrder K] {h : HashIndex K} {map : HashMap K (List RowId)}

theorem repeatsKey_iff (hs : h.Sound) (seen : List K) (entries : List (K × RowId)) :
    h.repeatsKey seen entries = true ↔
      (∃ e ∈ entries, h.get e.1 ≠ []) ∨ (∃ e ∈ entries, e.1 ∈ seen) ∨
        ¬(entries.map Prod.fst).Nodup := by
  induction entries generalizing seen with
  | nil => simp [repeatsKey]
  | cons entry entries ih =>
    obtain ⟨key, rowId⟩ := entry
    have hkey : (∃ e ∈ entries, e.1 = key) ↔ key ∈ entries.map Prod.fst := by
      rw [List.mem_map]
    rw [repeatsKey, Bool.or_eq_true, Bool.or_eq_true, containsKey_eq hs, ih]
    simp only [List.mem_cons, exists_eq_or_imp, List.map_cons, List.nodup_cons, not_and_or,
      not_not, Bool.not_eq_true', List.isEmpty_eq_false_iff, decide_eq_true_eq, and_or_left,
      exists_or, hkey]
    exact Iff.of_eq (by ac_rfl)

/-- Sizes and lists of a map to which groups are pushed. -/
theorem size_append (map : HashMap K (List RowId)) (groups : List (K × List RowId)) :
    Multimap.size (append map groups).iter = Multimap.size map.iter + Multimap.size groups := by
  induction groups generalizing map with
  | nil => rfl
  | cons group groups ih =>
    have hsize := size_iter_insert map group.1 ((map.get group.1).getD [] ++ group.2)
    rw [append, List.foldl_cons, ← append, ih, Multimap.size_cons]
    rw [List.length_append] at hsize
    dsimp only at hsize ⊢
    omega

theorem get_append (map : HashMap K (List RowId)) (groups : List (K × List RowId)) (key : K) :
    ((append map groups).get key).getD [] =
      (map.get key).getD [] ++ (groups.filter (·.1 = key)).flatMap Prod.snd := by
  induction groups generalizing map with
  | nil => simp [append]
  | cons group groups ih =>
    rw [append, List.foldl_cons, ← append, ih, HashMap.get_insert]
    by_cases hkey : key = group.1
    · simp [hkey]
    · simp [hkey, Ne.symm hkey]

theorem append_ne_nil {groups : List (K × List RowId)} (hgroups : ∀ e ∈ groups, e.2 ≠ [])
    (hmap : ∀ e ∈ map.iter, e.2 ≠ []) : ∀ e ∈ (append map groups).iter, e.2 ≠ [] := by
  induction groups generalizing map with
  | nil => exact hmap
  | cons group groups ih =>
    refine ih (fun e he => hgroups e (List.mem_cons_of_mem _ he)) fun e he => ?_
    have hget : (map.insert group.1 ((map.get group.1).getD [] ++ group.2)).get e.1 = some e.2 :=
      HashMap.mem_iter.mp he
    rw [HashMap.get_insert] at hget
    split at hget
    · obtain heq := Option.some.inj hget
      exact fun hnil => hgroups group List.mem_cons_self (List.append_eq_nil_iff.mp
        (heq.trans hnil)).2
    · exact hmap e (HashMap.mem_iter.mpr hget)

/-- The batch as groups of one id each. -/
def singles (entries : List (K × RowId)) : List (K × List RowId) :=
  entries.map fun (key, rowId) => (key, [rowId])

omit [LinearOrder K] in
theorem size_singles (entries : List (K × RowId)) :
    Multimap.size (singles entries) = entries.length := by
  induction entries with
  | nil => rfl
  | cons entry entries ih =>
    change 1 + Multimap.size (singles entries) = entries.length + 1
    rw [ih, Nat.add_comm]

omit [LinearOrder K] in
theorem singles_ne_nil (entries : List (K × RowId)) : ∀ e ∈ singles entries, e.2 ≠ [] := by
  intro e he
  obtain ⟨entry, -, rfl⟩ := List.mem_map.mp he
  exact List.cons_ne_nil _ _

theorem singles_listed (entries : List (K × RowId)) (key : K) :
    ((singles entries).filter (·.1 = key)).flatMap Prod.snd = listed entries key := by
  induction entries with
  | nil => rfl
  | cons entry entries ih =>
    change ((entry.1, [entry.2]) :: singles entries |>.filter (·.1 = key)).flatMap Prod.snd = _
    rw [show entry = (entry.1, entry.2) from rfl, listed_cons, ← ih]
    by_cases hkey : entry.1 = key
    · simp [hkey]
    · simp [hkey]

/-- The groups of a map list each key once. -/
theorem iter_listed (map : HashMap K (List RowId)) (key : K) :
    (map.iter.filter (·.1 = key)).flatMap Prod.snd = (map.get key).getD [] := by
  cases hget : map.get key with
  | none =>
    have hnone : map.iter.filter (·.1 = key) = [] := by
      rw [List.filter_eq_nil_iff]
      intro e he heq
      rw [decide_eq_true_eq] at heq
      have hsome : map.get e.1 = some e.2 := HashMap.mem_iter.mp he
      rw [heq, hget] at hsome
      cases hsome
    rw [hnone]
    rfl
  | some ids =>
    have hperm := (HashMap.iter_perm_remove hget).filter (fun e => decide (e.1 = key))
    have hrest : (map.remove key).iter.filter (·.1 = key) = [] := by
      rw [List.filter_eq_nil_iff]
      intro e he heq
      rw [decide_eq_true_eq] at heq
      have hsome : (map.remove key).get e.1 = some e.2 := HashMap.mem_iter.mp he
      rw [HashMap.get_remove, if_pos heq] at hsome
      cases hsome
    rw [List.filter_cons_of_pos (by simp), hrest, List.perm_singleton] at hperm
    rw [hperm]
    simp

/-- Keys that are new and come once are put in as they are pushed. -/
theorem insertSingles_eq {entries : List (K × RowId)} (hnodup : (entries.map Prod.fst).Nodup)
    (hfree : ∀ e ∈ entries, (map.get e.1).getD [] = []) :
    insertSingles map entries = append map (singles entries) := by
  induction entries generalizing map with
  | nil => rfl
  | cons entry entries ih =>
    rw [List.map_cons, List.nodup_cons] at hnodup
    change insertSingles (map.insert entry.1 [entry.2]) entries =
      append (map.insert entry.1 ((map.get entry.1).getD [] ++ [entry.2])) (singles entries)
    rw [hfree entry List.mem_cons_self, List.nil_append]
    refine ih hnodup.2 fun e he => ?_
    have hne : e.1 ≠ entry.1 := fun heq => hnodup.1 (heq ▸ List.mem_map_of_mem he)
    rw [HashMap.get_insert, if_neg hne]
    exact hfree e (List.mem_cons_of_mem _ he)

/-- Pushing groups that hold the batch adds the batch. -/
theorem Sound.append (hs : h.Sound) {entries : List (K × RowId)} {groups : List (K × List RowId)}
    (hsize : Multimap.size groups = entries.length) (hne : ∀ e ∈ groups, e.2 ≠ [])
    (hlisted : ∀ key, (groups.filter (·.1 = key)).flatMap Prod.snd = listed entries key) :
    Sound { h with map := append h.map groups, stats := h.stats.addRows entries.length } ∧
      plain { h with map := append h.map groups, stats := h.stats.addRows entries.length } =
        { h.plain with ids := fun key => h.plain.ids key ++ listed entries key } := by
  refine ⟨⟨?_, append_ne_nil hne hs.stored⟩, congrArg (PlainMap.mk h.unique) (funext fun key => ?_)⟩
  · rw [IndexStats.addRows_totalRows, size_append, hs.counted, hsize]
  · exact (get_append h.map groups key).trans (congrArg (h.get key ++ ·) (hlisted key))

/-- What the index holds after a batch that is grouped right. -/
theorem Sound.added (hs : h.Sound) {entries : List (K × RowId)} {groups : List (K × List RowId)}
    (hsize : Multimap.size groups = entries.length) (hne : ∀ e ∈ groups, e.2 ≠ [])
    (hlisted : ∀ key, (groups.filter (·.1 = key)).flatMap Prod.snd = listed entries key)
    (hclash : ¬Clashes h.unique h.get entries)
    (heq : h.addBatch entries = ({ h with
      map := HashIndex.append h.map groups
      stats := h.stats.addRows entries.length }, .ok ())) :
    (h.addBatch entries).1.Sound ∧
      (h.addBatch entries).1.plain = h.plain.call (.addBatch entries) ∧
      ((h.addBatch entries).2 = .ok () ↔ ¬Clashes h.unique h.get entries) := by
  obtain ⟨hsound, hplain⟩ := hs.append hsize hne hlisted
  rw [heq]
  exact ⟨hsound, hplain.trans (if_neg hclash).symm, iff_of_true rfl hclash⟩

theorem Sound.addBatch (hs : h.Sound) (entries : List (K × RowId)) :
    (h.addBatch entries).1.Sound ∧
      (h.addBatch entries).1.plain = h.plain.call (.addBatch entries) ∧
      ((h.addBatch entries).2 = .ok () ↔ ¬Clashes h.unique h.get entries) := by
  by_cases hempty : entries.isEmpty = true
  · obtain rfl := List.isEmpty_iff.mp hempty
    have hclash : ¬Clashes h.unique h.get ([] : List (K × RowId)) := by simp [Clashes]
    have hplain : h.plain.call (.addBatch []) = h.plain := by
      refine (if_neg hclash).trans ?_
      simp only [listed_nil, List.append_nil]
    exact ⟨hs, hplain.symm, iff_of_true rfl hclash⟩
  by_cases hunique : h.unique = true
  · have hrepeats := repeatsKey_iff hs [] entries
    simp only [List.not_mem_nil, and_false, exists_false, false_or] at hrepeats
    by_cases hdup : h.repeatsKey [] entries = true
    · have hclash : Clashes h.unique h.get entries := ⟨hunique, hrepeats.mp hdup⟩
      have heq : h.addBatch entries = (h, .error .duplicateKey) := by
        rw [HashIndex.addBatch, if_neg hempty, if_pos hunique, if_pos hdup]
      rw [heq]
      exact ⟨hs, (if_pos hclash).symm, iff_of_false (by simp) (not_not.mpr hclash)⟩
    · have hclash : ¬Clashes h.unique h.get entries := fun h => hdup (hrepeats.mpr h.2)
      have hnodup : (entries.map Prod.fst).Nodup := by
        by_contra hnot
        exact hclash ⟨hunique, .inr hnot⟩
      have hfree : ∀ e ∈ entries, (h.map.get e.1).getD [] = [] := by
        intro e he
        by_contra hnot
        exact hclash ⟨hunique, .inl ⟨e, he, hnot⟩⟩
      refine hs.added (size_singles entries) (singles_ne_nil entries) (singles_listed entries)
        hclash ?_
      rw [HashIndex.addBatch, if_neg hempty, if_pos hunique, if_neg hdup,
        insertSingles_eq hnodup hfree]
  · have hclash : ¬Clashes h.unique h.get entries := fun h => hunique h.1
    have hgrouped : ∀ key, ((grouped entries).iter.filter (·.1 = key)).flatMap Prod.snd =
        listed entries key := fun key => by
      rw [iter_listed, grouped, get_append]
      exact singles_listed entries key
    have hne : ∀ e ∈ (grouped entries).iter, e.2 ≠ [] :=
      append_ne_nil (singles_ne_nil entries) (by simp)
    have hsize : Multimap.size (grouped entries).iter = entries.length := by
      rw [grouped, size_append, HashMap.iter_empty, Multimap.size_nil, Nat.zero_add]
      exact size_singles entries
    refine hs.added hsize hne hgrouped hclash ?_
    rw [HashIndex.addBatch, if_neg hempty, if_neg hunique]

end Addition

end Cynos.Index.HashIndex
