import Cynos.Index.GinPostings

/-! The bulk builder of a GIN index against additions one by one. -/
namespace Cynos.Index

section Gathered

/-- The sortedness that the flag of collected rows promises. -/
def GinBulkRows.Sound (r : GinBulkRows) : Prop := r.sortedUnique = true → Ascending r.rows

theorem GinBulkRows.push_spec {r : GinBulkRows} (h : r.Sound) (rowId : RowId) :
    (r.push rowId).Sound ∧ ∀ id, id ∈ (r.push rowId).rows ↔ id ∈ r.rows ∨ id = rowId := by
  unfold push
  split
  · next hlast =>
    rw [List.getLast?_eq_none_iff] at hlast
    exact ⟨fun _ => by simp [hlast], by simp⟩
  · next last hlast =>
    split_ifs with hgt heq
    · refine ⟨fun hflag => ?_, by simp⟩
      exact Ascending.append_singleton (h hflag) fun x hx =>
        (Ascending.le_getLast (h hflag) hlast x hx).trans_lt hgt
    · subst heq
      refine ⟨h, fun id => ⟨.inl, fun hid => hid.elim (fun hid => hid) fun hid => ?_⟩⟩
      exact hid ▸ List.mem_of_getLast? hlast
    · exact ⟨nofun, by simp⟩

theorem GinBulkRows.intoSortedUnique_spec {r : GinBulkRows} (h : r.Sound) :
    Ascending r.intoSortedUnique ∧ ∀ id, id ∈ r.intoSortedUnique ↔ id ∈ r.rows := by
  rw [intoSortedUnique]
  split_ifs with hflag
  · exact ⟨h hflag, fun id => Iff.rfl⟩
  · refine ⟨Ascending.dedup_ascending (List.pairwise_mergeSort' _ _), fun id => ?_⟩
    rw [Ascending.mem_dedup, List.mem_mergeSort]

/-- Rows collected in any order, the ones that satisfy `P`. -/
structure Gathered (rows : Option GinBulkRows) (P : RowId → Prop) : Prop where
  sound : ∀ r, rows = some r → r.Sound ∧ r.rows ≠ []
  mem : ∀ id, (∃ r, rows = some r ∧ id ∈ r.rows) ↔ P id

variable {rows : Option GinBulkRows} {P Q : RowId → Prop}

theorem Gathered.congr (h : Gathered rows P) (hPQ : ∀ id, P id ↔ Q id) : Gathered rows Q :=
  ⟨h.sound, fun id => (h.mem id).trans (hPQ id)⟩

theorem Gathered.none (h : ∀ id, ¬P id) : Gathered none P :=
  ⟨nofun, fun id => iff_of_false nofun (h id)⟩

theorem Gathered.push (h : Gathered rows P) (rowId : RowId) :
    Gathered (some (GinBulkBuilder.pushRow rowId rows)) fun id => P id ∨ id = rowId := by
  obtain ⟨hsound, hmem⟩ : (rows.getD .default).Sound ∧
      ∀ id, id ∈ (rows.getD .default).rows ↔ P id := by
    cases rows with
    | none => exact ⟨nofun, fun id => by simp [← h.mem, GinBulkRows.default]⟩
    | some r => exact ⟨(h.sound r rfl).1, fun id => by simp [← h.mem]⟩
  obtain ⟨hsound', hmem'⟩ := GinBulkRows.push_spec hsound rowId
  refine ⟨fun r hr => ?_, fun id => ?_⟩
  · obtain rfl := Option.some.inj hr
    exact ⟨hsound', List.ne_nil_of_mem ((hmem' rowId).mpr (.inr rfl))⟩
  · simp only [Option.some.injEq, exists_eq_left']
    rw [GinBulkBuilder.pushRow, hmem', hmem]

theorem Gathered.holds (h : Gathered rows P) :
    Listing (rows.map GinBulkRows.intoSortedUnique) P := by
  cases rows with
  | none => exact .none fun id hid => by simpa using (h.mem id).mpr hid
  | some r =>
    obtain ⟨hsound, hne⟩ := h.sound r rfl
    obtain ⟨hasc, hmem⟩ := GinBulkRows.intoSortedUnique_spec hsound
    have hP (id : RowId) : id ∈ r.intoSortedUnique ↔ P id := by
      rw [hmem, ← h.mem]
      simp
    refine .some hasc (fun hnil => ?_) hP
    obtain ⟨id, hid⟩ := List.exists_mem_of_ne_nil _ hne
    have := (hmem id).mpr hid
    simp [hnil] at this

end Gathered

section Collect

/-- What a nested map holds under a key and a value. -/
def under {V : Type} (index : ValueRows V) (key value : String) : Option V :=
  (index.get key).bind (·.get value)

theorem under_pushUnder (index : ValueRows GinBulkRows) (key value : String) (rowId : RowId)
    (k v : String) : under (GinBulkBuilder.pushUnder index key value rowId) k v =
      if k = key ∧ v = value then some (GinBulkBuilder.pushRow rowId (under index k v))
      else under index k v := by
  have hget (values : Option (HashMap String GinBulkRows)) :
      (values.getD ∅).get v = values.bind (·.get v) := by cases values <;> rfl
  rw [under, GinBulkBuilder.pushUnder, HashMap.get_upsert]
  by_cases hk : k = key
  · rw [if_pos hk, Option.bind_some, HashMap.get_upsert, hget]
    simp only [hk, true_and, under]
  · rw [if_neg hk, if_neg (fun h => hk h.1), under]

def CachesCodes (cache : HashMap String (List Nat)) : Prop :=
  ∀ value codes, cache.get value = some codes → codes = uniqueTrigramCodes value

theorem CachesCodes.insert {cache : HashMap String (List Nat)} (h : CachesCodes cache)
    (value : String) : CachesCodes (cache.insert value (uniqueTrigramCodes value)) := by
  intro v codes hget
  rw [HashMap.get_insert] at hget
  split_ifs at hget with hv
  · rw [hv, ← Option.some.inj hget]
  · exact h v codes hget

/-- What the builder has collected of a list of entries. -/
structure Collects (b : GinBulkBuilder) (entries : List GinEntry) : Prop where
  keys : ∀ k, Gathered (b.keyIndex.get k) fun id => .key k id ∈ entries
  pairs : ∀ k v, Gathered (under b.keyValueIndex k v) fun id => .keyValue k v id ∈ entries
  texts : ∀ k v, Gathered (under b.containsValueIndex k v) fun id =>
    ∃ path, k = containsTrigramKey path ∧ .contains path v id ∈ entries
  cache : CachesCodes b.trigramCache
  count : b.keyAddCount = entries.countP GinEntry.isKey

theorem collects_new : Collects .new [] where
  keys _ := .none (by simp)
  pairs _ _ := .none (by simp)
  texts _ _ := .none (by simp)
  cache := nofun
  count := rfl

variable {b : GinBulkBuilder} {entries : List GinEntry}

/-- Counting the trigrams of a text fills the cache and changes nothing else. -/
theorem trigramCodeCountForValue_spec (h : CachesCodes b.trigramCache) (needle : String) :
    (b.trigramCodeCountForValue needle).2 = (uniqueTrigramCodes needle).length ∧
      ∃ cache, CachesCodes cache ∧
        (b.trigramCodeCountForValue needle).1 = { b with trigramCache := cache } := by
  rw [GinBulkBuilder.trigramCodeCountForValue]
  cases hget : b.trigramCache.get needle with
  | some cached => exact ⟨by rw [h needle cached hget], b.trigramCache, h, rfl⟩
  | none =>
    dsimp only
    split_ifs
    · exact ⟨rfl, _, h.insert needle, rfl⟩
    · exact ⟨rfl, b.trigramCache, h, rfl⟩

theorem Collects.add (h : Collects b entries) (e : GinEntry) :
    Collects (b.add e) (entries ++ [e]) := by
  cases e with
  | key name rowId =>
    refine ⟨fun k => ?_, fun k v => ?_, fun k v => ?_, h.cache, ?_⟩
    · rw [GinBulkBuilder.add, GinBulkBuilder.addKey, HashMap.get_upsert]
      split_ifs with hk
      · exact ((h.keys k).push rowId).congr fun id => by simp [hk]
      · exact (h.keys k).congr fun id => by simp [hk]
    · exact (h.pairs k v).congr fun id => by simp
    · exact (h.texts k v).congr fun id => by simp
    · rw [List.countP_append, ← h.count]
      rfl
  | keyValue name value rowId =>
    refine ⟨fun k => ?_, fun k v => ?_, fun k v => ?_, h.cache, ?_⟩
    · exact (h.keys k).congr fun id => by simp
    · rw [GinBulkBuilder.add, GinBulkBuilder.addKeyValue, under_pushUnder]
      split_ifs with hkv
      · exact ((h.pairs k v).push rowId).congr fun id => by simp [hkv.1, hkv.2]
      · refine (h.pairs k v).congr fun id => ?_
        simp only [List.mem_append, List.mem_singleton, GinEntry.keyValue.injEq]
        tauto
    · exact (h.texts k v).congr fun id => by simp
    · rw [List.countP_append, ← h.count]
      rfl
  | contains path needle rowId =>
    have hcache : CachesCodes (b.addContainsValue (containsTrigramKey path) needle
      rowId).trigramCache := h.cache
    obtain ⟨cache, hcache', hadd⟩ := (trigramCodeCountForValue_spec hcache needle).2
    rw [GinBulkBuilder.add, GinBulkBuilder.addContainsTrigrams,
      GinBulkBuilder.addContainsTrigramsForKey, hadd]
    refine ⟨fun k => ?_, fun k v => ?_, fun k v => ?_, hcache', ?_⟩
    · exact (h.keys k).congr fun id => by simp
    · exact (h.pairs k v).congr fun id => by simp
    · rw [GinBulkBuilder.addContainsValue, under_pushUnder]
      split_ifs with hkv
      · obtain ⟨rfl, rfl⟩ := hkv
        refine ((h.texts _ v).push rowId).congr fun id => ⟨?_, ?_⟩
        · rintro (⟨path', hk, hmem⟩ | rfl)
          · exact ⟨path', hk, List.mem_append_left _ hmem⟩
          · exact ⟨path, rfl, by simp⟩
        · rintro ⟨path', hk, hmem⟩
          rcases List.mem_append.mp hmem with hmem | hmem
          · exact .inl ⟨path', hk, hmem⟩
          · exact .inr (GinEntry.contains.inj (List.mem_singleton.mp hmem)).2.2
      · refine (h.texts k v).congr fun id => exists_congr fun path' => and_congr_right fun hk => ?_
        rw [List.mem_append, List.mem_singleton, GinEntry.contains.injEq]
        exact ⟨.inl, fun hmem => hmem.resolve_right fun heq => hkv ⟨heq.1 ▸ hk, heq.2.1⟩⟩
    · rw [List.countP_append, ← h.count]
      rfl

theorem collects_addAll (entries : List GinEntry) :
    Collects (GinBulkBuilder.new.addAll entries) entries := by
  have hall (before after : List GinEntry) (b : GinBulkBuilder) (h : Collects b before) :
      Collects (b.addAll after) (before ++ after) := by
    induction after generalizing before b with
    | nil => rwa [List.append_nil]
    | cons e after ih =>
      have := ih (before ++ [e]) (b.add e) (h.add e)
      rwa [List.append_assoc] at this
  exact hall [] entries .new collects_new

end Collect

section Finish

variable {keyValues : HashMap String (List RowId)} {P : String → RowId → Prop}

theorem addTrigramRows_holds (h : ∀ v, Listing (keyValues.get v) (P v)) {rows : List RowId}
    (hrows : Ascending rows) (hne : rows ≠ []) (codes : List Nat) (v : String) :
    Listing ((GinBulkBuilder.addTrigramRows rows keyValues codes).get v) fun id =>
      P v id ∨ id ∈ rows ∧ ∃ code ∈ codes, v = trigramStringFromCode code := by
  induction codes generalizing keyValues P with
  | nil => exact (h v).congr fun id => by simp
  | cons code codes ih =>
    have hstep (v : String) : Listing ((keyValues.upsert (trigramStringFromCode code) fun entry =>
        extendSortedUniqueRows (entry.getD []) rows).get v)
        fun id => P v id ∨ id ∈ rows ∧ v = trigramStringFromCode code := by
      rw [HashMap.get_upsert]
      split_ifs with hv
      · exact ((h v).extend hrows hne).congr fun id => by simp [hv]
      · exact (h v).congr fun id => by simp [hv]
    refine (ih hstep).congr fun id => ?_
    simp only [List.mem_cons, exists_eq_or_imp]
    tauto

variable {cache : HashMap String (List Nat)}

theorem expandValue_spec (hcache : CachesCodes cache) (keyValues : HashMap String (List RowId))
    (value : String) (rows : GinBulkRows) :
    ∃ cache', CachesCodes cache' ∧ GinBulkBuilder.expandValue (keyValues, cache) (value, rows) =
      (GinBulkBuilder.addTrigramRows rows.intoSortedUnique keyValues (uniqueTrigramCodes value),
        cache') := by
  rw [GinBulkBuilder.expandValue]
  dsimp only
  cases hget : cache.get value with
  | some cached => exact ⟨cache, hcache, by rw [hcache value cached hget]⟩
  | none =>
    dsimp only
    split_ifs
    · exact ⟨_, hcache.insert value, rfl⟩
    · exact ⟨cache, hcache, rfl⟩

/-- Whether one of the texts has the trigram and the row. -/
def Spells (texts : List (String × GinBulkRows)) (v : String) (id : RowId) : Prop :=
  ∃ e ∈ texts, id ∈ e.2.rows ∧ ∃ code ∈ uniqueTrigramCodes e.1, v = trigramStringFromCode code

theorem expandValues_holds (h : ∀ v, Listing (keyValues.get v) (P v)) (hcache : CachesCodes cache)
    {texts : List (String × GinBulkRows)} (htexts : ∀ e ∈ texts, e.2.Sound ∧ e.2.rows ≠ []) :
    ∃ keyValues' cache', texts.foldl GinBulkBuilder.expandValue (keyValues, cache) =
        (keyValues', cache') ∧ CachesCodes cache' ∧
      ∀ v, Listing (keyValues'.get v) fun id => P v id ∨ Spells texts v id := by
  induction texts generalizing keyValues cache P with
  | nil => exact ⟨keyValues, cache, rfl, hcache, fun v => (h v).congr fun id => by simp [Spells]⟩
  | cons e texts ih =>
    obtain ⟨value, rows⟩ := e
    obtain ⟨hsound, hne⟩ := htexts (value, rows) (by simp)
    obtain ⟨hasc, hmem⟩ := GinBulkRows.intoSortedUnique_spec hsound
    have hne' : rows.intoSortedUnique ≠ [] := by
      obtain ⟨id, hid⟩ := List.exists_mem_of_ne_nil _ hne
      exact List.ne_nil_of_mem ((hmem id).mpr hid)
    obtain ⟨cache1, hcache1, hexpand⟩ := expandValue_spec hcache keyValues value rows
    obtain ⟨keyValues', cache', hrun, hcache', hholds⟩ := ih
      (addTrigramRows_holds h hasc hne' (uniqueTrigramCodes value)) hcache1
      fun e he => htexts e (by simp [he])
    refine ⟨keyValues', cache', by rw [List.foldl_cons, hexpand, hrun], hcache', fun v => ?_⟩
    refine (hholds v).congr fun id => ?_
    simp only [Spells, List.mem_cons, exists_eq_or_imp, hmem, or_assoc]

variable {index : ValueRows (List RowId)} {R : String → String → RowId → Prop}

theorem expandKeys_holds (h : ∀ k v, Listing (under index k v) (R k v)) (hcache : CachesCodes cache)
    {entries : List (String × HashMap String GinBulkRows)}
    (hentries : ∀ e ∈ entries, ∀ f ∈ e.2.iter, f.2.Sound ∧ f.2.rows ≠ []) (k v : String) :
    Listing (under (entries.foldl GinBulkBuilder.expandKey (index, cache)).1 k v) fun id =>
      R k v id ∨ ∃ e ∈ entries, k = e.1 ∧ Spells e.2.iter v id := by
  induction entries generalizing index cache R with
  | nil => exact (h k v).congr fun id => by simp
  | cons e entries ih =>
    obtain ⟨containsKey, values⟩ := e
    have hvalues (v : String) :
        Listing (((index.get containsKey).getD ∅).get v) (R containsKey v) := by
      have := h containsKey v
      rw [under] at this
      cases hget : index.get containsKey with
      | none => rwa [hget] at this
      | some m => rwa [hget] at this
    obtain ⟨keyValues', cache', hrun, hcache', hholds⟩ :=
      expandValues_holds hvalues hcache (hentries (containsKey, values) (by simp))
    have hstep (k v : String) : Listing (under (index.insert containsKey keyValues') k v) fun id =>
        R k v id ∨ k = containsKey ∧ Spells values.iter v id := by
      rw [under, HashMap.get_insert]
      split_ifs with hk
      · exact (hholds v).congr fun id => by simp [hk]
      · exact (h k v).congr fun id => by simp [hk]
    have hexpand : GinBulkBuilder.expandKey (index, cache) (containsKey, values) =
        (index.insert containsKey keyValues', cache') := by
      rw [GinBulkBuilder.expandKey]
      simp only [hrun]
    rw [List.foldl_cons, hexpand]
    refine (ih hstep hcache' fun e he => hentries e (by simp [he])).congr fun id => ?_
    simp only [List.mem_cons, exists_eq_or_imp, or_assoc]

/-- The pairs of a nested map, each with its rows. -/
theorem get_collect_pairs (index : ValueRows (List RowId)) (k v : String) :
    (HashMap.collect (index.iter.flatMap fun entry => entry.2.iter.map fun e =>
      ((entry.1, e.1), (⟨e.2⟩ : PostingList)))).get (k, v) =
        (under index k v).map PostingList.mk := by
  have hkeys : ((index.iter.flatMap fun entry => entry.2.iter.map fun e =>
      ((entry.1, e.1), (⟨e.2⟩ : PostingList))).map Prod.fst).Nodup := by
    rw [List.map_flatMap, List.nodup_flatMap]
    constructor
    · intro entry _
      rw [List.map_map]
      have hnodup : (entry.2.iter.map Prod.fst).Nodup := by
        rw [HashMap.map_fst_iter]
        exact entry.2.keys_nodup
      have hmap := hnodup.map (f := fun value => (entry.1, value))
        fun _ _ heq => (Prod.mk.inj heq).2
      rwa [List.map_map] at hmap
    · have hnodup : (index.iter.map Prod.fst).Nodup := by
        rw [HashMap.map_fst_iter]
        exact index.keys_nodup
      refine (List.pairwise_map.mp hnodup).imp fun hne => ?_
      intro pair hpair hpair'
      simp only [List.mem_map] at hpair hpair'
      obtain ⟨_, ⟨_, _, rfl⟩, rfl⟩ := hpair
      obtain ⟨_, ⟨_, _, rfl⟩, heq⟩ := hpair'
      exact hne (Prod.mk.inj heq).1.symm
  refine Option.ext fun posting => ?_
  rw [HashMap.get_collect hkeys, under, List.mem_flatMap]
  simp only [List.mem_map, Option.map_eq_some_iff, Option.bind_eq_some_iff]
  constructor
  · rintro ⟨⟨key, values⟩, hkey, ⟨value, rows⟩, hvalue, heq⟩
    obtain ⟨hkv, rfl⟩ := Prod.mk.inj heq
    obtain ⟨rfl, rfl⟩ := Prod.mk.inj hkv
    exact ⟨rows, ⟨values, HashMap.mem_iter.mp hkey, HashMap.mem_iter.mp hvalue⟩, rfl⟩
  · rintro ⟨rows, ⟨values, hkey, hvalue⟩, rfl⟩
    exact ⟨(k, values), HashMap.mem_iter.mpr hkey, (v, rows), HashMap.mem_iter.mpr hvalue, rfl⟩

/-- What the builder hands over: under every token the rows of the entries. -/
theorem Collects.finish {b : GinBulkBuilder} {entries : List GinEntry} (h : Collects b entries) :
    (∀ k, Listing ((b.finish.keyIndex.get k).map PostingList.rows) fun id =>
        ∃ e ∈ entries, e.Posts (.key k) id) ∧
      (∀ k v, Listing ((b.finish.keyValueIndex.get (k, v)).map PostingList.rows) fun id =>
        ∃ e ∈ entries, e.Posts (.pair k v) id) ∧
      b.finish.keyAddCount = entries.countP GinEntry.isKey := by
  refine ⟨fun k => ?_, fun k v => ?_, h.count⟩
  · rw [GinBulkBuilder.finish]
    dsimp only
    rw [HashMap.get_mapValues, Option.map_map]
    refine (h.keys k).holds.congr fun id => ⟨fun hmem => ⟨_, hmem, rfl, rfl⟩, ?_⟩
    rintro ⟨e, hmem, hposts⟩
    cases e with
    | key name rowId =>
      obtain ⟨rfl, rfl⟩ := hposts
      exact hmem
    | keyValue => exact hposts.elim
    | contains => exact hposts.elim
  · have hpairs (k v : String) : Listing
        (under (b.keyValueIndex.mapValues (·.mapValues GinBulkRows.intoSortedUnique)) k v)
        fun id => .keyValue k v id ∈ entries := by
      have := (h.pairs k v).holds
      rw [under] at this ⊢
      rw [HashMap.get_mapValues, Option.bind_map]
      cases hget : b.keyValueIndex.get k with
      | none => simpa [hget] using this
      | some values => simpa [hget, HashMap.get_mapValues] using this
    have htexts (e) (he : e ∈ b.containsValueIndex.iter) (f) (hf : f ∈ e.2.iter) :
        f.2.Sound ∧ f.2.rows ≠ [] := by
      refine (h.texts e.1 f.1).sound f.2 ?_
      rw [under, HashMap.mem_iter.mp he]
      exact HashMap.mem_iter.mp hf
    rw [GinBulkBuilder.finish]
    dsimp only
    rw [get_collect_pairs, Option.map_map]
    have hall := expandKeys_holds hpairs h.cache htexts k v
    rw [show (PostingList.rows ∘ PostingList.mk) = id from rfl, Option.map_id]
    refine hall.congr fun id => ⟨?_, ?_⟩
    · rintro (hmem | ⟨⟨k, values⟩, he, rfl, ⟨needle, rows⟩, hf, hid, code, hcode, hv⟩)
      · exact ⟨_, hmem, ⟨rfl, rfl⟩, rfl⟩
      · have hunder : under b.containsValueIndex k needle = some rows := by
          rw [under, HashMap.mem_iter.mp he]
          exact HashMap.mem_iter.mp hf
        obtain ⟨path, hk, hmem⟩ := ((h.texts _ needle).mem id).mp ⟨rows, hunder, hid⟩
        exact ⟨_, hmem, ⟨hk, code, hcode, hv⟩, rfl⟩
    · rintro ⟨e, hmem, hposts⟩
      cases e with
      | key => exact hposts.elim
      | keyValue name value rowId =>
        obtain ⟨⟨rfl, rfl⟩, rfl⟩ := hposts
        exact .inl hmem
      | contains path needle rowId =>
        obtain ⟨⟨hk, code, hcode, hv⟩, rfl⟩ := hposts
        obtain ⟨rows, hunder, hid⟩ := ((h.texts k needle).mem id).mpr ⟨path, hk, hmem⟩
        obtain ⟨values, hvalues, hrows⟩ := Option.bind_eq_some_iff.mp hunder
        exact .inr ⟨(k, values), HashMap.mem_iter.mpr hvalues, rfl, (needle, rows),
          HashMap.mem_iter.mpr hrows, hid, code, hcode, hv⟩

end Finish

section Queries

variable {T : Type} [DecidableEq T] {index : HashMap T PostingList} {P : T → RowId → Prop}

theorem intersectPostings_spec {postings : List PostingList}
    (hpostings : ∀ p ∈ postings, Ascending p.rows) {result : List RowId}
    (hresult : Ascending result) : Ascending (GinIndex.intersectPostings result postings) ∧
      ∀ id, id ∈ GinIndex.intersectPostings result postings ↔
        id ∈ result ∧ ∀ p ∈ postings, id ∈ p.rows := by
  induction postings generalizing result with
  | nil => exact ⟨hresult, by simp [GinIndex.intersectPostings]⟩
  | cons p postings ih =>
    obtain ⟨hasc, hmem⟩ :=
      PostingList.intersectSortedCandidates_spec (hpostings p (by simp)) hresult
    rw [GinIndex.intersectPostings]
    split_ifs with hempty
    · refine ⟨hasc, fun id => ⟨fun hid => ?_, fun ⟨hid, hall⟩ => ?_⟩⟩
      · rw [List.isEmpty_iff.mp hempty] at hid
        simp at hid
      · exact (hmem id).mpr ⟨hid, hall p (by simp)⟩
    · obtain ⟨hasc', hmem'⟩ := ih (fun q hq => hpostings q (by simp [hq])) hasc
      refine ⟨hasc', fun id => ?_⟩
      rw [hmem', hmem, List.forall_mem_cons, and_assoc]

theorem mapM_get (index : HashMap T PostingList) (tokens : List T) :
    (tokens.mapM index.get).elim (∃ t ∈ tokens, index.get t = none) fun postings =>
      (∀ t ∈ tokens, ∃ p ∈ postings, index.get t = some p) ∧
        ∀ p ∈ postings, ∃ t ∈ tokens, index.get t = some p := by
  induction tokens with
  | nil => simp
  | cons t tokens ih =>
    rw [List.mapM_cons]
    cases hget : index.get t with
    | none => exact ⟨t, by simp, hget⟩
    | some p =>
      cases hrest : tokens.mapM index.get with
      | none =>
        rw [hrest] at ih
        obtain ⟨t', hmem, hnone⟩ := ih
        exact ⟨t', by simp [hmem], hnone⟩
      | some postings =>
        rw [hrest] at ih
        obtain ⟨hposting, htoken⟩ := ih
        refine ⟨List.forall_mem_cons.mpr ⟨⟨p, by simp, hget⟩, fun t' ht' => ?_⟩,
          List.forall_mem_cons.mpr ⟨⟨t, by simp, hget⟩, fun q hq => ?_⟩⟩
        · obtain ⟨q, hq, ht'⟩ := hposting t' ht'
          exact ⟨q, List.mem_cons_of_mem _ hq, ht'⟩
        · obtain ⟨t', ht', hq⟩ := htoken q hq
          exact ⟨t', List.mem_cons_of_mem _ ht', hq⟩

/-- The rows under all of the tokens, of which there is one. -/
theorem intersectAll_spec (h : ∀ t, Listing ((index.get t).map PostingList.rows) (P t))
    {tokens : List T} (hne : tokens ≠ []) : Ascending (GinIndex.intersectAll index tokens) ∧
      ∀ id, id ∈ GinIndex.intersectAll index tokens ↔ ∀ t ∈ tokens, P t id := by
  rw [GinIndex.intersectAll, if_neg (by simpa using hne)]
  have hmapM := mapM_get index tokens
  cases hget : tokens.mapM index.get with
  | none =>
    rw [hget] at hmapM
    obtain ⟨t, hmem, hnone⟩ := hmapM
    refine ⟨.nil, fun id => ⟨nofun, fun hall => ?_⟩⟩
    have := ((h t).mem id).mpr (hall t hmem)
    simp [hnone] at this
  | some postings =>
    rw [hget] at hmapM
    obtain ⟨hposting, htoken⟩ := hmapM
    have hsound (p : PostingList) (hp : p ∈ postings) : Ascending p.rows := by
      obtain ⟨t, _, ht⟩ := htoken p hp
      exact ((h t).sound _ (by rw [ht]; rfl)).1
    have hP {t : T} {p : PostingList} (ht : index.get t = some p) (id : RowId) :
        id ∈ p.rows ↔ P t id := by
      rw [← (h t).mem, ht, Option.map_some, Option.getD_some]
    have hrows (id : RowId) : (∀ p ∈ postings, id ∈ p.rows) ↔ ∀ t ∈ tokens, P t id := by
      constructor
      · intro hall t ht
        obtain ⟨p, hp, hget⟩ := hposting t ht
        exact (hP hget id).mp (hall p hp)
      · intro hall p hp
        obtain ⟨t, ht, hget⟩ := htoken p hp
        exact (hP hget id).mpr (hall t ht)
    have hperm := List.mergeSort_perm postings fun p q => decide (p.len ≤ q.len)
    dsimp only
    cases hsorted : postings.mergeSort fun p q => decide (p.len ≤ q.len) with
    | nil =>
      rw [hsorted] at hperm
      obtain ⟨t, ht⟩ := List.exists_mem_of_ne_nil _ hne
      obtain ⟨p, hp, _⟩ := hposting t ht
      exact absurd (hperm.mem_iff.mpr hp) List.not_mem_nil
    | cons first rest =>
      rw [hsorted] at hperm
      have hin (p : PostingList) : p ∈ postings ↔ p = first ∨ p ∈ rest := by
        rw [← hperm.mem_iff, List.mem_cons]
      obtain ⟨hasc, hmem⟩ := intersectPostings_spec
        (fun p hp => hsound p ((hin p).mpr (.inr hp))) (hsound first ((hin first).mpr (.inl rfl)))
      refine ⟨hasc, fun id => ?_⟩
      rw [hmem, ← hrows]
      simp only [hin, forall_eq_or_imp]

/-- The rows under any of the tokens. -/
theorem unionAny_spec (h : ∀ t, Listing ((index.get t).map PostingList.rows) (P t))
    (tokens : List T) : Ascending (GinIndex.unionAny index tokens) ∧
      ∀ id, id ∈ GinIndex.unionAny index tokens ↔ ∃ t ∈ tokens, P t id := by
  have hfold (result : PostingList) (hresult : Ascending result.rows) :
      let union := tokens.foldl (fun result token => (index.get token).elim result result.union)
        result
      Ascending union.rows ∧ ∀ id, id ∈ union.rows ↔ id ∈ result.rows ∨ ∃ t ∈ tokens, P t id := by
    induction tokens generalizing result with
    | nil => exact ⟨hresult, by simp⟩
    | cons t tokens ih =>
      have ht := h t
      have hstep : Ascending ((index.get t).elim result result.union).rows ∧
          ∀ id, id ∈ ((index.get t).elim result result.union).rows ↔
            id ∈ result.rows ∨ P t id := by
        cases hget : index.get t with
        | none =>
          rw [hget] at ht
          exact ⟨hresult, fun id => by simp [← ht.mem]⟩
        | some p =>
          rw [hget] at ht
          refine ⟨Ascending.union_ascending hresult (ht.sound _ rfl).1, fun id => ?_⟩
          rw [← ht.mem]
          exact Ascending.mem_union
      obtain ⟨hasc, hmem⟩ := ih _ hstep.1
      refine ⟨hasc, fun id => ?_⟩
      rw [List.foldl_cons, hmem, hstep.2, or_assoc]
      simp
  obtain ⟨hasc, hmem⟩ := hfold .new .nil
  exact ⟨hasc, fun id => (hmem id).trans (by simp [PostingList.new])⟩

end Queries

section Runs

/-- The calls that change a GIN index. -/
inductive GinOp where
  | add (entry : GinEntry)
  | applyBulk (entries : List GinEntry)
  | removeKey (key : String) (rowId : RowId)
  | removeKeyValue (key value : String) (rowId : RowId)
  | clear

namespace GinIndex

def call (g : GinIndex) : GinOp → GinIndex
  | .add entry => g.add entry
  | .applyBulk entries => g.applyBulkBuilder (GinBulkBuilder.new.addAll entries)
  | .removeKey key rowId => g.removeKey key rowId
  | .removeKeyValue key value rowId => g.removeKeyValue key value rowId
  | .clear => g.clear

def run (g : GinIndex) (ops : List GinOp) : GinIndex := ops.foldl call g

end GinIndex

variable {g : GinIndex} {P : GinToken → RowId → Prop}

theorem GinIndex.Holds.applyBulk (h : g.Holds P) (entries : List GinEntry) :
    (g.applyBulkBuilder (GinBulkBuilder.new.addAll entries)).Holds fun token id =>
      P token id ∨ ∃ e ∈ entries, e.Posts token id := by
  obtain ⟨hkeys, hpairs, _⟩ := (collects_addAll entries).finish
  have hmerge {posting delta : Option PostingList} {P Q : RowId → Prop}
      (hp : Listing (posting.map PostingList.rows) P)
      (hd : Listing (delta.map PostingList.rows) Q) :
      Listing ((delta.elim posting fun new => some (mergePosting new posting)).map
        PostingList.rows) fun id => P id ∨ Q id := by
    cases delta with
    | none => exact hp.congr fun id => by simp [← hd.mem]
    | some new => exact hp.merge hd
  intro token
  cases token with
  | key k =>
    rw [posting, applyBulkBuilder, applyBulkDelta, HashMap.get_foldl_upsert]
    exact hmerge (h (.key k)) (hkeys k)
  | pair k v =>
    rw [posting, applyBulkBuilder, applyBulkDelta, HashMap.get_foldl_upsert]
    exact hmerge (h (.pair k v)) (hpairs k v)

theorem GinIndex.exists_holds (ops : List GinOp) : ∃ P, (GinIndex.new.run ops).Holds P := by
  have hempty (stats : IndexStats) : (⟨∅, ∅, stats⟩ : GinIndex).Holds fun _ _ => False := by
    intro token
    cases token <;> exact .none fun _ => id
  have hall (g : GinIndex) (h : ∃ P, g.Holds P) : ∃ P, (g.run ops).Holds P := by
    induction ops generalizing g with
    | nil => exact h
    | cons op ops ih =>
      obtain ⟨P, hP⟩ := h
      refine ih (g.call op) ?_
      cases op with
      | add entry => exact ⟨_, hP.add entry⟩
      | applyBulk entries => exact ⟨_, hP.applyBulk entries⟩
      | removeKey key rowId => exact ⟨_, hP.removeKey key rowId⟩
      | removeKeyValue key value rowId => exact ⟨_, hP.removeKeyValue key value rowId⟩
      | clear => exact ⟨_, hempty _⟩
  exact hall .new ⟨_, hempty _⟩

theorem GinIndex.addAll_stats (g : GinIndex) (entries : List GinEntry) :
    (g.addAll entries).stats = g.stats.addRows (entries.countP GinEntry.isKey) := by
  induction entries generalizing g with
  | nil => rfl
  | cons e entries ih =>
    have hcodes (key : String) (rowId : RowId) (codes : List Nat) (g : GinIndex) :
        (codes.foldl (fun g code => g.addKeyValue key (trigramStringFromCode code) rowId)
          g).stats = g.stats := by
      induction codes generalizing g with
      | nil => rfl
      | cons code codes ih => exact ih _
    rw [GinIndex.addAll, List.foldl_cons, ← GinIndex.addAll, ih, List.countP_cons]
    cases e with
    | key name rowId =>
      simp only [add, addKey, GinEntry.isKey, IndexStats.addRows, IndexStats.mk.injEq, if_true]
      omega
    | keyValue name value rowId => rfl
    | contains path needle rowId =>
      rw [add, addContainsTrigrams, hcodes]
      rfl

theorem bulk_eq_adds (ops : List GinOp) (entries : List GinEntry) :
    ∃ g bulk, GinIndex.new.run ops = g ∧
      g.applyBulkBuilder (GinBulkBuilder.new.addAll entries) = bulk ∧
      (∀ token, bulk.posting token = (g.addAll entries).posting token) ∧
      bulk.stats = (g.addAll entries).stats ∧
      (∀ path needle rowId,
        ((GinBulkBuilder.new.addAll entries).addContainsTrigrams path needle rowId).2 =
          (g.addContainsTrigrams path needle rowId).2) ∧
      (∀ token p, bulk.posting token = some p → Ascending p.rows) ∧
      (∀ pairs, Ascending (bulk.getByKeyValuesAll pairs) ∧
        ∀ id, id ∈ bulk.getByKeyValuesAll pairs ↔
          pairs ≠ [] ∧ ∀ pair ∈ pairs, id ∈ bulk.getByKeyValue pair.1 pair.2) ∧
      ∀ pairs, Ascending (bulk.getByKeyValuesAny pairs) ∧
        ∀ id, id ∈ bulk.getByKeyValuesAny pairs ↔
          ∃ pair ∈ pairs, id ∈ bulk.getByKeyValue pair.1 pair.2 := by
  obtain ⟨P, hP⟩ := GinIndex.exists_holds ops
  have hbulk := hP.applyBulk entries
  have hcollects := collects_addAll entries
  set g := GinIndex.new.run ops
  set bulk := g.applyBulkBuilder (GinBulkBuilder.new.addAll entries) with hbulkdef
  have hpairs (pair : String × String) : Listing ((bulk.keyValueIndex.get pair).map
      PostingList.rows) fun id => id ∈ bulk.getByKeyValue pair.1 pair.2 :=
    (hbulk (.pair pair.1 pair.2)).congr fun id => ((hbulk (.pair pair.1 pair.2)).mem id).symm
  have hinjective : Function.Injective (Option.map PostingList.rows) :=
    Option.map_injective fun p q h => by cases p; cases q; exact congrArg _ h
  refine ⟨g, bulk, rfl, rfl, fun token => hinjective ?_, ?_, fun path needle rowId => ?_,
    fun token p hp => ?_, fun pairs => ?_, fun pairs => unionAny_spec hpairs pairs⟩
  · exact (hbulk token).eq (hP.addAll entries token)
  · rw [hbulkdef, GinIndex.applyBulkBuilder, GinIndex.applyBulkDelta, GinIndex.addAll_stats,
      hcollects.finish.2.2]
  · have hcache : CachesCodes ((GinBulkBuilder.new.addAll entries).addContainsValue
      (containsTrigramKey path) needle rowId).trigramCache := hcollects.cache
    exact (trigramCodeCountForValue_spec hcache needle).1
  · exact ((hbulk token).sound p.rows (by rw [hp]; rfl)).1
  · by_cases hne : pairs = []
    · rw [hne]
      exact ⟨.nil, fun id => by simp [GinIndex.getByKeyValuesAll, GinIndex.intersectAll]⟩
    · obtain ⟨hasc, hmem⟩ := intersectAll_spec hpairs hne
      exact ⟨hasc, fun id => (hmem id).trans (by simp [hne])⟩

end Runs

end Cynos.Index
