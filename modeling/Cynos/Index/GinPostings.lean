import Cynos.Index.Gin

/-! What the posting lists of a GIN index hold, change by change. -/
namespace Cynos.Index

inductive GinToken where
  | key (key : String)
  | pair (key value : String)

/-- What is indexed for one row. -/
inductive GinEntry where
  | key (key : String) (rowId : RowId)
  | keyValue (key value : String) (rowId : RowId)
  | contains (path needle : String) (rowId : RowId)

/-- Whether the entry puts the row under the token. -/
def GinEntry.Posts : GinEntry → GinToken → RowId → Prop
  | .key name rowId, .key k, id => k = name ∧ id = rowId
  | .keyValue name value rowId, .pair k v, id => (k = name ∧ v = value) ∧ id = rowId
  | .contains path needle rowId, .pair k v, id =>
    (k = containsTrigramKey path ∧ ∃ code ∈ uniqueTrigramCodes needle,
      v = trigramStringFromCode code) ∧ id = rowId
  | .key .., .pair .., _ | .keyValue .., .key _, _ | .contains .., .key _, _ => False

def GinEntry.isKey : GinEntry → Bool
  | .key .. => true
  | .keyValue .. | .contains .. => false

namespace GinIndex

def add (g : GinIndex) : GinEntry → GinIndex
  | .key key rowId => g.addKey key rowId
  | .keyValue key value rowId => g.addKeyValue key value rowId
  | .contains path needle rowId => (g.addContainsTrigrams path needle rowId).1

def addAll (g : GinIndex) (entries : List GinEntry) : GinIndex := entries.foldl add g

def posting (g : GinIndex) : GinToken → Option PostingList
  | .key key => g.keyIndex.get key
  | .pair key value => g.keyValueIndex.get (key, value)

end GinIndex

namespace GinBulkBuilder

def add (b : GinBulkBuilder) : GinEntry → GinBulkBuilder
  | .key key rowId => b.addKey key rowId
  | .keyValue key value rowId => b.addKeyValue key value rowId
  | .contains path needle rowId => (b.addContainsTrigrams path needle rowId).1

def addAll (b : GinBulkBuilder) (entries : List GinEntry) : GinBulkBuilder := entries.foldl add b

end GinBulkBuilder

section Listing

/-- A sorted list of the rows that satisfy `P`, which is there when there are any. -/
structure Listing (rows : Option (List RowId)) (P : RowId → Prop) : Prop where
  sound : ∀ r, rows = some r → Ascending r ∧ r ≠ []
  mem : ∀ id, id ∈ rows.getD [] ↔ P id

variable {rows : Option (List RowId)} {P Q : RowId → Prop}

theorem Listing.none (h : ∀ id, ¬P id) : Listing none P :=
  ⟨nofun, fun id => iff_of_false List.not_mem_nil (h id)⟩

theorem Listing.some {r : List RowId} (hr : Ascending r) (hne : r ≠ []) (h : ∀ id, id ∈ r ↔ P id) :
    Listing (some r) P :=
  ⟨fun _ heq => Option.some.inj heq ▸ ⟨hr, hne⟩, h⟩

theorem Listing.congr (h : Listing rows P) (hPQ : ∀ id, P id ↔ Q id) : Listing rows Q :=
  ⟨h.sound, fun id => (h.mem id).trans (hPQ id)⟩

theorem Listing.ascending (h : Listing rows P) : Ascending (rows.getD []) := by
  cases rows with
  | none => exact .nil
  | some r => exact (h.sound r rfl).1

/-- The rows determine the list. -/
theorem Listing.eq {rows' : Option (List RowId)} (h : Listing rows P) (h' : Listing rows' P) :
    rows = rows' := by
  have hsame : rows.getD [] = rows'.getD [] :=
    Ascending.eq_of_mem_iff h.ascending h'.ascending fun id => (h.mem id).trans (h'.mem id).symm
  cases rows with
  | none =>
    cases rows' with
    | none => rfl
    | some r' => exact absurd hsame.symm (h'.sound r' rfl).2
  | some r =>
    cases rows' with
    | none => exact absurd hsame (h.sound r rfl).2
    | some r' => exact congrArg _ hsame

theorem Listing.extend (h : Listing rows P) {new : List RowId} (hnew : Ascending new)
    (hne : new ≠ []) :
    Listing (Option.some (extendSortedUniqueRows (rows.getD []) new))
      fun id => P id ∨ id ∈ new := by
  obtain ⟨hasc, hmem⟩ := extendSortedUniqueRows_spec h.ascending hnew
  refine .some hasc (fun hnil => ?_) fun id => by rw [hmem, h.mem]
  obtain ⟨id, hid⟩ := List.exists_mem_of_ne_nil _ hne
  have := (hmem id).mpr (.inr hid)
  simp [hnil] at this

variable {posting : Option PostingList}

theorem getD_rows (posting : Option PostingList) :
    (posting.map PostingList.rows).getD [] = (posting.getD .new).rows := by
  cases posting <;> rfl

theorem Listing.add (h : Listing (posting.map PostingList.rows) P) (rowId : RowId) :
    Listing (Option.some (GinIndex.addPosting rowId posting).rows) fun id => P id ∨ id = rowId := by
  have hasc := h.ascending
  have hmem := h.mem
  rw [getD_rows] at hasc
  obtain ⟨hasc', hmem'⟩ := PostingList.add_spec hasc rowId
  refine .some hasc' (fun hnil => ?_) fun id => ?_
  · have := (hmem' rowId).mpr (.inl rfl)
    rw [GinIndex.addPosting] at hnil
    simp [hnil] at this
  · rw [GinIndex.addPosting, hmem', ← hmem, getD_rows, or_comm]

theorem Listing.merge (h : Listing (posting.map PostingList.rows) P) {new : PostingList}
    (hnew : Listing (Option.some new.rows) Q) :
    Listing (Option.some (GinIndex.mergePosting new posting).rows) fun id => P id ∨ Q id := by
  obtain ⟨hasc, hne⟩ := hnew.sound _ rfl
  cases posting with
  | none =>
    refine .some hasc hne fun id => ?_
    rw [← h.mem, ← hnew.mem]
    simp [GinIndex.mergePosting]
  | some existing =>
    obtain ⟨hasc', hmem'⟩ :=
      PostingList.mergeSortedUnique_spec (h.sound existing.rows rfl).1 hasc
    refine .some hasc' (fun hnil => ?_) fun id => ?_
    · obtain ⟨id, hid⟩ := List.exists_mem_of_ne_nil _ hne
      have := (hmem' id).mpr (.inr hid)
      rw [GinIndex.mergePosting, PostingList.merge] at hnil
      simp [hnil] at this
    · rw [GinIndex.mergePosting, PostingList.merge, hmem', ← h.mem, ← hnew.mem]
      rfl

end Listing

section Changes

/-- The rows that `P` puts under each token, and nothing else. -/
def GinIndex.Holds (g : GinIndex) (P : GinToken → RowId → Prop) : Prop :=
  ∀ token, Listing ((g.posting token).map PostingList.rows) (P token)

variable {g : GinIndex} {P : GinToken → RowId → Prop}

theorem GinIndex.Holds.addKeyValue (h : g.Holds P) (key value : String) (rowId : RowId) :
    (g.addKeyValue key value rowId).Holds fun token id =>
      P token id ∨ token = .pair key value ∧ id = rowId := by
  intro token
  cases token with
  | key k => exact (h (.key k)).congr fun id => by simp
  | pair k v =>
    have hpair := h (.pair k v)
    rw [posting, GinIndex.addKeyValue, HashMap.get_upsert]
    split_ifs with hkv
    · exact (hpair.add rowId).congr fun id => by simp [Prod.mk.inj hkv]
    · refine hpair.congr fun id => ?_
      rw [Prod.mk.injEq] at hkv
      simp [hkv]

theorem GinIndex.Holds.addKeyValues (h : g.Holds P) (key : String) (values : List String)
    (rowId : RowId) :
    (values.foldl (fun g value => g.addKeyValue key value rowId) g).Holds fun token id =>
      P token id ∨ (∃ value ∈ values, token = .pair key value) ∧ id = rowId := by
  induction values generalizing g P with
  | nil => exact fun token => (h token).congr fun id => by simp
  | cons value values ih =>
    intro token
    refine (ih (h.addKeyValue key value rowId) token).congr fun id => ?_
    simp only [List.mem_cons, exists_eq_or_imp]
    tauto

theorem GinIndex.Holds.add (h : g.Holds P) (e : GinEntry) :
    (g.add e).Holds fun token id => P token id ∨ e.Posts token id := by
  cases e with
  | key name rowId =>
    intro token
    cases token with
    | pair k v => exact (h (.pair k v)).congr fun id => by simp [GinEntry.Posts]
    | key k =>
      have hkey := h (.key k)
      rw [posting, GinIndex.add, GinIndex.addKey, HashMap.get_upsert]
      split_ifs with hk
      · exact (hkey.add rowId).congr fun id => by simp [GinEntry.Posts, hk]
      · exact hkey.congr fun id => by simp [GinEntry.Posts, hk]
  | keyValue name value rowId =>
    intro token
    refine (h.addKeyValue name value rowId token).congr fun id => ?_
    cases token <;> simp [GinEntry.Posts]
  | contains path needle rowId =>
    have hcodes := h.addKeyValues (containsTrigramKey path)
      ((uniqueTrigramCodes needle).map trigramStringFromCode) rowId
    rw [List.foldl_map] at hcodes
    intro token
    refine (hcodes token).congr fun id => ?_
    cases token with
    | key k => simp [GinEntry.Posts]
    | pair k v =>
      simp only [GinEntry.Posts, List.mem_map, GinToken.pair.injEq]
      constructor
      · rintro (hP | ⟨⟨_, ⟨code, hcode, rfl⟩, hk, hv⟩, hid⟩)
        · exact .inl hP
        · exact .inr ⟨⟨hk, code, hcode, hv⟩, hid⟩
      · rintro (hP | ⟨⟨hk, code, hcode, hv⟩, hid⟩)
        · exact .inl hP
        · exact .inr ⟨⟨_, ⟨code, hcode, rfl⟩, hk, hv⟩, hid⟩

theorem GinIndex.Holds.addAll (h : g.Holds P) (entries : List GinEntry) :
    (g.addAll entries).Holds fun token id => P token id ∨ ∃ e ∈ entries, e.Posts token id := by
  induction entries generalizing g P with
  | nil => exact fun token => (h token).congr fun id => by simp
  | cons e entries ih =>
    intro token
    refine (ih (h.add e) token).congr fun id => ?_
    simp only [List.mem_cons, exists_eq_or_imp, or_assoc]

/-- Taking a row out leaves the other rows of the token and all of the other tokens. -/
theorem removePosting_holds {T : Type} [DecidableEq T] {index : HashMap T PostingList}
    {P : T → RowId → Prop} (h : ∀ t, Listing ((index.get t).map PostingList.rows) (P t))
    (token : T) (rowId : RowId) (t : T) :
    Listing (((GinIndex.removePosting index token rowId).1.get t).map PostingList.rows)
      fun id => P t id ∧ ¬(t = token ∧ id = rowId) := by
  have ht := h token
  cases hget : index.get token with
  | none =>
    rw [hget] at ht
    rw [GinIndex.removePosting, hget]
    refine (h t).congr fun id => ⟨fun hP => ⟨hP, ?_⟩, And.left⟩
    rintro ⟨rfl, rfl⟩
    have := (ht.mem id).mpr hP
    simp at this
  | some p =>
    rw [hget] at ht
    obtain ⟨hasc, hmem⟩ : Ascending (p.remove rowId).1.rows ∧
        ∀ id, id ∈ (p.remove rowId).1.rows ↔ id ∈ p.rows ∧ id ≠ rowId := by
      obtain ⟨hasc, _, hmem⟩ := PostingList.remove_spec (ht.sound _ rfl).1 rowId
      exact ⟨hasc, hmem⟩
    have hP (id : RowId) : id ∈ p.rows ↔ P token id := ht.mem id
    rw [GinIndex.removePosting, hget]
    dsimp only
    by_cases heq : t = token
    · subst heq
      split_ifs with hempty
      · rw [HashMap.get_remove, if_pos rfl]
        refine .none fun id hleft => ?_
        have := (hmem id).mpr ⟨(hP id).mpr hleft.1, fun hid => hleft.2 ⟨rfl, hid⟩⟩
        rw [List.isEmpty_iff.mp hempty] at this
        simp at this
      · rw [HashMap.get_insert, if_pos rfl]
        refine .some hasc (by simpa [PostingList.isEmpty] using hempty) fun id => ?_
        rw [hmem, hP]
        simp
    · have hother : ∀ index' : HashMap T PostingList, index'.get t = index.get t →
          Listing ((index'.get t).map PostingList.rows)
            fun id => P t id ∧ ¬(t = token ∧ id = rowId) := fun index' hsame => by
        rw [hsame]
        exact (h t).congr fun id => by simp [heq]
      split_ifs
      · exact hother _ (by rw [HashMap.get_remove, if_neg heq])
      · exact hother _ (by rw [HashMap.get_insert, if_neg heq])

theorem GinIndex.Holds.removeKey (h : g.Holds P) (key : String) (rowId : RowId) :
    (g.removeKey key rowId).Holds fun token id =>
      P token id ∧ ¬(token = .key key ∧ id = rowId) := by
  intro token
  cases token with
  | key k =>
    exact (removePosting_holds (fun k => h (.key k)) key rowId k).congr fun id => by simp
  | pair k v => exact (h (.pair k v)).congr fun id => by simp

theorem GinIndex.Holds.removeKeyValue (h : g.Holds P) (key value : String) (rowId : RowId) :
    (g.removeKeyValue key value rowId).Holds fun token id =>
      P token id ∧ ¬(token = .pair key value ∧ id = rowId) := by
  intro token
  cases token with
  | key k => exact (h (.key k)).congr fun id => by simp
  | pair k v =>
    have hpairs (kv : String × String) : Listing
        ((g.keyValueIndex.get kv).map PostingList.rows) (P (.pair kv.1 kv.2)) :=
      h (.pair kv.1 kv.2)
    exact (removePosting_holds hpairs (key, value) rowId (k, v)).congr fun id => by simp

theorem GinIndex.Holds.removeKeyValues (h : g.Holds P) (pairs : List (String × String))
    (rowId : RowId) :
    (pairs.foldl (fun g pair => g.removeKeyValue pair.1 pair.2 rowId) g).Holds fun token id =>
      P token id ∧ ¬((∃ pair ∈ pairs, token = .pair pair.1 pair.2) ∧ id = rowId) := by
  induction pairs generalizing g P with
  | nil => exact fun token => (h token).congr fun id => by simp
  | cons pair pairs ih =>
    intro token
    refine (ih (h.removeKeyValue pair.1 pair.2 rowId) token).congr fun id => ?_
    simp only [List.mem_cons, exists_eq_or_imp]
    rw [or_and_right, not_or, and_assoc]

end Changes

end Cynos.Index
