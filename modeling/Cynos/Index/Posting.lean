import Cynos.Index.Traits
import Cynos.Lib.Ascending
import Cynos.Lib.Vec

/-! Posting lists of a GIN index: the row ids under a token in ascending order. -/
namespace Cynos.Index

structure PostingList where
  rows : List RowId
  deriving DecidableEq, Repr

/-- `binary_search` on a sorted slice: the position of the element, or where it would stand. -/
def binarySearch (rows : List RowId) (rowId : RowId) : Except Nat Nat :=
  let pos := Vec.partitionPoint rows (· < rowId)
  if rows[pos]? = some rowId then .ok pos else .error pos

namespace PostingList

def new : PostingList := ⟨[]⟩

/-- Adds a row ID to the posting list. -/
def add (p : PostingList) (rowId : RowId) : PostingList :=
  match p.rows.getLast? with
  | none => ⟨p.rows ++ [rowId]⟩
  | some last =>
    if rowId > last then ⟨p.rows ++ [rowId]⟩
    else if rowId = last then p
    else match binarySearch p.rows rowId with
      | .ok _ => p
      | .error index => ⟨p.rows.insertIdx index rowId⟩

/-- Merges a sorted, unique slice of row IDs into this posting list. -/
def mergeSortedUnique (p : PostingList) (other : List RowId) : PostingList :=
  match other with
  | [] => p
  | first :: _ =>
    if p.rows.isEmpty then ⟨p.rows ++ other⟩
    else if p.rows.getLast?.getD 0 < first then ⟨p.rows ++ other⟩
    else ⟨Ascending.union p.rows other⟩

def merge (p other : PostingList) : PostingList := p.mergeSortedUnique other.rows

/-- Removes a row ID and tells whether it was there. -/
def remove (p : PostingList) (rowId : RowId) : PostingList × Bool :=
  match binarySearch p.rows rowId with
  | .ok index => (⟨p.rows.eraseIdx index⟩, true)
  | .error _ => (p, false)

def len (p : PostingList) : Nat := p.rows.length
def isEmpty (p : PostingList) : Bool := p.rows.isEmpty

/-- Intersects this posting list with a sorted list of candidate row IDs. -/
def intersectSortedCandidates (p : PostingList) (candidates : List RowId) : List RowId :=
  if candidates.isEmpty || p.isEmpty then [] else Ascending.inter candidates p.rows

def union (p other : PostingList) : PostingList := ⟨Ascending.union p.rows other.rows⟩

/-- A posting list as an index keeps it. -/
structure Sound (p : PostingList) : Prop where
  ascending : Ascending p.rows
  ne_nil : p.rows ≠ []

end PostingList

section Search

variable {rows : List RowId} {rowId : RowId}

theorem binarySearch_eq (h : Ascending rows) (rowId : RowId) : ∃ before after,
    (∀ x ∈ before, x < rowId) ∧ (∀ x ∈ after, rowId < x) ∧
      ((rows = before ++ rowId :: after ∧ binarySearch rows rowId = .ok before.length) ∨
        (rows = before ++ after ∧ binarySearch rows rowId = .error before.length)) := by
  obtain ⟨before, after, rfl, hbefore, hafter⟩ :=
    Vec.split_sorted h (· < rowId) fun _ _ hlt hy => hlt.trans hy
  have hpos : Vec.partitionPoint (before ++ after) (· < rowId) = before.length :=
    Vec.partitionPoint_append (fun x hx => by simpa using hbefore x hx)
      fun x hx => by simpa using hafter x hx
  have hsorted := (List.pairwise_append.mp h).2.1
  cases after with
  | nil =>
    refine ⟨before, [], hbefore, by simp, .inr ⟨rfl, ?_⟩⟩
    rw [binarySearch, hpos]
    simp
  | cons x after =>
    rcases (not_lt.mp (hafter x (by simp))).eq_or_lt with rfl | hlt
    · refine ⟨before, after, hbefore, fun y hy => List.rel_of_pairwise_cons hsorted hy,
        .inl ⟨rfl, ?_⟩⟩
      rw [binarySearch, hpos]
      simp
    · refine ⟨before, x :: after, hbefore, fun y hy => ?_, .inr ⟨rfl, ?_⟩⟩
      · exact (List.mem_cons.mp hy).elim (· ▸ hlt)
          fun hy => hlt.trans (List.rel_of_pairwise_cons hsorted hy)
      · rw [binarySearch, hpos]
        simp [hlt.ne']

end Search

namespace PostingList

variable {p : PostingList}

theorem add_spec (h : Ascending p.rows) (rowId : RowId) :
    Ascending (p.add rowId).rows ∧ ∀ id, id ∈ (p.add rowId).rows ↔ id = rowId ∨ id ∈ p.rows := by
  unfold add
  split
  · next hlast =>
    rw [List.getLast?_eq_none_iff] at hlast
    simp [hlast]
  · next last hlast =>
    have hle := Ascending.le_getLast h hlast
    split_ifs with hgt heq
    · exact ⟨Ascending.append_singleton h fun x hx => (hle x hx).trans_lt hgt,
        by simp [or_comm]⟩
    · subst heq
      refine ⟨h, fun id => ⟨.inr, fun hid => hid.elim (fun hid => ?_) fun hid => hid⟩⟩
      exact hid ▸ List.mem_of_getLast? hlast
    · obtain ⟨before, after, hbefore, hafter, ⟨hrows, hsearch⟩ | ⟨hrows, hsearch⟩⟩ :=
        binarySearch_eq h rowId
      · rw [hsearch]
        exact ⟨h, by simp [hrows]⟩
      · rw [hsearch]
        simp only [hrows, Vec.insertIdx_append]
        obtain ⟨hlo, hhi, hlohi⟩ := List.pairwise_append.mp (hrows ▸ h)
        refine ⟨List.pairwise_append.mpr ⟨hlo, hhi.cons hafter, fun x hx y hy => ?_⟩, fun id => ?_⟩
        · exact (List.mem_cons.mp hy).elim (fun hy => hy ▸ hbefore x hx) (hlohi x hx y)
        · simp only [List.mem_append, List.mem_cons]
          tauto

theorem mergeSortedUnique_spec (h : Ascending p.rows) {other : List RowId}
    (ho : Ascending other) : Ascending (p.mergeSortedUnique other).rows ∧
      ∀ id, id ∈ (p.mergeSortedUnique other).rows ↔ id ∈ p.rows ∨ id ∈ other := by
  cases other with
  | nil => exact ⟨h, by simp [mergeSortedUnique]⟩
  | cons first rest =>
    rw [mergeSortedUnique]
    split_ifs with hempty hlast
    · rw [List.isEmpty_iff.mp hempty]
      exact ⟨ho, by simp⟩
    · cases hp : p.rows.getLast? with
      | none => exact absurd (List.getLast?_eq_none_iff.mp hp) (by simpa using hempty)
      | some last =>
        rw [hp, Option.getD_some] at hlast
        refine ⟨List.pairwise_append.mpr ⟨h, ho, fun x hx y hy => ?_⟩, by simp⟩
        refine ((Ascending.le_getLast h hp x hx).trans_lt hlast).trans_le ?_
        exact (List.mem_cons.mp hy).elim (·.ge) fun hy => (List.rel_of_pairwise_cons ho hy).le
    · exact ⟨Ascending.union_ascending h ho, fun id => Ascending.mem_union⟩

theorem remove_spec (h : Ascending p.rows) (rowId : RowId) : Ascending (p.remove rowId).1.rows ∧
    (p.remove rowId).2 = decide (rowId ∈ p.rows) ∧
      ∀ id, id ∈ (p.remove rowId).1.rows ↔ id ∈ p.rows ∧ id ≠ rowId := by
  obtain ⟨before, after, hbefore, hafter, ⟨hrows, hsearch⟩ | ⟨hrows, hsearch⟩⟩ :=
    binarySearch_eq h rowId
  · rw [remove, hsearch]
    simp only [hrows, Vec.eraseIdx_append]
    refine ⟨(hrows ▸ h).sublist (by simp), by simp, fun id => ?_⟩
    have hlo (hid : id ∈ before) := (hbefore id hid).ne
    have hhi (hid : id ∈ after) := (hafter id hid).ne'
    simp only [List.mem_append, List.mem_cons]
    tauto
  · rw [remove, hsearch]
    simp only [hrows]
    have hout : ∀ id ∈ before ++ after, id ≠ rowId := fun id hid =>
      (List.mem_append.mp hid).elim (fun hid => (hbefore id hid).ne) fun hid => (hafter id hid).ne'
    refine ⟨hrows ▸ h, ?_, fun id => ⟨fun hid => ⟨hid, hout id hid⟩, And.left⟩⟩
    exact (decide_eq_false fun hid => hout rowId hid rfl).symm

theorem intersectSortedCandidates_spec (h : Ascending p.rows) {candidates : List RowId}
    (hc : Ascending candidates) : Ascending (p.intersectSortedCandidates candidates) ∧
      ∀ id, id ∈ p.intersectSortedCandidates candidates ↔ id ∈ candidates ∧ id ∈ p.rows := by
  rw [intersectSortedCandidates]
  split_ifs with hempty
  · refine ⟨.nil, fun id => ⟨nofun, fun ⟨hcand, hid⟩ => ?_⟩⟩
    rcases Bool.or_eq_true .. ▸ hempty with hempty | hempty
    · exact absurd hcand (by simp [List.isEmpty_iff.mp hempty])
    · exact absurd hid (by simp [List.isEmpty_iff.mp hempty])
  · exact ⟨hc.sublist Ascending.inter_sublist, fun id => Ascending.mem_inter hc h⟩

end PostingList

end Cynos.Index
