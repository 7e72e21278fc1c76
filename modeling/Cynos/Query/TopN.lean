import Cynos.Lib.TopK
import Cynos.Query.LogicalRows

/-! The first rows of a relation in sorted order: where its heap is used, and where that gives
what a sort and a limit give. -/
namespace Cynos.Query

open Core
open Index (RowId)
open PhysicalPlanRunner
open TopK (Kept atMost page keepLeast)

section Heap

/-- What the standard library documents of its heap, for rows that the comparison orders: its
contents, and that it shows and pops a greatest row. Which one, and in what order the heap is
emptied, it leaves open. -/
def DocumentedHeap (intoVec : (Entry → Entry → Ordering) → Nat → List Entry → List Entry) : Prop :=
  ∀ orderBy k entries, 0 < k → OrdersRows (compareEntries orderBy) entries →
    Kept (compareEntries orderBy) k entries [] (intoVec (compareEntries orderBy) k entries)

def PhysicalPlanRunner.withHeap (runner : PhysicalPlanRunner)
    (intoVec : (Entry → Entry → Ordering) → Nat → List Entry → List Entry) : PhysicalPlanRunner :=
  { runner with binaryHeapIntoVec := intoVec }

variable {orderBy : List (Nat × SortOrder)} {rows : List Entry}

theorem orders_of_ordersRows (h : OrdersRows (compareEntries orderBy) rows) :
    BinaryHeap.Orders (compareEntries orderBy) { row | row ∈ rows } :=
  ⟨compareEntries_swap orderBy, h⟩

theorem binaryHeap_documented : DocumentedHeap keepLeast := by
  intro orderBy k entries hk h
  exact TopK.keepLeast_kept (orders_of_ordersRows h) hk fun _ hrow => hrow

/-- On one input, a heap may leave any rows that it may be left with. -/
theorem exists_documented {k : Nat} {kept : List Entry}
    (h : 0 < k → OrdersRows (compareEntries orderBy) rows →
      Kept (compareEntries orderBy) k rows [] kept) :
    ∃ intoVec, DocumentedHeap intoVec ∧ intoVec (compareEntries orderBy) k rows = kept := by
  classical
  refine ⟨fun cmp k' rows' =>
    if cmp = compareEntries orderBy ∧ k' = k ∧ rows' = rows then kept
    else keepLeast cmp k' rows', ?_, if_pos ⟨rfl, rfl, rfl⟩⟩
  intro orderBy' k' rows' hk' hrows'
  dsimp only
  split
  · rename_i hsame
    obtain ⟨hcmp, rfl, rfl⟩ := hsame
    rw [hcmp] at hrows' ⊢
    exact h hk' hrows'
  · exact binaryHeap_documented orderBy' k' rows' hk' hrows'

end Heap

section Page

variable (runner : PhysicalPlanRunner) (input : Relation) (orderBy : List (Expr × SortOrder))
  (limit offset : Nat)

/-- The comparison puts the rows in one order, and a row of the page equals each row that
compares alike and is one of the first `limit + offset` that are not greater. -/
def TiesSettled : Prop :=
  let cmp := compareEntries (orderByIndices input.context orderBy)
  OrdersRows cmp input.entries ∧
    ∀ row ∈ page limit offset (executeSort input orderBy).entries,
      ∀ other ∈ (input.entries.filter (atMost cmp row)).take (limit + offset),
        cmp other row = .eq → other = row

variable {input orderBy limit offset}

theorem executeTopN_small (h : limit + offset = 0 ∨ input.entries.length ≤ 2 * (limit + offset))
    (hlength : input.entries.length ≤ maxUsize) :
    runner.executeTopN input orderBy limit offset =
      executeLimit (executeSort input orderBy) limit offset := by
  refine if_pos ?_
  unfold saturatingAdd
  omega

/-- A large input is cut to a page of the rows that the heap leaves. -/
theorem executeTopN_large (h : 2 * (limit + offset) < input.entries.length)
    (hlength : input.entries.length ≤ maxUsize) (hk : 0 < limit + offset) :
    let cmp := compareEntries (orderByIndices input.context orderBy)
    runner.executeTopN input orderBy limit offset = .ok { input with
      entries := page limit offset
        (TopK.sort cmp (runner.binaryHeapIntoVec cmp (limit + offset) input.entries)) } := by
  have hsum : saturatingAdd limit offset = limit + offset := by
    unfold saturatingAdd
    omega
  unfold executeTopN
  simp only [hsum]
  refine if_neg ?_
  rw [not_or]
  omega

theorem executeLimit_sort (h : limit + offset ≤ maxUsize) :
    executeLimit (executeSort input orderBy) limit offset =
      .ok { input with entries := page limit offset (executeSort input orderBy).entries } :=
  if_pos (by omega)

/-- Where a large input has its rows in order and the ties of the page settled, the answer is the
sorted page whatever the heap does, and only there. -/
theorem executeTopN_large_iff (h : 2 * (limit + offset) < input.entries.length)
    (hlength : input.entries.length ≤ maxUsize) (hlimit : limit ≠ 0) :
    (∀ intoVec, DocumentedHeap intoVec →
        (runner.withHeap intoVec).executeTopN input orderBy limit offset =
          executeLimit (executeSort input orderBy) limit offset) ↔
      TiesSettled input orderBy limit offset := by
  have hk : 0 < limit + offset := by omega
  have hagree : ∀ intoVec, (runner.withHeap intoVec).executeTopN input orderBy limit offset =
        executeLimit (executeSort input orderBy) limit offset ↔
      page limit offset (TopK.sort (compareEntries (orderByIndices input.context orderBy))
        (intoVec (compareEntries (orderByIndices input.context orderBy)) (limit + offset)
          input.entries)) = page limit offset (executeSort input orderBy).entries := by
    intro intoVec
    rw [executeTopN_large _ h hlength hk, executeLimit_sort (by omega)]
    constructor
    · exact fun heq => congrArg Relation.entries (Except.ok.inj heq)
    · intro heq
      exact congrArg (fun entries => Except.ok (⟨entries, input.tables, _⟩ : Relation)) heq
  simp only [hagree]
  have hpage := fun (hrows : OrdersRows (compareEntries (orderByIndices input.context orderBy))
      input.entries) => TopK.page_kept_iff (orders_of_ordersRows hrows)
    (fun row (hrow : row ∈ input.entries) => hrow) hk (show limit + offset ≤ _ by omega)
  constructor
  · intro hall
    have hrows : OrdersRows (compareEntries (orderByIndices input.context orderBy))
        input.entries := by
      by_contra hnot
      obtain ⟨intoVec, hdocumented, hempty⟩ :=
        @exists_documented _ _ (limit + offset) [] fun _ hrows => absurd hrows hnot
      have hlengths := congrArg List.length (hall intoVec hdocumented)
      rw [hempty, executeSort, TopK.sort, List.mergeSort_nil] at hlengths
      simp only [page, List.drop_nil, List.take_nil, List.length_nil, List.length_take,
        List.length_drop, sortEntries, List.length_mergeSort] at hlengths
      omega
    refine ⟨hrows, (hpage hrows).mp fun kept hkept => ?_⟩
    obtain ⟨intoVec, hdocumented, hkeeps⟩ := exists_documented fun _ _ => hkept
    have hsame := hall intoVec hdocumented
    rwa [hkeeps] at hsame
  · rintro ⟨hrows, hties⟩ intoVec hdocumented
    exact (hpage hrows).mpr hties _ (hdocumented _ _ _ hk hrows)

/-- The first rows in sorted order are the page that a sort and a limit cut, whatever the heap
does, for small inputs and empty pages, and elsewhere where no tie is left to the heap. -/
theorem executeTopN_eq_limit_sort_iff (input : Relation) (orderBy : List (Expr × SortOrder))
    (limit offset : Nat) (hlength : input.entries.length ≤ maxUsize) :
    (∀ intoVec, DocumentedHeap intoVec →
        (runner.withHeap intoVec).executeTopN input orderBy limit offset =
          executeLimit (executeSort input orderBy) limit offset) ↔
      input.entries.length ≤ 2 * (limit + offset) ∨ limit = 0 ∨
        TiesSettled input orderBy limit offset := by
  by_cases hsmall : input.entries.length ≤ 2 * (limit + offset)
  · exact iff_of_true (fun _ _ => executeTopN_small _ (.inr hsmall) hlength) (.inl hsmall)
  · by_cases hlimit : limit = 0
    · refine iff_of_true (fun intoVec _ => ?_) (.inr (.inl hlimit))
      subst hlimit
      by_cases hoffset : offset = 0
      · exact executeTopN_small _ (.inl (by omega)) hlength
      · rw [executeTopN_large _ (Nat.lt_of_not_le hsmall) hlength (by omega),
          executeLimit_sort (by omega)]
        rfl
    · rw [executeTopN_large_iff runner (Nat.lt_of_not_le hsmall) hlength hlimit]
      simp [hsmall, hlimit]

end Page

section Samples

/-- One row for each key, numbered from one. -/
def keyedRows (keys : List Int32) : Relation :=
  .ofTable "items" 1 ((keys.zipIdx 1).map fun (key, id) =>
    .newWithVersion id 1 [some (.int32 key)])

def byKey : List (Expr × SortOrder) := [(.column ⟨"items", "key", 0⟩, .asc)]

def DataSource.empty : DataSource where
  getTableRows _ := .ok []
  getColumnCount _ := .ok 0
  getIndexRange _ _ _ _ := .ok []
  getGinIndexRows _ _ _ _ := .ok []
  getGinIndexRowsByKey _ _ _ := .ok []
  getGinIndexRowsMulti _ _ _ _ := .ok []

theorem executeTopN_eq_limit_sort_keys : (keyedRows [2, 2, 1]).entries.length ≤ 2 * (1 + 1) ∧
    ∀ intoVec, DocumentedHeap intoVec →
      ((PhysicalPlanRunner.ofSource .empty).withHeap intoVec).executeTopN (keyedRows [2, 2, 1])
        byKey 1 1 = executeLimit (executeSort (keyedRows [2, 2, 1]) byKey) 1 1 := by
  have hlength : (keyedRows [2, 2, 1]).entries.length ≤ maxUsize := by decide
  exact ⟨by decide, (executeTopN_eq_limit_sort_iff _ (keyedRows [2, 2, 1]) byKey 1 1 hlength).mpr
    (.inl (by decide))⟩

def tiedRows : Relation := keyedRows [2, 2, 1, 3, 3]

def tiedKey (id : RowId) : Nat := [2, 2, 1, 3, 3].getD (id - 1) 0

/-- Rows whose numbers tell their order are sorted as the numbers are. -/
theorem sort_map_id {cmp : Entry → Entry → Ordering} {rows : List Entry} {key : RowId → Nat}
    (h : ∀ a ∈ rows, ∀ b ∈ rows, (cmp a b != .gt) = decide (key a.id ≤ key b.id)) :
    (TopK.sort cmp rows).map Row.id =
      (rows.map Row.id).mergeSort fun i j => decide (key i ≤ key j) := List.map_mergeSort h

/-- Of two rows with the key 2, the first page has the later one: taking the first one out for
the row with the key 1, the heap keeps the second. -/
theorem tiedRow_outOfOrder : ¬ ∀ (runner : PhysicalPlanRunner) (input : Relation)
    (orderBy : List (Expr × SortOrder)) (limit offset : Nat),
    input.entries.length ≤ maxUsize →
      (runner.withHeap keepLeast).executeTopN input orderBy limit offset =
        executeLimit (executeSort input orderBy) limit offset := by
  intro h
  have hsame := h (.ofSource .empty) tiedRows byKey 2 0 (by decide)
  rw [executeTopN_large _ (by decide) (by decide) (by decide),
    executeLimit_sort (by decide)] at hsame
  have hpages := congrArg (List.map Row.id) (congrArg Relation.entries (Except.ok.inj hsame))
  have hheap : (TopK.sort (compareEntries (orderByIndices tiedRows.context byKey))
      (keepLeast (compareEntries (orderByIndices tiedRows.context byKey)) 2
        tiedRows.entries)).map Row.id = [3, 2] := by
    rw [@sort_map_id _ _ tiedKey (by decide +kernel),
      show List.map Row.id _ = [2, 3] by decide +kernel]
    simp [List.mergeSort, List.MergeSort.Internal.splitInTwo, tiedKey]
  have hrows : (TopK.sort (compareEntries (orderByIndices tiedRows.context byKey))
      tiedRows.entries).map Row.id = [3, 1, 2, 4, 5] := by
    rw [@sort_map_id _ _ tiedKey (by decide +kernel),
      show List.map Row.id _ = [1, 2, 3, 4, 5] by decide +kernel]
    simp [List.mergeSort, List.MergeSort.Internal.splitInTwo, tiedKey]
  simp only [page, List.drop_zero, List.map_take] at hpages
  have hids := (congrArg (List.take 2) hheap).symm.trans
    (hpages.trans (congrArg (List.take 2) hrows))
  cases hids

end Samples

end Cynos.Query
