import Cynos.Index.Posting

/-! Row ids as the bulk builder of a GIN index collects them. -/
namespace Cynos.Index

section Extend

/-- The greater of the last unread rows, and what is unread after it. -/
def takeLast (rows incoming : List RowId) (left right : Nat) : RowId × Nat × Nat :=
  let row := rows.getD (left - 1) 0
  let new := incoming.getD (right - 1) 0
  if right = 0 ∨ (left > 0 ∧ row > new) then (row, left - 1, right)
  else if left = 0 ∨ new > row then (new, left, right - 1)
  else (row, left - 1, right - 1)

/-- The loop of `extend_sorted_unique_rows`: the two runs are merged from their ends into the
room behind the first. Answers with the place of the first element written. -/
def mergeBack (incoming : List RowId) :
    Nat → List RowId → Nat → Nat → Nat → Option RowId → List RowId × Nat
  | 0, rows, _, _, write, _ => (rows, write)
  | fuel + 1, rows, left, right, write, lastWritten =>
    if left > 0 ∨ right > 0 then
      let (next, left, right) := takeLast rows incoming left right
      if lastWritten ≠ some next then
        mergeBack incoming fuel (rows.set (write - 1) next) left right (write - 1) (some next)
      else mergeBack incoming fuel rows left right write lastWritten
    else (rows, write)

def extendSortedUniqueRows (rows incoming : List RowId) : List RowId :=
  match incoming with
  | [] => rows
  | incomingFirst :: _ =>
    if rows.isEmpty then rows ++ incoming
    else if rows.getLast?.any (· < incomingFirst) then rows ++ incoming
    else
      let originalLen := rows.length
      let totalLen := originalLen + incoming.length
      let (rows, write) := mergeBack incoming totalLen (rows ++ List.replicate incoming.length 0)
        originalLen incoming.length totalLen none
      let uniqueLen := totalLen - write
      -- `copy_within` moves the written part to the front
      let rows := if write > 0 ∧ uniqueLen > 0 then rows.drop write ++ rows.drop uniqueLen else rows
      rows.take uniqueLen

/-- How far a backward merge of `xs` and `ys` has come in the buffer `rows`: `left` and `right`
are not yet read, and what is written from `write` on is the union of the rest. -/
structure MergedFrom (xs ys rows : List RowId) (left right write : Nat)
    (lastWritten : Option RowId) : Prop where
  length : rows.length = xs.length + ys.length
  left_le : left ≤ xs.length
  right_le : right ≤ ys.length
  room : left + right ≤ write
  write_le : write ≤ rows.length
  unread : rows.take left = xs.take left
  written : Ascending (rows.drop write)
  mem : ∀ id, id ∈ rows.drop write ↔ id ∈ xs.drop left ∨ id ∈ ys.drop right
  above : ∀ id ∈ rows.drop write, (∀ x ∈ xs.take left, x < id) ∧ ∀ y ∈ ys.take right, y < id
  last : lastWritten = (rows.drop write).head?

variable {xs ys rows : List RowId} {left right write : Nat} {lastWritten : Option RowId}

/-- Writing the greatest element that is still unread takes the merge one place on. -/
theorem MergedFrom.writeNext (h : MergedFrom xs ys rows left right write lastWritten)
    {left' right' : Nat} {next : RowId} (hleft : left' ≤ left) (hright : right' ≤ right)
    (hless : left' + right' < left + right)
    (hmem : ∀ id, id ∈ xs.drop left' ∨ id ∈ ys.drop right' ↔
      id = next ∨ id ∈ xs.drop left ∨ id ∈ ys.drop right)
    (hnext : next ∈ xs.take left ∨ next ∈ ys.take right)
    (habove : (∀ x ∈ xs.take left', x < next) ∧ ∀ y ∈ ys.take right', y < next) :
    lastWritten ≠ some next ∧
      MergedFrom xs ys (rows.set (write - 1) next) left' right' (write - 1) (some next) := by
  have hroom := h.room
  have hwrite := h.write_le
  have hbelow : ∀ id ∈ rows.drop write, next < id := fun id hid =>
    hnext.elim (fun hx => (h.above id hid).1 next hx) fun hy => (h.above id hid).2 next hy
  have hdrop : (rows.set (write - 1) next).drop (write - 1) = next :: rows.drop write := by
    have hlt : write - 1 < rows.length := by omega
    rw [List.drop_set, if_neg (by omega), Nat.sub_self, List.drop_eq_getElem_cons hlt,
      List.set_cons_zero, Nat.sub_add_cancel (by omega)]
  have hhead : lastWritten ≠ some next := by
    rw [h.last]
    intro hhead
    exact (hbelow next (List.mem_of_mem_head? hhead)).false
  refine ⟨hhead, ?_⟩
  constructor
  · rw [List.length_set, h.length]
  · exact hleft.trans h.left_le
  · exact hright.trans h.right_le
  · omega
  · rw [List.length_set]
    omega
  · rw [List.take_set_of_le (by omega), ← min_eq_left hleft, ← List.take_take, h.unread,
      List.take_take]
  · rw [hdrop]
    exact h.written.cons hbelow
  · intro id
    rw [hdrop, List.mem_cons, h.mem, hmem]
  · intro id hid
    rw [hdrop, List.mem_cons] at hid
    rcases hid with rfl | hid
    · exact habove
    · exact ⟨fun x hx => (habove.1 x hx).trans (hbelow id hid),
        fun y hy => (habove.2 y hy).trans (hbelow id hid)⟩
  · rw [hdrop, List.head?_cons]

/-- The last element of the unread part of an ascending list. -/
theorem take_succ_getD {xs : List RowId} (hx : Ascending xs) {left : Nat} (hlt : left < xs.length) :
    xs.take (left + 1) = xs.take left ++ [xs.getD left 0] ∧
      xs.drop left = xs.getD left 0 :: xs.drop (left + 1) ∧
      ∀ x ∈ xs.take left, x < xs.getD left 0 := by
  have hget : xs.getD left 0 = xs[left] := by simp [List.getD_eq_getElem?_getD, hlt]
  rw [hget]
  have htake := List.take_append_getElem hlt
  refine ⟨htake.symm, List.drop_eq_getElem_cons hlt, fun x hmem => ?_⟩
  have hsorted : Ascending (xs.take left ++ [xs[left]]) :=
    htake ▸ hx.sublist (List.take_sublist ..)
  exact (List.pairwise_append.mp hsorted).2.2 x hmem _ (by simp)

theorem le_of_mem_take {xs : List RowId} (hx : Ascending xs) {left : Nat}
    (hlt : left < xs.length) : ∀ x ∈ xs.take (left + 1), x ≤ xs.getD left 0 := by
  obtain ⟨htake, _, hbelow⟩ := take_succ_getD hx hlt
  intro x hmem
  rw [htake, List.mem_append, List.mem_singleton] at hmem
  exact hmem.elim (fun hmem => (hbelow x hmem).le) le_of_eq

theorem MergedFrom.getD_eq (h : MergedFrom xs ys rows left right write lastWritten) {i : Nat}
    (hlt : i < left) : rows.getD i 0 = xs.getD i 0 := by
  have hget := congrArg (·[i]?) h.unread
  simp only [List.getElem?_take, if_pos hlt] at hget
  rw [List.getD_eq_getElem?_getD, List.getD_eq_getElem?_getD, hget]

theorem MergedFrom.takeLeft {l : Nat}
    (h : MergedFrom xs ys rows (l + 1) right write lastWritten) (hx : Ascending xs)
    (hbelow : ∀ y ∈ ys.take right, y < xs.getD l 0) :
    lastWritten ≠ some (xs.getD l 0) ∧ MergedFrom xs ys (rows.set (write - 1) (xs.getD l 0))
      l right (write - 1) (some (xs.getD l 0)) := by
  obtain ⟨htake, hdrop, hbelowx⟩ := take_succ_getD hx h.left_le
  refine h.writeNext (Nat.le_succ l) le_rfl (by omega) (fun id => ?_) (.inl ?_) ⟨hbelowx, hbelow⟩
  · rw [hdrop, List.mem_cons, or_assoc]
  · simp [htake]

theorem MergedFrom.takeRight {r : Nat}
    (h : MergedFrom xs ys rows left (r + 1) write lastWritten) (hy : Ascending ys)
    (hbelow : ∀ x ∈ xs.take left, x < ys.getD r 0) :
    lastWritten ≠ some (ys.getD r 0) ∧ MergedFrom xs ys (rows.set (write - 1) (ys.getD r 0))
      left r (write - 1) (some (ys.getD r 0)) := by
  obtain ⟨htake, hdrop, hbelowy⟩ := take_succ_getD hy h.right_le
  refine h.writeNext le_rfl (Nat.le_succ r) (by omega) (fun id => ?_) (.inr ?_) ⟨hbelow, hbelowy⟩
  · rw [hdrop, List.mem_cons]
    tauto
  · simp [htake]

theorem MergedFrom.takeBoth {l r : Nat}
    (h : MergedFrom xs ys rows (l + 1) (r + 1) write lastWritten) (hx : Ascending xs)
    (hy : Ascending ys) (hsame : ys.getD r 0 = xs.getD l 0) :
    lastWritten ≠ some (xs.getD l 0) ∧ MergedFrom xs ys (rows.set (write - 1) (xs.getD l 0))
      l r (write - 1) (some (xs.getD l 0)) := by
  obtain ⟨htakex, hdropx, hbelowx⟩ := take_succ_getD hx h.left_le
  obtain ⟨_, hdropy, hbelowy⟩ := take_succ_getD hy h.right_le
  refine h.writeNext (Nat.le_succ l) (Nat.le_succ r) (by omega) (fun id => ?_) (.inl ?_)
    ⟨hbelowx, hsame ▸ hbelowy⟩
  · rw [hdropx, hdropy, List.mem_cons, List.mem_cons, hsame]
    tauto
  · simp [htakex]

/-- One round of the loop takes the greatest unread element, from both lists if both end in it. -/
theorem MergedFrom.step (h : MergedFrom xs ys rows left right write lastWritten)
    (hx : Ascending xs) (hy : Ascending ys) (hgo : left > 0 ∨ right > 0) :
    ∃ next left' right', takeLast rows ys left right = (next, left', right') ∧
      left' + right' < left + right ∧ lastWritten ≠ some next ∧
      MergedFrom xs ys (rows.set (write - 1) next) left' right' (write - 1) (some next) := by
  cases left with
  | zero =>
    cases right with
    | zero => omega
    | succ r => exact ⟨_, 0, r, by simp [takeLast], by omega, h.takeRight hy (by simp)⟩
  | succ l =>
    have hrow : rows.getD l 0 = xs.getD l 0 := h.getD_eq (Nat.lt_succ_self l)
    cases right with
    | zero =>
      exact ⟨_, l, 0, by rw [takeLast, if_pos (.inl rfl)]; exact congrArg (·, l, 0) hrow, by omega,
        h.takeLeft hx (by simp)⟩
    | succ r =>
      have hlex := le_of_mem_take hx h.left_le
      have hley := le_of_mem_take hy h.right_le
      rcases lt_trichotomy (xs.getD l 0) (ys.getD r 0) with hlt | heq | hgt
      · refine ⟨ys.getD r 0, l + 1, r, ?_, by omega,
          h.takeRight hy fun x hx => (hlex x hx).trans_lt hlt⟩
        simp [takeLast, hrow, hlt, hlt.le, -List.getD_eq_getElem?_getD]
      · refine ⟨xs.getD l 0, l, r, ?_, by omega, h.takeBoth hx hy heq.symm⟩
        simp [takeLast, hrow, heq, -List.getD_eq_getElem?_getD]
      · refine ⟨xs.getD l 0, l, r + 1, ?_, by omega,
          h.takeLeft hx fun y hy => (hley y hy).trans_lt hgt⟩
        simp [takeLast, hrow, hgt, -List.getD_eq_getElem?_getD]

/-- The loop ends with the union of both lists written to the end of the buffer. -/
theorem mergeBack_spec (hx : Ascending xs) (hy : Ascending ys) (fuel : Nat)
    (hfuel : left + right ≤ fuel) (h : MergedFrom xs ys rows left right write lastWritten) :
    ∃ rows' write' last, mergeBack ys fuel rows left right write lastWritten = (rows', write') ∧
      MergedFrom xs ys rows' 0 0 write' last := by
  induction fuel generalizing rows left right write lastWritten with
  | zero =>
    obtain ⟨rfl, rfl⟩ : left = 0 ∧ right = 0 := by omega
    exact ⟨rows, write, lastWritten, rfl, h⟩
  | succ fuel ih =>
    rw [mergeBack]
    split_ifs with hgo
    · obtain ⟨next, left', right', hchosen, hless, hlast, hnext⟩ := h.step hx hy hgo
      simp only [hchosen]
      rw [if_pos hlast]
      exact ih (by omega) hnext
    · obtain ⟨rfl, rfl⟩ : left = 0 ∧ right = 0 := by omega
      exact ⟨rows, write, lastWritten, rfl, h⟩

theorem extendSortedUniqueRows_spec (hx : Ascending xs) (hy : Ascending ys) :
    Ascending (extendSortedUniqueRows xs ys) ∧
      ∀ id, id ∈ extendSortedUniqueRows xs ys ↔ id ∈ xs ∨ id ∈ ys := by
  cases ys with
  | nil => exact ⟨hx, by simp [extendSortedUniqueRows]⟩
  | cons first rest =>
    rw [extendSortedUniqueRows]
    split_ifs with hempty hlast
    · rw [List.isEmpty_iff.mp hempty]
      exact ⟨hy, by simp⟩
    · obtain ⟨last, hxlast, hlt⟩ := (Option.any_eq_true ..).mp hlast
      refine ⟨List.pairwise_append.mpr ⟨hx, hy, fun x hxmem y hymem => ?_⟩, by simp⟩
      have hlt : last < first := by simpa using hlt
      refine ((Ascending.le_getLast hx hxlast x hxmem).trans_lt hlt).trans_le ?_
      exact (List.mem_cons.mp hymem).elim (·.ge)
        fun hymem => (List.rel_of_pairwise_cons hy hymem).le
    · have hstart : MergedFrom xs (first :: rest)
          (xs ++ List.replicate (first :: rest).length 0) xs.length (first :: rest).length
          (xs.length + (first :: rest).length) none :=
        ⟨by simp, le_rfl, le_rfl, le_rfl, by simp, by simp, by simp, by simp, by simp, by simp⟩
      obtain ⟨rows, write, last, hrun, hmerged⟩ := mergeBack_spec hx hy _ le_rfl hstart
      have hlength := hmerged.length
      have hresult : (if write > 0 ∧ rows.length - write > 0 then
          rows.drop write ++ rows.drop (rows.length - write) else rows).take (rows.length - write) =
            rows.drop write := by
        have hwrite := hmerged.write_le
        rw [← List.length_drop]
        split_ifs with hmove
        · exact List.take_left
        · rw [List.length_drop] at hmove
          rcases Nat.eq_zero_or_pos write with rfl | hpos
          · simp
          · obtain rfl : write = rows.length := by omega
            simp
      simp only [hrun]
      rw [← hlength, hresult]
      exact ⟨hmerged.written, fun id => by simpa using hmerged.mem id⟩

end Extend

end Cynos.Index
