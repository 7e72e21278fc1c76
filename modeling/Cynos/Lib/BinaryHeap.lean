import Mathlib.Data.List.Perm.Basic

/-! A binary max-heap on an array: the sifts, and what a push and a pop do to the contents. -/
namespace Cynos.BinaryHeap

variable {A : Type} {n : Nat}

section Operations

variable (cmp : A → A → Ordering)

/-- The element at `pos` moves up while it is greater than its parent. -/
def siftUp (v : Vector A n) (pos : Nat) (h : pos < n) : Vector A n :=
  if hpos : 0 < pos then
    if cmp v[pos] v[(pos - 1) / 2] != .gt then v
    else siftUp (v.swap pos ((pos - 1) / 2)) ((pos - 1) / 2) (by omega)
  else v
termination_by pos

/-- The element at `pos` moves down along the greater children to the bottom, and up again. -/
def siftDownToBottom (v : Vector A n) (pos : Nat) (h : pos < n) : Vector A n :=
  if hright : 2 * pos + 2 < n then
    if cmp v[2 * pos + 1] v[2 * pos + 2] != .gt then
      siftDownToBottom (v.swap pos (2 * pos + 2)) (2 * pos + 2) hright
    else siftDownToBottom (v.swap pos (2 * pos + 1)) (2 * pos + 1) (by omega)
  else if hleft : 2 * pos + 1 < n then
    siftUp cmp (v.swap pos (2 * pos + 1)) (2 * pos + 1) hleft
  else siftUp cmp v pos h
termination_by n - pos

def push (heap : Array A) (a : A) : Array A :=
  (siftUp cmp (heap.push a).toVector heap.size (by rw [Array.size_push]; omega)).toArray

/-- The last element takes the place of the first. -/
def pop (heap : Array A) : Option (A × Array A) :=
  heap.back?.map fun last =>
    if h : 0 < heap.pop.size then
      (heap.pop[0], (siftDownToBottom cmp (heap.pop.toVector.set 0 last) 0 h).toArray)
    else (last, heap.pop)

def peek (heap : Array A) : Option A := heap[0]?

end Operations

section Contents

variable {cmp : A → A → Ordering}

theorem siftUp_perm (v : Vector A n) (pos : Nat) (h : pos < n) :
    (siftUp cmp v pos h).toList.Perm v.toList := by
  fun_induction siftUp cmp v pos h with
  | case1 => exact .refl _
  | case2 v pos h hpos hgt ih => exact ih.trans (Vector.swap_perm _ _).toList
  | case3 => exact .refl _

theorem siftDownToBottom_perm (v : Vector A n) (pos : Nat) (h : pos < n) :
    (siftDownToBottom cmp v pos h).toList.Perm v.toList := by
  fun_induction siftDownToBottom cmp v pos h with
  | case1 v pos h hright hle ih => exact ih.trans (Vector.swap_perm _ _).toList
  | case2 v pos h hright hgt ih => exact ih.trans (Vector.swap_perm _ _).toList
  | case3 v pos h hright hleft => exact (siftUp_perm _ _ _).trans (Vector.swap_perm _ _).toList
  | case4 v pos h hright hleft => exact siftUp_perm _ _ _

/-- A push adds the element. -/
theorem push_perm (heap : Array A) (a : A) : (push cmp heap a).toList.Perm (a :: heap.toList) := by
  unfold push
  refine (siftUp_perm _ _ _).trans ?_
  simp

/-- A pop takes the first element out. -/
theorem pop_perm {heap rest : Array A} {top : A} (h : pop cmp heap = some (top, rest)) :
    peek heap = some top ∧ heap.toList.Perm (top :: rest.toList) := by
  obtain ⟨last, hlast, hpop⟩ := Option.map_eq_some_iff.mp h
  obtain ⟨⟨front⟩, rfl⟩ := Array.back?_eq_some_iff.mp hlast
  cases front with
  | nil =>
    obtain ⟨rfl, rfl⟩ := Prod.mk.inj hpop
    exact ⟨rfl, .refl _⟩
  | cons a front =>
    rw [dif_pos (by simp)] at hpop
    obtain ⟨rfl, rfl⟩ := Prod.mk.inj hpop
    refine ⟨by simp [peek], List.Perm.trans ?_ ((siftDownToBottom_perm _ _ _).symm.cons _)⟩
    have hset : (a :: (front ++ [last])).dropLast.set 0 last = last :: front := by
      rw [← List.cons_append, List.dropLast_concat, List.set_cons_zero]
    simp [hset]

theorem exists_pop {heap : Array A} (hsize : 0 < heap.size) :
    ∃ top rest, pop cmp heap = some (top, rest) := by
  unfold pop
  rw [Array.back?_eq_getElem?, Array.getElem?_eq_getElem (by omega)]
  exact ⟨_, _, rfl⟩

end Contents

/-- A comparison that orders the elements of a set; others it may not put in any order. -/
structure Orders (cmp : A → A → Ordering) (S : Set A) : Prop where
  swap : ∀ a b, cmp b a = (cmp a b).swap
  trans : ∀ a ∈ S, ∀ b ∈ S, ∀ c ∈ S, cmp a b ≠ .gt → cmp b c ≠ .gt → cmp a c ≠ .gt

section Order

variable {cmp : A → A → Ordering} {S : Set A}

namespace Orders

theorem le_of_gt (h : Orders cmp S) {a b : A} (hgt : cmp a b = .gt) : cmp b a ≠ .gt := by
  rw [h.swap a b, hgt]
  exact nofun

theorem le_self (h : Orders cmp S) (a : A) : cmp a a ≠ .gt := by
  intro hgt
  exact h.le_of_gt hgt hgt

end Orders

def IsChild (c p : Nat) : Prop := c = 2 * p + 1 ∨ c = 2 * p + 2

def HeapOrdered (cmp : A → A → Ordering) (v : Vector A n) : Prop :=
  ∀ c p (hc : c < n) (hp : p < n), IsChild c p → cmp v[c] v[p] ≠ .gt

/-- The element at the hole may be greater than its parent, but nothing below it is. -/
structure UpOrder (cmp : A → A → Ordering) (v : Vector A n) (hole : Nat) : Prop where
  except : ∀ c p (hc : c < n) (hp : p < n), IsChild c p → c ≠ hole → cmp v[c] v[p] ≠ .gt
  grand : ∀ c g (hc : c < n) (hg : g < n), IsChild c hole → IsChild hole g → cmp v[c] v[g] ≠ .gt

/-- The element at the hole may be in any order to the ones around it. -/
structure DownOrder (cmp : A → A → Ordering) (v : Vector A n) (hole : Nat) : Prop where
  except : ∀ c p (hc : c < n) (hp : p < n), IsChild c p → c ≠ hole → p ≠ hole → cmp v[c] v[p] ≠ .gt
  grand : ∀ c g (hc : c < n) (hg : g < n), IsChild c hole → IsChild hole g → cmp v[c] v[g] ≠ .gt

theorem isChild_parent {pos : Nat} (h : 0 < pos) : IsChild pos ((pos - 1) / 2) := by
  unfold IsChild
  omega

theorem IsChild.parent_eq {c p : Nat} (h : IsChild c p) : p = (c - 1) / 2 := by
  unfold IsChild at h
  omega

theorem IsChild.lt {c p : Nat} (h : IsChild c p) : p < c := by
  unfold IsChild at h
  omega

theorem UpOrder.step (ho : Orders cmp S) {v : Vector A n} (hS : ∀ a ∈ v, a ∈ S) {pos p : Nat}
    (hpos : pos < n) (hp : p < n) (hchild : IsChild pos p) (hgt : cmp v[pos] v[p] = .gt)
    (h : UpOrder cmp v pos) : UpOrder cmp (v.swap pos p) p := by
  have hup : cmp v[p] v[pos] ≠ .gt := ho.le_of_gt hgt
  have hlt := hchild.lt
  constructor
  · intro c q hc hq hcq hne
    have hlt' := hcq.lt
    by_cases hcpos : c = pos
    · subst hcpos
      obtain rfl : q = p := hcq.parent_eq.trans hchild.parent_eq.symm
      simpa using hup
    · by_cases hqpos : q = pos
      · subst hqpos
        have := h.grand c p hc hp hcq hchild
        simpa [Vector.getElem_swap, hcpos, hne] using this
      · by_cases hqp : q = p
        · subst hqp
          have hle := h.except c q hc hq hcq hcpos
          have := ho.trans _ (hS _ (Vector.getElem_mem hc)) _ (hS _ (Vector.getElem_mem hq)) _
            (hS _ (Vector.getElem_mem hpos)) hle hup
          simpa [Vector.getElem_swap, hcpos, hne, hqpos] using this
        · have := h.except c q hc hq hcq hcpos
          simpa [Vector.getElem_swap, hcpos, hne, hqpos, hqp] using this
  · intro c g hc hg hcp hpg
    have hlt' := hcp.lt
    have hlt'' := hpg.lt
    have hple := h.except p g hp hg hpg (by omega)
    by_cases hcpos : c = pos
    · subst hcpos
      simpa [Vector.getElem_swap, show g ≠ c by omega, show g ≠ p by omega] using hple
    · have hle := h.except c p hc hp hcp hcpos
      have := ho.trans _ (hS _ (Vector.getElem_mem hc)) _ (hS _ (Vector.getElem_mem hp)) _
        (hS _ (Vector.getElem_mem hg)) hle hple
      simpa [Vector.getElem_swap, hcpos, show c ≠ p by omega, show g ≠ pos by omega,
        show g ≠ p by omega] using this

theorem UpOrder.finish {v : Vector A n} {pos : Nat} (h : UpOrder cmp v pos)
    (hup : ∀ p (hpos : pos < n) (hp : p < n), IsChild pos p → cmp v[pos] v[p] ≠ .gt) :
    HeapOrdered cmp v := by
  intro c p hc hp hchild
  by_cases hne : c = pos
  · subst hne
    exact hup p hc hp hchild
  · exact h.except c p hc hp hchild hne

theorem mem_swap {v : Vector A n} (hS : ∀ a ∈ v, a ∈ S) {i j : Nat} (hi : i < n) (hj : j < n) :
    ∀ a ∈ v.swap i j, a ∈ S := by
  intro a ha
  exact hS a ((Vector.swap_perm hi hj).mem_iff.mp ha)

theorem siftUp_ordered (ho : Orders cmp S) {v : Vector A n} (hS : ∀ a ∈ v, a ∈ S) {pos : Nat}
    (hpos : pos < n) (h : UpOrder cmp v pos) : HeapOrdered cmp (siftUp cmp v pos hpos) := by
  fun_induction siftUp cmp v pos hpos with
  | case1 v pos hpos hzero hle =>
    refine h.finish fun p _ hp hchild => ?_
    obtain rfl := hchild.parent_eq
    exact bne_iff_ne.mp hle
  | case2 v pos hpos hzero hgt ih =>
    apply ih (mem_swap hS _ _)
    exact h.step ho hS hpos (by omega) (isChild_parent hzero) (by simpa using hgt)
  | case3 v pos hpos hzero =>
    refine h.finish fun p _ hp hchild => ?_
    have := hchild.lt
    omega

theorem DownOrder.step {v : Vector A n} {pos c : Nat} (hpos : pos < n) (hc : c < n)
    (hchild : IsChild c pos)
    (hgreatest : ∀ c' (hc' : c' < n), IsChild c' pos → cmp v[c'] v[c] ≠ .gt)
    (h : DownOrder cmp v pos) : DownOrder cmp (v.swap pos c) c := by
  have hlt := hchild.lt
  constructor
  · intro d p hd hp hdp hdc hpc
    have hlt' := hdp.lt
    by_cases hdpos : d = pos
    · subst hdpos
      have := h.grand c p hc hp hchild hdp
      simpa [Vector.getElem_swap, hpc, show p ≠ d by omega] using this
    · by_cases hppos : p = pos
      · subst hppos
        have := hgreatest d hd hdp
        simpa [Vector.getElem_swap, hdpos, hdc] using this
      · have := h.except d p hd hp hdp hdpos hppos
        simpa [Vector.getElem_swap, hdpos, hdc, hppos, hpc] using this
  · intro d g hd hg hdc hcg
    obtain rfl : g = pos := hcg.parent_eq.trans hchild.parent_eq.symm
    have hlt' := hdc.lt
    have := h.except d c hd hc hdc (by omega) (by omega)
    simpa [Vector.getElem_swap, show d ≠ g by omega, show d ≠ c by omega] using this

/-- At the bottom, nothing is below the hole. -/
theorem DownOrder.bottom {v : Vector A n} {pos : Nat} (h : DownOrder cmp v pos)
    (hbottom : n ≤ 2 * pos + 1) : UpOrder cmp v pos := by
  constructor
  · intro c p hc hp hchild hne
    refine h.except c p hc hp hchild hne fun heq => ?_
    subst heq
    unfold IsChild at hchild
    omega
  · intro c g hc _ hchild
    unfold IsChild at hchild
    omega

theorem siftDownToBottom_ordered (ho : Orders cmp S) {v : Vector A n} (hS : ∀ a ∈ v, a ∈ S)
    {pos : Nat} (hpos : pos < n) (h : DownOrder cmp v pos) :
    HeapOrdered cmp (siftDownToBottom cmp v pos hpos) := by
  fun_induction siftDownToBottom cmp v pos hpos with
  | case1 v pos hpos hright hle ih =>
    apply ih (mem_swap hS _ _)
    refine h.step hpos hright (.inr rfl) fun c hc hchild => ?_
    rcases hchild with rfl | rfl
    · exact bne_iff_ne.mp hle
    · exact ho.le_self _
  | case2 v pos hpos hright hgt ih =>
    apply ih (mem_swap hS _ _)
    refine h.step hpos (by omega) (.inl rfl) fun c hc hchild => ?_
    rcases hchild with rfl | rfl
    · exact ho.le_self _
    · exact ho.le_of_gt (by simpa using hgt)
  | case3 v pos hpos hright hleft =>
    apply siftUp_ordered ho (mem_swap hS _ _)
    refine (h.step hpos hleft (.inl rfl) fun c hc hchild => ?_).bottom (by omega)
    obtain rfl : c = 2 * pos + 1 := by
      unfold IsChild at hchild
      omega
    exact ho.le_self _
  | case4 v pos hpos hright hleft =>
    exact siftUp_ordered ho hS hpos (h.bottom (by omega))

/-- No element of a heap is greater than the first one. -/
theorem HeapOrdered.first (ho : Orders cmp S) {v : Vector A n} (hS : ∀ a ∈ v, a ∈ S)
    (h : HeapOrdered cmp v) (hpos : 0 < n) (i : Nat) (hi : i < n) : cmp v[i] v[0] ≠ .gt := by
  induction i using Nat.strongRecOn with
  | ind i ih =>
    by_cases hzero : i = 0
    · subst hzero
      exact ho.le_self _
    · have hchild := isChild_parent (Nat.pos_of_ne_zero hzero)
      have hle := h i _ hi (Nat.lt_trans hchild.lt hi) hchild
      exact ho.trans _ (hS _ (Vector.getElem_mem hi)) _ (hS _ (Vector.getElem_mem _)) _
        (hS _ (Vector.getElem_mem hpos)) hle (ih _ hchild.lt _)

/-- The order of a heap, on the array that holds it. -/
def IsHeap (cmp : A → A → Ordering) (heap : Array A) : Prop := HeapOrdered cmp heap.toVector

theorem HeapOrdered.isHeap {v : Vector A n} (h : HeapOrdered cmp v) : IsHeap cmp v.toArray := by
  intro c p hc hp hchild
  have hsize : v.toArray.size = n := v.size_toArray
  exact h c p (hsize ▸ hc) (hsize ▸ hp) hchild

theorem isHeap_empty : IsHeap cmp #[] := by
  intro c p hc
  exact absurd hc (Nat.not_lt_zero c)

theorem isHeap_push (ho : Orders cmp S) {heap : Array A} {a : A}
    (hS : ∀ b ∈ a :: heap.toList, b ∈ S) (h : IsHeap cmp heap) : IsHeap cmp (push cmp heap a) := by
  apply HeapOrdered.isHeap
  apply siftUp_ordered ho
  · intro b hb
    apply hS
    simpa [or_comm] using hb
  · have hget : ∀ i (hi : i < (heap.push a).size), i ≠ heap.size →
        ∃ hi' : i < heap.size, (heap.push a).toVector[i] = heap[i] := by
      intro i hi hne
      rw [Array.size_push] at hi
      exact ⟨by omega, Array.getElem_push_lt _⟩
    constructor
    · intro c p hc hp hchild hne
      obtain ⟨hc', hceq⟩ := hget c hc hne
      obtain ⟨hp', hpeq⟩ := hget p hp (by have := hchild.lt; omega)
      rw [hceq, hpeq]
      exact h c p hc' hp' hchild
    · intro c g hc hg hchild
      have := hchild.lt
      rw [Array.size_push] at hc
      omega

theorem isHeap_pop (ho : Orders cmp S) {heap rest : Array A} {top : A}
    (hS : ∀ b ∈ heap.toList, b ∈ S) (h : IsHeap cmp heap) (hpop : pop cmp heap = some (top, rest)) :
    IsHeap cmp rest := by
  obtain ⟨last, hlast, hpop⟩ := Option.map_eq_some_iff.mp hpop
  have hlast := hS last (Array.mem_toList_iff.mpr (Array.mem_of_back? hlast))
  split at hpop
  · rename_i hsize
    obtain ⟨-, rfl⟩ := Prod.mk.inj hpop
    apply HeapOrdered.isHeap
    apply siftDownToBottom_ordered ho
    · intro b hb
      obtain ⟨i, hi, rfl⟩ := Vector.getElem_of_mem hb
      rw [Vector.getElem_set]
      split
      · exact hlast
      · apply hS
        simp
    · constructor
      · intro c p hc hp hchild hne hne'
        rw [Vector.getElem_set_ne _ _ (Ne.symm hne), Vector.getElem_set_ne _ _ (Ne.symm hne')]
        have hget : ∀ i (hi : i < heap.pop.size),
            ∃ hi' : i < heap.size, heap.pop.toVector[i] = heap[i] := by
          intro i hi
          have hi' := hi
          rw [Array.size_pop] at hi'
          exact ⟨by omega, Array.getElem_pop hi⟩
        obtain ⟨hc', hceq⟩ := hget c hc
        obtain ⟨hp', hpeq⟩ := hget p hp
        rw [hceq, hpeq]
        exact h c p hc' hp' hchild
      · intro c g _ _ _ hchild
        have := hchild.lt
        omega
  · rename_i hsize
    obtain ⟨-, rfl⟩ := Prod.mk.inj hpop
    intro c p hc
    omega

/-- No element is greater than the one a heap shows. -/
theorem IsHeap.le_peek (ho : Orders cmp S) {heap : Array A} {top a : A}
    (hS : ∀ b ∈ heap.toList, b ∈ S) (h : IsHeap cmp heap) (hpeek : peek heap = some top)
    (ha : a ∈ heap.toList) : cmp a top ≠ .gt := by
  obtain ⟨hsize, rfl⟩ := Array.getElem?_eq_some_iff.mp hpeek
  obtain ⟨i, hi, rfl⟩ := List.getElem_of_mem ha
  refine h.first ho (fun b hb => hS b ?_) hsize i hi
  simpa using hb

end Order

end Cynos.BinaryHeap
