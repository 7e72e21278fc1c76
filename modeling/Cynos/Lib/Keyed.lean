import Cynos.Lib.Vec
import Mathlib.Data.List.Forall2

/-! Lists kept in strictly increasing order of a key: finite maps that are searched by
bisection. -/
namespace Cynos.Keyed

variable {K : Type*} [LinearOrder K] (key : α → K)

def Sorted (xs : List α) : Prop := xs.Pairwise fun x y => key x < key y

def lookup (xs : List α) (k : K) : Option α := xs.find? fun x => key x == k

/-- Where `k` stands, or where it has to be inserted to keep the order. -/
def search (xs : List α) (k : K) : Except Nat Nat :=
  let index := Vec.partitionPoint xs fun x => key x < k
  match xs[index]? with
  | some x => if key x = k then .ok index else .error index
  | none => .error index

variable {key} {xs ys : List α} {k : K}

theorem lookup_cons (x : α) (xs : List α) (k : K) :
    lookup key (x :: xs) k = if key x = k then some x else lookup key xs k := by
  unfold lookup
  by_cases h : key x = k
  · rw [List.find?_cons_of_pos (by simpa using h), if_pos h]
  · rw [List.find?_cons_of_neg (by simpa using h), if_neg h]

theorem key_of_lookup {x : α} (h : lookup key xs k = some x) : key x = k := by
  simpa using List.find?_some h

theorem mem_of_lookup {x : α} (h : lookup key xs k = some x) : x ∈ xs := List.mem_of_find?_eq_some h

theorem lookup_eq_none (h : ∀ x ∈ xs, key x ≠ k) : lookup key xs k = none := by
  apply List.find?_eq_none.mpr
  intro x hx
  simpa using h x hx

theorem lookup_append (h : ∀ x ∈ xs, key x ≠ k) : lookup key (xs ++ ys) k = lookup key ys k := by
  unfold lookup
  rw [List.find?_append, List.find?_eq_none.mpr (by simpa using h), Option.none_or]

theorem Sorted.tail {x : α} (h : Sorted key (x :: xs)) : Sorted key xs := List.Pairwise.of_cons h

theorem Sorted.head_lt {x : α} (h : Sorted key (x :: xs)) : ∀ y ∈ xs, key x < key y :=
  fun _ hy => List.rel_of_pairwise_cons h hy

theorem Sorted.lookup_of_mem (h : Sorted key xs) {x : α} (hx : x ∈ xs) :
    lookup key xs (key x) = some x := by
  induction xs with
  | nil => simp at hx
  | cons y ys ih =>
    rw [lookup_cons]
    rcases List.mem_cons.mp hx with rfl | hx
    · rw [if_pos rfl]
    · rw [if_neg (h.head_lt x hx).ne, ih h.tail hx]

/-- A sorted list is cut by a key into what comes before it and what does not. -/
theorem Sorted.split (h : Sorted key xs) (k : K) :
    ∃ lo hi, xs = lo ++ hi ∧ (∀ x ∈ lo, key x < k) ∧ (∀ y ∈ hi, k ≤ key y) := by
  induction xs with
  | nil => exact ⟨[], [], by simp⟩
  | cons x xs ih =>
    by_cases hlt : key x < k
    · obtain ⟨lo, hi, rfl, hlo, hhi⟩ := ih h.tail
      exact ⟨x :: lo, hi, rfl, by simpa [hlt] using hlo, hhi⟩
    · refine ⟨[], x :: xs, rfl, by simp, ?_⟩
      intro y hy
      rcases List.mem_cons.mp hy with rfl | hy
      · exact le_of_not_gt hlt
      · exact (le_of_not_gt hlt).trans (h.head_lt y hy).le

theorem search_append {lo hi : List α} (hlo : ∀ x ∈ lo, key x < k) (hhi : ∀ y ∈ hi, k ≤ key y) :
    search key (lo ++ hi) k =
      if (hi.head?.map key) = some k then .ok lo.length else .error lo.length := by
  have hpoint : Vec.partitionPoint (lo ++ hi) (fun x => key x < k) = lo.length :=
    Vec.partitionPoint_append (by simpa using hlo) (by simpa using hhi)
  simp only [search, hpoint]
  cases hi with
  | nil => simp
  | cons y hi => simp

/-- What bisection finds in a sorted list. -/
theorem Sorted.search_cases (h : Sorted key xs) (k : K) :
    (∃ lo x hi, xs = lo ++ x :: hi ∧ key x = k ∧ search key xs k = .ok lo.length) ∨
      (∃ lo hi, xs = lo ++ hi ∧ (∀ x ∈ lo, key x < k) ∧ (∀ y ∈ hi, k < key y) ∧
        search key xs k = .error lo.length) := by
  obtain ⟨lo, hi, rfl, hlo, hhi⟩ := h.split k
  cases hi with
  | nil => exact Or.inr ⟨lo, [], rfl, hlo, by simp, by rw [search_append hlo hhi]; simp⟩
  | cons x hi =>
    by_cases hx : key x = k
    · exact Or.inl ⟨lo, x, hi, rfl, hx, by rw [search_append hlo hhi]; simp [hx]⟩
    · refine Or.inr ⟨lo, x :: hi, rfl, hlo, ?_, by rw [search_append hlo hhi]; simp [hx]⟩
      have hlt : k < key x := lt_of_le_of_ne (hhi x (by simp)) (Ne.symm hx)
      have htail : Sorted key (x :: hi) := (List.pairwise_append.mp h).2.1
      intro y hy
      rcases List.mem_cons.mp hy with rfl | hy
      · exact hlt
      · exact hlt.trans (htail.head_lt y hy)

section Middle

variable {lo hi : List α} {x : α}

theorem sorted_middle :
    Sorted key (lo ++ x :: hi) ↔
      Sorted key (lo ++ hi) ∧ (∀ y ∈ lo, key y < key x) ∧ (∀ y ∈ hi, key x < key y) := by
  unfold Sorted
  rw [List.pairwise_append, List.pairwise_append, List.pairwise_cons]
  constructor
  · rintro ⟨hlo, ⟨hx, hhi⟩, hcross⟩
    exact ⟨⟨hlo, hhi, fun a ha b hb => hcross a ha b (List.mem_cons_of_mem _ hb)⟩,
      fun a ha => hcross a ha x (by simp), hx⟩
  · rintro ⟨⟨hlo, hhi, hcross⟩, hbefore, hafter⟩
    refine ⟨hlo, ⟨hafter, hhi⟩, fun a ha b hb => ?_⟩
    rcases List.mem_cons.mp hb with rfl | hb
    · exact hbefore a ha
    · exact hcross a ha b hb

theorem Sorted.search_middle (h : Sorted key (lo ++ x :: hi)) :
    search key (lo ++ x :: hi) (key x) = .ok lo.length := by
  obtain ⟨-, hbefore, hafter⟩ := sorted_middle.mp h
  have hhi : ∀ y ∈ x :: hi, key x ≤ key y := by
    intro y hy
    rcases List.mem_cons.mp hy with rfl | hy
    · exact le_rfl
    · exact (hafter y hy).le
  rw [search_append hbefore hhi]
  exact if_pos rfl

/-- A sorted list with one more element is the map with one more entry. -/
theorem Sorted.lookup_middle (h : Sorted key (lo ++ x :: hi)) (k : K) :
    lookup key (lo ++ x :: hi) k = if key x = k then some x else lookup key (lo ++ hi) k := by
  obtain ⟨-, hbefore, -⟩ := sorted_middle.mp h
  by_cases hk : key x = k
  · have hlo : ∀ y ∈ lo, key y ≠ k := fun y hy => hk ▸ (hbefore y hy).ne
    rw [if_pos hk, lookup_append hlo, lookup_cons, if_pos hk]
  · rw [if_neg hk]
    unfold lookup
    rw [List.find?_append, List.find?_append, List.find?_cons_of_neg (by simpa using hk)]

theorem Sorted.lookup_removed (h : Sorted key (lo ++ x :: hi)) :
    lookup key (lo ++ hi) (key x) = none := by
  obtain ⟨-, hbefore, hafter⟩ := sorted_middle.mp h
  apply lookup_eq_none
  intro y hy
  rcases List.mem_append.mp hy with hy | hy
  · exact (hbefore y hy).ne
  · exact (hafter y hy).ne'

end Middle

/-- Sorted lists whose entries are related key by key are related element by element. -/
theorem Sorted.forall₂_of_lookup {R : α → α → Prop} (hxs : Sorted key xs) (hys : Sorted key ys)
    (h : ∀ k, Option.Rel R (lookup key xs k) (lookup key ys k)) : List.Forall₂ R xs ys := by
  have hnone : ∀ {x : α} {xs : List α}, Sorted key (x :: xs) → lookup key xs (key x) = none :=
    fun hs => lookup_eq_none fun y hy => (hs.head_lt y hy).ne'
  induction xs generalizing ys with
  | nil =>
    cases ys with
    | nil => exact .nil
    | cons y ys =>
      have hy := h (key y)
      rw [lookup_cons, if_pos rfl] at hy
      cases hy
  | cons x xs ih =>
    cases ys with
    | nil =>
      have hx := h (key x)
      rw [lookup_cons, if_pos rfl] at hx
      cases hx
    | cons y ys =>
      -- the least keys agree, or the smaller one would be missing on the other side
      have hkey : key x = key y := by
        rcases lt_trichotomy (key x) (key y) with hlt | heq | hgt
        · have hx := h (key x)
          have hmissing : lookup key (y :: ys) (key x) = none := lookup_eq_none fun z hz => by
            rcases List.mem_cons.mp hz with rfl | hz
            · exact hlt.ne'
            · exact (hlt.trans (hys.head_lt z hz)).ne'
          rw [lookup_cons, if_pos rfl, hmissing] at hx
          cases hx
        · exact heq
        · have hy := h (key y)
          have hmissing : lookup key (x :: xs) (key y) = none := lookup_eq_none fun z hz => by
            rcases List.mem_cons.mp hz with rfl | hz
            · exact hgt.ne'
            · exact (hgt.trans (hxs.head_lt z hz)).ne'
          rw [lookup_cons y, if_pos rfl, hmissing] at hy
          cases hy
      have hhead := h (key x)
      rw [lookup_cons, lookup_cons, if_pos rfl, if_pos hkey.symm] at hhead
      cases hhead with
      | some hR =>
        refine .cons hR (ih hxs.tail hys.tail fun k => ?_)
        by_cases hk : key x = k
        · rw [← hk, hnone hxs, hkey, hnone hys]
          exact .none
        · have hrest := h k
          rwa [lookup_cons, lookup_cons, if_neg hk, if_neg (hkey ▸ hk)] at hrest

theorem Sorted.ext (hxs : Sorted key xs) (hys : Sorted key ys)
    (h : ∀ k, lookup key xs k = lookup key ys k) : xs = ys := by
  have hrel : List.Forall₂ Eq xs ys := hxs.forall₂_of_lookup hys fun k => by
    rw [h k]
    cases lookup key ys k with
    | none => exact .none
    | some y => exact .some rfl
  rwa [List.forall₂_eq_eq_eq] at hrel

section Related

variable {R : α → α → Prop}

theorem sorted_of_forall₂ (hkey : ∀ x y, R x y → key x = key y) (h : List.Forall₂ R xs ys)
    (hys : Sorted key ys) : Sorted key xs := by
  have hmap : xs.map key = ys.map key := by
    induction h with
    | nil => rfl
    | cons hxy _ ih => rw [List.map_cons, List.map_cons, hkey _ _ hxy, ih hys.tail]
  unfold Sorted at hys ⊢
  rw [← List.pairwise_map (f := key)] at hys ⊢
  rwa [hmap]

theorem lookup_of_forall₂ (hkey : ∀ x y, R x y → key x = key y) (h : List.Forall₂ R xs ys) (k : K) :
    Option.Rel R (lookup key xs k) (lookup key ys k) := by
  induction h with
  | nil => exact .none
  | @cons x y xs ys hxy _ ih =>
    rw [lookup_cons, lookup_cons, hkey x y hxy]
    split
    · exact .some hxy
    · exact ih

end Related

section FilterMap

variable {f : α → Option α}

/-- A partial map that keeps keys keeps the order. -/
theorem Sorted.filterMap (h : Sorted key xs) (hf : ∀ x y, f x = some y → key y = key x) :
    Sorted key (xs.filterMap f) := by
  unfold Sorted
  rw [List.pairwise_filterMap]
  refine h.imp ?_
  intro a b hab a' ha b' hb
  rw [hf a a' ha, hf b b' hb]
  exact hab

theorem Sorted.lookup_filterMap (h : Sorted key xs) (hf : ∀ x y, f x = some y → key y = key x)
    (k : K) : lookup key (xs.filterMap f) k = (lookup key xs k).bind f := by
  induction xs with
  | nil => rfl
  | cons x xs ih =>
    rw [List.filterMap_cons, lookup_cons]
    cases hx : f x with
    | none =>
      rw [ih h.tail]
      by_cases hk : key x = k
      · have hmissing : lookup key xs k = none :=
          lookup_eq_none fun y hy => hk ▸ (h.head_lt y hy).ne'
        rw [if_pos hk, hmissing, Option.bind_some, hx, Option.bind_none]
      · rw [if_neg hk]
    | some y =>
      rw [lookup_cons, hf x y hx, ih h.tail]
      by_cases hk : key x = k
      · rw [if_pos hk, if_pos hk, Option.bind_some, hx]
      · rw [if_neg hk, if_neg hk]

end FilterMap

/-- What is kept of one key is what is found under it. -/
theorem Sorted.filterMap_key {β : Type*} (h : Sorted key xs) (f : α → Option β) (k : K) :
    (xs.filterMap fun x => if key x = k then f x else none) =
      ((lookup key xs k).bind f).toList := by
  induction xs with
  | nil => rfl
  | cons x xs ih =>
    rw [List.filterMap_cons, lookup_cons, ih h.tail]
    by_cases hk : key x = k
    · have hmissing : lookup key xs k = none :=
        lookup_eq_none fun y hy => hk ▸ (h.head_lt y hy).ne'
      rw [if_pos hk, if_pos hk, hmissing, Option.bind_some]
      cases f x <;> rfl
    · rw [if_neg hk, if_neg hk]

end Cynos.Keyed
