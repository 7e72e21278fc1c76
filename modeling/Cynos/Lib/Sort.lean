import Mathlib.Data.List.Forall2

/-! A stable sort by an order that need only be one on the elements of the list. -/
namespace Cynos.Sort

variable {A B : Type*} {le : A → A → Bool}

/-- An element has one place in a sorted list: after the smaller ones. -/
theorem split_unique {a : A} {lo hi lo' hi' : List A} (h : lo ++ hi = lo' ++ hi')
    (hlo : ∀ b ∈ lo, (!le a b) = true) (hhi : ∀ b ∈ hi, le a b = true)
    (hlo' : ∀ b ∈ lo', (!le a b) = true) (hhi' : ∀ b ∈ hi', le a b = true) :
    lo = lo' ∧ hi = hi' := by
  have hclash : ∀ {b : A}, (!le a b) = true → le a b = true → False := by
    intro b hnot hle
    rw [hle] at hnot
    cases hnot
  induction lo generalizing lo' with
  | nil =>
    cases lo' with
    | nil => exact ⟨rfl, h⟩
    | cons b lo' =>
      exfalso
      apply hclash (hlo' b List.mem_cons_self)
      apply hhi
      rw [List.nil_append] at h
      rw [h]
      exact List.mem_cons_self
  | cons b lo ih =>
    cases lo' with
    | nil =>
      exfalso
      apply hclash (hlo b List.mem_cons_self)
      apply hhi'
      rw [List.nil_append] at h
      rw [← h]
      exact List.mem_cons_self
    | cons b' lo' =>
      rw [List.cons_append, List.cons_append, List.cons.injEq] at h
      obtain ⟨rfl, h⟩ := h
      obtain ⟨rfl, rfl⟩ := ih h (fun c hc => hlo c (List.mem_cons_of_mem _ hc))
        (fun c hc => hlo' c (List.mem_cons_of_mem _ hc))
      exact ⟨rfl, rfl⟩

/-- Sorting and filtering can be done in either order. -/
theorem filter_mergeSort (htrans : ∀ a b c, le a b = true → le b c = true → le a c = true)
    (htotal : ∀ a b, (le a b || le b a) = true) (p : A → Bool) (as : List A) :
    (as.mergeSort le).filter p = (as.filter p).mergeSort le := by
  induction as with
  | nil => rw [List.mergeSort_nil, List.filter_nil, List.mergeSort_nil]
  | cons a as ih =>
    obtain ⟨lo, hi, hcons, hrest, hlo⟩ := List.mergeSort_cons htrans htotal a as
    rw [hrest, List.filter_append] at ih
    rw [hcons, List.filter_append, List.filter_cons, List.filter_cons]
    split
    · next hpa =>
      obtain ⟨lo', hi', hcons', hrest', hlo'⟩ :=
        List.mergeSort_cons htrans htotal a (as.filter p)
      have habove : ∀ {xs ys : List A}, (xs ++ a :: ys).Pairwise (fun b c => le b c = true) →
          ∀ b ∈ ys, le a b = true := by
        intro xs ys hsorted b hb
        exact List.rel_of_pairwise_cons (List.pairwise_append.mp hsorted).2.1 hb
      have hsorted := List.pairwise_mergeSort htrans htotal (a :: as)
      have hsorted' := List.pairwise_mergeSort htrans htotal (a :: as.filter p)
      rw [hcons] at hsorted
      rw [hcons'] at hsorted'
      obtain ⟨hloeq, hhieq⟩ := split_unique (ih.trans hrest')
        (fun b hb => hlo b (List.mem_of_mem_filter hb))
        (fun b hb => habove hsorted b (List.mem_of_mem_filter hb)) hlo' (habove hsorted')
      rw [hcons', hloeq, hhieq]
    · exact ih

/-- The order need only be transitive on the elements of the list. -/
theorem pairwise_mergeSort_of_mem {as : List A}
    (htrans : ∀ a ∈ as, ∀ b ∈ as, ∀ c ∈ as, le a b = true → le b c = true → le a c = true)
    (htotal : ∀ a b, (le a b || le b a) = true) :
    (as.mergeSort le).Pairwise fun a b => le a b = true := by
  let le' : { a // a ∈ as } → { a // a ∈ as } → Bool := fun a b => le a.1 b.1
  have hmap : (as.attach.mergeSort le').map Subtype.val = as.mergeSort le := by
    rw [List.map_mergeSort (s := le) fun _ _ _ _ => rfl, List.attach_map_subtype_val]
  rw [← hmap, List.pairwise_map]
  exact List.pairwise_mergeSort (fun a b c => htrans a.1 a.2 b.1 b.2 c.1 c.2)
    (fun a b => htotal a.1 b.1) as.attach

theorem filter_mergeSort_of_mem {as : List A}
    (htrans : ∀ a ∈ as, ∀ b ∈ as, ∀ c ∈ as, le a b = true → le b c = true → le a c = true)
    (htotal : ∀ a b, (le a b || le b a) = true) (p : A → Bool) :
    (as.mergeSort le).filter p = (as.filter p).mergeSort le := by
  let le' : { a // a ∈ as } → { a // a ∈ as } → Bool := fun a b => le a.1 b.1
  have hmap : ∀ bs : List { a // a ∈ as },
      (bs.mergeSort le').map Subtype.val = (bs.map Subtype.val).mergeSort le := fun bs =>
    List.map_mergeSort fun _ _ _ _ => rfl
  have hfilter := @filter_mergeSort _ le' (fun a b c => htrans a.1 a.2 b.1 b.2 c.1 c.2)
    (fun a b => htotal a.1 b.1) (fun a => p a.1) as.attach
  have hattach : (as.attach.filter fun a => p a.1).map Subtype.val = as.filter p := by
    rw [← Function.comp_def p Subtype.val, ← List.filter_map, List.attach_map_subtype_val]
  have hall := hmap as.attach
  rw [List.attach_map_subtype_val] at hall
  rw [← hall, List.filter_map, Function.comp_def, hfilter, hmap, hattach]

/-- Lists whose elements are related one by one, and alike in the two orders, are related
after sorting. -/
theorem forall₂_mergeSort {R : A → B → Prop} {le' : B → B → Bool} {as : List A} {bs : List B}
    (h : List.Forall₂ R as bs)
    (hle : ∀ a a' b b', R a b → R a' b' → le a a' = le' b b') :
    List.Forall₂ R (as.mergeSort le) (bs.mergeSort le') := by
  have hzip : ∀ pair ∈ as.zip bs, R pair.1 pair.2 := fun pair hpair =>
    (List.forall₂_iff_zip.mp h).2 (by exact hpair)
  have hlength := h.length_eq
  have hleft : ((as.zip bs).mergeSort fun p q => le p.1 q.1).map Prod.fst = as.mergeSort le := by
    rw [List.map_mergeSort (s := le) fun _ _ _ _ => rfl, List.map_fst_zip (Nat.le_of_eq hlength)]
  have hright : ((as.zip bs).mergeSort fun p q => le p.1 q.1).map Prod.snd =
      bs.mergeSort le' := by
    rw [List.map_mergeSort (s := le') fun p hp q hq => hle _ _ _ _ (hzip p hp) (hzip q hq),
      List.map_snd_zip (Nat.le_of_eq hlength.symm)]
  rw [← hleft, ← hright, List.forall₂_map_left_iff, List.forall₂_map_right_iff]
  apply List.forall₂_same.mpr
  intro pair hpair
  exact hzip pair (List.mem_mergeSort.mp hpair)

/-- Two lists in the order of some rank are the same when they hold the same elements of each rank
in the same order. -/
theorem eq_of_ranks {rank : A → Nat} {as bs : List A}
    (has : as.Pairwise fun a b => rank a ≤ rank b) (hbs : bs.Pairwise fun a b => rank a ≤ rank b)
    (h : ∀ i, (as.filter fun a => rank a == i) = bs.filter fun a => rank a == i) : as = bs := by
  have hmem : ∀ a, a ∈ as ↔ a ∈ bs := fun a => by
    have ha := congrArg (a ∈ ·) (h (rank a))
    simpa using ha
  induction as generalizing bs with
  | nil => exact (List.eq_nil_iff_forall_not_mem.mpr fun b hb => by simpa using (hmem b).mpr hb).symm
  | cons a as ih =>
    cases bs with
    | nil => exact absurd ((hmem a).mp List.mem_cons_self) List.not_mem_nil
    | cons b bs =>
      obtain ⟨hleast, has⟩ := List.pairwise_cons.mp has
      obtain ⟨hleast', hbs'⟩ := List.pairwise_cons.mp hbs
      have hle : ∀ {x y : A} {xs : List A}, (∀ z ∈ xs, rank x ≤ rank z) → y ∈ x :: xs →
          rank x ≤ rank y := by
        intro x y xs hxs hy
        rcases List.mem_cons.mp hy with rfl | hy
        · exact Nat.le_refl _
        · exact hxs y hy
      have hrank : rank a = rank b := Nat.le_antisymm
        (hle hleast ((hmem b).mpr List.mem_cons_self))
        (hle hleast' ((hmem a).mp List.mem_cons_self))
      have hfirst := h (rank a)
      rw [List.filter_cons_of_pos (by simp), List.filter_cons_of_pos (by simp [hrank]),
        List.cons.injEq] at hfirst
      obtain ⟨rfl, hsame⟩ := hfirst
      have hrest : ∀ i, (as.filter fun c => rank c == i) = bs.filter fun c => rank c == i := by
        intro i
        by_cases hi : rank a = i
        · exact hi ▸ hsame
        · have hfilter := h i
          rwa [List.filter_cons_of_neg (by simp [hi]), List.filter_cons_of_neg (by simp [hi])]
            at hfilter
      refine congrArg (a :: ·) (ih has hbs' hrest fun c => ?_)
      have hc := congrArg (c ∈ ·) (hrest (rank c))
      simpa using hc

end Cynos.Sort
