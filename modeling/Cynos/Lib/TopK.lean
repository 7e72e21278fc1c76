import Cynos.Lib.BinaryHeap
import Cynos.Lib.Sort

/-! What a heap that is never let grow over `k` elements keeps of a sequence: the least ones, but
which of the ones that compare alike is up to the heap. -/
namespace Cynos.TopK

open BinaryHeap

variable {A : Type}

section Loop

variable (cmp : A → A → Ordering) (k : Nat)

def offer (heap : Array A) (a : A) : Array A :=
  if heap.size < k then push cmp heap a
  else
    match peek heap with
    | none => heap
    | some top =>
      if cmp a top = .lt then push cmp (((pop cmp heap).map Prod.snd).getD heap) a else heap

/-- The elements that are left in the heap, in the order of its array. -/
def keepLeast (as : List A) : List A := (as.foldl (offer cmp k) #[]).toList

end Loop

section Documented

variable (cmp : A → A → Ordering) (k : Nat)

def IsGreatest (heap : List A) (top : A) : Prop := top ∈ heap ∧ ∀ a ∈ heap, cmp a top ≠ .gt

/-- What offering an element does to the contents of any max-heap: it shows and pops one of its
greatest elements, no matter which. -/
inductive Offered (a : A) : List A → List A → Prop
  | push {heap heap'} (hroom : heap.length < k) (hpush : heap'.Perm (a :: heap)) :
    Offered a heap heap'
  | replace {heap heap' rest top} (hfull : k ≤ heap.length) (htop : IsGreatest cmp heap top)
    (hless : cmp a top = .lt) (hpop : heap.Perm (top :: rest)) (hpush : heap'.Perm (a :: rest)) :
    Offered a heap heap'
  | skip {heap heap' top} (hfull : k ≤ heap.length) (htop : IsGreatest cmp heap top)
    (hnot : cmp a top ≠ .lt) (hsame : heap'.Perm heap) : Offered a heap heap'

/-- What is left of the elements that are offered in turn, in any order. -/
inductive Kept : List A → List A → List A → Prop
  | nil {heap kept} (h : kept.Perm heap) : Kept [] heap kept
  | cons {a as heap heap' kept} (h : Offered cmp k a heap heap') (hrest : Kept as heap' kept) :
    Kept (a :: as) heap kept

end Documented

theorem Offered.mem {cmp : A → A → Ordering} {k : Nat} {a b : A} {heap heap' : List A}
    (h : Offered cmp k a heap heap') (hb : b ∈ heap') : b = a ∨ b ∈ heap := by
  cases h with
  | push hroom hpush => exact List.mem_cons.mp (hpush.mem_iff.mp hb)
  | replace hfull htop hless hpop hpush =>
    rcases List.mem_cons.mp (hpush.mem_iff.mp hb) with rfl | hb
    · exact .inl rfl
    · exact .inr (hpop.mem_iff.mpr (List.mem_cons_of_mem _ hb))
  | skip hfull htop hnot hsame => exact .inr (hsame.mem_iff.mp hb)

theorem Offered.forall_mem {cmp : A → A → Ordering} {k : Nat} {S : Set A} {a : A}
    {heap heap' : List A} (h : Offered cmp k a heap heap') (hS : ∀ b ∈ heap, b ∈ S) (ha : a ∈ S) :
    ∀ b ∈ heap', b ∈ S := by
  intro b hb
  rcases h.mem hb with rfl | hb
  · exact ha
  · exact hS b hb

section Binary

variable {cmp : A → A → Ordering} {k : Nat} {S : Set A}

/-- A binary heap does what any heap may do. -/
theorem offer_offered (ho : Orders cmp S) (hk : 0 < k) {heap : Array A} {a : A}
    (hS : ∀ b ∈ heap.toList, b ∈ S) (ha : a ∈ S) (h : IsHeap cmp heap) :
    Offered cmp k a heap.toList (offer cmp k heap a).toList ∧ IsHeap cmp (offer cmp k heap a) := by
  have hpush : ∀ {heap : Array A}, (∀ b ∈ heap.toList, b ∈ S) → IsHeap cmp heap →
      IsHeap cmp (push cmp heap a) := fun hS h =>
    isHeap_push ho (List.forall_mem_cons.mpr ⟨ha, hS⟩) h
  unfold offer
  split
  · rename_i hroom
    exact ⟨.push hroom (push_perm heap a), hpush hS h⟩
  · rename_i hfull
    have hsize : 0 < heap.size := by omega
    have hpeek : peek heap = some heap[0] := Array.getElem?_eq_getElem hsize
    have hgreatest : IsGreatest cmp heap.toList heap[0] :=
      ⟨by simp, fun b hb => h.le_peek ho hS hpeek hb⟩
    obtain ⟨top, rest, hpop⟩ := @exists_pop _ cmp _ hsize
    obtain ⟨htop, hrest⟩ := pop_perm hpop
    obtain rfl : heap[0] = top := Option.some.inj (hpeek.symm.trans htop)
    rw [hpeek]
    dsimp only
    split
    · rename_i hless
      rw [hpop]
      have hSrest : ∀ b ∈ rest.toList, b ∈ S := fun b hb =>
        hS b (hrest.mem_iff.mpr (List.mem_cons_of_mem _ hb))
      exact ⟨.replace (Nat.le_of_not_lt hfull) hgreatest hless hrest (push_perm rest a),
        hpush hSrest (isHeap_pop ho hS h hpop)⟩
    · rename_i hnot
      exact ⟨.skip (Nat.le_of_not_lt hfull) hgreatest hnot (.refl _), h⟩

theorem foldl_offer_kept (ho : Orders cmp S) (hk : 0 < k) {as : List A} {heap : Array A}
    (hS : ∀ b ∈ heap.toList, b ∈ S) (has : ∀ a ∈ as, a ∈ S) (h : IsHeap cmp heap) :
    Kept cmp k as heap.toList (as.foldl (offer cmp k) heap).toList := by
  induction as generalizing heap with
  | nil => exact .nil (.refl _)
  | cons a as ih =>
    obtain ⟨ha, has⟩ := List.forall_mem_cons.mp has
    obtain ⟨hoffered, hheap⟩ := offer_offered ho hk hS ha h
    exact .cons hoffered (ih (hoffered.forall_mem hS ha) has hheap)

theorem keepLeast_kept (ho : Orders cmp S) (hk : 0 < k) {as : List A} (has : ∀ a ∈ as, a ∈ S) :
    Kept cmp k as [] (keepLeast cmp k as) :=
  foldl_offer_kept ho hk (fun b hb => by simp at hb) has isHeap_empty

end Binary

section Least

variable (cmp : A → A → Ordering) (k : Nat) (S : Set A)

/-- What compares as at most `r`. -/
def atMost (r a : A) : Bool := cmp a r != .gt

/-- The heap holds, up to every bound, as many of the elements seen as fit into it, and no
element that `k` others up to it were seen before. -/
structure HoldsLeast (seen heap : List A) : Prop where
  length : heap.length = min k seen.length
  sub : heap.Subperm seen
  count : ∀ r ∈ S, heap.countP (atMost cmp r) = min k (seen.countP (atMost cmp r))
  early : ∀ a ∈ heap, a ∈ (seen.filter (atMost cmp a)).take k

variable {cmp k S}

theorem atMost_eq_true {r a : A} : atMost cmp r a = true ↔ cmp a r ≠ .gt := bne_iff_ne

theorem take_filter_mono {seen more : List A} {p : A → Bool} {a : A}
    (h : a ∈ (seen.filter p).take k) : a ∈ ((seen ++ more).filter p).take k := by
  rw [List.filter_append, List.take_append]
  exact List.mem_append_left _ h

theorem mem_take_filter_snoc {seen : List A} {p : A → Bool} {a : A} (hp : p a = true)
    (hroom : seen.countP p < k) : a ∈ ((seen ++ [a]).filter p).take k := by
  rw [List.countP_eq_length_filter] at hroom
  rw [List.filter_append, List.take_of_length_le, List.filter_cons_of_pos hp]
  · exact List.mem_append_right _ List.mem_cons_self
  · rw [List.length_append, List.filter_cons_of_pos hp]
    exact hroom

theorem subperm_snoc {seen heap : List A} {a : A} (h : heap.Subperm seen) :
    (a :: heap).Subperm (seen ++ [a]) :=
  ((List.subperm_cons a).mpr h).trans (List.perm_append_singleton a seen).symm.subperm

theorem HoldsLeast.nil : HoldsLeast cmp k S [] [] := by
  constructor <;> simp

theorem HoldsLeast.perm {seen heap heap' : List A} (h : HoldsLeast cmp k S seen heap)
    (hperm : heap'.Perm heap) : HoldsLeast cmp k S seen heap' := by
  refine ⟨hperm.length_eq.trans h.length, hperm.subperm.trans h.sub, fun r hr => ?_,
    fun a ha => ?_⟩
  · rw [hperm.countP_eq, h.count r hr]
  · exact h.early a (hperm.mem_iff.mp ha)

/-- Up to a bound that a greatest element is within, the heap is full. -/
theorem HoldsLeast.full (ho : Orders cmp S) {seen heap : List A} {top r : A}
    (h : HoldsLeast cmp k S seen heap) (hS : ∀ b ∈ heap, b ∈ S) (hr : r ∈ S)
    (hfull : k ≤ heap.length) (htop : IsGreatest cmp heap top) (hle : cmp top r ≠ .gt) :
    heap.countP (atMost cmp r) = k ∧ k ≤ seen.countP (atMost cmp r) := by
  have hall : heap.countP (atMost cmp r) = heap.length := by
    rw [List.countP_eq_length]
    intro b hb
    exact atMost_eq_true.mpr (ho.trans b (hS b hb) top (hS top htop.1) r hr (htop.2 b hb) hle)
  have hcount := h.count r hr
  have hlength := h.length
  omega

/-- Below a greatest element, the heap holds all that was seen. -/
theorem HoldsLeast.below {seen heap : List A} {top r : A} (h : HoldsLeast cmp k S seen heap)
    (hr : r ∈ S) (htop : top ∈ heap) (hgt : cmp top r = .gt) :
    heap.countP (atMost cmp r) = seen.countP (atMost cmp r) ∧
      seen.countP (atMost cmp r) < k := by
  have hless : heap.countP (atMost cmp r) < heap.length := by
    refine Nat.lt_of_le_of_ne List.countP_le_length fun heq => ?_
    have := List.countP_eq_length.mp heq top htop
    rw [atMost_eq_true] at this
    exact this hgt
  have hcount := h.count r hr
  have hlength := h.length
  omega

theorem HoldsLeast.push {seen heap : List A} {a : A} (h : HoldsLeast cmp k S seen heap)
    (ho : Orders cmp S) (hroom : heap.length < k) :
    HoldsLeast cmp k S (seen ++ [a]) (a :: heap) := by
  have hlength := h.length
  constructor
  · rw [List.length_cons, List.length_append, List.length_singleton]
    omega
  · exact subperm_snoc h.sub
  · intro r hr
    have hcount := h.count r hr
    have hle : seen.countP (atMost cmp r) ≤ seen.length := List.countP_le_length
    rw [List.countP_cons, List.countP_append, List.countP_singleton]
    split <;> omega
  · intro b hb
    rcases List.mem_cons.mp hb with rfl | hb
    · apply mem_take_filter_snoc (atMost_eq_true.mpr (ho.le_self b))
      have hle : seen.countP (atMost cmp b) ≤ seen.length := List.countP_le_length
      omega
    · exact take_filter_mono (h.early b hb)

theorem HoldsLeast.replace {seen heap rest : List A} {a top : A} (ho : Orders cmp S)
    (h : HoldsLeast cmp k S seen heap) (hS : ∀ b ∈ heap, b ∈ S) (ha : a ∈ S)
    (hfull : k ≤ heap.length) (htop : IsGreatest cmp heap top) (hless : cmp a top = .lt)
    (hpop : heap.Perm (top :: rest)) : HoldsLeast cmp k S (seen ++ [a]) (a :: rest) := by
  have hlength := h.length
  have hrest := hpop.length_eq
  rw [List.length_cons] at hrest
  constructor
  · rw [List.length_cons, List.length_append, List.length_singleton]
    omega
  · apply subperm_snoc
    exact ((List.sublist_cons_self top rest).subperm.trans hpop.symm.subperm).trans h.sub
  · intro r hr
    have hcount := h.count r hr
    have hpopped := hpop.countP_eq (atMost cmp r)
    rw [List.countP_cons] at hpopped
    rw [List.countP_cons, List.countP_append, List.countP_singleton]
    by_cases htopr : atMost cmp r top = true
    · have hle := atMost_eq_true.mp htopr
      have hle' : cmp a r ≠ .gt :=
        ho.trans a ha top (hS top htop.1) r hr (by rw [hless]; exact nofun) hle
      obtain ⟨hcount', hseen⟩ := h.full ho hS hr hfull htop hle
      rw [if_pos htopr] at hpopped
      rw [if_pos (atMost_eq_true.mpr hle')]
      omega
    · have hgt : cmp top r = .gt := not_not.mp (mt atMost_eq_true.mpr htopr)
      obtain ⟨hall, hseen⟩ := h.below hr htop.1 hgt
      rw [if_neg htopr] at hpopped
      split <;> omega
  · intro b hb
    rcases List.mem_cons.mp hb with rfl | hb
    · have hgt : cmp top b = .gt := by rw [ho.swap b top, hless]; rfl
      exact mem_take_filter_snoc (atMost_eq_true.mpr (ho.le_self b)) (h.below ha htop.1 hgt).2
    · exact take_filter_mono (h.early b (hpop.mem_iff.mpr (List.mem_cons_of_mem _ hb)))

theorem HoldsLeast.skip {seen heap : List A} {a top : A} (ho : Orders cmp S)
    (h : HoldsLeast cmp k S seen heap) (hS : ∀ b ∈ heap, b ∈ S) (ha : a ∈ S)
    (hfull : k ≤ heap.length) (htop : IsGreatest cmp heap top) (hnot : cmp a top ≠ .lt) :
    HoldsLeast cmp k S (seen ++ [a]) heap := by
  have hlength := h.length
  have htopa : cmp top a ≠ .gt := by
    rw [ho.swap a top]
    intro hgt
    exact hnot (Ordering.swap_eq_gt.mp hgt)
  constructor
  · rw [List.length_append, List.length_singleton]
    omega
  · exact h.sub.trans (List.sublist_append_left seen [a]).subperm
  · intro r hr
    have hcount := h.count r hr
    rw [List.countP_append, List.countP_singleton]
    split
    · rename_i har
      obtain ⟨hcount', hseen⟩ := h.full ho hS hr hfull htop
        (ho.trans top (hS top htop.1) a ha r hr htopa (atMost_eq_true.mp har))
      omega
    · exact hcount
  · intro b hb
    exact take_filter_mono (h.early b hb)

theorem Offered.holdsLeast {seen heap heap' : List A} {a : A} (ho : Orders cmp S)
    (hoffered : Offered cmp k a heap heap') (h : HoldsLeast cmp k S seen heap)
    (hS : ∀ b ∈ heap, b ∈ S) (ha : a ∈ S) : HoldsLeast cmp k S (seen ++ [a]) heap' := by
  cases hoffered with
  | push hroom hpush => exact (h.push ho hroom).perm hpush
  | replace hfull htop hless hpop hpush =>
    exact (h.replace ho hS ha hfull htop hless hpop).perm hpush
  | skip hfull htop hnot hsame => exact (h.skip ho hS ha hfull htop hnot).perm hsame

/-- Whatever the heap pops, it is left with the least elements. -/
theorem Kept.holdsLeast {as seen heap kept : List A} (ho : Orders cmp S)
    (hkept : Kept cmp k as heap kept) (h : HoldsLeast cmp k S seen heap)
    (hS : ∀ b ∈ heap, b ∈ S) (has : ∀ a ∈ as, a ∈ S) :
    HoldsLeast cmp k S (seen ++ as) kept := by
  induction hkept generalizing seen with
  | nil hperm =>
    rw [List.append_nil]
    exact h.perm hperm
  | @cons a as heap heap' kept hoffered hrest ih =>
    obtain ⟨ha, has⟩ := List.forall_mem_cons.mp has
    rw [List.append_cons]
    exact ih (hoffered.holdsLeast ho h hS ha) (hoffered.forall_mem hS ha) has

end Least

section Survivor

variable {cmp : A → A → Ordering} {k : Nat} {S : Set A}

def lessThan (cmp : A → A → Ordering) (r a : A) : Bool := cmp a r == .lt

theorem exists_greatest (ho : Orders cmp S) {heap : List A} (hS : ∀ b ∈ heap, b ∈ S)
    (hne : heap ≠ []) : ∃ top, IsGreatest cmp heap top := by
  induction heap with
  | nil => exact absurd rfl hne
  | cons a heap ih =>
    obtain ⟨ha, hS⟩ := List.forall_mem_cons.mp hS
    cases heap with
    | nil => exact ⟨a, List.mem_cons_self, by simpa using ho.le_self a⟩
    | cons b heap =>
      obtain ⟨top, htop, hgreatest⟩ := ih hS (List.cons_ne_nil b heap)
      by_cases hle : cmp a top = .gt
      · refine ⟨a, List.mem_cons_self, List.forall_mem_cons.mpr ⟨ho.le_self a, fun c hc => ?_⟩⟩
        exact ho.trans c (hS c hc) top (hS top htop) a ha (hgreatest c hc) (ho.le_of_gt hle)
      · exact ⟨top, List.mem_cons_of_mem _ htop, List.forall_mem_cons.mpr ⟨hle, hgreatest⟩⟩

theorem mem_take_filter_snoc_cases {seen : List A} {p : A → Bool} {a x : A}
    (h : a ∈ ((seen ++ [x]).filter p).take k) :
    a ∈ (seen.filter p).take k ∨ a = x ∧ seen.countP p < k := by
  rw [List.filter_append, List.take_append, List.mem_append] at h
  refine h.imp_right fun h => ?_
  rw [List.countP_eq_length_filter]
  have hlength := List.length_pos_of_mem h
  rw [List.length_take] at hlength
  exact ⟨List.mem_singleton.mp (List.mem_of_mem_filter (List.mem_of_mem_take h)), by omega⟩

theorem exists_perm_cons {a : A} {as : List A} (h : a ∈ as) : ∃ rest, as.Perm (a :: rest) := by
  obtain ⟨front, back, rfl⟩ := List.append_of_mem h
  exact ⟨front ++ back, List.perm_middle⟩

/-- Less than one greatest element is less than each. -/
theorem IsGreatest.lt (ho : Orders cmp S) {heap : List A} {x top top' : A}
    (hS : ∀ b ∈ heap, b ∈ S) (hx : x ∈ S) (htop : IsGreatest cmp heap top)
    (htop' : IsGreatest cmp heap top') (hless : cmp x top = .lt) : cmp x top' = .lt := by
  by_contra hnot
  have hle : cmp top' x ≠ .gt := by
    rw [ho.swap x top']
    exact fun hgt => hnot (Ordering.swap_eq_gt.mp hgt)
  apply ho.trans top (hS top htop.1) top' (hS top' htop'.1) x hx (htop'.2 top htop.1) hle
  rw [ho.swap x top, hless]
  rfl

/-- A full heap can keep an element that fewer than `k` others are less than. -/
theorem exists_replace (ho : Orders cmp S) {seen heap : List A} {a x top : A}
    (h : HoldsLeast cmp k S seen heap) (hS : ∀ b ∈ heap, b ∈ S) (hx : x ∈ S)
    (hfull : k ≤ heap.length) (htop : IsGreatest cmp heap top) (hless : cmp x top = .lt)
    (hfew : (seen ++ [x]).countP (lessThan cmp a) < k) :
    ∃ heap', Offered cmp k x heap heap' ∧ (a ∈ heap ∨ a = x → a ∈ heap') := by
  by_cases ha : a ∈ heap
  · by_cases hother : ∃ top', IsGreatest cmp heap top' ∧ top' ≠ a
    · obtain ⟨top', htop', hne⟩ := hother
      obtain ⟨rest, hpop⟩ := exists_perm_cons htop'.1
      refine ⟨x :: rest, .replace hfull htop' (htop.lt ho hS hx htop' hless) hpop (.refl _),
        fun _ => ?_⟩
      rcases List.mem_cons.mp (hpop.mem_iff.mp ha) with heq | hmem
      · exact absurd heq.symm hne
      · exact List.mem_cons_of_mem _ hmem
    · -- the other elements are then less than `a`, and there are too many of them
      obtain rfl : top = a := not_not.mp fun hne => hother ⟨top, htop, hne⟩
      obtain ⟨rest, hpop⟩ := exists_perm_cons htop.1
      refine ⟨x :: rest, .replace hfull htop hless hpop (.refl _), fun _ => ?_⟩
      by_contra hnot
      have hrest : ∀ b ∈ x :: rest, lessThan cmp top b = true := by
        refine List.forall_mem_cons.mpr ⟨beq_iff_eq.mpr hless, fun b hb => beq_iff_eq.mpr ?_⟩
        have hbheap : b ∈ heap := hpop.mem_iff.mpr (List.mem_cons_of_mem _ hb)
        cases hcmp : cmp b top with
        | lt => rfl
        | gt => exact absurd hcmp (htop.2 b hbheap)
        | eq =>
          refine absurd ⟨b, ⟨hbheap, fun c hc => ?_⟩, ?_⟩ hother
          · refine ho.trans c (hS c hc) top (hS top htop.1) b (hS b hbheap) (htop.2 c hc) ?_
            rw [ho.swap b top, hcmp]
            exact nofun
          · rintro rfl
            exact hnot (List.mem_cons_of_mem _ hb)
      have hsub : (x :: rest).Subperm (seen ++ [x]) :=
        (h.replace ho hS hx hfull htop hless hpop).sub
      have hcount := hsub.countP_le (lessThan cmp top)
      rw [List.countP_eq_length.mpr hrest, List.length_cons] at hcount
      have hlength := hpop.length_eq
      rw [List.length_cons] at hlength
      omega
  · obtain ⟨rest, hpop⟩ := exists_perm_cons htop.1
    refine ⟨x :: rest, .replace hfull htop hless hpop (.refl _), ?_⟩
    rintro (hmem | rfl)
    · exact absurd hmem ha
    · exact List.mem_cons_self

theorem exists_offered (ho : Orders cmp S) (hk : 0 < k) {seen heap : List A} {a x : A}
    (h : HoldsLeast cmp k S seen heap) (hS : ∀ b ∈ heap, b ∈ S) (hx : x ∈ S)
    (hfew : (seen ++ [x]).countP (lessThan cmp a) < k)
    (ha : a ∈ (seen.filter (atMost cmp a)).take k → a ∈ heap) :
    ∃ heap', Offered cmp k x heap heap' ∧
      (a ∈ ((seen ++ [x]).filter (atMost cmp a)).take k → a ∈ heap') := by
  rcases Nat.lt_or_ge heap.length k with hroom | hfull
  · refine ⟨x :: heap, .push hroom (.refl _), fun hmem => ?_⟩
    rcases mem_take_filter_snoc_cases hmem with hmem | ⟨rfl, -⟩
    · exact List.mem_cons_of_mem _ (ha hmem)
    · exact List.mem_cons_self
  · have hpos : 0 < heap.length := Nat.lt_of_lt_of_le hk hfull
    obtain ⟨top, htop⟩ := exists_greatest ho hS (List.ne_nil_of_length_pos hpos)
    by_cases hless : cmp x top = .lt
    · obtain ⟨heap', hoffered, hkeep⟩ := exists_replace ho h hS hx hfull htop hless hfew
      refine ⟨heap', hoffered, fun hmem => hkeep ?_⟩
      exact (mem_take_filter_snoc_cases hmem).imp ha fun hlast => hlast.1
    · refine ⟨heap, .skip hfull htop hless (.refl _), fun hmem => ?_⟩
      rcases mem_take_filter_snoc_cases hmem with hmem | ⟨rfl, hroom⟩
      · exact ha hmem
      · -- with room for one more up to `a`, the greatest element is greater than `a`
        exfalso
        by_cases hle : cmp top a = .gt
        · exact hless (by rw [ho.swap top a, hle]; rfl)
        · have := (h.full ho hS hx hfull htop hle).2
          omega

/-- A heap can keep any element that fewer than `k` others are less than and that is among the
first `k` up to it. -/
theorem exists_kept_mem (ho : Orders cmp S) (hk : 0 < k) {as seen heap : List A} {a : A}
    (h : HoldsLeast cmp k S seen heap) (hS : ∀ b ∈ heap, b ∈ S) (has : ∀ b ∈ as, b ∈ S)
    (hfew : (seen ++ as).countP (lessThan cmp a) < k)
    (ha : a ∈ (seen.filter (atMost cmp a)).take k → a ∈ heap) :
    ∃ kept, Kept cmp k as heap kept ∧
      (a ∈ ((seen ++ as).filter (atMost cmp a)).take k → a ∈ kept) := by
  induction as generalizing seen heap with
  | nil =>
    rw [List.append_nil]
    exact ⟨heap, .nil (.refl _), ha⟩
  | cons x as ih =>
    obtain ⟨hx, has⟩ := List.forall_mem_cons.mp has
    rw [List.append_cons] at hfew ⊢
    have hfirst : (seen ++ [x]).countP (lessThan cmp a) < k := by
      rw [List.countP_append] at hfew
      omega
    obtain ⟨heap', hoffered, ha'⟩ := exists_offered ho hk h hS hx hfirst ha
    obtain ⟨kept, hkept, hmem⟩ := ih (hoffered.holdsLeast ho h hS hx) (hoffered.forall_mem hS hx)
      has hfew ha'
    exact ⟨kept, .cons hoffered hkept, hmem⟩

end Survivor

section Window

variable {cmp : A → A → Ordering} {k : Nat} {S : Set A}

def sort (cmp : A → A → Ordering) (as : List A) : List A := as.mergeSort fun a b => cmp a b != .gt

theorem sort_perm (as : List A) : (sort cmp as).Perm as := List.mergeSort_perm as _

theorem sort_pairwise (ho : Orders cmp S) {as : List A} (has : ∀ a ∈ as, a ∈ S) :
    (sort cmp as).Pairwise fun a b => cmp a b ≠ .gt := by
  refine (Sort.pairwise_mergeSort_of_mem ?_ ?_).imp bne_iff_ne.mp
  · intro a ha b hb c hc hab hbc
    rw [bne_iff_ne] at hab hbc ⊢
    exact ho.trans a (has a ha) b (has b hb) c (has c hc) hab hbc
  · intro a b
    rw [ho.swap a b]
    cases cmp a b <;> rfl

/-- In a sorted list, the elements up to a bound come first. -/
theorem lt_countP_iff {as : List A} {p : A → Bool}
    (hdown : as.Pairwise fun a b => p b = true → p a = true) {i : Nat} (hi : i < as.length) :
    p as[i] = true ↔ i < as.countP p := by
  induction as generalizing i with
  | nil => exact absurd hi (Nat.not_lt_zero i)
  | cons a as ih =>
    obtain ⟨hfirst, hdown⟩ := List.pairwise_cons.mp hdown
    by_cases ha : p a = true
    · rw [List.countP_cons_of_pos ha]
      cases i with
      | zero => simp [ha]
      | succ i => simpa using ih hdown (Nat.lt_of_succ_lt_succ hi)
    · have hnone : ∀ b ∈ a :: as, ¬ p b = true :=
        List.forall_mem_cons.mpr ⟨ha, fun b hb hpb => ha (hfirst b hb hpb)⟩
      rw [List.countP_eq_zero.mpr hnone]
      simpa using hnone _ (List.getElem_mem hi)

theorem atMost_getElem_iff (ho : Orders cmp S) {as : List A} (has : ∀ a ∈ as, a ∈ S)
    (hsorted : as.Pairwise fun a b => cmp a b ≠ .gt) {r : A} (hr : r ∈ S) {i : Nat}
    (hi : i < as.length) : cmp as[i] r ≠ .gt ↔ i < as.countP (atMost cmp r) := by
  rw [← lt_countP_iff _ hi, atMost_eq_true]
  refine hsorted.imp_of_mem fun {a b} ha hb hab hbr => ?_
  rw [atMost_eq_true] at hbr ⊢
  exact ho.trans a (has a ha) b (has b hb) r hr hab hbr

theorem lessThan_getElem_iff (ho : Orders cmp S) {as : List A} (has : ∀ a ∈ as, a ∈ S)
    (hsorted : as.Pairwise fun a b => cmp a b ≠ .gt) {r : A} (hr : r ∈ S) {i : Nat}
    (hi : i < as.length) : cmp as[i] r = .lt ↔ i < as.countP (lessThan cmp r) := by
  rw [← lt_countP_iff _ hi, lessThan, beq_iff_eq]
  refine hsorted.imp_of_mem fun {a b} ha hb hab hbr => ?_
  rw [lessThan, beq_iff_eq] at hbr ⊢
  by_contra hnot
  have hle : cmp r a ≠ .gt := by
    rw [ho.swap a r]
    exact fun hgt => hnot (Ordering.swap_eq_gt.mp hgt)
  apply ho.trans r hr a (has a ha) b (has b hb) hle hab
  rw [ho.swap b r, hbr]
  rfl

/-- Sorted, the elements that were kept compare like the first of all elements, one by one. -/
theorem cmp_sort_kept (ho : Orders cmp S) {as kept : List A} (has : ∀ a ∈ as, a ∈ S)
    (h : HoldsLeast cmp k S as kept) {i : Nat} (hi : i < (sort cmp kept).length)
    (hi' : i < (sort cmp as).length) : cmp (sort cmp kept)[i] (sort cmp as)[i] = .eq := by
  have hkept : ∀ a ∈ kept, a ∈ S := fun a ha => has a (h.sub.subset ha)
  have hSkept : ∀ a ∈ sort cmp kept, a ∈ S := fun a ha => hkept a ((sort_perm kept).mem_iff.mp ha)
  have hSas : ∀ a ∈ sort cmp as, a ∈ S := fun a ha => has a ((sort_perm as).mem_iff.mp ha)
  have hik : i < k := by
    have hlength := h.length
    rw [(sort_perm kept).length_eq] at hi
    omega
  have hiff : ∀ r ∈ S, cmp (sort cmp kept)[i] r ≠ .gt ↔ cmp (sort cmp as)[i] r ≠ .gt := by
    intro r hr
    rw [atMost_getElem_iff ho hSkept (sort_pairwise ho hkept) hr hi,
      atMost_getElem_iff ho hSas (sort_pairwise ho has) hr hi', (sort_perm kept).countP_eq,
      (sort_perm as).countP_eq, h.count r hr]
    omega
  have hle := (hiff _ (hSas _ (List.getElem_mem hi'))).mpr (ho.le_self _)
  have hge := (hiff _ (hSkept _ (List.getElem_mem hi))).mp (ho.le_self _)
  rw [ho.swap] at hge
  cases hcmp : cmp (sort cmp kept)[i] (sort cmp as)[i] with
  | eq => rfl
  | gt => exact absurd hcmp hle
  | lt => exact absurd (congrArg Ordering.swap hcmp) hge

theorem Kept.perm {as heap kept kept' : List A} (h : Kept cmp k as heap kept)
    (hperm : kept'.Perm kept) : Kept cmp k as heap kept' := by
  induction h with
  | nil h => exact .nil (hperm.trans h)
  | cons hoffered _ ih => exact .cons hoffered (ih hperm)

theorem sort_of_pairwise {as : List A} (h : as.Pairwise fun a b => cmp a b ≠ .gt) :
    sort cmp as = as := List.mergeSort_of_pairwise (h.imp bne_iff_ne.mpr)

theorem pairwise_insert {R : A → A → Prop} {as : List A} {a : A} {i : Nat} (h : as.Pairwise R)
    (hbefore : ∀ b ∈ as.take i, R b a) (hafter : ∀ b ∈ as.drop i, R a b) :
    (as.take i ++ a :: as.drop i).Pairwise R := by
  rw [← List.take_append_drop i as, List.pairwise_append] at h
  obtain ⟨hfront, hback, hacross⟩ := h
  refine List.pairwise_append.mpr ⟨hfront, List.pairwise_cons.mpr ⟨hafter, hback⟩, ?_⟩
  intro b hb c hc
  rcases List.mem_cons.mp hc with rfl | hc
  · exact hbefore b hb
  · exact hacross b hb c hc

/-- An element can be put so that sorting leaves it at any place among its equals. -/
theorem exists_placed (ho : Orders cmp S) {rest : List A} (hrest : ∀ b ∈ rest, b ∈ S) {a : A}
    (ha : a ∈ S) {i : Nat} (hlow : rest.countP (lessThan cmp a) ≤ i)
    (hhigh : i ≤ rest.countP (atMost cmp a)) :
    ∃ placed, placed.Perm (a :: rest) ∧ (sort cmp placed)[i]? = some a := by
  have hS : ∀ b ∈ sort cmp rest, b ∈ S := fun b hb => hrest b ((sort_perm rest).mem_iff.mp hb)
  have hsorted := sort_pairwise ho hrest
  have hbefore : ∀ b ∈ (sort cmp rest).take i, cmp b a ≠ .gt := by
    intro b hb
    obtain ⟨j, hj, rfl⟩ := List.getElem_of_mem hb
    rw [List.length_take] at hj
    rw [List.getElem_take, atMost_getElem_iff ho hS hsorted ha, (sort_perm rest).countP_eq]
    omega
  have hafter : ∀ b ∈ (sort cmp rest).drop i, cmp a b ≠ .gt := by
    intro b hb
    obtain ⟨j, hj, rfl⟩ := List.getElem_of_mem hb
    rw [List.length_drop] at hj
    rw [List.getElem_drop, ho.swap, ne_eq, Ordering.swap_eq_gt,
      lessThan_getElem_iff ho hS hsorted ha, (sort_perm rest).countP_eq]
    omega
  have hlength : ((sort cmp rest).take i).length = i := by
    have hle : rest.countP (atMost cmp a) ≤ rest.length := List.countP_le_length
    rw [List.length_take, (sort_perm rest).length_eq]
    omega
  refine ⟨(sort cmp rest).take i ++ a :: (sort cmp rest).drop i, ?_, ?_⟩
  · refine List.perm_middle.trans (List.Perm.cons a ?_)
    rw [List.take_append_drop]
    exact sort_perm rest
  · rw [sort_of_pairwise (pairwise_insert hsorted hbefore hafter),
      List.getElem?_append_right (Nat.le_of_eq hlength), hlength, Nat.sub_self]
    rfl

/-- An element can be kept at any place that its equals take. -/
theorem exists_kept_getElem (ho : Orders cmp S) (hk : 0 < k) {as : List A}
    (has : ∀ a ∈ as, a ∈ S) {a : A} {i : Nat} (ha : a ∈ (as.filter (atMost cmp a)).take k)
    (hik : i < k) (hi : i < (sort cmp as).length) (heq : cmp (sort cmp as)[i] a = .eq) :
    ∃ kept, Kept cmp k as [] kept ∧ (sort cmp kept)[i]? = some a := by
  have haS : a ∈ S := has a (List.mem_of_mem_filter (List.mem_of_mem_take ha))
  have hS : ∀ b ∈ sort cmp as, b ∈ S := fun b hb => has b ((sort_perm as).mem_iff.mp hb)
  have hmost : i < as.countP (atMost cmp a) := by
    rw [← (sort_perm as).countP_eq,
      ← atMost_getElem_iff ho hS (sort_pairwise ho has) haS hi, heq]
    exact nofun
  have hless : as.countP (lessThan cmp a) ≤ i := by
    rw [← Nat.not_lt, ← (sort_perm as).countP_eq,
      ← lessThan_getElem_iff ho hS (sort_pairwise ho has) haS hi, heq]
    exact nofun
  have hfew : ([] ++ as).countP (lessThan cmp a) < k := Nat.lt_of_le_of_lt hless hik
  obtain ⟨kept, hkept, hmem⟩ := exists_kept_mem ho hk HoldsLeast.nil (by simp) has hfew
    (fun hnil => by simp at hnil)
  have hleast := hkept.holdsLeast ho HoldsLeast.nil (by simp) has
  obtain ⟨rest, hperm⟩ := exists_perm_cons (hmem ha)
  have hrest : ∀ b ∈ rest, b ∈ S := fun b hb =>
    has b (hleast.sub.subset (hperm.mem_iff.mpr (List.mem_cons_of_mem _ hb)))
  have hcount := hperm.countP_eq (atMost cmp a)
  rw [List.countP_cons_of_pos (atMost_eq_true.mpr (ho.le_self a)), hleast.count a haS,
    List.nil_append] at hcount
  have hlow := hleast.sub.countP_le (lessThan cmp a)
  rw [hperm.countP_eq, List.countP_cons, List.nil_append] at hlow
  obtain ⟨placed, hplaced, hget⟩ := exists_placed ho hrest haS (i := i) (by omega) (by omega)
  exact ⟨placed, hkept.perm (hplaced.trans hperm.symm), hget⟩

/-- Elements that compare alike have the same elements up to them. -/
theorem atMost_congr (ho : Orders cmp S) {a r b : A} (ha : a ∈ S) (hr : r ∈ S) (hb : b ∈ S)
    (heq : cmp a r = .eq) : atMost cmp a b = atMost cmp r b := by
  have heq' : cmp r a = .eq := by rw [ho.swap a r, heq]; rfl
  rw [Bool.eq_iff_iff, atMost_eq_true, atMost_eq_true]
  constructor
  · exact fun hle => ho.trans b hb a ha r hr hle (by rw [heq]; exact nofun)
  · exact fun hle => ho.trans b hb r hr a ha hle (by rw [heq']; exact nofun)

/-- The page after `offset` elements, of a sorted list. -/
def page (limit offset : Nat) (as : List A) : List A := (as.drop offset).take limit

/-- The page does not depend on what the heap does, just when no element of it compares like
another one that the heap may keep. -/
theorem page_kept_iff (ho : Orders cmp S) {as : List A} (has : ∀ a ∈ as, a ∈ S)
    {limit offset : Nat} (hk : 0 < limit + offset) (hlength : limit + offset ≤ as.length) :
    (∀ kept, Kept cmp (limit + offset) as [] kept →
        page limit offset (sort cmp kept) = page limit offset (sort cmp as)) ↔
      ∀ r ∈ page limit offset (sort cmp as),
        ∀ a ∈ (as.filter (atMost cmp r)).take (limit + offset), cmp a r = .eq → a = r := by
  have hsize := (@sort_perm _ cmp as).length_eq
  constructor
  · intro hagree r hr a ha heq
    obtain ⟨j, hj, rfl⟩ := List.getElem_of_mem hr
    have hpage := hj
    rw [page, List.length_take, List.length_drop, hsize] at hj
    simp only [page, List.getElem_take, List.getElem_drop] at ha heq ⊢
    have hmem : ∀ {i} (hi : i < (sort cmp as).length), (sort cmp as)[i] ∈ S := fun hi =>
      has _ ((sort_perm as).mem_iff.mp (List.getElem_mem hi))
    have haS : a ∈ S := has a (List.mem_of_mem_filter (List.mem_of_mem_take ha))
    have hrefilter : as.filter (atMost cmp a) =
        as.filter (atMost cmp ((sort cmp as)[offset + j])) :=
      List.filter_congr fun b hb => atMost_congr ho haS (hmem _) (has b hb) heq
    rw [← hrefilter] at ha
    have heq' : cmp (sort cmp as)[offset + j] a = .eq := by rw [ho.swap a, heq]; rfl
    obtain ⟨kept, hkept, hget⟩ := exists_kept_getElem ho hk has ha (by omega) _ heq'
    have hsame := congrArg (·[j]?) (hagree kept hkept)
    simp only [page, List.getElem?_take, List.getElem?_drop, hget] at hsame
    rw [if_pos (by omega), if_pos (by omega), List.getElem?_eq_getElem (by omega)] at hsame
    exact Option.some.inj hsame
  · intro hsettled kept hkept
    have hleast := hkept.holdsLeast ho HoldsLeast.nil (by simp) has
    rw [List.nil_append] at hleast
    have hsize' := (@sort_perm _ cmp kept).length_eq
    have hkeptLength := hleast.length
    apply List.ext_getElem
    · rw [page, page, List.length_take, List.length_take, List.length_drop, List.length_drop]
      omega
    · intro j hj hj'
      have hpage := List.getElem_mem hj'
      simp only [page, List.length_take, List.length_drop] at hj hj'
      simp only [page, List.getElem_take, List.getElem_drop] at hpage ⊢
      have hi : offset + j < (sort cmp kept).length := by omega
      have hi' : offset + j < (sort cmp as).length := by omega
      have heq := cmp_sort_kept ho has hleast hi hi'
      have hmem := (sort_perm kept).mem_iff.mp (List.getElem_mem hi)
      refine hsettled _ hpage _ ?_ heq
      have hrefilter : as.filter (atMost cmp (sort cmp kept)[offset + j]) =
          as.filter (atMost cmp (sort cmp as)[offset + j]) :=
        List.filter_congr fun b hb => atMost_congr ho (has _ (hleast.sub.subset hmem))
          (has _ ((sort_perm as).mem_iff.mp (List.getElem_mem hi'))) (has b hb) heq
      rw [← hrefilter]
      exact hleast.early _ hmem

end Window

end Cynos.TopK
