import Cynos.Index.Rebalance
import Cynos.Index.Promote

/-! Underflow repair of internal nodes, up to the root. -/
namespace Cynos.Index

open BTreeIndex

variable {K : Type}

section Stack

variable {N N' : NodeId → Node K} {order : Nat} {light light' : Option NodeId} {root : NodeId}
  {u v A B ms ms' : Level K} {p : WithBot K × NodeId} {ups : List (Level K)}

/-- Below one parent `p` the neighbours `ms` are replaced by `ms'`. -/
theorem Stack.relink
    (h : Stack N order light root (expand N u ++ (A ++ ms ++ B) ++ expand N v)
      ((u ++ p :: v) :: ups))
    (hslots : slots p.1 (N p.2) = A ++ ms ++ B) (hslots' : slots p.1 (N' p.2) = A ++ ms' ++ B)
    (hint : (N' p.2).Internal (minKeysOf light' p.2) order)
    (hkeep : ∀ id ∈ (u ++ v).ids ++ levelIds ups,
      SameShape (N' id) (N id) ∧ minKeysOf light' id ≤ minKeysOf light id)
    (hparent : ∀ id ∈ (expand N u ++ (A ++ B) ++ expand N v).ids ++
      ((u ++ p :: v).ids ++ levelIds ups), (N' id).parent = (N id).parent)
    (hms' : ∀ e ∈ ms', (N' e.2).parent = some p.2) :
    Stack N' order light' root (expand N u ++ (A ++ ms' ++ B) ++ expand N v)
      ((u ++ p :: v) :: ups) := by
  obtain ⟨hlink, hrest⟩ := h
  have hp : p ∈ u ++ p :: v := by simp
  have har := (hlink.internal p hp).arity
  have hlink' : Link N (minKeysOf light) (fun _ => order) (u ++ [p] ++ v)
      (expand N u ++ (A ++ ms ++ B) ++ expand N v) := by simpa using hlink
  have hmem : ∀ e ∈ u ++ v, e.2 ∈ (u ++ v).ids ++ levelIds ups :=
    fun e he => List.mem_append_left _ (Level.mem_ids he)
  refine ⟨?_, hrest.congr (fun id hid => (hkeep id (List.mem_append_right _ hid)).1)
    (fun id hid => (hkeep id (List.mem_append_right _ hid)).2)
    fun id hid => hparent id (List.mem_append_right _ hid)⟩
  have : Link N' (minKeysOf light') (fun _ => order) (u ++ [p] ++ v) _ := hlink'.replace
    (fun e he => (hkeep e.2 (hmem e he)).1)
    (fun e he => (hkeep e.2 (hmem e he)).2) (fun _ _ => le_refl _) ?_ ?_ ?_
  · simpa [hslots'] using this
  · intro e he c hc
    refine hparent c (List.mem_append_left _ ?_)
    have hc' : c ∈ (slots e.1 (N e.2)).ids := by
      rwa [slots_map_snd _ (hlink.internal e (mem_insert_middle he)).arity]
    have hexp : ∀ l : Level K, e ∈ l → c ∈ (expand N l).ids := by
      intro l hl
      rw [expand, Level.ids, List.map_flatMap]
      exact List.mem_flatMap.mpr ⟨e, hl, hc'⟩
    rw [Level.ids_append, Level.ids_append, List.mem_append, List.mem_append]
    rcases List.mem_append.mp he with he | he
    · exact .inl (.inl (hexp u he))
    · exact .inr (hexp v he)
  · intro e he
    obtain rfl := List.mem_singleton.mp he
    exact hint
  · intro e he c hc
    obtain rfl := List.mem_singleton.mp he
    rw [← slots_map_snd e.1 hint.arity, hslots', Level.ids_append, Level.ids_append,
      List.mem_append, List.mem_append] at hc
    have hold : ∀ c, c ∈ A.ids ∨ c ∈ B.ids → (N' c).parent = some e.2 := by
      intro c hc
      rw [hparent c]
      · refine hlink.parents e hp c ?_
        rw [← slots_map_snd e.1 har, hslots]
        simp only [Level.ids_append, List.mem_append]
        tauto
      · simp only [Level.ids_append, List.mem_append]
        tauto
    rcases hc with (hc | hc) | hc
    · exact hold c (.inl hc)
    · obtain ⟨f, hf, rfl⟩ := List.mem_map.mp hc
      exact hms' f hf
    · exact hold c (.inr hc)

/-- The light node is not in this level. -/
theorem Link.heal {id : NodeId} {up down : Level K} {maxKeys : NodeId → Nat}
    (h : Link N (minKeysOf (some id)) maxKeys up down) (hne : ∀ e ∈ up, e.2 ≠ id) :
    Link N (minKeysOf none) maxKeys up down :=
  ⟨h.expands, fun e he => by
    have := h.internal e he
    rwa [minKeysOf_of_ne (hne e he).symm] at this, h.parents⟩

/-- A light node that kept a key is none any more. -/
theorem Stack.heal {id : NodeId} {down : Level K}
    (h : Stack N order (some id) root down ups) (hkeys : 1 ≤ (N id).keys.length) :
    Stack N order none root down ups := by
  induction ups generalizing down with
  | nil => exact h
  | cons up ups ih =>
    obtain ⟨hlink, hrest⟩ := h
    refine ⟨⟨hlink.expands, fun e he => ?_, hlink.parents⟩, ih hrest⟩
    obtain ⟨hleaf, har, hlow, hup⟩ := hlink.internal e he
    refine ⟨hleaf, har, ?_, hup⟩
    by_cases hid : id = e.2
    · simpa [hid] using hkeys
    · simpa [minKeysOf_of_ne hid] using hlow

end Stack

section Step

variable {t : BTreeIndex K} {minKeys : NodeId → Nat} {order : Nat} {u v A B : Level K}
  {p e : WithBot K × NodeId}

/-- One round of the repair, up to the operation it chooses. -/
theorem handleUnderflow_step {down : Level K} {maxKeys : NodeId → Nat}
    (hlink : Link t.nodeAt minKeys maxKeys (u ++ p :: v) down)
    (hslots : slots p.1 (t.nodeAt p.2) = A ++ e :: B) (hkeys : 1 ≤ (t.nodeAt p.2).keys.length)
    (hnodup : (t.nodeAt p.2).children.Nodup) (hp : p.2 < t.arena.length)
    (hids : ∀ c ∈ (t.nodeAt p.2).children, c < t.arena.length)
    (hpoor : (t.nodeAt e.2).keys.length < (t.order - 1) / 2) (fuel : Nat) :
    ∃ repair, Chosen t ((t.order - 1) / 2) A B repair ∧
      handleUnderflow (fuel + 1) t e.2 = match repair with
        | .borrowLeft left => t.borrowFromLeft e.2 left p.2 A.length
        | .borrowRight right => t.borrowFromRight e.2 right p.2 A.length
        | .mergeLeft left => do
          let t ← t.mergeNodes left e.2 p.2 (A.length - 1)
          handleUnderflow.afterMerge fuel t left p.2
        | .mergeRight right => do
          let t ← t.mergeNodes e.2 right p.2 A.length
          handleUnderflow.afterMerge fuel t e.2 p.2
        | .nothing => some t := by
  have har := (hlink.internal p (by simp)).arity
  have hchildren : (t.nodeAt p.2).children = A.ids ++ e.2 :: B.ids := by
    rw [← slots_map_snd p.1 har, hslots]
    simp
  have hmem : e.2 ∈ (t.nodeAt p.2).children := by simp [hchildren]
  have hidx : (t.nodeAt p.2).children.idxOf? e.2 = some A.length := by
    rw [hchildren] at hnodup ⊢
    have hnot : e.2 ∉ A.ids := fun h => List.disjoint_of_nodup_append hnodup h (by simp)
    simpa [Level.ids] using Vec.idxOf?_append hnot
  obtain ⟨repair, hchoose, hchosen⟩ := chooseRepair_eq ((t.order - 1) / 2) har hkeys
    hslots hids
  refine ⟨repair, hchosen, ?_⟩
  rw [handleUnderflow, node_eq (hids e.2 hmem)]
  simp only [Option.bind_eq_bind, Option.bind_some, hlink.parents p (by simp) e.2 hmem]
  rw [if_neg (show ¬ (t.nodeAt e.2).keyCount ≥ _ from not_le.mpr hpoor), node_eq hp]
  simp only [Option.bind_some, hidx, hchoose] <;> rfl

end Step

section Rebalance

variable {t t' : BTreeIndex K} {light : NodeId} {light' : Option NodeId} {u v A B ms ms' : Level K}
  {p : WithBot K × NodeId} {ups : List (Level K)} {below : Level K}

/-- Two neighbours trade children, or become one. -/
theorem Stack.rebalance {left right owner : NodeId} {pNode leftNode rightNode : Node K}
    {moved : List NodeId}
    (h : Stack t.nodeAt t.order (some light) t.root below
      ((expand t.nodeAt u ++ (A ++ ms ++ B) ++ expand t.nodeAt v) :: (u ++ p :: v) :: ups))
    (light' : Option NodeId) (ms' : Level K) (hd : Distinct t.arena.length (below ::
      (expand t.nodeAt u ++ (A ++ ms ++ B) ++ expand t.nodeAt v) :: (u ++ p :: v) :: ups))
    (hslots : slots p.1 (t.nodeAt p.2) = A ++ ms ++ B)
    (hr : Rebalanced t t' p.2 left right pNode leftNode rightNode moved (setParent (some owner)))
    (hms : ∀ id, id ∈ ms.ids ↔ id = left ∨ id = right) (hlight : light ∈ ms.ids)
    (hmoved : ∀ c ∈ moved, ∃ e ∈ ms, c ∈ (t.nodeAt e.2).children)
    (hslots' : slots p.1 (t'.nodeAt p.2) = A ++ ms' ++ B)
    (hexpand : expand t'.nodeAt ms' = expand t.nodeAt ms)
    (hinternal : ∀ e ∈ ms', (t'.nodeAt e.2).Internal 1 t.order)
    (hpInternal : (t'.nodeAt p.2).Internal (minKeysOf light' p.2) t.order)
    (hpParent : (t'.nodeAt p.2).parent = (t.nodeAt p.2).parent)
    (hmsParent : ∀ e ∈ ms', (t'.nodeAt e.2).parent = some p.2)
    (hown : ∀ e ∈ ms', ∀ c ∈ (t'.nodeAt e.2).children, (t'.nodeAt c).parent = some e.2)
    (hlight' : light' = none ∨ light' = some p.2) (hms' : ∀ e ∈ ms', e.2 ∈ ms.ids) :
    Stack t'.nodeAt t.order light' t'.root below
      ((expand t.nodeAt u ++ (A ++ ms' ++ B) ++ expand t.nodeAt v) :: (u ++ p :: v) :: ups) ∧
    Frame t t' below
      ((expand t.nodeAt u ++ (A ++ ms ++ B) ++ expand t.nodeAt v) :: (u ++ p :: v) :: ups) := by
  obtain ⟨hlink, hrest⟩ := h
  have hlevIds : ∀ id, id ∈ (expand t.nodeAt u ++ (A ++ ms ++ B) ++ expand t.nodeAt v).ids ↔
      id ∈ ms.ids ∨ id ∈ (expand t.nodeAt u ++ (A ++ B) ++ expand t.nodeAt v).ids := by
    intro id
    simp only [Level.ids_append, List.mem_append]
    tauto
  have hmem : ∀ e ∈ ms, e ∈ expand t.nodeAt u ++ (A ++ ms ++ B) ++ expand t.nodeAt v := by
    intro e he
    simp [he]
  have hmovedBelow : ∀ c ∈ moved, c ∈ below.ids := by
    intro c hc
    obtain ⟨e, he, hce⟩ := hmoved c hc
    exact hlink.mem_down (hmem e he) hce
  -- the neighbours of `ms` are other nodes
  have hapart : ∀ id ∈ (expand t.nodeAt u ++ (A ++ B) ++ expand t.nodeAt v).ids, id ∉ ms.ids := by
    have hn := hd.tail.nodup
    rw [levelIds_cons] at hn
    have hn := hn.of_append_left
    have hperm : (expand t.nodeAt u ++ (A ++ ms ++ B) ++ expand t.nodeAt v).ids.Perm
        (ms.ids ++ (expand t.nodeAt u ++ (A ++ B) ++ expand t.nodeAt v).ids) := by
      simp only [Level.ids_append, List.append_assoc]
      refine (List.Perm.append_left _ (List.perm_append_comm_assoc _ _ _)).trans ?_
      exact List.perm_append_comm_assoc _ _ _
    have := List.disjoint_of_nodup_append (hperm.nodup_iff.mp hn)
    exact fun id hid hmem => this hmem hid
  have hlev : ∀ id ∈ (expand t.nodeAt u ++ (A ++ ms ++ B) ++ expand t.nodeAt v).ids,
      id ∉ below.ids ∧ id ∉ levelIds ((u ++ p :: v) :: ups) := fun id hid =>
    ⟨fun hb => hd.notMem_above hb (mem_levelIds_cons.mpr (.inl hid)), hd.tail.notMem_above hid⟩
  have hup : ∀ id ∈ levelIds ((u ++ p :: v) :: ups),
      id ∉ below.ids ∧ id ∉ (expand t.nodeAt u ++ (A ++ ms ++ B) ++ expand t.nodeAt v).ids :=
    fun id hid => ⟨fun hb => hd.notMem_above hb (mem_levelIds_cons.mpr (.inr hid)),
      fun hl => hd.tail.notMem_above hl hid⟩
  obtain ⟨hpne, hpups⟩ := hd.tail.tail.middle_notMem
  have hpup : p.2 ∈ levelIds ((u ++ p :: v) :: ups) :=
    mem_levelIds_cons.mpr (.inl (Level.mem_ids (by simp)))
  have hsame : ∀ id, id ≠ p.2 → id ∉ ms.ids → id ∉ below.ids → t'.nodeAt id = t.nodeAt id := by
    intro id h1 h2 h3
    rw [hms, not_or] at h2
    exact hr.other id h1 h2.1 h2.2 fun hm => h3 (hmovedBelow id hm)
  have hside : ∀ id ∈ (expand t.nodeAt u ++ (A ++ B) ++ expand t.nodeAt v).ids,
      t'.nodeAt id = t.nodeAt id := by
    intro id hid
    have hid' := (hlevIds id).mpr (.inr hid)
    exact hsame id (ne_of_mem_of_not_mem hid' (hup p.2 hpup).2) (hapart id hid) (hlev id hid').1
  have habove : ∀ id ∈ (u ++ v).ids ++ levelIds ups, t'.nodeAt id = t.nodeAt id ∧ id ≠ p.2 ∧
      id ∉ ms.ids := by
    intro id hid
    have hidup : id ∈ levelIds ((u ++ p :: v) :: ups) := by
      rw [mem_levelIds_cons]
      simp only [Level.ids_append, Level.ids_cons, List.mem_append, List.mem_cons] at hid ⊢
      tauto
    have hidp : id ≠ p.2 := by
      rcases List.mem_append.mp hid with hid | hid
      · obtain ⟨f, hf, rfl⟩ := List.mem_map.mp hid
        exact hpne f hf
      · exact ne_of_mem_of_not_mem hid hpups
    have hidms : id ∉ ms.ids := fun hm => (hup id hidup).2 ((hlevIds id).mpr (.inl hm))
    exact ⟨hsame id hidp hidms (hup id hidup).1, hidp, hidms⟩
  have hminLight : ∀ id, id ∉ ms.ids → minKeysOf (some light) id = 1 :=
    fun id hid => minKeysOf_of_ne fun h => hid (h ▸ hlight)
  have hminLight' : ∀ id, id ≠ p.2 → minKeysOf light' id = 1 := by
    intro id hid
    rcases hlight' with rfl | rfl
    · rfl
    · exact minKeysOf_of_ne (Ne.symm hid)
  refine ⟨⟨?_, ?_⟩, ⟨hr.header, hr.size.ge, ?_, ?_⟩⟩
  · have hlink' : Link t.nodeAt (minKeysOf (some light)) (fun _ => t.order)
        ((expand t.nodeAt u ++ A) ++ ms ++ (B ++ expand t.nodeAt v)) below := by
      simpa using hlink
    have hcut : expand t.nodeAt u ++ (A ++ ms' ++ B) ++ expand t.nodeAt v =
        (expand t.nodeAt u ++ A) ++ ms' ++ (B ++ expand t.nodeAt v) := by simp
    have hsides : ∀ e ∈ (expand t.nodeAt u ++ A) ++ (B ++ expand t.nodeAt v),
        e.2 ∈ (expand t.nodeAt u ++ (A ++ B) ++ expand t.nodeAt v).ids := by
      intro e he
      exact Level.mem_ids (by simpa using he)
    rw [hcut]
    have : Link t'.nodeAt (minKeysOf light') (fun _ => t.order)
        (expand t.nodeAt u ++ A ++ ms' ++ (B ++ expand t.nodeAt v)) _ := hlink'.replace
      (fun e he => by rw [hside e.2 (hsides e he)]; exact .refl _)
      (fun e he => ?_) (fun _ _ => le_refl _) (fun e he c hc => ?_) (fun e he => ?_) hown
    · rw [hlink'.expands, expand_append, expand_append, ← hexpand]
      exact this
    · have hid := hsides e he
      rw [hminLight e.2 (hapart e.2 hid), hminLight' e.2
        (ne_of_mem_of_not_mem ((hlevIds e.2).mpr (.inr hid)) (hup p.2 hpup).2)]
    · by_cases hcm : c ∈ moved
      · obtain ⟨f, hf, hcf⟩ := hmoved c hcm
        have he' : e ∈ expand t.nodeAt u ++ (A ++ ms ++ B) ++ expand t.nodeAt v := by
          simp only [List.mem_append] at he ⊢
          tauto
        have h1 := hlink.parents e he' c hc
        rw [hlink.parents f (hmem f hf) c hcf, Option.some.injEq] at h1
        exact absurd (h1 ▸ Level.mem_ids hf) (hapart e.2 (hsides e he))
      · have he' : e ∈ expand t.nodeAt u ++ (A ++ ms ++ B) ++ expand t.nodeAt v := by
          simp only [List.mem_append] at he ⊢
          tauto
        have hcb := hlink.mem_down he' hc
        have hnot := hd.notMem_above hcb
        rw [mem_levelIds_cons, not_or] at hnot
        have hcms : c ∉ ms.ids := fun hm => hnot.1 ((hlevIds c).mpr (.inl hm))
        rw [hms, not_or] at hcms
        rw [hr.other c (fun hcp => hnot.2 (hcp ▸ hpup)) hcms.1 hcms.2 hcm]
    · rw [hminLight' e.2 (ne_of_mem_of_not_mem ((hlevIds e.2).mpr (.inl (hms' e he)))
        (hup p.2 hpup).2)]
      exact hinternal e he
  · rw [hr.root]
    refine hrest.relink hslots hslots' hpInternal (fun id hid => ?_) (fun id hid => ?_) hmsParent
    · obtain ⟨h1, h2, h3⟩ := habove id hid
      rw [h1, hminLight id h3, hminLight' id h2]
      exact ⟨.refl _, le_refl _⟩
    · rcases List.mem_append.mp hid with hid | hid
      · rw [hside id hid]
      · by_cases hidp : id = p.2
        · rw [hidp, hpParent]
        · rw [(habove id _).1]
          simp only [Level.ids_append, Level.ids_cons, List.mem_append, List.mem_cons] at hid ⊢
          tauto
  · intro id _ hnot
    rw [mem_levelIds_cons, not_or] at hnot
    have hidp : id ≠ p.2 := fun h => hnot.2 (h ▸ hpup)
    have hidms : id ∉ ms.ids := fun hm => hnot.1 ((hlevIds id).mpr (.inl hm))
    rw [hms, not_or] at hidms
    by_cases hm : id ∈ moved
    · rw [hr.atMoved id hm, setParent_parent]
    · rw [hr.other id hidp hidms.1 hidms.2 hm, setParent_self]
  · intro id _ hnot hb
    rw [mem_levelIds_cons, not_or] at hnot
    exact hsame id (fun h => hnot.2 (h ▸ hpup))
      (fun hm => hnot.1 ((hlevIds id).mpr (.inl hm))) hb

end Rebalance

section Neighbours

variable {t : BTreeIndex K} {light : NodeId} {u v A B : Level K} {p l : WithBot K × NodeId} {q : K}
  {right : NodeId} {ka kb : List K} {ca cb : List NodeId} {ups : List (Level K)} {below : Level K}

/-- Two neighbours in a level of internal nodes, under a parent with slots `A`, the two, `B`. -/
structure Pair (t : BTreeIndex K) (light : NodeId) (below u : Level K) (p : WithBot K × NodeId)
    (v A : Level K) (l : WithBot K × NodeId) (q : K) (right : NodeId) (B : Level K)
    (ka kb : List K) (ca cb : List NodeId) (ups : List (Level K)) : Prop where
  stack : Stack t.nodeAt t.order (some light) t.root below
    ((expand t.nodeAt u ++ (A ++ [l, (↑q, right)] ++ B) ++ expand t.nodeAt v) ::
      (u ++ p :: v) :: ups)
  distinct : Distinct t.arena.length (below ::
    (expand t.nodeAt u ++ (A ++ [l, (↑q, right)] ++ B) ++ expand t.nodeAt v) ::
      (u ++ p :: v) :: ups)
  siblings : Siblings (t.nodeAt p.2) p.1 A l q right B ka kb ca cb
  light : light = l.2 ∨ light = right

/-- The levels `ups` above `below` were repaired to `ups'`. -/
structure Repaired (t t' : BTreeIndex K) (below : Level K) (ups ups' : List (Level K)) :
    Prop where
  frame : Frame t t' below ups
  stack : Stack t'.nodeAt t'.order none t'.root below ups'
  distinct : Distinct t'.arena.length (below :: ups')
  sub : ∀ id ∈ levelIds ups', id ∈ levelIds ups

theorem Pair.slots_eq (h : Pair t light below u p v A l q right B ka kb ca cb ups) :
    slots p.1 (t.nodeAt p.2) = A ++ [l, (↑q, right)] ++ B := by
  rw [h.siblings.slots_eq]
  simp

theorem Pair.cells (h : Pair t light below u p v A l q right B ka kb ca cb ups) :
    Cells t p.2 l.2 right := by
  have hd := h.distinct.tail
  have hcut : expand t.nodeAt u ++ (A ++ [l, (↑q, right)] ++ B) ++ expand t.nodeAt v =
      (expand t.nodeAt u ++ A) ++ [l, (↑q, right)] ++ (B ++ expand t.nodeAt v) := by simp
  rw [hcut] at hd
  exact Cells.of_distinct hd

theorem Pair.child (h : Pair t light below u p v A l q right B ka kb ca cb ups)
    {e : WithBot K × NodeId} (he : e ∈ [l, ((q : WithBot K), right)]) {c : NodeId}
    (hc : c ∈ (t.nodeAt e.2).children) :
    c < t.arena.length ∧ c ≠ p.2 ∧ c ≠ l.2 ∧ c ≠ right ∧ (t.nodeAt c).parent = some e.2 := by
  obtain ⟨hlink, _⟩ := h.stack
  have he' : e ∈ expand t.nodeAt u ++ (A ++ [l, (↑q, right)] ++ B) ++ expand t.nodeAt v := by
    simp only [List.mem_append]
    tauto
  have hcb := hlink.mem_down he' hc
  have hnot := h.distinct.notMem_above hcb
  rw [mem_levelIds_cons, mem_levelIds_cons, not_or, not_or] at hnot
  refine ⟨h.distinct.inArena c (mem_levelIds_cons.mpr (.inl hcb)), ?_, ?_, ?_,
    hlink.parents e he' c hc⟩
  · rintro rfl
    exact hnot.2.1 (Level.mem_ids (by simp))
  · rintro rfl
    exact hnot.1 (Level.mem_ids (by simp))
  · rintro rfl
    exact hnot.1 (Level.mem_ids (e := (↑q, _)) (by simp))

theorem Pair.internal (h : Pair t light below u p v A l q right B ka kb ca cb ups) :
    (t.nodeAt l.2).Internal 0 t.order ∧ (t.nodeAt right).Internal 0 t.order ∧
      (t.nodeAt p.2).Internal 1 t.order := by
  obtain ⟨hlink, hlink', _⟩ := h.stack
  have hp := hlink'.internal p (by simp)
  have hpl : light ≠ p.2 := by
    rcases h.light with hl | hl
    · rw [hl]
      exact h.cells.leftNe
    · rw [hl]
      exact h.cells.rightNe
  refine ⟨(hlink.internal l (by simp)).congr (.refl _) (Nat.zero_le _) (le_refl _),
    (hlink.internal (↑q, right) (by simp)).congr (.refl _) (Nat.zero_le _) (le_refl _), ?_⟩
  rwa [minKeysOf_of_ne hpl] at hp

theorem Pair.parents (h : Pair t light below u p v A l q right B ka kb ca cb ups) :
    (t.nodeAt l.2).parent = some p.2 ∧ (t.nodeAt right).parent = some p.2 := by
  obtain ⟨_, hlink', _⟩ := h.stack
  have hc := h.siblings.children
  exact ⟨hlink'.parents p (by simp) l.2 (by simp [hc]),
    hlink'.parents p (by simp) right (by simp [hc])⟩

theorem Pair.mem_ids (h : Pair t light below u p v A l q right B ka kb ca cb ups) :
    light ∈ Level.ids [l, ((q : WithBot K), right)] := by
  rcases h.light with hl | hl <;> simp [hl]

theorem Pair.nodup (h : Pair t light below u p v A l q right B ka kb ca cb ups) :
    ((t.nodeAt l.2).children ++ (t.nodeAt right).children).Nodup := by
  obtain ⟨hlink, _⟩ := h.stack
  obtain ⟨hl, hr, _⟩ := h.internal
  have hn := h.distinct.nodup
  rw [levelIds_cons, hlink.expands] at hn
  refine hn.of_append_left.sublist ?_
  rw [← slots_map_snd l.1 hl.arity, ← slots_map_snd (q : WithBot K) hr.arity,
    ← Level.ids_append]
  simp only [expand_append, expand_cons, expand_nil, List.append_nil]
  refine List.Sublist.map _ ?_
  refine .trans ?_ (List.sublist_append_left _ _)
  refine .trans ?_ (List.sublist_append_right _ _)
  refine .trans ?_ (List.sublist_append_left _ _)
  exact List.sublist_append_right _ _

/-- Where a child of the two belongs after some of them moved to `owner`. -/
theorem Pair.parent_eq {t' : BTreeIndex K} {pNode leftNode rightNode : Node K}
    {moved : List NodeId} {owner : NodeId}
    (h : Pair t light below u p v A l q right B ka kb ca cb ups)
    (hr : Rebalanced t t' p.2 l.2 right pNode leftNode rightNode moved (setParent (some owner)))
    {e : WithBot K × NodeId} (he : e ∈ [l, ((q : WithBot K), right)]) {c : NodeId}
    (hc : c ∈ (t.nodeAt e.2).children) :
    (t'.nodeAt c).parent = some (if c ∈ moved then owner else e.2) := by
  obtain ⟨_, hp, hl, hri, hparent⟩ := h.child he hc
  by_cases hm : c ∈ moved
  · rw [if_pos hm, hr.atMoved c hm, setParent_parent]
  · rw [if_neg hm, hr.other c hp hl hri hm, hparent]

/-- Both neighbours stay, with a new separator and the same children. -/
theorem Pair.repaired {t' : BTreeIndex K} {leftNode rightNode : Node K} {moved : List NodeId}
    {owner : NodeId} {k : K} (h : Pair t light below u p v A l q right B ka kb ca cb ups)
    (hr : Rebalanced t t' p.2 l.2 right { t.nodeAt p.2 with keys := ka ++ k :: kb }
      leftNode rightNode moved (setParent (some owner)))
    (hmoved : ∀ c ∈ moved, ∃ e ∈ [l, ((q : WithBot K), right)], c ∈ (t.nodeAt e.2).children)
    (hslots : slots l.1 leftNode ++ slots k rightNode =
      slots l.1 (t.nodeAt l.2) ++ slots q (t.nodeAt right))
    (hleft : leftNode.Internal 1 t.order) (hright : rightNode.Internal 1 t.order)
    (hparents : leftNode.parent = some p.2 ∧ rightNode.parent = some p.2)
    (hownLeft : ∀ c ∈ leftNode.children, (t'.nodeAt c).parent = some l.2)
    (hownRight : ∀ c ∈ rightNode.children, (t'.nodeAt c).parent = some right) :
    ∃ ups', Repaired t t' below ((expand t.nodeAt u ++ (A ++ [l, (↑q, right)] ++ B) ++
      expand t.nodeAt v) :: (u ++ p :: v) :: ups) ups' := by
  obtain ⟨_, _, hip⟩ := h.internal
  have hslots' : slots p.1 (t'.nodeAt p.2) = A ++ [l, (↑k, right)] ++ B := by
    rw [hr.atParent, (h.siblings.reseparate k).slots_eq]
    simp
  have hcases : ∀ {P : WithBot K × NodeId → Prop}, P l → P (↑k, right) →
      ∀ e ∈ [l, ((k : WithBot K), right)], P e := by
    intro P h1 h2 e he
    simp only [List.mem_cons, List.not_mem_nil, or_false] at he
    rcases he with rfl | rfl
    · exact h1
    · exact h2
  have hreb := h.stack.rebalance none [l, (↑k, right)] h.distinct h.slots_eq hr (fun id => by simp) h.mem_ids hmoved hslots' ?_ ?_ ?_ ?_
    ?_ ?_ (.inl rfl) ?_
  · obtain ⟨hstack, hframe⟩ := hreb
    have hids : levelIds ((expand t.nodeAt u ++ (A ++ [l, (↑k, right)] ++ B) ++
        expand t.nodeAt v) :: (u ++ p :: v) :: ups) =
        levelIds ((expand t.nodeAt u ++ (A ++ [l, (↑q, right)] ++ B) ++
        expand t.nodeAt v) :: (u ++ p :: v) :: ups) := by
      simp
    refine ⟨_, hframe, hframe.header.order ▸ hstack, ⟨?_, ?_⟩, fun id hid => hids ▸ hid⟩
    · rw [levelIds_cons, hids, ← levelIds_cons]
      exact h.distinct.nodup
    · rw [levelIds_cons, hids, ← levelIds_cons, hr.size]
      exact h.distinct.inArena
  · simp only [expand_cons, expand_nil, hr.atLeft, hr.atRight, List.append_nil]
    exact hslots
  · exact hcases (by rw [hr.atLeft]; exact hleft) (by rw [hr.atRight]; exact hright)
  · rw [hr.atParent]
    exact ⟨hip.notLeaf, (h.siblings.reseparate k).arity, by simp; omega,
      by have := hip.upper; rw [h.siblings.keys] at this; simpa using this⟩
  · rw [hr.atParent]
  · exact hcases (by rw [hr.atLeft, hparents.1]) (by rw [hr.atRight, hparents.2])
  · exact hcases (by rw [hr.atLeft]; exact hownLeft) (by rw [hr.atRight]; exact hownRight)
  · exact hcases (by simp) (by simp)

/-- The right neighbour gets the last child of the left one. -/
theorem Pair.borrowFromLeft (h : Pair t light below u p v A l q right B ka kb ca cb ups)
    (hrich : 2 ≤ (t.nodeAt l.2).keys.length) (hroom : (t.nodeAt right).keys.length + 1 < t.order) :
    ∃ t' ups', t.borrowFromLeft right l.2 p.2 (ka.length + 1) = some t' ∧
      Repaired t t' below ((expand t.nodeAt u ++ (A ++ [l, (↑q, right)] ++ B) ++
        expand t.nodeAt v) :: (u ++ p :: v) :: ups) ups' := by
  obtain ⟨hil, hir, _⟩ := h.internal
  obtain ⟨kl, k, hk⟩ := Vec.exists_concat (show 0 < (t.nodeAt l.2).keys.length by omega)
  obtain ⟨cl, c, hch⟩ := Vec.exists_concat
    (show 0 < (t.nodeAt l.2).children.length by rw [hil.arity]; omega)
  have hcl : cl.length = kl.length + 1 := by
    have := hil.arity
    rw [hk, hch] at this
    simpa using this
  have hkl : 1 ≤ kl.length := by
    rw [hk] at hrich
    simpa using hrich
  have hupper := hil.upper
  rw [hk, List.length_append, List.length_singleton] at hupper
  obtain ⟨hc, hcp, hcl', hcr, _⟩ := h.child (e := l) (by simp) (c := c) (by simp [hch])
  obtain ⟨t', hrun, hr⟩ := borrowFromLeft_internal h.cells h.siblings hir.notLeaf hk hch hc hcp
    hcl' hcr
  have hnodup := h.nodup
  rw [hch] at hnodup
  obtain ⟨hn1, hn2, hn3⟩ := List.nodup_append.mp hnodup
  have hrep := h.repaired hr ?_ ?_ ⟨hil.notLeaf, hcl, hkl, by simpa using by omega⟩
    ⟨hir.notLeaf, by simp [hir.arity], by simp, hroom⟩ h.parents ?_ ?_
  · obtain ⟨ups', hrep⟩ := hrep
    exact ⟨t', ups', hrun, hrep⟩
  · intro c' hc'
    obtain rfl := List.mem_singleton.mp hc'
    exact ⟨l, by simp, by simp [hch]⟩
  · rw [slots_append l.1 hk hch hcl]
    simp [slots]
  · intro c' hc'
    rw [h.parent_eq hr (e := l) (by simp) (by rw [hch]; exact List.mem_append_left _ hc'), if_neg]
    rw [List.mem_singleton]
    rintro rfl
    exact List.disjoint_of_nodup_append hn1 hc' (by simp)
  · intro c' hc'
    rcases List.mem_cons.mp hc' with rfl | hmem
    · rw [h.parent_eq hr (e := l) (by simp) (by simp [hch]), if_pos (by simp)]
    · rw [h.parent_eq hr (e := (↑q, right)) (by simp) hmem, if_neg]
      rw [List.mem_singleton]
      rintro rfl
      exact hn3 c' (by simp) c' hmem rfl

/-- The left neighbour gets the first child of the right one. -/
theorem Pair.borrowFromRight (h : Pair t light below u p v A l q right B ka kb ca cb ups)
    (hrich : 2 ≤ (t.nodeAt right).keys.length) (hroom : (t.nodeAt l.2).keys.length + 1 < t.order) :
    ∃ t' ups', t.borrowFromRight l.2 right p.2 ka.length = some t' ∧
      Repaired t t' below ((expand t.nodeAt u ++ (A ++ [l, (↑q, right)] ++ B) ++
        expand t.nodeAt v) :: (u ++ p :: v) :: ups) ups' := by
  obtain ⟨hil, hir, _⟩ := h.internal
  obtain ⟨k, kr, hk⟩ := List.exists_cons_of_length_pos (l := (t.nodeAt right).keys) (by omega)
  obtain ⟨c, cr, hch⟩ := List.exists_cons_of_length_pos (l := (t.nodeAt right).children)
    (by rw [hir.arity]; omega)
  have hcr : cr.length = kr.length + 1 := by
    have := hir.arity
    rw [hk, hch] at this
    simpa using this
  have hkr : 1 ≤ kr.length := by
    rw [hk] at hrich
    simpa using hrich
  have hupper := hir.upper
  rw [hk, List.length_cons] at hupper
  obtain ⟨hc, hcp, hcl, hcr', _⟩ := h.child (e := (↑q, right)) (by simp) (c := c) (by simp [hch])
  obtain ⟨t', hrun, hr⟩ := borrowFromRight_internal h.cells h.siblings hil.notLeaf hk hch hc hcp
    hcl hcr'
  have hnodup := h.nodup
  rw [hch] at hnodup
  obtain ⟨_, hn2, hn3⟩ := List.nodup_append.mp hnodup
  have hrep := h.repaired hr ?_ ?_ ⟨hil.notLeaf, by simp [hil.arity], by simp, by simpa using hroom⟩
    ⟨hir.notLeaf, hcr, hkr, by simpa using by omega⟩ h.parents ?_ ?_
  · obtain ⟨ups', hrep⟩ := hrep
    exact ⟨t', ups', hrun, hrep⟩
  · intro c' hc'
    obtain rfl := List.mem_singleton.mp hc'
    exact ⟨(↑q, right), by simp, by simp [hch]⟩
  · rw [slots_cons l.1 (a := (t.nodeAt l.2).keys) (k := q) (b := []) (c := (t.nodeAt l.2).children)
      (d := [c]) rfl rfl hil.arity]
    simp [slots, hk, hch]
  · intro c' hc'
    rcases List.mem_append.mp hc' with hmem | hmem
    · rw [h.parent_eq hr (e := l) (by simp) hmem, if_neg]
      rw [List.mem_singleton]
      rintro rfl
      exact hn3 c' hmem c' (by simp) rfl
    · obtain rfl := List.mem_singleton.mp hmem
      rw [h.parent_eq hr (e := (↑q, right)) (by simp) (by simp [hch]), if_pos (by simp)]
  · intro c' hc'
    rw [h.parent_eq hr (e := (↑q, right)) (by simp)
      (by rw [hch]; exact List.mem_cons_of_mem _ hc'), if_neg]
    rw [List.mem_singleton]
    rintro rfl
    exact (List.nodup_cons.mp hn2).1 hc'

/-- The right neighbour is absorbed by the left one; their parent is light now. -/
theorem Pair.mergeNodes (h : Pair t light below u p v A l q right B ka kb ca cb ups)
    (hroom : (t.nodeAt l.2).keys.length + (t.nodeAt right).keys.length + 1 < t.order) :
    ∃ t', t.mergeNodes l.2 right p.2 ka.length = some t' ∧
      Stack t'.nodeAt t'.order (some p.2) t'.root below
        ((expand t.nodeAt u ++ (A ++ [l] ++ B) ++ expand t.nodeAt v) :: (u ++ p :: v) :: ups) ∧
      Frame t t' below ((expand t.nodeAt u ++ (A ++ [l, (↑q, right)] ++ B) ++
        expand t.nodeAt v) :: (u ++ p :: v) :: ups) ∧
      t'.arena.length = t.arena.length ∧ l.2 ∈ (t'.nodeAt p.2).children ∧
      Distinct t.arena.length ((expand t.nodeAt u ++ (A ++ [l] ++ B) ++ expand t.nodeAt v) ::
        (u ++ p :: v) :: ups) ∧
      (∀ id ∈ (expand t.nodeAt u ++ (A ++ [l] ++ B) ++ expand t.nodeAt v).ids,
        id ∈ (expand t.nodeAt u ++ (A ++ [l, (↑q, right)] ++ B) ++ expand t.nodeAt v).ids) := by
  obtain ⟨hil, hir, hip⟩ := h.internal
  have hsub : (expand t.nodeAt u ++ (A ++ [l] ++ B) ++ expand t.nodeAt v).ids.Sublist
      (expand t.nodeAt u ++ (A ++ [l, (↑q, right)] ++ B) ++ expand t.nodeAt v).ids := by
    refine List.Sublist.map _ (((List.Sublist.append_left ?_ _).append_right _).append_left _
      |>.append_right _)
    exact (List.nil_sublist _).cons_cons l
  have hd : Distinct t.arena.length ((expand t.nodeAt u ++ (A ++ [l] ++ B) ++
      expand t.nodeAt v) :: (u ++ p :: v) :: ups) := by
    refine ⟨h.distinct.tail.nodup.sublist (hsub.append_right _), fun id hid => ?_⟩
    exact h.distinct.tail.inArena id ((hsub.append_right _).subset hid)
  obtain ⟨t', hrun, hr⟩ := mergeNodes_internal h.cells h.siblings hil.notLeaf fun c hc =>
    have := h.child (e := (↑q, right)) (by simp) hc
    ⟨this.1, this.2.1, this.2.2.1, this.2.2.2.1⟩
  have hslots' : slots p.1 (t'.nodeAt p.2) = A ++ [l] ++ B := by
    rw [hr.atParent, h.siblings.slots_drop rfl rfl]
    simp
  have hcases : ∀ {P : WithBot K × NodeId → Prop}, P l → ∀ e ∈ [l], P e := by
    intro P h1 e he
    rwa [List.mem_singleton.mp he]
  have hreb := h.stack.rebalance (some p.2) [l] h.distinct h.slots_eq hr (fun id => by simp) h.mem_ids
    (fun c hc => ⟨(↑q, right), by simp, hc⟩) hslots' ?_ ?_ ?_ ?_ ?_ ?_ (.inr rfl) ?_
  · obtain ⟨hstack, hframe⟩ := hreb
    refine ⟨t', hrun, hframe.header.order ▸ hstack, hframe, hr.size, ?_, hd,
      fun id hid => hsub.subset hid⟩
    rw [hr.atParent]
    simp
  · simp only [expand_cons, expand_nil, hr.atLeft, List.append_nil]
    rw [slots_cons l.1 (a := (t.nodeAt l.2).keys) (k := q) (b := (t.nodeAt right).keys)
      (c := (t.nodeAt l.2).children) (d := (t.nodeAt right).children) rfl rfl hil.arity]
    rfl
  · refine hcases ?_
    rw [hr.atLeft]
    refine ⟨hil.notLeaf, ?_, by simp; omega, by simp; omega⟩
    simp [hil.arity, hir.arity]
    omega
  · rw [hr.atParent, minKeysOf_some_self]
    have hupper := hip.upper
    rw [h.siblings.keys] at hupper
    refine ⟨hip.notLeaf, ?_, Nat.zero_le _, ?_⟩
    · simp [h.siblings.before, h.siblings.after]
      omega
    · simp at hupper ⊢
      omega
  · rw [hr.atParent]
  · exact hcases (by rw [hr.atLeft]; exact h.parents.1)
  · refine hcases ?_
    rw [hr.atLeft]
    intro c hc
    have hnodup := List.nodup_append.mp h.nodup
    rcases List.mem_append.mp hc with hc | hc
    · rw [h.parent_eq hr (e := l) (by simp) hc, if_neg]
      exact fun hm => hnodup.2.2 c hc c hm rfl
    · rw [h.parent_eq hr (e := (↑q, right)) (by simp) hc, if_pos hc]
  · exact hcases (by simp)

end Neighbours

section Repair

variable {t t' t'' : BTreeIndex K} {below lev lev' : Level K} {ups ups' : List (Level K)}

theorem Frame.trans (h : Frame t t' below (lev :: ups)) (h' : Frame t' t'' lev' ups)
    (hsub : ∀ id ∈ lev'.ids, id ∈ lev.ids) : Frame t t'' below (lev :: ups) := by
  refine ⟨h.header.trans h'.header, h.size.trans h'.size, fun id hid hnot => ?_,
    fun id hid hnot hb => ?_⟩ <;> have hnot' := hnot <;>
    rw [mem_levelIds_cons, not_or] at hnot'
  · rw [h'.keep id (hid.trans_le h.size) hnot'.2, h.keep id hid hnot]
    rfl
  · rw [h'.below id (hid.trans_le h.size) hnot'.2 fun hm => hnot'.1 (hsub id hm),
      h.below id hid hnot hb]

/-- A level was repaired, and then the levels above it. -/
theorem Repaired.trans (h : Frame t t' below (lev :: ups)) (hsize : t'.arena.length = t.arena.length)
    (hlink : Link t'.nodeAt (minKeysOf none) (fun _ => t'.order) lev' below)
    (hd : Distinct t.arena.length (below :: lev :: ups))
    (hsub : ∀ id ∈ lev'.ids, id ∈ lev.ids) (h' : Repaired t' t'' lev' ups ups') :
    Repaired t t'' below (lev :: ups) (lev' :: ups') := by
  have hbelow : ∀ id ∈ below.ids, id ∉ lev.ids ∧ id ∉ levelIds ups := fun id hid => by
    have := hd.notMem_above hid
    rwa [mem_levelIds_cons, not_or] at this
  have hlev : ∀ id ∈ lev'.ids, id < t'.arena.length ∧ id ∉ levelIds ups := fun id hid => by
    refine ⟨?_, hd.tail.notMem_above (hsub id hid)⟩
    rw [hsize]
    exact hd.tail.inArena id (mem_levelIds_cons.mpr (.inl (hsub id hid)))
  refine ⟨h.trans h'.frame hsub, ⟨?_, h'.stack⟩, ⟨?_, ?_⟩, ?_⟩
  · rw [h'.frame.header.order]
    refine hlink.congr (fun e he => ?_) (fun _ _ => le_refl _) (fun _ _ => le_refl _)
      fun c hc => ?_
    · have := hlev e.2 (Level.mem_ids he)
      exact h'.frame.sameShape this.1 this.2
    · obtain ⟨h1, h2⟩ := hbelow c hc
      rw [h'.frame.below c _ h2 fun hm => h1 (hsub c hm)]
      rw [hsize]
      exact hd.inArena c (mem_levelIds_cons.mpr (.inl hc))
  · rw [levelIds_cons]
    refine List.Nodup.append ?_ h'.distinct.nodup fun id hid hmem => ?_
    · have := hd.nodup
      rw [levelIds_cons] at this
      exact this.of_append_left
    · obtain ⟨h1, h2⟩ := hbelow id hid
      rcases mem_levelIds_cons.mp hmem with hmem | hmem
      · exact h1 (hsub id hmem)
      · exact h2 (h'.sub id hmem)
  · intro id hid
    rcases mem_levelIds_cons.mp hid with hid | hid
    · exact (hd.inArena id (mem_levelIds_cons.mpr (.inl hid))).trans_le
        (h.size.trans h'.frame.size)
    · exact h'.distinct.inArena id hid
  · intro id hid
    rw [mem_levelIds_cons] at hid ⊢
    rcases hid with hid | hid
    · exact .inl (hsub id hid)
    · exact .inr (h'.sub id hid)

theorem Stack.root_mem {N : NodeId → Node K} {order : Nat} {light : Option NodeId}
    {root : NodeId} {down up : Level K} (h : Stack N order light root down (up :: ups)) :
    root ∈ levelIds (up :: ups) := by
  induction ups generalizing down up with
  | nil =>
    rw [h.2.1]
    simp
  | cons up' ups ih =>
    rw [mem_levelIds_cons]
    exact .inr (ih h.2)

/-- A parent that lost a child is repaired, and all above it that lose one in turn. -/
theorem afterMerge_spec {p left : NodeId} (fuel : Nat)
    (hstack : Stack t.nodeAt t.order (some p) t.root below (lev :: ups))
    (hd : Distinct t.arena.length (below :: lev :: ups)) (hp : p ∈ lev.ids)
    (hleft : left ∈ (t.nodeAt p).children) (horder : 3 ≤ t.order) (hfuel : ups.length ≤ fuel) :
    ∃ t' ups', handleUnderflow.afterMerge fuel t left p = some t' ∧
      Repaired t t' below (lev :: ups) ups' := by
  have hplt : p < t.arena.length := hd.tail.inArena p (mem_levelIds_cons.mpr (.inl hp))
  induction ups generalizing t below lev p left fuel with
  | nil =>
    obtain ⟨hlink, hlev, hparent⟩ := hstack
    obtain rfl : p = t.root := by
      rw [hlev] at hp
      simpa using hp
    have har := (hlink.internal (⊥, t.root) (by simp [hlev])).arity
    by_cases hkeys : (t.nodeAt t.root).keys = []
    · have hchildren : (t.nodeAt t.root).children = [left] := by
        rw [hkeys] at har
        obtain ⟨c, hc⟩ := List.length_eq_one_iff.mp har
        rw [hc, List.mem_singleton] at hleft
        rw [hc, hleft]
      have hbelow : below = [(⊥, left)] := by
        rw [hlink.expands, hlev]
        simp [slots, hkeys, hchildren]
      have hleftlt : left < t.arena.length :=
        hd.inArena left (mem_levelIds_cons.mpr (.inl (by simp [hbelow])))
      let t' : BTreeIndex K :=
        { t.setNode left (setParent none (t.nodeAt left)) with root := left }
      have hat : t'.nodeAt = Function.update t.nodeAt left (setParent none (t.nodeAt left)) :=
        nodeAt_setNode hleftlt _
      refine ⟨t', [], ?_, ⟨⟨rfl, rfl, rfl, rfl⟩, by simp [t'], ?_, ?_⟩, ⟨hbelow, ?_⟩, ⟨?_, ?_⟩,
        by simp⟩
      · rw [handleUnderflow.afterMerge, node_eq hplt]
        simp only [Option.bind_eq_bind, Option.bind_some, Node.isEmpty, hkeys, List.isEmpty_nil,
          and_self, if_true]
        exact modifyNode_eq (t := { t with root := left }) hleftlt _
      · intro id _ _
        rw [hat]
        by_cases hid : id = left
        · subst hid
          simp
        · simp [hid]
      · intro id _ _ hb
        rw [hat, Function.update_of_ne]
        rintro rfl
        exact hb (by simp [hbelow])
      · rw [hat]
        simp [t']
      · simp [hbelow]
      · rw [hbelow]
        intro id hid
        simp only [levelIds_cons, Level.ids_cons, Level.ids_nil, levelIds_nil, List.append_nil,
          List.mem_singleton] at hid
        simpa [t', hid] using hleftlt
    · refine ⟨t, [lev], ?_, ⟨⟨.refl t, le_refl _, fun _ _ _ => rfl, fun _ _ _ _ => rfl⟩,
        Stack.heal ⟨hlink, hlev, hparent⟩ ?_, hd, fun id hid => hid⟩⟩
      · rw [handleUnderflow.afterMerge, node_eq hplt]
        simp [Node.isEmpty, hkeys]
      · exact List.length_pos_iff.mpr hkeys
  | cons up ups ih =>
    have hroot : p ≠ t.root := fun h => hd.tail.notMem_above hp (h ▸ hstack.2.root_mem)
    obtain ⟨fuel, rfl⟩ : ∃ n, fuel = n + 1 := ⟨fuel - 1, by
      rw [List.length_cons] at hfuel
      omega⟩
    have hrun : handleUnderflow.afterMerge (fuel + 1) t left p = handleUnderflow (fuel + 1) t p := by
      rw [handleUnderflow.afterMerge, node_eq hplt]
      simp [hroot]
    rw [hrun]
    have hlink := hstack.2.1
    obtain ⟨e, he, rfl⟩ := List.mem_map.mp hp
    obtain ⟨a, b, hab⟩ := List.append_of_mem he
    obtain ⟨u, m, v, A, B, rfl, hslots, rfl, rfl⟩ := hlink.locate hab
    have hmup : m.2 ∈ (u ++ m :: v).ids := Level.mem_ids (by simp)
    have hem : e.2 ≠ m.2 := fun h => hd.tail.notMem_above hp (h ▸ mem_levelIds_cons.mpr (.inl hmup))
    have hmint := hlink.internal m (by simp)
    rw [minKeysOf_of_ne hem] at hmint
    have hchildren : (t.nodeAt m.2).children = (A ++ e :: B).ids := by
      rw [← hslots, slots_map_snd _ hmint.arity]
    have hmlt : m.2 < t.arena.length := hd.tail.tail.inArena m.2 (mem_levelIds_cons.mpr (.inl hmup))
    have hnodup : (t.nodeAt m.2).children.Nodup := by
      have := hd.tail.nodup
      rw [levelIds_cons, hab] at this
      rw [hchildren]
      refine this.of_append_left.sublist ?_
      simp only [Level.ids_append, Level.ids_cons, List.append_assoc]
      refine .trans (List.Sublist.append_left ?_ _) (List.sublist_append_right _ _)
      exact (List.sublist_append_left _ _).cons_cons _
    have hids : ∀ c ∈ (t.nodeAt m.2).children, c < t.arena.length := fun c hc =>
      hd.tail.inArena c (mem_levelIds_cons.mpr (.inl (hlink.mem_down (by simp) hc)))
    by_cases hpoor : (t.nodeAt e.2).keys.length < (t.order - 1) / 2
    · obtain ⟨repair, hchosen, hstep⟩ := handleUnderflow_step hlink hslots hmint.lower hnodup hmlt
        hids hpoor fuel
      rw [hstep]
      cases hchosen with
      | borrowLeft A' l hA rich =>
        subst hA
        obtain ⟨q, ka, kb, ca, cb, hq, hsib⟩ := Siblings.of_slots hmint.arity
          (A := A') (l := l) (r := e) (B := B) (by simpa using hslots)
        obtain rfl : lev = expand t.nodeAt u ++ (A' ++ [l, (↑q, e.2)] ++ B) ++
            expand t.nodeAt v := by
          rw [hab, ← hq]
          simp
        obtain ⟨t', ups', hborrow, hrep⟩ := Pair.borrowFromLeft ⟨hstack, hd, hsib, .inr rfl⟩
          (by omega) (by omega)
        refine ⟨t', ups', ?_, hrep⟩
        rw [← hborrow, List.length_append, List.length_singleton, hsib.length_eq]
      | borrowRight r B' hB rich =>
        subst hB
        obtain ⟨q, ka, kb, ca, cb, hq, hsib⟩ := Siblings.of_slots hmint.arity hslots
        obtain rfl : lev = expand t.nodeAt u ++ (A ++ [e, (↑q, r.2)] ++ B') ++
            expand t.nodeAt v := by
          rw [hab, ← hq]
          simp
        obtain ⟨t', ups', hborrow, hrep⟩ := Pair.borrowFromRight ⟨hstack, hd, hsib, .inl rfl⟩
          (by omega) (by omega)
        refine ⟨t', ups', ?_, hrep⟩
        rw [← hborrow, hsib.length_eq]
      | mergeLeft A' l hA poor =>
        subst hA
        obtain ⟨q, ka, kb, ca, cb, hq, hsib⟩ := Siblings.of_slots hmint.arity
          (A := A') (l := l) (r := e) (B := B) (by simpa using hslots)
        obtain rfl : lev = expand t.nodeAt u ++ (A' ++ [l, (↑q, e.2)] ++ B) ++
            expand t.nodeAt v := by
          rw [hab, ← hq]
          simp
        obtain ⟨t1, hmerge, hstack1, hframe1, hsize1, hleft1, hd1, hsub⟩ :=
          Pair.mergeNodes ⟨hstack, hd, hsib, .inr rfl⟩ (by omega)
        obtain ⟨t', ups', hrun', hrep⟩ := ih fuel hstack1.2 (by rw [hsize1]; exact hd1)
          hmup hleft1 (by rw [hframe1.header.order]; exact horder)
          (by rw [List.length_cons] at hfuel; omega) (by rw [hsize1]; exact hmlt)
        refine ⟨t', _, ?_, Repaired.trans hframe1 hsize1 (hstack1.1.heal fun e' he' => ?_) hd hsub
          hrep⟩
        · rw [List.length_append, List.length_singleton, Nat.add_sub_cancel, hsib.length_eq]
          simp only [Option.bind_eq_bind, hmerge, Option.bind_some, hrun']
        · intro heq
          have := hd1.notMem_above (Level.mem_ids he')
          rw [heq] at this
          exact this (mem_levelIds_cons.mpr (.inl hmup))
      | mergeRight r B' hA hB poor =>
        subst hB
        obtain ⟨q, ka, kb, ca, cb, hq, hsib⟩ := Siblings.of_slots hmint.arity hslots
        obtain rfl : lev = expand t.nodeAt u ++ (A ++ [e, (↑q, r.2)] ++ B') ++
            expand t.nodeAt v := by
          rw [hab, ← hq]
          simp
        obtain ⟨t1, hmerge, hstack1, hframe1, hsize1, hleft1, hd1, hsub⟩ :=
          Pair.mergeNodes ⟨hstack, hd, hsib, .inl rfl⟩ (by omega)
        obtain ⟨t', ups', hrun', hrep⟩ := ih fuel hstack1.2 (by rw [hsize1]; exact hd1)
          hmup hleft1 (by rw [hframe1.header.order]; exact horder)
          (by rw [List.length_cons] at hfuel; omega) (by rw [hsize1]; exact hmlt)
        refine ⟨t', _, ?_, Repaired.trans hframe1 hsize1 (hstack1.1.heal fun e' he' => ?_) hd hsub
          hrep⟩
        · rw [hsib.length_eq]
          simp only [Option.bind_eq_bind, hmerge, Option.bind_some, hrun']
        · intro heq
          have := hd1.notMem_above (Level.mem_ids he')
          rw [heq] at this
          exact this (mem_levelIds_cons.mpr (.inl hmup))
    · refine ⟨t, lev :: (u ++ m :: v) :: ups, ?_, ⟨⟨.refl t, le_refl _, fun _ _ _ => rfl,
        fun _ _ _ _ => rfl⟩, hstack.heal (by omega), hd, fun id hid => hid⟩⟩
      rw [handleUnderflow, node_eq hplt]
      simp only [Option.bind_eq_bind, Option.bind_some,
        hlink.parents m (by simp) e.2 (by simp [hchildren])]
      rw [if_pos (show (t.nodeAt e.2).keyCount ≥ _ from not_lt.mp hpoor)]

end Repair

end Cynos.Index
