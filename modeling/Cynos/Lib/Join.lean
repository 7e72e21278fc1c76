import Mathlib.Algebra.Ring.Nat
import Mathlib.Data.List.Forall2
import Mathlib.Data.List.Perm.Basic

/-! Joins of two lists by a loop over both, and lists that are the same up to the order of
their elements and to what a function does not see of them. -/
namespace Cynos.Join

variable {A B C D E F : Type*}

theorem filter_eq_flatMap (p : A → Bool) (as : List A) :
    as.filter p = as.flatMap fun a => if p a then [a] else [] := by
  induction as with
  | nil => rfl
  | cons a as ih =>
    rw [List.filter_cons, List.flatMap_cons, ih]
    split <;> rfl

section Bags

/-- Two lists that `f` maps to the same bag. -/
def SameBag (f : A → D) (as as' : List A) : Prop := (as.map f).Perm (as'.map f)

namespace SameBag

variable {f : A → D} {g : B → E} {as as' as'' : List A} {bs bs' : List B}

theorem of_perm (h : as.Perm as') : SameBag f as as' := h.map f

theorem of_map_eq (h : as.map f = as'.map f) : SameBag f as as' := .of_eq h

@[refl] theorem refl (as : List A) : SameBag f as as := List.Perm.refl _

@[symm] theorem symm (h : SameBag f as as') : SameBag f as' as := List.Perm.symm h

theorem trans (h : SameBag f as as') (h' : SameBag f as' as'') : SameBag f as as'' :=
  List.Perm.trans h h'

theorem length_eq (h : SameBag f as as') : as.length = as'.length := by
  simpa using List.Perm.length_eq h

theorem append {cs cs' : List A} (h : SameBag f as as') (h' : SameBag f cs cs') :
    SameBag f (as ++ cs) (as' ++ cs') := by
  unfold SameBag
  rw [List.map_append, List.map_append]
  exact List.Perm.append h h'

theorem isEmpty_eq (h : SameBag f as as') : as.isEmpty = as'.isEmpty := by
  rw [Bool.eq_iff_iff, List.isEmpty_iff_length_eq_zero, List.isEmpty_iff_length_eq_zero,
    h.length_eq]

/-- The same bag is a permutation of a list that `f` does not tell apart. -/
theorem exists_perm (h : SameBag f as as') :
    ∃ bs, List.Forall₂ (fun a b => f a = f b) as bs ∧ bs.Perm as' := by
  have hmap : List.Forall₂ (fun d a => f a = d) (as'.map f) as' := by
    rw [List.forall₂_map_left_iff, List.forall₂_same]
    exact fun _ _ => rfl
  obtain ⟨bs, hbs, hperm⟩ := List.perm_comp_forall₂ h hmap
  rw [List.forall₂_map_left_iff] at hbs
  exact ⟨bs, hbs.imp fun _ _ => Eq.symm, hperm⟩

theorem mem_map (h : SameBag f as as') {a : A} (ha : a ∈ as) : ∃ a' ∈ as', f a' = f a :=
  List.mem_map.mp ((List.Perm.mem_iff h).mp (List.mem_map_of_mem ha))

/-- Elements that look alike yield lists that look alike. -/
theorem flatMap {k k' : A → List B} (h : SameBag f as as')
    (hk : ∀ a a', f a = f a' → SameBag g (k a) (k' a')) :
    SameBag g (as.flatMap k) (as'.flatMap k') := by
  obtain ⟨cs, hcs, hperm⟩ := h.exists_perm
  refine trans ?_ (.of_perm (hperm.flatMap_right k'))
  clear h hperm
  induction hcs with
  | nil => exact .refl _
  | cons ha _ ih => exact (hk _ _ ha).append ih

theorem map {k k' : A → B} (h : SameBag f as as') (hk : ∀ a a', f a = f a' → g (k a) = g (k' a')) :
    SameBag g (as.map k) (as'.map k') := by
  rw [← List.flatMap_singleton' (as.map k), ← List.flatMap_singleton' (as'.map k'),
    List.flatMap_map, List.flatMap_map]
  exact h.flatMap fun a a' ha => .of_map_eq (congrArg ([·]) (hk a a' ha))

theorem filter {p p' : A → Bool} (h : SameBag f as as') (hp : ∀ a a', f a = f a' → p a = p' a') :
    SameBag f (as.filter p) (as'.filter p') := by
  rw [filter_eq_flatMap, filter_eq_flatMap]
  refine h.flatMap fun a a' ha => ?_
  rw [hp a a' ha]
  split
  · exact .of_map_eq (congrArg ([·]) ha)
  · exact .refl _

theorem any_eq {p p' : A → Bool} (h : SameBag f as as')
    (hp : ∀ a a', f a = f a' → p a = p' a') : as.any p = as'.any p' := by
  have himp : ∀ {as as' : List A} {p p' : A → Bool}, SameBag f as as' →
      (∀ a a', f a = f a' → p a = p' a') → as.any p = true → as'.any p' = true := by
    intro as as' p p' h hp hany
    obtain ⟨a, ha, hpa⟩ := List.any_eq_true.mp hany
    obtain ⟨a', ha', heq⟩ := h.mem_map ha
    exact List.any_eq_true.mpr ⟨a', ha', hp a a' heq.symm ▸ hpa⟩
  rw [Bool.eq_iff_iff]
  exact ⟨himp h hp, himp h.symm fun a a' ha => (hp a' a ha.symm).symm⟩

end SameBag

end Bags

section Joins

variable (holds : A → B → Bool) (row : Option A → Option B → C)

/-- The rows of the pairs that `holds` picks. -/
def matched (as : List A) (bs : List B) : List C :=
  as.flatMap fun a => (bs.filter (holds a)).map fun b => row (some a) (some b)

def unmatchedLeft (as : List A) (bs : List B) : List C :=
  (as.filter fun a => !bs.any (holds a)).map fun a => row (some a) none

def unmatchedRight (as : List A) (bs : List B) : List C :=
  (bs.filter fun b => !as.any fun a => holds a b).map fun b => row none (some b)

/-- The rows that one element of the left list yields. -/
def probe (keepLeft : Bool) (bs : List B) (a : A) : List C :=
  let found := bs.filter (holds a)
  if found.isEmpty then if keepLeft then [row (some a) none] else []
  else found.map fun b => row (some a) (some b)

/-- A loop over the left list, then the elements of the right one that it left over. -/
def loopJoin (keepLeft keepRight : Bool) (as : List A) (bs : List B) : List C :=
  as.flatMap (probe holds row keepLeft bs) ++
    if keepRight then unmatchedRight holds row as bs else []

theorem isEmpty_filter_eq (p : B → Bool) (bs : List B) : (bs.filter p).isEmpty = !bs.any p := by
  rw [Bool.eq_iff_iff, List.isEmpty_iff, List.filter_eq_nil_iff, Bool.not_eq_true',
    List.any_eq_false]

theorem flatMap_probe_perm (keepLeft : Bool) (as : List A) (bs : List B) :
    (as.flatMap (probe holds row keepLeft bs)).Perm
      (matched holds row as bs ++ if keepLeft then unmatchedLeft holds row as bs else []) := by
  have hprobe : ∀ a, probe holds row keepLeft bs a =
      ((bs.filter (holds a)).map fun b => row (some a) (some b)) ++
        if keepLeft && !bs.any (holds a) then [row (some a) none] else [] := by
    intro a
    rw [probe, isEmpty_filter_eq]
    cases hany : bs.any (holds a) with
    | true => simp
    | false =>
      have hnil : bs.filter (holds a) = [] := by
        rw [← List.isEmpty_iff, isEmpty_filter_eq, hany]
        rfl
      simp [hnil]
  rw [funext hprobe]
  refine (List.flatMap_append_perm as _ _).symm.trans (List.Perm.append_left _ (.of_eq ?_))
  cases keepLeft with
  | true =>
    rw [if_pos rfl, unmatchedLeft, filter_eq_flatMap, List.map_flatMap]
    congr 1
    funext a
    cases bs.any (holds a) <;> rfl
  | false => simp

/-- A join as a bag: the matched pairs and what is kept of the unmatched rows. -/
theorem loopJoin_perm (keepLeft keepRight : Bool) (as : List A) (bs : List B) :
    (loopJoin holds row keepLeft keepRight as bs).Perm
      (matched holds row as bs ++ ((if keepLeft then unmatchedLeft holds row as bs else []) ++
        if keepRight then unmatchedRight holds row as bs else [])) := by
  rw [loopJoin, ← List.append_assoc]
  exact (flatMap_probe_perm holds row keepLeft as bs).append_right _

/-- Every row of a join is made from its sides. -/
theorem exists_of_mem_loopJoin {keepLeft keepRight : Bool} {as : List A} {bs : List B} {c : C}
    (h : c ∈ loopJoin holds row keepLeft keepRight as bs) : ∃ a b, row a b = c := by
  rw [(loopJoin_perm holds row keepLeft keepRight as bs).mem_iff, List.mem_append,
    List.mem_append] at h
  obtain h | h | h := h
  · obtain ⟨a, -, h⟩ := List.mem_flatMap.mp h
    obtain ⟨b, -, h⟩ := List.mem_map.mp h
    exact ⟨some a, some b, h⟩
  · split at h
    · obtain ⟨a, -, h⟩ := List.mem_map.mp h
      exact ⟨some a, none, h⟩
    · contradiction
  · split at h
    · obtain ⟨b, -, h⟩ := List.mem_map.mp h
      exact ⟨none, some b, h⟩
    · contradiction

theorem matched_swap (as : List A) (bs : List B) :
    (matched (fun b a => holds a b) (fun b a => row a b) bs as).Perm
      (matched holds row as bs) := by
  induction as with
  | nil => simp [matched]
  | cons a as ih =>
    have hcons : matched (fun b a => holds a b) (fun b a => row a b) bs (a :: as) =
        bs.flatMap fun b => (if holds a b then [row (some a) (some b)] else []) ++
          (as.filter fun a => holds a b).map fun a => row (some a) (some b) := by
      unfold matched
      congr 1
      funext b
      rw [List.filter_cons]
      split <;> simp
    have hfirst : (bs.flatMap fun b => if holds a b then [row (some a) (some b)] else []) =
        (bs.filter (holds a)).map fun b => row (some a) (some b) := by
      rw [filter_eq_flatMap, List.map_flatMap]
      congr 1
      funext b
      split <;> rfl
    rw [hcons]
    refine (List.flatMap_append_perm bs _ _).symm.trans ?_
    rw [hfirst]
    exact List.Perm.append_left _ ih

/-- Which side the loop is over changes the order only. -/
theorem loopJoin_swap (keepLeft keepRight : Bool) (as : List A) (bs : List B) :
    (loopJoin (fun b a => holds a b) (fun b a => row a b) keepRight keepLeft bs as).Perm
      (loopJoin holds row keepLeft keepRight as bs) := by
  refine (loopJoin_perm _ _ _ _ _ _).trans (List.Perm.trans ?_ (loopJoin_perm _ _ _ _ _ _).symm)
  exact (matched_swap holds row as bs).append List.perm_append_comm

variable {holds row}

/-- A join of bags. -/
theorem SameBag.loopJoin {holds' : A → B → Bool} {row' : Option A → Option B → C} {f : A → D}
    {g : B → E} {h : C → F} {as as' : List A} {bs bs' : List B} (keepLeft keepRight : Bool)
    (has : SameBag f as as') (hbs : SameBag g bs bs')
    (hholds : ∀ a a' b b', f a = f a' → g b = g b' → holds a b = holds' a' b')
    (hrow : ∀ a a' b b', Option.map f a = Option.map f a' → Option.map g b = Option.map g b' →
      h (row a b) = h (row' a' b')) :
    SameBag h (loopJoin holds row keepLeft keepRight as bs)
      (loopJoin holds' row' keepLeft keepRight as' bs') := by
  have hmatched : SameBag h (matched holds row as bs) (matched holds' row' as' bs') := by
    refine has.flatMap fun a a' ha => ?_
    refine SameBag.map (f := g) (hbs.filter fun b b' hb => hholds a a' b b' ha hb) ?_
    exact fun b b' hb => hrow _ _ _ _ (congrArg some ha) (congrArg some hb)
  have hleft : SameBag h (unmatchedLeft holds row as bs) (unmatchedLeft holds' row' as' bs') := by
    refine SameBag.map (f := f) (has.filter fun a a' ha => ?_) fun a a' ha =>
      hrow _ _ _ _ (congrArg some ha) rfl
    exact congrArg not (hbs.any_eq fun b b' hb => hholds a a' b b' ha hb)
  have hright : SameBag h (unmatchedRight holds row as bs) (unmatchedRight holds' row' as' bs') := by
    refine SameBag.map (f := g) (hbs.filter fun b b' hb => ?_) fun b b' hb =>
      hrow _ _ _ _ rfl (congrArg some hb)
    exact congrArg not (has.any_eq fun a a' ha => hholds a a' b b' ha hb)
  refine (SameBag.of_perm (loopJoin_perm _ _ _ _ _ _)).trans (SameBag.trans ?_
    (SameBag.of_perm (loopJoin_perm _ _ _ _ _ _)).symm)
  refine hmatched.append (SameBag.append ?_ ?_)
  · cases keepLeft
    · exact .refl _
    · exact hleft
  · cases keepRight
    · exact .refl _
    · exact hright

/-- A join does not depend on the order of its sides. -/
theorem loopJoin_congr (keepLeft keepRight : Bool) {as as' : List A} {bs bs' : List B}
    (has : as.Perm as') (hbs : bs.Perm bs') :
    (loopJoin holds row keepLeft keepRight as bs).Perm
      (loopJoin holds row keepLeft keepRight as' bs') := by
  have hbag : SameBag id (loopJoin holds row keepLeft keepRight as bs)
      (loopJoin holds row keepLeft keepRight as' bs') := by
    refine SameBag.loopJoin (f := id) (g := id) keepLeft keepRight (.of_perm has) (.of_perm hbs) ?_ ?_
    · intro a a' b b' ha hb
      rw [show a = a' from ha, show b = b' from hb]
    · intro a a' b b' ha hb
      rw [Option.map_id, id, id] at ha hb
      rw [ha, hb]
  unfold SameBag at hbag
  rw [List.map_id, List.map_id] at hbag
  exact hbag

end Joins

section Keyed

variable {K L : Type*} {keyA : A → Option K} {keyB : B → Option L} {row : Option A → Option B → C}
  {keepLeft keepRight : Bool} {as : List A} {bs : List B}

/-- Elements that have a key each, of which `test` holds. -/
def keyed (keyA : A → Option K) (keyB : B → Option L) (test : K → L → Bool) (a : A) (b : B) : Bool :=
  match keyA a, keyB b with
  | some k, some l => test k l
  | _, _ => false

theorem keyed_eq_true {test : K → L → Bool} {a : A} {b : B} :
    keyed keyA keyB test a b = true ↔
      ∃ k l, keyA a = some k ∧ keyB b = some l ∧ test k l = true := by
  unfold keyed
  cases keyA a <;> cases keyB b <;> simp

theorem loopJoin_holds_congr {holds holds' : A → B → Bool}
    (h : ∀ a ∈ as, ∀ b ∈ bs, holds a b = holds' a b) :
    loopJoin holds row keepLeft keepRight as bs = loopJoin holds' row keepLeft keepRight as bs := by
  have hprobe : ∀ a ∈ as,
      probe holds row keepLeft bs a = probe holds' row keepLeft bs a := fun a ha => by
    unfold probe
    rw [List.filter_congr (h a ha)]
  have hright : unmatchedRight holds row as bs = unmatchedRight holds' row as bs := by
    unfold unmatchedRight
    rw [List.filter_congr fun b hb => ?_]
    rw [Bool.eq_iff_iff, Bool.not_eq_true', Bool.not_eq_true', List.any_eq_false, List.any_eq_false]
    exact forall_congr' fun a => imp_congr_right fun ha => by rw [h a ha b hb]
  unfold loopJoin
  rw [List.flatMap_congr hprobe, hright]

variable (keepLeft keepRight) in
/-- A pair of keys shows in a row of the join if and only if it passes the test. -/
theorem exists_row_iff {keys : C → Option K × Option L}
    (hrow : ∀ a b, keys (row a b) = (a.bind keyA, b.bind keyB)) {test : K → L → Bool} {a : A} {b : B}
    {k : K} {l : L} (ha : a ∈ as) (hb : b ∈ bs) (hk : keyA a = some k) (hl : keyB b = some l) :
    (∃ c ∈ loopJoin (keyed keyA keyB test) row keepLeft keepRight as bs,
      keys c = (some k, some l)) ↔ test k l = true := by
  have hmem : ∀ c, c ∈ loopJoin (keyed keyA keyB test) row keepLeft keepRight as bs ↔ _ := fun c =>
    (loopJoin_perm (keyed keyA keyB test) row keepLeft keepRight as bs).mem_iff
  constructor
  · rintro ⟨c, hc, hkeys⟩
    rw [hmem, List.mem_append, List.mem_append] at hc
    obtain hc | hc | hc := hc
    · obtain ⟨a', -, hc⟩ := List.mem_flatMap.mp hc
      obtain ⟨b', hb', rfl⟩ := List.mem_map.mp hc
      obtain ⟨k', l', hk', hl', htest⟩ := keyed_eq_true.mp (List.mem_filter.mp hb').2
      rw [hrow, Prod.mk.injEq] at hkeys
      change keyA a' = some k ∧ keyB b' = some l at hkeys
      rw [hk', hl', Option.some.injEq, Option.some.injEq] at hkeys
      rwa [hkeys.1, hkeys.2] at htest
    · split at hc
      · obtain ⟨a', -, rfl⟩ := List.mem_map.mp hc
        rw [hrow, Prod.mk.injEq] at hkeys
        exact absurd hkeys.2 nofun
      · contradiction
    · split at hc
      · obtain ⟨b', -, rfl⟩ := List.mem_map.mp hc
        rw [hrow, Prod.mk.injEq] at hkeys
        exact absurd hkeys.1 nofun
      · contradiction
  · intro htest
    refine ⟨row (some a) (some b), (hmem _).mpr (List.mem_append_left _ ?_), ?_⟩
    · refine List.mem_flatMap.mpr ⟨a, ha, List.mem_map.mpr ⟨b, List.mem_filter.mpr ⟨hb, ?_⟩, rfl⟩⟩
      exact keyed_eq_true.mpr ⟨k, l, hk, hl, htest⟩
    · rw [hrow]
      exact Prod.ext hk hl

/-- Where rows show the keys of their sides, joins on two tests agree if and only if the
tests do, on every pair of keys. -/
theorem loopJoin_perm_iff {keys : C → Option K × Option L}
    (hrow : ∀ a b, keys (row a b) = (a.bind keyA, b.bind keyB)) {test test' : K → L → Bool} :
    (loopJoin (keyed keyA keyB test) row keepLeft keepRight as bs).Perm
        (loopJoin (keyed keyA keyB test') row keepLeft keepRight as bs) ↔
      ∀ a ∈ as, ∀ b ∈ bs, ∀ k l, keyA a = some k → keyB b = some l → test k l = test' k l := by
  constructor
  · intro h a ha b hb k l hk hl
    rw [Bool.eq_iff_iff, ← exists_row_iff keepLeft keepRight hrow ha hb hk hl,
      ← exists_row_iff keepLeft keepRight hrow ha hb hk hl]
    exact exists_congr fun c => and_congr_left fun _ => h.mem_iff
  · intro h
    refine .of_eq (loopJoin_holds_congr fun a ha b hb => ?_)
    unfold keyed
    cases hk : keyA a with
    | none => rfl
    | some k =>
      cases hl : keyB b with
      | none => rfl
      | some l => exact h a ha b hb k l hk hl

end Keyed

section Filtered

variable {holds : A → B → Bool} {row : Option A → Option B → C} (p : C → Bool)
  {keepLeft keepLeft' keepRight keepRight' : Bool} (as : List A) (bs : List B)

theorem probe_sublist (hleft : keepLeft' = true → keepLeft = true) (a : A) :
    (probe holds row keepLeft' bs a).Sublist (probe holds row keepLeft bs a) := by
  unfold probe
  dsimp only
  split
  · cases keepLeft' with
    | false => exact List.nil_sublist _
    | true => rw [hleft rfl]
  · exact .refl _

theorem loopJoin_sublist (hleft : keepLeft' = true → keepLeft = true)
    (hright : keepRight' = true → keepRight = true) :
    (loopJoin holds row keepLeft' keepRight' as bs).Sublist
      (loopJoin holds row keepLeft keepRight as bs) := by
  refine List.Sublist.append ?_ ?_
  · induction as with
    | nil => exact .refl _
    | cons a as ih =>
      rw [List.flatMap_cons, List.flatMap_cons]
      exact (probe_sublist bs hleft a).append ih
  · cases keepRight' with
    | false => exact List.nil_sublist _
    | true => rw [hright rfl]

theorem length_filter_loopJoin :
    ((loopJoin holds row keepLeft keepRight as bs).filter p).length =
      ((matched holds row as bs).filter p).length +
        ((if keepLeft then ((unmatchedLeft holds row as bs).filter p).length else 0) +
          if keepRight then ((unmatchedRight holds row as bs).filter p).length else 0) := by
  rw [((loopJoin_perm holds row keepLeft keepRight as bs).filter p).length_eq, List.filter_append,
    List.filter_append, List.length_append, List.length_append]
  cases keepLeft <;> cases keepRight <;> rfl

/-- The rows of one side that a join no longer keeps do not pass a test. -/
def Rejected (keep keep' : Bool) (cs : List C) : Prop :=
  keep = true → keep' = false → ∀ c ∈ cs, p c = false

theorem rejected_iff (hkeep : keepLeft' = true → keepLeft = true) (cs : List C) :
    Rejected p keepLeft keepLeft' cs ↔
      (if keepLeft' then (cs.filter p).length else 0) =
        if keepLeft then (cs.filter p).length else 0 := by
  have hnil : (cs.filter p).length = 0 ↔ ∀ c ∈ cs, p c = false := by
    rw [List.length_eq_zero_iff, List.filter_eq_nil_iff]
    exact forall₂_congr fun c _ => Bool.not_eq_true _ |>.to_iff
  unfold Rejected
  cases keepLeft with
  | false =>
    cases keepLeft' with
    | false => exact iff_of_true nofun rfl
    | true => exact absurd (hkeep rfl) Bool.false_ne_true
  | true =>
    cases keepLeft' with
    | false =>
      rw [if_neg Bool.false_ne_true, if_pos rfl, eq_comm (a := 0), hnil]
      exact ⟨fun h => h rfl rfl, fun h _ _ => h⟩
    | true => exact iff_of_true nofun rfl

/-- A join that keeps less has as many rows that pass a test exactly when what it no longer
keeps does not pass. -/
theorem length_filter_loopJoin_iff (hleft : keepLeft' = true → keepLeft = true)
    (hright : keepRight' = true → keepRight = true) :
    ((loopJoin holds row keepLeft' keepRight' as bs).filter p).length =
        ((loopJoin holds row keepLeft keepRight as bs).filter p).length ↔
      Rejected p keepLeft keepLeft' (unmatchedLeft holds row as bs) ∧
        Rejected p keepRight keepRight' (unmatchedRight holds row as bs) := by
  rw [rejected_iff p hleft, rejected_iff p hright, length_filter_loopJoin, length_filter_loopJoin]
  have hle : ∀ {keep keep' : Bool} (n : Nat), (keep' = true → keep = true) →
      (if keep' then n else 0) ≤ if keep then n else 0 := by
    intro keep keep' n h
    cases keep' with
    | false => exact Nat.zero_le _
    | true =>
      have hkeep := h rfl
      subst hkeep
      exact Nat.le_refl _
  have hlefts := hle ((unmatchedLeft holds row as bs).filter p).length hleft
  have hrights := hle ((unmatchedRight holds row as bs).filter p).length hright
  omega

/-- Then the rows that pass are the same, in the same order. -/
theorem filter_loopJoin_eq (hleft : keepLeft' = true → keepLeft = true)
    (hright : keepRight' = true → keepRight = true)
    (hlefts : Rejected p keepLeft keepLeft' (unmatchedLeft holds row as bs))
    (hrights : Rejected p keepRight keepRight' (unmatchedRight holds row as bs)) :
    (loopJoin holds row keepLeft' keepRight' as bs).filter p =
      (loopJoin holds row keepLeft keepRight as bs).filter p :=
  ((loopJoin_sublist as bs hleft hright).filter p).eq_of_length
    ((length_filter_loopJoin_iff p as bs hleft hright).mpr ⟨hlefts, hrights⟩)

theorem rejected_unmatchedLeft_iff {keep keep' : Bool} :
    Rejected p keep keep' (unmatchedLeft holds row as bs) ↔
      ¬ (keep = true ∧ keep' = false ∧
        ∃ a ∈ as, (∀ b ∈ bs, holds a b = false) ∧ p (row (some a) none) = true) := by
  unfold Rejected unmatchedLeft
  simp only [List.mem_map, List.mem_filter, Bool.not_eq_true', List.any_eq_false,
    Bool.not_eq_true]
  constructor
  · rintro h ⟨hkeep, hkeep', a, ha, hnone, hpass⟩
    exact Bool.false_ne_true ((h hkeep hkeep' _ ⟨a, ⟨ha, hnone⟩, rfl⟩).symm.trans hpass)
  · rintro h hkeep hkeep' _ ⟨a, ⟨ha, hnone⟩, rfl⟩
    exact Bool.eq_false_iff.mpr fun hpass => h ⟨hkeep, hkeep', a, ha, hnone, hpass⟩

theorem rejected_unmatchedRight_iff {keep keep' : Bool} :
    Rejected p keep keep' (unmatchedRight holds row as bs) ↔
      ¬ (keep = true ∧ keep' = false ∧
        ∃ b ∈ bs, (∀ a ∈ as, holds a b = false) ∧ p (row none (some b)) = true) :=
  @rejected_unmatchedLeft_iff B A C (fun b a => holds a b) (fun b a => row a b) p bs as keep keep'

end Filtered

section Related

variable {holds : A → B → Bool} {row : Option A → Option B → C} {holds' : D → E → Bool}
  {row' : Option D → Option E → F} {as : List A} {bs : List B} {ds : List D} {es : List E}
  {R : A → D → Prop} {S : B → E → Prop} {T : C → F → Prop}

/-- Joins of related lists are related row by row. -/
theorem loopJoin_forall₂ (keepLeft keepRight : Bool) (has : List.Forall₂ R as ds)
    (hbs : List.Forall₂ S bs es) (hholds : ∀ a d b e, R a d → S b e → holds a b = holds' d e)
    (hrow : ∀ a d b e, Option.Rel R a d → Option.Rel S b e → T (row a b) (row' d e)) :
    List.Forall₂ T (loopJoin holds row keepLeft keepRight as bs)
      (loopJoin holds' row' keepLeft keepRight ds es) := by
  have hfound : ∀ a d, R a d →
      List.Forall₂ S (bs.filter (holds a)) (es.filter (holds' d)) := by
    intro a d had
    apply List.rel_filter _ hbs
    intro b e hbe
    exact iff_of_eq (congrArg (· = true) (hholds a d b e had hbe))
  have hprobe : ∀ a d, R a d →
      List.Forall₂ T (probe holds row keepLeft bs a) (probe holds' row' keepLeft es d) := by
    intro a d had
    have hrows := hfound a d had
    unfold probe
    dsimp only
    generalize bs.filter (holds a) = found at hrows ⊢
    generalize es.filter (holds' d) = found' at hrows ⊢
    cases hrows with
    | nil =>
      cases keepLeft with
      | true => exact .cons (hrow _ _ _ _ (.some had) .none) .nil
      | false => exact .nil
    | cons hbe hrows =>
      exact .cons (hrow _ _ _ _ (.some had) (.some hbe))
        (List.rel_map (fun _ _ hbe => hrow _ _ _ _ (.some had) (.some hbe)) hrows)
  unfold loopJoin
  apply List.rel_append
  · exact List.rel_flatMap has fun a d had => hprobe a d had
  · cases keepRight with
    | false => exact .nil
    | true =>
      apply List.rel_map (R := S)
      · intro b e hbe
        exact hrow _ _ _ _ .none (.some hbe)
      · apply List.rel_filter _ hbs
        intro b e hbe
        have hany : (as.any fun a => holds a b) = ds.any fun d => holds' d e := by
          clear hfound hprobe
          induction has with
          | nil => rfl
          | cons had _ ih => rw [List.any_cons, List.any_cons, ih, hholds _ _ _ _ had hbe]
        exact iff_of_eq (congrArg (fun found => (!found) = true) hany)

end Related

section Pushed

variable {holds : A → B → Bool} {row : Option A → Option B → C} {p : C → Bool}

/-- A test of the left elements can be made before a join that keeps no right ones. -/
theorem filter_loopJoin_left {q : A → Bool} (h : ∀ a b, p (row (some a) b) = q a)
    (keepLeft : Bool) (as : List A) (bs : List B) :
    (loopJoin holds row keepLeft false as bs).filter p =
      loopJoin holds row keepLeft false (as.filter q) bs := by
  have hprobe : ∀ a, (probe holds row keepLeft bs a).filter p =
      if q a then probe holds row keepLeft bs a else [] := by
    intro a
    have hall : ∀ c ∈ probe holds row keepLeft bs a, p c = q a := by
      intro c hc
      unfold probe at hc
      dsimp only at hc
      split at hc
      · split at hc
        · rw [List.mem_singleton.mp hc, h]
        · cases hc
      · obtain ⟨b, -, rfl⟩ := List.mem_map.mp hc
        exact h a _
    rw [List.filter_congr hall]
    cases q a <;> simp
  unfold loopJoin
  rw [if_neg Bool.false_ne_true, if_neg Bool.false_ne_true, List.append_nil, List.append_nil,
    List.filter_flatMap, List.flatMap_congr fun a _ => hprobe a]
  induction as with
  | nil => rfl
  | cons a as ih =>
    rw [List.flatMap_cons, List.filter_cons, ih]
    cases q a <;> rfl

theorem probe_of_not_keepLeft (bs : List B) (a : A) :
    probe holds row false bs a =
      (bs.filter (holds a)).map fun b => row (some a) (some b) := by
  unfold probe
  cases bs.filter (holds a) <;> rfl

/-- A test of the right elements can be made before a join that keeps no left ones. -/
theorem filter_loopJoin_right {q : B → Bool} (h : ∀ a b, p (row a (some b)) = q b)
    (keepRight : Bool) (as : List A) (bs : List B) :
    (loopJoin holds row false keepRight as bs).filter p =
      loopJoin holds row false keepRight as (bs.filter q) := by
  have hmap : ∀ (side : Option A) (bs : List B),
      (bs.map fun b => row side (some b)).filter p =
        (bs.filter q).map fun b => row side (some b) := by
    intro side bs
    rw [List.filter_map]
    congr 1
    exact List.filter_congr fun b _ => h side b
  have hprobe : ∀ a, (probe holds row false bs a).filter p =
      probe holds row false (bs.filter q) a := by
    intro a
    rw [probe_of_not_keepLeft, probe_of_not_keepLeft, hmap, List.filter_filter, List.filter_filter]
    simp only [Bool.and_comm]
  unfold loopJoin
  rw [List.filter_append, List.filter_flatMap, List.flatMap_congr fun a _ => hprobe a]
  congr 1
  cases keepRight with
  | false => rfl
  | true =>
    rw [if_pos rfl, if_pos rfl]
    unfold unmatchedRight
    rw [hmap, List.filter_filter, List.filter_filter]
    simp only [Bool.and_comm]

end Pushed

end Cynos.Join
