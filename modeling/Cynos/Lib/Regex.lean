import Mathlib.Data.List.Basic
import Mathlib.Logic.Relation

/-! Patterns that are a sequence of character classes, each with a quantifier: where they match,
and that a greedy search with backtracking ends at the longest match. -/
namespace Cynos.Regex

inductive Quantifier where
  | one
  | star
  | plus
  | question
  deriving DecidableEq

section Repeat

/-- How often a quantifier lets a step be taken. -/
def Quantifier.Repeats : Quantifier → (Nat → Nat → Prop) → Nat → Nat → Prop
  | .one, step, i, j => step i j
  | .star, step, i, j => Relation.ReflTransGen step i j
  | .plus, step, i, j => Relation.TransGen step i j
  | .question, step, i, j => step i j ∨ i = j

end Repeat

/-- A class of characters with a quantifier. -/
structure Element (A : Type) where
  accepts : A → Bool
  quantifier : Quantifier

section Elements

variable {A : Type} (s : List A)

def AcceptsAt (accepts : A → Bool) (i : Nat) : Prop := s[i]?.any accepts = true

def Accepted (accepts : A → Bool) (i j : Nat) : Prop :=
  i ≤ j ∧ ∀ p, i ≤ p → p < j → AcceptsAt s accepts p

def Quantifier.Allows : Quantifier → Nat → Nat → Prop
  | .one, i, j => j = i + 1
  | .star, _, _ => True
  | .plus, i, j => i < j
  | .question, i, j => j ≤ i + 1

structure Element.Matches (e : Element A) (i j : Nat) : Prop where
  accepted : Accepted s e.accepts i j
  allowed : e.quantifier.Allows i j

/-- A sequence of elements matches the part of a text from `i` up to `j`. -/
def Matches : List (Element A) → Nat → Nat → Prop
  | [], i, j => i = j
  | e :: es, i, j => ∃ m, e.Matches s i m ∧ Matches es m j

variable {s}

theorem matches_append {es es' : List (Element A)} {i j : Nat} :
    Matches s (es ++ es') i j ↔ ∃ m, Matches s es i m ∧ Matches s es' m j := by
  induction es generalizing i with
  | nil => simp [Matches]
  | cons e es ih =>
    simp only [List.cons_append, Matches, ih]
    constructor
    · rintro ⟨m, he, m', hes, hes'⟩
      exact ⟨m', ⟨m, he, hes⟩, hes'⟩
    · rintro ⟨m', ⟨m, he, hes⟩, hes'⟩
      exact ⟨m, he, m', hes, hes'⟩

theorem Element.Matches.le {e : Element A} {i j : Nat} (h : e.Matches s i j) : i ≤ j :=
  h.accepted.1

theorem Matches.le {es : List (Element A)} {i j : Nat} (h : Matches s es i j) : i ≤ j := by
  induction es generalizing i with
  | nil => exact Nat.le_of_eq h
  | cons e es ih =>
    obtain ⟨m, he, hes⟩ := h
    exact Nat.le_trans he.le (ih hes)

/-- A match that starts later and ends earlier can end as late. -/
theorem Element.Matches.cross {e : Element A} {i j i' j' : Nat} (h : e.Matches s i j)
    (h' : e.Matches s i' j') (hstart : i ≤ i') (hend : j' < j) : e.Matches s i' j := by
  have hle := h'.le
  refine ⟨⟨by omega, fun p hp hpj => h.accepted.2 p (by omega) hpj⟩, ?_⟩
  have hallowed := h.allowed
  have hallowed' := h'.allowed
  cases hq : e.quantifier <;> simp only [hq, Quantifier.Allows] at hallowed hallowed' ⊢ <;> omega

theorem Matches.cross {es : List (Element A)} {i j i' j' : Nat} (h : Matches s es i j)
    (h' : Matches s es i' j') (hstart : i ≤ i') (hend : j' < j) : Matches s es i' j := by
  induction es generalizing i i' with
  | nil =>
    obtain rfl : i = j := h
    obtain rfl : i' = j' := h'
    omega
  | cons e es ih =>
    obtain ⟨m, he, hes⟩ := h
    obtain ⟨m', he', hes'⟩ := h'
    rcases Nat.lt_or_ge m' m with hm | hm
    · exact ⟨m, he.cross he' hstart hm, hes⟩
    · exact ⟨m', he', ih hes hes' hm⟩

end Elements

section Search

variable {A : Type} (s : List A)

/-- How many characters from `i` on are accepted. -/
def runLength (accepts : A → Bool) (i : Nat) : Nat := ((s.drop i).takeWhile accepts).length

/-- The ends that a greedy search tries, the latest first. -/
def Element.ends (e : Element A) (i : Nat) : List Nat :=
  match e.quantifier with
  | .one => if s[i]?.any e.accepts then [i + 1] else []
  | .star => (List.range' i (runLength s e.accepts i + 1)).reverse
  | .plus =>
    if s[i]?.any e.accepts then (List.range' (i + 1) (runLength s e.accepts (i + 1) + 1)).reverse
    else []
  | .question => if s[i]?.any e.accepts then [i + 1, i] else [i]

/-- The end that the search comes to. -/
def firstEnd : List (Element A) → Nat → Option Nat
  | [], i => some i
  | e :: es, i => (e.ends s i).findSome? (firstEnd es)

variable {s}

theorem le_length_takeWhile_iff {accepts : A → Bool} {as : List A} {n : Nat} :
    n ≤ (as.takeWhile accepts).length ↔ ∀ p < n, as[p]?.any accepts = true := by
  induction as generalizing n with
  | nil =>
    cases n with
    | zero => simp
    | succ n => exact iff_of_false (by simp) fun h => by simpa using h 0 (Nat.succ_pos n)
  | cons a as ih =>
    cases n with
    | zero => simp
    | succ n =>
      rw [List.takeWhile_cons]
      cases ha : accepts a with
      | false =>
        refine iff_of_false (by simp) fun h => ?_
        have := h 0 (Nat.succ_pos n)
        simp [ha] at this
      | true =>
        rw [if_pos rfl, List.length_cons, Nat.add_le_add_iff_right, ih, Nat.forall_lt_succ_left']
        simp [ha]

theorem accepted_iff {accepts : A → Bool} {i j : Nat} :
    Accepted s accepts i j ↔ i ≤ j ∧ j ≤ i + runLength s accepts i := by
  unfold Accepted AcceptsAt runLength
  refine and_congr_right fun hij => ?_
  have hlength : j ≤ i + ((s.drop i).takeWhile accepts).length ↔
      j - i ≤ ((s.drop i).takeWhile accepts).length := by omega
  rw [hlength, le_length_takeWhile_iff]
  simp only [List.getElem?_drop]
  constructor
  · exact fun h p hp => h (i + p) (by omega) (by omega)
  · intro h p hp hpj
    have := h (p - i) (by omega)
    rwa [Nat.add_sub_cancel' hp] at this

theorem accepted_succ_iff {accepts : A → Bool} {i j : Nat} (hij : i < j) :
    Accepted s accepts i j ↔ AcceptsAt s accepts i ∧ Accepted s accepts (i + 1) j := by
  constructor
  · exact fun h => ⟨h.2 i (Nat.le_refl i) hij, hij, fun p hp => h.2 p (by omega)⟩
  · rintro ⟨hi, -, h⟩
    refine ⟨by omega, fun p hp hpj => ?_⟩
    by_cases hpi : p = i
    · exact hpi ▸ hi
    · exact h p (by omega) hpj

theorem accepted_self (accepts : A → Bool) (i : Nat) : Accepted s accepts i i :=
  ⟨Nat.le_refl i, fun p hp hpi => by omega⟩

theorem Element.matches_iff {e : Element A} {i j : Nat} :
    e.Matches s i j ↔ Accepted s e.accepts i j ∧ e.quantifier.Allows i j :=
  ⟨fun h => ⟨h.accepted, h.allowed⟩, fun h => ⟨h.1, h.2⟩⟩

theorem mem_run {accepts : A → Bool} {i j : Nat} :
    j ∈ (List.range' i (runLength s accepts i + 1)).reverse ↔ Accepted s accepts i j := by
  rw [List.mem_reverse, List.mem_range'_1, accepted_iff]
  omega

/-- Classes that agree on the text match the same parts of it. -/
theorem Element.matches_congr {accepts accepts' : A → Bool} (h : ∀ a ∈ s, accepts a = accepts' a)
    (quantifier : Quantifier) {i j : Nat} :
    Element.Matches s ⟨accepts, quantifier⟩ i j ↔ Element.Matches s ⟨accepts', quantifier⟩ i j := by
  have hat : ∀ p, AcceptsAt s accepts p ↔ AcceptsAt s accepts' p := by
    intro p
    unfold AcceptsAt
    cases hget : s[p]? with
    | none => rfl
    | some a => rw [Option.any_some, Option.any_some, h a (List.mem_of_getElem? hget)]
  simp only [Element.matches_iff, Accepted, hat]

theorem accepted_next {accepts : A → Bool} {i : Nat} :
    Accepted s accepts i (i + 1) ↔ s[i]?.any accepts = true := by
  rw [accepted_succ_iff (Nat.lt_succ_self i), and_iff_left (accepted_self accepts (i + 1))]
  rfl

theorem mem_ends {e : Element A} {i j : Nat} : j ∈ e.ends s i ↔ e.Matches s i j := by
  rw [Element.matches_iff]
  obtain ⟨accepts, quantifier⟩ := e
  cases quantifier with
  | one =>
    have hif : j ∈ (if s[i]?.any accepts then [i + 1] else []) ↔
        j = i + 1 ∧ s[i]?.any accepts = true := by split <;> simp_all
    refine hif.trans ?_
    constructor
    · rintro ⟨rfl, hi⟩
      exact ⟨accepted_next.mpr hi, rfl⟩
    · rintro ⟨h, rfl⟩
      exact ⟨rfl, accepted_next.mp h⟩
  | star => exact mem_run.trans (and_iff_left trivial).symm
  | plus =>
    have hif : ∀ run : List Nat, j ∈ (if s[i]?.any accepts then run else []) ↔
        s[i]?.any accepts = true ∧ j ∈ run := by
      intro run
      split <;> simp_all
    refine (hif _).trans ?_
    rw [mem_run]
    constructor
    · exact fun h => ⟨(accepted_succ_iff h.2.1).mpr h, h.2.1⟩
    · exact fun h => (accepted_succ_iff h.2).mp h.1
  | question =>
    have hif : j ∈ (if s[i]?.any accepts then [i + 1, i] else [i]) ↔
        j = i ∨ j = i + 1 ∧ s[i]?.any accepts = true := by
      split
      · simp_all [or_comm]
      · simp_all
    refine hif.trans ?_
    constructor
    · rintro (rfl | ⟨rfl, hi⟩)
      · exact ⟨accepted_self accepts j, Nat.le_succ j⟩
      · exact ⟨accepted_next.mpr hi, Nat.le_refl (i + 1)⟩
    · rintro ⟨h, hallowed⟩
      have hallowed : j ≤ i + 1 := hallowed
      rcases Nat.lt_or_ge i j with hlt | hge
      · obtain rfl : j = i + 1 := by omega
        exact .inr ⟨rfl, accepted_next.mp h⟩
      · exact .inl (Nat.le_antisymm hge h.1)

theorem ends_decreasing (e : Element A) (i : Nat) : (e.ends s i).Pairwise (· > ·) := by
  have hrun : ∀ i n, (List.range' i n).reverse.Pairwise (· > ·) := by
    intro i n
    rw [List.pairwise_reverse]
    exact List.pairwise_lt_range'
  unfold Element.ends
  split
  · split <;> simp
  · exact hrun _ _
  · split
    · exact hrun _ _
    · exact .nil
  · split <;> simp

/-- The search finds a match where there is one, and then the longest. -/
theorem firstEnd_spec (es : List (Element A)) (i : Nat) :
    (∀ j, firstEnd s es i = some j →
      Matches s es i j ∧ ∀ j', Matches s es i j' → j' ≤ j) ∧
    (firstEnd s es i = none → ∀ j, ¬ Matches s es i j) := by
  induction es generalizing i with
  | nil =>
    refine ⟨fun j hj => ?_, fun h => by cases h⟩
    obtain rfl := Option.some.inj hj
    exact ⟨rfl, fun j' hj' => Nat.le_of_eq hj'.symm⟩
  | cons e es ih =>
    constructor
    · intro j hj
      obtain ⟨front, m, back, hends, hm, hfront⟩ := List.findSome?_eq_some_iff.mp hj
      obtain ⟨hmatch, hlongest⟩ := (ih m).1 j hm
      have he : e.Matches s i m := mem_ends.mp (by rw [hends]; simp)
      refine ⟨⟨m, he, hmatch⟩, ?_⟩
      rintro j' ⟨m', he', hmatch'⟩
      have hle : m' ≤ m := by
        have hm' : m' ∈ front ++ m :: back := hends ▸ mem_ends.mpr he'
        have hdecreasing := hends ▸ ends_decreasing (s := s) e i
        rcases List.mem_append.mp hm' with hmem | hmem
        · exact absurd hmatch' ((ih m').2 (hfront m' hmem) j')
        · rcases List.mem_cons.mp hmem with rfl | hmem
          · exact Nat.le_refl m'
          · have hback := (List.pairwise_append.mp hdecreasing).2.1
            exact Nat.le_of_lt ((List.pairwise_cons.mp hback).1 m' hmem)
      by_contra hlt
      exact hlt (hlongest j' (hmatch'.cross hmatch hle (Nat.lt_of_not_le hlt)))
    · rintro hnone j ⟨m, he, hmatch⟩
      exact (ih m).2 (List.findSome?_eq_none_iff.mp hnone m (mem_ends.mpr he)) j hmatch

/-- A match ends at `n`, the end of the text, just when the search ends there. -/
theorem firstEnd_eq_some_iff {es : List (Element A)} {i n : Nat}
    (hlast : ∀ j, Matches s es i j → j ≤ n) : firstEnd s es i = some n ↔ Matches s es i n := by
  constructor
  · exact fun h => ((firstEnd_spec es i).1 n h).1
  · intro h
    cases hfirst : firstEnd s es i with
    | none => exact absurd h ((firstEnd_spec es i).2 hfirst n)
    | some j =>
      obtain ⟨hmatch, hlongest⟩ := (firstEnd_spec es i).1 j hfirst
      rw [Nat.le_antisymm (hlast j hmatch) (hlongest n h)]

theorem firstEnd_isSome_iff {es : List (Element A)} {i : Nat} :
    (firstEnd s es i).isSome ↔ ∃ j, Matches s es i j := by
  cases hfirst : firstEnd s es i with
  | none => exact iff_of_false Bool.false_ne_true fun ⟨j, h⟩ => (firstEnd_spec es i).2 hfirst j h
  | some j => exact iff_of_true rfl ⟨j, ((firstEnd_spec es i).1 j hfirst).1⟩

/-- A match does not run over the end of the text. -/
theorem Matches.le_length {es : List (Element A)} {i j : Nat} (h : Matches s es i j)
    (hi : i ≤ s.length) : j ≤ s.length := by
  induction es generalizing i with
  | nil => exact h ▸ hi
  | cons e es ih =>
    obtain ⟨m, he, hes⟩ := h
    refine ih hes ?_
    by_contra hm
    have hpos : i ≤ m - 1 ∧ m - 1 < m := by omega
    have := he.accepted.2 (m - 1) hpos.1 hpos.2
    rw [AcceptsAt, List.getElem?_eq_none (by omega)] at this
    cases this

end Search

section Steps

variable {A : Type} {s : List A} {accepts : A → Bool} {i j : Nat}

/-- Over one character of a class. -/
def Step (s : List A) (accepts : A → Bool) (i j : Nat) : Prop := AcceptsAt s accepts i ∧ j = i + 1

theorem reflTransGen_step_iff :
    Relation.ReflTransGen (Step s accepts) i j ↔ Accepted s accepts i j := by
  constructor
  · intro h
    induction h with
    | refl => exact accepted_self accepts i
    | tail _ hstep ih =>
      obtain ⟨hat, rfl⟩ := hstep
      refine ⟨Nat.le_succ_of_le ih.1, fun p hp hpj => ?_⟩
      rcases Nat.lt_succ_iff_lt_or_eq.mp hpj with hlt | rfl
      · exact ih.2 p hp hlt
      · exact hat
  · rintro ⟨hij, h⟩
    induction hij with
    | refl => exact .refl
    | @step m hij ih =>
      exact (ih fun p hp hpm => h p hp (Nat.lt_succ_of_lt hpm)).tail
        ⟨h m hij (Nat.lt_succ_self m), rfl⟩

/-- A quantified class matches where its quantifier lets the class be repeated. -/
theorem repeats_step_iff (quantifier : Quantifier) :
    quantifier.Repeats (Step s accepts) i j ↔ Element.Matches s ⟨accepts, quantifier⟩ i j := by
  rw [Element.matches_iff]
  cases quantifier with
  | one =>
    constructor
    · rintro ⟨hat, rfl⟩
      exact ⟨accepted_next.mpr hat, rfl⟩
    · rintro ⟨h, rfl⟩
      exact ⟨accepted_next.mp h, rfl⟩
  | star => exact reflTransGen_step_iff.trans (and_iff_left trivial).symm
  | plus =>
    refine Relation.TransGen.head'_iff.trans ?_
    constructor
    · rintro ⟨m, ⟨hat, rfl⟩, hrest⟩
      have hrest := reflTransGen_step_iff.mp hrest
      exact ⟨(accepted_succ_iff hrest.1).mpr ⟨hat, hrest⟩, hrest.1⟩
    · rintro ⟨h, hij⟩
      have h := (accepted_succ_iff hij).mp h
      exact ⟨i + 1, ⟨h.1, rfl⟩, reflTransGen_step_iff.mpr h.2⟩
  | question =>
    constructor
    · rintro (⟨hat, rfl⟩ | rfl)
      · exact ⟨accepted_next.mpr hat, Nat.le_refl (i + 1)⟩
      · exact ⟨accepted_self accepts i, Nat.le_succ i⟩
    · rintro ⟨h, hallowed⟩
      have hallowed : j ≤ i + 1 := hallowed
      rcases Nat.lt_or_ge i j with hlt | hge
      · obtain rfl : j = i + 1 := by omega
        exact .inl ⟨accepted_next.mp h, rfl⟩
      · exact .inr (Nat.le_antisymm h.1 hge)

end Steps

end Cynos.Regex
