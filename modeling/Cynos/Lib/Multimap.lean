import Mathlib.Algebra.Ring.Nat
import Mathlib.Data.List.Sort
import Mathlib.Logic.Function.Basic
import Mathlib.Order.Lattice

/-! Finite maps with a list of values for each key, stored as a list of pairs in
key order. The map itself is the function `values`; everything else about a
stored list is its order. -/
namespace Cynos.Multimap

variable {K V : Type*}

section Values

variable [DecidableEq K]

def values : List (K × List V) → K → List V
  | [], _ => []
  | (k, vs) :: rest, key => if key = k then vs else values rest key

@[simp] theorem values_nil (key : K) : values ([] : List (K × List V)) key = [] := rfl

theorem values_cons (k : K) (vs : List V) (rest : List (K × List V)) (key : K) :
    values ((k, vs) :: rest) key = if key = k then vs else values rest key := rfl

theorem values_eq_nil {es : List (K × List V)} {key : K} (h : ∀ e ∈ es, e.1 ≠ key) :
    values es key = [] := by
  induction es with
  | nil => rfl
  | cons e es ih =>
    obtain ⟨k, vs⟩ := e
    have hk : k ≠ key := h (k, vs) (by simp)
    rw [values_cons, if_neg hk.symm]
    exact ih fun e he => h e (by simp [he])

theorem values_append_of_ne {es fs : List (K × List V)} {key : K}
    (h : ∀ e ∈ es, e.1 ≠ key) : values (es ++ fs) key = values fs key := by
  induction es with
  | nil => rfl
  | cons e es ih =>
    obtain ⟨k, vs⟩ := e
    have hk : k ≠ key := h (k, vs) (by simp)
    rw [List.cons_append, values_cons, if_neg hk.symm]
    exact ih fun e he => h e (by simp [he])

/-- Two lists that differ in the entry of `k` only. -/
theorem values_middle {es fs : List (K × List V)} {k : K} (vs : List V)
    (hes : ∀ e ∈ es, e.1 ≠ k) :
    values (es ++ (k, vs) :: fs) = Function.update (values (es ++ fs)) k vs := by
  funext key
  by_cases hkey : key = k
  · subst hkey
    rw [values_append_of_ne hes, values_cons, if_pos rfl, Function.update_self]
  · rw [Function.update_of_ne hkey]
    induction es with
    | nil => rw [List.nil_append, values_cons, if_neg hkey, List.nil_append]
    | cons e es ih =>
      obtain ⟨k', vs'⟩ := e
      rw [List.cons_append, List.cons_append, values_cons, values_cons,
        ih fun e he => hes e (by simp [he])]

theorem values_replace {es fs : List (K × List V)} {k : K} (vs vs' : List V)
    (hes : ∀ e ∈ es, e.1 ≠ k) :
    values (es ++ (k, vs') :: fs) =
      Function.update (values (es ++ (k, vs) :: fs)) k vs' := by
  rw [values_middle vs' hes, values_middle vs hes, Function.update_idem]

theorem values_erase {es fs : List (K × List V)} {k : K} (vs : List V)
    (hes : ∀ e ∈ es, e.1 ≠ k) (hfs : ∀ e ∈ fs, e.1 ≠ k) :
    values (es ++ fs) = Function.update (values (es ++ (k, vs) :: fs)) k [] := by
  have hnil : values (es ++ fs) k = [] := by
    rw [values_append_of_ne hes, values_eq_nil hfs]
  rw [values_middle vs hes, Function.update_idem]
  exact (Function.update_eq_self_iff.mpr hnil.symm).symm

end Values

/-- Number of values stored under all keys. -/
def size (es : List (K × List V)) : Nat := (es.map fun e => e.2.length).sum

@[simp] theorem size_nil : size ([] : List (K × List V)) = 0 := rfl

@[simp] theorem size_append (es fs : List (K × List V)) :
    size (es ++ fs) = size es + size fs := by
  simp [size]

@[simp] theorem size_cons (e : K × List V) (es : List (K × List V)) :
    size (e :: es) = e.2.length + size es := by
  simp [size]

theorem size_perm {es fs : List (K × List V)} (h : es.Perm fs) : size es = size fs :=
  (h.map _).sum_nat

section Sorted

variable [LinearOrder K]

def Sorted (es : List (K × List V)) : Prop := es.Pairwise fun e f => e.1 < f.1

theorem values_of_mem {es : List (K × List V)} (hs : Sorted es) {k : K} {vs : List V}
    (h : (k, vs) ∈ es) : values es k = vs := by
  induction es with
  | nil => simp at h
  | cons e es ih =>
    obtain ⟨k', vs'⟩ := e
    rw [values_cons]
    rcases List.mem_cons.mp h with heq | hmem
    · obtain ⟨rfl, rfl⟩ := Prod.mk.injEq .. ▸ heq
      simp
    · have hlt : k' < k := List.rel_of_pairwise_cons hs hmem
      rw [if_neg hlt.ne', ih (List.Pairwise.of_cons hs) hmem]

theorem mem_of_values {es : List (K × List V)} {k : K} (h : values es k ≠ []) :
    (k, values es k) ∈ es := by
  induction es with
  | nil => simp at h
  | cons e es ih =>
    obtain ⟨k', vs'⟩ := e
    rw [values_cons] at h ⊢
    split_ifs at h ⊢ with hk
    · simp [hk]
    · exact List.mem_cons_of_mem _ (ih h)

theorem Sorted.nodup {es : List (K × List V)} (hs : Sorted es) : es.Nodup := by
  refine List.Pairwise.imp (fun {e f} hlt => ?_) hs
  rintro rfl
  exact lt_irrefl _ hlt

/-- A sorted list without empty entries is determined by its map. -/
theorem eq_of_values {es fs : List (K × List V)} (hes : Sorted es) (hfs : Sorted fs)
    (hne : ∀ e ∈ es, e.2 ≠ []) (hnf : ∀ e ∈ fs, e.2 ≠ []) (h : values es = values fs) :
    es = fs := by
  have hsub : ∀ {es fs : List (K × List V)}, Sorted es → (∀ e ∈ es, e.2 ≠ []) →
      values es = values fs → ∀ e ∈ es, e ∈ fs := by
    intro es fs hs hne hv e he
    have heq := values_of_mem hs he
    rw [hv] at heq
    have hmem : (e.1, values fs e.1) ∈ fs := mem_of_values (by rw [heq]; exact hne e he)
    rwa [heq] at hmem
  have hperm : es.Perm fs := (List.perm_ext_iff_of_nodup hes.nodup hfs.nodup).mpr fun e =>
    ⟨hsub hes hne h e, hsub hfs hnf h.symm e⟩
  exact hperm.eq_of_pairwise (fun e f _ _ (hef : e.1 < f.1) (hfe : f.1 < e.1) =>
    absurd hfe hef.not_gt) hes hfs

/-- A sorted list without empty entries around the entry of one key. -/
theorem Sorted.cut {es : List (K × List V)} (hs : Sorted es) (hne : ∀ e ∈ es, e.2 ≠ []) (k : K) :
    ∃ lo hi, Sorted (lo ++ hi) ∧ (∀ e ∈ lo ++ hi, e.2 ≠ []) ∧
      values (lo ++ hi) = Function.update (values es) k [] ∧
      size es = size (lo ++ hi) + (values es k).length := by
  by_cases hk : ∃ vs, (k, vs) ∈ es
  · obtain ⟨vs, hmem⟩ := hk
    obtain ⟨lo, hi, rfl⟩ := List.append_of_mem hmem
    obtain ⟨hlo, hhi, hcross⟩ := List.pairwise_append.mp hs
    have hbefore : ∀ e ∈ lo, e.1 ≠ k := fun e he => (hcross e he (k, vs) (by simp)).ne
    have hafter : ∀ e ∈ hi, e.1 ≠ k := fun e he => (List.rel_of_pairwise_cons hhi he).ne'
    have hsub : (lo ++ hi).Sublist (lo ++ (k, vs) :: hi) :=
      List.Sublist.append_left (List.sublist_cons_self ..) lo
    refine ⟨lo, hi, hs.sublist hsub, fun e he => hne e (hsub.subset he),
      values_erase vs hbefore hafter, ?_⟩
    rw [values_of_mem hs hmem, size_append, size_append, size_cons]
    dsimp only
    omega
  · have hnone : ∀ e ∈ es, e.1 ≠ k := by
      rintro e he rfl
      exact hk ⟨e.2, he⟩
    have hnil := values_eq_nil hnone
    refine ⟨es, [], by simpa using hs, by simpa using hne, ?_, by simp [hnil]⟩
    rw [List.append_nil, eq_comm, Function.update_eq_self_iff, hnil]

/-- Other values under one key change the size by as much. -/
theorem size_of_values {es fs : List (K × List V)} (hes : Sorted es) (hfs : Sorted fs)
    (hne : ∀ e ∈ es, e.2 ≠ []) (hnf : ∀ e ∈ fs, e.2 ≠ []) {k : K} {vs : List V}
    (h : values fs = Function.update (values es) k vs) :
    size fs + (values es k).length = size es + vs.length := by
  obtain ⟨lo, hi, hsorted, hstored, hvalues, hsize⟩ := hes.cut hne k
  obtain ⟨lo', hi', hsorted', hstored', hvalues', hsize'⟩ := hfs.cut hnf k
  have heq : lo ++ hi = lo' ++ hi' := eq_of_values hsorted hsorted' hstored hstored' <| by
    rw [hvalues, hvalues', h, Function.update_idem]
  rw [hsize, hsize', heq, h, Function.update_self]
  omega

/-- A sorted list is what sorting its pairs by their keys gives, however they were arranged. -/
theorem Sorted.eq_insertionSort {es fs : List (K × List V)} (hs : Sorted es) (h : fs.Perm es)
    {r : K × List V → K × List V → Prop} [DecidableRel r] (hr : ∀ e f, r e f ↔ e.1 ≤ f.1) :
    fs.insertionSort r = es := by
  have htotal : Std.Total r := ⟨fun e f => by simpa only [hr] using le_total e.1 f.1⟩
  have htrans : IsTrans _ r := ⟨fun e f g hef hfg => by
    rw [hr] at hef hfg ⊢
    exact hef.trans hfg⟩
  refine ((List.perm_insertionSort r fs).trans h).eq_of_pairwise ?_
    (List.pairwise_insertionSort r fs) (hs.imp fun hlt => (hr ..).mpr (le_of_lt hlt))
  intro e f he hf hef hfe
  have hkey : e.1 = f.1 := le_antisymm ((hr ..).mp hef) ((hr ..).mp hfe)
  have he' : e ∈ es := h.subset ((List.perm_insertionSort r fs).subset he)
  have hvalues := values_of_mem hs he'
  rw [hkey, values_of_mem hs hf] at hvalues
  exact Prod.ext hkey hvalues.symm

/-- One update for each entry of a sorted list, in its order. -/
theorem foldl_update {W : Type*} {f : W → List V → W} (hf : ∀ w, f w [] = w)
    {es : List (K × List V)} (hs : Sorted es) (m : K → W) :
    es.foldl (fun m e => Function.update m e.1 (f (m e.1) e.2)) m =
      fun key => f (m key) (values es key) := by
  induction es generalizing m with
  | nil =>
    funext key
    simp [hf]
  | cons e es ih =>
    obtain ⟨k, vs⟩ := e
    funext key
    rw [List.foldl_cons, ih (List.Pairwise.of_cons hs), values_cons]
    by_cases hkey : key = k
    · subst hkey
      have hnil : values es key = [] :=
        values_eq_nil fun e he => (List.rel_of_pairwise_cons hs he).ne'
      simp [hnil, hf]
    · simp [hkey]

end Sorted

end Cynos.Multimap
