import Mathlib.Data.List.Basic

/-! Runs of a partial step function. -/
namespace Cynos.Run

variable {σ τ α : Type*}

def run (step : σ → α → Option σ) (s : σ) (acts : List α) : Option σ := acts.foldlM step s

@[simp] theorem run_nil (step : σ → α → Option σ) (s : σ) : run step s [] = some s := rfl

@[simp] theorem run_cons (step : σ → α → Option σ) (s : σ) (a : α) (acts : List α) :
    run step s (a :: acts) = (step s a).bind fun s' => run step s' acts := rfl

theorem run_append (step : σ → α → Option σ) (s : σ) (acts acts' : List α) :
    run step s (acts ++ acts') = (run step s acts).bind fun s' => run step s' acts' := by
  simp [run, List.foldlM_append]

theorem run_total (step : σ → α → σ) (s : σ) (acts : List α) :
    run (fun s a => some (step s a)) s acts = some (acts.foldl step s) := by
  induction acts generalizing s with
  | nil => rfl
  | cons a acts ih => rw [run_cons, Option.bind_some, ih, List.foldl_cons]

/-- Every step of the run is taken in a state that allows it. -/
def Along (step : σ → α → Option σ) (p : σ → α → Prop) : σ → List α → Prop
  | _, [] => True
  | s, a :: acts => p s a ∧ (step s a).elim True fun s' => Along step p s' acts

instance Along.decidable {step : σ → α → Option σ} {p : σ → α → Prop}
    [∀ s a, Decidable (p s a)] : ∀ s acts, Decidable (Along step p s acts)
  | _, [] => .isTrue trivial
  | s, a :: acts =>
    match h : step s a with
    | none => decidable_of_iff (p s a) (by simp [Along, h])
    | some s' =>
      have : Decidable (Along step p s' acts) := Along.decidable s' acts
      decidable_of_iff (p s a ∧ Along step p s' acts) (by simp [Along, h])

/-- A loop over the elements with their indices. -/
theorem run_zipIdx {I : Nat → σ → Prop} {step : σ → α × Nat → Option σ} {xs : List α}
    (hstep : ∀ i x s, xs[i]? = some x → I i s → ∃ s', step s (x, i) = some s' ∧ I (i + 1) s')
    {s : σ} (h : I 0 s) : ∃ s', run step s xs.zipIdx = some s' ∧ I xs.length s' := by
  suffices ∀ ys pre s, xs = pre ++ ys → I pre.length s →
      ∃ s', run step s (ys.zipIdx pre.length) = some s' ∧ I xs.length s' from this xs [] s rfl h
  intro ys
  induction ys with
  | nil =>
    rintro pre s rfl h
    exact ⟨s, rfl, by rwa [List.append_nil]⟩
  | cons x ys ih =>
    intro pre s hxs h
    obtain ⟨next, hnext, hI⟩ := hstep pre.length x s (by simp [hxs]) h
    obtain ⟨s', hs', hdone⟩ := ih (pre ++ [x]) next (by simp [hxs]) (by simpa using hI)
    refine ⟨s', ?_, hdone⟩
    rw [List.zipIdx_cons, run_cons, hnext, Option.bind_some]
    simpa using hs'

variable {step : σ → α → Option σ} {p q : σ → α → Prop}

theorem Along.imp (hpq : ∀ s a, p s a → q s a) {s : σ} {acts : List α}
    (h : Along step p s acts) : Along step q s acts := by
  induction acts generalizing s with
  | nil => trivial
  | cons a acts ih =>
    refine ⟨hpq s a h.1, ?_⟩
    have := h.2
    cases hs : step s a with
    | none => trivial
    | some s' =>
      rw [hs] at this
      exact ih this

theorem Along.and {s : σ} {acts : List α} (hp : Along step p s acts)
    (hq : Along step q s acts) : Along step (fun s a => p s a ∧ q s a) s acts := by
  induction acts generalizing s with
  | nil => trivial
  | cons a acts ih =>
    refine ⟨⟨hp.1, hq.1⟩, ?_⟩
    have hp' := hp.2
    have hq' := hq.2
    cases hs : step s a with
    | none => trivial
    | some s' =>
      rw [hs] at hp' hq'
      exact ih hp' hq'

theorem along_of_forall {s : σ} {acts : List α} (h : ∀ s, ∀ a ∈ acts, p s a) :
    Along step p s acts := by
  induction acts generalizing s with
  | nil => trivial
  | cons a acts ih =>
    refine ⟨h s a (by simp), ?_⟩
    cases step s a with
    | none => trivial
    | some s' => exact ih fun s a ha => h s a (by simp [ha])

theorem along_total_append {f : σ → α → σ} {s : σ} {acts acts' : List α} :
    Along (fun s a => some (f s a)) p s (acts ++ acts') ↔
      Along (fun s a => some (f s a)) p s acts ∧
        Along (fun s a => some (f s a)) p (acts.foldl f s) acts' := by
  induction acts generalizing s with
  | nil => exact (true_and _).to_iff.symm
  | cons a acts ih =>
    change (p s a ∧ Along _ _ (f s a) (acts ++ acts')) ↔ (p s a ∧ Along _ _ (f s a) acts) ∧ _
    rw [ih, and_assoc]
    rfl

/-- Steps that succeed on both sides and keep a relation make runs do so. -/
theorem lockstep {R : σ → τ → Prop} {f : τ → α → Option τ}
    (hstep : ∀ s m a, R s m → p s a →
      ∃ s' m', step s a = some s' ∧ f m a = some m' ∧ R s' m')
    {s : σ} {m : τ} (h : R s m) {acts : List α} (hp : Along step p s acts) :
    ∃ s' m', run step s acts = some s' ∧ run f m acts = some m' ∧ R s' m' := by
  induction acts generalizing s m with
  | nil => exact ⟨s, m, rfl, rfl, h⟩
  | cons a acts ih =>
    obtain ⟨s1, m1, hs1, hm1, h1⟩ := hstep s m a h hp.1
    have hrest := hp.2
    rw [hs1] at hrest
    obtain ⟨s', m', hs', hm', h'⟩ := ih h1 hrest
    exact ⟨s', m', by rw [run_cons, hs1]; exact hs', by rw [run_cons, hm1]; exact hm', h'⟩

/-- Steps that keep a relation to an abstract state make runs keep it. -/
theorem simulates {R : σ → τ → Prop} (abs : τ → α → τ)
    (hstep : ∀ s m a, R s m → p s a → ∃ s', step s a = some s' ∧ R s' (abs m a))
    {s : σ} {m : τ} (h : R s m) {acts : List α} (hp : Along step p s acts) :
    ∃ s', run step s acts = some s' ∧ R s' (acts.foldl abs m) := by
  obtain ⟨s', m', hs', hm', h'⟩ := lockstep (f := fun m a => some (abs m a))
    (fun s m a hR ha => by
      obtain ⟨s', hs', h'⟩ := hstep s m a hR ha
      exact ⟨s', abs m a, hs', rfl, h'⟩) h hp
  rw [run_total, Option.some.injEq] at hm'
  exact ⟨s', hs', hm' ▸ h'⟩

/-- Steps that keep an invariant make runs keep it. -/
theorem preserves {I : σ → Prop} (hstep : ∀ s a, I s → p s a → ∃ s', step s a = some s' ∧ I s')
    {s : σ} (h : I s) {acts : List α} (hp : Along step p s acts) :
    ∃ s', run step s acts = some s' ∧ I s' := by
  obtain ⟨s', hs', h'⟩ := simulates (R := fun s (_ : Unit) => I s) (fun m _ => m)
    (fun s _ a hi hpa => hstep s a hi hpa) (m := ()) h hp
  exact ⟨s', hs', h'⟩

section Reverts

variable {ε : Type*}

/-- Undoing the entries, last one first, from whatever is like the state they have led to, leads
to something like the state they were made in. -/
def Reverts (Like : σ → σ → Prop) (undo : σ → ε → Option σ) (before after : σ)
    (entries : List ε) : Prop :=
  ∀ state, Like after state → ∃ back, run undo state entries.reverse = some back ∧ Like before back

variable {Like : σ → σ → Prop} {undo : σ → ε → Option σ} {first second third : σ}
  {entries entries' : List ε}

theorem Reverts.nil (h : ∀ state, Like second state → Like first state) :
    Reverts Like undo first second [] := fun state hstate => ⟨state, rfl, h state hstate⟩

theorem reverts_singleton {entry : ε} : Reverts Like undo first second [entry] ↔
    ∀ state, Like second state → ∃ back, undo state entry = some back ∧ Like first back := by
  simp [Reverts]

theorem Reverts.append (h : Reverts Like undo first second entries)
    (h' : Reverts Like undo second third entries') :
    Reverts Like undo first third (entries ++ entries') := by
  intro state hstate
  obtain ⟨middle, hmiddle, hlike⟩ := h' state hstate
  obtain ⟨back, hback, hfirst⟩ := h middle hlike
  refine ⟨back, ?_, hfirst⟩
  rw [List.reverse_append, run_append, hmiddle, Option.bind_some, hback]

end Reverts

end Cynos.Run
