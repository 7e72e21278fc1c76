import Mathlib.Data.List.Basic

/-! Callbacks that are handed elements one after the other until they decline to go on. -/
namespace Cynos.Visitor

variable {A B σ : Type}

def visit (visitor : σ → A → σ × Bool) (state : σ) : List A → σ
  | [] => state
  | a :: as =>
    if (visitor state a).2 then visit visitor (visitor state a).1 as else (visitor state a).1

/-- Hands on what `pick` makes of an element and passes over the others. -/
def picking (pick : A → Option B) (visitor : σ → B → σ × Bool) (state : σ) (a : A) : σ × Bool :=
  (pick a).elim (state, true) (visitor state)

structure Window (σ : Type) where
  skipped : Nat
  emitted : Nat
  state : σ

/-- Passes over the first elements and declines those behind `limit` more. -/
def windowed (limit : Option Nat) (offset : Nat) (visitor : σ → A → σ × Bool) (w : Window σ)
    (a : A) : Window σ × Bool :=
  if w.skipped < offset then ({ w with skipped := w.skipped + 1 }, true)
  else if limit.any (w.emitted ≥ ·) then (w, false)
  else (⟨w.skipped, w.emitted + 1, (visitor w.state a).1⟩, (visitor w.state a).2)

def window (limit : Option Nat) (offset : Nat) (as : List A) : List A :=
  limit.elim (as.drop offset) (as.drop offset).take

variable {visitor : σ → A → σ × Bool} {state : σ}

theorem visit_picking (pick : A → Option B) (visitor : σ → B → σ × Bool) (state : σ)
    (as : List A) :
    visit (picking pick visitor) state as = visit visitor state (as.filterMap pick) := by
  induction as generalizing state with
  | nil => rfl
  | cons a as ih =>
    rw [List.filterMap_cons, visit, picking]
    cases pick a with
    | none => exact ih state
    | some b =>
      dsimp only [Option.elim_some]
      rw [visit]
      exact if_congr .rfl (ih _) rfl

theorem window_nil (limit : Option Nat) (offset : Nat) :
    window limit offset ([] : List A) = [] := by
  cases limit <;> simp [window]

theorem window_map (f : A → B) (limit : Option Nat) (offset : Nat) (as : List A) :
    window limit offset (as.map f) = (window limit offset as).map f := by
  cases limit <;> simp [window]

/-- A window of what is picked, where everything is. -/
theorem window_filterMap {pick : A → Option B} {as : List A} (h : ∀ a ∈ as, (pick a).isSome)
    (limit : Option Nat) (offset : Nat) :
    (window limit offset as).filterMap pick = window limit offset (as.filterMap pick) := by
  have hpicked : as.map pick = (as.filterMap pick).map some := by
    induction as with
    | nil => rfl
    | cons a as ih =>
      obtain ⟨b, hb⟩ := Option.isSome_iff_exists.mp (h a List.mem_cons_self)
      rw [List.map_cons, List.filterMap_cons_some hb, List.map_cons, hb,
        ih fun a' ha' => h a' (List.mem_cons_of_mem a ha')]
  have hid : ∀ xs : List A, xs.filterMap pick = (xs.map pick).filterMap id := fun xs => by
    rw [List.filterMap_map, Function.id_comp]
  rw [hid, ← window_map, hpicked, window_map, List.filterMap_map]
  exact List.filterMap_some

/-- What a window still takes of the elements to come. -/
theorem visit_windowed_from (limit : Option Nat) (offset : Nat) (as : List A) (w : Window σ) :
    (visit (windowed limit offset visitor) w as).state =
      visit visitor w.state (window (limit.map (· - w.emitted)) (offset - w.skipped) as) := by
  induction as generalizing w with
  | nil => rw [window_nil, visit, visit]
  | cons a as ih =>
    rw [visit, windowed]
    by_cases hskip : w.skipped < offset
    · have hoffset : offset - w.skipped = offset - (w.skipped + 1) + 1 := by omega
      rw [if_pos hskip, if_pos rfl, ih, hoffset, window, window, List.drop_succ_cons]
    have hoffset : offset - w.skipped = 0 := by omega
    rw [if_neg hskip, hoffset]
    by_cases hfull : limit.any (w.emitted ≥ ·) = true
    · rw [if_pos hfull, if_neg Bool.false_ne_true]
      cases limit with
      | none => cases hfull
      | some l =>
        have hnone : l - w.emitted = 0 := Nat.sub_eq_zero_of_le (of_decide_eq_true hfull)
        simp [window, hnone, visit]
    · have hwindow : window (limit.map (· - w.emitted)) 0 (a :: as) =
          a :: window (limit.map (· - (w.emitted + 1))) 0 as := by
        cases limit with
        | none => rfl
        | some l =>
          have hlt : w.emitted < l := Nat.lt_of_not_le fun hle => hfull (decide_eq_true hle)
          obtain ⟨n, hn⟩ : ∃ n, l - w.emitted = n + 1 := ⟨l - w.emitted - 1, by omega⟩
          have hn' : l - (w.emitted + 1) = n := by omega
          simp [window, hn, hn']
      rw [if_neg hfull, hwindow, visit, ← hoffset]
      split_ifs
      · exact ih _
      · rfl

theorem visit_windowed (limit : Option Nat) (offset : Nat) (visitor : σ → A → σ × Bool)
    (state : σ) (as : List A) :
    (visit (windowed limit offset visitor) ⟨0, 0, state⟩ as).state =
      visit visitor state (window limit offset as) := by
  have hlimit : limit.map (· - 0) = limit := by cases limit <;> rfl
  rw [visit_windowed_from, Nat.sub_zero, hlimit]

/-- A visitor that keeps what it is handed. -/
theorem visit_push (kept as : List A) :
    visit (fun kept a => (kept ++ [a], true)) kept as = kept ++ as := by
  induction as generalizing kept with
  | nil => simp [visit]
  | cons a as ih => simp [visit, ih]

end Cynos.Visitor
