import Cynos.Query.Compiled
import Cynos.Lib.Join

/-! What a cursor emits: a list of rows, handed on in order until one is declined, and
whether the cursor ends by a limit of its own. -/
namespace Cynos.Query

open Core
open Index (RowId)

section OrStop

variable {σ τ υ : Type}

@[simp] theorem orStop_true (s : σ) (stop : σ → τ) (next : σ → ExecutionResult (τ × Bool)) :
    orStop (.ok (s, true)) stop next = next s := rfl

@[simp] theorem orStop_false (s : σ) (stop : σ → τ) (next : σ → ExecutionResult (τ × Bool)) :
    orStop (.ok (s, false)) stop next = .ok (stop s, false) := rfl

@[simp] theorem orStop_error (e : ExecutionError) (stop : σ → τ)
    (next : σ → ExecutionResult (τ × Bool)) : orStop (.error e) stop next = .error e := rfl

theorem orStop_assoc (run : ExecutionResult (σ × Bool)) (stop : σ → τ)
    (next : σ → ExecutionResult (τ × Bool)) (stop' : τ → υ)
    (next' : τ → ExecutionResult (υ × Bool)) :
    orStop (orStop run stop next) stop' next' =
      orStop run (stop' ∘ stop) fun s => orStop (next s) stop' next' := by
  rcases run with e | ⟨s, next | next⟩ <;> rfl

theorem orStop_return (run : ExecutionResult (σ × Bool)) :
    (orStop run id fun s => .ok (s, true)) = run := by
  rcases run with e | ⟨s, next | next⟩ <;> rfl

theorem orStop_congr {run : ExecutionResult (σ × Bool)} {stop : σ → τ}
    {next next' : σ → ExecutionResult (τ × Bool)} (h : ∀ s, next s = next' s) :
    orStop run stop next = orStop run stop next' :=
  congrArg (orStop run stop) (funext h)

end OrStop

section Rows

variable {σ τ : Type}

@[simp] theorem emitRelationRows_nil (emit : ExecRowEmitter σ) (s : σ) :
    emitRelationRows emit [] s = .ok (s, true) := rfl

@[simp] theorem emitRelationRows_cons (emit : ExecRowEmitter σ) (row : Entry) (rows : List Entry)
    (s : σ) :
    emitRelationRows emit (row :: rows) s = orStop (emit s row) id (emitRelationRows emit rows) :=
  rfl

theorem emitRelationRows_append (emit : ExecRowEmitter σ) (rows rows' : List Entry) (s : σ) :
    emitRelationRows emit (rows ++ rows') s =
      orStop (emitRelationRows emit rows s) id (emitRelationRows emit rows') := by
  induction rows generalizing s with
  | nil => rfl
  | cons row rows ih =>
    rw [List.cons_append, emitRelationRows_cons, emitRelationRows_cons, orStop_assoc]
    exact orStop_congr ih

theorem emitRelationRows_flatMap (emit : ExecRowEmitter σ) (rows : List Entry)
    (f : Entry → List Entry) (s : σ) :
    emitRelationRows emit (rows.flatMap f) s =
      emitRelationRows (fun s row => emitRelationRows emit (f row) s) rows s := by
  induction rows generalizing s with
  | nil => rfl
  | cons row rows ih =>
    rw [List.flatMap_cons, emitRelationRows_append, emitRelationRows_cons]
    exact orStop_congr ih

theorem emitRelationRows_singleton (emit : ExecRowEmitter σ) (row : Entry) (s : σ) :
    emitRelationRows emit [row] s = emit s row :=
  orStop_return (emit s row)

theorem emitRelationRows_congr {emit emit' : ExecRowEmitter σ} {rows : List Entry}
    (h : ∀ row ∈ rows, ∀ s, emit s row = emit' s row) (s : σ) :
    emitRelationRows emit rows s = emitRelationRows emit' rows s := by
  induction rows generalizing s with
  | nil => rfl
  | cons row rows ih =>
    rw [emitRelationRows_cons, emitRelationRows_cons, h row List.mem_cons_self]
    exact orStop_congr fun s => ih (fun r hr => h r (List.mem_cons_of_mem _ hr)) s

theorem emitRelationRows_map (emit : ExecRowEmitter σ) (f : Entry → Entry) (rows : List Entry)
    (s : σ) :
    emitRelationRows (fun s row => emit s (f row)) rows s = emitRelationRows emit (rows.map f) s := by
  rw [← List.flatMap_singleton' (rows.map f), List.flatMap_map, emitRelationRows_flatMap]
  exact emitRelationRows_congr (fun row _ s => (emitRelationRows_singleton emit (f row) s).symm) s

theorem emitRelationRows_filter (emit : ExecRowEmitter σ) (keep : Entry → Bool)
    (rows : List Entry) (s : σ) :
    emitRelationRows (fun s row => if keep row then emit s row else return (s, true)) rows s =
      emitRelationRows emit (rows.filter keep) s := by
  rw [Join.filter_eq_flatMap, emitRelationRows_flatMap]
  refine emitRelationRows_congr (fun row _ s => ?_) s
  split
  · exact (emitRelationRows_singleton emit row s).symm
  · rfl

theorem emitRelationRows_collect (rows collected : List Entry) :
    emitRelationRows (fun rows row => .ok (rows ++ [row], true)) rows collected =
      .ok (collected ++ rows, true) := by
  induction rows generalizing collected with
  | nil => simp
  | cons row rows ih =>
    rw [emitRelationRows_cons, orStop_true, ih, List.append_assoc, List.singleton_append]

/-- An emitter with a memory `t`: it hands on `out t row` and remembers `update t row`. -/
def remember (out : τ → Entry → List Entry) (update : τ → Entry → τ) (emit : ExecRowEmitter σ) :
    ExecRowEmitter (τ × σ) :=
  fun s row => do
    let (state, next) ← emitRelationRows emit (out s.1 row) s.2
    return ((update s.1 row, state), next)

def remembered (out : τ → Entry → List Entry) (update : τ → Entry → τ) :
    τ → List Entry → List Entry
  | _, [] => []
  | t, row :: rows => out t row ++ remembered out update (update t row) rows

/-- The rows that an emitter with a memory hands on, and what it remembers in the end. -/
theorem emitRelationRows_remember {υ : Type} (out : τ → Entry → List Entry)
    (update : τ → Entry → τ) (emit : ExecRowEmitter σ) (rows : List Entry) (t : τ) (s : σ)
    (stop : σ → υ) (next : τ × σ → ExecutionResult (υ × Bool)) :
    orStop (emitRelationRows (remember out update emit) rows (t, s)) (stop ∘ Prod.snd) next =
      orStop (emitRelationRows emit (remembered out update t rows) s) stop
        fun s => next (rows.foldl update t, s) := by
  induction rows generalizing t s with
  | nil => rfl
  | cons row rows ih =>
    rw [emitRelationRows_cons, orStop_assoc, remembered, emitRelationRows_append, orStop_assoc,
      List.foldl_cons]
    rcases hrun : emitRelationRows emit (out t row) s with e | ⟨s', more⟩
    · simp [remember, hrun]
      rfl
    · cases more with
      | false => simp [remember, hrun]
      | true => simpa [remember, hrun] using ih (update t row) s'

end Rows

section Visits

variable {σ : Type}

theorem visit_append {A : Type} (visitor : σ → A → σ × Bool) (as bs : List A) (s : σ) :
    visit visitor (as ++ bs) s =
      if (visit visitor as s).2 then visit visitor bs (visit visitor as s).1
      else visit visitor as s := by
  induction as generalizing s with
  | nil => rfl
  | cons a as ih =>
    rw [List.cons_append, visit, visit]
    rcases visitor s a with ⟨s', next | next⟩
    · rfl
    · exact ih s'

def remainingAfter (enforceLimit : Bool) (remaining : Nat) : Nat :=
  if enforceLimit then remaining - 1 else remaining

theorem pointVisitor_seen {enforceLimit : Bool} {visitor : σ → Entry → σ × Bool}
    {seenIds : List RowId} {remaining : Nat} {s : σ} {row : Entry} (h : row.id ∈ seenIds) :
    pointVisitor enforceLimit visitor ⟨seenIds, remaining, s⟩ row =
      (⟨seenIds, remaining, s⟩, true) := if_pos h

theorem pointVisitor_new {enforceLimit : Bool} {visitor : σ → Entry → σ × Bool}
    {seenIds : List RowId} {remaining : Nat} {s : σ} {row : Entry} (h : row.id ∉ seenIds) :
    pointVisitor enforceLimit visitor ⟨seenIds, remaining, s⟩ row =
      (⟨row.id :: seenIds, remainingAfter enforceLimit remaining, (visitor s row).1⟩,
        (visitor s row).2 &&
          (!enforceLimit || decide (0 < remainingAfter enforceLimit remaining))) := if_neg h

/-- What a visit of some rows does: either the visitor takes all of `new`, and the visit ends
as it does for every visitor, or it declines one of them. -/
def VisitsAs (enforceLimit : Bool) (rows new : List Entry) (start : PointState Unit)
    (final : PointState Unit) (more : Bool) : Prop :=
  ∀ {σ : Type} (visitor : σ → Entry → σ × Bool) (s : σ),
    if (visit visitor new s).2 then
      visit (pointVisitor enforceLimit visitor) rows ⟨start.seenIds, start.remaining, s⟩ =
        (⟨final.seenIds, final.remaining, (visit visitor new s).1⟩, more)
    else ∃ p : PointState σ, p.state = (visit visitor new s).1 ∧
      visit (pointVisitor enforceLimit visitor) rows ⟨start.seenIds, start.remaining, s⟩ =
        (p, false)

theorem visit_true {A : Type} {visitor : σ → A → σ × Bool}
    (h : ∀ s a, (visitor s a).2 = true) (as : List A) (s : σ) : (visit visitor as s).2 = true := by
  induction as generalizing s with
  | nil => rfl
  | cons a as ih =>
    have ha : visitor s a = ((visitor s a).1, true) := Prod.ext rfl (h s a)
    rw [visit, ha]
    exact ih _

/-- A point lookup hands on the same rows whoever visits them. -/
theorem exists_visitsAs (enforceLimit : Bool) (rows : List Entry) (start : PointState Unit) :
    ∃ new final more, VisitsAs enforceLimit rows new start final more := by
  induction rows generalizing start with
  | nil =>
    refine ⟨[], start, true, fun visitor s => ?_⟩
    rw [visit, if_pos rfl, visit]
  | cons row rows ih =>
    by_cases hseen : row.id ∈ start.seenIds
    · obtain ⟨new, final, more, hvisit⟩ := ih start
      refine ⟨new, final, more, fun {σ} visitor s => ?_⟩
      rw [visit, pointVisitor_seen hseen]
      exact hvisit visitor s
    · let next : PointState Unit :=
        ⟨row.id :: start.seenIds, remainingAfter enforceLimit start.remaining, ()⟩
      cases hmore : (!enforceLimit || decide (0 < next.remaining)) with
      | true =>
        obtain ⟨new, final, more, hvisit⟩ := ih next
        refine ⟨row :: new, final, more, fun {σ} visitor s => ?_⟩
        rw [visit, visit, pointVisitor_new hseen, hmore, Bool.and_true]
        rcases visitor s row with ⟨s', more' | more'⟩
        · rw [if_neg Bool.false_ne_true]
          exact ⟨_, rfl, rfl⟩
        · exact hvisit visitor s'
      | false =>
        refine ⟨[row], next, false, fun {σ} visitor s => ?_⟩
        rw [visit, visit, pointVisitor_new hseen, hmore, Bool.and_false]
        rcases visitor s row with ⟨s', more' | more'⟩
        · rw [if_neg Bool.false_ne_true]
          exact ⟨_, rfl, rfl⟩
        · rfl

/-- The rows that a point lookup hands on: every visitor sees them in this order until it
declines one, and one that declines none fails where the lookup does. -/
theorem visitProbeKeys_visits (points : Value Scalar → Option Nat → ExecutionResult (List Entry))
    (enforceLimit : Bool) (keys : List (Value Scalar)) (start : PointState Unit) :
    (∃ new, ∀ {σ : Type} (visitor : σ → Entry → σ × Bool) (s : σ), ∃ p : PointState σ,
      visitProbeKeys points enforceLimit visitor keys ⟨start.seenIds, start.remaining, s⟩ = .ok p ∧
        p.state = (visit visitor new s).1) ∨
    ∃ e, ∀ {σ : Type} (visitor : σ → Entry → σ × Bool) (s : σ),
      (∀ s row, (visitor s row).2 = true) →
        visitProbeKeys points enforceLimit visitor keys ⟨start.seenIds, start.remaining, s⟩ =
          .error e := by
  induction keys generalizing start with
  | nil => exact .inl ⟨[], fun visitor s => ⟨_, rfl, rfl⟩⟩
  | cons key keys ih =>
    by_cases hdone : (enforceLimit && start.remaining == 0) = true
    · refine .inl ⟨[], fun {σ} visitor s => ⟨⟨start.seenIds, start.remaining, s⟩, ?_, rfl⟩⟩
      rw [visitProbeKeys, if_pos hdone]
      rfl
    cases hrows : points key (if enforceLimit then some start.remaining else none) with
    | error e =>
      refine .inr ⟨e, fun {σ} visitor s _ => ?_⟩
      rw [visitProbeKeys, if_neg hdone, hrows]
      rfl
    | ok rows =>
      obtain ⟨new, final, more, hvisit⟩ := exists_visitsAs enforceLimit rows start
      have hstep : ∀ {σ : Type} (visitor : σ → Entry → σ × Bool) (s : σ)
          {final : PointState σ} {more : Bool},
          visit (pointVisitor enforceLimit visitor) rows ⟨start.seenIds, start.remaining, s⟩ =
            (final, more) →
          visitProbeKeys points enforceLimit visitor (key :: keys)
              ⟨start.seenIds, start.remaining, s⟩ =
            if more then visitProbeKeys points enforceLimit visitor keys final else .ok final := by
        intro σ visitor s final more hvisited
        rw [visitProbeKeys, if_neg hdone, hrows, ok_bind, hvisited]
        cases more <;> rfl
      -- a visitor that declines a row ends the lookup with it
      have hdeclined : ∀ {σ : Type} (visitor : σ → Entry → σ × Bool) (s : σ),
          ¬ (visit visitor new s).2 = true → ∃ p : PointState σ,
            visitProbeKeys points enforceLimit visitor (key :: keys)
              ⟨start.seenIds, start.remaining, s⟩ = .ok p ∧ p.state = (visit visitor new s).1 := by
        intro σ visitor s hflag
        have hrun := hvisit visitor s
        rw [if_neg hflag] at hrun
        obtain ⟨p, hp, hrun⟩ := hrun
        exact ⟨p, hstep visitor s hrun, hp⟩
      have htaken : ∀ {σ : Type} (visitor : σ → Entry → σ × Bool) (s : σ),
          (visit visitor new s).2 = true →
            visitProbeKeys points enforceLimit visitor (key :: keys)
                ⟨start.seenIds, start.remaining, s⟩ =
              if more then visitProbeKeys points enforceLimit visitor keys
                ⟨final.seenIds, final.remaining, (visit visitor new s).1⟩
              else .ok ⟨final.seenIds, final.remaining, (visit visitor new s).1⟩ := by
        intro σ visitor s hflag
        have hrun := hvisit visitor s
        rw [if_pos hflag] at hrun
        exact hstep visitor s hrun
      cases more with
      | false =>
        refine .inl ⟨new, fun {σ} visitor s => ?_⟩
        by_cases hflag : (visit visitor new s).2 = true
        · exact ⟨_, htaken visitor s hflag, rfl⟩
        · exact hdeclined visitor s hflag
      | true =>
        rcases ih final with ⟨new', hrest⟩ | ⟨e, herror⟩
        · refine .inl ⟨new ++ new', fun {σ} visitor s => ?_⟩
          rw [visit_append]
          by_cases hflag : (visit visitor new s).2 = true
          · obtain ⟨p, hp, hstate⟩ := hrest visitor (visit visitor new s).1
            rw [if_pos hflag]
            exact ⟨p, (htaken visitor s hflag).trans hp, hstate⟩
          · rw [if_neg hflag]
            exact hdeclined visitor s hflag
        · refine .inr ⟨e, fun {σ} visitor s hall => ?_⟩
          exact (htaken visitor s (visit_true hall new s)).trans (herror visitor _ hall)

variable {source : DataSource} {table : TableName} {index : IndexName} {key : Value Scalar}
  {limit : Option Nat}

theorem visit_collectRow (rows collected : List Entry) :
    visit collectRow rows collected = (collected ++ rows, true) := by
  induction rows generalizing collected with
  | nil => simp [visit]
  | cons row rows ih =>
    rw [visit, collectRow]
    dsimp only
    rw [ih, List.append_assoc, List.singleton_append]

/-- A lookup that a visitor declining no row survives, and the rows that it lists. -/
theorem indexPointRows_of_visit {visitor : σ → Entry → σ × Bool} {s s' : σ}
    (hall : ∀ s row, (visitor s row).2 = true)
    (h : visitIndexPointWithSqlSemantics source table index key limit visitor s = .ok s') :
    ∃ rows, indexPointRows source table index key limit = .ok rows := by
  rcases visitProbeKeys_visits (source.getIndexPointWithLimit table index) limit.isSome
      (sqlPointLookupKeys key) ⟨[], limit.getD maxUsize, ()⟩ with ⟨new, hvisit⟩ | ⟨e, herror⟩
  · obtain ⟨p, hp, -⟩ := hvisit collectRow []
    refine ⟨p.state, ?_⟩
    rw [indexPointRows, visitIndexPointWithSqlSemantics, hp]
    rfl
  · rw [visitIndexPointWithSqlSemantics, herror visitor s hall] at h
    cases h

theorem visitIndexPoint_of_rows {rows : List Entry}
    (h : indexPointRows source table index key limit = .ok rows)
    (visitor : σ → Entry → σ × Bool) (s : σ) :
    visitIndexPointWithSqlSemantics source table index key limit visitor s =
      .ok (visit visitor rows s).1 := by
  rcases visitProbeKeys_visits (source.getIndexPointWithLimit table index) limit.isSome
      (sqlPointLookupKeys key) ⟨[], limit.getD maxUsize, ()⟩ with ⟨new, hvisit⟩ | ⟨e, herror⟩
  · obtain ⟨p, hp, hstate⟩ := hvisit collectRow []
    have hnew : new = rows := by
      rw [indexPointRows, visitIndexPointWithSqlSemantics, hp] at h
      have hrows : p.state = rows := Except.ok.inj h
      rw [← hrows, hstate, visit_collectRow, List.nil_append]
    subst hnew
    obtain ⟨p', hp', hstate'⟩ := hvisit visitor s
    rw [visitIndexPointWithSqlSemantics, hp', ← hstate']
    rfl
  · rw [indexPointRows, visitIndexPointWithSqlSemantics,
      herror collectRow [] fun _ _ => rfl] at h
    cases h

/-- A visitor of source rows hands them to the emitter. -/
theorem visitCompiledSourceRows_eq {rows : List Entry}
    {visitRows : (VisitState σ → Entry → VisitState σ × Bool) → VisitState σ →
      ExecutionResult (VisitState σ)}
    (h : ∀ visitor s, visitRows visitor s = .ok (visit visitor rows s).1)
    (emit : ExecRowEmitter σ) (s : σ) :
    visitCompiledSourceRows visitRows emit s = emitRelationRows emit rows s := by
  rw [visitCompiledSourceRows, h]
  clear h
  induction rows generalizing s with
  | nil => rfl
  | cons row rows ih =>
    rw [visit, emitVisitor, emitRelationRows_cons]
    rcases emit s row with e | ⟨s', next | next⟩
    · rfl
    · rfl
    · exact ih s'

end Visits

namespace PhysicalPlanRunner

variable {runner : PhysicalPlanRunner}

section Emits

variable {execMeta : EvalContext} {estimate : Option Nat} {input : CompiledExecPlan}
  {rows : List Entry} {cut : Bool}

/-- A cursor hands on `rows`; `cut` says that it then reports the end of its own limit. -/
def Emits (runner : PhysicalPlanRunner) (plan : CompiledExecPlan) (rows : List Entry)
    (cut : Bool) : Prop :=
  ∀ {σ : Type} (emit : ExecRowEmitter σ) (s : σ), runner.executeCompiledCursorPlan plan emit s =
    orStop (emitRelationRows emit rows s) id fun s => .ok (s, !cut)

theorem Emits.collectRows (h : runner.Emits input rows cut) :
    collectRows (runner.executeCompiledCursorPlan input) = .ok rows := by
  rw [PhysicalPlanRunner.collectRows, h, emitRelationRows_collect]
  rfl

theorem Emits.executeCompiledExecPlan (h : runner.Emits input rows cut) :
    runner.executeCompiledExecPlan input = .ok (compiledRelation input.execMeta rows) := by
  rw [PhysicalPlanRunner.executeCompiledExecPlan, h.collectRows]
  rfl

theorem Emits.orStop {σ τ : Type} (h : runner.Emits input rows cut) (emit : ExecRowEmitter σ)
    (s : σ) (stop : σ → τ) (next : σ → ExecutionResult (τ × Bool)) :
    orStop (runner.executeCompiledCursorPlan input emit s) stop next =
      orStop (emitRelationRows emit rows s) stop fun s =>
        if cut then .ok (stop s, false) else next s := by
  rw [h, orStop_assoc]
  refine orStop_congr fun s => ?_
  cases cut <;> rfl

/-- A cursor that only lists rows. -/
theorem emits_of_eq (h : ∀ {σ : Type} (emit : ExecRowEmitter σ) (s : σ),
    runner.executeCompiledCursorPlan input emit s = emitRelationRows emit rows s) :
    runner.Emits input rows false := by
  intro σ emit s
  rw [h]
  exact (orStop_return _).symm

theorem emits_empty : runner.Emits (.mk execMeta estimate .empty) [] false :=
  emits_of_eq fun _ _ => rfl

theorem Emits.filter (h : runner.Emits input rows cut) (predicate : CompiledRowPredicate) :
    runner.Emits (.mk execMeta estimate (.filter input predicate))
      (rows.filter (runner.compiledHolds predicate)) cut := by
  intro σ emit s
  rw [executeCompiledCursorPlan, h, emitRelationRows_filter]

theorem Emits.project (h : runner.Emits input rows cut) (projection : CompiledProjection) :
    runner.Emits (.mk execMeta estimate (.project input projection))
      (rows.map (runner.projectCompiledRow projection)) cut := by
  intro σ emit s
  rw [executeCompiledCursorPlan, h, emitRelationRows_map]

section Limit

/-- The limit is reached among that many rows. -/
def limitReached (rows limit offset : Nat) : Bool :=
  if limit = 0 then decide (offset < rows) else decide (offset + limit ≤ rows)

variable {σ : Type} {limit offset : Nat} (emit : ExecRowEmitter σ)

theorem emitRelationRows_limit_taken (rows : List Entry) {skipped taken : Nat}
    (hskipped : ¬ skipped < offset) (htaken : taken < limit) (s : σ)
    (next : σ → ExecutionResult (σ × Bool)) :
    Query.orStop (emitRelationRows (limitEmitter limit offset emit) rows ⟨s, skipped, taken⟩)
        LimitState.state (fun s => next s.state) =
      Query.orStop (emitRelationRows emit (rows.take (limit - taken)) s) id fun s =>
        if limit - taken ≤ rows.length then .ok (s, false) else next s := by
  induction rows generalizing s taken with
  | nil =>
    rw [List.take_nil, emitRelationRows_nil, emitRelationRows_nil, orStop_true, orStop_true,
      List.length_nil, if_neg (Nat.not_le.mpr (Nat.sub_pos_of_lt htaken))]
  | cons row rows ih =>
    obtain ⟨left, hleft⟩ : ∃ left, limit - taken = left + 1 := ⟨limit - taken - 1, by omega⟩
    rw [emitRelationRows_cons, hleft, List.take_succ_cons, emitRelationRows_cons, orStop_assoc,
      orStop_assoc, limitEmitter, if_neg hskipped, if_neg (Nat.not_le.mpr htaken)]
    rcases emit s row with e | ⟨s', more⟩
    · rfl
    · cases more with
      | false => rfl
      | true =>
        rw [ok_bind]
        dsimp only
        rw [Bool.true_and]
        by_cases hlast : taken + 1 < limit
        · rw [decide_eq_true hlast, pure_eq_ok, orStop_true, orStop_true, ih hlast,
            show limit - (taken + 1) = left by omega, List.length_cons]
          simp only [Nat.add_le_add_iff_right]
        · obtain rfl : left = 0 := by omega
          rw [decide_eq_false hlast, pure_eq_ok, orStop_false, orStop_true, List.take_zero,
            emitRelationRows_nil, orStop_true, if_pos (by simp)]
          rfl

theorem emitRelationRows_limit_zero (hlimit : limit = 0) (rows : List Entry) {skipped : Nat}
    (hskipped : ¬ skipped < offset) (s : σ) (next : σ → ExecutionResult (σ × Bool)) :
    Query.orStop (emitRelationRows (limitEmitter limit offset emit) rows ⟨s, skipped, 0⟩)
        LimitState.state (fun s => next s.state) =
      if 0 < rows.length then .ok (s, false) else next s := by
  cases rows with
  | nil => rfl
  | cons row rows =>
    rw [emitRelationRows_cons, limitEmitter, if_neg hskipped, if_pos (by omega),
      if_pos (by simp)]
    rfl

variable (limit) in
/-- A limit hands on its window of the rows. -/
theorem emitRelationRows_limit (rows : List Entry) {skipped : Nat} (hskipped : skipped ≤ offset)
    (s : σ) (next : σ → ExecutionResult (σ × Bool)) :
    Query.orStop (emitRelationRows (limitEmitter limit offset emit) rows ⟨s, skipped, 0⟩)
        LimitState.state (fun s => next s.state) =
      Query.orStop (emitRelationRows emit ((rows.drop (offset - skipped)).take limit) s) id fun s =>
        if limitReached rows.length limit (offset - skipped) then .ok (s, false) else next s := by
  induction rows generalizing skipped with
  | nil =>
    have hreached : limitReached 0 limit (offset - skipped) = false := by
      unfold limitReached
      split
      · simp
      · rw [decide_eq_false_iff_not]
        omega
    rw [List.drop_nil, List.take_nil, List.length_nil, hreached]
    rfl
  | cons row rows ih =>
    rcases Nat.lt_or_eq_of_le hskipped with hlt | rfl
    · obtain ⟨left, hleft⟩ : ∃ left, offset - skipped = left + 1 :=
        ⟨offset - skipped - 1, by omega⟩
      have hreached : limitReached (row :: rows).length limit (left + 1) =
          limitReached rows.length limit left := by
        unfold limitReached
        rw [List.length_cons]
        split
        · simp
        · rw [Bool.eq_iff_iff, decide_eq_true_iff, decide_eq_true_iff]
          omega
      rw [hleft, List.drop_succ_cons, hreached, emitRelationRows_cons, limitEmitter, if_pos hlt,
        pure_eq_ok, orStop_true, ih hlt, show offset - (skipped + 1) = left by omega]
    · rw [Nat.sub_self, List.drop_zero]
      rcases Nat.eq_zero_or_pos limit with hlimit | hlimit
      · rw [emitRelationRows_limit_zero emit hlimit _ (Nat.lt_irrefl _), hlimit, List.take_zero,
          emitRelationRows_nil, orStop_true, limitReached, if_pos rfl]
        simp
      · rw [emitRelationRows_limit_taken emit _ (Nat.lt_irrefl _) hlimit, limitReached,
          if_neg hlimit.ne']
        simp

end Limit

theorem Emits.limit (h : runner.Emits input rows cut) (limit offset : Nat) :
    runner.Emits (.mk execMeta estimate (.limit input limit offset))
      ((rows.drop offset).take limit) (limitReached rows.length limit offset || cut) := by
  intro σ emit s
  have hlimit := emitRelationRows_limit limit emit rows (Nat.zero_le offset) s fun s => .ok (s, !cut)
  rw [executeCompiledCursorPlan, h.orStop]
  refine Eq.trans ?_ (hlimit.trans ?_)
  · refine orStop_congr fun s => ?_
    cases cut <;> rfl
  · refine orStop_congr fun s => ?_
    rw [Nat.sub_zero]
    cases limitReached rows.length limit offset <;> rfl

section Unions

variable {left right : CompiledExecPlan} {leftRows rightRows : List Entry} {leftCut rightCut : Bool}

/-- A left input that ends by its limit takes the rows of the right one with it. -/
theorem Emits.unionAll (hleft : runner.Emits left leftRows leftCut)
    (hright : runner.Emits right rightRows rightCut) :
    runner.Emits (.mk execMeta estimate (.unionAll left right))
      (leftRows ++ if leftCut then [] else rightRows) (leftCut || rightCut) := by
  intro σ emit s
  rw [executeCompiledCursorPlan, hleft.orStop, emitRelationRows_append, orStop_assoc]
  refine orStop_congr fun s => ?_
  cases leftCut with
  | true => rfl
  | false => exact hright emit s

def distinctUpdate (seen : List (List (Value Scalar))) (row : Entry) :
    List (List (Value Scalar)) :=
  if seen.any fun key => compareValues key row.values == .eq then seen else row.values :: seen

theorem distinctEmitter_eq {σ : Type} (emit : ExecRowEmitter σ) :
    distinctEmitter emit = remember (fun seen row => distinctEntries seen [row]) distinctUpdate
      emit := by
  funext ⟨seen, s⟩ row
  rw [distinctEmitter, remember, distinctEntries, distinctUpdate]
  split
  · rfl
  · rw [distinctEntries, emitRelationRows_singleton]

theorem distinctEntries_append (seen : List (List (Value Scalar))) (rows rows' : List Entry) :
    distinctEntries seen (rows ++ rows') =
      distinctEntries seen rows ++ distinctEntries (rows.foldl distinctUpdate seen) rows' := by
  induction rows generalizing seen with
  | nil => rfl
  | cons row rows ih =>
    rw [List.cons_append, distinctEntries, distinctEntries, List.foldl_cons, distinctUpdate]
    split
    · exact ih seen
    · rw [ih, List.cons_append]

theorem remembered_distinct (seen : List (List (Value Scalar))) (rows : List Entry) :
    remembered (fun seen row => distinctEntries seen [row]) distinctUpdate seen rows =
      distinctEntries seen rows := by
  induction rows generalizing seen with
  | nil => rfl
  | cons row rows ih =>
    rw [remembered, ih]
    exact (distinctEntries_append seen [row] rows).symm

theorem Emits.unionDistinct (hleft : runner.Emits left leftRows leftCut)
    (hright : runner.Emits right rightRows rightCut) :
    runner.Emits (.mk execMeta estimate (.unionDistinct left right))
      (distinctEntries [] (leftRows ++ if leftCut then [] else rightRows))
      (leftCut || rightCut) := by
  intro σ emit s
  have hbranch : ∀ {input : CompiledExecPlan} {rows : List Entry} {cut : Bool},
      runner.Emits input rows cut → ∀ (seen : List (List (Value Scalar))) (s : σ)
        (next : List (List (Value Scalar)) × σ → ExecutionResult (σ × Bool)),
        Query.orStop (runner.executeCompiledCursorPlan input (distinctEmitter emit) (seen, s))
            Prod.snd next =
          Query.orStop (emitRelationRows emit (distinctEntries seen rows) s) id fun s =>
            if cut then .ok (s, false) else next (rows.foldl distinctUpdate seen, s) := by
    intro input rows cut h seen s next
    rw [h.orStop, distinctEmitter_eq]
    refine (emitRelationRows_remember _ _ emit rows seen s id _).trans ?_
    rw [remembered_distinct]
  rw [executeCompiledCursorPlan, hbranch hleft, distinctEntries_append, emitRelationRows_append,
    orStop_assoc]
  refine orStop_congr fun s => ?_
  cases leftCut with
  | true => rfl
  | false =>
    refine (hbranch hright _ s _).trans (orStop_congr fun s => ?_)
    cases rightCut <;> rfl

end Unions

section Joins

variable {left right : CompiledExecPlan} {leftRows rightRows : List Entry} {leftCut rightCut : Bool}

theorem foldl_marks (build : List Entry) (holds : Entry → Entry → Bool) (probes : List Entry)
    (marks : Entry → Bool) :
    probes.foldl (fun marks probe => List.zipWith or marks (build.map fun entry =>
        holds entry probe)) (build.map marks) =
      build.map fun entry => marks entry || probes.any (holds entry) := by
  induction probes generalizing marks with
  | nil => simp
  | cons probe probes ih =>
    rw [List.foldl_cons, List.zipWith_map, List.zipWith_self, ih]
    simp only [List.any_cons, Bool.or_assoc]

theorem map_unmarked (build : List Entry) (marks : Entry → Bool) (row : Entry → Entry) :
    (((build.zip (build.map marks)).filter fun entry => !entry.2).map fun entry => row entry.1) =
      (build.filter fun entry => !marks entry).map row := by
  induction build with
  | nil => rfl
  | cons entry build ih =>
    rw [List.map_cons, List.zip_cons_cons, List.filter_cons, List.filter_cons]
    split
    · rw [List.map_cons, List.map_cons, ih]
    · exact ih

/-- The rows of a hash join; a probe side that ends by its limit takes the unmatched rows of
the build side with it. -/
def hashJoinStream (layout : JoinOutputLayout) (joinType : JoinType)
    (buildSide : HashJoinBuildSide) (buildKeyIdx probeKeyIdx : Nat) (build probe : List Entry)
    (probeCut : Bool) : List Entry :=
  probe.flatMap (hashJoinProbe layout buildSide buildKeyIdx probeKeyIdx
      (hashJoinEmitUnmatchedProbe joinType buildSide) build) ++
    if !probeCut && hashJoinEmitUnmatchedBuild joinType buildSide then
      hashJoinUnmatchedBuild layout buildSide buildKeyIdx probeKeyIdx build probe
    else []

theorem hashJoinEmitter_eq {σ : Type} (layout : JoinOutputLayout) (buildSide : HashJoinBuildSide)
    (buildKeyIdx probeKeyIdx : Nat) (emitUnmatchedProbe : Bool) (build : List Entry)
    (emit : ExecRowEmitter σ) :
    hashJoinEmitter layout buildSide buildKeyIdx probeKeyIdx emitUnmatchedProbe build emit =
      remember (fun _ => hashJoinProbe layout buildSide buildKeyIdx probeKeyIdx emitUnmatchedProbe
        build) (fun marks probe => List.zipWith or marks (build.map fun entry =>
          keysMatch (Entry.getField entry buildKeyIdx) (Entry.getField probe probeKeyIdx))) emit :=
  rfl

theorem remembered_const {τ : Type} (out : Entry → List Entry) (update : τ → Entry → τ) (t : τ)
    (rows : List Entry) : remembered (fun _ => out) update t rows = rows.flatMap out := by
  induction rows generalizing t with
  | nil => rfl
  | cons row rows ih => rw [remembered, List.flatMap_cons, ih]

theorem Emits.probe {σ : Type} {probePlan : CompiledExecPlan} {probe : List Entry}
    {probeCut : Bool} (h : runner.Emits probePlan probe probeCut) (layout : JoinOutputLayout)
    (joinType : JoinType) (buildSide : HashJoinBuildSide) (buildKeyIdx probeKeyIdx : Nat)
    (build : List Entry) (emit : ExecRowEmitter σ) (s : σ) :
    Query.orStop (runner.executeCompiledCursorPlan probePlan (hashJoinEmitter layout buildSide
        buildKeyIdx probeKeyIdx (hashJoinEmitUnmatchedProbe joinType buildSide) build emit)
        (build.map fun _ => false, s)) Prod.snd (fun (buildMatched, s) =>
      emitUnmarked layout buildSide (hashJoinEmitUnmatchedBuild joinType buildSide) build
        buildMatched emit s) =
      Query.orStop (emitRelationRows emit (hashJoinStream layout joinType buildSide buildKeyIdx
        probeKeyIdx build probe probeCut) s) id fun s => .ok (s, !probeCut) := by
  rw [h.orStop, hashJoinEmitter_eq]
  refine (emitRelationRows_remember _ _ emit probe _ s id _).trans ?_
  rw [remembered_const, foldl_marks, hashJoinStream, emitRelationRows_append, orStop_assoc]
  refine orStop_congr fun s => ?_
  cases probeCut with
  | true => rfl
  | false =>
    dsimp only
    rw [if_neg Bool.false_ne_true, emitUnmarked, Bool.not_false, Bool.true_and]
    simp only [Bool.false_or]
    split
    · rw [map_unmarked build _ fun entry => hashJoinRow layout buildSide (some entry) none,
        orStop_return]
      rfl
    · rfl

theorem Emits.hashJoinLeft (hleft : runner.Emits left leftRows leftCut)
    (hright : runner.Emits right rightRows rightCut) (keys : EquiJoinKeys) (joinType : JoinType) :
    runner.Emits (.mk execMeta estimate (.hashJoin left right keys joinType .left))
      (hashJoinStream (.fromSources left.execMeta right.execMeta execMeta.tables) joinType .left
        keys.leftKeyIdx keys.rightKeyIdx leftRows rightRows rightCut) rightCut := by
  intro σ emit s
  rw [executeCompiledCursorPlan, hleft.collectRows]
  exact hright.probe _ joinType .left _ _ leftRows emit s

theorem Emits.hashJoinRight (hleft : runner.Emits left leftRows leftCut)
    (hright : runner.Emits right rightRows rightCut) (keys : EquiJoinKeys) (joinType : JoinType) :
    runner.Emits (.mk execMeta estimate (.hashJoin left right keys joinType .right))
      (hashJoinStream (.fromSources left.execMeta right.execMeta execMeta.tables) joinType .right
        keys.rightKeyIdx keys.leftKeyIdx rightRows leftRows leftCut) leftCut := by
  intro σ emit s
  rw [executeCompiledCursorPlan, hright.collectRows]
  exact hleft.probe _ joinType .right _ _ rightRows emit s

theorem Emits.sortMergeJoin (hleft : runner.Emits left leftRows leftCut)
    (hright : runner.Emits right rightRows rightCut) (keys : EquiJoinKeys) (joinType : JoinType) :
    runner.Emits (.mk execMeta estimate (.sortMergeJoin left right keys joinType))
      (emitSortMergeJoinEntries (compiledRelation left.execMeta leftRows)
        (compiledRelation right.execMeta rightRows) keys joinType
        (.fromSources left.execMeta right.execMeta execMeta.tables)) false := by
  refine emits_of_eq fun emit s => ?_
  rw [executeCompiledCursorPlan, hleft.collectRows, hright.collectRows]
  rfl

theorem Emits.nestedLoopJoin (hleft : runner.Emits left leftRows leftCut)
    (hright : runner.Emits right rightRows rightCut) (predicate : CompiledRowPredicate)
    (joinType : JoinType) :
    runner.Emits (.mk execMeta estimate (.nestedLoopJoin left right predicate joinType))
      (emitNestedLoopJoinEntries leftRows rightRows (runner.compiledHolds predicate) joinType
        (.fromSources left.execMeta right.execMeta execMeta.tables)) false := by
  refine emits_of_eq fun emit s => ?_
  rw [executeCompiledCursorPlan, hleft.collectRows, hright.collectRows]
  rfl

theorem Emits.crossProduct (hleft : runner.Emits left leftRows leftCut)
    (hright : runner.Emits right rightRows rightCut) :
    runner.Emits (.mk execMeta estimate (.crossProduct left right))
      (emitCrossProductEntries leftRows rightRows (.fromSources left.execMeta right.execMeta
        (left.execMeta.tables ++ right.execMeta.tables))) false := by
  refine emits_of_eq fun emit s => ?_
  rw [executeCompiledCursorPlan, hleft.collectRows, hright.collectRows]
  rfl

theorem indexMatchEmitter_eq {σ : Type} (layout : JoinOutputLayout) (outerIsLeft : Bool)
    (outer : Entry) (emit : ExecRowEmitter σ) :
    indexMatchEmitter layout outerIsLeft outer emit =
      remember (fun _ inner => [indexNestedLoopRow layout outerIsLeft outer (some inner)])
        (fun _ _ => true) emit := by
  funext ⟨matched, s⟩ inner
  rw [indexMatchEmitter, remember, emitRelationRows_singleton]

theorem foldl_true (rows : List Entry) (matched : Bool) :
    rows.foldl (fun _ _ => true) matched = (matched || !rows.isEmpty) := by
  induction rows generalizing matched with
  | nil => simp
  | cons row rows ih => simp [ih]

/-- One outer row of an index join. -/
theorem indexNestedLoopEmitter_eq {σ : Type} {innerTable : TableName} {innerIndex : IndexName}
    {outerKeyIdx : Nat} {emitUnmatchedOuter outerIsLeft : Bool} {layout : JoinOutputLayout}
    {outer : Entry} {joined : List Entry}
    (h : runner.indexNestedLoopProbe innerTable innerIndex outerKeyIdx emitUnmatchedOuter
      outerIsLeft layout outer = .ok joined) (emit : ExecRowEmitter σ) (s : σ) :
    runner.indexNestedLoopEmitter innerTable innerIndex outerKeyIdx emitUnmatchedOuter outerIsLeft
      layout emit s outer = emitRelationRows emit joined s := by
  have hfound : ∀ {visited : ExecutionResult ((Bool × σ) × Bool)} {inner : List Entry},
      visited = emitRelationRows (indexMatchEmitter layout outerIsLeft outer emit) inner
        (false, s) →
      (.ok (if inner.isEmpty then
          if emitUnmatchedOuter then [indexNestedLoopRow layout outerIsLeft outer none] else []
        else inner.map fun row => indexNestedLoopRow layout outerIsLeft outer (some row)) :
          ExecutionResult (List Entry)) = .ok joined →
      Query.orStop visited Prod.snd (fun reached =>
        if emitUnmatchedOuter && !reached.1 then
          emit reached.2 (indexNestedLoopRow layout outerIsLeft outer none)
        else return (reached.2, true)) = emitRelationRows emit joined s := by
    intro visited inner hvisited hjoined
    obtain rfl := Except.ok.inj hjoined
    rw [hvisited, indexMatchEmitter_eq]
    refine (emitRelationRows_remember _ _ emit inner false s id _).trans ?_
    rw [remembered_const, foldl_true, Bool.false_or]
    dsimp only
    cases inner with
    | nil =>
      cases emitUnmatchedOuter with
      | true => exact (emitRelationRows_singleton emit _ s).symm
      | false => rfl
    | cons row rows =>
      simp only [List.isEmpty_cons, Bool.not_false, Bool.not_true, Bool.and_false,
        Bool.false_eq_true, if_false]
      rw [← List.map_eq_flatMap]
      exact orStop_return _
  rcases hfield : Entry.getField outer outerKeyIdx with _ | _ | key
  · rw [indexNestedLoopProbe, hfield] at h
    rw [indexNestedLoopEmitter, hfield]
    exact @hfound _ [] rfl (h.symm ▸ rfl)
  · rw [indexNestedLoopProbe, hfield] at h
    rw [indexNestedLoopEmitter, hfield]
    exact @hfound _ [] rfl (h.symm ▸ rfl)
  · rw [indexNestedLoopProbe, hfield] at h
    rw [indexNestedLoopEmitter, hfield]
    dsimp only at h ⊢
    cases hinner : indexPointRows runner.dataSource innerTable innerIndex (some key) none with
    | error e =>
      rw [hinner] at h
      cases h
    | ok inner =>
      rw [hinner, ok_bind] at h
      refine @hfound _ inner ?_ (by rw [← h]; cases inner <;> rfl)
      exact visitCompiledSourceRows_eq (fun visitor s => visitIndexPoint_of_rows hinner visitor s)
        _ _

theorem Emits.indexNestedLoopJoin {outer : CompiledExecPlan} {outerRows : List Entry}
    {outerCut : Bool} {innerTable : TableName} {innerIndex : IndexName} {outerKeyIdx : Nat}
    {joinType : JoinType} {outerIsLeft : Bool} {innerColCount : Nat}
    (h : runner.Emits outer outerRows outerCut)
    (hcount : runner.dataSource.getColumnCount innerTable = .ok innerColCount)
    (joined : Entry → List Entry)
    (hjoined : ∀ row ∈ outerRows, runner.indexNestedLoopProbe innerTable innerIndex outerKeyIdx
      (indexJoinEmitsUnmatchedOuter joinType outerIsLeft) outerIsLeft
      (indexJoinOutputLayout outer.execMeta innerTable innerColCount outerIsLeft execMeta.tables)
      row = .ok (joined row)) :
    runner.Emits (.mk execMeta estimate (.indexNestedLoopJoin outer innerTable innerIndex
      outerKeyIdx joinType outerIsLeft)) (outerRows.flatMap joined) outerCut := by
  intro σ emit s
  rw [executeCompiledCursorPlan, hcount, ok_bind, h, emitRelationRows_flatMap]
  congr 1
  exact emitRelationRows_congr (fun row hrow s =>
    indexNestedLoopEmitter_eq (hjoined row hrow) emit s) s

end Joins

section Materialized

theorem Emits.hashAggregate (h : runner.Emits input rows cut) (groupBy : List Expr)
    (aggregates : List (AggregateFunc × Expr)) :
    runner.Emits (.mk execMeta estimate (.hashAggregate input groupBy aggregates))
      (runner.executeHashAggregate (compiledRelation input.execMeta rows) groupBy
        aggregates).entries false := by
  refine emits_of_eq fun emit s => ?_
  rw [executeCompiledCursorPlan, h.collectRows]
  rfl

theorem Emits.sort (h : runner.Emits input rows cut) (orderBy : List (Expr × SortOrder)) :
    runner.Emits (.mk execMeta estimate (.sort input orderBy))
      (executeSort (compiledRelation input.execMeta rows) orderBy).entries false := by
  refine emits_of_eq fun emit s => ?_
  rw [executeCompiledCursorPlan, h.collectRows]
  rfl

theorem Emits.topN {relation : Relation} {limit offset : Nat} {orderBy : List (Expr × SortOrder)}
    (h : runner.Emits input rows cut)
    (htop : runner.executeTopN (compiledRelation input.execMeta rows) orderBy limit offset =
      .ok relation) :
    runner.Emits (.mk execMeta estimate (.topN input orderBy limit offset)) relation.entries
      false := by
  refine emits_of_eq fun emit s => ?_
  rw [executeCompiledCursorPlan, h.collectRows]
  exact congrArg (· >>= fun relation => emitRelationRows emit relation.entries s) htop

end Materialized

section Sources

/-- The rows of a source. -/
def sourceRows (runner : PhysicalPlanRunner) : CompiledSourcePlan → ExecutionResult (List Entry)
  | .tableScan table => runner.dataSource.getTableRows table
  | .indexScan table index bounds limit offset reverse =>
    runner.dataSource.getIndexRangeWithLimit table index bounds limit offset reverse
  | .indexGet table index key limit => indexPointRows runner.dataSource table index key limit
  | .indexInGet table index keys => runner.indexInRows table index keys []
  | .ginIndexScan table index key value queryType =>
    runner.ginIndexRows table index key value queryType
  | .ginIndexScanMulti table index pairs matchAll =>
    runner.dataSource.getGinIndexRowsMulti table index pairs matchAll

theorem visitListed_eq {σ : Type} {rows : List Entry} {found : ExecutionResult (List Entry)}
    (h : found = .ok rows) (emit : ExecRowEmitter σ) (s : σ) :
    visitCompiledSourceRows (visitListed found) emit s = emitRelationRows emit rows s := by
  refine visitCompiledSourceRows_eq (fun visitor s => ?_) emit s
  rw [visitListed, h]
  rfl

def freshUpdate (seenIds : List RowId) (row : Entry) : List RowId :=
  if row.id ∈ seenIds then seenIds else row.id :: seenIds

theorem freshEmitter_eq {σ : Type} (emit : ExecRowEmitter σ) :
    freshEmitter emit = remember (fun seenIds row => freshRows seenIds [row]) freshUpdate emit := by
  funext ⟨seenIds, s⟩ row
  rw [freshEmitter, remember, freshRows, freshUpdate]
  split
  · rfl
  · rw [freshRows, emitRelationRows_singleton]

theorem freshRows_append (seenIds : List RowId) (rows rows' : List Entry) :
    freshRows seenIds (rows ++ rows') =
      freshRows seenIds rows ++ freshRows (rows.foldl freshUpdate seenIds) rows' := by
  induction rows generalizing seenIds with
  | nil => rfl
  | cons row rows ih =>
    rw [List.cons_append, freshRows, freshRows, List.foldl_cons, freshUpdate]
    split
    · exact ih seenIds
    · rw [ih, List.cons_append]

theorem remembered_fresh (seenIds : List RowId) (rows : List Entry) :
    remembered (fun seenIds row => freshRows seenIds [row]) freshUpdate seenIds rows =
      freshRows seenIds rows := by
  induction rows generalizing seenIds with
  | nil => rfl
  | cons row rows ih =>
    rw [remembered, ih]
    exact (freshRows_append seenIds [row] rows).symm

theorem visit_fresh (rows : List Entry) (seenIds : List RowId) (collected : List Entry) :
    visit (fun (s : List RowId × List Entry) row =>
        if row.id ∈ s.1 then (s, true) else ((row.id :: s.1, s.2 ++ [row]), true)) rows
        (seenIds, collected) =
      ((rows.foldl freshUpdate seenIds, collected ++ freshRows seenIds rows), true) := by
  induction rows generalizing seenIds collected with
  | nil => simp [visit, freshRows]
  | cons row rows ih =>
    rw [visit, freshRows, List.foldl_cons, freshUpdate]
    by_cases hseen : row.id ∈ seenIds
    · rw [if_pos hseen, if_pos hseen, if_pos hseen]
      exact ih seenIds collected
    · rw [if_neg hseen, if_neg hseen, if_neg hseen]
      dsimp only
      rw [ih, List.append_assoc, List.singleton_append]

theorem executeIndexInCursor_eq {σ : Type} {table : TableName} {index : IndexName}
    (emit : ExecRowEmitter σ) (keys : List (Value Scalar)) {seenIds : List RowId}
    {rows : List Entry} (h : runner.indexInRows table index keys seenIds = .ok rows) (s : σ) :
    runner.executeIndexInCursor table index emit keys (seenIds, s) =
      emitRelationRows emit rows s := by
  induction keys generalizing seenIds rows s with
  | nil =>
    obtain rfl := Except.ok.inj h
    rfl
  | cons key keys ih =>
    rw [indexInRows] at h
    cases hlookup : visitIndexPointWithSqlSemantics runner.dataSource table index key none
        (fun (s : List RowId × List Entry) row =>
          if row.id ∈ s.1 then (s, true) else ((row.id :: s.1, s.2 ++ [row]), true))
        (seenIds, []) with
    | error e =>
      rw [hlookup] at h
      cases h
    | ok found =>
      obtain ⟨found, hfound⟩ := indexPointRows_of_visit (fun s row => by split <;> rfl) hlookup
      have hvisit := visitIndexPoint_of_rows hfound (fun (s : List RowId × List Entry) row =>
        if row.id ∈ s.1 then (s, true) else ((row.id :: s.1, s.2 ++ [row]), true)) (seenIds, [])
      rw [visit_fresh, List.nil_append] at hvisit
      rw [hvisit, ok_bind] at h
      cases hrest : runner.indexInRows table index keys (found.foldl freshUpdate seenIds) with
      | error e =>
        dsimp only at h
        rw [hrest] at h
        cases h
      | ok rest =>
        dsimp only at h
        rw [hrest] at h
        obtain rfl := Except.ok.inj h
        rw [executeIndexInCursor, visitCompiledSourceRows_eq
          (fun visitor s => visitIndexPoint_of_rows hfound visitor s), freshEmitter_eq]
        refine (emitRelationRows_remember _ _ emit found seenIds s id _).trans ?_
        rw [remembered_fresh, emitRelationRows_append]
        exact orStop_congr fun s => ih hrest s

theorem emits_source {source : CompiledSourcePlan} (h : runner.sourceRows source = .ok rows) :
    runner.Emits (.mk execMeta estimate (.source source)) rows false := by
  refine emits_of_eq fun emit s => ?_
  rw [executeCompiledCursorPlan]
  cases source with
  | tableScan table => exact visitListed_eq h emit s
  | indexScan table index bounds limit offset reverse => exact visitListed_eq h emit s
  | indexGet table index key limit =>
    exact visitCompiledSourceRows_eq (fun visitor s => visitIndexPoint_of_rows h visitor s) emit s
  | indexInGet table index keys => exact executeIndexInCursor_eq emit keys h s
  | ginIndexScan table index key value queryType => exact visitListed_eq h emit s
  | ginIndexScanMulti table index pairs matchAll => exact visitListed_eq h emit s

end Sources

end Emits

end PhysicalPlanRunner

end Cynos.Query
