import Cynos.Index.Range
import Cynos.Query.Physical

/-! What the runner reads rows from. A scan yields the rows of an index in key order;
`offset` rows of it are skipped and at most `limit` of the others passed on. -/
namespace Cynos.Query

open Core
open Index (RowId KeyRange)

inductive ExecutionError where
  | tableNotFound (table : TableName)
  | invalidOperation (message : String)
  /-- The addition of an offset and a limit overflows, which stops the program. -/
  | overflow
  deriving DecidableEq

abbrev ExecutionResult (A : Type) := Except ExecutionError A

@[simp] theorem ok_bind {A B : Type} (a : A) (f : A → ExecutionResult B) :
    (Except.ok a >>= f) = f a := rfl
theorem ok_of_bind {A B : Type} {run : ExecutionResult A} {f : A → ExecutionResult B} {b : B}
    (h : (run >>= f) = .ok b) : ∃ a, run = .ok a ∧ f a = .ok b := by
  cases run with
  | error e => cases h
  | ok a => exact ⟨a, rfl, h⟩
@[simp] theorem ok_map {A B : Type} (f : A → B) (a : A) :
    (f <$> (Except.ok a : ExecutionResult A)) = .ok (f a) := rfl
@[simp] theorem pure_eq_ok {A : Type} (a : A) : (pure a : ExecutionResult A) = .ok a := rfl

/-- The rows of a scan that `offset` and `limit` leave. -/
def limited {A : Type} (offset : Nat) (limit : Option Nat) (rows : List A) : List A :=
  limit.elim (rows.drop offset) (rows.drop offset).take

@[simp] theorem limited_none {A : Type} (offset : Nat) (rows : List A) :
    limited offset none rows = rows.drop offset := rfl
@[simp] theorem limited_some {A : Type} (offset limit : Nat) (rows : List A) :
    limited offset (some limit) rows = (rows.drop offset).take limit := rfl

structure DataSource where
  getTableRows : TableName → ExecutionResult (List Entry)
  getColumnCount : TableName → ExecutionResult Nat
  getIndexRange : TableName → IndexName → IndexBounds → Bool → ExecutionResult (List Entry)
  getGinIndexRows : TableName → IndexName → String → String → ExecutionResult (List Entry)
  getGinIndexRowsByKey : TableName → IndexName → String → ExecutionResult (List Entry)
  getGinIndexRowsMulti :
    TableName → IndexName → List (String × String) → Bool → ExecutionResult (List Entry)

namespace DataSource

variable (source : DataSource)

def getIndexRangeWithLimit (table : TableName) (index : IndexName) (bounds : IndexBounds)
    (limit : Option Nat) (offset : Nat) (reverse : Bool) : ExecutionResult (List Entry) := do
  let rows ← source.getIndexRange table index bounds reverse
  return limited offset limit rows

def getIndexPointWithLimit (table : TableName) (index : IndexName) (key : Value Scalar)
    (limit : Option Nat) : ExecutionResult (List Entry) :=
  source.getIndexRangeWithLimit table index (.scalar (.only key)) limit 0 false

end DataSource

/-- Both widths of an integer key. -/
def sqlPointLookupKeys : Value Scalar → List (Value Scalar)
  | some (.int32 value) => [some (.int32 value), some (.int64 value.toInt64)]
  | some (.int64 value) =>
    if value.toInt32.toInt64 = value then [some (.int64 value), some (.int32 value.toInt32)]
    else [some (.int64 value)]
  | key => [key]

section Point

variable {σ : Type}

/-- Offers items one after the other until the visitor declines one. -/
def visit {A : Type} (visitor : σ → A → σ × Bool) : List A → σ → σ × Bool
  | [], s => (s, true)
  | a :: as, s =>
    match visitor s a with
    | (s, true) => visit visitor as s
    | (s, false) => (s, false)

/-- What a point lookup carries along: the ids already seen, the rows still wanted. -/
structure PointState (σ : Type) where
  seenIds : List RowId
  remaining : Nat
  state : σ

def pointVisitor (enforceLimit : Bool) (visitor : σ → Entry → σ × Bool) (s : PointState σ)
    (row : Entry) : PointState σ × Bool :=
  if row.id ∈ s.seenIds then (s, true)
  else
    let (state, next) := visitor s.state row
    let remaining := if enforceLimit then s.remaining - 1 else s.remaining
    (⟨row.id :: s.seenIds, remaining, state⟩, next && (!enforceLimit || decide (0 < remaining)))

/-- The loop over the probe keys, which a declined row ends. -/
def visitProbeKeys (points : Value Scalar → Option Nat → ExecutionResult (List Entry))
    (enforceLimit : Bool) (visitor : σ → Entry → σ × Bool) :
    List (Value Scalar) → PointState σ → ExecutionResult (PointState σ)
  | [], s => return s
  | key :: keys, s =>
    if enforceLimit && s.remaining == 0 then return s
    else do
      let rows ← points key (if enforceLimit then some s.remaining else none)
      match visit (pointVisitor enforceLimit visitor) rows s with
      | (s, true) => visitProbeKeys points enforceLimit visitor keys s
      | (s, false) => return s

@[simp] theorem visitProbeKeys_nil
    (points : Value Scalar → Option Nat → ExecutionResult (List Entry)) (enforceLimit : Bool)
    (visitor : σ → Entry → σ × Bool) (s : PointState σ) :
    visitProbeKeys points enforceLimit visitor [] s = .ok s := rfl

def visitIndexPointWithSqlSemantics (source : DataSource) (table : TableName) (index : IndexName)
    (key : Value Scalar) (limit : Option Nat) (visitor : σ → Entry → σ × Bool) (state : σ) :
    ExecutionResult σ := do
  let s ← visitProbeKeys (source.getIndexPointWithLimit table index) limit.isSome visitor
    (sqlPointLookupKeys key) ⟨[], limit.getD maxUsize, state⟩
  return s.state

def collectRow (rows : List Entry) (row : Entry) : List Entry × Bool := (rows ++ [row], true)

/-- The rows that a point lookup collects. -/
def indexPointRows (source : DataSource) (table : TableName) (index : IndexName)
    (key : Value Scalar) (limit : Option Nat) : ExecutionResult (List Entry) :=
  visitIndexPointWithSqlSemantics source table index key limit collectRow []

end Point

section Laws

/-- What an index answers: either every scan of it or none; the rows of a key once each,
and those of the same number in the other width either all again or none of them. -/
structure DataSource.Lawful (source : DataSource) : Prop where
  answers : ∀ {table index bounds reverse rows},
    source.getIndexRange table index bounds reverse = .ok rows →
      ∀ bounds' reverse', ∃ rows', source.getIndexRange table index bounds' reverse' = .ok rows'
  nodup : ∀ {table index bounds reverse rows},
    source.getIndexRange table index bounds reverse = .ok rows → (rows.map Row.id).Nodup
  widths : ∀ {table index key key' rows rows'}, sqlPointLookupKeys key = [key, key'] →
    source.getIndexRange table index (.scalar (.only key)) false = .ok rows →
    source.getIndexRange table index (.scalar (.only key')) false = .ok rows' →
      (∀ row ∈ rows', row.id ∉ rows.map Row.id) ∨ ∀ row ∈ rows', row.id ∈ rows.map Row.id

theorem sqlPointLookupKeys_eq (key : Value Scalar) :
    sqlPointLookupKeys key = [key] ∨ ∃ key', sqlPointLookupKeys key = [key, key'] := by
  unfold sqlPointLookupKeys
  split
  · exact .inr ⟨_, rfl⟩
  · split
    · exact .inr ⟨_, rfl⟩
    · exact .inl rfl
  · exact .inl rfl

/-- The rows of a list whose ids are new, each id once. -/
def freshRows : List RowId → List Entry → List Entry
  | _, [] => []
  | seen, row :: rows =>
    if row.id ∈ seen then freshRows seen rows else row :: freshRows (row.id :: seen) rows

theorem freshRows_of_seen {seen : List RowId} {rows : List Entry}
    (h : ∀ row ∈ rows, row.id ∈ seen) : freshRows seen rows = [] := by
  induction rows with
  | nil => rfl
  | cons row rows ih =>
    rw [freshRows, if_pos (h row (by simp))]
    exact ih fun r hr => h r (by simp [hr])

theorem freshRows_of_new {seen : List RowId} {rows : List Entry}
    (hnew : ∀ row ∈ rows, row.id ∉ seen) (hnodup : (rows.map Row.id).Nodup) :
    freshRows seen rows = rows := by
  induction rows generalizing seen with
  | nil => rfl
  | cons row rows ih =>
    rw [List.map_cons, List.nodup_cons] at hnodup
    rw [freshRows, if_neg (hnew row (by simp)), ih _ hnodup.2]
    intro r hr
    rw [List.mem_cons, not_or]
    exact ⟨fun heq => hnodup.1 (heq ▸ List.mem_map_of_mem hr), hnew r (by simp [hr])⟩

theorem visit_pointVisitor_unlimited (rows : List Entry) (s : PointState (List Entry)) :
    ∃ s', visit (pointVisitor false collectRow) rows s = (s', true) ∧
      s'.state = s.state ++ freshRows s.seenIds rows ∧
      ∀ id, id ∈ s'.seenIds ↔ id ∈ s.seenIds ∨ id ∈ rows.map Row.id := by
  induction rows generalizing s with
  | nil => exact ⟨s, rfl, by simp [freshRows], by simp⟩
  | cons row rows ih =>
    by_cases hseen : row.id ∈ s.seenIds
    · obtain ⟨s', hvisit, hstate, hids⟩ := ih s
      refine ⟨s', by simpa [visit, pointVisitor, hseen] using hvisit, ?_, ?_⟩
      · rw [hstate, freshRows, if_pos hseen]
      · intro id
        rw [hids, List.map_cons, List.mem_cons]
        constructor
        · rintro (h | h)
          · exact .inl h
          · exact .inr (.inr h)
        · rintro (h | rfl | h)
          · exact .inl h
          · exact .inl hseen
          · exact .inr h
    · obtain ⟨s', hvisit, hstate, hids⟩ := ih ⟨row.id :: s.seenIds, s.remaining, s.state ++ [row]⟩
      refine ⟨s', by simpa [visit, pointVisitor, collectRow, hseen] using hvisit, ?_, ?_⟩
      · simp [hstate, freshRows, hseen]
      · intro id
        rw [hids, List.map_cons, List.mem_cons, List.mem_cons, or_assoc, or_left_comm]

theorem visit_pointVisitor_limited (rows : List Entry) (s : PointState (List Entry))
    (hremaining : 0 < s.remaining) :
    ∃ s', visit (pointVisitor true collectRow) rows s =
        (s', decide ((freshRows s.seenIds rows).length < s.remaining)) ∧
      s'.state = s.state ++ (freshRows s.seenIds rows).take s.remaining ∧
      s'.remaining = s.remaining - (freshRows s.seenIds rows).length ∧
      ((freshRows s.seenIds rows).length < s.remaining →
        ∀ id, id ∈ s'.seenIds ↔ id ∈ s.seenIds ∨ id ∈ rows.map Row.id) := by
  induction rows generalizing s with
  | nil => exact ⟨s, by simp [visit, freshRows, hremaining], by simp [freshRows],
      by simp [freshRows], by simp⟩
  | cons row rows ih =>
    by_cases hseen : row.id ∈ s.seenIds
    · obtain ⟨s', hvisit, hstate, hleft, hids⟩ := ih s hremaining
      refine ⟨s', by simpa [visit, pointVisitor, hseen, freshRows] using hvisit,
        by simpa [freshRows, hseen] using hstate, by simpa [freshRows, hseen] using hleft, ?_⟩
      intro hlt id
      rw [freshRows, if_pos hseen] at hlt
      rw [hids hlt, List.map_cons, List.mem_cons]
      constructor
      · rintro (h | h)
        · exact .inl h
        · exact .inr (.inr h)
      · rintro (h | rfl | h)
        · exact .inl h
        · exact .inl hseen
        · exact .inr h
    · obtain ⟨remaining, hsucc⟩ : ∃ n, s.remaining = n + 1 := ⟨_, (Nat.succ_pred hremaining.ne').symm⟩
      simp only [freshRows, if_neg hseen, hsucc, List.length_cons, List.take_succ_cons,
        Nat.add_lt_add_iff_right]
      rcases Nat.eq_zero_or_pos remaining with rfl | hpos
      · exact ⟨⟨row.id :: s.seenIds, 0, s.state ++ [row]⟩,
          by simp [visit, pointVisitor, collectRow, hseen, hsucc], by simp, by simp, by simp⟩
      · obtain ⟨s', hvisit, hstate, hleft, hids⟩ :=
          ih ⟨row.id :: s.seenIds, remaining, s.state ++ [row]⟩ hpos
        refine ⟨s', ?_, by simp [hstate], by simpa using hleft, ?_⟩
        · rw [← hvisit]
          simp [visit, pointVisitor, collectRow, hseen, hsucc, hpos]
        · intro hlt id
          rw [hids hlt, List.map_cons, List.mem_cons, List.mem_cons, or_assoc, or_left_comm]

variable {source : DataSource} {table : TableName} {index : IndexName} {key : Value Scalar}

theorem getIndexPointWithLimit_eq {rows : List Entry} (limit : Option Nat)
    (h : source.getIndexRange table index (.scalar (.only key)) false = .ok rows) :
    source.getIndexPointWithLimit table index key limit = .ok (limited 0 limit rows) := by
  rw [DataSource.getIndexPointWithLimit, DataSource.getIndexRangeWithLimit, h]
  rfl

theorem freshRows_congr {seen seen' : List RowId} {rows : List Entry}
    (h : ∀ id, id ∈ seen ↔ id ∈ seen') : freshRows seen rows = freshRows seen' rows := by
  induction rows generalizing seen seen' with
  | nil => rfl
  | cons row rows ih =>
    have hcons : ∀ id, id ∈ row.id :: seen ↔ id ∈ row.id :: seen' := fun id => by simp [h]
    simp only [freshRows, h, ih h, ih hcons]

theorem visitProbeKeys_unlimited {rows : List Entry} (keys : List (Value Scalar))
    (h : source.getIndexRange table index (.scalar (.only key)) false = .ok rows)
    (s : PointState (List Entry)) :
    ∃ s', visitProbeKeys (source.getIndexPointWithLimit table index) false collectRow
        (key :: keys) s =
          visitProbeKeys (source.getIndexPointWithLimit table index) false collectRow keys s' ∧
      s'.state = s.state ++ freshRows s.seenIds rows ∧
      ∀ id, id ∈ s'.seenIds ↔ id ∈ s.seenIds ∨ id ∈ rows.map Row.id := by
  obtain ⟨s', hvisit, hstate⟩ := visit_pointVisitor_unlimited rows s
  refine ⟨s', ?_, hstate⟩
  rw [visitProbeKeys]
  simp [getIndexPointWithLimit_eq _ h, hvisit]

theorem visitProbeKeys_limited {rows : List Entry} (keys : List (Value Scalar))
    (h : source.getIndexRange table index (.scalar (.only key)) false = .ok rows)
    (s : PointState (List Entry)) (hremaining : 0 < s.remaining) :
    ∃ s', visitProbeKeys (source.getIndexPointWithLimit table index) true collectRow
        (key :: keys) s =
          (if (freshRows s.seenIds (rows.take s.remaining)).length < s.remaining then
            visitProbeKeys (source.getIndexPointWithLimit table index) true collectRow keys s'
          else .ok s') ∧
      s'.state = s.state ++ (freshRows s.seenIds (rows.take s.remaining)).take s.remaining ∧
      s'.remaining = s.remaining - (freshRows s.seenIds (rows.take s.remaining)).length ∧
      ((freshRows s.seenIds (rows.take s.remaining)).length < s.remaining → ∀ id,
        id ∈ s'.seenIds ↔ id ∈ s.seenIds ∨ id ∈ (rows.take s.remaining).map Row.id) := by
  obtain ⟨s', hvisit, hstate⟩ := visit_pointVisitor_limited (rows.take s.remaining) s hremaining
  refine ⟨s', ?_, hstate⟩
  rw [visitProbeKeys]
  simp only [Bool.true_and, beq_iff_eq, hremaining.ne', if_false, if_true,
    getIndexPointWithLimit_eq _ h, ok_bind, limited_some, List.drop_zero, hvisit]
  split <;> simp_all

/-- The rows under a key, and under the other width those that are new. -/
theorem indexPointRows_none {rows : List Entry} (laws : source.Lawful)
    (h : source.getIndexRange table index (.scalar (.only key)) false = .ok rows) :
    (sqlPointLookupKeys key = [key] ∧ indexPointRows source table index key none = .ok rows) ∨
      ∃ key' rows', sqlPointLookupKeys key = [key, key'] ∧
        source.getIndexRange table index (.scalar (.only key')) false = .ok rows' ∧
        indexPointRows source table index key none =
          .ok (rows ++ freshRows (rows.map Row.id) rows') := by
  have hfresh : freshRows [] rows = rows := freshRows_of_new (by simp) (laws.nodup h)
  rcases sqlPointLookupKeys_eq key with hkeys | ⟨key', hkeys⟩
  · obtain ⟨s, hvisit, hstate, hids⟩ := visitProbeKeys_unlimited [] h ⟨[], maxUsize, []⟩
    refine .inl ⟨hkeys, ?_⟩
    rw [indexPointRows, visitIndexPointWithSqlSemantics, hkeys]
    simp [hvisit, hstate, hfresh]
  · obtain ⟨rows', h'⟩ := laws.answers h (.scalar (.only key')) false
    obtain ⟨s, hvisit, hstate, hids⟩ := visitProbeKeys_unlimited [key'] h ⟨[], maxUsize, []⟩
    obtain ⟨s', hvisit', hstate', -⟩ := visitProbeKeys_unlimited [] h' s
    refine .inr ⟨key', rows', hkeys, h', ?_⟩
    rw [indexPointRows, visitIndexPointWithSqlSemantics, hkeys]
    have hseen : ∀ id, id ∈ s.seenIds ↔ id ∈ rows.map Row.id := by simpa using hids
    simp [hvisit, hvisit', hstate, hstate', hfresh, freshRows_congr hseen]

@[simp] theorem indexPointRows_zero : indexPointRows source table index key (some 0) = .ok [] := by
  rcases sqlPointLookupKeys_eq key with hkeys | ⟨key', hkeys⟩ <;>
    simp [indexPointRows, visitIndexPointWithSqlSemantics, hkeys, visitProbeKeys]

theorem getIndexRange_of_indexPointRows {limit : Option Nat} {rows : List Entry}
    (hlimit : limit ≠ some 0) (h : indexPointRows source table index key limit = .ok rows) :
    ∃ found, source.getIndexRange table index (.scalar (.only key)) false = .ok found := by
  cases hfound : source.getIndexRange table index (.scalar (.only key)) false with
  | ok found => exact ⟨found, rfl⟩
  | error e =>
    obtain ⟨keys, hkeys⟩ : ∃ keys, sqlPointLookupKeys key = key :: keys := by
      rcases sqlPointLookupKeys_eq key with hkeys | ⟨key', hkeys⟩
      · exact ⟨[], hkeys⟩
      · exact ⟨[key'], hkeys⟩
    have hgo : (limit.isSome && limit.getD maxUsize == 0) = false := by
      cases limit with
      | none => rfl
      | some limit => simpa using hlimit
    rw [indexPointRows, visitIndexPointWithSqlSemantics, hkeys, visitProbeKeys, hgo,
      DataSource.getIndexPointWithLimit, DataSource.getIndexRangeWithLimit, hfound] at h
    cases h

/-- A point lookup with a limit yields the first rows of the one without. -/
theorem indexPointRows_some {rows : List Entry} (laws : source.Lawful)
    (h : indexPointRows source table index key none = .ok rows) (limit : Nat) :
    indexPointRows source table index key (some limit) = .ok (rows.take limit) := by
  obtain ⟨found, hfound⟩ := getIndexRange_of_indexPointRows (by simp) h
  rcases Nat.eq_zero_or_pos limit with rfl | hlimit
  · rw [indexPointRows_zero, List.take_zero]
  have hfresh : freshRows [] (found.take limit) = found.take limit :=
    freshRows_of_new (by simp) ((laws.nodup hfound).sublist ((List.take_sublist _ _).map _))
  have hstop : ∀ keys rest, limit ≤ found.length → sqlPointLookupKeys key = key :: keys →
      indexPointRows source table index key (some limit) = .ok ((found ++ rest).take limit) := by
    intro keys rest hle hkeys
    obtain ⟨s, hvisit, hstate, -⟩ := visitProbeKeys_limited keys hfound ⟨[], limit, []⟩ hlimit
    rw [indexPointRows, visitIndexPointWithSqlSemantics, hkeys]
    simp [hvisit, hstate, hfresh, hle, List.take_append_of_le_length hle, List.take_take]
  have hgo : found.length < limit → ∀ keys, sqlPointLookupKeys key = key :: keys →
      ∃ s, indexPointRows source table index key (some limit) = (do
          let s ← visitProbeKeys (source.getIndexPointWithLimit table index) true collectRow keys s
          return s.state) ∧
        s.state = found ∧ s.remaining = limit - found.length ∧
        ∀ id, id ∈ s.seenIds ↔ id ∈ found.map Row.id := by
    intro hlt keys hkeys
    obtain ⟨s, hvisit, hstate, hleft, hids⟩ :=
      visitProbeKeys_limited keys hfound ⟨[], limit, []⟩ hlimit
    have htake : found.take limit = found := List.take_of_length_le hlt.le
    rw [htake] at hfresh
    simp only [htake, hfresh] at hvisit hstate hleft hids
    refine ⟨s, ?_, by simpa [htake] using hstate, hleft, by simpa using hids hlt⟩
    rw [indexPointRows, visitIndexPointWithSqlSemantics, hkeys, Option.isSome_some,
      Option.getD_some, hvisit, if_pos hlt]
  rcases indexPointRows_none laws hfound with ⟨hkeys, hrows⟩ | ⟨key', rows', hkeys, h', hrows⟩
  · obtain rfl : found = rows := Except.ok.inj (hrows.symm.trans h)
    rcases Nat.lt_or_ge found.length limit with hlt | hle
    · obtain ⟨s, hpoint, hstate, -⟩ := hgo hlt _ hkeys
      rw [hpoint, visitProbeKeys_nil, ok_bind, hstate, List.take_of_length_le hlt.le, pure_eq_ok]
    · simpa using hstop _ [] hle hkeys
  · obtain rfl : found ++ freshRows (found.map Row.id) rows' = rows :=
      Except.ok.inj (hrows.symm.trans h)
    rcases Nat.lt_or_ge found.length limit with hlt | hle
    · obtain ⟨s, hpoint, hstate, hleft, hids⟩ := hgo hlt _ hkeys
      have hpos : 0 < s.remaining := hleft ▸ Nat.sub_pos_of_lt hlt
      obtain ⟨s', hvisit, hstate', -⟩ := visitProbeKeys_limited [] h' s hpos
      -- the other width holds new rows only, or none
      have hothers : (freshRows s.seenIds (rows'.take s.remaining)).take s.remaining =
          (freshRows (found.map Row.id) rows').take s.remaining := by
        rw [freshRows_congr hids]
        rcases laws.widths hkeys hfound h' with hnew | hold
        · have hnodup := (laws.nodup h').sublist ((List.take_sublist s.remaining rows').map _)
          rw [freshRows_of_new hnew (laws.nodup h'),
            freshRows_of_new (fun row hrow => hnew row (List.mem_of_mem_take hrow)) hnodup,
            List.take_take, Nat.min_self]
        · rw [freshRows_of_seen hold,
            freshRows_of_seen fun row hrow => hold row (List.mem_of_mem_take hrow)]
      rw [hpoint, hvisit, visitProbeKeys_nil, ite_self, ok_bind, hstate', hstate, hothers, hleft,
        List.take_append, List.take_of_length_le hlt.le, pure_eq_ok]
    · exact hstop _ _ hle hkeys

end Laws

end Cynos.Query
