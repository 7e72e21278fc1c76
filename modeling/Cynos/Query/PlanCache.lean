import Cynos.Lib.Bytes
import Cynos.Query.Logical
import Mathlib.Data.List.MinMax

/-! The cache of compiled plans. A plan is looked up by its fingerprint, the hash of what
the plan writes: tags, names, literals and numbers, one after the other. -/
namespace Cynos.Query

open Core Bytes
open Index (KeyRange)

section Fingerprint

def usizeBytes (n : Nat) : List UInt8 := leBytes 8 n
def boolByte (b : Bool) : List UInt8 := [if b then 1 else 0]
def enumByte (discriminant : Nat) : List UInt8 := [UInt8.ofNat discriminant]

def jsonbDebug (value : JsonbValue) : String :=
  "JsonbValue([" ++ ", ".intercalate (value.data.map fun byte => toString byte.toNat) ++ "])"

/-- What one call of `write` after the other gets. -/
abbrev Writes := List (List UInt8)

def hashValue : Value Scalar → Writes
  | none => [utf8Bytes "null"]
  | some (.boolean b) => [utf8Bytes "bool", boolByte b]
  | some (.int32 i) => [utf8Bytes "i32", leBytes 4 i.toUInt32.toNat]
  | some (.int64 i) => [utf8Bytes "i64", leBytes 8 i.toUInt64.toNat]
  | some (.float64 f) => [utf8Bytes "f64", leBytes 8 f.toBits.toNat]
  | some (.string s) => [utf8Bytes "str", utf8Bytes s]
  | some (.dateTime dt) => [utf8Bytes "dt", leBytes 8 dt.toUInt64.toNat]
  | some (.bytes b) => [utf8Bytes "bytes", b]
  | some (.jsonb j) => [utf8Bytes "jsonb", utf8Bytes (jsonbDebug j)]

def hashValueVec (values : List (Value Scalar)) : Writes :=
  usizeBytes values.length :: values.flatMap hashValue

/-- Key ranges of scalars and of tuples are written alike. -/
def hashKeyRange {K : Type} (hashKey : K → Writes) : KeyRange K → Writes
  | .all => [utf8Bytes "all"]
  | .only value => utf8Bytes "only" :: hashKey value
  | .lowerBound value exclusive => utf8Bytes "lower" :: hashKey value ++ [boolByte exclusive]
  | .upperBound value exclusive => utf8Bytes "upper" :: hashKey value ++ [boolByte exclusive]
  | .bound lower upper lowerExclusive upperExclusive =>
    utf8Bytes "bound" :: hashKey lower ++ hashKey upper ++
      [boolByte lowerExclusive ++ boolByte upperExclusive]

def hashScalarKeyRange : KeyRange (Value Scalar) → Writes := hashKeyRange hashValue
def hashCompositeKeyRange : KeyRange (List (Value Scalar)) → Writes := hashKeyRange hashValueVec

def hashIndexBounds : IndexBounds → Writes
  | .unbounded => [utf8Bytes "all"]
  | .scalar range => utf8Bytes "scalar" :: hashScalarKeyRange range
  | .composite range => utf8Bytes "composite" :: hashCompositeKeyRange range

mutual

def hashExpr : Expr → Writes
  | .column col =>
    [utf8Bytes "col", utf8Bytes col.table, utf8Bytes col.column, usizeBytes col.index]
  | .literal value => utf8Bytes "lit" :: hashValue value
  | .binaryOp left op right =>
    utf8Bytes "binop" :: enumByte op.ctorIdx :: hashExpr left ++ hashExpr right
  | .unaryOp op expr => utf8Bytes "unop" :: enumByte op.ctorIdx :: hashExpr expr
  | .function name args => utf8Bytes "func" :: utf8Bytes name :: hashExprs args
  | .aggregate func none distinct =>
    [utf8Bytes "agg", enumByte func.ctorIdx, boolByte distinct]
  | .aggregate func (some expr) distinct =>
    utf8Bytes "agg" :: enumByte func.ctorIdx :: hashExpr expr ++ [boolByte distinct]
  | .between expr low high =>
    utf8Bytes "between" :: hashExpr expr ++ hashExpr low ++ hashExpr high
  | .notBetween expr low high =>
    utf8Bytes "not_between" :: hashExpr expr ++ hashExpr low ++ hashExpr high
  | .in expr list => utf8Bytes "in" :: hashExpr expr ++ hashExprs list
  | .notIn expr list => utf8Bytes "not_in" :: hashExpr expr ++ hashExprs list
  | .like expr pattern => utf8Bytes "like" :: hashExpr expr ++ [utf8Bytes pattern]
  | .notLike expr pattern => utf8Bytes "not_like" :: hashExpr expr ++ [utf8Bytes pattern]
  | .match expr pattern => utf8Bytes "match" :: hashExpr expr ++ [utf8Bytes pattern]
  | .notMatch expr pattern => utf8Bytes "not_match" :: hashExpr expr ++ [utf8Bytes pattern]

def hashExprs : List Expr → Writes
  | [] => []
  | expr :: exprs => hashExpr expr ++ hashExprs exprs

end

/-- A UNION writes nothing about its duplicates. -/
def hashLogicalPlan : LogicalPlan → Writes
  | .scan table => [utf8Bytes "scan", utf8Bytes table]
  | .indexScan table index bounds =>
    [utf8Bytes "index_scan", utf8Bytes table, utf8Bytes index] ++ hashIndexBounds bounds
  | .indexGet table index key =>
    [utf8Bytes "index_get", utf8Bytes table, utf8Bytes index] ++ hashValue key
  | .indexInGet table index keys =>
    [utf8Bytes "index_in_get", utf8Bytes table, utf8Bytes index] ++ keys.flatMap hashValue
  | .ginIndexScan table index column columnIndex path value queryType recheck =>
    [utf8Bytes "gin_index_scan", utf8Bytes table, utf8Bytes index, utf8Bytes column,
      usizeBytes columnIndex, utf8Bytes path] ++ (value.map hashValue).getD [] ++
      [utf8Bytes queryType] ++ (recheck.map hashExpr).getD []
  | .ginIndexScanMulti table index column pairs matchAll recheck =>
    [utf8Bytes "gin_index_scan_multi", utf8Bytes table, utf8Bytes index, utf8Bytes column] ++
      (pairs.flatMap fun (path, value) => utf8Bytes path :: hashValue value) ++
      [boolByte matchAll] ++ (recheck.map hashExpr).getD []
  | .filter input predicate => utf8Bytes "filter" :: hashLogicalPlan input ++ hashExpr predicate
  | .project input columns => utf8Bytes "project" :: hashLogicalPlan input ++ hashExprs columns
  | .join left right condition joinType outputTables =>
    utf8Bytes "join" :: hashLogicalPlan left ++ hashLogicalPlan right ++ hashExpr condition ++
      [enumByte joinType.ctorIdx] ++ outputTables.map utf8Bytes
  | .aggregate input groupBy aggregates =>
    utf8Bytes "aggregate" :: hashLogicalPlan input ++ hashExprs groupBy ++
      aggregates.flatMap fun (func, expr) => enumByte func.ctorIdx :: hashExpr expr
  | .sort input orderBy =>
    utf8Bytes "sort" :: hashLogicalPlan input ++
      orderBy.flatMap fun (expr, order) => hashExpr expr ++ [enumByte order.ctorIdx]
  | .limit input limit offset =>
    utf8Bytes "limit" :: hashLogicalPlan input ++ [usizeBytes limit, usizeBytes offset]
  | .crossProduct left right =>
    utf8Bytes "cross_product" :: hashLogicalPlan left ++ hashLogicalPlan right
  | .union left right _ => utf8Bytes "union" :: hashLogicalPlan left ++ hashLogicalPlan right
  | .empty => [utf8Bytes "empty"]

structure FnvHasher where
  state : UInt64

namespace FnvHasher

def fnvOffset : UInt64 := 0xCBF29CE484222325
def fnvPrime : UInt64 := 0x100000001B3

def new : FnvHasher := ⟨fnvOffset⟩

def write (hasher : FnvHasher) (bytes : List UInt8) : FnvHasher :=
  ⟨bytes.foldl (fun state byte => (state ^^^ byte.toUInt64) * fnvPrime) hasher.state⟩

def finish (hasher : FnvHasher) : UInt64 := hasher.state

end FnvHasher

def computePlanFingerprint (plan : LogicalPlan) : UInt64 :=
  ((hashLogicalPlan plan).foldl FnvHasher.write .new).finish

/-- All that a plan feeds to the hasher. -/
def fingerprintData (plan : LogicalPlan) : List UInt8 := (hashLogicalPlan plan).flatten

end Fingerprint

section Pieces

variable {A : Type} [DecidableEq A]

/-- The first pieces in which two lists differ are not one the beginning of the other. -/
def diverge : List (List A) → List (List A) → Bool
  | a :: as, b :: bs => if a = b then diverge as bs else !a.isPrefixOf b && !b.isPrefixOf a
  | _, _ => false

theorem flatten_ne_of_diverge {as bs : List (List A)} (h : diverge as bs = true) :
    as.flatten ≠ bs.flatten := by
  induction as generalizing bs with
  | nil => cases h
  | cons a as ih =>
    cases bs with
    | nil => cases h
    | cons b bs =>
      rw [List.flatten_cons, List.flatten_cons]
      intro heq
      rw [diverge] at h
      split at h
      · next hab =>
        subst hab
        exact ih h (List.append_cancel_left heq)
      · rw [Bool.and_eq_true, Bool.not_eq_true', Bool.not_eq_true'] at h
        rcases List.prefix_or_prefix_of_prefix (heq ▸ List.prefix_append a _)
          (List.prefix_append b _) with hprefix | hprefix
        · rw [List.isPrefixOf_iff_prefix.mpr hprefix] at h
          exact Bool.false_ne_true h.1.symm
        · rw [List.isPrefixOf_iff_prefix.mpr hprefix] at h
          exact Bool.false_ne_true h.2.symm

end Pieces

/-- Where two plans first write different pieces neither is the beginning of the other, or
they do not write equally much. -/
def LogicalPlan.Distinguishable (plan plan' : LogicalPlan) : Prop :=
  diverge (hashLogicalPlan plan) (hashLogicalPlan plan') = true ∨
    (fingerprintData plan).length ≠ (fingerprintData plan').length

theorem LogicalPlan.Distinguishable.data_ne {plan plan' : LogicalPlan}
    (h : plan.Distinguishable plan') : fingerprintData plan ≠ fingerprintData plan' := by
  rcases h with h | h
  · exact flatten_ne_of_diverge h
  · exact fun heq => h (congrArg List.length heq)

section Cache

variable {P : Type} (collectTables : P → List TableName)

structure CacheEntry (P : Type) where
  plan : P
  lastAccess : Nat
  tables : List TableName

/-- `cache` holds its entries in the order of their fingerprints. -/
structure PlanCache (P : Type) where
  cache : List (UInt64 × CacheEntry P)
  maxSize : Nat
  accessCounter : Nat
  hits : Nat
  misses : Nat

namespace PlanCache

def new (maxSize : Nat) : PlanCache P := ⟨[], maxSize, 0, 0, 0⟩

def len (c : PlanCache P) : Nat := c.cache.length

def insertEntry (fingerprint : UInt64) (entry : CacheEntry P) :
    List (UInt64 × CacheEntry P) → List (UInt64 × CacheEntry P)
  | [] => [(fingerprint, entry)]
  | e :: entries =>
    if fingerprint < e.1 then (fingerprint, entry) :: e :: entries
    else if fingerprint = e.1 then (fingerprint, entry) :: entries
    else e :: insertEntry fingerprint entry entries

/-- The entry that was not asked for the longest time goes. -/
def evictLru (c : PlanCache P) : PlanCache P :=
  match c.cache.argmin fun e => e.2.lastAccess with
  | some lru => { c with cache := c.cache.filter fun e => e.1 ≠ lru.1 }
  | none => c

def clear (c : PlanCache P) : PlanCache P := { c with cache := [], hits := 0, misses := 0 }

def invalidateTable (c : PlanCache P) (table : TableName) : PlanCache P :=
  { c with cache := c.cache.filter fun e => !e.2.tables.any fun t => t = table }

def getOrInsertCompiledWith (c : PlanCache P) (fingerprint : UInt64) (compile : Unit → P) :
    PlanCache P × P :=
  let c := { c with accessCounter := c.accessCounter + 1 }
  match c.cache.find? fun e => e.1 = fingerprint with
  | some entry =>
    ({ c with
      cache := c.cache.map fun e =>
        if e.1 = fingerprint then (e.1, { e.2 with lastAccess := c.accessCounter }) else e
      hits := c.hits + 1 }, entry.2.plan)
  | none =>
    let c := { c with misses := c.misses + 1 }
    let c := if c.cache.length ≥ c.maxSize then c.evictLru else c
    let plan := compile ()
    ({ c with
      cache := insertEntry fingerprint ⟨plan, c.accessCounter, collectTables plan⟩ c.cache }, plan)

end PlanCache

/-- A plan that is looked up with what it would be compiled to, or entries that go. -/
inductive CacheOp (P : Type) where
  | lookup (plan : LogicalPlan) (compiled : P)
  | evictLru
  | invalidateTable (table : TableName)
  | clear

def CacheOp.call : CacheOp P → Option (LogicalPlan × P)
  | .lookup plan compiled => some (plan, compiled)
  | _ => none

/-- One operation, with the answer to a lookup. -/
def PlanCache.step (c : PlanCache P) : CacheOp P → PlanCache P × Option (LogicalPlan × P)
  | .lookup plan compiled =>
    let (c, answer) :=
      c.getOrInsertCompiledWith collectTables (computePlanFingerprint plan) fun _ => compiled
    (c, some (plan, answer))
  | .evictLru => (c.evictLru, none)
  | .invalidateTable table => (c.invalidateTable table, none)
  | .clear => (c.clear, none)

/-- All operations, with the answers to the lookups. -/
def PlanCache.run (c : PlanCache P) : List (CacheOp P) → PlanCache P × List (LogicalPlan × P)
  | [] => (c, [])
  | op :: ops =>
    let (c, answer) := c.step collectTables op
    let (c, answers) := run c ops
    (c, answer.toList ++ answers)

namespace PlanCache

variable {c : PlanCache P}

/-- Each entry was compiled, in one of `calls`, for a plan of its fingerprint. -/
def Compiled (calls : List (LogicalPlan × P)) (c : PlanCache P) : Prop :=
  ∀ e ∈ c.cache, ∃ plan, (plan, e.2.plan) ∈ calls ∧ computePlanFingerprint plan = e.1

theorem mem_insertEntry {fingerprint : UInt64} {entry : CacheEntry P}
    {entries : List (UInt64 × CacheEntry P)} {e : UInt64 × CacheEntry P}
    (h : e ∈ insertEntry fingerprint entry entries) : e = (fingerprint, entry) ∨ e ∈ entries := by
  induction entries with
  | nil => exact .inl (List.mem_singleton.mp h)
  | cons e' entries ih =>
    unfold insertEntry at h
    split at h
    · exact (List.mem_cons.mp h).imp_right id
    · split at h
      · exact (List.mem_cons.mp h).imp_right (List.mem_cons_of_mem _)
      · rcases List.mem_cons.mp h with rfl | h
        · exact .inr List.mem_cons_self
        · exact (ih h).imp_right (List.mem_cons_of_mem _)

theorem length_insertEntry_le (fingerprint : UInt64) (entry : CacheEntry P)
    (entries : List (UInt64 × CacheEntry P)) :
    (insertEntry fingerprint entry entries).length ≤ entries.length + 1 := by
  induction entries with
  | nil => exact le_refl _
  | cons e entries ih =>
    unfold insertEntry
    split
    · exact le_refl _
    · split
      · exact Nat.le_succ _
      · exact Nat.succ_le_succ ih

theorem evictLru_subset (c : PlanCache P) : c.evictLru.cache ⊆ c.cache := by
  unfold evictLru
  split
  · exact List.filter_subset_self _
  · exact List.Subset.refl _

/-- An eviction makes room. -/
theorem length_evictLru_lt (h : c.cache ≠ []) : c.evictLru.cache.length < c.cache.length := by
  unfold evictLru
  cases hlru : c.cache.argmin fun e => e.2.lastAccess with
  | none => exact absurd (List.argmin_eq_none.mp hlru) h
  | some lru =>
    refine lt_of_le_of_ne (List.length_filter_le _ _) fun heq => ?_
    have hall := List.length_filter_eq_length_iff.mp heq lru (List.argmin_mem hlru)
    simp at hall

theorem evictLru_maxSize (c : PlanCache P) : c.evictLru.maxSize = c.maxSize := by
  unfold evictLru
  split <;> rfl

theorem Compiled.subset {c c' : PlanCache P} {calls calls' : List (LogicalPlan × P)}
    (h : c.Compiled calls) (hcache : c'.cache ⊆ c.cache) (hcalls : calls ⊆ calls') :
    c'.Compiled calls' := by
  intro e he
  obtain ⟨plan, hplan, hfingerprint⟩ := h e (hcache he)
  exact ⟨plan, hcalls hplan, hfingerprint⟩

/-- A lookup answers with what was compiled for a plan of the same fingerprint. -/
theorem Compiled.lookup {calls : List (LogicalPlan × P)} (h : c.Compiled calls)
    (plan : LogicalPlan) (compiled : P) :
    (c.getOrInsertCompiledWith collectTables (computePlanFingerprint plan)
        fun _ => compiled).1.Compiled ((plan, compiled) :: calls) ∧
      ∃ plan', (plan', (c.getOrInsertCompiledWith collectTables (computePlanFingerprint plan)
          fun _ => compiled).2) ∈ (plan, compiled) :: calls ∧
        computePlanFingerprint plan' = computePlanFingerprint plan := by
  unfold getOrInsertCompiledWith
  dsimp only
  split
  · next entry hfind =>
    obtain ⟨plan', hplan', hfingerprint⟩ := h entry (List.mem_of_find?_eq_some hfind)
    constructor
    · intro e he
      obtain ⟨e', he', rfl⟩ := List.mem_map.mp he
      obtain ⟨plan'', hplan'', hfingerprint'⟩ := h e' he'
      refine ⟨plan'', List.mem_cons_of_mem _ ?_, ?_⟩
      · split <;> exact hplan''
      · split <;> exact hfingerprint'
    · exact ⟨plan', List.mem_cons_of_mem _ hplan', hfingerprint.trans (by
        simpa using List.find?_some hfind)⟩
  · refine ⟨fun e he => ?_, plan, List.mem_cons_self, rfl⟩
    rcases mem_insertEntry he with rfl | he
    · exact ⟨plan, List.mem_cons_self, rfl⟩
    · have hmem : e ∈ c.cache := by
        split at he
        · exact evictLru_subset { c with
            accessCounter := c.accessCounter + 1, misses := c.misses + 1 } he
        · exact he
      obtain ⟨plan', hplan', hfingerprint⟩ := h e hmem
      exact ⟨plan', List.mem_cons_of_mem _ hplan', hfingerprint⟩

theorem lookup_maxSize (fingerprint : UInt64) (compile : Unit → P) :
    (c.getOrInsertCompiledWith collectTables fingerprint compile).1.maxSize = c.maxSize := by
  unfold getOrInsertCompiledWith
  dsimp only
  split
  · rfl
  · dsimp only
    split
    · exact evictLru_maxSize _
    · rfl

theorem lookup_len_le (hsize : 1 ≤ c.maxSize) (h : c.len ≤ c.maxSize) (fingerprint : UInt64)
    (compile : Unit → P) :
    (c.getOrInsertCompiledWith collectTables fingerprint compile).1.len ≤ c.maxSize := by
  unfold getOrInsertCompiledWith len
  dsimp only
  split
  · rwa [List.length_map]
  · refine (length_insertEntry_le _ _ _).trans ?_
    split
    · next hfull =>
      refine Nat.succ_le_of_lt (lt_of_lt_of_le (length_evictLru_lt ?_) h)
      exact List.ne_nil_of_length_pos (lt_of_lt_of_le hsize hfull)
    · next hroom => exact Nat.succ_le_of_lt (not_le.mp hroom)

theorem step_maxSize (op : CacheOp P) : (c.step collectTables op).1.maxSize = c.maxSize := by
  cases op with
  | lookup plan compiled =>
    unfold step
    exact lookup_maxSize collectTables _ _
  | evictLru => exact evictLru_maxSize c
  | invalidateTable _ | clear => rfl

theorem step_len_le (hsize : 1 ≤ c.maxSize) (h : c.len ≤ c.maxSize) (op : CacheOp P) :
    (c.step collectTables op).1.len ≤ c.maxSize := by
  cases op with
  | lookup plan compiled =>
    unfold step
    exact lookup_len_le collectTables hsize h _ _
  | evictLru =>
    refine le_trans ?_ h
    change c.evictLru.cache.length ≤ c.cache.length
    by_cases hnil : c.cache = []
    · unfold evictLru
      rw [hnil, List.argmin_nil]
      exact (congrArg List.length hnil).le
    · exact (length_evictLru_lt hnil).le
  | invalidateTable table => exact (List.length_filter_le _ _).trans h
  | clear => exact Nat.zero_le _

theorem Compiled.step {calls : List (LogicalPlan × P)} (h : c.Compiled calls) (op : CacheOp P) :
    (c.step collectTables op).1.Compiled (op.call.toList ++ calls) ∧
      ∀ answer ∈ (c.step collectTables op).2,
        answer.1 ∈ op.call.toList.map Prod.fst ∧ ∃ plan,
          (plan, answer.2) ∈ op.call.toList ++ calls ∧
            computePlanFingerprint plan = computePlanFingerprint answer.1 := by
  cases op with
  | lookup plan compiled =>
    obtain ⟨hcompiled, hanswer⟩ := h.lookup collectTables plan compiled
    refine ⟨hcompiled, fun answer hmem => ?_⟩
    obtain rfl := Option.mem_some.mp hmem
    exact ⟨List.mem_cons_self, hanswer⟩
  | evictLru => exact ⟨h.subset (evictLru_subset c) (List.Subset.refl _), nofun⟩
  | invalidateTable table => exact ⟨h.subset (List.filter_subset_self _) (List.Subset.refl _), nofun⟩
  | clear => exact ⟨nofun, nofun⟩

theorem run_len_le (hsize : 1 ≤ c.maxSize) (h : c.len ≤ c.maxSize) (ops : List (CacheOp P)) :
    (c.run collectTables ops).1.len ≤ c.maxSize := by
  induction ops generalizing c with
  | nil => exact h
  | cons op ops ih =>
    have hstep := step_len_le collectTables hsize h op
    have hmax := step_maxSize collectTables op (c := c)
    rw [← hmax] at hsize hstep ⊢
    exact ih hsize hstep

theorem Compiled.run {calls : List (LogicalPlan × P)} (h : c.Compiled calls)
    (ops : List (CacheOp P)) :
    ∀ answer ∈ (c.run collectTables ops).2,
      answer.1 ∈ (ops.filterMap CacheOp.call).map Prod.fst ∧ ∃ plan,
        (plan, answer.2) ∈ ops.filterMap CacheOp.call ++ calls ∧
          computePlanFingerprint plan = computePlanFingerprint answer.1 := by
  induction ops generalizing c calls with
  | nil => nofun
  | cons op ops ih =>
    obtain ⟨hnext, hanswer⟩ := h.step collectTables op
    have hcalls : ∀ pair ∈ ops.filterMap CacheOp.call ++ (op.call.toList ++ calls),
        pair ∈ (op :: ops).filterMap CacheOp.call ++ calls := by
      intro pair hpair
      rw [List.filterMap_cons]
      cases hcall : op.call with
      | none => simpa [hcall] using hpair
      | some call =>
        simp only [hcall, Option.toList_some, List.mem_append, List.mem_cons] at hpair ⊢
        tauto
    have hplans : ∀ plan, plan ∈ op.call.toList.map Prod.fst ∨
        plan ∈ (ops.filterMap CacheOp.call).map Prod.fst →
          plan ∈ ((op :: ops).filterMap CacheOp.call).map Prod.fst := by
      intro plan hplan
      rw [List.filterMap_cons]
      cases hcall : op.call with
      | none => simpa [hcall] using hplan
      | some call => simpa [hcall] using hplan
    intro answer hmem
    rcases List.mem_append.mp hmem with hmem | hmem
    · obtain ⟨hasked, plan, hplan, hfingerprint⟩ := hanswer answer (Option.mem_toList.mp hmem)
      exact ⟨hplans _ (.inl hasked), plan, hcalls _ (List.mem_append_right _ hplan), hfingerprint⟩
    · obtain ⟨hasked, plan, hplan, hfingerprint⟩ := ih hnext answer hmem
      exact ⟨hplans _ (.inr hasked), plan, hcalls _ hplan, hfingerprint⟩

end PlanCache

/-- Equal fingerprints come from equal data. -/
def NoCollision (plans : List LogicalPlan) : Prop :=
  ∀ plan ∈ plans, ∀ plan' ∈ plans,
    computePlanFingerprint plan = computePlanFingerprint plan' →
      fingerprintData plan = fingerprintData plan'

end Cache

section Samples

def usersUnion (all : Bool) : LogicalPlan := .union (.scan "users") (.scan "users") all

/-- A cache for one plan is asked for two. -/
def usersThenOrders : List (CacheOp Nat) := [.lookup (.scan "users") 1, .lookup (.scan "orders") 2]

end Samples

end Cynos.Query
