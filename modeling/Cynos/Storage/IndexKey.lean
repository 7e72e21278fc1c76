import Cynos.Core.Row
import Mathlib.Data.List.Lex
import Mathlib.Data.Prod.Lex
import Mathlib.Data.Sum.Order

/-! Keys of the primary and secondary indexes, with the order that scans rely on:
scalars come first, keys of several columns compare column by column, and the two
prefix forms stand before and behind every key that starts with their values. -/
namespace Cynos.Storage

open Core

inductive IndexKey (V : Type) where
  | scalar (value : Value V)
  | composite (values : List (Value V))
  | compositePrefixLower (values : List (Value V))
  | compositePrefixUpper (values : List (Value V))
  deriving DecidableEq

inductive IndexKeyComponent (V : Type) where
  | low
  | stop
  | value (value : Value V)
  | high
  deriving DecidableEq

variable {V : Type}

namespace IndexKey

def fromValues : List (Value V) → IndexKey V
  | [value] => .scalar value
  | values => .composite values

def fromRow (row : Row V) (colIndices : List Nat) : IndexKey V :=
  fromValues (colIndices.map fun i => (row.get i).getD .null)

def compositeComponentAt (index : Nat) : IndexKey V → IndexKeyComponent V
  | .composite values => (values[index]?.map .value).getD .stop
  | .compositePrefixLower values => (values[index]?.map .value).getD .low
  | .compositePrefixUpper values => (values[index]?.map .value).getD .high
  | .scalar value => if index = 0 then .value value else .stop

def compositeLikeLen : IndexKey V → Nat
  | .scalar _ => 1
  | .composite values | .compositePrefixLower values | .compositePrefixUpper values =>
    values.length

end IndexKey

section Compare

variable [Ord (Value V)]

def IndexKeyComponent.cmp : IndexKeyComponent V → IndexKeyComponent V → Ordering
  | .low, .low | .stop, .stop | .high, .high => .eq
  | .value left, .value right => compare left right
  | .low, _ => .lt
  | _, .low => .gt
  | .stop, .value _ | .stop, .high => .lt
  | .value _, .stop | .high, .stop => .gt
  | .value _, .high => .lt
  | .high, .value _ => .gt

/-- The loop over component positions: the first difference decides. -/
def IndexKeyComponent.cmpFrom (left right : Nat → IndexKeyComponent V) : Nat → Nat → Ordering
  | _, 0 => .eq
  | index, count + 1 =>
    ((left index).cmp (right index)).then (cmpFrom left right (index + 1) count)

def IndexKey.cmp (self other : IndexKey V) : Ordering :=
  match self, other with
  | .scalar left, .scalar right => compare left right
  | .scalar _, _ => .lt
  | _, .scalar _ => .gt
  | _, _ => IndexKeyComponent.cmpFrom (self.compositeComponentAt ·) (other.compositeComponentAt ·)
      0 (max self.compositeLikeLen other.compositeLikeLen + 1)

end Compare

namespace IndexKeyComponent

def code : IndexKeyComponent V → Lex (Nat × Value V)
  | .low => toLex (0, ⊥)
  | .stop => toLex (1, ⊥)
  | .value v => toLex (2, v)
  | .high => toLex (3, ⊥)

theorem code_injective : Function.Injective (code : IndexKeyComponent V → _) := by
  intro a b h
  cases a <;> cases b <;> simp_all [code]

/-- The components in order, closed by the one that stands for all further positions. -/
def closed (values : List (Value V)) (last : IndexKeyComponent V) : List (Lex (Nat × Value V)) :=
  values.map (fun v => code (.value v)) ++ [code last]

theorem closed_inj {vs ws : List (Value V)} {c d : IndexKeyComponent V} :
    closed vs c = closed ws d ↔ vs = ws ∧ c = d := by
  constructor
  · intro h
    obtain ⟨hmap, hlast⟩ := List.append_inj' h rfl
    refine ⟨List.map_injective_iff.mpr (fun v w hvw => ?_) hmap,
      code_injective (by simpa using hlast)⟩
    simpa using code_injective hvw
  · rintro ⟨rfl, rfl⟩
    rfl

theorem cmpFrom_succ [Ord (Value V)] (left right : Nat → IndexKeyComponent V) (index count : Nat) :
    cmpFrom left right (index + 1) count =
      cmpFrom (fun i => left (i + 1)) (fun i => right (i + 1)) index count := by
  induction count generalizing index with
  | zero => rfl
  | succ count ih => rw [cmpFrom, cmpFrom, ih]

end IndexKeyComponent

namespace IndexKey

def code : IndexKey V → Lex (Value V ⊕ List (Lex (Nat × Value V)))
  | .scalar v => toLex (.inl v)
  | .composite vs => toLex (.inr (IndexKeyComponent.closed vs .stop))
  | .compositePrefixLower vs => toLex (.inr (IndexKeyComponent.closed vs .low))
  | .compositePrefixUpper vs => toLex (.inr (IndexKeyComponent.closed vs .high))

theorem code_injective : Function.Injective (code : IndexKey V → _) := by
  intro a b h
  cases a <;> cases b <;> simp_all [code, IndexKeyComponent.closed_inj]

end IndexKey

section Order

variable [LinearOrder V]

namespace IndexKeyComponent

theorem cmp_compares (a b : IndexKeyComponent V) : (a.cmp b).Compares a.code b.code := by
  cases a <;> cases b
  case value.value v w =>
    rcases hvw : compare v w with _ | _ | _ <;> rw [cmp, hvw]
    · exact Prod.Lex.toLex_lt_toLex.mpr (.inr ⟨rfl, compare_lt_iff_lt.mp hvw⟩)
    · rw [compare_eq_iff_eq.mp hvw]
      rfl
    · exact Prod.Lex.toLex_lt_toLex.mpr (.inr ⟨rfl, compare_gt_iff_gt.mp hvw⟩)
  case low.low | stop.stop | high.high => rfl
  all_goals exact Prod.Lex.toLex_lt_toLex.mpr (.inl (by simp))

theorem then_compares {α : Type} [LinearOrder α] {a b : α} {as bs : List α} {o o' : Ordering}
    (h : o.Compares a b) (h' : o = .eq → o'.Compares as bs) :
    (o.then o').Compares (a :: as) (b :: bs) := by
  cases o with
  | lt => exact List.cons_lt_cons_iff.mpr (.inl h)
  | gt => exact List.cons_lt_cons_iff.mpr (.inl h)
  | eq =>
    obtain rfl : a = b := h
    rw [Ordering.then]
    cases o' with
    | lt => exact List.cons_lt_cons_iff.mpr (.inr ⟨rfl, h' rfl⟩)
    | gt => exact List.cons_lt_cons_iff.mpr (.inr ⟨rfl, h' rfl⟩)
    | eq => exact congrArg (a :: ·) (h' rfl)

theorem cmpFrom_compares (vs ws : List (Value V)) {c d : IndexKeyComponent V}
    (hc : ∀ v, c ≠ .value v) (hd : ∀ v, d ≠ .value v) :
    (cmpFrom (fun i => (vs[i]?.map .value).getD c) (fun i => (ws[i]?.map .value).getD d) 0
      (max vs.length ws.length + 1)).Compares (closed vs c) (closed ws d) := by
  induction vs generalizing ws with
  | nil =>
    cases ws with
    | nil => exact then_compares (cmp_compares c d) fun _ => rfl
    | cons w ws =>
      refine then_compares (cmp_compares c (.value w)) fun heq => ?_
      exact absurd (code_injective ((cmp_compares c (.value w)).eq_eq.mp heq)) (hc w)
  | cons v vs ih =>
    cases ws with
    | nil =>
      refine then_compares (cmp_compares (.value v) d) fun heq => ?_
      exact absurd (code_injective ((cmp_compares (.value v) d).eq_eq.mp heq)).symm (hd v)
    | cons w ws =>
      rw [List.length_cons, List.length_cons, Nat.succ_max_succ, cmpFrom, cmpFrom_succ]
      exact then_compares (cmp_compares (.value v) (.value w)) fun _ => by simpa [closed] using ih ws

end IndexKeyComponent

namespace IndexKey

instance : PartialOrder (IndexKey V) := PartialOrder.lift code code_injective

theorem compares_of_code {a b : IndexKey V} {o : Ordering} {l l' : List (Lex (Nat × Value V))}
    (h : o.Compares l l') (ha : code a = toLex (.inr l)) (hb : code b = toLex (.inr l')) :
    o.Compares a b := by
  have hlt : ∀ {a b : IndexKey V} {l l' : List (Lex (Nat × Value V))}, l < l' →
      code a = toLex (.inr l) → code b = toLex (.inr l') → a < b := by
    intro a b l l' h ha hb
    change code a < code b
    rw [ha, hb]
    exact Sum.Lex.inr_lt_inr_iff.mpr h
  cases o with
  | lt => exact hlt h ha hb
  | gt => exact hlt h hb ha
  | eq => exact code_injective (by rw [ha, hb, show l = l' from h])

theorem cmp_compares (a b : IndexKey V) : (a.cmp b).Compares a b := by
  cases a <;> cases b
  case scalar.scalar v w =>
    rcases hvw : compare v w with _ | _ | _ <;> rw [cmp, hvw]
    · exact Sum.Lex.inl_lt_inl_iff.mpr (compare_lt_iff_lt.mp hvw)
    · exact congrArg scalar (compare_eq_iff_eq.mp hvw)
    · exact Sum.Lex.inl_lt_inl_iff.mpr (compare_gt_iff_gt.mp hvw)
  all_goals first
    | exact Sum.Lex.inl_lt_inr _ _
    | exact compares_of_code (IndexKeyComponent.cmpFrom_compares _ _ (by simp) (by simp)) rfl rfl

instance : LinearOrder (IndexKey V) :=
  { linearOrderOfCompares cmp cmp_compares with
    compare := cmp
    compare_eq_compareOfLessAndEq := fun a b => by
      have h := cmp_compares a b
      rw [compareOfLessAndEq]
      split_ifs with hlt heq
      · exact h.eq_lt.mpr hlt
      · exact h.eq_eq.mpr heq
      · exact h.eq_gt.mpr (lt_of_le_of_ne (h.le_total.resolve_left fun hle =>
          hlt (lt_of_le_of_ne hle heq)) (Ne.symm heq)) }

end IndexKey

end Order

end Cynos.Storage
