import Cynos.Jsonb.Path
import Cynos.Lib.Walk

/-! Evaluation of a path: level by level for all that it selects, depth first for the first
of it. Both cut slices with a subtraction that may go below zero. -/
namespace Cynos.Jsonb

open Lib

section Eval

/-- `arr.iter().skip(start).take(end - start)`; the subtraction panics below zero. -/
def sliceItems (items : List JsonbValue) (start stop : Option Nat) : Option (List JsonbValue) :=
  let startIdx := start.getD 0
  let endIdx := stop.getD items.length
  if startIdx ≤ endIdx then some ((items.drop startIdx).take (endIdx - startIdx)) else none

mutual

def recursiveFieldSearch (field : String) : JsonbValue → List JsonbValue
  | .object obj => (JsonbObject.get obj field).toList ++ recursiveFieldSearchEntries field obj
  | .array items => recursiveFieldSearchItems field items
  | _ => []

def recursiveFieldSearchItems (field : String) : List JsonbValue → List JsonbValue
  | [] => []
  | item :: items => recursiveFieldSearch field item ++ recursiveFieldSearchItems field items

def recursiveFieldSearchEntries (field : String) : List (String × JsonbValue) → List JsonbValue
  | [] => []
  | (_, value) :: obj => recursiveFieldSearch field value ++ recursiveFieldSearchEntries field obj

end

def wildcardItems : JsonbValue → List JsonbValue
  | .array items => items
  | .object obj => JsonbObject.values obj
  | _ => []

def evalPath (value : JsonbValue) : JsonPath → Option (List JsonbValue)
  | .root => some [value]
  | .field parent name => do
    let parentResults ← evalPath value parent
    return parentResults.flatMap fun v => (v.asObject.bind (·.get name)).toList
  | .index parent index => do
    let parentResults ← evalPath value parent
    return parentResults.flatMap fun v => (v.asArray.bind (·[index]?)).toList
  | .slice parent start stop => do
    let parentResults ← evalPath value parent
    let slices ← parentResults.mapM fun v =>
      v.asArray.elim (some []) fun items => sliceItems items start stop
    return slices.flatten
  | .wildcard parent => do
    let parentResults ← evalPath value parent
    return parentResults.flatMap wildcardItems
  | .recursiveField parent name => do
    let parentResults ← evalPath value parent
    return parentResults.flatMap (recursiveFieldSearch name)
  | .filter parent predicate => do
    let parentResults ← evalPath value parent
    return parentResults.flatMap fun v =>
      (v.asArray.getD []).filter (evalPredicate · predicate)

/-- `none` is a panic. -/
def JsonbValue.query (value : JsonbValue) (path : JsonPath) : Option (List JsonbValue) :=
  evalPath value path

inductive SimplePathFirst where
  | resolved (value : Option JsonbValue)
  | unsupported

def evalSimplePathFirst (value : JsonbValue) : JsonPath → SimplePathFirst
  | .root => .resolved (some value)
  | .field parent name =>
    match evalSimplePathFirst value parent with
    | .resolved (some parentValue) => .resolved (parentValue.asObject.bind (·.get name))
    | .resolved none => .resolved none
    | .unsupported => .unsupported
  | .index parent index =>
    match evalSimplePathFirst value parent with
    | .resolved (some parentValue) => .resolved (parentValue.asArray.bind (·[index]?))
    | .resolved none => .resolved none
    | .unsupported => .unsupported
  | .slice _ _ _ | .recursiveField _ _ | .wildcard _ | .filter _ _ => .unsupported

section Recursive

-- The evaluation of the steps that follow.
variable (afterSteps : JsonbValue → Option (Option JsonbValue))

mutual

def firstRecursiveFieldAfterSteps (field : String) : JsonbValue → Option (Option JsonbValue)
  | .object obj => do
    let found ←
      match JsonbObject.get obj field with
      | some value => afterSteps value
      | none => some none
    match found with
    | some value => return some value
    | none => firstRecursiveFieldOfEntries field obj
  | .array items => firstRecursiveFieldOfItems field items
  | _ => some none

def firstRecursiveFieldOfItems (field : String) :
    List JsonbValue → Option (Option JsonbValue)
  | [] => some none
  | item :: items => do
    match ← firstRecursiveFieldAfterSteps field item with
    | some value => return some value
    | none => firstRecursiveFieldOfItems field items

def firstRecursiveFieldOfEntries (field : String) :
    List (String × JsonbValue) → Option (Option JsonbValue)
  | [] => some none
  | (_, value) :: obj => do
    match ← firstRecursiveFieldAfterSteps field value with
    | some value => return some value
    | none => firstRecursiveFieldOfEntries field obj

end

end Recursive

def firstAfterSteps : List JsonPathStep → JsonbValue → Option (Option JsonbValue)
  | [], value => some (some value)
  | .field name :: tail, value =>
    match value.asObject.bind (·.get name) with
    | some fieldValue => firstAfterSteps tail fieldValue
    | none => some none
  | .index index :: tail, value =>
    match value.asArray.bind (·[index]?) with
    | some item => firstAfterSteps tail item
    | none => some none
  | .slice start stop :: tail, value =>
    match value.asArray with
    | some items => do
      let slice ← sliceItems items start stop
      slice.findSomeM? (firstAfterSteps tail)
    | none => some none
  | .wildcard :: tail, value => (wildcardItems value).findSomeM? (firstAfterSteps tail)
  | .recursiveField name :: tail, value =>
    firstRecursiveFieldAfterSteps (firstAfterSteps tail) name value
  | .filter predicate :: tail, value =>
    match value.asArray with
    | some items => items.findSomeM? fun item =>
        if evalPredicate item predicate then firstAfterSteps tail item else some none
    | none => some none

/-- `none` is a panic, `some none` that nothing is selected. -/
def JsonbValue.queryFirst (value : JsonbValue) (path : JsonPath) : Option (Option JsonbValue) :=
  match evalSimplePathFirst value path with
  | .resolved value => some value
  | .unsupported => firstAfterSteps (flattenPathSteps path) value

end Eval

section Steps

open Walk

/-- What a step selects of a value. -/
def JsonPathStep.selected : JsonPathStep → JsonbValue → List JsonbValue
  | .field name, value => (value.asObject.bind (·.get name)).toList
  | .index position, value => (value.asArray.bind (·[position]?)).toList
  | .slice start stop, value =>
    let items := value.asArray.getD []
    (items.drop (start.getD 0)).take (stop.getD items.length - start.getD 0)
  | .recursiveField name, value => recursiveFieldSearch name value
  | .wildcard, value => wildcardItems value
  | .filter predicate, value => (value.asArray.getD []).filter (evalPredicate · predicate)

/-- A slice does not end before it starts. -/
def JsonPathStep.Ordered : JsonPathStep → JsonbValue → Prop
  | .slice start stop, value =>
    ∀ items, value = .array items → start.getD 0 ≤ stop.getD items.length
  | _, _ => True

abbrev selectedBy (path : JsonPath) (value : JsonbValue) : List JsonbValue :=
  reached JsonPathStep.selected (flattenPathSteps path) value

abbrev OrderedAlong (steps : List JsonPathStep) (value : JsonbValue) : Prop :=
  Fit JsonPathStep.selected JsonPathStep.Ordered steps value

theorem sliceItems_eq_some {items results : List JsonbValue} {start stop : Option Nat} :
    sliceItems items start stop = some results ↔
      start.getD 0 ≤ stop.getD items.length ∧
        results = (items.drop (start.getD 0)).take (stop.getD items.length - start.getD 0) := by
  unfold sliceItems
  by_cases h : start.getD 0 ≤ stop.getD items.length <;> simp [h, eq_comm]

/-- One slice, as the loop of the evaluation takes it. -/
theorem sliceOf_eq_some (start stop : Option Nat) (value : JsonbValue) (results : List JsonbValue) :
    (value.asArray.elim (some []) fun items => sliceItems items start stop) = some results ↔
      (JsonPathStep.slice start stop).Ordered value ∧
        results = (JsonPathStep.slice start stop).selected value := by
  cases value with
  | array items =>
    simp [JsonbValue.asArray, JsonPathStep.Ordered, JsonPathStep.selected, sliceItems_eq_some]
  | _ => simp [JsonbValue.asArray, JsonPathStep.Ordered, JsonPathStep.selected, eq_comm]

theorem evalPath_eq_some {value : JsonbValue} (path : JsonPath) {results : List JsonbValue} :
    evalPath value path = some results ↔
      OrderedAlong (flattenPathSteps path) value ∧ results = selectedBy path value := by
  induction path generalizing results with
  | root => simp [evalPath, selectedBy, Fit, reached, flattenPathSteps, eq_comm]
  | field parent name ih | index parent position ih | recursiveField parent name ih
  | wildcard parent ih | filter parent predicate ih =>
    simp only [evalPath, selectedBy, flattenPathSteps, fit_concat, reached_concat, Option.bind_eq_bind,
      Option.bind_eq_some_iff, Option.pure_def, Option.some.injEq, ih]
    constructor
    · rintro ⟨parents, ⟨hordered, rfl⟩, rfl⟩
      exact ⟨⟨hordered, fun _ _ => trivial⟩, rfl⟩
    · rintro ⟨⟨hordered, -⟩, rfl⟩
      exact ⟨_, ⟨hordered, rfl⟩, rfl⟩
  | slice parent start stop ih =>
    simp only [evalPath, selectedBy, flattenPathSteps, fit_concat, reached_concat, Option.bind_eq_bind,
      Option.bind_eq_some_iff, Option.pure_def, Option.some.injEq, ih,
      mapM_eq_some (sliceOf_eq_some start stop)]
    constructor
    · rintro ⟨parents, ⟨hordered, rfl⟩, slices, ⟨hslice, rfl⟩, rfl⟩
      exact ⟨⟨hordered, hslice⟩, List.flatMap_def.symm⟩
    · rintro ⟨⟨hordered, hslice⟩, rfl⟩
      exact ⟨_, ⟨hordered, rfl⟩, _, ⟨hslice, rfl⟩, List.flatMap_def.symm⟩

end Steps

section First

open Walk

section Recursive

variable {afterSteps : JsonbValue → Option (Option JsonbValue)}
  {reach : JsonbValue → List JsonbValue} {field : String}

mutual

theorem firstRecursiveField_eq : (value : JsonbValue) →
    (∀ item ∈ recursiveFieldSearch field value, afterSteps item = some (reach item).head?) →
    firstRecursiveFieldAfterSteps afterSteps field value =
      some ((recursiveFieldSearch field value).flatMap reach).head?
  | .object obj, h => by
    rw [recursiveFieldSearch] at h
    simp only [List.mem_append, Option.mem_toList] at h
    have hentries := firstRecursiveFieldOfEntries_eq obj fun item hitem => h item (.inr hitem)
    rw [firstRecursiveFieldAfterSteps, recursiveFieldSearch, List.flatMap_append,
      List.head?_append, hentries]
    cases hget : JsonbObject.get obj field with
    | none => rfl
    | some value =>
      have hvalue := h value (.inl hget)
      dsimp only
      rw [hvalue, Option.toList_some, List.flatMap_singleton]
      cases (reach value).head? <;> rfl
  | .array items, h => by
    rw [recursiveFieldSearch] at h
    rw [firstRecursiveFieldAfterSteps, recursiveFieldSearch]
    exact firstRecursiveFieldOfItems_eq items h
  | .null, _ => rfl
  | .bool _, _ => rfl
  | .number _, _ => rfl
  | .string _, _ => rfl

theorem firstRecursiveFieldOfItems_eq : (items : List JsonbValue) →
    (∀ item ∈ recursiveFieldSearchItems field items,
      afterSteps item = some (reach item).head?) →
    firstRecursiveFieldOfItems afterSteps field items =
      some ((recursiveFieldSearchItems field items).flatMap reach).head?
  | [], _ => rfl
  | value :: items, h => by
    rw [recursiveFieldSearchItems] at h
    have hvalue := firstRecursiveField_eq value fun item hitem =>
      h item (List.mem_append_left _ hitem)
    have hitems := firstRecursiveFieldOfItems_eq items fun item hitem =>
      h item (List.mem_append_right _ hitem)
    rw [firstRecursiveFieldOfItems, recursiveFieldSearchItems, List.flatMap_append,
      List.head?_append, hvalue, hitems]
    cases ((recursiveFieldSearch field value).flatMap reach).head? <;> rfl

theorem firstRecursiveFieldOfEntries_eq : (obj : List (String × JsonbValue)) →
    (∀ item ∈ recursiveFieldSearchEntries field obj,
      afterSteps item = some (reach item).head?) →
    firstRecursiveFieldOfEntries afterSteps field obj =
      some ((recursiveFieldSearchEntries field obj).flatMap reach).head?
  | [], _ => rfl
  | (key, value) :: obj, h => by
    rw [recursiveFieldSearchEntries] at h
    have hvalue := firstRecursiveField_eq value fun item hitem =>
      h item (List.mem_append_left _ hitem)
    have hobj := firstRecursiveFieldOfEntries_eq obj fun item hitem =>
      h item (List.mem_append_right _ hitem)
    rw [firstRecursiveFieldOfEntries, recursiveFieldSearchEntries, List.flatMap_append,
      List.head?_append, hvalue, hobj]
    cases ((recursiveFieldSearch field value).flatMap reach).head? <;> rfl

end

end Recursive

/-- The search finds the first thing that the steps select. -/
theorem firstAfterSteps_eq {steps : List JsonPathStep} {value : JsonbValue}
    (h : OrderedAlong steps value) :
    firstAfterSteps steps value = some (reached JsonPathStep.selected steps value).head? := by
  induction steps generalizing value with
  | nil => rfl
  | cons step tail ih =>
    obtain ⟨hstep, htail⟩ := h
    replace ih := fun item hitem => ih (htail item hitem)
    rw [reached]
    cases step with
    | field name =>
      rw [firstAfterSteps]
      simp only [JsonPathStep.selected, Option.mem_toList] at ih ⊢
      cases hget : value.asObject.bind (·.get name) with
      | none => rfl
      | some fieldValue =>
        rw [Option.toList_some, List.flatMap_singleton]
        exact ih fieldValue hget
    | index position =>
      rw [firstAfterSteps]
      simp only [JsonPathStep.selected, Option.mem_toList] at ih ⊢
      cases hget : value.asArray.bind (·[position]?) with
      | none => rfl
      | some item =>
        rw [Option.toList_some, List.flatMap_singleton]
        exact ih item hget
    | slice start stop =>
      rw [firstAfterSteps]
      cases hvalue : value.asArray with
      | none => simp [JsonPathStep.selected, hvalue]
      | some items =>
        rw [JsonPathStep.selected, hvalue] at ih ⊢
        have hslice := sliceItems_eq_some.mpr
          ⟨hstep items (JsonbValue.asArray_eq_some.mp hvalue), rfl⟩
        simp only [hslice, Option.bind_eq_bind, Option.bind_some]
        exact findSomeM?_head? ih
    | wildcard =>
      rw [firstAfterSteps]
      exact findSomeM?_head? ih
    | recursiveField name =>
      rw [firstAfterSteps]
      exact firstRecursiveField_eq value ih
    | filter predicate =>
      rw [firstAfterSteps]
      cases hvalue : value.asArray with
      | none => simp [JsonPathStep.selected, hvalue]
      | some items =>
        rw [JsonPathStep.selected, hvalue] at ih ⊢
        exact findSomeM?_filter.trans (findSomeM?_head? ih)

/-- A path of fields and indexes selects at most one value, and no slice is taken. -/
theorem evalSimplePathFirst_spec {value : JsonbValue} (path : JsonPath)
    {found : Option JsonbValue} (h : evalSimplePathFirst value path = .resolved found) :
    selectedBy path value = found.toList := by
  induction path generalizing found with
  | root =>
    obtain rfl := SimplePathFirst.resolved.inj h
    rfl
  | field parent name ih =>
    rw [selectedBy, flattenPathSteps, reached_concat]
    rw [evalSimplePathFirst] at h
    cases hparent : evalSimplePathFirst value parent with
    | unsupported => simp [hparent] at h
    | resolved parentValue =>
      rw [hparent] at h
      rw [← selectedBy, ih hparent]
      cases parentValue with
      | none =>
        obtain rfl := SimplePathFirst.resolved.inj h
        rfl
      | some parentValue =>
        obtain rfl := SimplePathFirst.resolved.inj h
        simp [JsonPathStep.selected]
  | index parent position ih =>
    rw [selectedBy, flattenPathSteps, reached_concat]
    rw [evalSimplePathFirst] at h
    cases hparent : evalSimplePathFirst value parent with
    | unsupported => simp [hparent] at h
    | resolved parentValue =>
      rw [hparent] at h
      rw [← selectedBy, ih hparent]
      cases parentValue with
      | none =>
        obtain rfl := SimplePathFirst.resolved.inj h
        rfl
      | some parentValue =>
        obtain rfl := SimplePathFirst.resolved.inj h
        simp [JsonPathStep.selected]
  | slice | recursiveField | wildcard | filter => cases h

theorem queryFirst_eq {value : JsonbValue} {path : JsonPath}
    (h : OrderedAlong (flattenPathSteps path) value) :
    value.queryFirst path = some (selectedBy path value).head? := by
  unfold JsonbValue.queryFirst
  cases hsimple : evalSimplePathFirst value path with
  | resolved found =>
    rw [evalSimplePathFirst_spec path hsimple]
    cases found <;> rfl
  | unsupported => exact firstAfterSteps_eq h

end First

section Selects

open Walk

theorem recursiveFieldSearchItems_eq (field : String) (items : List JsonbValue) :
    recursiveFieldSearchItems field items = items.flatMap (recursiveFieldSearch field) := by
  induction items with
  | nil => rfl
  | cons item items ih => rw [recursiveFieldSearchItems, List.flatMap_cons, ih]

theorem recursiveFieldSearchEntries_eq (field : String) (obj : JsonbObject) :
    recursiveFieldSearchEntries field obj =
      (JsonbObject.values obj).flatMap (recursiveFieldSearch field) := by
  induction obj with
  | nil => rfl
  | cons entry obj ih =>
    rw [recursiveFieldSearchEntries, JsonbObject.values, List.map_cons, List.flatMap_cons, ih]
    rfl

/-- A value holds the field somewhere inside it. -/
def HoldsField (field : String) (value item : JsonbValue) : Prop :=
  ∃ obj, JsonbValue.Within (.object obj) value ∧ JsonbObject.get obj field = some item

section Within

variable {field : String} {item : JsonbValue}

mutual

theorem holdsField_of_mem : (value : JsonbValue) → item ∈ recursiveFieldSearch field value →
    HoldsField field value item
  | .object obj, h => by
    rw [recursiveFieldSearch, List.mem_append, Option.mem_toList] at h
    rcases h with hget | hentries
    · exact ⟨obj, .refl, hget⟩
    · obtain ⟨key, value, hmem, inner, hwithin, hget⟩ := holdsField_of_mem_entries obj hentries
      exact ⟨inner, .entry hmem hwithin, hget⟩
  | .array items, h => by
    rw [recursiveFieldSearch] at h
    obtain ⟨value, hmem, inner, hwithin, hget⟩ := holdsField_of_mem_items items h
    exact ⟨inner, .item hmem hwithin, hget⟩
  | .null, h => absurd h List.not_mem_nil
  | .bool _, h => absurd h List.not_mem_nil
  | .number _, h => absurd h List.not_mem_nil
  | .string _, h => absurd h List.not_mem_nil

theorem holdsField_of_mem_items : (items : List JsonbValue) →
    item ∈ recursiveFieldSearchItems field items → ∃ value ∈ items, HoldsField field value item
  | [], h => absurd h List.not_mem_nil
  | value :: items, h => by
    rw [recursiveFieldSearchItems, List.mem_append] at h
    rcases h with hvalue | hitems
    · exact ⟨value, List.mem_cons_self, holdsField_of_mem value hvalue⟩
    · obtain ⟨other, hmem, hholds⟩ := holdsField_of_mem_items items hitems
      exact ⟨other, List.mem_cons_of_mem _ hmem, hholds⟩

theorem holdsField_of_mem_entries : (obj : List (String × JsonbValue)) →
    item ∈ recursiveFieldSearchEntries field obj →
    ∃ key value, (key, value) ∈ obj ∧ HoldsField field value item
  | [], h => absurd h List.not_mem_nil
  | (key, value) :: obj, h => by
    rw [recursiveFieldSearchEntries, List.mem_append] at h
    rcases h with hvalue | hobj
    · exact ⟨key, value, List.mem_cons_self, holdsField_of_mem value hvalue⟩
    · obtain ⟨other, value, hmem, hholds⟩ := holdsField_of_mem_entries obj hobj
      exact ⟨other, value, List.mem_cons_of_mem _ hmem, hholds⟩

end

theorem mem_recursiveFieldSearch {value : JsonbValue} :
    item ∈ recursiveFieldSearch field value ↔ HoldsField field value item := by
  refine ⟨holdsField_of_mem value, fun ⟨obj, hwithin, hget⟩ => ?_⟩
  induction hwithin with
  | refl =>
    rw [recursiveFieldSearch, List.mem_append, Option.mem_toList]
    exact .inl hget
  | item hmem hinner ih =>
    rw [recursiveFieldSearch, recursiveFieldSearchItems_eq, List.mem_flatMap]
    exact ⟨_, hmem, ih ⟨obj, hinner, hget⟩⟩
  | entry hmem hinner ih =>
    rw [recursiveFieldSearch, recursiveFieldSearchEntries_eq, List.mem_append, List.mem_flatMap]
    exact .inr ⟨_, List.mem_map_of_mem hmem, ih ⟨obj, hinner, hget⟩⟩

end Within

theorem mem_slice {items : List JsonbValue} {start stop : Nat} {item : JsonbValue} :
    item ∈ (items.drop start).take (stop - start) ↔
      ∃ index, start ≤ index ∧ index < stop ∧ items[index]? = some item := by
  simp only [List.mem_iff_getElem?, List.getElem?_take, List.getElem?_drop]
  constructor
  · rintro ⟨i, hi⟩
    split at hi
    · exact ⟨start + i, by omega, by omega, hi⟩
    · cases hi
  · rintro ⟨index, hstart, hstop, hget⟩
    refine ⟨index - start, ?_⟩
    rw [if_pos (by omega), show start + (index - start) = index by omega]
    exact hget

/-- A path selects what its steps reach. -/
theorem mem_selectedBy {value : JsonbValue} {path : JsonPath} {item : JsonbValue} :
    item ∈ selectedBy path value ↔ Selects value path item := by
  induction path generalizing item with
  | root =>
    refine List.mem_singleton.trans ⟨?_, ?_⟩
    · rintro rfl
      exact .root
    · rintro ⟨⟩
      rfl
  | field parent name ih =>
    rw [selectedBy, flattenPathSteps, reached_concat, List.mem_flatMap]
    simp only [ih, JsonPathStep.selected, Option.mem_toList, Option.bind_eq_some_iff,
      JsonbValue.asObject_eq_some]
    constructor
    · rintro ⟨_, hparent, obj, rfl, hget⟩
      exact .field hparent hget
    · rintro ⟨⟩
      exact ⟨_, ‹_›, _, rfl, ‹_›⟩
  | index parent position ih =>
    rw [selectedBy, flattenPathSteps, reached_concat, List.mem_flatMap]
    simp only [ih, JsonPathStep.selected, Option.mem_toList, Option.bind_eq_some_iff,
      JsonbValue.asArray_eq_some]
    constructor
    · rintro ⟨_, hparent, items, rfl, hget⟩
      exact .index hparent hget
    · rintro ⟨⟩
      exact ⟨_, ‹_›, _, rfl, ‹_›⟩
  | slice parent start stop ih =>
    rw [selectedBy, flattenPathSteps, reached_concat, List.mem_flatMap]
    simp only [ih, JsonPathStep.selected, mem_slice]
    constructor
    · rintro ⟨v, hparent, index, hstart, hstop, hget⟩
      cases v with
      | array items => exact .slice hparent hstart hstop hget
      | _ => cases hget
    · rintro ⟨⟩
      exact ⟨_, ‹_›, _, ‹_›, ‹_›, ‹_›⟩
  | recursiveField parent name ih =>
    rw [selectedBy, flattenPathSteps, reached_concat, List.mem_flatMap]
    simp only [ih, JsonPathStep.selected, mem_recursiveFieldSearch]
    constructor
    · rintro ⟨v, hparent, obj, hwithin, hget⟩
      exact .recursiveField hparent hwithin hget
    · rintro ⟨⟩
      exact ⟨_, ‹_›, _, ‹_›, ‹_›⟩
  | wildcard parent ih =>
    rw [selectedBy, flattenPathSteps, reached_concat, List.mem_flatMap]
    simp only [ih, JsonPathStep.selected]
    constructor
    · rintro ⟨v, hparent, hitem⟩
      cases v with
      | array items => exact .wildcardItem hparent hitem
      | object obj => exact .wildcardEntry hparent hitem
      | _ => cases hitem
    · rintro (_ | _)
      · exact ⟨_, ‹_›, ‹_›⟩
      · exact ⟨_, ‹_›, ‹_›⟩
  | filter parent predicate ih =>
    rw [selectedBy, flattenPathSteps, reached_concat, List.mem_flatMap]
    simp only [ih, JsonPathStep.selected, List.mem_filter]
    constructor
    · rintro ⟨v, hparent, hitem, hholds⟩
      cases v with
      | array items => exact .filter hparent hitem hholds
      | _ => cases hitem
    · rintro ⟨⟩
      exact ⟨_, ‹_›, ‹_›, ‹_›⟩

theorem slicesOrdered_iff {value : JsonbValue} {path : JsonPath} :
    SlicesOrdered value path ↔ OrderedAlong (flattenPathSteps path) value := by
  induction path with
  | root => exact Iff.rfl
  | field parent name ih | index parent position ih | recursiveField parent name ih
  | wildcard parent ih | filter parent predicate ih =>
    rw [SlicesOrdered, ih, OrderedAlong, OrderedAlong, flattenPathSteps, fit_concat]
    exact (and_iff_left fun _ _ => trivial).symm
  | slice parent start stop ih =>
    rw [SlicesOrdered, ih, OrderedAlong, OrderedAlong, flattenPathSteps, fit_concat]
    refine and_congr_right fun _ => ⟨fun h item hitem items heq => ?_, fun h items hitems => ?_⟩
    · subst heq
      exact h items (mem_selectedBy.mp hitem)
    · exact h _ (mem_selectedBy.mpr hitems) items rfl

/-- What a query returns is what the path selects. -/
theorem mem_query {value : JsonbValue} {path : JsonPath} {results : List JsonbValue}
    (h : value.query path = some results) {item : JsonbValue} :
    item ∈ results ↔ Selects value path item := by
  obtain ⟨-, rfl⟩ := (evalPath_eq_some path).mp h
  exact mem_selectedBy

end Selects

end Cynos.Jsonb
