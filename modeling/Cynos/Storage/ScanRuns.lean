import Cynos.Storage.IndexScan
import Cynos.Storage.PlainCode

/-! Scans of the stores that calls leave: they yield the stored rows whose keys are in the range, in
the order of the keys, whether a set of row ids restricts them or is followed itself. -/
namespace Cynos.Storage

open Core (Row Scalar Value)
open Index (BTreeIndex KeyRange RowId)
open Visitor (visit window)

section Ranges

variable {κ : Type} [LinearOrder κ]

/-- A range of keys as the values of an index are compared. -/
theorem inRange_map {K : Type} [Ord K] [BEq K] (f : K → κ) (key : K) (range : Option (KeyRange K))
    (h : ∀ r ∈ range, r.Bounded fun bound => compare (f key) (f bound) = compare key bound ∧
      (f key = f bound ↔ (key == bound) = true)) :
    inRange (range.map (·.map f)) (f key) = range.elim true (·.contains key) := by
  cases range with
  | none => rfl
  | some range =>
    refine KeyRange.contains_map f key ((h range rfl).imp fun bound hbound => ?_)
    refine ⟨hbound.1, ?_⟩
    rw [Bool.eq_iff_iff, beq_iff_eq]
    exact hbound.2

end Ranges

section Values

theorem cmpFrom_eq_compareLex {vs ws : List (Value Scalar)} (h : vs.length = ws.length) :
    @IndexKeyComponent.cmpFrom Scalar ⟨Value.cmp⟩ (fun i => (vs[i]?.map .value).getD .stop)
        (fun i => (ws[i]?.map .value).getD .stop) 0 (vs.length + 1) =
      List.compareLex Value.cmp vs ws := by
  induction vs generalizing ws with
  | nil =>
    obtain rfl := List.eq_nil_of_length_eq_zero h.symm
    rfl
  | cons v vs ih =>
    cases ws with
    | nil => cases h
    | cons w ws =>
      have hshift := @IndexKeyComponent.cmpFrom_succ Scalar ⟨Value.cmp⟩
        (fun i => ((v :: vs)[i]?.map .value).getD .stop)
        (fun i => ((w :: ws)[i]?.map .value).getD .stop) 0 (vs.length + 1)
      refine (congrArg (Value.cmp v w).then (hshift.trans (ih (Nat.succ.inj h)))).trans ?_
      rw [List.compareLex_cons_cons]

theorem keyCmp_composite {vs ws : List (Value Scalar)} (h : vs.length = ws.length) :
    keyCmp (.composite vs) (.composite ws) = List.compareLex Value.cmp vs ws := by
  rw [← cmpFrom_eq_compareLex h]
  have hlength : max vs.length ws.length = vs.length := by rw [h, max_self]
  rw [← hlength]
  rfl

theorem fromValues_composite {values : List (Value Scalar)} (h : 1 < values.length) :
    IndexKey.fromValues values = .composite values := by
  match values, h with
  | _ :: _ :: _, _ => rfl

variable {V : Type} [LinearOrder V] {code : ValueCode V}

theorem inRange_scalar {key : Value Scalar} (hkey : code.OkValue key)
    {range : Option (KeyRange (Value Scalar))}
    (hrange : ∀ r ∈ range, r.Bounded code.OkValue) :
    inRange ((IndexKey.fromScalarRange range).map (·.map code.keyOf)) (code.keyOf (.scalar key)) =
      range.elim true (valueInRange key) := by
  have hmap : (IndexKey.fromScalarRange range).map (·.map code.keyOf) =
      range.map (·.map fun value => code.keyOf (.scalar value)) := by
    cases range with
    | none => rfl
    | some range => exact congrArg some (KeyRange.map_map _ _ range)
  rw [hmap]
  refine @inRange_map _ _ _ ⟨Value.cmp⟩ ⟨Value.eq⟩ (fun value => code.keyOf (.scalar value)) key
    range fun r hr => (hrange r hr).imp fun bound hbound => ⟨?_, ?_⟩
  · exact (ValueCode.keyCmp_eq (a := .scalar key) (b := .scalar bound) hkey hbound).symm
  · exact (ValueCode.eq_iff_keyOf (a := .scalar key) (b := .scalar bound) hkey hbound).symm

theorem inRange_composite {key : List (Value Scalar)} (hkey : ∀ value ∈ key, code.OkValue value)
    (hlength : 1 < key.length) {range : Option (KeyRange (List (Value Scalar)))}
    (hrange : ∀ r ∈ range, r.Bounded fun bound => bound.length = key.length ∧
      ∀ value ∈ bound, code.OkValue value) :
    inRange ((IndexKey.fromCompositeRange range).map (·.map code.keyOf))
        (code.keyOf (.composite key)) = range.elim true (valuesInRange key) := by
  have hmap : (IndexKey.fromCompositeRange range).map (·.map code.keyOf) =
      range.map (·.map fun values => code.keyOf (.fromValues values)) := by
    cases range with
    | none => rfl
    | some range => exact congrArg some (KeyRange.map_map _ _ range)
  rw [hmap, ← fromValues_composite hlength]
  refine @inRange_map _ _ _ ⟨List.compareLex Value.cmp⟩ ⟨fun a b => a.isEqv b Value.eq⟩
    (fun values => code.keyOf (.fromValues values)) key range
    fun r hr => (hrange r hr).imp fun bound hbound => ?_
  dsimp only
  rw [fromValues_composite hlength, fromValues_composite (hbound.1.symm ▸ hlength)]
  refine ⟨?_, ?_⟩
  · rw [← ValueCode.keyCmp_eq (a := .composite key) (b := .composite bound) hkey hbound.2]
    exact keyCmp_composite hbound.1.symm
  · exact (ValueCode.eq_iff_keyOf (a := .composite key) (b := .composite bound) hkey hbound.2).symm

end Values

section Stores

variable {V : Type} [LinearOrder V] {code : ValueCode V}
  {debugValues : List (Value Scalar) → String} {unique : String → Bool} {store : CodedStore V}

theorem Consistent.exists_groups (h : Consistent (code.laws debugValues) unique store)
    {name : String} {cols : List Nat} (hcols : store.indexColumns[name]? = some cols) :
    ∃ index groups, store.secondaryIndices[name]? = some index ∧
      (∀ k r, r ∈ ((SecondaryIndexStore.laws code.keyOf).view index).ids k ↔
        RowKeys code.keyOf store.slots cols k r) ∧
      (SecondaryIndexStore.laws code.keyOf).Inv index ∧
      RowGroups code.keyOf store.slots cols groups ∧
      ∀ (range : Option (KeyRange (IndexKey Scalar))) (reverse : Bool),
        index.dropsUpperKey (range.map (·.map code.keyOf)) reverse = false →
        ∀ (limit : Option Nat) (offset : Nat) {σ : Type} (visitor : σ → Row Scalar → σ × Bool)
          (state : σ), store.visitIndexRows code.keyOf index range limit offset reverse visitor state =
            some (visit visitor state (window limit offset
              (scanned groups (inRange (range.map (·.map code.keyOf))) reverse))) := by
  obtain ⟨index, hindex, hlisting⟩ := h.lists.secondary.get hcols
  obtain ⟨groups, hgroups, hscan⟩ := Storage.exists_groups h.valid
    (fun id row hrow => (h.named id row hrow).1) hlisting
  refine ⟨index, groups, hindex, hlisting.lists, hlisting.inv, hgroups, ?_⟩
  exact fun range reverse hdrop => hscan _ reverse hdrop

/-- Up, or down, in the keys of an index. -/
def KeyOrdered (cols : List Nat) (reverse : Bool) (rows : List (Row Scalar)) : Prop :=
  rows.Pairwise fun a b =>
    keyCmp (extractKey a cols) (extractKey b cols) ≠ if reverse then .lt else .gt

theorem Consistent.keyOrdered (h : Consistent (code.laws debugValues) unique store)
    {cols : List Nat} {groups : List (IndexKey V × List (Row Scalar))}
    (hgroups : RowGroups code.keyOf store.slots cols groups) (test : IndexKey V → Bool)
    (reverse : Bool) : KeyOrdered cols reverse (scanned groups test reverse) := by
  have hok : ∀ row ∈ scanned groups test reverse, RowOk code.OkKey row := by
    intro row hrow
    have hstored := List.mem_of_mem_filter ((hgroups.scanned_perm test reverse).mem_iff.mp hrow)
    obtain ⟨id, hid⟩ := h.valid.mem_rowRefs.mp hstored
    exact (h.named id row hid).2
  refine (hgroups.scanned_sorted test reverse).imp_of_mem fun {a b} ha hb hle => ?_
  rw [ValueCode.keyCmp_eq (hok a ha cols) (hok b hb cols)]
  cases reverse with
  | false => exact mt compare_gt_iff_gt.mp (not_lt.mpr hle)
  | true => exact mt compare_lt_iff_lt.mp (not_lt.mpr hle)

section Leading

variable {name : String} {cols : List Nat} {leading : List (Value Scalar)}

def rowValues (cols : List Nat) (row : Row Scalar) : List (Value Scalar) :=
  cols.map fun i => (row.get i).getD .null

/-- Whether the first values of a key are given ones. -/
def rowStartsWith (cols : List Nat) (leading : List (Value Scalar)) (row : Row Scalar) : Bool :=
  ((rowValues cols row).take leading.length).isEqv leading Value.eq

theorem extractKey_composite (hcols : 1 < cols.length) (row : Row Scalar) :
    extractKey row cols = .composite (rowValues cols row) :=
  fromValues_composite (by rw [List.length_map]; exact hcols)

theorem RowOk.values (hcols : 1 < cols.length) {row : Row Scalar} (h : RowOk code.OkKey row) :
    ∀ value ∈ rowValues cols row, code.OkValue value := by
  have hkey := h cols
  rw [extractKey_composite hcols] at hkey
  exact hkey

def leadingRange (leading : List (Value Scalar)) : Option (KeyRange (IndexKey Scalar)) :=
  some (.bound (.compositePrefixLower leading) (.compositePrefixUpper leading) false false)

/-- The keys between the two forms of some first values are those that start with them. -/
theorem inRange_leading (hcols : 1 < cols.length) {row : Row Scalar} (hrow : RowOk code.OkKey row)
    (hleading : ∀ value ∈ leading, code.OkValue value) :
    inRange ((leadingRange leading).map (·.map code.keyOf)) (code.keyOf (extractKey row cols)) =
      rowStartsWith cols leading row := by
  have hlength : (rowValues cols row).length = cols.length := List.length_map _
  rw [extractKey_composite hcols, Bool.eq_iff_iff, rowStartsWith,
    ValueCode.values_eq_iff (fun v hv => hrow.values hcols v (List.mem_of_mem_take hv)) hleading,
    List.map_take]
  have hbetween := IndexKey.between_iff (leading.map code.value) ((rowValues cols row).map code.value)
  rw [List.prefix_iff_eq_take, List.length_map] at hbetween
  simp only [inRange, leadingRange, Option.map_some, Option.getD_some, KeyRange.map,
    KeyRange.contains, Bool.false_eq_true, if_false, Index.keyGe_eq, Index.keyLe_eq,
    Bool.and_eq_true, decide_eq_true_eq]
  exact hbetween.trans eq_comm

theorem Consistent.scanLeading (h : Consistent (code.laws debugValues) unique store)
    (hcols : store.indexColumns[name]? = some cols) (hpos : leading ≠ [])
    (hlt : leading.length < cols.length) (hleading : ∀ value ∈ leading, code.OkValue value)
    (reverse : Bool) :
    ∃ rows : List (Row Scalar),
      rows.Perm (store.slots.rowRefs.filter (rowStartsWith cols leading)) ∧
      KeyOrdered cols reverse rows ∧
      ∀ (limit : Option Nat) (offset : Nat) {σ : Type} (visitor : σ → Row Scalar → σ × Bool)
        (state : σ), store.visitIndexScanCompositePrefixWithOptions code.keyOf name leading limit
            offset reverse visitor state =
          some (visit visitor state (window limit offset rows)) := by
  obtain ⟨index, groups, hindex, hlists, hinv, hgroups, hscan⟩ := h.exists_groups hcols
  have hlong : 1 < cols.length := by
    have := List.length_pos_of_ne_nil hpos
    omega
  have hdrop : index.dropsUpperKey ((leadingRange leading).map (·.map code.keyOf)) reverse =
      false := by
    have hnone : ((SecondaryIndexStore.laws code.keyOf).view index).ids
        (code.keyOf (.compositePrefixUpper leading)) = [] := by
      rw [List.eq_nil_iff_forall_not_mem]
      intro id hid
      obtain ⟨row, -, hkey⟩ := (hlists _ id).mp hid
      rw [extractKey_composite hlong] at hkey
      cases hkey
    cases index with
    | hash index => rfl
    | bTree t =>
      have hcontains := IsTree.contains_eq hinv (code.keyOf (.compositePrefixUpper leading))
      rw [show (treeView t).ids _ = [] from hnone] at hcontains
      simp [SecondaryIndexStore.dropsUpperKey, BTreeIndex.dropsUpperKey, leadingRange, KeyRange.map,
        KeyRange.upperKey?, hcontains]
  refine ⟨scanned groups (inRange ((leadingRange leading).map (·.map code.keyOf))) reverse,
    (hgroups.scanned_perm _ reverse).trans (List.Perm.of_eq (List.filter_congr ?_)),
    h.keyOrdered hgroups _ reverse, fun limit offset {σ} visitor state => ?_⟩
  · intro row hrow
    obtain ⟨id, hid⟩ := h.valid.mem_rowRefs.mp hrow
    exact inRange_leading hlong (h.named id row hid).2 hleading
  · have hempty : leading.isEmpty = false := List.isEmpty_eq_false_iff.mpr hpos
    rw [RowStore.visitIndexScanCompositePrefixWithOptions, hempty, if_neg Bool.false_ne_true,
      hindex, hcols]
    dsimp only
    rw [if_neg (by omega)]
    exact hscan (leadingRange leading) reverse hdrop limit offset visitor state

end Leading

section Bounds

/-- The bounds of a scan over one column, or over several. -/
inductive Bounds where
  | scalar (range : Option (KeyRange (Value Scalar)))
  | composite (range : Option (KeyRange (List (Value Scalar))))

namespace Bounds

variable {κ : Type} [LinearOrder κ] (keyOf : IndexKey Scalar → κ) {σ : Type}

def scan (store : KeyedStore κ) (name : String) (limit : Option Nat) (offset : Nat)
    (reverse : Bool) (visitor : σ → Row Scalar → σ × Bool) (state : σ) : Bounds → Option σ
  | .scalar range =>
    store.visitIndexScanWithOptions keyOf name range limit offset reverse visitor state
  | .composite range =>
    store.visitIndexScanCompositeWithOptions keyOf name range limit offset reverse visitor state

def restrictedScan (store : KeyedStore κ) (name : String) (limit : Option Nat) (offset : Nat)
    (reverse : Bool) (allowedRowIds : List RowId) (subsetDriven : Bool)
    (visitor : σ → Row Scalar → σ × Bool) (state : σ) : Bounds → Option σ
  | .scalar range => store.visitIndexScanWithOptionsRestricted keyOf name range limit offset reverse
      allowedRowIds subsetDriven visitor state
  | .composite range => store.visitIndexScanCompositeWithOptionsRestricted keyOf name range limit
      offset reverse allowedRowIds subsetDriven visitor state

def rowMatches (store : KeyedStore κ) (name : String) : Bounds → Row Scalar → Bool
  | .scalar range => store.rowMatchesIndexRange name range
  | .composite range => store.rowMatchesIndexCompositeRange name range

def keys : Bounds → Option (KeyRange (IndexKey Scalar))
  | .scalar range => IndexKey.fromScalarRange range
  | .composite range => IndexKey.fromCompositeRange range

/-- The bounds have as many values as the index has columns, of the kind that its keys have. -/
def Fit (code : ValueCode V) (cols : List Nat) : Bounds → Prop
  | .scalar range => cols.length = 1 ∧ ∀ r ∈ range, r.Bounded code.OkValue
  | .composite range => 1 < cols.length ∧ ∀ r ∈ range, r.Bounded fun bound =>
      bound.length = cols.length ∧ ∀ value ∈ bound, code.OkValue value

variable {name : String} {cols : List Nat} {bounds : Bounds}

theorem hasExpectedArity {range : KeyRange (List (Value Scalar))} {n : Nat}
    (h : range.Bounded fun bound => bound.length = n) :
    compositeRangeHasExpectedArity n range = true := by
  cases range with
  | all => rfl
  | bound lower upper _ _ =>
    exact Bool.and_eq_true_iff.mpr ⟨beq_iff_eq.mpr h.1, beq_iff_eq.mpr h.2⟩
  | _ => exact beq_iff_eq.mpr h

/-- The rows of an index match the bounds where their keys are in the range. -/
theorem inRange_eq (h : bounds.Fit code cols) (hcols : store.indexColumns[name]? = some cols)
    {row : Row Scalar} (hrow : RowOk code.OkKey row) :
    inRange (bounds.keys.map (·.map code.keyOf)) (code.keyOf (extractKey row cols)) =
      bounds.rowMatches store name row := by
  cases bounds with
  | scalar range =>
    obtain ⟨column, rfl⟩ := List.length_eq_one_iff.mp h.1
    have hkey : code.OkValue ((row.get column).getD .null) := hrow [column]
    rw [rowMatches, RowStore.rowMatchesIndexRange, hcols]
    exact inRange_scalar hkey h.2
  | composite range =>
    have hlength : (rowValues cols row).length = cols.length := List.length_map _
    rw [rowMatches, RowStore.rowMatchesIndexCompositeRange, hcols, extractKey_composite h.1]
    dsimp only
    rw [if_neg (by have := h.1; omega)]
    refine inRange_composite (hrow.values h.1) (hlength.symm ▸ h.1) fun r hr => ?_
    rw [hlength]
    exact h.2 r hr

theorem scan_eq (h : bounds.Fit code cols) (hcols : store.indexColumns[name]? = some cols)
    {index : SecondaryIndexStore (IndexKey V)} (hindex : store.secondaryIndices[name]? = some index)
    (limit : Option Nat) (offset : Nat) (reverse : Bool) (visitor : σ → Row Scalar → σ × Bool)
    (state : σ) : bounds.scan code.keyOf store name limit offset reverse visitor state =
      store.visitIndexRows code.keyOf index bounds.keys limit offset reverse visitor state := by
  cases bounds with
  | scalar range =>
    rw [scan, RowStore.visitIndexScanWithOptions, hindex, hcols]
    exact if_pos h.1
  | composite range =>
    rw [scan, RowStore.visitIndexScanCompositeWithOptions, hindex, hcols]
    dsimp only
    rw [if_neg (by have := h.1; omega), if_neg]
    · rfl
    · cases range with
      | none => exact Bool.false_ne_true
      | some range =>
        have harity := hasExpectedArity ((h.2 range rfl).imp fun _ hbound => hbound.1)
        simp [harity]

/-- A restricted scan that runs over the index takes the allowed rows from it. -/
theorem restricted_scan {store : KeyedStore κ} {rows : List (Row Scalar)} {reverse : Bool}
    (hscan : ∀ {τ : Type} (visitor : τ → Row Scalar → τ × Bool) (state : τ),
      bounds.scan keyOf store name none 0 reverse visitor state = some (visit visitor state rows))
    (limit : Option Nat) (offset : Nat) (allowedRowIds : List RowId)
    (visitor : σ → Row Scalar → σ × Bool) (state : σ) :
    bounds.restrictedScan keyOf store name limit offset reverse allowedRowIds false visitor state =
      some (visit visitor state
        (window limit offset (rows.filter fun row => decide (row.id ∈ allowedRowIds)))) := by
  have hpick : rows.filterMap (fun row => if row.id ∈ allowedRowIds then some row else none) =
      rows.filter fun row => decide (row.id ∈ allowedRowIds) := by
    rw [← List.filterMap_eq_filter]
    refine List.filterMap_congr fun row _ => ?_
    simp [Option.guard]
  cases bounds <;>
  · change (Option.map Visitor.Window.state _) = _
    rw [← Visitor.visit_windowed, ← hpick, ← Visitor.visit_picking]
    exact congrArg _ (hscan _ _)

/-- One that follows the allowed row ids takes the rows that match. -/
theorem restricted_driven (store : KeyedStore κ) (limit : Option Nat) (offset : Nat)
    (reverse : Bool) (allowedRowIds : List RowId) (visitor : σ → Row Scalar → σ × Bool)
    (state : σ) :
    bounds.restrictedScan keyOf store name limit offset reverse allowedRowIds true visitor state =
      some (visit visitor state (window limit offset
        ((if reverse then allowedRowIds.reverse else allowedRowIds).filterMap fun id =>
          (store.slots.rowRefById id).filter (bounds.rowMatches store name)))) := by
  rw [← Visitor.visit_windowed, ← Visitor.visit_picking]
  cases bounds <;> rfl

end Bounds

variable {name : String} {cols : List Nat} {bounds : Bounds}

/-- The rows that a set of row ids allows are the same whether they are taken from the index or
looked up one by one; only their order differs. -/
theorem Consistent.scanRestricted (h : Consistent (code.laws debugValues) unique store)
    (hcols : store.indexColumns[name]? = some cols) (hfit : bounds.Fit code cols) (reverse : Bool)
    (hdrop : ∀ index, store.secondaryIndices[name]? = some index →
      index.dropsUpperKey (bounds.keys.map (·.map code.keyOf)) reverse = false)
    {allowedRowIds : List RowId} (hallowed : allowedRowIds.Pairwise (· < ·)) :
    ∃ rows driven : List (Row Scalar),
      rows.Perm (store.slots.rowRefs.filter (bounds.rowMatches store name)) ∧
      KeyOrdered cols reverse rows ∧
      driven.Perm (rows.filter fun row => decide (row.id ∈ allowedRowIds)) ∧
      (driven.Pairwise fun a b => if reverse then b.id < a.id else a.id < b.id) ∧
      ∀ (limit : Option Nat) (offset : Nat) {σ : Type} (visitor : σ → Row Scalar → σ × Bool)
        (state : σ),
        bounds.scan code.keyOf store name limit offset reverse visitor state =
            some (visit visitor state (window limit offset rows)) ∧
        bounds.restrictedScan code.keyOf store name limit offset reverse allowedRowIds false visitor
            state = some (visit visitor state
              (window limit offset (rows.filter fun row => decide (row.id ∈ allowedRowIds)))) ∧
        bounds.restrictedScan code.keyOf store name limit offset reverse allowedRowIds true visitor
            state = some (visit visitor state (window limit offset driven)) := by
  obtain ⟨index, groups, hindex, -, -, hgroups, hscan⟩ := h.exists_groups hcols
  have hrows : (scanned groups (inRange (bounds.keys.map (·.map code.keyOf))) reverse).Perm
      (store.slots.rowRefs.filter (bounds.rowMatches store name)) := by
    refine (hgroups.scanned_perm _ reverse).trans (List.Perm.of_eq (List.filter_congr ?_))
    intro row hrow
    obtain ⟨id, hid⟩ := h.valid.mem_rowRefs.mp hrow
    exact Bounds.inRange_eq hfit hcols (h.named id row hid).2
  have hfull : ∀ (limit : Option Nat) (offset : Nat) {σ : Type}
      (visitor : σ → Row Scalar → σ × Bool) (state : σ),
      bounds.scan code.keyOf store name limit offset reverse visitor state =
        some (visit visitor state (window limit offset
          (scanned groups (inRange (bounds.keys.map (·.map code.keyOf))) reverse))) := by
    intro limit offset σ visitor state
    rw [Bounds.scan_eq hfit hcols hindex]
    exact hscan bounds.keys reverse (hdrop index hindex) limit offset visitor state
  have hnamed : ∀ id row, store.slots.rowRefById id = some row → row.id = id :=
    fun id row hrow => (h.named id row hrow).1
  let pick := fun id => (store.slots.rowRefById id).filter (bounds.rowMatches store name)
  have hpick : ∀ {id row}, pick id = some row →
      row.id = id ∧ store.slots.rowRefById id = some row ∧
        bounds.rowMatches store name row = true := by
    intro id row hrow
    obtain ⟨hfound, hmatches⟩ := Option.filter_eq_some_iff.mp hrow
    exact ⟨hnamed id row hfound, hfound, hmatches⟩
  have hdriven : ((if reverse then allowedRowIds.reverse else allowedRowIds).filterMap
      pick).Pairwise fun a b => if reverse then b.id < a.id else a.id < b.id := by
    have hdirected : (if reverse then allowedRowIds.reverse else allowedRowIds).Pairwise
        fun a b => if reverse then b < a else a < b := by
      cases reverse with
      | false => exact hallowed
      | true => exact List.pairwise_reverse.mpr hallowed
    refine List.Pairwise.filterMap _ (fun a b hab row hrow row' hrow' => ?_) hdirected
    rw [(hpick hrow).1, (hpick hrow').1]
    exact hab
  refine ⟨_, _, hrows, h.keyOrdered hgroups _ reverse, ?_, hdriven, fun limit offset {σ} visitor
    state => ⟨hfull limit offset visitor state, ?_, Bounds.restricted_driven _ _ _ _ _ _ _ _⟩⟩
  · have hdistinct := hrows.nodup_iff.mpr ((h.valid.rowRefs_sorted hnamed).nodup.filter _)
    refine (List.perm_ext_iff_of_nodup ?_ (hdistinct.filter _)).mpr fun row => ?_
    · refine hdriven.imp fun {a b} hab heq => ?_
      subst heq
      cases reverse <;> exact lt_irrefl _ hab
    · rw [List.mem_filter, hrows.mem_iff, List.mem_filter, h.valid.mem_rowRefs, List.mem_filterMap,
        decide_eq_true_eq]
      constructor
      · rintro ⟨id, hid, hrow⟩
        obtain ⟨hname, hfound, hmatches⟩ := hpick hrow
        refine ⟨⟨⟨id, hfound⟩, hmatches⟩, ?_⟩
        rw [hname]
        cases reverse with
        | false => exact hid
        | true => exact List.mem_reverse.mp hid
      · rintro ⟨⟨⟨id, hfound⟩, hmatches⟩, hmem⟩
        rw [hnamed id row hfound] at hmem
        refine ⟨id, ?_, Option.filter_eq_some_iff.mpr ⟨hfound, hmatches⟩⟩
        cases reverse with
        | false => exact hmem
        | true => exact List.mem_reverse.mpr hmem
  · exact Bounds.restricted_scan _ (hfull none 0) limit offset allowedRowIds visitor state

end Bounds

end Stores

section Runs

variable {V : Type} [LinearOrder V] (code : ValueCode V)
  (debugValues : List (Value Scalar) → String) (formats : JsonbFormats) {schema : TableSchema}
  (hpk : ∀ names, schema.primaryKey = some names → schema.columnIndices names ≠ [])
  (firstRowId : RowStore.FirstRowId (BTreeIndex (IndexKey V)))
  {operations : List RowStoreOperation} {store : CodedStore V}
  (h : Run.Along
    (RowStore.operate ((codedKeys code.keyOf debugValues).withGin formats) firstRowId)
    (KeepsIndexes (code.laws debugValues)) (.new (codedKeys code.keyOf debugValues) schema)
    operations)
  (hrun : Run.run (RowStore.operate ((codedKeys code.keyOf debugValues).withGin formats) firstRowId)
    (.new (codedKeys code.keyOf debugValues) schema) operations = some store)
  {name : String} {cols : List Nat}
  (hcols : (RowStore.new (codedKeys code.keyOf debugValues) schema).indexColumns[name]? = some cols)

include hpk h hrun hcols

theorem reached_consistent :
    Consistent (code.laws debugValues) schema.uniqueIndex store ∧
      store.indexColumns[name]? = some cols := by
  obtain ⟨left, hleft, hconsistent, hkeys⟩ := run_keepsConsistent formats (code.laws debugValues)
    schema hpk firstRowId h
  obtain rfl : left = store := Option.some.inj (hleft.symm.trans hrun)
  exact ⟨hconsistent, hkeys.indexColumns ▸ hcols⟩

end Runs

section Sample

/-- A member of a team with a name. -/
def namedMember (id : RowId) (team : String) (number : Int64) : Row Scalar :=
  member id (some (.string team)) number

def firstNamed : RowStore.FirstRowId (BTreeIndex (IndexKey (PlainScalar true))) :=
  fun index key => (getIndexKey index ((plainCode true).keyOf key)).head?

theorem namedMember_ok (id : RowId) (team : String) (number : Int64) :
    RowOk (plainCode true).OkKey (namedMember id team number) := by
  refine ValueCode.rowOk fun value hvalue => ?_
  rcases List.mem_cons.mp hvalue with rfl | hvalue
  · rfl
  rcases List.mem_cons.mp hvalue with rfl | hvalue
  · rfl
  · exact List.mem_singleton.mp hvalue ▸ rfl

def teams : List RowStoreOperation :=
  [.bulkLoad [namedMember 1 "red" 10, namedMember 2 "blue" 11], .insert (namedMember 3 "red" 9),
    .update 2 (namedMember 2 "red" 12), .delete 1]

theorem teams_run : Run.Along
    (RowStore.operate ((codedKeys (plainCode true).keyOf fun _ => "").withGin sampleFormats)
      firstNamed) (KeepsIndexes ((plainCode true).laws fun _ => ""))
    (.new (codedKeys (plainCode true).keyOf fun _ => "") members) teams := by
  refine Run.along_of_forall fun store operation hmem => ?_
  simp only [teams, List.mem_cons, List.not_mem_nil, or_false] at hmem
  rcases hmem with rfl | rfl | rfl | rfl
  · intro row hrow
    simp only [List.mem_cons, List.not_mem_nil, or_false] at hrow
    rcases hrow with rfl | rfl
    · exact namedMember_ok 1 "red" 10
    · exact namedMember_ok 2 "blue" 11
  · exact namedMember_ok 3 "red" 9
  · exact ⟨namedMember_ok 2 "red" 12, rfl⟩
  · trivial

theorem members_key : ∀ names, members.primaryKey = some names →
    members.columnIndices names ≠ [] := by
  intro names hnames
  obtain rfl := Option.some.inj hnames
  decide

theorem members_index : (RowStore.new (codedKeys (plainCode true).keyOf fun _ => "")
    members).indexColumns["team"]? = some [1, 2] := by
  have hcolumns : members.columnIndices ["team", "number"] = [1, 2] := by decide
  simp [RowStore.new, RowStore.addIndex, members, ← hcolumns]

end Sample

end Cynos.Storage
