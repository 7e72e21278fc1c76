import Cynos.Query.Streaming

/-! Operators on bags of rows. Rows are told apart by their values only: the id and the
version of a row decide nothing that an operator does. -/
namespace Cynos.Query

open Core Join
open Index (RowId)

/-- The same rows, in any order. -/
abbrev SameRows (rows rows' : List Entry) : Prop := SameBag Row.values rows rows'

section Rows

variable {a b : Entry}

theorem getField_congr (h : a.values = b.values) (index : Nat) :
    Entry.getField a index = Entry.getField b index := by
  rw [Entry.getField, Entry.getField, Row.get, Row.get, h]

theorem getField_congr' (h : a.values = b.values) : Entry.getField a = Entry.getField b :=
  funext (getField_congr h)

theorem segmentValues_congr {left left' right right' : Option Entry}
    (hleft : left.map Row.values = left'.map Row.values)
    (hright : right.map Row.values = right'.map Row.values) (segment : JoinOutputSegment) :
    segmentValues left right segment = segmentValues left' right' segment := by
  rcases segment with ⟨side, offset, width⟩
  have hside : ∀ {side side' other other' : Option Entry},
      side.map Row.values = side'.map Row.values →
        segmentValues side other ⟨.left, offset, width⟩ =
          segmentValues side' other' ⟨.left, offset, width⟩ := by
    intro side side' other other' h
    unfold segmentValues
    cases side with
    | none =>
      cases side' with
      | none => rfl
      | some entry => cases h
    | some entry =>
      cases side' with
      | none => cases h
      | some entry' =>
        have hvalues : entry.values = entry'.values := Option.some.inj h
        simp only [Row.get, hvalues]
  cases side with
  | left => exact hside hleft
  | right => exact @hside _ _ none none hright

/-- The values of a joined row are those of its sides. -/
theorem materializeRow_values_congr (layout : JoinOutputLayout)
    {left left' right right' : Option Entry} (hleft : left.map Row.values = left'.map Row.values)
    (hright : right.map Row.values = right'.map Row.values) :
    (layout.materializeRow left right).values = (layout.materializeRow left' right').values := by
  rw [JoinOutputLayout.materializeRow, JoinOutputLayout.materializeRow,
    Row.newWithVersion_values, Row.newWithVersion_values]
  congr 1
  exact funext (segmentValues_congr hleft hright)

end Rows

section HashJoin

variable (layout : JoinOutputLayout) (keys : EquiJoinKeys) (joinType : JoinType)

/-- The rows of a left and of a right entry that a hash join puts together. -/
def hashKeysMatch (left right : Entry) : Bool :=
  keysMatch (Entry.getField left keys.leftKeyIdx) (Entry.getField right keys.rightKeyIdx)

theorem sqlKeyEq_comm (a b : Scalar) : sqlKeyEq a b = sqlKeyEq b a := by
  unfold sqlKeyEq
  cases a <;> cases b <;> first
    | exact Scalar.sqlEq_comm _ _
    | exact congrArg₂ and Bool.beq_comm (Scalar.sqlEq_comm _ _)

theorem keysMatch_comm (a b : Option (Value Scalar)) : keysMatch a b = keysMatch b a := by
  rcases a with _ | _ | a <;> rcases b with _ | _ | b <;> first | rfl | exact sqlKeyEq_comm a b

/-- Whichever side is built, a hash join is a loop over both. -/
theorem emitHashJoinEntries_perm (left right : Relation) (buildSide : HashJoinBuildSide) :
    (emitHashJoinEntries left right keys joinType layout buildSide).Perm
      (loopJoin (hashKeysMatch keys) layout.materializeRow (emitUnmatchedLeft joinType)
        (trackRightMatches joinType) left.entries right.entries) := by
  cases buildSide with
  | left =>
    have hswap := loopJoin_swap (hashKeysMatch keys) layout.materializeRow
      (emitUnmatchedLeft joinType) (trackRightMatches joinType) left.entries right.entries
    refine List.Perm.trans (.of_eq ?_) hswap
    cases joinType <;> rfl
  | right =>
    refine .of_eq ?_
    have hcomm : ∀ b p : Entry, keysMatch (Entry.getField b keys.rightKeyIdx)
        (Entry.getField p keys.leftKeyIdx) = hashKeysMatch keys p b := fun b p =>
      keysMatch_comm _ _
    unfold emitHashJoinEntries hashJoinProbe hashJoinUnmatchedBuild
    dsimp only
    simp only [hcomm]
    cases joinType <;> rfl

theorem hashKeysMatch_congr {a a' b b' : Entry} (ha : a.values = a'.values)
    (hb : b.values = b'.values) : hashKeysMatch keys a b = hashKeysMatch keys a' b' := by
  rw [hashKeysMatch, hashKeysMatch, getField_congr ha, getField_congr hb]

end HashJoin

section Distinct

theorem Value.cmp_self (value : Value Scalar) : Value.cmp value value = .eq := by
  have hswap := Value.cmp_swap value value
  cases h : Value.cmp value value <;> rw [h] at hswap <;> first | rfl | cases hswap

theorem compareValues_self (values : List (Value Scalar)) : compareValues values values = .eq := by
  induction values with
  | nil => rfl
  | cons value values ih => rw [compareValues, Value.cmp_self, ih]; rfl

/-- Rows that compare as equal have the same values. -/
def DistinctValues (rows : List Entry) : Prop :=
  ∀ a ∈ rows, ∀ b ∈ rows, compareValues a.values b.values = .eq → a.values = b.values

theorem distinctEntries_values {all : List Entry} (hall : DistinctValues all)
    (rows : List Entry) (hrows : ∀ row ∈ rows, row ∈ all) (seen : List (List (Value Scalar)))
    (hseen : ∀ key ∈ seen, ∃ row ∈ all, row.values = key) :
    ((distinctEntries seen rows).map Row.values).Nodup ∧
      ∀ values, values ∈ (distinctEntries seen rows).map Row.values ↔
        values ∈ rows.map Row.values ∧ values ∉ seen := by
  induction rows generalizing seen with
  | nil => simp [distinctEntries]
  | cons row rows ih =>
    have hrow := hrows row List.mem_cons_self
    have hrest : ∀ r ∈ rows, r ∈ all := fun r hr => hrows r (List.mem_cons_of_mem _ hr)
    have hany : (seen.any fun key => compareValues key row.values == .eq) = true ↔
        row.values ∈ seen := by
      rw [List.any_eq_true]
      constructor
      · rintro ⟨key, hkey, heq⟩
        obtain ⟨row', hrow', rfl⟩ := hseen key hkey
        exact hall row' hrow' row hrow (eq_of_beq heq) ▸ hkey
      · intro h
        exact ⟨row.values, h, by rw [compareValues_self]; rfl⟩
    rw [distinctEntries]
    by_cases hfound : row.values ∈ seen
    · rw [if_pos (hany.mpr hfound)]
      obtain ⟨hnodup, hmem⟩ := ih hrest seen hseen
      refine ⟨hnodup, fun values => (hmem values).trans ?_⟩
      rw [List.map_cons, List.mem_cons]
      constructor
      · rintro ⟨h, hnot⟩
        exact ⟨.inr h, hnot⟩
      · rintro ⟨rfl | h, hnot⟩
        · exact absurd hfound hnot
        · exact ⟨h, hnot⟩
    · rw [if_neg fun h => hfound (hany.mp h)]
      obtain ⟨hnodup, hmem⟩ := ih hrest (row.values :: seen) fun key hkey => by
        rcases List.mem_cons.mp hkey with rfl | hkey
        · exact ⟨row, hrow, rfl⟩
        · exact hseen key hkey
      rw [List.map_cons, List.map_cons]
      refine ⟨List.nodup_cons.mpr ⟨?_, hnodup⟩, fun values => ?_⟩
      · rw [hmem]
        exact fun h => h.2 List.mem_cons_self
      · rw [List.mem_cons, hmem, List.mem_cons, List.mem_cons, not_or]
        by_cases heq : values = row.values
        · simp [heq, hfound]
        · simp [heq]

/-- Which of several equal rows is kept does not show in the values. -/
theorem sameRows_distinctEntries {rows rows' : List Entry} (h : SameRows rows rows')
    (hrows : DistinctValues rows) :
    SameRows (distinctEntries [] rows) (distinctEntries [] rows') := by
  have hrows' : DistinctValues rows' := by
    intro a ha b hb
    obtain ⟨a', ha', hav⟩ := h.symm.mem_map ha
    obtain ⟨b', hb', hbv⟩ := h.symm.mem_map hb
    rw [← hav, ← hbv]
    exact hrows a' ha' b' hb'
  obtain ⟨hnodup, hmem⟩ := distinctEntries_values hrows rows (fun _ => id) [] nofun
  obtain ⟨hnodup', hmem'⟩ := distinctEntries_values hrows' rows' (fun _ => id) [] nofun
  refine (List.perm_ext_iff_of_nodup hnodup hnodup').mpr fun values => ?_
  rw [hmem, hmem', List.Perm.mem_iff h]

end Distinct

section SortMerge

theorem pairwise_mergeSort_of_mem {A : Type} {le : A → A → Bool} {as : List A}
    (htrans : ∀ a ∈ as, ∀ b ∈ as, ∀ c ∈ as, le a b = true → le b c = true → le a c = true)
    (htotal : ∀ a b, (le a b || le b a) = true) :
    (as.mergeSort le).Pairwise fun a b => le a b = true := by
  have hmap : (as.attach.mergeSort fun a b => le a.1 b.1).map Subtype.val = as.mergeSort le := by
    rw [List.map_mergeSort (s := le) fun _ _ _ _ => rfl, List.attach_map_subtype_val]
  rw [← hmap, List.pairwise_map]
  exact List.pairwise_mergeSort (fun a b c => htrans a.1 a.2 b.1 b.2 c.1 c.2)
    (fun a b => htotal a.1 b.1) as.attach

variable (layout : JoinOutputLayout) (keys : EquiJoinKeys)

/-- Two keys are there and compare as equal. -/
def fieldsMatch : Option (Value Scalar) → Option (Value Scalar) → Bool
  | some (some a), some (some b) => a.cmp b == .eq
  | _, _ => false

theorem fieldsMatch_left {left : Option (Value Scalar)} (h : ∀ a : Scalar, left ≠ some (some a))
    (right : Option (Value Scalar)) : fieldsMatch left right = false := by
  unfold fieldsMatch
  split
  · exact absurd rfl (h _)
  · rfl

theorem fieldsMatch_right {right : Option (Value Scalar)}
    (h : ∀ b : Scalar, right ≠ some (some b)) (left : Option (Value Scalar)) :
    fieldsMatch left right = false := by
  unfold fieldsMatch
  split
  · exact absurd rfl (h _)
  · rfl

def mergeKeysMatch (left right : Entry) : Bool :=
  fieldsMatch (Entry.getField left keys.leftKeyIdx) (Entry.getField right keys.rightKeyIdx)

theorem mergeKeysMatch_congr {a a' b b' : Entry} (ha : a.values = a'.values)
    (hb : b.values = b'.values) : mergeKeysMatch keys a b = mergeKeysMatch keys a' b' := by
  rw [mergeKeysMatch, mergeKeysMatch, getField_congr ha, getField_congr hb]

/-- The order of values is transitive on some of them. -/
def TransitiveOn (p : Scalar → Prop) : Prop :=
  ∀ a b c, p a → p b → p c → a.cmp b ≠ .gt → b.cmp c ≠ .gt → a.cmp c ≠ .gt

/-- The keys of the entries of a join. -/
def JoinKey (left right : List Entry) (a : Scalar) : Prop :=
  (∃ entry ∈ left, Entry.getField entry keys.leftKeyIdx = some (some a)) ∨
    ∃ entry ∈ right, Entry.getField entry keys.rightKeyIdx = some (some a)

section Transitive

variable {p : Scalar → Prop} (hp : TransitiveOn p) {a b c : Scalar}
include hp

theorem TransitiveOn.lt_of_lt_of_le (ha : p a) (hb : p b) (hc : p c) (hab : a.cmp b = .lt)
    (hbc : b.cmp c ≠ .gt) : a.cmp c = .lt := by
  have hac := hp a b c ha hb hc (by rw [hab]; exact nofun) hbc
  cases h : a.cmp c with
  | lt => rfl
  | gt => exact absurd h hac
  | eq =>
    have hca : c.cmp a ≠ .gt := by rw [Scalar.cmp_swap a c, h]; exact nofun
    refine absurd ?_ (hp b c a hb hc ha hbc hca)
    rw [Scalar.cmp_swap a b, hab]
    rfl

omit hp in
theorem scanRight_cons {keyIdx : Nat} {value key : Value Scalar} {entry : Entry}
    (hkey : Entry.getField entry keyIdx = some key) (hnull : key.isNull = false)
    (right : List Entry) :
    scanRight keyIdx value (entry :: right) =
      match Value.cmp value key with
      | .eq => entry :: scanRight keyIdx value right
      | .lt => []
      | .gt => scanRight keyIdx value right := by
  rw [scanRight.eq_def]
  dsimp only
  rw [hkey]
  cases key with
  | none => cases hnull
  | some key => rfl

omit hp in
theorem scanRight_skip {keyIdx : Nat} {value : Value Scalar} {entry : Entry}
    (hkey : ∀ b : Scalar, Entry.getField entry keyIdx ≠ some (some b)) (right : List Entry) :
    scanRight keyIdx value (entry :: right) = scanRight keyIdx value right := by
  rw [scanRight.eq_def]
  dsimp only
  split
  · rename_i b heq
    exact absurd heq (hkey b)
  · rfl

/-- The loop over the right side finds what the whole of it has. -/
theorem TransitiveOn.scanRight_eq {keyIdx : Nat} {right : List Entry} {value : Value Scalar}
    (hvalue : value = some a) (ha : p a)
    (hright : ∀ entry ∈ right, ∀ b, Entry.getField entry keyIdx = some (some b) → p b)
    (hsorted : right.Pairwise fun l r =>
      compareFields (Entry.getField l keyIdx) (Entry.getField r keyIdx) ≠ .gt) :
    scanRight keyIdx value right =
      right.filter fun entry => fieldsMatch (some value) (Entry.getField entry keyIdx) := by
  induction right with
  | nil => rfl
  | cons entry right ih =>
    have hrest := ih (fun e he => hright e (List.mem_cons_of_mem _ he)) hsorted.of_cons
    have hlater := (List.pairwise_cons.mp hsorted).1
    rw [List.filter_cons]
    by_cases hkey : ∃ b : Scalar, Entry.getField entry keyIdx = some (some b)
    · obtain ⟨b, hkey⟩ := hkey
      have hb := hright entry List.mem_cons_self b hkey
      have hmatch : fieldsMatch (some value) (Entry.getField entry keyIdx) =
          (a.cmp b == .eq) := by
        rw [hkey, hvalue]
        rfl
      refine (scanRight_cons hkey rfl right).trans ?_
      rw [hmatch, show Value.cmp value (some b) = a.cmp b by rw [hvalue]; rfl]
      cases hcmp : a.cmp b with
      | eq => exact congrArg (entry :: ·) hrest
      | gt => exact hrest
      | lt =>
        -- the keys behind one above `a` are above it too
        refine (List.filter_eq_nil_iff.mpr fun later hmem => ?_).symm
        rw [Bool.not_eq_true]
        by_cases hlkey : ∃ c : Scalar, Entry.getField later keyIdx = some (some c)
        · obtain ⟨c, hlkey⟩ := hlkey
          have hbc : b.cmp c ≠ .gt := by
            have hle := hlater later hmem
            rw [hkey, hlkey] at hle
            exact hle
          have hc := hright later (List.mem_cons_of_mem _ hmem) c hlkey
          have hac := hp.lt_of_lt_of_le ha hb hc hcmp hbc
          rw [hlkey, hvalue]
          change (a.cmp c == .eq) = false
          rw [hac]
          rfl
        · exact fieldsMatch_right (fun c h => hlkey ⟨c, h⟩) _
    · have hkey' : ∀ b : Scalar, Entry.getField entry keyIdx ≠ some (some b) :=
        fun b h => hkey ⟨b, h⟩
      rw [scanRight_skip hkey', fieldsMatch_right hkey', if_neg Bool.false_ne_true]
      exact hrest

/-- The entries that are passed over match no key from `a` on. -/
theorem TransitiveOn.filter_advanceRight {keyIdx : Nat} {right : List Entry}
    {value value' : Value Scalar} {a' : Scalar} (hvalue : value = some a)
    (hvalue' : value' = some a') (ha : p a) (ha' : p a') (hle : a.cmp a' ≠ .gt)
    (hright : ∀ entry ∈ right, ∀ b, Entry.getField entry keyIdx = some (some b) → p b) :
    ((advanceRight keyIdx value right).filter fun entry =>
        fieldsMatch (some value') (Entry.getField entry keyIdx)) =
      right.filter fun entry => fieldsMatch (some value') (Entry.getField entry keyIdx) := by
  obtain ⟨below, hadvance, hbelow⟩ := advanceRight_eq keyIdx value right
  rw [hadvance]
  conv => rhs; rw [← List.takeWhile_append_dropWhile (p := below) (l := right)]
  rw [List.filter_append]
  refine (List.append_left_eq_self.mpr (List.filter_eq_nil_iff.mpr fun entry hmem => ?_)).symm
  have hpassed := List.mem_takeWhile_imp hmem
  rw [Bool.not_eq_true]
  by_cases hkey : ∃ b : Scalar, Entry.getField entry keyIdx = some (some b)
  · obtain ⟨b, hkey⟩ := hkey
    have hb := hright entry (List.takeWhile_subset _ hmem) b hkey
    have hlt : b.cmp a = .lt := by
      rw [hbelow hkey, hvalue] at hpassed
      exact eq_of_beq hpassed
    have hlt' := hp.lt_of_lt_of_le hb ha ha' hlt hle
    rw [hkey, hvalue']
    change (a'.cmp b == .eq) = false
    rw [Scalar.cmp_swap b a', hlt']
    rfl
  · exact fieldsMatch_right (fun c h => hkey ⟨c, h⟩) _

omit hp in
theorem pairwise_advanceRight {r : Entry → Entry → Prop} {keyIdx : Nat} {value : Value Scalar}
    {right : List Entry} (h : right.Pairwise r) : (advanceRight keyIdx value right).Pairwise r :=
  h.sublist (List.dropWhile_sublist _)

omit hp in
theorem mergeEntries_cons {keys : EquiJoinKeys} {value : Value Scalar} {entry : Entry}
    (hkey : Entry.getField entry keys.leftKeyIdx = some value) (hnull : value.isNull = false)
    (isOuter : Bool) (left right : List Entry) :
    mergeEntries layout keys isOuter (entry :: left) right =
      (if (scanRight keys.rightKeyIdx value (advanceRight keys.rightKeyIdx value right)).isEmpty
        then if isOuter then [layout.materializeRow (some entry) none] else []
        else (scanRight keys.rightKeyIdx value (advanceRight keys.rightKeyIdx value right)).map
          fun r => layout.materializeRow (some entry) (some r)) ++
        mergeEntries layout keys isOuter left (advanceRight keys.rightKeyIdx value right) := by
  rw [mergeEntries.eq_def]
  dsimp only
  rw [hkey]
  cases value with
  | none => cases hnull
  | some value => rfl

omit hp in
theorem mergeEntries_skip {keys : EquiJoinKeys} {entry : Entry}
    (hkey : ∀ a : Scalar, Entry.getField entry keys.leftKeyIdx ≠ some (some a)) (isOuter : Bool)
    (left right : List Entry) :
    mergeEntries layout keys isOuter (entry :: left) right =
      (if isOuter then [layout.materializeRow (some entry) none] else []) ++
        mergeEntries layout keys isOuter left right := by
  rw [mergeEntries.eq_def]
  dsimp only
  split
  · rename_i a heq
    exact absurd heq (hkey a)
  · rfl

/-- A merge of two sorted sides is a loop over both. -/
theorem TransitiveOn.mergeEntries_eq {keys : EquiJoinKeys} (isOuter : Bool)
    {left right : List Entry}
    (hleft : ∀ entry ∈ left, ∀ b, Entry.getField entry keys.leftKeyIdx = some (some b) → p b)
    (hright : ∀ entry ∈ right, ∀ b, Entry.getField entry keys.rightKeyIdx = some (some b) → p b)
    (hleftSorted : left.Pairwise fun l r => compareFields (Entry.getField l keys.leftKeyIdx)
      (Entry.getField r keys.leftKeyIdx) ≠ .gt)
    (hrightSorted : right.Pairwise fun l r => compareFields (Entry.getField l keys.rightKeyIdx)
      (Entry.getField r keys.rightKeyIdx) ≠ .gt) :
    mergeEntries layout keys isOuter left right =
      left.flatMap (probe (mergeKeysMatch keys) layout.materializeRow isOuter right) := by
  induction left generalizing right with
  | nil => rfl
  | cons entry left ih =>
    have hlater := (List.pairwise_cons.mp hleftSorted).1
    have hleft' := fun e he => hleft e (List.mem_cons_of_mem _ he)
    rw [List.flatMap_cons]
    by_cases hkey : ∃ a : Scalar, Entry.getField entry keys.leftKeyIdx = some (some a)
    · obtain ⟨a, hkey⟩ := hkey
      have ha := hleft entry List.mem_cons_self a hkey
      obtain ⟨value, hvalue⟩ : ∃ value : Value Scalar, value = some a := ⟨_, rfl⟩
      have hkey' : Entry.getField entry keys.leftKeyIdx = some value := hvalue ▸ hkey
      have hadvance : ∀ e ∈ advanceRight keys.rightKeyIdx value right, ∀ b,
          Entry.getField e keys.rightKeyIdx = some (some b) → p b :=
        fun e he => hright e (List.dropWhile_sublist _ |>.subset he)
      rw [mergeEntries_cons layout hkey' (hvalue ▸ rfl), ih hleft' hadvance hleftSorted.of_cons
        (pairwise_advanceRight hrightSorted), hp.scanRight_eq hvalue ha hadvance
        (pairwise_advanceRight hrightSorted), hp.filter_advanceRight hvalue hvalue ha ha
        (by rw [show a.cmp a = .eq from Value.cmp_self (some a)]; exact nofun) hright]
      have hmatch : mergeKeysMatch keys entry = fun e =>
          fieldsMatch (some value) (Entry.getField e keys.rightKeyIdx) := by
        funext e
        rw [mergeKeysMatch, hkey']
      congr 1
      · rw [probe, hmatch]
      · -- what the merge has passed over matches no later entry
        refine List.flatMap_congr fun later hmem => ?_
        have hfilter : (advanceRight keys.rightKeyIdx value right).filter
            (mergeKeysMatch keys later) = right.filter (mergeKeysMatch keys later) := by
          by_cases hlkey : ∃ a' : Scalar, Entry.getField later keys.leftKeyIdx = some (some a')
          · obtain ⟨a', hlkey⟩ := hlkey
            have hle : a.cmp a' ≠ .gt := by
              have hle := hlater later hmem
              rw [hkey, hlkey] at hle
              exact hle
            have hlmatch : mergeKeysMatch keys later = fun e =>
                fieldsMatch (some (some a')) (Entry.getField e keys.rightKeyIdx) := by
              funext e
              rw [mergeKeysMatch, hlkey]
              rfl
            rw [hlmatch]
            exact hp.filter_advanceRight hvalue rfl ha (hleft' later hmem a' hlkey) hle hright
          · have hlmatch : mergeKeysMatch keys later = fun _ => false := by
              funext e
              exact fieldsMatch_left (fun a' h => hlkey ⟨a', h⟩) _
            rw [hlmatch, List.filter_false, List.filter_false]
        rw [probe, probe, hfilter]
    · have hkey' : ∀ a : Scalar, Entry.getField entry keys.leftKeyIdx ≠ some (some a) :=
        fun a h => hkey ⟨a, h⟩
      rw [mergeEntries_skip layout hkey', ih hleft' hright hleftSorted.of_cons hrightSorted, probe]
      have hnil : right.filter (mergeKeysMatch keys entry) = [] :=
        List.filter_eq_nil_iff.mpr fun e _ => by
          rw [Bool.not_eq_true]
          exact fieldsMatch_left hkey' _
      rw [hnil]
      rfl

end Transitive

theorem compareEntries_single (index : Nat) (a b : Entry) :
    compareEntries [(index, .asc)] a b =
      compareFields (Entry.getField a index) (Entry.getField b index) := by
  rw [compareEntries, compareEntries, SortOrder.apply]
  cases compareFields (Entry.getField a index) (Entry.getField b index) <;> rfl

theorem compareFields_swap (a b : Option (Value Scalar)) :
    compareFields b a = (compareFields a b).swap := by
  cases a <;> cases b <;> first | rfl | exact Value.cmp_swap _ _

theorem TransitiveOn.compareFields_trans {p : Scalar → Prop} (hp : TransitiveOn p)
    {a b c : Option (Value Scalar)} (ha : ∀ x : Scalar, a = some (some x) → p x)
    (hb : ∀ x : Scalar, b = some (some x) → p x) (hc : ∀ x : Scalar, c = some (some x) → p x)
    (hab : compareFields a b ≠ .gt) (hbc : compareFields b c ≠ .gt) :
    compareFields a c ≠ .gt := by
  rcases a with _ | _ | a <;> rcases b with _ | _ | b <;> rcases c with _ | _ | c <;>
    first
    | exact hp a b c (ha a rfl) (hb b rfl) (hc c rfl) hab hbc
    | exact absurd rfl hab
    | exact absurd rfl hbc
    | exact nofun

theorem TransitiveOn.pairwise_sortEntries {p : Scalar → Prop} (hp : TransitiveOn p)
    {index : Nat} {entries : List Entry}
    (hentries : ∀ entry ∈ entries, ∀ x : Scalar, Entry.getField entry index = some (some x) → p x) :
    (sortEntries (compareEntries [(index, .asc)]) entries).Pairwise fun a b =>
      compareFields (Entry.getField a index) (Entry.getField b index) ≠ .gt := by
  have hle : ∀ a b : Entry, (compareEntries [(index, .asc)] a b != .gt) = true ↔
      compareFields (Entry.getField a index) (Entry.getField b index) ≠ .gt := by
    intro a b
    rw [compareEntries_single, bne_iff_ne]
  have hsorted : (sortEntries (compareEntries [(index, .asc)]) entries).Pairwise fun a b =>
      (compareEntries [(index, .asc)] a b != .gt) = true := pairwise_mergeSort_of_mem
    (fun a ha b hb c hc hab hbc => (hle a c).mpr (hp.compareFields_trans (hentries a ha)
      (hentries b hb) (hentries c hc) ((hle a b).mp hab) ((hle b c).mp hbc))) (fun a b => by
        rw [Bool.or_eq_true, hle, hle, compareFields_swap (Entry.getField a index)]
        cases compareFields (Entry.getField a index) (Entry.getField b index) <;> simp)
  exact hsorted.imp fun h => (hle _ _).mp h

/-- A sort-merge join is a loop over both sides, where keys are compared transitively. -/
theorem emitSortMergeJoinEntries_perm {left right : Relation} (joinType : JoinType)
    (hkeys : TransitiveOn (JoinKey keys left.entries right.entries)) :
    (emitSortMergeJoinEntries left right keys joinType layout).Perm
      (loopJoin (mergeKeysMatch keys) layout.materializeRow
        (decide (joinType = .leftOuter ∨ joinType = .fullOuter)) false left.entries
        right.entries) := by
  have hleft := List.mergeSort_perm left.entries fun a b =>
    compareEntries [(keys.leftKeyIdx, .asc)] a b != .gt
  have hright := List.mergeSort_perm right.entries fun a b =>
    compareEntries [(keys.rightKeyIdx, .asc)] a b != .gt
  have hleftKeys : ∀ entry ∈ left.entries, ∀ b : Scalar,
      Entry.getField entry keys.leftKeyIdx = some (some b) →
        JoinKey keys left.entries right.entries b := fun e he _ h => .inl ⟨e, he, h⟩
  have hrightKeys : ∀ entry ∈ right.entries, ∀ b : Scalar,
      Entry.getField entry keys.rightKeyIdx = some (some b) →
        JoinKey keys left.entries right.entries b := fun e he _ h => .inr ⟨e, he, h⟩
  have hmerge := hkeys.mergeEntries_eq layout (decide (joinType = .leftOuter ∨
      joinType = .fullOuter)) (fun e he => hleftKeys e (hleft.mem_iff.mp he))
    (fun e he => hrightKeys e (hright.mem_iff.mp he)) (hkeys.pairwise_sortEntries hleftKeys)
    (hkeys.pairwise_sortEntries hrightKeys)
  refine List.Perm.trans (.of_eq hmerge) ?_
  refine (List.Perm.of_eq (List.append_nil _).symm).trans ?_
  have hbag : (loopJoin (mergeKeysMatch keys) layout.materializeRow
      (decide (joinType = .leftOuter ∨ joinType = .fullOuter)) false _ _).Perm
      (loopJoin (mergeKeysMatch keys) layout.materializeRow _ false _ _) :=
    loopJoin_congr _ _ hleft hright
  exact hbag

end SortMerge

section Congruence

variable {left left' right right' : List Entry} (layout : JoinOutputLayout)

theorem sameRows_hashJoin {leftRelation rightRelation leftRelation' rightRelation' : Relation}
    (hleft : SameRows leftRelation.entries leftRelation'.entries)
    (hright : SameRows rightRelation.entries rightRelation'.entries) (keys : EquiJoinKeys)
    (joinType : JoinType) (buildSide buildSide' : HashJoinBuildSide) :
    SameRows (emitHashJoinEntries leftRelation rightRelation keys joinType layout buildSide)
      (emitHashJoinEntries leftRelation' rightRelation' keys joinType layout buildSide') := by
  refine (SameBag.of_perm (emitHashJoinEntries_perm layout keys joinType _ _ buildSide)).trans
    (SameBag.trans ?_
      (SameBag.of_perm (emitHashJoinEntries_perm layout keys joinType _ _ buildSide')).symm)
  exact SameBag.loopJoin _ _ hleft hright (fun _ _ _ _ ha hb => hashKeysMatch_congr keys ha hb)
    fun _ _ _ _ ha hb => materializeRow_values_congr layout ha hb

theorem sameRows_nestedLoopJoin {condition condition' : Entry → Bool} (hleft : SameRows left left')
    (hright : SameRows right right') (joinType : JoinType)
    (hcondition : ∀ a b, a.values = b.values → condition a = condition' b) :
    SameRows (emitNestedLoopJoinEntries left right condition joinType layout)
      (emitNestedLoopJoinEntries left' right' condition' joinType layout) :=
  SameBag.loopJoin (h := Row.values) (emitUnmatchedLeft joinType) (trackRightMatches joinType)
    hleft hright (fun _ _ _ _ ha hb => hcondition _ _ (materializeRow_values_congr layout
      (congrArg some ha) (congrArg some hb)))
    fun _ _ _ _ ha hb => materializeRow_values_congr layout ha hb

theorem sameRows_crossProduct (hleft : SameRows left left') (hright : SameRows right right') :
    SameRows (emitCrossProductEntries left right layout)
      (emitCrossProductEntries left' right' layout) :=
  hleft.flatMap fun _ _ ha => SameBag.map (f := Row.values) hright fun _ _ hb =>
    materializeRow_values_congr layout (congrArg some ha) (congrArg some hb)

theorem joinKey_congr {keys : EquiJoinKeys} (hleft : SameRows left left')
    (hright : SameRows right right') {a : Scalar} (h : JoinKey keys left' right' a) :
    JoinKey keys left right a := by
  rcases h with ⟨entry, hentry, hkey⟩ | ⟨entry, hentry, hkey⟩
  · obtain ⟨entry', hentry', hvalues⟩ := hleft.symm.mem_map hentry
    exact .inl ⟨entry', hentry', (getField_congr hvalues _).trans hkey⟩
  · obtain ⟨entry', hentry', hvalues⟩ := hright.symm.mem_map hentry
    exact .inr ⟨entry', hentry', (getField_congr hvalues _).trans hkey⟩

theorem sameRows_sortMergeJoin {leftRelation rightRelation leftRelation' rightRelation' : Relation}
    {keys : EquiJoinKeys} (hleft : SameRows leftRelation.entries leftRelation'.entries)
    (hright : SameRows rightRelation.entries rightRelation'.entries) (joinType : JoinType)
    (hkeys : TransitiveOn (JoinKey keys leftRelation.entries rightRelation.entries)) :
    SameRows (emitSortMergeJoinEntries leftRelation rightRelation keys joinType layout)
      (emitSortMergeJoinEntries leftRelation' rightRelation' keys joinType layout) := by
  have hkeys' : TransitiveOn (JoinKey keys leftRelation'.entries rightRelation'.entries) :=
    fun a b c ha hb hc => hkeys a b c (joinKey_congr hleft hright ha)
      (joinKey_congr hleft hright hb) (joinKey_congr hleft hright hc)
  refine (SameBag.of_perm (emitSortMergeJoinEntries_perm layout keys joinType hkeys)).trans
    (SameBag.trans ?_
      (SameBag.of_perm (emitSortMergeJoinEntries_perm layout keys joinType hkeys')).symm)
  exact SameBag.loopJoin _ _ hleft hright (fun _ _ _ _ ha hb => mergeKeysMatch_congr keys ha hb)
    fun _ _ _ _ ha hb => materializeRow_values_congr layout ha hb

theorem sameRows_sort {input input' : Relation} (h : SameRows input.entries input'.entries)
    (orderBy orderBy' : List (Expr × SortOrder)) :
    SameRows (executeSort input orderBy).entries (executeSort input' orderBy').entries :=
  (SameBag.of_perm (List.mergeSort_perm _ _)).trans
    (h.trans (SameBag.of_perm (List.mergeSort_perm _ _).symm))

end Congruence

end Cynos.Query
