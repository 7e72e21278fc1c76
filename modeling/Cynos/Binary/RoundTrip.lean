import Mathlib
import Cynos.Binary.ResultSet

/-! The decoder reads what the encoder wrote. While a row is encoded, the bits of the
columns done and their cells stand where the layout puts them; what comes later leaves
them there. -/
namespace Cynos.Binary

open Core Bytes

section Cells

/-- A cell points to data in the variable section. -/
def VarAt (buffer var : List UInt8) (offset : Nat) (data : List UInt8) : Prop :=
  ∃ start, At buffer offset (leBytes 4 start ++ leBytes 4 data.length) ∧
    At var start data ∧ start + data.length ≤ var.length

def CellAt (buffer var : List UInt8) (offset : Nat) : Scalar → Prop
  | .boolean b => At buffer offset [if b then 1 else 0]
  | .int32 i => At buffer offset (leBytes 4 i.toUInt32.toNat)
  | .int64 i => At buffer offset (leBytes 8 (int64AsF64 i).toBits.toNat)
  | .float64 f => At buffer offset (leBytes 8 f.toBits.toNat)
  | .dateTime ts => At buffer offset (leBytes 8 (int64AsF64 ts).toBits.toNat)
  | .string s => VarAt buffer var offset (utf8Bytes s)
  | .bytes b => VarAt buffer var offset b
  | .jsonb j => VarAt buffer var offset j.data

/-- The bit of a column in the null mask at an offset. -/
def maskBit (buffer : List UInt8) (offset column : Nat) : Option Bool :=
  buffer[offset + column / 8]?.map fun byte => byte.toNat.testBit (column % 8)

def isNullCell (row : Row Scalar) (column : Nat) : Bool :=
  match row.get column with
  | some (some _) => false
  | _ => true

structure RowAt (layout : SchemaLayout) (row : Row Scalar) (buffer var : List UInt8)
    (offset : Nat) : Prop where
  mask : ∀ c < layout.columns.length, maskBit buffer offset c = some (isNullCell row c)
  cells : ∀ c col, layout.columns[c]? = some col → ∀ value, row.get c = some (some value) →
    CellAt buffer var (offset + layout.nullMaskSize + col.offset) value

variable {buffer other var more : List UInt8} {start offset : Nat}

theorem VarAt.keeps {data : List UInt8} (h : VarAt buffer var offset data)
    (hkeeps : Keeps start buffer other) (hle : start ≤ offset) (more : List UInt8) :
    VarAt other (var ++ more) offset data := by
  obtain ⟨first, hptr, hdata, hlen⟩ := h
  refine ⟨first, hptr.keeps hkeeps hle, hdata.keeps (keeps_append 0 var more) (Nat.zero_le _), ?_⟩
  rw [List.length_append]
  exact hlen.trans (Nat.le_add_right _ _)

theorem CellAt.keeps {value : Scalar} (h : CellAt buffer var offset value)
    (hkeeps : Keeps start buffer other) (hle : start ≤ offset) (more : List UInt8) :
    CellAt other (var ++ more) offset value := by
  cases value with
  | string s => exact VarAt.keeps h hkeeps hle more
  | bytes b => exact VarAt.keeps h hkeeps hle more
  | jsonb j => exact VarAt.keeps h hkeeps hle more
  | _ => exact At.keeps h hkeeps hle

theorem maskBit_keeps {column : Nat} {bit : Bool} (h : maskBit buffer offset column = some bit)
    (hkeeps : Keeps start buffer other) (hle : start ≤ offset) :
    maskBit other offset column = some bit := by
  obtain ⟨byte, hbyte, rfl⟩ := Option.map_eq_some_iff.mp h
  unfold maskBit
  rw [hkeeps _ (hle.trans (Nat.le_add_right _ _)) byte hbyte, Option.map_some]

theorem RowAt.keeps {layout : SchemaLayout} {row : Row Scalar}
    (h : RowAt layout row buffer var offset) (hkeeps : Keeps start buffer other)
    (hle : start ≤ offset) (more : List UInt8) :
    RowAt layout row other (var ++ more) offset where
  mask c hc := maskBit_keeps (h.mask c hc) hkeeps hle
  cells c col hcol value hvalue :=
    (h.cells c col hcol value hvalue).keeps hkeeps (by omega) more

end Cells

section Encoding

variable {layout : SchemaLayout} {row : Row Scalar}

def RowTyped (layout : SchemaLayout) (row : Row Scalar) : Prop :=
  ∀ c col, layout.columns[c]? = some col → ∀ value, row.get c = some (some value) →
    .ofDataType value.dataType = col.dataType

theorem varAt_writeVarlenFast (encoder : BinaryEncoder) (data : List UInt8) :
    VarAt (encoder.writeVarlenFast data).buffer (encoder.writeVarlenFast data).varBuffer
      encoder.buffer.length data := by
  refine ⟨encoder.varBuffer.length, ?_, at_append _ _, ?_⟩
  · change At (encoder.buffer ++ _ ++ _) _ _
    rw [List.append_assoc]
    exact at_append _ _
  · change _ ≤ (encoder.varBuffer ++ data).length
    rw [List.length_append]

/-- A value of the column's type is written as one cell behind what is there. -/
theorem encodeValueFast_spec (encoder : BinaryEncoder) {value : Scalar}
    {dataType : BinaryDataType} (htype : .ofDataType value.dataType = dataType) :
    ∃ fixed data,
      encoder.encodeValueFast value dataType =
        { encoder with
          buffer := encoder.buffer ++ fixed
          varBuffer := encoder.varBuffer ++ data } ∧
      fixed.length = dataType.fixedSize ∧
      CellAt (encoder.buffer ++ fixed) (encoder.varBuffer ++ data) encoder.buffer.length value := by
  subst htype
  have hfixed : ∀ bytes : List UInt8, encoder.writeBytesFast bytes =
      { encoder with
        buffer := encoder.buffer ++ bytes
        varBuffer := encoder.varBuffer ++ [] } := fun bytes => by
    rw [List.append_nil]
    rfl
  have hvar : ∀ data : List UInt8, encoder.writeVarlenFast data =
      { encoder with
        buffer := encoder.buffer ++
          (leBytes 4 encoder.varBuffer.length ++ leBytes 4 data.length)
        varBuffer := encoder.varBuffer ++ data } := fun data => by
    rw [← List.append_assoc]
    rfl
  have hlen : ∀ a b, (leBytes 4 a ++ leBytes 4 b).length = 8 := fun a b => by
    rw [List.length_append, length_leBytes, length_leBytes]
  cases value with
  | boolean b => exact ⟨_, [], hfixed _, rfl, at_append _ _⟩
  | int32 i => exact ⟨_, [], hfixed _, length_leBytes _ _, at_append _ _⟩
  | int64 i => exact ⟨_, [], hfixed _, length_leBytes _ _, at_append _ _⟩
  | float64 f => exact ⟨_, [], hfixed _, length_leBytes _ _, at_append _ _⟩
  | dateTime ts => exact ⟨_, [], hfixed _, length_leBytes _ _, at_append _ _⟩
  | string s =>
    refine ⟨_, _, hvar _, hlen _ _, ?_⟩
    have h := varAt_writeVarlenFast encoder (utf8Bytes s)
    rwa [hvar] at h
  | bytes b =>
    refine ⟨_, _, hvar _, hlen _ _, ?_⟩
    have h := varAt_writeVarlenFast encoder b
    rwa [hvar] at h
  | jsonb j =>
    refine ⟨_, _, hvar _, hlen _ _, ?_⟩
    have h := varAt_writeVarlenFast encoder j.data
    rwa [hvar] at h

theorem testBit_setBit (byte : UInt8) {bit other : Nat} (hbit : bit < 8) (hother : other < 8) :
    (byte ||| (1 <<< UInt8.ofNat bit)).toNat.testBit other =
      (byte.toNat.testBit other || decide (other = bit)) := by
  rw [UInt8.toNat_or, Nat.testBit_or]
  congr 1
  have hshift : (UInt8.ofNat bit).toNat % 8 = bit := by
    rw [UInt8.toNat_ofNat']
    omega
  rw [UInt8.toNat_shiftLeft, hshift, Nat.testBit_mod_two_pow, decide_eq_true hother,
    Bool.true_and]
  change (1 <<< bit).testBit other = _
  rw [Nat.one_shiftLeft, Nat.testBit_two_pow]
  exact decide_eq_decide.mpr eq_comm

/-- A bit is set and the other bits of the mask stay. -/
theorem maskBit_setBit {buffer : List UInt8} {start c : Nat}
    (h : start + c / 8 < buffer.length) :
    ∃ next, BinaryEncoder.setBit buffer (start + c / 8) (c % 8) = some next ∧
      next.length = buffer.length ∧ next.take start = buffer.take start ∧
      Keeps (start + c / 8 + 1) buffer next ∧
      ∀ column, maskBit next start column =
        (maskBit buffer start column).map fun bit => bit || column == c := by
  refine ⟨_, if_pos h, List.length_modify .., ?_, keeps_modify _ _ _, fun column => ?_⟩
  · rw [List.take_modify, List.modify_eq_self]
    rw [List.length_take]
    omega
  · unfold maskBit
    rw [List.getElem?_modify]
    cases buffer[start + column / 8]? with
    | none => rfl
    | some byte =>
      rw [Option.map_eq_map, Option.map_some, Option.map_some, Option.map_some, Option.map_some]
      have hbit : c % 8 < 8 := Nat.mod_lt _ (by decide)
      have hother : column % 8 < 8 := Nat.mod_lt _ (by decide)
      split
      · rw [testBit_setBit byte hbit hother]
        refine congrArg (fun bit => some (byte.toNat.testBit (column % 8) || bit)) ?_
        rw [Bool.eq_iff_iff, decide_eq_true_iff, beq_iff_eq]
        omega
      · rw [beq_false_of_ne (by rintro rfl; contradiction), Bool.or_false]

/-- The first `k` columns of a row are encoded behind what was there. -/
structure Progress (layout : SchemaLayout) (row : Row Scalar) (old : BinaryEncoder) (k : Nat)
    (encoder : BinaryEncoder) : Prop where
  sameLayout : encoder.layout = old.layout
  sameCount : encoder.rowCount = old.rowCount
  length : encoder.buffer.length =
    old.buffer.length + layout.nullMaskSize + SchemaLayout.dataSize (layout.columns.take k)
  earlier : encoder.buffer.take old.buffer.length = old.buffer
  earlierVar : ∃ more, encoder.varBuffer = old.varBuffer ++ more
  mask : ∀ c < layout.columns.length,
    maskBit encoder.buffer old.buffer.length c = some (decide (c < k) && isNullCell row c)
  cells : ∀ c < k, ∀ col, layout.columns[c]? = some col → ∀ value,
    row.get c = some (some value) →
      CellAt encoder.buffer encoder.varBuffer
        (old.buffer.length + layout.nullMaskSize + col.offset) value
  hadNulls : old.hasNulls = true → encoder.hasNulls = true
  hasNulls : ∀ c < k, isNullCell row c = true → encoder.hasNulls = true

theorem progress_zero (hwf : layout.WellFormed) (row : Row Scalar) (old : BinaryEncoder) :
    Progress layout row old 0
      (old.writeBytesFast (List.replicate layout.nullMaskSize 0)) where
  sameLayout := rfl
  sameCount := rfl
  length := by
    change (old.buffer ++ _).length = _
    rw [List.length_append, List.length_replicate]
    rfl
  earlier := List.take_left
  earlierVar := ⟨[], (List.append_nil _).symm⟩
  mask c hc := by
    have hsize := hwf.nullMaskSize
    unfold maskBit
    change ((old.buffer ++ _)[_]?).map _ = _
    rw [List.getElem?_append_right (Nat.le_add_right _ _), Nat.add_sub_cancel_left,
      List.getElem?_replicate_of_lt (by omega), Option.map_some]
    simp
  cells _ hc := absurd hc (Nat.not_lt_zero _)
  hadNulls h := h
  hasNulls _ hc := absurd hc (Nat.not_lt_zero _)

/-- What one more column does to the buffers. -/
theorem Progress.next {old encoder next : BinaryEncoder} {k : Nat} {col : ColumnLayout}
    (h : Progress layout row old k encoder) (hwf : layout.WellFormed)
    (hcol : layout.columns[k]? = some col)
    (hlayout : next.layout = encoder.layout) (hcount : next.rowCount = encoder.rowCount)
    (hlength : next.buffer.length = encoder.buffer.length + col.fixedSize)
    (hearlier : next.buffer.take old.buffer.length = encoder.buffer.take old.buffer.length)
    (hvar : ∃ more, next.varBuffer = encoder.varBuffer ++ more)
    (hkeeps : Keeps (old.buffer.length + layout.nullMaskSize) encoder.buffer next.buffer)
    (hmask : ∀ c < layout.columns.length, maskBit next.buffer old.buffer.length c =
      (maskBit encoder.buffer old.buffer.length c).map fun bit =>
        bit || (c == k && isNullCell row k))
    (hcell : ∀ value, row.get k = some (some value) →
      CellAt next.buffer next.varBuffer encoder.buffer.length value)
    (hnulls : encoder.hasNulls = true ∨ isNullCell row k = true → next.hasNulls = true) :
    Progress layout row old (k + 1) next := by
  have hk : k < layout.columns.length := (List.getElem?_eq_some_iff.mp hcol).1
  have htake : layout.columns.take (k + 1) = layout.columns.take k ++ [col] := by
    rw [List.take_add_one, hcol]
    rfl
  have hoffset : col.offset = SchemaLayout.dataSize (layout.columns.take k) := by
    refine hwf.offset _ _ (layout.columns.drop (k + 1)) ?_
    rw [← List.singleton_append, ← List.append_assoc, ← htake, List.take_append_drop]
  obtain ⟨more, hmore⟩ := hvar
  refine ⟨hlayout.trans h.sameLayout, hcount.trans h.sameCount, ?_, hearlier.trans h.earlier, ?_, ?_,
    ?_, fun hold => hnulls (.inl (h.hadNulls hold)), ?_⟩
  · rw [hlength, h.length, htake, SchemaLayout.dataSize_append, SchemaLayout.dataSize_cons,
      SchemaLayout.dataSize_nil]
    omega
  · obtain ⟨earlier, hearlier⟩ := h.earlierVar
    exact ⟨earlier ++ more, by rw [hmore, hearlier, List.append_assoc]⟩
  · intro c hc
    rw [hmask c hc, h.mask c hc, Option.map_some]
    congr 1
    obtain hlt | rfl | hgt := Nat.lt_trichotomy c k
    · rw [beq_false_of_ne hlt.ne, Bool.false_and, Bool.or_false, decide_eq_true hlt,
        decide_eq_true (by omega)]
    · rw [beq_self_eq_true, decide_eq_false (Nat.lt_irrefl _), decide_eq_true (by omega),
        Bool.false_and, Bool.false_or]
    · rw [beq_false_of_ne hgt.ne', Bool.false_and, Bool.or_false, decide_eq_false (by omega),
        decide_eq_false (by omega)]
  · intro c hc col' hcol' value hvalue
    obtain hlt | rfl := Nat.lt_succ_iff_lt_or_eq.mp hc
    · rw [hmore]
      exact (h.cells c hlt col' hcol' value hvalue).keeps hkeeps (Nat.le_add_right _ _) more
    · rw [hcol, Option.some.injEq] at hcol'
      subst hcol'
      rw [hoffset, ← h.length]
      exact hcell value hvalue
  · intro c hc hnull
    obtain hlt | rfl := Nat.lt_succ_iff_lt_or_eq.mp hc
    · exact hnulls (.inl (h.hasNulls c hlt hnull))
    · exact hnulls (.inr hnull)

theorem isNullCell_of_get {c : Nat} {value : Scalar} (h : row.get c = some (some value)) :
    isNullCell row c = false := by
  unfold isNullCell
  rw [h]

theorem exists_get_of_isNullCell {c : Nat} (h : isNullCell row c = false) :
    ∃ value : Scalar, row.get c = some (some value) := by
  unfold isNullCell at h
  split at h
  next value hvalue => exact ⟨value, hvalue⟩
  next => contradiction

theorem encodeColumn_of_get {start c : Nat} {value : Scalar} (encoder : BinaryEncoder)
    (col : ColumnLayout) (h : row.get c = some (some value)) :
    BinaryEncoder.encodeColumn row start encoder (col, c) =
      some (encoder.encodeValueFast value col.dataType) := by
  unfold BinaryEncoder.encodeColumn
  dsimp only
  rw [h]

theorem encodeColumn_of_isNullCell {start c : Nat} {encoder : BinaryEncoder}
    {buffer : List UInt8} (col : ColumnLayout) (h : isNullCell row c = true)
    (hset : BinaryEncoder.setBit encoder.buffer (start + c / 8) (c % 8) = some buffer) :
    BinaryEncoder.encodeColumn row start encoder (col, c) =
      some { encoder with
        buffer := buffer ++ List.replicate col.fixedSize 0
        hasNulls := true } := by
  unfold BinaryEncoder.encodeColumn
  dsimp only
  rw [hset]
  unfold isNullCell at h
  rcases hvalue : row.get c with _ | value
  · rfl
  · rcases value with _ | scalar
    · rfl
    · rw [hvalue] at h
      contradiction

/-- One column. -/
theorem Progress.step {old encoder : BinaryEncoder} {k : Nat} {col : ColumnLayout}
    (h : Progress layout row old k encoder) (hwf : layout.WellFormed) (htyped : RowTyped layout row)
    (hcol : layout.columns[k]? = some col) :
    ∃ next, BinaryEncoder.encodeColumn row old.buffer.length encoder (col, k) = some next ∧
      Progress layout row old (k + 1) next := by
  have hk : k < layout.columns.length := (List.getElem?_eq_some_iff.mp hcol).1
  have hsize := hwf.fixedSize col (List.mem_of_getElem? hcol)
  have hmask := hwf.nullMaskSize
  have hlength := h.length
  by_cases hnull : isNullCell row k = true
  · -- The bit is set, and zeros take the cell's place.
    have hin : old.buffer.length + k / 8 < encoder.buffer.length := by omega
    obtain ⟨buffer, hset, hlen, htake, hkeeps, hbits⟩ := maskBit_setBit hin
    refine ⟨_, encodeColumn_of_isNullCell col hnull hset, h.next hwf hcol rfl rfl ?_ ?_
      ⟨[], (List.append_nil _).symm⟩ ?_ ?_ ?_ fun _ => rfl⟩
    · rw [List.length_append, List.length_replicate, hlen]
    · rw [List.take_append_of_le_length (by omega), htake]
    · exact (hkeeps.mono (by omega)).trans (keeps_append _ _ _)
    · intro c hc
      have hbit := hbits c
      rw [h.mask c hc, Option.map_some] at hbit
      rw [h.mask c hc, Option.map_some, hnull, Bool.and_true]
      exact maskBit_keeps hbit (keeps_append 0 _ _) (Nat.zero_le _)
    · intro value hvalue
      rw [isNullCell_of_get hvalue] at hnull
      contradiction
  · rw [Bool.not_eq_true] at hnull
    obtain ⟨value, hvalue⟩ := exists_get_of_isNullCell hnull
    obtain ⟨fixed, data, heq, hfixed, hcell⟩ :=
      encodeValueFast_spec encoder (htyped k col hcol value hvalue)
    refine ⟨_, encodeColumn_of_get encoder col hvalue, ?_⟩
    rw [heq]
    refine h.next hwf hcol rfl rfl ?_ ?_ ⟨data, rfl⟩ (keeps_append _ _ _) ?_ ?_ ?_
    · rw [List.length_append, hfixed, hsize]
    · exact List.take_append_of_le_length (by omega)
    · intro c hc
      rw [hnull, Bool.and_false, h.mask c hc, Option.map_some, Bool.or_false]
      exact maskBit_keeps (h.mask c hc) (keeps_append 0 _ _) (Nat.zero_le _)
    · intro value' hvalue'
      obtain rfl : value = value' := by
        have := hvalue.symm.trans hvalue'
        injection this with this
        injection this
      exact hcell
    · rintro (h | h)
      · exact h
      · rw [hnull] at h
        contradiction

/-- The columns of a row, one after the other. -/
theorem Progress.run {old : BinaryEncoder} (hwf : layout.WellFormed) (htyped : RowTyped layout row) :
    ∀ (rest : List ColumnLayout) (k : Nat) (encoder : BinaryEncoder),
      layout.columns.drop k = rest → k + rest.length = layout.columns.length →
      Progress layout row old k encoder →
      ∃ next, (rest.zipIdx k).foldlM (BinaryEncoder.encodeColumn row old.buffer.length) encoder
          = some next ∧
        Progress layout row old layout.columns.length next
  | [], k, encoder, _, hlen, h => by
    rw [List.length_nil, Nat.add_zero] at hlen
    exact ⟨encoder, rfl, hlen ▸ h⟩
  | col :: rest, k, encoder, hdrop, hlen, h => by
    have hcol : layout.columns[k]? = some col := by
      rw [← Nat.add_zero k, ← List.getElem?_drop, hdrop]
      rfl
    obtain ⟨next, hnext, hprogress⟩ := h.step hwf htyped hcol
    have hrest : layout.columns.drop (k + 1) = rest := by
      rw [← List.drop_drop, hdrop]
      rfl
    obtain ⟨last, hlast, hdone⟩ := Progress.run hwf htyped rest (k + 1) next hrest
      (by rw [List.length_cons] at hlen; omega) hprogress
    refine ⟨last, ?_, hdone⟩
    rw [List.zipIdx_cons, List.foldlM_cons, hnext]
    exact hlast

/-- A row. -/
theorem encodeRow_spec {encoder : BinaryEncoder} (hwf : encoder.layout.WellFormed)
    (htyped : RowTyped encoder.layout row) :
    ∃ next, encoder.encodeRow row = some next ∧
      Progress encoder.layout row encoder encoder.layout.columns.length next :=
  Progress.run hwf htyped encoder.layout.columns 0 _ rfl (Nat.zero_add _)
    (progress_zero hwf row encoder)

theorem Progress.rowAt {old encoder : BinaryEncoder}
    (h : Progress layout row old layout.columns.length encoder) :
    RowAt layout row encoder.buffer encoder.varBuffer old.buffer.length where
  mask c hc := by
    rw [h.mask c hc, decide_eq_true hc, Bool.true_and]
  cells c col hcol := h.cells c (List.getElem?_eq_some_iff.mp hcol).1 col hcol

/-- The rows encoded so far. -/
structure Encoded (layout : SchemaLayout) (rows : List (Row Scalar)) (encoder : BinaryEncoder) :
    Prop where
  sameLayout : encoder.layout = layout
  rowCount : encoder.rowCount = rows.length
  length : encoder.buffer.length = headerSize + rows.length * layout.rowStride
  rowAt : ∀ r row, rows[r]? = some row →
    RowAt layout row encoder.buffer encoder.varBuffer (headerSize + r * layout.rowStride)
  hasNulls : ∀ row ∈ rows, ∀ c < layout.columns.length, isNullCell row c = true →
    encoder.hasNulls = true

theorem encoded_new (layout : SchemaLayout) :
    Encoded layout [] (BinaryEncoder.new layout).reserveHeader where
  sameLayout := rfl
  rowCount := rfl
  length := by
    change (List.replicate headerSize (0 : UInt8)).length = _
    rw [List.length_replicate, List.length_nil, Nat.zero_mul, Nat.add_zero]
  rowAt _ _ h := absurd h (by rw [List.getElem?_nil]; exact nofun)
  hasNulls _ h := absurd h List.not_mem_nil

theorem Encoded.step {rows : List (Row Scalar)} {encoder : BinaryEncoder}
    (h : Encoded layout rows encoder) (hwf : layout.WellFormed) (htyped : RowTyped layout row) :
    ∃ next, encoder.encodeRow row = some next ∧
      Encoded layout (rows ++ [row]) { next with rowCount := next.rowCount + 1 } := by
  obtain ⟨hlayout, hcount, hlength, hrows, hnulls⟩ := h
  subst hlayout
  obtain ⟨next, hnext, hprogress⟩ := encodeRow_spec hwf htyped
  refine ⟨next, hnext, ?_⟩
  obtain ⟨more, hmore⟩ := hprogress.earlierVar
  have hsplit : next.buffer = encoder.buffer ++ next.buffer.drop encoder.buffer.length := by
    conv_lhs => rw [← List.take_append_drop encoder.buffer.length next.buffer, hprogress.earlier]
  have htake := hprogress.length
  rw [List.take_length] at htake
  refine ⟨hprogress.sameLayout, ?_, ?_, ?_, ?_⟩
  · change next.rowCount + 1 = _
    rw [hprogress.sameCount, hcount, List.length_append, List.length_singleton]
  · change next.buffer.length = _
    rw [htake, hlength, List.length_append, List.length_singleton, Nat.add_mul, Nat.one_mul,
      hwf.rowStride]
    omega
  · intro r row' hrow'
    change RowAt _ row' next.buffer next.varBuffer _
    obtain hr | hr := Nat.lt_or_ge r rows.length
    · rw [List.getElem?_append_left hr] at hrow'
      rw [hsplit, hmore]
      exact (hrows r row' hrow').keeps (keeps_append 0 _ _) (Nat.zero_le _) more
    · rw [List.getElem?_append_right hr, List.getElem?_singleton] at hrow'
      split at hrow'
      next heq =>
        obtain rfl : r = rows.length := by omega
        cases hrow'
        rw [← hlength]
        exact hprogress.rowAt
      next => contradiction
  · intro row' hrow' c hc hnull
    change next.hasNulls = true
    rw [List.mem_append, List.mem_singleton] at hrow'
    obtain hold | rfl := hrow'
    · exact hprogress.hadNulls (hnulls row' hold c hc hnull)
    · exact hprogress.hasNulls c hc hnull

theorem Encoded.run (hwf : layout.WellFormed) :
    ∀ (rest done : List (Row Scalar)) (encoder : BinaryEncoder),
      (∀ row ∈ rest, RowTyped layout row) → Encoded layout done encoder →
      ∃ next, rest.foldlM (fun encoder row => do
          let encoder ← BinaryEncoder.encodeRow encoder row
          pure { encoder with rowCount := encoder.rowCount + 1 }) encoder = some next ∧
        Encoded layout (done ++ rest) next
  | [], done, encoder, _, h => ⟨encoder, rfl, by rwa [List.append_nil]⟩
  | row :: rest, done, encoder, htyped, h => by
    obtain ⟨next, hnext, hencoded⟩ := h.step hwf (htyped row List.mem_cons_self)
    obtain ⟨last, hlast, hdone⟩ := Encoded.run hwf rest (done ++ [row]) _
      (fun row hrow => htyped row (List.mem_cons_of_mem _ hrow)) hencoded
    rw [List.append_assoc, List.singleton_append] at hdone
    refine ⟨last, ?_, hdone⟩
    rw [List.foldlM_cons, hnext]
    exact hlast

/-- No index is out of range while rows are encoded. -/
theorem encodeRowRefsIter_spec (hwf : layout.WellFormed) {rows : List (Row Scalar)}
    (htyped : ∀ row ∈ rows, RowTyped layout row) :
    ∃ encoder, (BinaryEncoder.new layout).encodeRowRefsIter rows = some encoder ∧
      Encoded layout rows encoder :=
  Encoded.run hwf rows [] _ htyped (encoded_new layout)

end Encoding

section Reading

theorem getBytesAt_of_at {view part : List UInt8} {width offset : Nat} (h : At view offset part)
    (hwidth : part.length = width) (hpos : 0 < width) :
    getBytesAt view width offset = some part := by
  have hle := h.length_le (List.length_pos_iff.mp (hwidth.symm ▸ hpos))
  unfold getBytesAt
  rw [if_pos (hwidth ▸ hle), ← hwidth, h.take]

variable {view : List UInt8} {offset : Nat}

theorem getUint32_of_at {n : Nat} (h : At view offset (leBytes 4 n)) (hn : n < 2 ^ 32) :
    getUint32 view offset = some n := by
  unfold getUint32
  rw [getBytesAt_of_at h (length_leBytes _ _) (by decide), Option.map_some, ofLeBytes_of_lt hn]

theorem getInt32_of_at {i : Int32} (h : At view offset (leBytes 4 i.toUInt32.toNat)) :
    getInt32 view offset = some i := by
  unfold getInt32
  rw [getBytesAt_of_at h (length_leBytes _ _) (by decide), Option.map_some,
    ofLeBytes_of_lt i.toUInt32.toNat_lt, UInt32.ofNat_toNat]
  rfl

theorem getFloat64_of_at {f : Float} (h : At view offset (leBytes 8 f.toBits.toNat)) :
    getFloat64 view offset = some f := by
  unfold getFloat64
  rw [getBytesAt_of_at h (length_leBytes _ _) (by decide), Option.map_some,
    ofLeBytes_of_lt f.toBits.toNat_lt, UInt64.ofNat_toNat, Float.ofBits_toBits]

theorem getUint8_of_at {byte : UInt8} (h : At view offset [byte]) :
    getUint8 view offset = some byte := by
  obtain ⟨rest, hrest⟩ := h
  unfold getUint8
  rw [← Nat.add_zero offset, ← List.getElem?_drop, ← hrest]
  rfl

theorem subarray_of_at {data : List UInt8} {start : Nat} (h : At view start data) :
    subarray view start (start + data.length) = data := by
  unfold subarray
  rw [Nat.add_sub_cancel_left, h.take]

def StartsWithByteOrderMark (s : String) : Prop := s.toList.head? = some byteOrderMark

instance (s : String) : Decidable (StartsWithByteOrderMark s) :=
  inferInstanceAs (Decidable (_ = _))

variable {O : Type} (host : Host O)

theorem textDecode_utf8Bytes {s : String} (h : ¬ StartsWithByteOrderMark s) :
    textDecode host (utf8Bytes s) = s := by
  unfold textDecode
  rw [ofUtf8?_utf8Bytes]
  dsimp only
  unfold dropByteOrderMark
  split
  next c rest heq =>
    refine if_neg fun hc => h ?_
    rw [StartsWithByteOrderMark, heq, hc]
    rfl
  next => rfl

/-- What a row holds is converted to without the binary format. -/
def valueToJs : Value Scalar → JsValue O
  | none => .null
  | some (.boolean b) => .boolean b
  | some (.int32 n) => .number (int32AsF64 n)
  | some (.int64 n) => .number (int64AsF64 n)
  | some (.float64 n) => .number n
  | some (.string s) => .string s
  | some (.dateTime ts) => .date (int64AsF64 ts)
  | some (.bytes b) => .uint8Array b
  | some (.jsonb j) =>
    match ofUtf8? j.data with
    | some s => (host.jsonParse s).getD .null
    | none => .null

/-- Texts that a `TextDecoder` leaves as they are, and JSON texts as `JSON.parse` knows them. -/
def Plain : Scalar → Prop
  | .string s => ¬ StartsWithByteOrderMark s
  | .jsonb j => ∃ s, j.data = utf8Bytes s ∧ s ≠ "" ∧ ¬ StartsWithByteOrderMark s ∧
      (host.jsonParse s).isSome
  | _ => True

def readTyped (rs : ResultSet) (offset : Nat) : BinaryDataType → Option (JsValue O)
  | .boolean => rs.readBoolean offset
  | .int32 => rs.readInt32 offset
  | .int64 | .float64 => rs.readNumber offset
  | .dateTime => rs.readDate offset
  | .string => rs.readString host offset
  | .bytes => rs.readBytes offset
  | .jsonb => rs.readJsonb host offset

variable {host} {rs : ResultSet} {fixed var : List UInt8}

/-- The pointer of a cell and the data it points to. -/
theorem read_varAt {data : List UInt8} (hview : rs.uint8Array = fixed ++ var)
    (hvarOffset : rs.varOffset = fixed.length) (hvar : var.length < 2 ^ 32)
    (h : VarAt rs.uint8Array var offset data) :
    ∃ start, getUint32 rs.uint8Array offset = some start ∧
      getUint32 rs.uint8Array (offset + 4) = some data.length ∧
      subarray rs.uint8Array (rs.varOffset + start) (rs.varOffset + start + data.length) = data := by
  obtain ⟨start, hptr, hdata, hlen⟩ := h
  have hsecond := hptr.right
  rw [length_leBytes] at hsecond
  refine ⟨start, getUint32_of_at hptr.left (by omega), getUint32_of_at hsecond (by omega), ?_⟩
  apply subarray_of_at
  rw [hview, hvarOffset]
  exact hdata.prepend fixed

theorem readTyped_of_cellAt {value : Scalar} (hview : rs.uint8Array = fixed ++ var)
    (hvarOffset : rs.varOffset = fixed.length) (hvar : var.length < 2 ^ 32)
    (h : CellAt rs.uint8Array var offset value) (hplain : Plain host value) :
    readTyped host rs offset (.ofDataType value.dataType) =
      some (valueToJs host (some value)) := by
  cases value with
  | boolean b =>
    change (getUint8 rs.uint8Array offset).bind _ = _
    rw [getUint8_of_at h]
    cases b <;> rfl
  | int32 i =>
    change (getInt32 rs.uint8Array offset).bind _ = _
    rw [getInt32_of_at h]
    rfl
  | int64 i =>
    change (getFloat64 rs.uint8Array offset).bind _ = _
    rw [getFloat64_of_at h]
    rfl
  | float64 f =>
    change (getFloat64 rs.uint8Array offset).bind _ = _
    rw [getFloat64_of_at h]
    rfl
  | dateTime ts =>
    change (getFloat64 rs.uint8Array offset).bind _ = _
    rw [getFloat64_of_at h]
    rfl
  | string s =>
    obtain ⟨start, hstart, hlen, hdata⟩ := read_varAt hview hvarOffset hvar h
    change rs.readString host offset = some (.string s)
    unfold ResultSet.readString
    rw [hstart, hlen]
    dsimp only [Option.bind_eq_bind, Option.bind_some]
    split
    next hzero =>
      rw [utf8Bytes_eq_nil.mp (List.length_eq_zero_iff.mp hzero)]
      rfl
    next =>
      rw [hdata, textDecode_utf8Bytes host hplain]
      rfl
  | bytes b =>
    obtain ⟨start, hstart, hlen, hdata⟩ := read_varAt hview hvarOffset hvar h
    change rs.readBytes offset = some (.uint8Array b)
    unfold ResultSet.readBytes
    rw [hstart, hlen]
    dsimp only [Option.bind_eq_bind, Option.bind_some]
    split
    next hzero =>
      rw [List.length_eq_zero_iff.mp hzero]
      rfl
    next =>
      rw [hdata]
      rfl
  | jsonb j =>
    obtain ⟨s, hs, hne, hmark, hparse⟩ := hplain
    obtain ⟨start, hstart, hlen, hdata⟩ := read_varAt hview hvarOffset hvar h
    obtain ⟨json, hjson⟩ := Option.isSome_iff_exists.mp hparse
    have hlength : j.data.length ≠ 0 := by
      rw [ne_eq, List.length_eq_zero_iff, hs, utf8Bytes_eq_nil]
      exact hne
    change rs.readJsonb host offset = some (match ofUtf8? j.data with
      | some s => (host.jsonParse s).getD .null
      | none => .null)
    unfold ResultSet.readJsonb
    rw [hstart, hlen]
    dsimp only [Option.bind_eq_bind, Option.bind_some]
    rw [if_neg hlength, hdata, hs, textDecode_utf8Bytes host hmark, ofUtf8?_utf8Bytes]
    dsimp only
    rw [hjson, Option.getD_some]

end Reading

section Decoding

variable {layout : SchemaLayout} {rows : List (Row Scalar)} {O : Type} {host : Host O}

/-- A result set over the rows, whose header describes its buffer. -/
structure ResultSet.Holds (layout : SchemaLayout) (rows : List (Row Scalar)) (rs : ResultSet) :
    Prop where
  sameLayout : rs.layout = normalizeLayout layout
  rowCount : rs.rowCount = rows.length
  rowStride : rs.rowStride = layout.rowStride
  varOffset : rs.varOffset = headerSize + rows.length * layout.rowStride
  rowAt : ∃ fixed var, rs.uint8Array = fixed ++ var ∧ fixed.length = rs.varOffset ∧
    var.length < 2 ^ 32 ∧ ∀ r row, rows[r]? = some row →
      RowAt layout row rs.uint8Array var (headerSize + r * layout.rowStride)
  hasNulls : rs.flags = 0 → ∀ row ∈ rows, ∀ c < layout.columns.length, isNullCell row c = false

/-- The header is read back as it was written. -/
theorem new_of_header {a b c d : Nat} (rest : List UInt8) (ha : a < 2 ^ 32) (hb : b < 2 ^ 32)
    (hc : c < 2 ^ 32) (hd : d < 2 ^ 32) (layout : SchemaLayout) :
    ResultSet.new (leBytes 4 a ++ leBytes 4 b ++ leBytes 4 c ++ leBytes 4 d ++ rest) layout =
      some { uint8Array := leBytes 4 a ++ leBytes 4 b ++ leBytes 4 c ++ leBytes 4 d ++ rest
             layout := normalizeLayout layout
             rowCount := a, rowStride := b, varOffset := c, flags := d } := by
  have h : At (leBytes 4 a ++ leBytes 4 b ++ leBytes 4 c ++ leBytes 4 d ++ rest) 0
      (leBytes 4 a ++ (leBytes 4 b ++ (leBytes 4 c ++ (leBytes 4 d ++ rest)))) := by
    simp only [List.append_assoc]
    exact at_append [] _
  have hstride := h.right
  have hvar := hstride.right
  have hflags := hvar.right
  simp only [length_leBytes, Nat.zero_add, Nat.reduceAdd] at hstride hvar hflags
  unfold ResultSet.new
  rw [getUint32_of_at h.left ha, getUint32_of_at hstride.left hb, getUint32_of_at hvar.left hc,
    getUint32_of_at hflags.left hd]
  rfl

theorem finish_spec {encoder : BinaryEncoder} (h : Encoded layout rows encoder)
    (hcount : rows.length < 2 ^ 32) (hstride : layout.rowStride < 2 ^ 32)
    (hfixed : encoder.buffer.length < 2 ^ 32) (hvar : encoder.varBuffer.length < 2 ^ 32) :
    ∃ buffer rs, encoder.finish = some buffer ∧
      buffer.length = encoder.buffer.length + encoder.varBuffer.length ∧
      ResultSet.new buffer layout = some rs ∧ rs.Holds layout rows := by
  obtain ⟨rfl, hrowCount, hlength, hrows, hnulls⟩ := h
  have hheader : headerSize ≤ encoder.buffer.length := by omega
  have hflags : (if encoder.hasNulls then hasNullsFlag else 0) < 2 ^ 32 := by
    split <;> decide
  obtain ⟨fixed, hfixedEq⟩ : ∃ fixed, fixed = leBytes 4 encoder.rowCount ++
      leBytes 4 encoder.layout.rowStride ++ leBytes 4 encoder.buffer.length ++
      leBytes 4 (if encoder.hasNulls then hasNullsFlag else 0) ++
      encoder.buffer.drop headerSize := ⟨_, rfl⟩
  have hfixedLength : fixed.length = encoder.buffer.length := by
    simp only [hfixedEq, List.length_append, length_leBytes, List.length_drop]
    unfold headerSize at hheader ⊢
    omega
  have hfinish : encoder.finish = some (fixed ++ encoder.varBuffer) := by
    rw [hfixedEq]
    exact if_pos hheader
  have hnew : ResultSet.new (fixed ++ encoder.varBuffer) encoder.layout = some
      { uint8Array := fixed ++ encoder.varBuffer
        layout := normalizeLayout encoder.layout
        rowCount := encoder.rowCount
        rowStride := encoder.layout.rowStride
        varOffset := encoder.buffer.length
        flags := if encoder.hasNulls then hasNullsFlag else 0 } := by
    rw [hfixedEq, List.append_assoc _ (encoder.buffer.drop headerSize)]
    exact new_of_header _ (hrowCount ▸ hcount) hstride hfixed hflags _
  refine ⟨_, _, hfinish, by rw [List.length_append, hfixedLength], hnew, ?_⟩
  refine ⟨rfl, hrowCount, rfl, hlength, ⟨fixed, encoder.varBuffer, rfl, hfixedLength, hvar, ?_⟩, ?_⟩
  · intro r row hrow
    have hkeeps : Keeps headerSize encoder.buffer fixed := by
      apply keeps_of_drop_eq
      rw [hfixedEq]
      exact List.drop_left' (by simp only [List.length_append, length_leBytes]; rfl)
    have := (hrows r row hrow).keeps (hkeeps.trans (keeps_append _ _ encoder.varBuffer))
      (Nat.le_add_right _ _) []
    rwa [List.append_nil] at this
  · intro hflags row hrow c hc
    rw [Bool.eq_false_iff]
    intro hnull
    rw [hnulls row hrow c hc hnull] at hflags
    contradiction

variable {rs : ResultSet}

theorem isNull_of_holds (h : rs.Holds layout rows) {r c : Nat} {row : Row Scalar}
    (hrow : rows[r]? = some row) (hc : c < layout.columns.length) :
    rs.isNull r c = some (isNullCell row c) := by
  obtain ⟨fixed, var, -, -, -, hrows⟩ := h.rowAt
  unfold ResultSet.isNull
  split
  next hflags => rw [h.hasNulls hflags row (List.mem_of_getElem? hrow) c hc]
  next =>
    have hmask := (hrows r row hrow).mask c hc
    rw [h.rowStride]
    change (rs.uint8Array[_]?).bind _ = _
    rw [← hmask]
    unfold maskBit
    cases rs.uint8Array[headerSize + r * layout.rowStride + c / 8]? <;> rfl

theorem getValue_eq (rs : ResultSet) (r : Nat) {c : Nat} {col : ColumnLayout}
    (hlayout : rs.layout = normalizeLayout layout) (hcol : layout.columns[c]? = some col) :
    rs.getValue host r c = rs.getUnlessNull (fun offset => readTyped host rs offset col.dataType) r c := by
  have htype : rs.layout.columnTypes[c]? = some col.dataType.code := by
    rw [hlayout]
    change (layout.columns.map _)[c]? = _
    rw [List.getElem?_map, hcol, Option.map_some]
  unfold ResultSet.getValue
  rw [htype]
  cases col.dataType <;> rfl

theorem getValueOffset_of_holds (h : rs.Holds layout rows) (r : Nat) {c : Nat}
    {col : ColumnLayout} (hcol : layout.columns[c]? = some col) :
    rs.getValueOffset r c =
      headerSize + r * layout.rowStride + layout.nullMaskSize + col.offset := by
  have hoffset : rs.layout.columnOffsets[c]? = some col.offset := by
    rw [h.sameLayout]
    change (layout.columns.map ColumnLayout.offset)[c]? = _
    rw [List.getElem?_map, hcol]
    rfl
  unfold ResultSet.getValueOffset
  rw [hoffset, h.sameLayout, h.rowStride]
  rfl

theorem getD_of_isNullCell {row : Row Scalar} {c : Nat} (h : isNullCell row c = true) :
    (row.get c).getD none = none := by
  unfold isNullCell at h
  split at h
  next => contradiction
  next hnone =>
    match hget : row.get c with
    | none => rfl
    | some none => rfl
    | some (some value) => exact absurd hget (hnone value)

theorem getValue_of_holds (h : rs.Holds layout rows) {r c : Nat}
    {row : Row Scalar} {col : ColumnLayout} (hrow : rows[r]? = some row)
    (hcol : layout.columns[c]? = some col) (htyped : RowTyped layout row)
    (hplain : ∀ value, row.get c = some (some value) → Plain host value) :
    rs.getValue host r c = some (valueToJs host ((row.get c).getD none)) := by
  have hc : c < layout.columns.length := (List.getElem?_eq_some_iff.mp hcol).1
  rw [getValue_eq rs r h.sameLayout hcol]
  unfold ResultSet.getUnlessNull
  rw [isNull_of_holds h hrow hc]
  dsimp only [Option.bind_eq_bind, Option.bind_some]
  cases hnull : isNullCell row c with
  | true => rw [if_pos rfl, getD_of_isNullCell hnull]; rfl
  | false =>
    obtain ⟨value, hvalue⟩ := exists_get_of_isNullCell hnull
    obtain ⟨fixed, var, hview, hlen, hvar, hrows⟩ := h.rowAt
    have hcell := (hrows r row hrow).cells c col hcol value hvalue
    have hoffset : rs.getValueOffset r c =
        headerSize + r * layout.rowStride + layout.nullMaskSize + col.offset :=
      getValueOffset_of_holds h r hcol
    rw [if_neg (by decide), hoffset, hvalue, ← htyped c col hcol value hvalue]
    exact readTyped_of_cellAt hview hlen.symm hvar hcell (hplain value hvalue)

/-- The generic row decoder reads a column as `getValue` does. -/
theorem genericColumn_eq (h : rs.Holds layout rows) (r : Nat) {c : Nat} {col : ColumnLayout}
    (hcol : layout.columns[c]? = some col) :
    rs.genericColumn host r c col.offset col.dataType.code = rs.getValue host r c := by
  rw [getValue_eq rs r h.sameLayout hcol]
  unfold ResultSet.getUnlessNull ResultSet.genericColumn ResultSet.isNull
  rw [getValueOffset_of_holds h r hcol, h.rowStride, h.sameLayout]
  by_cases hflags : rs.flags = 0
  · rw [if_pos hflags, hflags]
    dsimp only [bne_self_eq_false, Bool.false_eq_true]
    cases col.dataType <;> rfl
  · rw [if_neg hflags, bne_iff_ne.mpr hflags]
    change Option.bind (Option.map _ _) _ = Option.bind (Option.bind _ _) _
    cases getUint8 rs.uint8Array (headerSize + r * layout.rowStride + c / 8) with
    | none => rfl
    | some byte =>
      dsimp only [Option.map_some, Option.bind_some]
      cases col.dataType <;> rfl

theorem mapM_eq_some_map {A B : Type} {f : A → Option B} {g : A → B} :
    ∀ {xs : List A}, (∀ a ∈ xs, f a = some (g a)) → xs.mapM f = some (xs.map g)
  | [], _ => rfl
  | a :: xs, h => by
    rw [List.mapM_cons, h a List.mem_cons_self,
      mapM_eq_some_map fun b hb => h b (List.mem_cons_of_mem _ hb)]
    rfl

/-- The row decoder assigns the columns in their order. -/
theorem genericGet_of_holds (h : rs.Holds layout rows) {r : Nat} {values : Nat → JsValue O}
    (hvalues : ∀ c < layout.columns.length, rs.getValue host r c = some (values c)) :
    rs.genericGet host r =
      some (layout.columns.zipIdx.map fun (col, c) => (col.name, values c)) := by
  unfold ResultSet.genericGet
  rw [h.sameLayout]
  have hnames : (normalizeLayout layout).columnNames.length = layout.columns.length :=
    List.length_map _
  rw [hnames, mapM_eq_some_map (g := fun c => ((layout.columns[c]?).elim "" ColumnLayout.name,
    values c))]
  · congr 1
    apply List.ext_getElem?
    intro c
    rw [List.getElem?_map, List.getElem?_map, List.getElem?_zipIdx]
    obtain hc | hc := Nat.lt_or_ge c layout.columns.length
    · rw [List.getElem?_range hc, List.getElem?_eq_getElem hc, Nat.zero_add, Option.map_some,
        Option.map_some, Option.map_some, List.getElem?_eq_getElem hc]
      rfl
    · rw [List.getElem?_eq_none (by rwa [List.length_range]), List.getElem?_eq_none hc]
      rfl
  · intro c hc
    have hc := List.mem_range.mp hc
    have hcol := List.getElem?_eq_getElem hc
    have hvalue := hvalues c hc
    rw [← genericColumn_eq h r hcol] at hvalue
    unfold normalizeLayout
    simp only [List.getElem?_map, hcol, Option.map_some, Option.bind_eq_bind, Option.bind_some]
    rw [hvalue]
    rfl

/-- What a cell is read as is null for a `Null`, a missing value and a JSON text that
`JSON.parse` makes `null` of. -/
theorem valueToJs_eq_null {value : Value Scalar} (hplain : ∀ a, value = some a → Plain host a) :
    valueToJs host value = .null ↔ value = none ∨
      ∃ s, value = some (.jsonb ⟨utf8Bytes s⟩) ∧ host.jsonParse s = some .null := by
  match value with
  | none => exact ⟨fun _ => .inl rfl, fun _ => rfl⟩
  | some (.jsonb ⟨data⟩) =>
    obtain ⟨s, rfl, -, -, hparse⟩ := hplain _ rfl
    obtain ⟨json, hjson⟩ := Option.isSome_iff_exists.mp hparse
    have hread : valueToJs host (some (.jsonb ⟨utf8Bytes s⟩)) = json := by
      change (match ofUtf8? (utf8Bytes s) with
        | some s => (host.jsonParse s).getD .null
        | none => .null) = json
      rw [ofUtf8?_utf8Bytes]
      dsimp only
      rw [hjson, Option.getD_some]
    rw [hread]
    refine ⟨fun h => .inr ⟨s, rfl, h ▸ hjson⟩, ?_⟩
    rintro (h | ⟨s', h, hnull⟩)
    · contradiction
    · injection h with h
      injection h with h
      injection h with h
      have hs : s = s' := by
        have := congrArg ofUtf8? h
        rwa [ofUtf8?_utf8Bytes, ofUtf8?_utf8Bytes, Option.some.injEq] at this
      rw [← hs, hjson] at hnull
      exact Option.some.inj hnull
  | some (.boolean _) | some (.int32 _) | some (.int64 _) | some (.float64 _)
  | some (.string _) | some (.dateTime _) | some (.bytes _) =>
    refine ⟨nofun, ?_⟩
    rintro (h | ⟨s, h, -⟩)
    · contradiction
    · injection h with h
      contradiction

/-- A result of the encoder is read back value by value, by column and by row. -/
theorem decode_encode (host : Host O) (source : SchemaLayout.Source) (rows : List (Row Scalar))
    (htyped : ∀ row ∈ rows, RowTyped (.ofSource source) row)
    (hplain : ∀ row ∈ rows, ∀ c value, row.get c = some (some value) → Plain host value)
    (hcount : rows.length < 2 ^ 32) (hstride : (SchemaLayout.ofSource source).rowStride < 2 ^ 32) :
    let layout := SchemaLayout.ofSource source
    ∃ encoder, (BinaryEncoder.new layout).encodeRowRefsIter rows = some encoder ∧
      (encoder.buffer.length < 2 ^ 32 → encoder.varBuffer.length < 2 ^ 32 →
        ∃ buffer rs, encodeRowsToBinary layout rows = some buffer ∧
          ResultSet.new buffer layout = some rs ∧
          rs.rowCount = rows.length ∧ rs.rowStride = layout.rowStride ∧
          rs.varOffset = headerSize + rows.length * layout.rowStride ∧
          buffer.length = rs.varOffset + encoder.varBuffer.length ∧
          ∀ r row, rows[r]? = some row →
            rs.genericGet host r = some (layout.columns.zipIdx.map fun (col, c) =>
              (col.name, valueToJs host ((row.get c).getD none))) ∧
            ∀ c < layout.columns.length,
              rs.getValue host r c = some (valueToJs host ((row.get c).getD none)) ∧
              (rs.getValue host r c = some .null ↔ (row.get c).getD none = none ∨
                ∃ s, (row.get c).getD none = some (.jsonb ⟨utf8Bytes s⟩) ∧
                  host.jsonParse s = some .null)) := by
  intro layout
  have hwf := SchemaLayout.wellFormed_ofSource source
  obtain ⟨encoder, hencoder, hencoded⟩ := encodeRowRefsIter_spec hwf htyped
  refine ⟨encoder, hencoder, fun hfixed hvar => ?_⟩
  obtain ⟨buffer, rs, hfinish, hlength, hnew, hholds⟩ :=
    finish_spec hencoded hcount hstride hfixed hvar
  refine ⟨buffer, rs, ?_, hnew, hholds.rowCount, hholds.rowStride, hholds.varOffset, ?_, ?_⟩
  · unfold encodeRowsToBinary
    rw [hencoder]
    exact hfinish
  · rw [hlength, hholds.varOffset, hencoded.length]
  · intro r row hrow
    have hmem := List.mem_of_getElem? hrow
    have hvalues : ∀ c < layout.columns.length,
        rs.getValue host r c = some (valueToJs host ((row.get c).getD none)) := fun c hc =>
      getValue_of_holds hholds hrow (List.getElem?_eq_getElem hc) (htyped row hmem)
        fun value hvalue => hplain row hmem c value hvalue
    refine ⟨genericGet_of_holds hholds hvalues, fun c hc => ⟨hvalues c hc, ?_⟩⟩
    rw [hvalues c hc, Option.some.injEq]
    apply valueToJs_eq_null
    intro a ha
    cases hget : row.get c with
    | none => rw [hget] at ha; contradiction
    | some value =>
      rw [hget] at ha
      exact hplain row hmem c a (hget.trans (congrArg some ha))

section Documents

def documents : Table := ⟨[⟨"id", .int32, false⟩, ⟨"doc", .jsonb, true⟩]⟩

/-- A host that knows one JSON text besides `null`. -/
def nullHost : Host Unit where
  jsonParse s := if s = "null" then some .null else if s = "1" then some (.number 1) else none
  decodeMalformed _ := ""

def documentRow (text : String) : Row Scalar :=
  .new 1 [some (.int32 7), some (.jsonb ⟨utf8Bytes text⟩)]

theorem rowTyped_documentRow (text : String) :
    RowTyped (.ofSource (.schema documents)) (documentRow text) := by
  intro c col hcol value hvalue
  match c with
  | 0 | 1 =>
    cases hcol
    cases hvalue
    rfl
  | c + 2 => exact absurd hvalue nofun

theorem plain_documentRow {text : String} (hne : text ≠ "") (hmark : ¬ StartsWithByteOrderMark text)
    (hparse : (nullHost.jsonParse text).isSome) :
    ∀ c value, (documentRow text).get c = some (some value) → Plain nullHost value := by
  intro c value hvalue
  match c with
  | 0 =>
    cases hvalue
    trivial
  | 1 =>
    cases hvalue
    exact ⟨text, rfl, hne, hmark, hparse⟩
  | c + 2 => exact absurd hvalue nofun

theorem documents_size {text : String} {encoder : BinaryEncoder}
    (h : (BinaryEncoder.new (.ofSource (.schema documents))).encodeRowRefsIter
      [documentRow text] = some encoder) :
    encoder.buffer.length = 29 ∧ encoder.varBuffer = utf8Bytes text := by
  cases h
  exact ⟨rfl, rfl⟩

theorem decode_encode_documents :
    ∃ buffer rs, encodeRowsToBinary (.ofSource (.schema documents)) [documentRow "1"] =
        some buffer ∧
      ResultSet.new buffer (.ofSource (.schema documents)) = some rs ∧
      rs.getValue nullHost 0 1 = some (.number 1) := by
  obtain ⟨encoder, hencoder, hdecode⟩ := decode_encode nullHost (.schema documents)
    [documentRow "1"] (by rintro row (_ | ⟨_, ⟨⟩⟩); exact rowTyped_documentRow "1")
    (by
      rintro row (_ | ⟨_, ⟨⟩⟩)
      exact plain_documentRow (by decide) (by decide) (by decide))
    (by decide) (by decide)
  obtain ⟨hfixed, hvar⟩ := documents_size hencoder
  obtain ⟨buffer, rs, hbuffer, hnew, -, -, -, -, hread⟩ :=
    hdecode (by rw [hfixed]; decide) (by rw [hvar]; decide)
  refine ⟨buffer, rs, hbuffer, hnew, ((hread 0 _ rfl).2 1 (by decide)).1.trans ?_⟩
  change some (match ofUtf8? (utf8Bytes "1") with
    | some s => (nullHost.jsonParse s).getD .null
    | none => .null) = _
  rw [ofUtf8?_utf8Bytes]
  rfl

/-- The JSON text `null` is not `Null` and is read as null. -/
theorem json_null_read_as_null :
    (documentRow "null").get 1 = some (some (.jsonb ⟨utf8Bytes "null"⟩)) ∧
      ∃ buffer rs, encodeRowsToBinary (.ofSource (.schema documents)) [documentRow "null"] =
          some buffer ∧
        ResultSet.new buffer (.ofSource (.schema documents)) = some rs ∧
        rs.getValue nullHost 0 1 = some .null := by
  refine ⟨rfl, ?_⟩
  have htyped := rowTyped_documentRow "null"
  have hrows : ∀ row ∈ [documentRow "null"], RowTyped (.ofSource (.schema documents)) row := by
    rintro row (_ | ⟨_, ⟨⟩⟩)
    exact htyped
  obtain ⟨encoder, hencoder, hencoded⟩ :=
    encodeRowRefsIter_spec (SchemaLayout.wellFormed_ofSource _) hrows
  obtain ⟨hfixed, hvar⟩ := documents_size hencoder
  obtain ⟨buffer, rs, hfinish, -, hnew, hholds⟩ := finish_spec hencoded (by decide) (by decide)
    (by rw [hfixed]; decide) (by rw [hvar]; decide)
  refine ⟨buffer, rs, ?_, hnew, ?_⟩
  · unfold encodeRowsToBinary
    rw [hencoder]
    exact hfinish
  · have hplain := @plain_documentRow "null" (by decide) (by decide) (by decide) 1
    refine (getValue_of_holds hholds rfl (List.getElem?_eq_getElem (by decide)) htyped
      hplain).trans ?_
    change some (match ofUtf8? (utf8Bytes "null") with
      | some s => (nullHost.jsonParse s).getD .null
      | none => .null) = _
    rw [ofUtf8?_utf8Bytes]
    rfl

end Documents

end Decoding

end Cynos.Binary
