import Cynos.Jsonb.Binary

/-! Decoding of arbitrary bytes: what their lengths and counts must be for no check to fail. -/
namespace Cynos.Jsonb

/-- A length or a count as it stands in the data. -/
structure Header where
  counts : Bool
  bytes : Nat
  value : Nat
  next : Nat

/-- It has no byte too many, and as a count it is no larger than the data, as a length it does
not lead past the largest position there is. -/
def Header.Good (machine : Machine) (size : Nat) (header : Header) : Prop :=
  (header.bytes = 0 ∨ 7 * (header.bytes - 1) < machine.usizeBits) ∧
    if header.counts then header.value ≤ size
    else header.next + header.value < 2 ^ machine.usizeBits

instance (machine : Machine) (size : Nat) : DecidablePred (Header.Good machine size) :=
  fun _ => inferInstanceAs (Decidable (_ ∧ _))

section Skim

variable (machine : Machine) (data : List UInt8)

def header (counts : Bool) (pos : Nat) : Header :=
  let spelling := Varint.read (data.drop pos)
  ⟨counts, spelling.2, spelling.1 % 2 ^ machine.usizeBits, pos + spelling.2⟩

section Loops

variable (skim : Nat → List Header × Nat)

def skimItems : Nat → Nat → List Header × Nat
  | 0, pos => ([], pos)
  | count + 1, pos =>
    let item := skim pos
    let rest := skimItems count item.2
    (item.1 ++ rest.1, rest.2)

def skimEntries : Nat → Nat → List Header × Nat
  | 0, pos => ([], pos)
  | count + 1, pos =>
    let key := header machine data false pos
    if key.next + key.value > data.length then ([key], key.next)
    else
      let val := skim (key.next + key.value)
      let rest := skimEntries count val.2
      (key :: (val.1 ++ rest.1), rest.2)

def skimTagged (tag : UInt8) (pos : Nat) : List Header × Nat :=
  if tag = tagNumber then ([], if pos + 8 > data.length then pos else pos + 8)
  else if tag = tagString then
    let len := header machine data false pos
    ([len], if len.next + len.value > data.length then len.next else len.next + len.value)
  else if tag = tagArray then
    let count := header machine data true pos
    let items := skimItems skim count.value count.next
    (count :: items.1, items.2)
  else if tag = tagObject then
    let count := header machine data true pos
    let entries := skimEntries machine data skim count.value count.next
    (count :: entries.1, entries.2)
  else ([], pos)

end Loops

def skimValue : Nat → Nat → List Header × Nat
  | 0, pos => ([], pos)
  | depth + 1, pos =>
    if h : pos < data.length then skimTagged machine data (skimValue depth) data[pos] (pos + 1)
    else ([], pos)

/-- The lengths and counts of the data, in the order in which they are met. -/
def headers : List Header := (skimValue machine data (data.length + 1) 0).1

end Skim

section Bounds

variable {machine : Machine} {data : List UInt8} {skim : Nat → List Header × Nat} {pos : Nat}

/-- A position of the data that is not before another one. -/
def Reaches (data : List UInt8) (pos next : Nat) : Prop := pos ≤ next ∧ next ≤ data.length

theorem header_next (counts : Bool) (hpos : pos ≤ data.length) :
    Reaches data pos (header machine data counts pos).next := by
  have hread := Varint.read_length_le (data.drop pos)
  rw [List.length_drop] at hread
  refine ⟨Nat.le_add_right _ _, ?_⟩
  change pos + _ ≤ _
  omega

theorem skimItems_next (hskim : ∀ pos ≤ data.length, Reaches data pos (skim pos).2)
    (hpos : pos ≤ data.length) (count : Nat) : Reaches data pos (skimItems skim count pos).2 := by
  induction count generalizing pos with
  | zero => exact ⟨le_rfl, hpos⟩
  | succ count ih =>
    have hitem := hskim pos hpos
    have hrest := ih hitem.2
    exact ⟨hitem.1.trans hrest.1, hrest.2⟩

theorem skimEntries_next (hskim : ∀ pos ≤ data.length, Reaches data pos (skim pos).2)
    (hpos : pos ≤ data.length) (count : Nat) :
    Reaches data pos (skimEntries machine data skim count pos).2 := by
  induction count generalizing pos with
  | zero => exact ⟨le_rfl, hpos⟩
  | succ count ih =>
    have hkey := @header_next machine data pos false hpos
    rw [skimEntries]
    dsimp only
    split_ifs with h
    · exact hkey
    · have hval := hskim _ (Nat.not_lt.mp h)
      have hrest := ih hval.2
      exact ⟨hkey.1.trans ((Nat.le_add_right _ _).trans (hval.1.trans hrest.1)), hrest.2⟩

theorem skimTagged_next (hskim : ∀ pos ≤ data.length, Reaches data pos (skim pos).2)
    (hpos : pos ≤ data.length) (tag : UInt8) :
    Reaches data pos (skimTagged machine data skim tag pos).2 := by
  rw [skimTagged]
  split_ifs with hnumber hshort hstring harray
  · exact ⟨le_rfl, hpos⟩
  · exact ⟨Nat.le_add_right _ _, Nat.not_lt.mp hshort⟩
  · dsimp only
    have hlen := @header_next machine data pos false hpos
    split_ifs with h
    · exact hlen
    · exact ⟨hlen.1.trans (Nat.le_add_right _ _), Nat.not_lt.mp h⟩
  · have hcount := @header_next machine data pos true hpos
    have hitems := skimItems_next hskim hcount.2 (header machine data true pos).value
    exact ⟨hcount.1.trans hitems.1, hitems.2⟩
  · have hcount := @header_next machine data pos true hpos
    have hentries := @skimEntries_next machine data skim _ hskim hcount.2
      (header machine data true pos).value
    exact ⟨hcount.1.trans hentries.1, hentries.2⟩
  · exact ⟨le_rfl, hpos⟩

theorem skimValue_next (depth : Nat) (hpos : pos ≤ data.length) :
    Reaches data pos (skimValue machine data depth pos).2 := by
  induction depth generalizing pos with
  | zero => exact ⟨le_rfl, hpos⟩
  | succ depth ih =>
    rw [skimValue]
    split_ifs with h
    · have htagged := @skimTagged_next machine data _ (pos + 1) (fun _ => ih) h data[pos]
      exact ⟨(Nat.le_succ _).trans htagged.1, htagged.2⟩
    · exact ⟨le_rfl, hpos⟩

end Bounds

section Follows

variable {machine : Machine} {size : Nat}

/-- A run succeeds at the position foreseen when every length and count is good, and fails
otherwise. -/
inductive Follows (machine : Machine) (size : Nat) {A : Type} :
    Outcome (A × Nat) → List Header × Nat → Prop
  | ok {value : A} {headers : List Header} {next : Nat}
      (good : ∀ h ∈ headers, h.Good machine size) : Follows machine size (.ok (value, next)) (headers, next)
  | error {fault : Fault} {headers : List Header} {next : Nat} {header : Header}
      (mem : header ∈ headers) (bad : ¬ header.Good machine size) :
      Follows machine size (.error fault) (headers, next)

theorem Follows.bind {A B : Type} {run : Outcome (A × Nat)} {cont : A × Nat → Outcome (B × Nat)}
    {headers rest : List Header} {next last : Nat} (h : Follows machine size run (headers, next))
    (hcont : ∀ value, Follows machine size (cont (value, next)) (rest, last)) :
    Follows machine size (run.bind cont) (headers ++ rest, last) := by
  cases h with
  | @ok value _ _ good =>
    have hrest := hcont value
    change Follows machine size (cont (value, next)) (headers ++ rest, last)
    generalize cont (value, next) = out at hrest
    cases hrest with
    | ok good' =>
      exact .ok fun h hmem => (List.mem_append.mp hmem).elim (good h) (good' h)
    | error mem bad => exact .error (List.mem_append_right _ mem) bad
  | error mem bad => exact .error (List.mem_append_left _ mem) bad

theorem Follows.cons {A : Type} {run : Outcome (A × Nat)} {headers : List Header} {next : Nat}
    {header : Header} (hgood : header.Good machine size)
    (h : Follows machine size run (headers, next)) :
    Follows machine size run (header :: headers, next) := by
  cases h with
  | ok good => exact .ok (List.forall_mem_cons.mpr ⟨hgood, good⟩)
  | error mem bad => exact .error (List.mem_cons_of_mem _ mem) bad

theorem Follows.map {A B : Type} {run : Outcome (A × Nat)} {headers : List Header} {next : Nat}
    (h : Follows machine size run (headers, next)) (f : A → B) :
    Follows machine size (run.bind fun result => .ok (f result.1, result.2)) (headers, next) := by
  cases h with
  | ok good => exact .ok good
  | error mem bad => exact .error mem bad

theorem Follows.nil {A : Type} (value : A) (next : Nat) :
    Follows machine size (.ok (value, next)) ([], next) :=
  .ok fun _ h => absurd h List.not_mem_nil

theorem Follows.iff_exists {A : Type} {run : Outcome (A × Nat)} {headers : List Header} {next : Nat}
    (h : Follows machine size run (headers, next)) :
    (∃ value, run = .ok value) ↔ ∀ h ∈ headers, h.Good machine size := by
  cases h with
  | ok good => exact iff_of_true ⟨_, rfl⟩ good
  | error mem bad =>
    refine iff_of_false ?_ fun hall => bad (hall _ mem)
    rintro ⟨value, hvalue⟩
    cases hvalue

end Follows

section Decode

variable {machine : Machine} {data : List UInt8} {pos : Nat}

theorem decodeVarint_header (pos : Nat) (counts : Bool) : decodeVarint machine data pos =
    if (header machine data counts pos).bytes = 0 ∨
        7 * ((header machine data counts pos).bytes - 1) < machine.usizeBits then
      .ok ((header machine data counts pos).value, (header machine data counts pos).next)
    else .error .shift := by
  rw [decodeVarint_eq, spelled, Nat.zero_add, Nat.zero_add, pow_zero, Nat.one_mul]
  rfl

/-- What is decoded behind a length. -/
theorem follows_length {A : Type} {cont : Nat × Nat → Nat → Outcome (A × Nat)}
    {rest : List Header} {last : Nat} (hcont : Follows machine data.length
      (cont ((header machine data false pos).value, (header machine data false pos).next)
        ((header machine data false pos).next + (header machine data false pos).value)) (rest, last)) :
    Follows machine data.length ((decodeVarint machine data pos).bind fun len =>
        (add machine len.2 len.1).bind (cont len))
      (header machine data false pos :: rest, last) := by
  rw [decodeVarint_header pos false]
  by_cases hbytes : (header machine data false pos).bytes = 0 ∨
      7 * ((header machine data false pos).bytes - 1) < machine.usizeBits
  · rw [if_pos hbytes]
    change Follows machine data.length ((add machine _ _).bind (cont (_, _))) _
    by_cases hadd : (header machine data false pos).next + (header machine data false pos).value <
        2 ^ machine.usizeBits
    · rw [add, if_pos hadd]
      exact .cons ⟨hbytes, hadd⟩ hcont
    · rw [add, if_neg hadd]
      exact .error List.mem_cons_self fun hgood => hadd hgood.2
  · rw [if_neg hbytes]
    exact .error List.mem_cons_self fun hgood => hbytes hgood.1

/-- What is decoded behind a count, when the allocator grants what the data could fill. -/
theorem follows_count {A : Type} {cont : Nat × Nat → Outcome (A × Nat)} {rest : List Header}
    {last : Nat} (hcont : Follows machine data.length
      (cont ((header machine data true pos).value, (header machine data true pos).next))
      (rest, last)) :
    Follows machine data.length ((decodeVarint machine data pos).bind fun count =>
        (withCapacity data.length count.1).bind fun _ => cont count)
      (header machine data true pos :: rest, last) := by
  rw [decodeVarint_header pos true]
  by_cases hbytes : (header machine data true pos).bytes = 0 ∨
      7 * ((header machine data true pos).bytes - 1) < machine.usizeBits
  · rw [if_pos hbytes]
    change Follows machine data.length ((withCapacity _ _).bind fun _ => cont (_, _)) _
    by_cases hcount : (header machine data true pos).value ≤ data.length
    · rw [withCapacity, if_pos hcount]
      exact .cons ⟨hbytes, hcount⟩ hcont
    · rw [withCapacity, if_neg hcount]
      exact .error List.mem_cons_self fun hgood => hcount hgood.2
  · rw [if_neg hbytes]
    exact .error List.mem_cons_self fun hgood => hbytes hgood.1

theorem slice_ok {start stop : Nat} (hle : start ≤ stop) (hstop : stop ≤ data.length) :
    slice data start stop = .ok ((data.drop start).take (stop - start)) := if_pos ⟨hle, hstop⟩

section Loops

variable {decode : Nat → Outcome (JsonbValue × Nat)} {skim : Nat → List Header × Nat}

theorem decodeItems_follows (hskim : ∀ pos ≤ data.length, Reaches data pos (skim pos).2)
    (hpos : pos ≤ data.length) (hdecode : ∀ next, Reaches data pos next →
      Follows machine data.length (decode next) (skim next)) (count : Nat) :
    Follows machine data.length (decodeItems decode count pos) (skimItems skim count pos) := by
  induction count generalizing pos with
  | zero => exact .ok fun h hmem => absurd hmem List.not_mem_nil
  | succ count ih =>
    have hitem := hskim pos hpos
    have hrest : Follows machine data.length (decodeItems decode count (skim pos).2)
        (skimItems skim count (skim pos).2) :=
      ih hitem.2 fun next hnext => hdecode next ⟨hitem.1.trans hnext.1, hnext.2⟩
    exact Follows.bind (hdecode pos ⟨le_rfl, hpos⟩) fun item => hrest.map (item :: ·)

theorem decodeEntries_succ (count : Nat) (obj : JsonbObject) (pos : Nat) :
    decodeEntries machine data decode (count + 1) obj pos =
      (decodeVarint machine data pos).bind fun len => (add machine len.2 len.1).bind fun stop =>
        if stop > data.length then .ok (obj, len.2)
        else (slice data len.2 stop).bind fun bytes => (decode stop).bind fun val =>
          decodeEntries machine data decode count (Entries.insert obj (fromUtf8Lossy bytes) val.1)
            val.2 := rfl

theorem decodeEntries_follows (hskim : ∀ pos ≤ data.length, Reaches data pos (skim pos).2)
    (hpos : pos ≤ data.length) (hdecode : ∀ next, Reaches data pos next →
      Follows machine data.length (decode next) (skim next)) (count : Nat) (obj : JsonbObject) :
    Follows machine data.length (decodeEntries machine data decode count obj pos)
      (skimEntries machine data skim count pos) := by
  induction count generalizing pos obj with
  | zero => exact .nil obj pos
  | succ count ih =>
    have hkey := @header_next machine data pos false hpos
    have hstop := Nat.le_add_right (header machine data false pos).next
      (header machine data false pos).value
    rw [skimEntries, decodeEntries_succ]
    dsimp only
    by_cases hend : (header machine data false pos).next + (header machine data false pos).value >
        data.length
    · rw [if_pos hend]
      refine follows_length ?_
      rw [if_pos hend]
      exact .nil obj _
    · rw [if_neg hend]
      have hle := Nat.not_lt.mp hend
      have hval := hskim _ hle
      refine follows_length ?_
      rw [if_neg hend, slice_ok hstop hle]
      refine Follows.bind (hdecode _ ⟨hkey.1.trans hstop, hle⟩) fun val => ?_
      exact ih hval.2 (fun next hnext => hdecode next
        ⟨hkey.1.trans (hstop.trans (hval.1.trans hnext.1)), hnext.2⟩) _

variable (hdata : data.length < 2 ^ (machine.usizeBits - 1))
include hdata

theorem decodeTagged_follows (hskim : ∀ pos ≤ data.length, Reaches data pos (skim pos).2)
    (hpos : pos ≤ data.length) (hdecode : ∀ next, Reaches data pos next →
      Follows machine data.length (decode next) (skim next)) (tag : UInt8) :
    Follows machine data.length (decodeTagged machine data.length data decode tag pos)
      (skimTagged machine data skim tag pos) := by
  rw [decodeTagged, skimTagged]
  by_cases hnull : tag = tagNull
  · subst hnull
    exact .nil _ _
  rw [if_neg hnull]
  by_cases hfalse : tag = tagFalse
  · subst hfalse
    exact .nil _ _
  rw [if_neg hfalse]
  by_cases htrue : tag = tagTrue
  · subst htrue
    exact .nil _ _
  rw [if_neg htrue]
  by_cases hnumber : tag = tagNumber
  · rw [if_pos hnumber, if_pos hnumber]
    have hpow := pow_pred_lt machine
    rw [add, if_pos (by omega)]
    change Follows _ _ (if pos + 8 > data.length then _ else _) _
    by_cases hend : pos + 8 > data.length
    · rw [if_pos hend, if_pos hend]
      exact .nil _ _
    · rw [if_neg hend, if_neg hend, slice_ok (Nat.le_add_right _ _) (Nat.not_lt.mp hend)]
      exact .nil _ _
  rw [if_neg hnumber, if_neg hnumber]
  by_cases hstring : tag = tagString
  · rw [if_pos hstring, if_pos hstring]
    refine follows_length ?_
    by_cases hend : (header machine data false pos).next + (header machine data false pos).value >
        data.length
    · rw [if_pos hend, if_pos hend]
      exact .nil _ _
    · rw [if_neg hend, if_neg hend, slice_ok (Nat.le_add_right _ _) (Nat.not_lt.mp hend)]
      exact .nil _ _
  rw [if_neg hstring, if_neg hstring]
  by_cases harray : tag = tagArray
  · rw [if_pos harray, if_pos harray]
    have hcount := @header_next machine data pos true hpos
    refine follows_count ?_
    exact (decodeItems_follows hskim hcount.2
      (fun next hnext => hdecode next ⟨hcount.1.trans hnext.1, hnext.2⟩) _).map JsonbValue.array
  rw [if_neg harray, if_neg harray]
  by_cases hobject : tag = tagObject
  · rw [if_pos hobject, if_pos hobject]
    have hcount := @header_next machine data pos true hpos
    refine follows_count ?_
    exact (decodeEntries_follows hskim hcount.2
      (fun next hnext => hdecode next ⟨hcount.1.trans hnext.1, hnext.2⟩) _ []).map JsonbValue.object
  rw [if_neg hobject, if_neg hobject]
  exact .nil _ _

theorem decodeValue_follows {depth : Nat} (hpos : pos ≤ data.length) (hdepth : data.length - pos < depth) :
    Follows machine data.length (decodeValue machine data.length data depth pos)
      (skimValue machine data depth pos) := by
  induction depth generalizing pos with
  | zero => exact absurd hdepth (Nat.not_lt_zero _)
  | succ depth ih =>
    rw [decodeValue, skimValue]
    by_cases h : pos < data.length
    · rw [dif_pos h, dif_pos h]
      refine decodeTagged_follows hdata (fun next hnext => skimValue_next depth hnext) h
        (fun next hnext => ih hnext.2 ?_) _
      have := hnext.1
      omega
    · rw [dif_neg h, dif_neg h]
      exact .nil _ _

end Loops

end Decode

section Safety

variable {machine : Machine}

/-- The bytes are decoded with no overflow, no slice out of bounds, and no request for more
elements than there are bytes, exactly when no length or count they hold has a byte too many,
leads past the largest position or counts more than there are bytes. -/
theorem decode_safe_iff (binary : JsonbBinary machine) :
    (∃ value, binary.decode binary.data.length = .ok value) ↔
      ∀ h ∈ headers machine binary.data, h.Good machine binary.data.length := by
  have hfollows := @decodeValue_follows machine binary.data 0 binary.length_lt
    (binary.data.length + 1) (Nat.zero_le _) (by omega)
  unfold headers
  generalize skimValue machine binary.data (binary.data.length + 1) 0 = skim at hfollows
  obtain ⟨hs, next⟩ := skim
  rw [← hfollows.iff_exists]
  unfold JsonbBinary.decode
  cases decodeValue machine binary.data.length binary.data (binary.data.length + 1) 0 with
  | ok result => exact iff_of_true ⟨_, rfl⟩ ⟨_, rfl⟩
  | error fault =>
    refine iff_of_false ?_ ?_ <;>
    · rintro ⟨value, hvalue⟩
      cases hvalue

/-- An array that declares more items than it has bytes. -/
def hugeCount : JsonbBinary ⟨64, by decide⟩ := ⟨[5, 0xFF, 0xFF, 0xFF, 0xFF, 0x0F], by decide⟩

/-- A text whose length takes one byte more than ten. -/
def longVarint : JsonbBinary ⟨64, by decide⟩ :=
  ⟨[4, 0x80, 0x80, 0x80, 0x80, 0x80, 0x80, 0x80, 0x80, 0x80, 0x80, 0x00], by decide⟩

/-- A text that is said to end behind the largest position. -/
def hugeLength : JsonbBinary ⟨64, by decide⟩ :=
  ⟨[4, 0xFF, 0xFF, 0xFF, 0xFF, 0xFF, 0xFF, 0xFF, 0xFF, 0xFF, 0x01], by decide⟩

theorem malformed_decode : hugeCount.decode hugeCount.data.length = .error .capacity ∧
    longVarint.decode longVarint.data.length = .error .shift ∧
    hugeLength.decode hugeLength.data.length = .error .add := by
  refine ⟨?_, ?_, ?_⟩
  · have h : decodeVarint ⟨64, by decide⟩ hugeCount.data 1 = .ok (4294967295, 6) := by
      rw [decodeVarint_eq]
      rfl
    change (((decodeVarint _ _ 1).bind fun count => _).bind _) = _
    rw [h]
    rfl
  · have h : decodeVarint ⟨64, by decide⟩ longVarint.data 1 = .error .shift := by
      rw [decodeVarint_eq]
      rfl
    change (((decodeVarint _ _ 1).bind fun len => _).bind _) = _
    rw [h]
    rfl
  · have h : decodeVarint ⟨64, by decide⟩ hugeLength.data 1 = .ok (18446744073709551615, 11) := by
      rw [decodeVarint_eq]
      rfl
    change (((decodeVarint _ _ 1).bind fun len => _).bind _) = _
    rw [h]
    rfl

end Safety

end Cynos.Jsonb
