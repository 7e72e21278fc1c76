import Cynos.Jsonb.Object

/-! The operators `@>` and `||`, and objects under inserts and removes. -/
namespace Cynos.Jsonb

section Equality

mutual

/-- Two numbers that are both NaN are equal too. -/
def JsonbValue.eq : JsonbValue → JsonbValue → Bool
  | .null, .null => true
  | .bool a, .bool b => a == b
  | .number a, .number b => if a.isNaN && b.isNaN then true else a == b
  | .string a, .string b => a == b
  | .array a, .array b => a.length == b.length && eqItems a b
  | .object a, .object b => a.length == b.length && eqEntries a b
  | _, _ => false

def eqItems : List JsonbValue → List JsonbValue → Bool
  | a :: as, b :: bs => a.eq b && eqItems as bs
  | _, _ => true

def eqEntries : List (String × JsonbValue) → List (String × JsonbValue) → Bool
  | (k1, v1) :: as, (k2, v2) :: bs => k1 == k2 && v1.eq v2 && eqEntries as bs
  | _, _ => true

end

theorem number_eq (a b : Float) : JsonbValue.eq (.number a) (.number b) =
    (Core.Scalar.float64 a).eq (.float64 b) := by
  rw [JsonbValue.eq, Core.Scalar.eq]
  cases a.isNaN && b.isNaN <;> rfl

end Equality

namespace JsonbValue

mutual

def contains (self : JsonbValue) : JsonbValue → Bool
  | .object b => match self with
    | .object a => containsEntries a b
    | a => a.eq (.object b)
  | .array b => match self with
    | .array a => containsItems a b
    | a => a.eq (.array b)
  | b => self.eq b

/-- Every item is contained in one of `a`. -/
def containsItems (a : List JsonbValue) : List JsonbValue → Bool
  | [] => true
  | item :: b => (a.any fun x => contains x item) && containsItems a b

/-- Every entry is contained in the value that `a` has for its key. -/
def containsEntries (a : JsonbObject) : List (String × JsonbValue) → Bool
  | [] => true
  | (key, val) :: b =>
    (match Entries.get a key with
      | some selfVal => contains selfVal val
      | none => false) && containsEntries a b

end

def concat (self other : JsonbValue) : JsonbValue :=
  match self, other with
  | .object a, .object b =>
    .object (b.foldl (fun result entry => Entries.insert result entry.1 entry.2) a)
  | .array a, .array b => .array (a ++ b)
  | .array a, other => .array (a ++ [other])
  | other, .array b => .array (other :: b)
  | self, _ => self

variable {a b c : JsonbValue} {entries entries' : JsonbObject} {items items' : List JsonbValue}

theorem containsItems_iff : containsItems items items' = true ↔
    ∀ item ∈ items', ∃ x ∈ items, contains x item = true := by
  induction items' with
  | nil => exact iff_of_true rfl fun item h => absurd h List.not_mem_nil
  | cons item rest ih => rw [containsItems, Bool.and_eq_true, List.any_eq_true, ih, List.forall_mem_cons]

theorem containsEntries_iff : containsEntries entries entries' = true ↔
    ∀ entry ∈ entries', ∃ val, Entries.get entries entry.1 = some val ∧
      contains val entry.2 = true := by
  induction entries' with
  | nil => exact iff_of_true rfl fun item h => absurd h List.not_mem_nil
  | cons entry rest ih =>
    obtain ⟨key, val⟩ := entry
    rw [containsEntries, Bool.and_eq_true, ih, List.forall_mem_cons]
    refine and_congr ?_ Iff.rfl
    cases Entries.get entries key with
    | none => simp
    | some found => simp

/-- Only an object contains an object. -/
theorem contains_object : contains a (.object entries) = true ↔
    ∃ entries', a = .object entries' ∧ containsEntries entries' entries = true := by
  cases a with
  | object entries' =>
    refine ⟨fun h => ⟨entries', rfl, h⟩, ?_⟩
    rintro ⟨found, hfound, h⟩
    cases hfound
    exact h
  | _ =>
    refine iff_of_false Bool.false_ne_true ?_
    rintro ⟨found, hfound, -⟩
    cases hfound

theorem contains_array : contains a (.array items) = true ↔
    ∃ items', a = .array items' ∧ containsItems items' items = true := by
  cases a with
  | array items' =>
    refine ⟨fun h => ⟨items', rfl, h⟩, ?_⟩
    rintro ⟨found, hfound, h⟩
    cases hfound
    exact h
  | _ =>
    refine iff_of_false Bool.false_ne_true ?_
    rintro ⟨found, hfound, -⟩
    cases hfound

/-- A value that has no others inside. -/
def Plain : JsonbValue → Prop
  | .array _ | .object _ => False
  | _ => True

theorem contains_plain (h : b.Plain) : contains a b = a.eq b := by
  cases b with
  | array items => exact h.elim
  | object entries => exact h.elim
  | _ => rfl

theorem eq_self_of_plain (h : a.Plain) : a.eq a = true := by
  cases a with
  | null => rfl
  | bool value => exact beq_self_eq_true value
  | number value => exact (number_eq value value).trans (Core.Scalar.eq_refl _)
  | string value => exact beq_self_eq_true value
  | array items => exact h.elim
  | object entries => exact h.elim

theorem contains_self_of_plain (h : a.Plain) : contains a a = true :=
  (contains_plain h).trans (eq_self_of_plain h)

theorem plain_of_eq (hc : c.Plain) (h : b.eq c = true) : b.Plain := by
  cases c <;> cases b <;> first | exact hc | exact trivial | cases h

theorem eq_trans_of_plain (hc : c.Plain) (hab : a.eq b = true) (hbc : b.eq c = true) :
    a.eq c = true := by
  cases c with
  | array items => exact hc.elim
  | object entries => exact hc.elim
  | number z =>
    cases b with
    | number y =>
      cases a with
      | number x =>
        rw [number_eq] at hab hbc ⊢
        rwa [Core.Scalar.eq_congr hab]
      | _ => cases hab
    | _ => cases hbc
  | null =>
    cases b with
    | null => exact hab
    | _ => cases hbc
  | bool z =>
    cases b with
    | bool y =>
      obtain rfl := eq_of_beq (show (y == z) = true from hbc)
      exact hab
    | _ => cases hbc
  | string z =>
    cases b with
    | string y =>
      obtain rfl := eq_of_beq (show (y == z) = true from hbc)
      exact hab
    | _ => cases hbc

theorem contains_trans_of_plain (hc : c.Plain) (hab : contains a b = true)
    (hbc : contains b c = true) : contains a c = true := by
  rw [contains_plain hc] at hbc ⊢
  rw [contains_plain (plain_of_eq hc hbc)] at hab
  exact eq_trans_of_plain hc hab hbc

theorem contains_refl (h : a.Sorted) : contains a a = true := by
  induction a using JsonbValue.induction with
  | array items ih =>
    refine contains_array.mpr ⟨items, rfl, containsItems_iff.mpr fun item hitem => ?_⟩
    exact ⟨item, hitem, ih item hitem (h.item hitem)⟩
  | object obj ih =>
    refine contains_object.mpr ⟨obj, rfl, containsEntries_iff.mpr fun entry hentry => ?_⟩
    exact ⟨entry.2, (Entries.mem_iff_get h.object).mp hentry, ih entry hentry (h.entry hentry)⟩
  | null => exact contains_self_of_plain trivial
  | bool value => exact contains_self_of_plain trivial
  | number value => exact contains_self_of_plain trivial
  | string value => exact contains_self_of_plain trivial

theorem contains_trans (ha : a.Sorted) (hb : b.Sorted) (hab : contains a b = true)
    (hbc : contains b c = true) : contains a c = true := by
  induction c using JsonbValue.induction generalizing a b with
  | array items ih =>
    obtain ⟨bs, rfl, hbc⟩ := contains_array.mp hbc
    obtain ⟨as, rfl, hab⟩ := contains_array.mp hab
    refine contains_array.mpr ⟨as, rfl, containsItems_iff.mpr fun item hitem => ?_⟩
    obtain ⟨y, hy, hyitem⟩ := containsItems_iff.mp hbc item hitem
    obtain ⟨x, hx, hxy⟩ := containsItems_iff.mp hab y hy
    exact ⟨x, hx, ih item hitem (ha.item hx) (hb.item hy) hxy hyitem⟩
  | object obj ih =>
    obtain ⟨bs, rfl, hbc⟩ := contains_object.mp hbc
    obtain ⟨as, rfl, hab⟩ := contains_object.mp hab
    refine contains_object.mpr ⟨as, rfl, containsEntries_iff.mpr fun entry hentry => ?_⟩
    obtain ⟨y, hy, hyentry⟩ := containsEntries_iff.mp hbc entry hentry
    have hymem := (Entries.mem_iff_get hb.object).mpr hy
    obtain ⟨x, hx, hxy⟩ := containsEntries_iff.mp hab _ hymem
    have hxmem := (Entries.mem_iff_get ha.object).mpr hx
    exact ⟨x, hx, ih entry hentry (ha.entry hxmem) (hb.entry hymem) hxy hyentry⟩
  | null => exact contains_trans_of_plain trivial hab hbc
  | bool value => exact contains_trans_of_plain trivial hab hbc
  | number value => exact contains_trans_of_plain trivial hab hbc
  | string value => exact contains_trans_of_plain trivial hab hbc

end JsonbValue

section Concat

variable {a b : JsonbObject} {key : String}

theorem foldl_insert_sorted (h : a.Sorted) : JsonbObject.Sorted
    (b.foldl (fun result entry => Entries.insert result entry.1 entry.2) a) := by
  induction b generalizing a with
  | nil => exact h
  | cons entry b ih => exact ih (Entries.insert_sorted h)

/-- The entries of `b` replace those of `a`. -/
theorem get_foldl_insert (ha : a.Sorted) (hb : b.Sorted) :
    Entries.get (b.foldl (fun result entry => Entries.insert result entry.1 entry.2) a) key =
      (Entries.get b key).or (Entries.get a key) := by
  induction b generalizing a with
  | nil => rfl
  | cons entry b ih =>
    rw [List.foldl_cons, ih (Entries.insert_sorted ha) hb.tail, Entries.get_insert ha,
      Entries.get_eq hb, Entries.get_eq hb.tail, JsonbObject.get_cons]
    by_cases hkey : entry.1 = key
    · have hrest : JsonbObject.get b key = none := by
        rw [Entries.lookup_get, Keyed.lookup_eq_none fun other hother => ?_]
        · rfl
        · exact hkey ▸ (hb.head_lt other hother).ne'
      rw [if_pos hkey, if_pos hkey, hrest]
      rfl
    · rw [if_neg hkey, if_neg hkey]

end Concat

section Runs

/-- What changes an object. -/
inductive ObjectOp where
  | insert (key : String) (value : JsonbValue)
  | remove (key : String)

def ObjectOp.apply (obj : JsonbObject) : ObjectOp → JsonbObject
  | insert key value => Entries.insert obj key value
  | remove key => (Entries.remove obj key).2

/-- The same on a map from keys to values. -/
def ObjectOp.applyMap (map : String → Option JsonbValue) : ObjectOp → String → Option JsonbValue
  | insert key value => Function.update map key (some value)
  | remove key => Function.update map key none

variable {obj : JsonbObject} {map : String → Option JsonbValue}

/-- The object lists the entries of the map in the order of the keys. -/
structure Lists (obj : JsonbObject) (map : String → Option JsonbValue) : Prop where
  sorted : obj.Sorted
  get : ∀ key, Entries.get obj key = map key

theorem Lists.apply (h : Lists obj map) (op : ObjectOp) : Lists (op.apply obj) (op.applyMap map) := by
  cases op with
  | insert key value =>
    refine ⟨Entries.insert_sorted h.sorted, fun other => ?_⟩
    rw [ObjectOp.apply, ObjectOp.applyMap, Entries.get_insert h.sorted, h.get,
      Function.update_apply]
    exact if_congr eq_comm rfl rfl
  | remove key =>
    refine ⟨Entries.remove_sorted h.sorted, fun other => ?_⟩
    rw [ObjectOp.apply, ObjectOp.applyMap, Entries.get_remove h.sorted, h.get,
      Function.update_apply]
    exact if_congr eq_comm rfl rfl

theorem Lists.run (h : Lists obj map) (ops : List ObjectOp) :
    Lists (ops.foldl ObjectOp.apply obj) (ops.foldl ObjectOp.applyMap map) := by
  induction ops generalizing obj map with
  | nil => exact h
  | cons op ops ih => exact ih (h.apply op)

theorem Lists.containsKey (h : Lists obj map) (key : String) :
    Entries.containsKey obj key = (map key).isSome := by
  rw [Entries.containsKey_eq h.sorted, ← h.get, Entries.get_eq h.sorted]
  rfl

theorem Lists.mem_iff (h : Lists obj map) (key : String) (value : JsonbValue) :
    (key, value) ∈ obj ↔ map key = some value := by
  rw [Entries.mem_iff_get h.sorted, h.get]

end Runs

section Laws

open JsonbValue (contains concat)

theorem concat_object_contains {a b : JsonbObject} (ha : (JsonbValue.object a).Sorted)
    (hb : (JsonbValue.object b).Sorted) :
    contains (concat (.object a) (.object b)) (.object b) = true := by
  refine JsonbValue.contains_object.mpr ⟨_, rfl, JsonbValue.containsEntries_iff.mpr ?_⟩
  intro entry hentry
  refine ⟨entry.2, ?_, JsonbValue.contains_refl (hb.entry hentry)⟩
  rw [get_foldl_insert ha.object hb.object, (Entries.mem_iff_get hb.object).mp hentry]
  rfl

theorem concat_object_keeps {a b : JsonbObject} {key : String} {val : JsonbValue}
    (ha : (JsonbValue.object a).Sorted) (hb : (JsonbValue.object b).Sorted)
    (hkey : Entries.get a key = some val) (hlacks : Entries.get b key = none) :
    contains (concat (.object a) (.object b)) (.object [(key, val)]) = true := by
  refine JsonbValue.contains_object.mpr ⟨_, rfl, JsonbValue.containsEntries_iff.mpr ?_⟩
  refine List.forall_mem_singleton.mpr ⟨val, ?_, JsonbValue.contains_refl ?_⟩
  · rw [get_foldl_insert ha.object hb.object, hlacks, hkey]
    rfl
  · exact ha.entry ((Entries.mem_iff_get ha.object).mpr hkey)

theorem array_contains_of_subset {items items' : List JsonbValue} (h : (JsonbValue.array items).Sorted)
    (hsub : items ⊆ items') : contains (.array items') (.array items) = true := by
  refine JsonbValue.contains_array.mpr ⟨items', rfl, JsonbValue.containsItems_iff.mpr ?_⟩
  exact fun item hitem => ⟨item, hsub hitem, JsonbValue.contains_refl (h.item hitem)⟩

/-- Containment is a preorder, concatenation bounds both sides from above, and an object is a
sorted map however it came about. -/
theorem contains_preorder_concat_upper :
    (∀ a : JsonbValue, a.Sorted → contains a a = true) ∧
    (∀ a b c : JsonbValue, a.Sorted → b.Sorted → c.Sorted → contains a b = true →
      contains b c = true → contains a c = true) ∧
    (∀ a b : JsonbObject, (JsonbValue.object a).Sorted → (JsonbValue.object b).Sorted →
      contains (concat (.object a) (.object b)) (.object b) = true ∧
      ∀ key val, Entries.get a key = some val → Entries.get b key = none →
        contains (concat (.object a) (.object b)) (.object [(key, val)]) = true) ∧
    (∀ a b : List JsonbValue, (JsonbValue.array a).Sorted → (JsonbValue.array b).Sorted →
      contains (concat (.array a) (.array b)) (.array a) = true ∧
      contains (concat (.array a) (.array b)) (.array b) = true) ∧
    ∀ (obj : JsonbObject) (ops : List ObjectOp), obj.Sorted →
      let final := ops.foldl ObjectOp.apply obj
      let map := ops.foldl ObjectOp.applyMap (JsonbObject.get obj)
      JsonbObject.Sorted final ∧ ∀ key, Entries.get final key = map key ∧
        Entries.containsKey final key = (map key).isSome ∧
        ∀ value, (key, value) ∈ final ↔ map key = some value := by
  refine ⟨fun a => JsonbValue.contains_refl, fun a b c ha hb _ => JsonbValue.contains_trans ha hb,
    fun a b ha hb => ⟨concat_object_contains ha hb, fun key val => concat_object_keeps ha hb⟩,
    fun a b ha hb => ⟨?_, ?_⟩, fun obj ops h => ?_⟩
  · exact array_contains_of_subset ha (List.subset_append_left a b)
  · exact array_contains_of_subset hb (List.subset_append_right a b)
  · have hstart : Lists obj (JsonbObject.get obj) := ⟨h, fun key => Entries.get_eq h⟩
    have hend := hstart.run ops
    exact ⟨hend.sorted, fun key => ⟨hend.get key, hend.containsKey key, hend.mem_iff key⟩⟩

theorem contains_preorder_concat_upper_entries :
    contains (concat (.object [("a", .null)]) (.object [("b", .bool true)]))
      (.object [("b", .bool true)]) = true := by
  have ha : (JsonbValue.object [("a", .null)]).Sorted := JsonbValue.sorted_object.mpr
    ⟨List.pairwise_singleton _ _, List.forall_mem_singleton.mpr JsonbValue.sorted_null⟩
  have hb : (JsonbValue.object [("b", .bool true)]).Sorted := JsonbValue.sorted_object.mpr
    ⟨List.pairwise_singleton _ _, List.forall_mem_singleton.mpr (JsonbValue.sorted_bool true)⟩
  exact (contains_preorder_concat_upper.2.2.1 _ _ ha hb).1

end Laws

end Cynos.Jsonb
