import Cynos.Core.ParseF64
import Cynos.Jsonb.Value

/-! The value that a text in the grammar of JSON denotes. -/
namespace Cynos.Jsonb

namespace JsonbObject

variable {obj : JsonbObject} {key key' : String} {value : JsonbValue}

/-- Bisection finds the entry of the key, or its place in the order of the keys. -/
def insert (key : String) (value : JsonbValue) : JsonbObject → JsonbObject
  | [] => [(key, value)]
  | (k, v) :: rest =>
    if k = key then (k, value) :: rest
    else if key < k then (key, value) :: (k, v) :: rest
    else (k, v) :: insert key value rest

/-- One entry after the other. -/
def ofMembers (members : List (String × JsonbValue)) : JsonbObject :=
  members.foldl (fun obj member => insert member.1 member.2 obj) []

theorem get_cons (k : String) (v : JsonbValue) (rest : JsonbObject) (key : String) :
    get ((k, v) :: rest) key = if k = key then some v else get rest key := by
  unfold get
  by_cases h : k = key
  · simp [h]
  · simp [h]

theorem get_insert : get (insert key value obj) key' =
    if key = key' then some value else get obj key' := by
  induction obj with
  | nil => exact get_cons key value [] key'
  | cons entry rest ih =>
    obtain ⟨k, v⟩ := entry
    rw [insert]
    by_cases hkey : k = key
    · subst hkey
      rw [if_pos rfl, get_cons, get_cons]
      split_ifs <;> rfl
    · rw [if_neg hkey]
      by_cases hlt : key < k
      · rw [if_pos hlt, get_cons]
      · rw [if_neg hlt, get_cons, get_cons, ih]
        by_cases hk : k = key'
        · subst hk
          rw [if_pos rfl, if_neg fun h => hkey h.symm, if_pos rfl]
        · rw [if_neg hk, if_neg hk]

theorem foldl_insert_get (members : List (String × JsonbValue)) :
    get (members.foldl (fun obj member => insert member.1 member.2 obj) obj) key =
      ((members.reverse.find? (·.1 == key)).map Prod.snd).or (get obj key) := by
  induction members generalizing obj with
  | nil => rfl
  | cons member members ih =>
    rw [List.foldl_cons, ih, get_insert, List.reverse_cons, List.find?_append]
    cases members.reverse.find? (·.1 == key) with
    | some found => rfl
    | none =>
      by_cases h : member.1 = key
      · simp [h]
      · simp [h]

/-- The last of several entries for a key is kept. -/
theorem get_ofMembers (members : List (String × JsonbValue)) :
    get (ofMembers members) key = (members.reverse.find? (·.1 == key)).map Prod.snd := by
  refine (foldl_insert_get members).trans ?_
  exact Option.or_none

theorem find?_of_once {A : Type} {p : A → Bool} {l : List A} (h : (l.filter p).length ≤ 1) :
    l.reverse.find? p = l.find? p := by
  have hfilter : ∀ l : List A, l.find? p = (l.filter p).head? := fun l => List.head?_filter.symm
  rw [hfilter, hfilter, List.filter_reverse]
  rcases hl : l.filter p with _ | ⟨a, _ | ⟨b, rest⟩⟩
  · rfl
  · rfl
  · rw [hl] at h
    simp at h

theorem mem_insert_keys {k : String} :
    k ∈ (insert key value obj).map Prod.fst ↔ k = key ∨ k ∈ obj.map Prod.fst := by
  induction obj with
  | nil => simp [insert]
  | cons entry rest ih =>
    obtain ⟨k', v⟩ := entry
    rw [insert]
    split_ifs with hkey hlt
    · subst hkey
      simp
    · simp
    · simp only [List.map_cons, List.mem_cons, ih]
      exact or_left_comm

theorem insert_ordered (h : (obj.map Prod.fst).Pairwise (· < ·)) :
    ((insert key value obj).map Prod.fst).Pairwise (· < ·) := by
  induction obj with
  | nil => exact List.pairwise_singleton _ _
  | cons entry rest ih =>
    obtain ⟨k, v⟩ := entry
    rw [List.map_cons, List.pairwise_cons] at h
    rw [insert]
    split_ifs with hkey hlt
    · exact List.pairwise_cons.mpr h
    · refine List.pairwise_cons.mpr ⟨?_, List.pairwise_cons.mpr h⟩
      intro k' hk'
      rcases List.mem_cons.mp hk' with rfl | hk'
      · exact hlt
      · exact String.lt_trans hlt (h.1 k' hk')
    · refine List.pairwise_cons.mpr ⟨?_, ih h.2⟩
      intro k' hk'
      rcases mem_insert_keys.mp hk' with rfl | hk'
      · by_contra hle
        exact hkey (String.le_antisymm (String.not_lt.mp hlt) (String.not_lt.mp hle))
      · exact h.1 k' hk'

/-- The entries stand in the order of their keys. -/
theorem ofMembers_ordered (members : List (String × JsonbValue)) :
    ((ofMembers members).map Prod.fst).Pairwise (· < ·) := by
  have hfold : ∀ obj : JsonbObject, (obj.map Prod.fst).Pairwise (· < ·) →
      ((members.foldl (fun obj member => insert member.1 member.2 obj) obj).map
        Prod.fst).Pairwise (· < ·) := by
    induction members with
    | nil => exact fun obj h => h
    | cons member members ih => exact fun obj h => ih _ (insert_ordered h)
  exact hfold [] .nil

end JsonbObject

end Cynos.Jsonb

namespace Cynos.Json

open Core (isWhitespace numeralValue Tight)
open Jsonb (JsonbValue JsonbObject)

section Read

variable (read : List StringItem → String)

mutual

/-- The value of a text, when its strings and keys are read in some way. -/
def Doc.read : Doc → JsonbValue
  | .null => .null
  | .bool b => .bool b
  | .number n => .number (numeralValue n)
  | .string items => .string (read items)
  | .emptyArray _ => .array []
  | .array elements => .array elements.read
  | .emptyObject _ => .object []
  | .object members => .object (JsonbObject.ofMembers members.read)

def Elements.read : Elements → List JsonbValue
  | .last _ value _ => [value.read]
  | .cons _ value _ rest => value.read :: rest.read

def Members.read : Members → List (String × JsonbValue)
  | .last key value _ => [(read key.name, value.read)]
  | .cons key value _ rest => (read key.name, value.read) :: rest.read

end

end Read

/-- The value that a text denotes: the last of several members with a key counts. -/
def Doc.value (d : Doc) : JsonbValue := d.read decode

section Tight

theorem blank_whitespace (b : Blank) : ∀ c ∈ b.chars, isWhitespace c = true := by
  intro c hc
  have h := b.blank c hc
  simp only [isBlank, Bool.or_eq_true, beq_iff_eq] at h
  rcases h with ((rfl | rfl) | rfl) | rfl <;> decide

theorem ofNumber_noWhitespace {c : Char} (h : OfNumber c) : isWhitespace c = false := by
  rcases h with h | h
  · exact Core.isWhitespace_of_isAlphanum c (by simp [Char.isAlphanum, h])
  · simp only [List.mem_cons, List.not_mem_nil, or_false] at h
    rcases h with rfl | rfl | rfl | rfl | rfl <;> decide

theorem tight_brackets (first last : Char) (text : List Char)
    (hfirst : isWhitespace first = false) (hlast : isWhitespace last = false) :
    Tight (first :: text ++ [last]) := by
  refine ⟨List.cons_ne_nil _ _, fun c hc => ?_, fun c hc => ?_⟩
  · exact Option.some.inj hc ▸ hfirst
  · rw [List.getLast?_concat] at hc
    exact Option.some.inj hc ▸ hlast

theorem tight_of_forall {text : List Char} (hne : text ≠ [])
    (h : ∀ c ∈ text, isWhitespace c = false) : Tight text :=
  ⟨hne, fun c hc => h c (List.mem_of_mem_head? hc), fun c hc => h c (List.mem_of_mem_getLast? hc)⟩

theorem quoted_tight (items : List StringItem) : Tight (quoted items) :=
  tight_brackets _ _ _ (by decide) (by decide)

theorem numeral_ne (n : Numeral) : n.text ≠ [] := by
  obtain ⟨c, chars, htext, -⟩ := Core.numeralText_head n
  rw [htext]
  exact List.cons_ne_nil _ _

theorem Doc.tight (d : Doc) : Tight d.text := by
  cases d with
  | null => exact tight_of_forall (List.cons_ne_nil _ _) (List.forall_iff_forall_mem.mp (by decide))
  | bool b => cases b <;> exact tight_of_forall (List.cons_ne_nil _ _) (List.forall_iff_forall_mem.mp (by decide))
  | number n =>
    exact tight_of_forall (numeral_ne n) fun c hc => ofNumber_noWhitespace (n.ofNumber c hc)
  | string items => exact quoted_tight items
  | emptyArray blank => exact tight_brackets _ _ _ (by decide) (by decide)
  | array elements => exact tight_brackets _ _ _ (by decide) (by decide)
  | emptyObject blank => exact tight_brackets _ _ _ (by decide) (by decide)
  | object members => exact tight_brackets _ _ _ (by decide) (by decide)

end Tight

section Members

def Elements.docs : Elements → List Doc
  | .last _ value _ => [value]
  | .cons _ value _ rest => value :: rest.docs

def Members.entries : Members → List (Key × Doc)
  | .last key value _ => [(key, value)]
  | .cons key value _ rest => (key, value) :: rest.entries

/-- Induction over a value whose hypotheses speak of all its elements or members. -/
theorem Doc.inductDocs {P : Doc → Prop}
    (null : P .null) (bool : ∀ b, P (.bool b)) (number : ∀ n, P (.number n))
    (string : ∀ items, P (.string items)) (emptyArray : ∀ blank, P (.emptyArray blank))
    (array : ∀ es : Elements, (∀ value ∈ es.docs, P value) → P (.array es))
    (emptyObject : ∀ blank, P (.emptyObject blank))
    (object : ∀ ms : Members, (∀ entry ∈ ms.entries, P entry.2) → P (.object ms))
    (d : Doc) : P d := by
  refine @Doc.induct P (fun es => ∀ value ∈ es.docs, P value)
    (fun ms => ∀ entry ∈ ms.entries, P entry.2) null bool number string emptyArray array
    emptyObject object ?_ ?_ ?_ ?_ d
  · intro before value after h
    simpa [Elements.docs] using h
  · intro before value after rest h hrest
    exact List.forall_mem_cons.mpr ⟨h, hrest⟩
  · intro key value after h
    simpa [Members.entries] using h
  · intro key value after rest h hrest
    exact List.forall_mem_cons.mpr ⟨h, hrest⟩

variable {read : List StringItem → String} {P N : List StringItem → Prop}

theorem Elements.read_eq (es : Elements) : es.read read = es.docs.map (Doc.read read) := by
  refine @Elements.induct (fun es => es.read read = es.docs.map (Doc.read read))
    (fun before value after => rfl) (fun before value after rest ih => ?_) es
  rw [Elements.read, ih]
  rfl

theorem Members.read_eq (ms : Members) :
    ms.read read = ms.entries.map fun entry => (read entry.1.name, entry.2.read read) := by
  refine @Members.induct
    (fun ms => ms.read read = ms.entries.map fun entry => (read entry.1.name, entry.2.read read))
    (fun key value after => rfl) (fun key value after rest ih => ?_) ms
  rw [Members.read, ih]
  rfl

theorem Elements.all_iff (es : Elements) : es.All P N ↔ ∀ value ∈ es.docs, value.All P N := by
  refine @Elements.induct (fun es => es.All P N ↔ ∀ value ∈ es.docs, value.All P N)
    (fun before value after => ?_) (fun before value after rest ih => ?_) es
  · simp [Elements.All, Elements.docs]
  · simp [Elements.All, Elements.docs, ih]

theorem Members.all_iff (ms : Members) :
    ms.All P N ↔ ∀ entry ∈ ms.entries, N entry.1.name ∧ entry.2.All P N := by
  refine @Members.induct
    (fun ms => ms.All P N ↔ ∀ entry ∈ ms.entries, N entry.1.name ∧ entry.2.All P N)
    (fun key value after => ?_) (fun key value after rest ih => ?_) ms
  · simp [Members.All, Members.entries]
  · simp [Members.All, Members.entries, ih, and_assoc]

end Members

theorem printable_a : 'a' ≠ '"' ∧ 'a' ≠ '\\' ∧ 0x20 ≤ 'a'.toNat := by decide

/-- The text `{"a":null}`. -/
def nullMember : Doc := .object (.last ⟨.none, [.plain 'a' printable_a], .none, .none⟩ .null .none)

end Cynos.Json
