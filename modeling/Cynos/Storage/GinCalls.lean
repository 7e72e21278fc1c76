import Cynos.Index.GinAgreement
import Cynos.Storage.GinExtract

/-! The entries that a cell has in a GIN index. Insertion adds them, bulk insertion collects
them, and removal takes them out again: all three read a cell alike. -/
namespace Cynos.Storage

open Core (Scalar Value)
open Index
open Jsonb (JsonbValue)

section Calls

/-- What a cell makes an index do, whichever way it is changed. -/
inductive GinCall where
  | key (key : String)
  | keyValue (key value : String)
  | contains (path needle : String)
  | containsForKey (path : CompiledGinPath) (needle : String)

variable (formats : JsonbFormats)

def scalarCalls (currentPath : String) (value : JsonbValue) : List GinCall :=
  match jsonbScalarToIndexValue formats value with
  | some valueStr => [.keyValue currentPath valueStr]
  | none => []

/-- Every path into the document. -/
def nodeCalls (document : JsonbValue) : List GinCall :=
  (indexJsonbNode "" document).flatMap fun (currentPath, child) =>
    .key currentPath :: scalarCalls formats currentPath child ++
      [.contains currentPath (stringifyForContains formats child)]

def selectedCalls (path : CompiledGinPath) (selected : JsonbValue) : List GinCall :=
  .key path.encodedPath :: scalarCalls formats path.encodedPath selected ++
    [.containsForKey path (stringifyForContains formats selected)]

def selectedPathsCalls (paths : List CompiledGinPath) (document : JsonbValue) : List GinCall :=
  paths.flatMap fun path =>
    match valueAtCompiledGinPath path.segments document with
    | some selected => selectedCalls formats path selected
    | none => []

def scalarTextCalls (path : CompiledGinPath) (scalarText : List Char) : List GinCall :=
  match jsonTextScalarToIndexValue formats scalarText with
  | some valueStr => [.keyValue path.encodedPath valueStr, .containsForKey path valueStr]
  | none => []

def extractedCalls (paths : List CompiledGinPath)
    (extracted : List (Nat × ExtractedJsonbTextValue)) : List GinCall :=
  extracted.flatMap fun (pathIndex, selected) =>
    match paths[pathIndex]? with
    | none => []
    | some path =>
      match selected with
      | .scalarText text => .key path.encodedPath :: scalarTextCalls formats path text
      | .parsed value => selectedCalls formats path value

def jsonbCalls (config : GinIndexConfig) (value : Value Scalar) : List GinCall :=
  match config.compiledIndexedPaths with
  | some paths =>
    match extractSelectedJsonbEntriesFromText value paths with
    | some extracted => extractedCalls formats paths extracted
    | none => ((parseJsonbValue value).map (selectedPathsCalls formats paths)).getD []
  | none => ((parseJsonbValue value).map (nodeCalls formats)).getD []

end Calls

section Changes

def indexCall (rowId : RowId) (g : GinIndex) : GinCall → GinIndex
  | .key key => g.addKey key rowId
  | .keyValue key value => g.addKeyValue key value rowId
  | .contains path needle => (g.addContainsTrigrams path needle rowId).1
  | .containsForKey path needle =>
    (containsTrigrams needle).foldl (fun g gram => g.addKeyValue path.containsKey gram rowId) g

def collectCall (rowId : RowId) (b : GinBulkBuilder) : GinCall → GinBulkBuilder
  | .key key => b.addKey key rowId
  | .keyValue key value => b.addKeyValue key value rowId
  | .contains path needle => (b.addContainsTrigrams path needle rowId).1
  | .containsForKey path needle => (b.addContainsTrigramsForKey path.containsKey needle rowId).1

def removeCall (rowId : RowId) (g : GinIndex) : GinCall → GinIndex
  | .key key => g.removeKey key rowId
  | .keyValue key value => g.removeKeyValue key value rowId
  | .contains path needle =>
    (containsTrigramPairs path needle).foldl (fun g pair => g.removeKeyValue pair.1 pair.2 rowId) g
  | .containsForKey path needle =>
    (containsTrigrams needle).foldl (fun g gram => g.removeKeyValue path.containsKey gram rowId) g

variable (formats : JsonbFormats) (config : GinIndexConfig)

/-- Indexes a JSONB value into the GIN index. -/
def indexJsonbValue (g : GinIndex) (value : Value Scalar) (rowId : RowId) : GinIndex :=
  (jsonbCalls formats config value).foldl (indexCall rowId) g

def collectJsonbValueIntoBuilder (b : GinBulkBuilder) (value : Value Scalar) (rowId : RowId) :
    GinBulkBuilder :=
  (jsonbCalls formats config value).foldl (collectCall rowId) b

/-- Removes a JSONB value from the GIN index. -/
def removeJsonbFromGin (g : GinIndex) (value : Value Scalar) (rowId : RowId) : GinIndex :=
  (jsonbCalls formats config value).foldl (removeCall rowId) g

end Changes

section Tokens

/-- Whether the call is about a token. -/
def GinCall.About : GinCall → GinToken → Prop
  | .key name, .key k => k = name
  | .keyValue name value, .pair k v => k = name ∧ v = value
  | .contains path needle, .pair k v => k = containsTrigramKey path ∧ v ∈ containsTrigrams needle
  | .containsForKey path needle, .pair k v => k = path.containsKey ∧ v ∈ containsTrigrams needle
  | .key _, .pair .. | .keyValue .., .key _ | .contains .., .key _ | .containsForKey .., .key _ =>
    False

/-- A cell yields the tokens that it is indexed under. -/
def Yields (formats : JsonbFormats) (config : GinIndexConfig) (value : Value Scalar)
    (token : GinToken) : Prop :=
  ∃ call ∈ jsonbCalls formats config value, call.About token

def GinCall.entry (rowId : RowId) : GinCall → GinEntry
  | .key name => .key name rowId
  | .keyValue name value => .keyValue name value rowId
  | .contains path needle => .contains path needle rowId
  | .containsForKey path needle => .contains path.encodedPath needle rowId

theorem posts_entry (call : GinCall) (rowId : RowId) (token : GinToken) (id : RowId) :
    (call.entry rowId).Posts token id ↔ call.About token ∧ id = rowId := by
  cases call with
  | key name => cases token <;> simp [GinCall.entry, GinEntry.Posts, GinCall.About]
  | keyValue name value => cases token <;> simp [GinCall.entry, GinEntry.Posts, GinCall.About]
  | contains path needle =>
    cases token <;> simp [GinCall.entry, GinEntry.Posts, GinCall.About, mem_containsTrigrams]
  | containsForKey path needle =>
    cases token with
    | key k => simp [GinCall.entry, GinEntry.Posts, GinCall.About]
    | pair k v =>
      simp [GinCall.entry, GinEntry.Posts, GinCall.About, mem_containsTrigrams,
        path.containsKey_eq]

theorem collectCall_eq (rowId : RowId) (b : GinBulkBuilder) (call : GinCall) :
    collectCall rowId b call = b.add (call.entry rowId) := by
  cases call with
  | containsForKey path needle => rw [collectCall, path.containsKey_eq]; rfl
  | _ => rfl

/-- Collecting a cell is adding its entries to the builder. -/
theorem collectJsonbValueIntoBuilder_eq (formats : JsonbFormats) (config : GinIndexConfig)
    (b : GinBulkBuilder) (value : Value Scalar) (rowId : RowId) :
    collectJsonbValueIntoBuilder formats config b value rowId =
      b.addAll ((jsonbCalls formats config value).map (GinCall.entry rowId)) := by
  rw [collectJsonbValueIntoBuilder, GinBulkBuilder.addAll, List.foldl_map]
  exact congrArg (List.foldl · b (jsonbCalls formats config value))
    (funext₂ (collectCall_eq rowId))

end Tokens

section Holds

variable {g : GinIndex} {P : GinToken → RowId → Prop}

theorem holds_indexCall (h : g.Holds P) (rowId : RowId) (call : GinCall) :
    (indexCall rowId g call).Holds fun token id => P token id ∨ call.About token ∧ id = rowId := by
  intro token
  cases call with
  | containsForKey path needle =>
    refine (h.addKeyValues path.containsKey (containsTrigrams needle) rowId token).congr
      fun id => ?_
    cases token <;> simp [GinCall.About, and_comm]
  | key name =>
    exact (h.add ((GinCall.key name).entry rowId) token).congr fun id =>
      or_congr_right (posts_entry ..)
  | keyValue name value =>
    exact (h.add ((GinCall.keyValue name value).entry rowId) token).congr fun id =>
      or_congr_right (posts_entry ..)
  | contains path needle =>
    exact (h.add ((GinCall.contains path needle).entry rowId) token).congr fun id =>
      or_congr_right (posts_entry ..)

theorem holds_removeCall (h : g.Holds P) (rowId : RowId) (call : GinCall) :
    (removeCall rowId g call).Holds fun token id =>
      P token id ∧ ¬(call.About token ∧ id = rowId) := by
  intro token
  cases call with
  | key name =>
    refine (h.removeKey name rowId token).congr fun id => ?_
    cases token <;> simp [GinCall.About]
  | keyValue name value =>
    refine (h.removeKeyValue name value rowId token).congr fun id => ?_
    cases token <;> simp [GinCall.About]
  | contains path needle =>
    refine (h.removeKeyValues (containsTrigramPairs path needle) rowId token).congr fun id => ?_
    cases token with
    | key k => simp [GinCall.About]
    | pair k v => simp [GinCall.About, containsTrigramPairs, and_comm, eq_comm (a := k)]
  | containsForKey path needle =>
    have hremove := h.removeKeyValues
      ((containsTrigrams needle).map (path.containsKey, ·)) rowId
    rw [List.foldl_map] at hremove
    refine (hremove token).congr fun id => ?_
    cases token with
    | key k => simp [GinCall.About]
    | pair k v => simp [GinCall.About, and_comm, eq_comm (a := k)]

variable (formats : JsonbFormats) (config : GinIndexConfig)

/-- Indexing a cell puts the row under its tokens. -/
theorem holds_indexJsonbValue (h : g.Holds P) (value : Value Scalar) (rowId : RowId) :
    (indexJsonbValue formats config g value rowId).Holds fun token id =>
      P token id ∨ Yields formats config value token ∧ id = rowId := by
  unfold indexJsonbValue Yields
  induction jsonbCalls formats config value generalizing g P with
  | nil => exact fun token => (h token).congr fun id => by simp
  | cons call calls ih =>
    intro token
    refine (ih (holds_indexCall h rowId call) token).congr fun id => ?_
    simp only [List.mem_cons, exists_eq_or_imp]
    rw [or_and_right, or_assoc]

/-- Removing a cell takes the row out from under its tokens. -/
theorem holds_removeJsonbFromGin (h : g.Holds P) (value : Value Scalar) (rowId : RowId) :
    (removeJsonbFromGin formats config g value rowId).Holds fun token id =>
      P token id ∧ ¬(Yields formats config value token ∧ id = rowId) := by
  unfold removeJsonbFromGin Yields
  induction jsonbCalls formats config value generalizing g P with
  | nil => exact fun token => (h token).congr fun id => by simp
  | cons call calls ih =>
    intro token
    refine (ih (holds_removeCall h rowId call) token).congr fun id => ?_
    simp only [List.mem_cons, exists_eq_or_imp]
    rw [or_and_right, not_or, and_assoc]

end Holds

end Cynos.Storage
