import Cynos.Index.Trigram
import Cynos.Jsonb.RawScan
import Cynos.Jsonb.TextParser
import Cynos.Lib.Bytes
import Cynos.Storage.GinPath
import Cynos.Storage.RowStore

/-! The values of the configured paths of a GIN index, read out of the text of a document. Only
the pieces that a path leads into are looked at, and only the ones at its end are parsed. -/
namespace Cynos.Storage

open Core (Scalar Value ofDigits parseF64 trim trim_length_le)
open Jsonb

section Compiled

/-- `str::parse::<usize>`. -/
def parseUsize (text : List Char) : Option Nat :=
  let digits := if text.head? = some '+' then text.tail else text
  if digits.isEmpty ∨ ¬ digits.all Char.isDigit then none
  else if ofDigits digits < 2 ^ 64 then some (ofDigits digits) else none

def escapeJsonChar (ch : Char) : List Char :=
  if ch = '"' then ['\\', '"']
  else if ch = '\\' then ['\\', '\\']
  else if ch = '\n' then ['\\', 'n']
  else if ch = '\r' then ['\\', 'r']
  else if ch = '\t' then ['\\', 't']
  else [ch]

def escapeJsonStringFragment (value : String) : String :=
  String.ofList (value.toList.flatMap escapeJsonChar)

structure CompiledGinPathSegment where
  key : String
  lookupKey : Option String
  arrayIndex : Option Nat

structure CompiledGinPath where
  encodedPath : String
  containsKey : String
  segments : List CompiledGinPathSegment
  containsKey_eq : containsKey = Index.containsTrigramKey encodedPath

def CompiledGinPath.new (encodedPath : String) : CompiledGinPath where
  encodedPath
  containsKey := Index.containsTrigramKey encodedPath
  segments := (decodeGinPathSegments encodedPath).map fun key =>
    { key, lookupKey := some (escapeJsonStringFragment key), arrayIndex := parseUsize key.toList }
  containsKey_eq := rfl

structure CompiledGinPathNode where
  terminalPathIndices : List Nat
  objectChildren : Std.ExtTreeMap String Nat
  arrayChildren : Std.ExtTreeMap Nat Nat

/-- The nodes refer to each other by their places; the first one is the root. -/
structure CompiledGinPathTree where
  nodes : List CompiledGinPathNode

def CompiledGinPathNode.default : CompiledGinPathNode := ⟨[], ∅, ∅⟩

namespace CompiledGinPathTree

def node (tree : CompiledGinPathTree) (nodeIndex : Nat) : CompiledGinPathNode :=
  tree.nodes.getD nodeIndex .default

def modify (tree : CompiledGinPathTree) (nodeIndex : Nat)
    (f : CompiledGinPathNode → CompiledGinPathNode) : CompiledGinPathTree :=
  ⟨tree.nodes.modify nodeIndex f⟩

/-- A new node, which the parent gets to know by `link`. -/
def push (tree : CompiledGinPathTree) (nodeIndex : Nat)
    (link : Nat → CompiledGinPathNode → CompiledGinPathNode) : CompiledGinPathTree × Nat :=
  let next := tree.nodes.length
  (CompiledGinPathTree.modify ⟨tree.nodes ++ [.default]⟩ nodeIndex (link next), next)

/-- The child of a node under a segment. -/
def child (tree : CompiledGinPathTree) (nodeIndex : Nat) (segment : CompiledGinPathSegment) :
    CompiledGinPathTree × Nat :=
  match segment.arrayIndex, segment.lookupKey with
  | some arrayIndex, _ =>
    match (tree.node nodeIndex).arrayChildren[arrayIndex]? with
    | some existing => (tree, existing)
    | none => tree.push nodeIndex fun next node =>
      { node with arrayChildren := node.arrayChildren.insert arrayIndex next }
  | none, some lookupKey =>
    match (tree.node nodeIndex).objectChildren[lookupKey]? with
    | some existing => (tree, existing)
    | none => tree.push nodeIndex fun next node =>
      { node with objectChildren := node.objectChildren.insert lookupKey next }
  | none, none => (tree, nodeIndex)

def addPath (tree : CompiledGinPathTree) (entry : CompiledGinPath × Nat) : CompiledGinPathTree :=
  let (path, pathIndex) := entry
  let (tree, nodeIndex) := path.segments.foldl
    (fun (tree, nodeIndex) segment => tree.child nodeIndex segment) (tree, 0)
  tree.modify nodeIndex fun node =>
    { node with terminalPathIndices := node.terminalPathIndices ++ [pathIndex] }

def new (paths : List CompiledGinPath) : CompiledGinPathTree :=
  paths.zipIdx.foldl addPath ⟨[.default]⟩

end CompiledGinPathTree

namespace GinIndexConfig

def new (columnIdx : Nat) (indexedPaths : Option (List String)) : GinIndexConfig where
  columnIdx
  indexedPaths := indexedPaths.filter fun paths => !paths.isEmpty

def compiledIndexedPaths (config : GinIndexConfig) : Option (List CompiledGinPath) :=
  config.indexedPaths.map fun paths => paths.map .new

end GinIndexConfig

end Compiled

section Pieces

def textSlice (text : List Char) (start stop : Nat) : List Char :=
  (text.drop start).take (stop - start)

/-- The members of an object from a position behind its brace on: the text between the quotes of
each key, and the text of its value. -/
def objectMembers (text : List Char) (index : Nat) : Option (List (List Char × List Char)) :=
  let keyStart := skipJsonWhitespace text index
  if text[keyStart]? = some '}' then some []
  else if _hquote : text[keyStart]? ≠ some '"' then none
  else
    match _hkey : scanJsonStringEnd text keyStart with
    | none => none
    | some keyEnd =>
      let colon := skipJsonWhitespace text keyEnd
      if text[colon]? ≠ some ':' then none
      else
        let valueStart := skipJsonWhitespace text (colon + 1)
        match _hvalue : scanJsonValueEnd text valueStart with
        | none => none
        | some valueEnd =>
          let member :=
            (textSlice text (keyStart + 1) (keyEnd - 1), trim (textSlice text valueStart valueEnd))
          let next := skipJsonWhitespace text valueEnd
          if text[next]? = some ',' then (objectMembers text (next + 1)).map (member :: ·)
          else if text[next]? = some '}' then some [member]
          else none
termination_by text.length - index
decreasing_by
  have hlt : keyStart < text.length := by
    obtain ⟨hlt, _⟩ := List.getElem?_eq_some_iff.mp (not_not.mp _hquote)
    exact hlt
  have hindex : index ≤ keyStart := le_skipJsonWhitespace ..
  have hkey := lt_of_scanJsonStringEnd _hkey
  have hcolon : keyEnd ≤ colon := le_skipJsonWhitespace ..
  have hstart : colon + 1 ≤ valueStart := le_skipJsonWhitespace ..
  have hvalue := le_of_scanJsonValueEnd _hvalue
  have hnext : valueEnd ≤ next := le_skipJsonWhitespace ..
  omega

/-- The items of an array from a position behind its bracket on. -/
def arrayItems (text : List Char) (index : Nat) : Option (List (List Char)) :=
  let valueStart := skipJsonWhitespace text index
  if text[valueStart]? = some ']' then some []
  else if _hmore : text[valueStart]? = none then none
  else
    match _hvalue : scanJsonValueEnd text valueStart with
    | none => none
    | some valueEnd =>
      let item := trim (textSlice text valueStart valueEnd)
      let next := skipJsonWhitespace text valueEnd
      if text[next]? = some ',' then (arrayItems text (next + 1)).map (item :: ·)
      else if text[next]? = some ']' then some [item]
      else none
termination_by text.length - index
decreasing_by
  have hlt : valueStart < text.length := by
    rw [List.getElem?_eq_none_iff] at _hmore
    exact not_le.mp _hmore
  have hindex : index ≤ valueStart := le_skipJsonWhitespace ..
  have hvalue := le_of_scanJsonValueEnd _hvalue
  have hnext : valueEnd ≤ next := le_skipJsonWhitespace ..
  omega

theorem length_textSlice_le (text : List Char) (start stop : Nat) :
    (textSlice text start stop).length ≤ text.length - start := by
  rw [textSlice, List.length_take, List.length_drop]
  exact min_le_right ..

/-- What stands behind the first character of a text is shorter than the text. -/
theorem length_piece_lt {text : List Char} {pos start : Nat} {c : Char}
    (hpos : text[pos]? = some c) (hstart : 0 < start) (stop : Nat) :
    (trim (textSlice text start stop)).length < text.length := by
  have htrim := trim_length_le (textSlice text start stop)
  have hslice := length_textSlice_le text start stop
  obtain ⟨hlt, _⟩ := List.getElem?_eq_some_iff.mp hpos
  omega

theorem length_of_mem_objectMembers {text : List Char} {index : Nat}
    {members : List (List Char × List Char)} (h : objectMembers text index = some members) :
    ∀ member ∈ members, member.2.length < text.length := by
  have hpiece {colon valueStart : Nat} (hcolon : ¬text[colon]? ≠ some ':')
      (hstart : valueStart = skipJsonWhitespace text (colon + 1)) (valueEnd : Nat) :
      (trim (textSlice text valueStart valueEnd)).length < text.length := by
    have hle := le_skipJsonWhitespace text (colon + 1)
    exact length_piece_lt (not_not.mp hcolon) (by omega) valueEnd
  fun_induction objectMembers text index generalizing members with
  | case1 =>
    cases h
    exact List.forall_mem_nil _
  | case6 _ _ _ _ keyEnd _ colon hcolon valueStart valueEnd =>
    rename_i ih
    obtain ⟨rest, hrest, rfl⟩ := Option.map_eq_some_iff.mp h
    exact List.forall_mem_cons.mpr ⟨hpiece hcolon rfl valueEnd, ih hrest⟩
  | case7 _ _ _ _ keyEnd _ colon hcolon valueStart valueEnd =>
    cases h
    exact List.forall_mem_singleton.mpr (hpiece hcolon rfl valueEnd)
  | _ => cases h

theorem length_of_mem_arrayItems {text : List Char} {index : Nat} {items : List (List Char)}
    (hindex : 0 < index) (h : arrayItems text index = some items) :
    ∀ item ∈ items, item.length < text.length := by
  have hpiece {index valueStart : Nat} {next : Nat} {c : Char} (hindex : 0 < index)
      (hstart : valueStart = skipJsonWhitespace text index) (hnext : text[next]? = some c)
      (valueEnd : Nat) : (trim (textSlice text valueStart valueEnd)).length < text.length := by
    have hle := le_skipJsonWhitespace text index
    exact length_piece_lt hnext (by omega) valueEnd
  fun_induction arrayItems text index generalizing items with
  | case1 =>
    cases h
    exact List.forall_mem_nil _
  | case4 _ valueStart _ _ valueEnd _ item next hmore =>
    rename_i ih
    obtain ⟨rest, hrest, rfl⟩ := Option.map_eq_some_iff.mp h
    exact List.forall_mem_cons.mpr ⟨hpiece hindex rfl hmore valueEnd, ih (Nat.succ_pos _) hrest⟩
  | case5 _ valueStart _ _ valueEnd _ item next _ =>
    rename_i hlast
    cases h
    exact List.forall_mem_singleton.mpr (hpiece hindex rfl hlast valueEnd)
  | _ => cases h

end Pieces

section Extract

/-- `unescape_json`. -/
def unescapeJson (s : List Char) : List Char :=
  if '\\' ∈ s then Jsonb.unescapeJson s else s

inductive ExtractedJsonbTextValue where
  | scalarText (text : List Char)
  | parsed (value : JsonbValue)

def pushExtractedJsonbEntry (text : List Char) (pathIndex : Nat) :
    Option (Nat × ExtractedJsonbTextValue) :=
  match text.head? with
  | none => none
  | some c =>
    if c = '{' ∨ c = '[' then
      (parseJsonText unescapeJson text).map fun value => (pathIndex, .parsed value)
    else some (pathIndex, .scalarText text)

/-- The entries of the paths that end at a node or below it; `none` where the text is broken. -/
def extractFromSlice (tree : CompiledGinPathTree) (text : List Char) (nodeIndex : Nat) :
    Option (List (Nat × ExtractedJsonbTextValue)) :=
  match tree.nodes[nodeIndex]? with
  | none => none
  | some node =>
    match node.terminalPathIndices.mapM (pushExtractedJsonbEntry (trim text)) with
    | none => none
    | some entries =>
      if node.objectChildren.isEmpty && node.arrayChildren.isEmpty then some entries
      else if (trim text).head? = some '{' then
        match _hmembers : objectMembers (trim text) 1 with
        | none => none
        | some members =>
          Option.map (fun below => entries ++ List.flatten below) <|
            members.attach.mapM fun member : { member // member ∈ members } =>
              match node.objectChildren[String.ofList member.val.1]? with
              | some child => extractFromSlice tree member.val.2 child
              | none => some []
      else if (trim text).head? = some '[' then
        match _hitems : arrayItems (trim text) 1 with
        | none => none
        | some items =>
          Option.map (fun below => entries ++ List.flatten below) <|
            items.attach.zipIdx.mapM fun item : { item // item ∈ items } × Nat =>
              match node.arrayChildren[item.2]? with
              | some child => extractFromSlice tree item.1.val child
              | none => some []
      else if (trim text).isEmpty then none
      else some entries
termination_by text.length
decreasing_by
  · exact (length_of_mem_objectMembers _hmembers _ member.property).trans_le (trim_length_le text)
  · exact (length_of_mem_arrayItems Nat.one_pos _hitems _ item.1.property).trans_le
      (trim_length_le text)

/-- The text of a cell. -/
def jsonText (value : Value Scalar) : Option (List Char) :=
  match value with
  | some (.jsonb jsonb) => (Bytes.ofUtf8? jsonb.data).map String.toList
  | _ => none

/-- The entries in the order of their paths. -/
def extractSelectedJsonbEntriesFromText (value : Value Scalar) (paths : List CompiledGinPath) :
    Option (List (Nat × ExtractedJsonbTextValue)) := do
  let text ← jsonText value
  let extracted ← extractFromSlice (.new paths) (trim text) 0
  return extracted.mergeSort fun a b => a.1 ≤ b.1

def parseJsonbValue (value : Value Scalar) : Option JsonbValue :=
  (jsonText value).bind (parseJsonText unescapeJson)

def isFastJsonIntegerLiteral (value : List Char) : Bool :=
  let digits := if value.head? = some '-' then value.tail else value
  !digits.isEmpty && !(digits.length > 1 && digits.head? = some '0') && digits.all Char.isDigit

/-- How numbers, and documents for a debugging reader, are written. -/
structure JsonbFormats where
  displayF64 : Float → String
  debug : JsonbValue → String

variable (formats : JsonbFormats)

def jsonTextScalarToIndexValue (valueSlice : List Char) : Option String :=
  let s := trim valueSlice
  if s = "null".toList ∨ s = "true".toList ∨ s = "false".toList then some (String.ofList s)
  else if isQuoted s then some (String.ofList (unescapeJson (inner s)))
  else if isFastJsonIntegerLiteral s then some (String.ofList s)
  else (parseF64 s).map formats.displayF64

def jsonbScalarToIndexValue : JsonbValue → Option String
  | .null => some "null"
  | .bool b => some (if b then "true" else "false")
  | .number n => some (formats.displayF64 n)
  | .string s => some s
  | .object _ | .array _ => none

def stringifyForContains : JsonbValue → String
  | .null => "null"
  | .bool b => if b then "true" else "false"
  | .number n => formats.displayF64 n
  | .string s => s
  | value => formats.debug value

def valueAtCompiledGinPath (path : List CompiledGinPathSegment) (value : JsonbValue) :
    Option JsonbValue :=
  match path with
  | [] => some value
  | segment :: path =>
    match value with
    | .object obj => (JsonbObject.get obj segment.key).bind (valueAtCompiledGinPath path)
    | .array items =>
      segment.arrayIndex.bind fun index => items[index]?.bind (valueAtCompiledGinPath path)
    | .null | .bool _ | .number _ | .string _ => none

end Extract

end Cynos.Storage
