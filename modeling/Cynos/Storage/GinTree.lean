import Cynos.Lib.Trie
import Cynos.Storage.GinExtract

/-! The tree of the configured paths of a GIN index: along the steps of a path it leads to the
places of the paths with these steps, in their order. -/
namespace Cynos.Storage

open Trie (Sound walk walk_link)

section Steps

/-- A segment of digits leads into an array, any other into an object. -/
inductive GinStep where
  | element (index : Nat)
  | member (lookupKey : String)
  deriving DecidableEq

def CompiledGinPathSegment.step (segment : CompiledGinPathSegment) : Option GinStep :=
  match segment.arrayIndex, segment.lookupKey with
  | some index, _ => some (.element index)
  | none, some lookupKey => some (.member lookupKey)
  | none, none => none

def CompiledGinPath.steps (path : CompiledGinPath) : List GinStep :=
  path.segments.filterMap CompiledGinPathSegment.step

namespace CompiledGinPathTree

def childOf (tree : CompiledGinPathTree) (nodeIndex : Nat) : GinStep → Option Nat
  | .element index => (tree.node nodeIndex).arrayChildren[index]?
  | .member lookupKey => (tree.node nodeIndex).objectChildren[lookupKey]?

/-- The paths that end where the steps lead. -/
def endsAt (tree : CompiledGinPathTree) (steps : List GinStep) : List Nat :=
  ((walk tree.childOf steps).map fun n => (tree.node n).terminalPathIndices).getD []

end CompiledGinPathTree

end Steps

section Build

namespace CompiledGinPathTree

variable {tree : CompiledGinPathTree} {nodeIndex : Nat} {front : List GinStep} {step : GinStep}

theorem node_append (tree : CompiledGinPathTree) (n : Nat) :
    node ⟨tree.nodes ++ [.default]⟩ n = tree.node n := by
  unfold node
  rw [List.getD_eq_getElem?_getD, List.getD_eq_getElem?_getD, List.getElem?_append]
  split
  · rfl
  · rename_i hlt
    rw [List.getElem?_eq_none (Nat.le_of_not_lt hlt)]
    cases hn : n - tree.nodes.length with
    | zero => rfl
    | succ k => rfl

theorem node_modify {tree : CompiledGinPathTree} (h : nodeIndex < tree.nodes.length)
    (f : CompiledGinPathNode → CompiledGinPathNode) (n : Nat) :
    (tree.modify nodeIndex f).node n = if n = nodeIndex then f (tree.node n) else tree.node n := by
  unfold node modify
  rw [List.getD_eq_getElem?_getD, List.getD_eq_getElem?_getD, List.getElem?_modify]
  by_cases hn : n = nodeIndex
  · subst hn
    rw [if_pos rfl, List.getElem?_eq_getElem h]
    simp
  · have hn' : nodeIndex ≠ n := fun heq => hn heq.symm
    rw [if_neg hn]
    cases tree.nodes[n]? <;> simp [hn']

/-- The link to a new node under a step. -/
def linked : GinStep → Nat → CompiledGinPathNode → CompiledGinPathNode
  | .element index, next, node => { node with arrayChildren := node.arrayChildren.insert index next }
  | .member lookupKey, next, node =>
    { node with objectChildren := node.objectChildren.insert lookupKey next }

theorem childOf_push (h : nodeIndex < tree.nodes.length) (step : GinStep) :
    (tree.push nodeIndex (linked step)).1.childOf =
      Trie.link tree.childOf nodeIndex step tree.nodes.length := by
  funext n s
  have hlength : nodeIndex < (tree.nodes ++ [CompiledGinPathNode.default]).length := by
    rw [List.length_append]
    exact Nat.lt_add_right _ h
  have hnode := @node_modify nodeIndex ⟨tree.nodes ++ [.default]⟩ hlength
    (linked step tree.nodes.length) n
  rw [node_append] at hnode
  unfold push Trie.link
  dsimp only
  by_cases hn : n = nodeIndex
  · rw [if_pos hn] at hnode
    cases step with
    | element index =>
      cases s with
      | element index' =>
        rw [childOf, hnode, childOf, linked, Std.ExtTreeMap.getElem?_insert]
        have hiff : compare index index' = .eq ↔ index' = index := by
          rw [Std.compare_eq_iff_eq]
          exact eq_comm
        simp only [hn, true_and, GinStep.element.injEq, hiff]
      | member lookupKey => rw [childOf, hnode, if_neg (by simp)]; rfl
    | member lookupKey =>
      cases s with
      | element index => rw [childOf, hnode, if_neg (by simp)]; rfl
      | member lookupKey' =>
        rw [childOf, hnode, childOf, linked, Std.ExtTreeMap.getElem?_insert]
        have hiff : compare lookupKey lookupKey' = .eq ↔ lookupKey' = lookupKey := by
          rw [Std.compare_eq_iff_eq]
          exact eq_comm
        simp only [hn, true_and, GinStep.member.injEq, hiff]
  · rw [if_neg hn] at hnode
    rw [if_neg fun hand => hn hand.1]
    cases s <;> rw [childOf, hnode, childOf]

theorem terminals_push (h : nodeIndex < tree.nodes.length) (step : GinStep) (n : Nat) :
    ((tree.push nodeIndex (linked step)).1.node n).terminalPathIndices =
      (tree.node n).terminalPathIndices := by
  have hlength : nodeIndex < (tree.nodes ++ [CompiledGinPathNode.default]).length := by
    rw [List.length_append]
    exact Nat.lt_add_right _ h
  have hnode := @node_modify nodeIndex ⟨tree.nodes ++ [.default]⟩ hlength
    (linked step tree.nodes.length) n
  rw [node_append] at hnode
  unfold push
  dsimp only
  rw [hnode]
  split
  · cases step <;> rfl
  · rfl

theorem length_push (step : GinStep) :
    (tree.push nodeIndex (linked step)).1.nodes.length = tree.nodes.length + 1 := by
  simp [push, modify]

/-- The tree leads on along the steps and ends paths where it did. -/
structure Extends (tree tree' : CompiledGinPathTree) : Prop where
  sound : Sound tree'.childOf tree'.nodes.length
  ends : ∀ steps, tree'.endsAt steps = tree.endsAt steps

theorem child_of_step (tree : CompiledGinPathTree) (nodeIndex : Nat)
    {segment : CompiledGinPathSegment} (h : segment.step = some step) :
    tree.child nodeIndex segment =
      match tree.childOf nodeIndex step with
      | some existing => (tree, existing)
      | none => tree.push nodeIndex (linked step) := by
  unfold CompiledGinPathSegment.step at h
  unfold child
  rcases hindex : segment.arrayIndex with _ | index
  · rcases hkey : segment.lookupKey with _ | lookupKey
    · rw [hindex, hkey] at h
      cases h
    · rw [hindex, hkey] at h
      obtain rfl := Option.some.inj h
      rfl
  · rw [hindex] at h
    obtain rfl := Option.some.inj h
    rfl

theorem child_of_none (tree : CompiledGinPathTree) (nodeIndex : Nat)
    {segment : CompiledGinPathSegment} (h : segment.step = none) :
    tree.child nodeIndex segment = (tree, nodeIndex) := by
  unfold CompiledGinPathSegment.step at h
  unfold child
  rcases hindex : segment.arrayIndex with _ | index
  · rcases hkey : segment.lookupKey with _ | lookupKey
    · rfl
    · rw [hindex, hkey] at h
      cases h
  · rw [hindex] at h
    cases h

/-- One segment further, with a new node where there was none. -/
theorem child_extends (h : Sound tree.childOf tree.nodes.length)
    (hnode : walk tree.childOf front = some nodeIndex) {segment : CompiledGinPathSegment}
    (hstep : segment.step = some step) :
    Extends tree (tree.child nodeIndex segment).1 ∧
      walk (tree.child nodeIndex segment).1.childOf (front ++ [step]) =
        some (tree.child nodeIndex segment).2 := by
  rw [child_of_step tree nodeIndex hstep]
  cases hchild : tree.childOf nodeIndex step with
  | some existing =>
    refine ⟨⟨h, fun _ => rfl⟩, ?_⟩
    rw [Trie.walk_snoc, hnode]
    exact hchild
  | none =>
    have hlt := h.walk_lt hnode
    have hwalk := walk_link h hnode hchild
    refine ⟨⟨?_, fun steps => ?_⟩, ?_⟩
    · rw [childOf_push hlt, length_push]
      exact h.link hnode hchild
    · unfold endsAt
      rw [childOf_push hlt, hwalk]
      by_cases hsteps : steps = front ++ [step]
      · -- nothing ends at the new node, and nothing was there before
        have hnone : walk tree.childOf steps = none := by
          rw [hsteps, Trie.walk_snoc, hnode]
          exact hchild
        rw [if_pos hsteps, hnone]
        simp only [Option.map_some, Option.getD_some, terminals_push hlt]
        rw [node, List.getD_eq_getElem?_getD, List.getElem?_eq_none (Nat.le_refl _)]
        rfl
      · rw [if_neg hsteps]
        simp only [terminals_push hlt]
    · change walk (tree.push nodeIndex (linked step)).1.childOf _ = _
      rw [childOf_push hlt, hwalk, if_pos rfl]
      rfl

/-- Along all the segments of a path. -/
theorem segments_extend (h : Sound tree.childOf tree.nodes.length)
    (hnode : walk tree.childOf front = some nodeIndex) (segments : List CompiledGinPathSegment) :
    let state := segments.foldl (fun (state : CompiledGinPathTree × Nat) segment =>
      state.1.child state.2 segment) (tree, nodeIndex)
    Extends tree state.1 ∧ walk state.1.childOf
      (front ++ segments.filterMap CompiledGinPathSegment.step) = some state.2 := by
  induction segments generalizing tree nodeIndex front with
  | nil => exact ⟨⟨h, fun _ => rfl⟩, by rwa [List.filterMap_nil, List.append_nil]⟩
  | cons segment segments ih =>
    rw [List.foldl_cons, List.filterMap_cons]
    cases hstep : segment.step with
    | none =>
      rw [child_of_none tree nodeIndex hstep]
      exact ih h hnode
    | some step =>
      obtain ⟨hextends, hwalk⟩ := child_extends h hnode hstep
      obtain ⟨hmore, hend⟩ := ih hextends.sound hwalk
      refine ⟨⟨hmore.sound, fun steps => (hmore.ends steps).trans (hextends.ends steps)⟩, ?_⟩
      rwa [List.append_assoc] at hend

/-- Another path is listed where its steps lead. -/
theorem addPath_ends (h : Sound tree.childOf tree.nodes.length) (path : CompiledGinPath)
    (pathIndex : Nat) :
    Sound (tree.addPath (path, pathIndex)).childOf (tree.addPath (path, pathIndex)).nodes.length ∧
      ∀ steps, (tree.addPath (path, pathIndex)).endsAt steps =
        tree.endsAt steps ++ if path.steps = steps then [pathIndex] else [] := by
  obtain ⟨hextends, hwalk⟩ := @segments_extend tree 0 [] h Trie.walk_nil path.segments
  rw [List.nil_append] at hwalk
  unfold addPath
  dsimp only
  generalize path.segments.foldl (fun (state : CompiledGinPathTree × Nat) segment =>
    state.1.child state.2 segment) (tree, 0) = state at hextends hwalk ⊢
  have hlt := hextends.sound.walk_lt hwalk
  have hnode := node_modify hlt fun node =>
    { node with terminalPathIndices := node.terminalPathIndices ++ [pathIndex] }
  have hchild : (state.1.modify state.2 fun node => { node with
      terminalPathIndices := node.terminalPathIndices ++ [pathIndex] }).childOf =
      state.1.childOf := by
    funext n step
    cases step <;>
      · rw [childOf, childOf, hnode]
        split <;> rfl
  have hlength : (state.1.modify state.2 fun node => { node with
      terminalPathIndices := node.terminalPathIndices ++ [pathIndex] }).nodes.length =
      state.1.nodes.length := List.length_modify ..
  refine ⟨by rw [hchild, hlength]; exact hextends.sound, fun steps => ?_⟩
  rw [← hextends.ends steps]
  unfold endsAt
  rw [hchild]
  cases hsteps : walk state.1.childOf steps with
  | none =>
    rw [if_neg]
    · rfl
    · rintro rfl
      cases hwalk.symm.trans hsteps
  | some n =>
    have hiff : n = state.2 ↔ path.steps = steps := by
      refine ⟨fun hn => hextends.sound.apart hwalk (hn ▸ hsteps), fun hsame => ?_⟩
      exact Option.some.inj (hsteps.symm.trans (hsame ▸ hwalk))
    simp only [Option.map_some, Option.getD_some, hnode]
    by_cases hn : n = state.2
    · rw [if_pos hn, if_pos (hiff.mp hn)]
    · rw [if_neg hn, if_neg (mt hiff.mpr hn), List.append_nil]

theorem childOf_empty : childOf ⟨[.default]⟩ = fun _ _ => none := by
  funext n step
  have hnode : node ⟨[.default]⟩ n = .default := by
    cases n <;> rfl
  cases step with
  | element index =>
    rw [childOf, hnode]
    exact Std.ExtTreeMap.getElem?_empty
  | member lookupKey =>
    rw [childOf, hnode]
    exact Std.ExtTreeMap.getElem?_empty

/-- The tree leads along the steps of each path to its place, and to no other. -/
theorem new_ends (paths : List CompiledGinPath) :
    Sound (new paths).childOf (new paths).nodes.length ∧ ∀ steps, (new paths).endsAt steps =
      paths.zipIdx.flatMap fun entry => if entry.1.steps = steps then [entry.2] else [] := by
  have hfold : ∀ (entries : List (CompiledGinPath × Nat)) (tree : CompiledGinPathTree),
      Sound tree.childOf tree.nodes.length →
      Sound (entries.foldl addPath tree).childOf (entries.foldl addPath tree).nodes.length ∧
        ∀ steps, (entries.foldl addPath tree).endsAt steps = tree.endsAt steps ++
          entries.flatMap fun entry => if entry.1.steps = steps then [entry.2] else [] := by
    intro entries
    induction entries with
    | nil => exact fun tree h => ⟨h, fun steps => (List.append_nil _).symm⟩
    | cons entry entries ih =>
      intro tree h
      obtain ⟨hsound, hends⟩ := addPath_ends h entry.1 entry.2
      obtain ⟨hsound', hends'⟩ := ih _ hsound
      refine ⟨hsound', fun steps => (hends' steps).trans ?_⟩
      rw [hends, List.append_assoc, List.flatMap_cons]
  have hroot : Sound (childOf ⟨[.default]⟩) 1 := childOf_empty ▸ Sound.root
  obtain ⟨hsound, hends⟩ := hfold paths.zipIdx ⟨[.default]⟩ hroot
  refine ⟨hsound, fun steps => (hends steps).trans ?_⟩
  have hempty : endsAt ⟨[.default]⟩ steps = [] := by
    unfold endsAt
    cases hwalk : walk (childOf ⟨[.default]⟩) steps with
    | none => rfl
    | some n =>
      obtain rfl : n = 0 := Nat.lt_one_iff.mp (hroot.walk_lt hwalk)
      rfl
  rw [hempty, List.nil_append]

end CompiledGinPathTree

end Build

end Cynos.Storage
