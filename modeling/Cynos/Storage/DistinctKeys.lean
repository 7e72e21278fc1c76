import Cynos.Storage.KeyCode
import Cynos.Storage.SlotRuns

/-! What the checks of a batch accept: rows that do not repeat a key of a unique index. -/
namespace Cynos.Storage

open Core (Row Scalar Value)
open Index (RowId)

section Seen

open RowStore (SeenBatchKeys validateBulkRow seeKey)

variable {α β γ δ ε : Type}

/-- Every result comes from the elements at its place. -/
theorem mapM_zip {f : α × β → Option γ} {as : List α} {bs : List β} {cs : List γ}
    (h : (as.zip bs).mapM f = some cs) {i : Nat} {a : α} {b : β} (ha : as[i]? = some a)
    (hb : bs[i]? = some b) : ∃ c, cs[i]? = some c ∧ f (a, b) = some c := by
  induction as generalizing bs cs i with
  | nil => cases ha
  | cons first as ih =>
    cases bs with
    | nil => cases hb
    | cons second bs =>
      rw [List.zip_cons_cons, List.mapM_cons] at h
      obtain ⟨c, hc, h⟩ := Option.bind_eq_some_iff.mp h
      obtain ⟨rest, hrest, h⟩ := Option.bind_eq_some_iff.mp h
      obtain rfl := Option.some.inj h
      cases i with
      | zero =>
        obtain rfl := Option.some.inj ha
        obtain rfl := Option.some.inj hb
        exact ⟨c, rfl, hc⟩
      | succ i => exact ih hrest ha hb

theorem mapM_of_ok {f : α → Except ε β} {g : α → Option β}
    (hfg : ∀ a b, f a = .ok b → g a = some b) {as : List α} {bs : List β}
    (h : as.mapM f = .ok bs) : as.mapM g = some bs := by
  induction as generalizing bs with
  | nil =>
    obtain rfl : [] = bs := Except.ok.inj h
    rfl
  | cons a as ih =>
    rw [List.mapM_cons] at h
    cases hfirst : f a with
    | error error =>
      rw [hfirst] at h
      cases h
    | ok b =>
      rw [hfirst] at h
      change (as.mapM f >>= fun rest => pure (b :: rest)) = _ at h
      cases hrest : as.mapM f with
      | error error =>
        rw [hrest] at h
        cases h
      | ok rest =>
        rw [hrest] at h
        obtain rfl : b :: rest = bs := Except.ok.inj h
        rw [List.mapM_cons, hfg a b hfirst, ih hrest]
        rfl

theorem foldlM_of_ok {f : δ → α → Except ε δ} {g : δ → α → Option δ}
    (hfg : ∀ s a s', f s a = .ok s' → g s a = some s') {as : List α} {s s' : δ}
    (h : as.foldlM f s = .ok s') : as.foldlM g s = some s' := by
  induction as generalizing s with
  | nil =>
    obtain rfl : s = s' := Except.ok.inj h
    rfl
  | cons a as ih =>
    rw [List.foldlM_cons] at h
    cases hnext : f s a with
    | error error =>
      rw [hnext] at h
      cases h
    | ok next =>
      rw [hnext] at h
      rw [List.foldlM_cons, hfg s a next hnext]
      exact ih h

/-- Takes the key of a definition in when its index is unique. -/
def seeSecondary (row : Row Scalar) (entry : BatchSecondaryDef × Option (List (IndexKey Scalar))) :
    Option (Option (List (IndexKey Scalar))) :=
  match entry.2 with
  | none => some none
  | some keys => (insertSeen keys (extractKey row entry.1.cols)).map some

/-- The check of one row that both kinds of batches make. -/
def seeKeys (pkColumns : List Nat) (defs : List BatchSecondaryDef) (seen : SeenBatchKeys)
    (row : Row Scalar) : Option SeenBatchKeys := do
  let primary ←
    if pkColumns.isEmpty then some seen.1 else insertSeen seen.1 (extractKey row pkColumns)
  let secondary ← (defs.zip seen.2).mapM (seeSecondary row)
  some (primary, secondary)

variable {pkColumns : List Nat} {defs : List BatchSecondaryDef} {row : Row Scalar}

theorem seeKeys_eq_some {seen seen' : SeenBatchKeys}
    (h : seeKeys pkColumns defs seen row = some seen') :
    (pkColumns.isEmpty = false → insertSeen seen.1 (extractKey row pkColumns) = some seen'.1) ∧
      (defs.zip seen.2).mapM (seeSecondary row) = some seen'.2 := by
  unfold seeKeys at h
  by_cases hpk : pkColumns.isEmpty = true
  · rw [if_pos hpk] at h
    obtain ⟨primary, -, h⟩ := Option.bind_eq_some_iff.mp h
    obtain ⟨secondary, hsecondary, h⟩ := Option.bind_eq_some_iff.mp h
    obtain rfl := Option.some.inj h
    exact ⟨fun hfalse => absurd (hpk.symm.trans hfalse) Bool.noConfusion, hsecondary⟩
  · rw [if_neg hpk] at h
    obtain ⟨primary, hprimary, h⟩ := Option.bind_eq_some_iff.mp h
    obtain ⟨secondary, hsecondary, h⟩ := Option.bind_eq_some_iff.mp h
    obtain rfl := Option.some.inj h
    exact ⟨fun _ => hprimary, hsecondary⟩

theorem seeKeys_of_seeRow {seen seen' : SeenKeys} (h : seeRow pkColumns defs seen row = some seen') :
    seeKeys pkColumns defs (seen.primaryKeys, seen.secondaryKeys) row =
      some (seen'.primaryKeys, seen'.secondaryKeys) := by
  unfold seeRow at h
  by_cases hmem : row.id ∈ seen.rowIds
  · simp [hmem] at h
  · rw [if_neg hmem] at h
    simp only [Option.bind_eq_bind, Option.bind_some] at h
    unfold seeKeys
    by_cases hpk : pkColumns.isEmpty = true
    · rw [if_pos hpk] at h ⊢
      obtain ⟨secondary, hsecondary, h⟩ := Option.bind_eq_some_iff.mp h
      obtain rfl := Option.some.inj h
      have hmap : (defs.zip seen.secondaryKeys).mapM (seeSecondary row) = some secondary := hsecondary
      rw [Option.bind_eq_bind, Option.bind_some, hmap]
      rfl
    · rw [if_neg hpk] at h ⊢
      obtain ⟨primary, hprimary, h⟩ := Option.bind_eq_some_iff.mp h
      obtain ⟨secondary, hsecondary, h⟩ := Option.bind_eq_some_iff.mp h
      obtain rfl := Option.some.inj h
      have hmap : (defs.zip seen.secondaryKeys).mapM (seeSecondary row) = some secondary := hsecondary
      rw [hprimary, Option.bind_eq_bind, Option.bind_some, hmap]
      rfl

theorem seeKey_eq_ok {P S G B : Type} {ops : BatchOps P S G B} {column : String}
    {seen seen' : List (IndexKey Scalar)} {key : IndexKey Scalar}
    (h : seeKey ops column seen key = .ok seen') : insertSeen seen key = some seen' := by
  unfold seeKey at h
  cases hseen : insertSeen seen key with
  | none =>
    rw [hseen] at h
    cases h
  | some keys =>
    rw [hseen] at h
    exact congrArg some (Except.ok.inj h)

/-- The same with the error of the source. -/
def checkSecondary {P S G B : Type} (ops : BatchOps P S G B) (row : Row Scalar)
    (entry : BatchSecondaryDef × Option (List (IndexKey Scalar))) :
    Except Error (Option (List (IndexKey Scalar))) :=
  match entry.2 with
  | none => .ok none
  | some keys => (seeKey ops entry.1.name keys (extractKey row entry.1.cols)).map some

theorem checkSecondary_eq_ok {P S G B : Type} {ops : BatchOps P S G B}
    {entry : BatchSecondaryDef × Option (List (IndexKey Scalar))}
    {keys : Option (List (IndexKey Scalar))} (h : checkSecondary ops row entry = .ok keys) :
    seeSecondary row entry = some keys := by
  obtain ⟨definition, _ | seen⟩ := entry
  · exact congrArg some (Except.ok.inj h)
  · rw [checkSecondary] at h
    dsimp only at h
    cases hkey : seeKey ops definition.name seen (extractKey row definition.cols) with
    | error error =>
      rw [hkey] at h
      cases h
    | ok taken =>
      rw [hkey] at h
      rw [seeSecondary]
      dsimp only
      rw [seeKey_eq_ok hkey]
      exact congrArg some (Except.ok.inj h)

theorem seeKeys_of_validate {P S G B : Type} {ops : BatchOps P S G B} {seen seen' : SeenBatchKeys}
    (h : validateBulkRow ops pkColumns defs seen row = .ok seen') :
    seeKeys pkColumns defs seen row = some seen' := by
  have hrest : ∀ primary : List (IndexKey Scalar),
      ((defs.zip seen.2).mapM (checkSecondary ops row)).bind
        (fun secondary => Except.ok (primary, secondary)) = .ok seen' →
      ((defs.zip seen.2).mapM (seeSecondary row)).bind
        (fun secondary => some (primary, secondary)) = some seen' := by
    intro primary heq
    cases hmap : (defs.zip seen.2).mapM (checkSecondary ops row) with
    | error error =>
      rw [hmap] at heq
      cases heq
    | ok secondary =>
      rw [hmap] at heq
      rw [mapM_of_ok (fun _ _ => checkSecondary_eq_ok) hmap]
      exact congrArg some (Except.ok.inj heq)
  unfold validateBulkRow at h
  unfold seeKeys
  by_cases hpk : pkColumns.isEmpty = true
  · rw [if_pos hpk] at h ⊢
    exact hrest seen.1 h
  · rw [if_neg hpk] at h ⊢
    cases hkey : seeKey ops "primary_key" seen.1 (extractKey row pkColumns) with
    | error error =>
      rw [hkey] at h
      cases h
    | ok primary =>
      rw [hkey] at h
      rw [seeKey_eq_ok hkey]
      exact hrest primary h

theorem insertSeen_eq_some {seen seen' : List (IndexKey Scalar)} {key : IndexKey Scalar}
    (h : insertSeen seen key = some seen') :
    seen' = key :: seen ∧ ∀ other ∈ seen, keyCmp other key ≠ .eq := by
  unfold insertSeen at h
  split at h
  · cases h
  next hnone =>
    refine ⟨(Option.some.inj h).symm, fun other hother heq => hnone ?_⟩
    exact List.any_eq_true.mpr ⟨other, hother, by rw [heq]; rfl⟩

variable {κ : Type} {keyOf : IndexKey Scalar → κ} {Ok : IndexKey Scalar → Prop} {cols : List Nat}
  {rows : List (Row Scalar)}

/-- A loop that takes the keys of the rows in one after the other has met none twice. -/
theorem nodup_of_seen (hcmp : ∀ {a b}, Ok a → Ok b → (keyCmp a b = .eq ↔ keyOf a = keyOf b))
    {step : δ → Row Scalar → Option δ} {keysAt : δ → Option (List (IndexKey Scalar))}
    (hstep : ∀ s row s' seen, step s row = some s' → keysAt s = some seen →
      ∃ seen', insertSeen seen (extractKey row cols) = some seen' ∧ keysAt s' = some seen')
    {s s' : δ} (h : rows.foldlM step s = some s') {seen : List (IndexKey Scalar)}
    (hseen : keysAt s = some seen) (hseenOk : ∀ key ∈ seen, Ok key)
    (hok : ∀ row ∈ rows, Ok (extractKey row cols)) :
    (rows.map fun row => keyOf (extractKey row cols)).Nodup ∧
      ∀ row ∈ rows, keyOf (extractKey row cols) ∉ seen.map keyOf := by
  induction rows generalizing s seen with
  | nil => exact ⟨.nil, nofun⟩
  | cons row rows ih =>
    rw [List.foldlM_cons] at h
    obtain ⟨next, hnext, h⟩ := Option.bind_eq_some_iff.mp h
    obtain ⟨seen', hinsert, hseen'⟩ := hstep s row next seen hnext hseen
    obtain ⟨rfl, hnew⟩ := insertSeen_eq_some hinsert
    rw [List.forall_mem_cons] at hok
    obtain ⟨hnodup, hothers⟩ := ih h hseen' (List.forall_mem_cons.mpr ⟨hok.1, hseenOk⟩) hok.2
    have hfresh : keyOf (extractKey row cols) ∉ seen.map keyOf := by
      intro hmem
      obtain ⟨key, hkey, heq⟩ := List.mem_map.mp hmem
      exact hnew key hkey ((hcmp (hseenOk key hkey) hok.1).mpr heq)
    rw [List.map_cons]
    refine ⟨List.nodup_cons.mpr ⟨fun hmem => ?_, hnodup⟩, List.forall_mem_cons.mpr
      ⟨hfresh, fun other hother hmem => hothers other hother (List.mem_cons_of_mem _ hmem)⟩⟩
    obtain ⟨other, hother, heq⟩ := List.mem_map.mp hmem
    exact hothers other hother (heq ▸ List.mem_cons_self)

/-- No two rows of a batch share the primary key or a key of a unique index. -/
structure DistinctRows (keyOf : IndexKey Scalar → κ) (pkColumns : List Nat)
    (defs : List BatchSecondaryDef) (rows : List (Row Scalar)) : Prop where
  ids : (rows.map Row.id).Nodup
  primary : pkColumns.isEmpty = false →
    (rows.map fun row => keyOf (extractKey row pkColumns)).Nodup
  secondary : ∀ definition ∈ defs, definition.unique = true →
    (rows.map fun row => keyOf (extractKey row definition.cols)).Nodup

theorem distinct_of_seeKeys (hcmp : ∀ {a b}, Ok a → Ok b → (keyCmp a b = .eq ↔ keyOf a = keyOf b))
    {seen : SeenBatchKeys}
    (h : rows.foldlM (seeKeys pkColumns defs)
      ([], defs.map fun definition => if definition.unique then some [] else none) = some seen)
    (hids : (rows.map Row.id).Nodup) (hok : ∀ row ∈ rows, ∀ cols, Ok (extractKey row cols)) :
    DistinctRows keyOf pkColumns defs rows := by
  refine ⟨hids, fun hpk => ?_, fun definition hmem hunique => ?_⟩
  · have hstep : ∀ (s : SeenBatchKeys) row s' seen, seeKeys pkColumns defs s row = some s' →
        some s.1 = some seen →
        ∃ seen', insertSeen seen (extractKey row pkColumns) = some seen' ∧ some s'.1 = some seen' := by
      intro s row s' seen hsee hseen
      obtain rfl := Option.some.inj hseen
      exact ⟨s'.1, (seeKeys_eq_some hsee).1 hpk, rfl⟩
    exact (nodup_of_seen hcmp hstep h rfl nofun fun row hrow => hok row hrow _).1
  · obtain ⟨i, hi⟩ := List.mem_iff_getElem?.mp hmem
    have hstep : ∀ (s : SeenBatchKeys) row s' seen, seeKeys pkColumns defs s row = some s' →
        s.2[i]?.join = some seen → ∃ seen',
          insertSeen seen (extractKey row definition.cols) = some seen' ∧
            s'.2[i]?.join = some seen' := by
      intro s row s' seen hsee hseen
      obtain ⟨entry, hkeys, hentry⟩ :=
        mapM_zip (seeKeys_eq_some hsee).2 hi (Option.join_eq_some_iff.mp hseen)
      obtain ⟨seen', hinsert, rfl⟩ := Option.map_eq_some_iff.mp hentry
      exact ⟨seen', hinsert, by rw [hkeys]; rfl⟩
    have hstart : ((defs.map fun definition => if definition.unique then some [] else none)[i]?).join =
        some ([] : List (IndexKey Scalar)) := by
      rw [List.getElem?_map, hi, Option.map_some, if_pos hunique]
      rfl
    exact (nodup_of_seen hcmp hstep h hstart nofun fun row hrow => hok row hrow _).1

theorem distinct_of_hasDistinctKeys
    (hcmp : ∀ {a b}, Ok a → Ok b → (keyCmp a b = .eq ↔ keyOf a = keyOf b))
    (h : hasDistinctKeys pkColumns defs rows = true)
    (hok : ∀ row ∈ rows, ∀ cols, Ok (extractKey row cols)) :
    DistinctRows keyOf pkColumns defs rows := by
  have hids := nodup_of_hasDistinctKeys h
  unfold hasDistinctKeys at h
  obtain ⟨seen, hseen⟩ := Option.isSome_iff_exists.mp h
  have hfold : ∀ {rows : List (Row Scalar)} {seen seen' : SeenKeys},
      rows.foldlM (seeRow pkColumns defs) seen = some seen' →
      rows.foldlM (seeKeys pkColumns defs) (seen.primaryKeys, seen.secondaryKeys) =
        some (seen'.primaryKeys, seen'.secondaryKeys) := by
    intro rows
    induction rows with
    | nil =>
      intro seen seen' h
      obtain rfl := Option.some.inj h
      rfl
    | cons row rows ih =>
      intro seen seen' h
      obtain ⟨next, hnext, h⟩ := Option.bind_eq_some_iff.mp h
      rw [List.foldlM_cons, seeKeys_of_seeRow hnext]
      exact ih h
  exact distinct_of_seeKeys hcmp (hfold hseen) hids hok

theorem distinct_of_validate {P S G B : Type} {ops : BatchOps P S G B} {store : RowStore P S G}
    (hcmp : ∀ {a b}, Ok a → Ok b → (keyCmp a b = .eq ↔ keyOf a = keyOf b))
    (h : store.validateEmptyBulkLoadRows ops defs rows = .ok ())
    (hok : ∀ row ∈ rows, ∀ cols, Ok (extractKey row cols)) :
    (rows.map Row.id).Pairwise (· < ·) ∧ DistinctRows keyOf store.pkColumns defs rows := by
  unfold RowStore.validateEmptyBulkLoadRows at h
  split at h
  · cases h
  next hrise =>
    have hids := RowStore.pairwise_of_idsRise (by simpa using hrise)
    refine ⟨hids, ?_⟩
    cases hfold : rows.foldlM (validateBulkRow ops store.pkColumns defs)
        ([], defs.map fun definition => if definition.unique then some [] else none) with
    | error error =>
      rw [hfold] at h
      cases h
    | ok seen =>
      have hseen := foldlM_of_ok (fun _ _ _ => seeKeys_of_validate) hfold
      exact distinct_of_seeKeys hcmp hseen (hids.imp fun hlt => hlt.ne) hok

end Seen

end Cynos.Storage
