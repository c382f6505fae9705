import SkeinDB.Rows.Mvcc

/-!
# Resolving a version chain

`resolve_chain` of `skeindb-core/src/mvcc.rs` over segments of any contents: the previous pointers
may close a cycle, lead nowhere or lead into the chain of another row. The loop ends on all of
them, and a lookup comes back exactly when it is the one of an acyclic chain of one row.
-/
namespace SkeinDB.Rows
open SkeinDB.Codec SkeinDB.Format

/-- The version at a pointer, if it has the ids expected of it. -/
def loadExpected (load : FilePtr → Except MvccError RowVersion) (rowId : Option UInt64)
    (tableId : Option UInt32) (ptr : FilePtr) : Except MvccError RowVersion := do
  let row ← load ptr
  checkRowId rowId row
  checkTableId tableId row
  .ok row

/-- The runs of the loop of `resolve_chain` to one of its ends, of any number of rounds. -/
inductive Resolves (load : FilePtr → Except MvccError RowVersion) (snapshot : Snapshot) :
    List FilePtr → ℕ → Option UInt64 → Option UInt32 → FilePtr →
      Except MvccError MvccLookup → Prop
  | cycle {seen : List FilePtr} {hops : ℕ} {rowId : Option UInt64}
    {tableId : Option UInt32} {ptr : FilePtr} (hseen : ptr ∈ seen) :
    Resolves load snapshot seen hops rowId tableId ptr (.error (.chainCycle ptr))
  | refused {seen : List FilePtr} {hops : ℕ} {rowId : Option UInt64}
    {tableId : Option UInt32} {ptr : FilePtr} {e : MvccError} (hseen : ptr ∉ seen)
    (hload : loadExpected load rowId tableId ptr = .error e) :
    Resolves load snapshot seen hops rowId tableId ptr (.error e)
  | found {seen : List FilePtr} {hops : ℕ} {rowId : Option UInt64}
    {tableId : Option UInt32} {ptr : FilePtr} {row : RowVersion} (hseen : ptr ∉ seen)
    (hload : loadExpected load rowId tableId ptr = .ok row)
    (hvisible : snapshot.isRowVisible row) :
    Resolves load snapshot seen hops rowId tableId ptr (.ok (.found ⟨ptr, row, hops + 1⟩))
  | missing {seen : List FilePtr} {hops : ℕ} {rowId : Option UInt64}
    {tableId : Option UInt32} {ptr : FilePtr} {row : RowVersion} (hseen : ptr ∉ seen)
    (hload : loadExpected load rowId tableId ptr = .ok row)
    (hvisible : ¬ snapshot.isRowVisible row) (hnone : row.prevPtr.isNone) :
    Resolves load snapshot seen hops rowId tableId ptr (.ok .missing)
  | next {seen : List FilePtr} {hops : ℕ} {rowId : Option UInt64}
    {tableId : Option UInt32} {ptr : FilePtr} {row : RowVersion}
    {result : Except MvccError MvccLookup} (hseen : ptr ∉ seen)
    (hload : loadExpected load rowId tableId ptr = .ok row)
    (hvisible : ¬ snapshot.isRowVisible row) (hnone : ¬ row.prevPtr.isNone)
    (hnext : Resolves load snapshot (ptr :: seen) (hops + 1) (some row.rowId) (some row.tableId)
      row.prevPtr result) :
    Resolves load snapshot seen hops rowId tableId ptr result

section Loop
variable {load : FilePtr → Except MvccError RowVersion} {snapshot : Snapshot} {fuel hops : ℕ}
  {seen : List FilePtr} {rowId : Option UInt64} {tableId : Option UInt32} {ptr : FilePtr}
  {row : RowVersion} {result result' : Except MvccError MvccLookup}

theorem resolveLoop_succ : resolveLoop load snapshot (fuel + 1) seen hops rowId tableId ptr =
    if ptr ∈ seen then .error (.chainCycle ptr)
    else loadExpected load rowId tableId ptr >>= fun row =>
      if snapshot.isRowVisible row then .ok (.found ⟨ptr, row, hops + 1⟩)
      else if row.prevPtr.isNone then .ok .missing
      else resolveLoop load snapshot fuel (ptr :: seen) (hops + 1) (some row.rowId)
        (some row.tableId) row.prevPtr := by
  simp only [resolveLoop, loadExpected, bind_assoc]
  rfl

/-- The loop ends: rounds for every pointer are a run to an end. -/
theorem resolves_resolveLoop (hseen : seen.Nodup) (hfuel : 2 ^ 96 < fuel + seen.length) :
    Resolves load snapshot seen hops rowId tableId ptr
      (resolveLoop load snapshot fuel seen hops rowId tableId ptr) := by
  induction fuel generalizing seen hops rowId tableId ptr with
  | zero =>
    have := filePtr_length_le hseen
    omega
  | succ fuel ih =>
    rw [resolveLoop_succ]
    by_cases hptr : ptr ∈ seen
    · rw [if_pos hptr]
      exact .cycle hptr
    rw [if_neg hptr]
    rcases hload : loadExpected load rowId tableId ptr with e | row
    · exact .refused hptr hload
    change Resolves _ _ _ _ _ _ _ (ite _ _ _)
    by_cases hvisible : snapshot.isRowVisible row
    · rw [if_pos hvisible]
      exact .found hptr hload hvisible
    rw [if_neg hvisible]
    by_cases hnone : row.prevPtr.isNone
    · rw [if_pos hnone]
      exact .missing hptr hload hvisible hnone
    · rw [if_neg hnone]
      have hleft : 2 ^ 96 < fuel + (ptr :: seen).length := by
        rw [List.length_cons]
        omega
      exact .next hptr hload hvisible hnone (ih (List.nodup_cons.mpr ⟨hptr, hseen⟩) hleft)

/-- A run has one end. -/
theorem Resolves.unique (h : Resolves load snapshot seen hops rowId tableId ptr result)
    (h' : Resolves load snapshot seen hops rowId tableId ptr result') : result = result' := by
  induction h with
  | cycle hseen =>
    cases h' with
    | cycle => rfl
    | refused hnew | found hnew | missing hnew | next hnew => exact absurd hseen hnew
  | refused hseen hload =>
    cases h' with
    | cycle hold => exact absurd hold hseen
    | refused _ hload' => rw [hload] at hload'; cases hload'; rfl
    | found _ hload' | missing _ hload' | next _ hload' => rw [hload] at hload'; cases hload'
  | found hseen hload hvisible =>
    cases h' with
    | cycle hold => exact absurd hold hseen
    | refused _ hload' => rw [hload] at hload'; cases hload'
    | found _ hload' => rw [hload] at hload'; cases hload'; rfl
    | missing _ hload' hnot | next _ hload' hnot =>
      rw [hload] at hload'; cases hload'; exact absurd hvisible hnot
  | missing hseen hload hvisible hnone =>
    cases h' with
    | cycle hold => exact absurd hold hseen
    | refused _ hload' => rw [hload] at hload'; cases hload'
    | found _ hload' hnow => rw [hload] at hload'; cases hload'; exact absurd hnow hvisible
    | missing => rfl
    | next _ hload' _ hsome => rw [hload] at hload'; cases hload'; exact absurd hnone hsome
  | next hseen hload hvisible hnone _ ih =>
    cases h' with
    | cycle hold => exact absurd hold hseen
    | refused _ hload' => rw [hload] at hload'; cases hload'
    | found _ hload' hnow => rw [hload] at hload'; cases hload'; exact absurd hnow hvisible
    | missing _ hload' _ hnow => rw [hload] at hload'; cases hload'; exact absurd hnow hnone
    | next _ hload' _ _ hnext => rw [hload] at hload'; cases hload'; exact ih hnext

end Loop

/-- The versions met on the way down a chain, up to the pointer behind the last of them. -/
inductive Walk (load : FilePtr → Except MvccError RowVersion) :
    FilePtr → List (FilePtr × RowVersion) → FilePtr → Prop
  | nil (ptr : FilePtr) : Walk load ptr [] ptr
  | cons {ptr last : FilePtr} {row : RowVersion} {versions : List (FilePtr × RowVersion)}
    (hsome : ¬ ptr.isNone) (hload : load ptr = .ok row)
    (hrest : Walk load row.prevPtr versions last) : Walk load ptr ((ptr, row) :: versions) last

/-- No pointer comes twice, and the versions are those of one row: the expected one, or that of
the first version. -/
structure OneRow (rowId : Option UInt64) (tableId : Option UInt32)
    (versions : List (FilePtr × RowVersion)) : Prop where
  acyclic : (versions.map Prod.fst).Nodup
  row : ∃ id, (∀ x ∈ rowId, x = id) ∧ ∀ v ∈ versions, v.2.rowId = id
  table : ∃ id, (∀ x ∈ tableId, x = id) ∧ ∀ v ∈ versions, v.2.tableId = id

section Chains
variable {load : FilePtr → Except MvccError RowVersion} {snapshot : Snapshot} {hops : ℕ}
  {seen : List FilePtr} {rowId : Option UInt64} {tableId : Option UInt32} {ptr last : FilePtr}
  {row : RowVersion} {versions : List (FilePtr × RowVersion)} {lookup : MvccLookup}
  {version : VisibleVersion}

theorem checkRowId_eq_ok : checkRowId rowId row = .ok () ↔ ∀ x ∈ rowId, x = row.rowId := by
  cases rowId with
  | none => simp [checkRowId]
  | some id =>
    by_cases hid : row.rowId = id
    · simp [checkRowId, hid]
    · simp [checkRowId, hid, Ne.symm hid]

theorem checkTableId_eq_ok :
    checkTableId tableId row = .ok () ↔ ∀ x ∈ tableId, x = row.tableId := by
  cases tableId with
  | none => simp [checkTableId]
  | some id =>
    by_cases hid : row.tableId = id
    · simp [checkTableId, hid]
    · simp [checkTableId, hid, Ne.symm hid]

theorem loadExpected_eq_ok : loadExpected load rowId tableId ptr = .ok row ↔
    load ptr = .ok row ∧ (∀ x ∈ rowId, x = row.rowId) ∧ ∀ x ∈ tableId, x = row.tableId := by
  rw [← checkRowId_eq_ok, ← checkTableId_eq_ok]
  constructor
  · intro h
    obtain ⟨row', hload, h⟩ := bind_eq_ok h
    obtain ⟨_, hrow, h⟩ := bind_eq_ok h
    obtain ⟨_, htable, h⟩ := bind_eq_ok h
    cases h
    exact ⟨hload, hrow, htable⟩
  · rintro ⟨hload, hrow, htable⟩
    simp only [loadExpected, hload, hrow, htable, bind, Except.bind]

theorem OneRow.nil : OneRow rowId tableId [] := by
  refine ⟨List.nodup_nil, ⟨rowId.getD 0, ?_, ?_⟩, ⟨tableId.getD 0, ?_, ?_⟩⟩
  · rintro x ⟨⟩
    rfl
  · exact fun v hv => absurd hv List.not_mem_nil
  · rintro x ⟨⟩
    rfl
  · exact fun v hv => absurd hv List.not_mem_nil

/-- The ids of the first version are expected of those behind it. -/
theorem oneRow_cons : OneRow rowId tableId ((ptr, row) :: versions) ↔
    (∀ x ∈ rowId, x = row.rowId) ∧ (∀ x ∈ tableId, x = row.tableId) ∧
      ptr ∉ versions.map Prod.fst ∧ OneRow (some row.rowId) (some row.tableId) versions := by
  constructor
  · rintro ⟨hacyclic, ⟨id, hid, hids⟩, ⟨table, htable, htables⟩⟩
    have hrow : row.rowId = id := hids _ (List.mem_cons_self)
    have hrowTable : row.tableId = table := htables _ (List.mem_cons_self)
    rw [List.map_cons, List.nodup_cons] at hacyclic
    refine ⟨hrow ▸ hid, hrowTable ▸ htable, hacyclic.1, hacyclic.2, ⟨id, ?_, ?_⟩, ⟨table, ?_, ?_⟩⟩
    · rintro x ⟨⟩
      exact hrow
    · exact fun v hv => hids v (List.mem_cons_of_mem _ hv)
    · rintro x ⟨⟩
      exact hrowTable
    · exact fun v hv => htables v (List.mem_cons_of_mem _ hv)
  · rintro ⟨hid, htable, hptr, ⟨hacyclic, ⟨id, hrow, hids⟩, ⟨table, hrowTable, htables⟩⟩⟩
    obtain rfl : row.rowId = id := hrow _ rfl
    obtain rfl : row.tableId = table := hrowTable _ rfl
    refine ⟨List.nodup_cons.mpr ⟨hptr, hacyclic⟩, ⟨_, hid, ?_⟩, ⟨_, htable, ?_⟩⟩
    · rintro v (_ | ⟨_, hv⟩)
      · rfl
      · exact hids v hv
    · rintro v (_ | ⟨_, hv⟩)
      · rfl
      · exact htables v hv

/-- A run that finds nothing has walked an acyclic chain of one row to its end. -/
theorem Resolves.of_missing
    (h : Resolves load snapshot seen hops rowId tableId ptr (.ok .missing)) (hptr : ¬ ptr.isNone) :
    ∃ versions last, Walk load ptr versions last ∧ last.isNone ∧ OneRow rowId tableId versions ∧
      (∀ v ∈ versions, v.1 ∉ seen) ∧ ∀ v ∈ versions, ¬ snapshot.isRowVisible v.2 := by
  generalize hresult : (Except.ok MvccLookup.missing : Except MvccError MvccLookup) = result at h
  induction h with
  | cycle | refused => cases hresult
  | found =>
    rw [MvccLookup.found] at hresult
    split at hresult <;> cases hresult
  | missing hseen hload hvisible hnone =>
    rename_i seen hops rowId tableId ptr row
    obtain ⟨hload, hrow, htable⟩ := loadExpected_eq_ok.mp hload
    refine ⟨[(ptr, row)], row.prevPtr, .cons hptr hload (.nil _), hnone,
      oneRow_cons.mpr ⟨hrow, htable, List.not_mem_nil, .nil⟩, ?_, ?_⟩
    · simpa using hseen
    · simpa using hvisible
  | next hseen hload hvisible hnone _ ih =>
    rename_i seen hops rowId tableId ptr row _ _
    obtain ⟨hload, hrow, htable⟩ := loadExpected_eq_ok.mp hload
    obtain ⟨versions, last, hwalk, hlast, hone, hfresh, hnot⟩ := ih hnone hresult
    have hptrs : ptr ∉ versions.map Prod.fst := by
      intro hmem
      obtain ⟨v, hv, hvptr⟩ := List.mem_map.mp hmem
      exact hfresh v hv (hvptr ▸ List.mem_cons_self)
    refine ⟨(ptr, row) :: versions, last, .cons hptr hload hwalk, hlast,
      oneRow_cons.mpr ⟨hrow, htable, hptrs, hone⟩, ?_, ?_⟩
    · rintro v (_ | ⟨_, hv⟩)
      · exact hseen
      · exact fun hmem => hfresh v hv (List.mem_cons_of_mem _ hmem)
    · rintro v (_ | ⟨_, hv⟩)
      · exact hvisible
      · exact hnot v hv

/-- A run that finds a version has walked an acyclic chain of one row to it. -/
theorem Resolves.of_found
    (h : Resolves load snapshot seen hops rowId tableId ptr (.ok lookup))
    (hversion : lookup.version? = some version) (hptr : ¬ ptr.isNone) :
    lookup = .found version ∧ ∃ front last,
      Walk load ptr (front ++ [(version.ptr, version.row)]) last ∧
      OneRow rowId tableId (front ++ [(version.ptr, version.row)]) ∧
      (∀ v ∈ front ++ [(version.ptr, version.row)], v.1 ∉ seen) ∧
      (∀ v ∈ front, ¬ snapshot.isRowVisible v.2) ∧ snapshot.isRowVisible version.row ∧
      version.hops = hops + front.length + 1 := by
  generalize hresult : (Except.ok lookup : Except MvccError MvccLookup) = result at h
  induction h with
  | cycle | refused => cases hresult
  | found hseen hload hvisible =>
    rename_i seen hops rowId tableId ptr row
    cases hresult
    rw [version?_found] at hversion
    obtain rfl := Option.some.inj hversion
    obtain ⟨hload, hrow, htable⟩ := loadExpected_eq_ok.mp hload
    refine ⟨rfl, [], row.prevPtr, .cons hptr hload (.nil _),
      oneRow_cons.mpr ⟨hrow, htable, List.not_mem_nil, .nil⟩, ?_, ?_, hvisible, rfl⟩
    · simpa using hseen
    · exact fun v hv => absurd hv List.not_mem_nil
  | missing =>
    cases hresult
    cases hversion
  | next hseen hload hvisible hnone _ ih =>
    rename_i seen hops rowId tableId ptr row _ _
    obtain ⟨hload, hrow, htable⟩ := loadExpected_eq_ok.mp hload
    obtain ⟨hlookup, front, last, hwalk, hone, hfresh, hnot, hsees, hhops⟩ := ih hnone hresult
    have hptrs : ptr ∉ (front ++ [(version.ptr, version.row)]).map Prod.fst := by
      intro hmem
      obtain ⟨v, hv, hvptr⟩ := List.mem_map.mp hmem
      exact hfresh v hv (hvptr ▸ List.mem_cons_self)
    refine ⟨hlookup, (ptr, row) :: front, last, .cons hptr hload hwalk,
      oneRow_cons.mpr ⟨hrow, htable, hptrs, hone⟩, ?_, ?_, hsees, ?_⟩
    · rintro v (_ | ⟨_, hv⟩)
      · exact hseen
      · exact fun hmem => hfresh v hv (List.mem_cons_of_mem _ hmem)
    · rintro v (_ | ⟨_, hv⟩)
      · exact hvisible
      · exact hnot v hv
    · rw [hhops, List.length_cons]
      omega

theorem fresh_cons (hptr : ptr ∉ versions.map Prod.fst) (hfresh : ∀ v ∈ versions, v.1 ∉ seen) :
    ∀ v ∈ versions, v.1 ∉ ptr :: seen := by
  rintro v hv (_ | ⟨_, hmem⟩)
  · exact hptr (List.mem_map_of_mem hv)
  · exact hfresh v hv hmem

theorem walk_cons {v : FilePtr × RowVersion} : Walk load ptr (v :: versions) last ↔
    ¬ ptr.isNone ∧ v.1 = ptr ∧ load ptr = .ok v.2 ∧ Walk load v.2.prevPtr versions last := by
  constructor
  · rintro (_ | ⟨hsome, hload, hrest⟩)
    exact ⟨hsome, rfl, hload, hrest⟩
  · rintro ⟨hsome, rfl, hload, hrest⟩
    exact .cons hsome hload hrest

/-- Down an acyclic chain of one row without a visible version the loop finds nothing. -/
theorem Walk.resolves_missing (h : Walk load ptr versions last) (hlast : last.isNone)
    (hone : OneRow rowId tableId versions) (hfresh : ∀ v ∈ versions, v.1 ∉ seen)
    (hnot : ∀ v ∈ versions, ¬ snapshot.isRowVisible v.2) (hptr : ¬ ptr.isNone) :
    Resolves load snapshot seen hops rowId tableId ptr (.ok .missing) := by
  induction versions generalizing seen hops rowId tableId ptr with
  | nil =>
    cases h
    exact absurd hlast hptr
  | cons v versions ih =>
    obtain ⟨_, rfl, hload, hrest⟩ := walk_cons.mp h
    obtain ⟨hrow, htable, hptrs, hone⟩ := oneRow_cons.mp hone
    obtain ⟨hseen, hfresh⟩ := List.forall_mem_cons.mp hfresh
    obtain ⟨hvisible, hnot⟩ := List.forall_mem_cons.mp hnot
    have hexpected := loadExpected_eq_ok.mpr ⟨hload, hrow, htable⟩
    by_cases hnone : v.2.prevPtr.isNone
    · exact .missing hseen hexpected hvisible hnone
    · exact .next hseen hexpected hvisible hnone
        (ih hrest hone (fresh_cons hptrs hfresh) hnot hnone)

/-- Down an acyclic chain of one row the loop finds the first visible version. -/
theorem Walk.resolves_found {front : List (FilePtr × RowVersion)} {found : FilePtr × RowVersion}
    (h : Walk load ptr (front ++ [found]) last) (hone : OneRow rowId tableId (front ++ [found]))
    (hfresh : ∀ v ∈ front ++ [found], v.1 ∉ seen)
    (hnot : ∀ v ∈ front, ¬ snapshot.isRowVisible v.2) (hvisible : snapshot.isRowVisible found.2) :
    Resolves load snapshot seen hops rowId tableId ptr
      (.ok (.found ⟨found.1, found.2, hops + front.length + 1⟩)) := by
  induction front generalizing seen hops rowId tableId ptr with
  | nil =>
    obtain ⟨_, rfl, hload, _⟩ := walk_cons.mp h
    obtain ⟨hrow, htable, _, _⟩ := oneRow_cons.mp hone
    have hexpected := loadExpected_eq_ok.mpr ⟨hload, hrow, htable⟩
    exact .found (hfresh _ (List.mem_singleton_self _)) hexpected hvisible
  | cons first front ih =>
    obtain ⟨_, rfl, hload, hrest⟩ := walk_cons.mp h
    obtain ⟨hrow, htable, hptrs, hone⟩ := oneRow_cons.mp hone
    obtain ⟨hseen, hfresh⟩ := List.forall_mem_cons.mp hfresh
    obtain ⟨hhidden, hnot⟩ := List.forall_mem_cons.mp hnot
    have hexpected := loadExpected_eq_ok.mpr ⟨hload, hrow, htable⟩
    have hnone : ¬ first.2.prevPtr.isNone := by
      cases front with
      | nil => exact (walk_cons.mp hrest).1
      | cons => exact (walk_cons.mp hrest).1
    have hhops : hops + (first :: front).length + 1 = hops + 1 + front.length + 1 := by
      rw [List.length_cons]
      omega
    rw [hhops]
    exact .next hseen hexpected hhidden hnone (ih hrest hone (fresh_cons hptrs hfresh) hnot)

theorem Walk.of_isNone (h : Walk load ptr versions last) (hptr : ptr.isNone) : versions = [] := by
  cases h with
  | nil => rfl
  | cons hsome => exact absurd hptr hsome

end Chains

section Resolution
variable {load : FilePtr → Except MvccError RowVersion} {snapshot : Snapshot}
  {rowId : Option UInt64} {tableId : Option UInt32} {head : FilePtr} {lookup : MvccLookup}
  {version : VisibleVersion}

theorem resolves_resolveChain (hhead : ¬ head.isNone) :
    Resolves load snapshot [] 0 rowId tableId head
      (resolveChain load head rowId tableId snapshot) := by
  rw [resolveChain, if_neg hhead]
  exact resolves_resolveLoop List.nodup_nil (by simp [chainFuel])

theorem resolveChain_eq_missing : resolveChain load head rowId tableId snapshot = .ok .missing ↔
    ∃ versions last, Walk load head versions last ∧ last.isNone ∧ OneRow rowId tableId versions ∧
      ∀ v ∈ versions, ¬ snapshot.isRowVisible v.2 := by
  by_cases hhead : head.isNone
  · rw [resolveChain, if_pos hhead]
    refine iff_of_true rfl ⟨[], head, .nil head, hhead, .nil, ?_⟩
    exact fun v hv => absurd hv List.not_mem_nil
  have hrun : Resolves load snapshot [] 0 rowId tableId head
    (resolveChain load head rowId tableId snapshot) := resolves_resolveChain hhead
  constructor
  · intro h
    rw [h] at hrun
    obtain ⟨versions, last, hwalk, hlast, hone, _, hnot⟩ := hrun.of_missing hhead
    exact ⟨versions, last, hwalk, hlast, hone, hnot⟩
  · rintro ⟨versions, last, hwalk, hlast, hone, hnot⟩
    exact hrun.unique
      (hwalk.resolves_missing hlast hone (fun _ _ => List.not_mem_nil) hnot hhead)

theorem resolveChain_eq_found :
    resolveChain load head rowId tableId snapshot = .ok (.found version) ↔
      ∃ front last, Walk load head (front ++ [(version.ptr, version.row)]) last ∧
        OneRow rowId tableId (front ++ [(version.ptr, version.row)]) ∧
        (∀ v ∈ front, ¬ snapshot.isRowVisible v.2) ∧ snapshot.isRowVisible version.row ∧
        version.hops = front.length + 1 := by
  by_cases hhead : head.isNone
  · rw [resolveChain, if_pos hhead]
    refine iff_of_false ?_ ?_
    · intro h
      have hversion := version?_found version
      rw [← Except.ok.inj h] at hversion
      cases hversion
    · rintro ⟨front, last, hwalk, _⟩
      exact List.append_ne_nil_of_right_ne_nil _ (List.cons_ne_nil _ _) (hwalk.of_isNone hhead)
  have hrun : Resolves load snapshot [] 0 rowId tableId head
    (resolveChain load head rowId tableId snapshot) := resolves_resolveChain hhead
  constructor
  · intro h
    rw [h] at hrun
    obtain ⟨_, front, last, hwalk, hone, _, hnot, hsees, hhops⟩ :=
      hrun.of_found (version?_found version) hhead
    rw [Nat.zero_add] at hhops
    exact ⟨front, last, hwalk, hone, hnot, hsees, hhops⟩
  · rintro ⟨front, last, hwalk, hone, hnot, hsees, hhops⟩
    have hfound : Resolves load snapshot [] 0 rowId tableId head
        (.ok (.found ⟨version.ptr, version.row, 0 + front.length + 1⟩)) :=
      hwalk.resolves_found hone (fun _ _ => List.not_mem_nil) hnot hsees
    rw [Nat.zero_add, ← hhops] at hfound
    exact hrun.unique hfound

theorem resolveChain_found_or_missing
    (h : resolveChain load head rowId tableId snapshot = .ok lookup) :
    lookup = .missing ∨ ∃ version, lookup = .found version := by
  by_cases hhead : head.isNone
  · rw [resolveChain, if_pos hhead] at h
    exact .inl (Except.ok.inj h).symm
  have hrun : Resolves load snapshot [] 0 rowId tableId head
    (resolveChain load head rowId tableId snapshot) := resolves_resolveChain hhead
  rw [h] at hrun
  rcases hversion : lookup.version? with _ | version
  · cases lookup with
    | missing => exact .inl rfl
    | deleted | visible => cases hversion
  · exact .inr ⟨version, (hrun.of_found hversion hhead).1⟩

end Resolution

/-- On segments of any contents the loop ends, and a lookup comes back exactly from an acyclic
chain of one row: the first version that the snapshot sees, or nothing when it sees none. -/
theorem chain_resolution (segments : RowSegmentSet) (head : FilePtr) (rowId : Option UInt64)
    (tableId : Option UInt32) (snapshot : Snapshot) :
    let load := segments.loadRowVersion
    let result := resolveChain load head rowId tableId snapshot
    (if head.isNone then result = .ok .missing
      else Resolves load snapshot [] 0 rowId tableId head result) ∧
    (∀ lookup, result = .ok lookup → lookup = .missing ∨ ∃ version, lookup = .found version) ∧
    (∀ version, result = .ok (.found version) ↔
      ∃ front last, Walk load head (front ++ [(version.ptr, version.row)]) last ∧
        OneRow rowId tableId (front ++ [(version.ptr, version.row)]) ∧
        (∀ v ∈ front, ¬ snapshot.isRowVisible v.2) ∧ snapshot.isRowVisible version.row ∧
        version.hops = front.length + 1) ∧
    (result = .ok .missing ↔
      ∃ versions last, Walk load head versions last ∧ last.isNone ∧ OneRow rowId tableId versions ∧
        ∀ v ∈ versions, ¬ snapshot.isRowVisible v.2) := by
  refine ⟨?_, fun lookup => resolveChain_found_or_missing, fun version => resolveChain_eq_found,
    resolveChain_eq_missing⟩
  split_ifs with hhead
  · rw [resolveChain, if_pos hhead]
  · exact resolves_resolveChain hhead

/-- A chain whose head leads nowhere has no version that a snapshot sees, and no lookup comes
back. -/
theorem dangling_chain_refused :
    (∀ versions last, Walk RowSegmentSet.new.loadRowVersion ⟨1, 64⟩ versions last →
      versions = []) ∧
    resolveChain RowSegmentSet.new.loadRowVersion ⟨1, 64⟩ none none .latest =
      .error (.missingSegment 1) := by
  have hload : RowSegmentSet.new.loadRowVersion ⟨1, 64⟩ = .error (.missingSegment 1) := by
    simp [RowSegmentSet.loadRowVersion, RowSegmentSet.new]
  refine ⟨?_, ?_⟩
  · rintro (_ | ⟨v, versions⟩) last h
    · rfl
    · obtain ⟨_, _, hversion, _⟩ := walk_cons.mp h
      rw [hload] at hversion
      cases hversion
  · rw [resolveChain, if_neg (by decide), chainFuel, resolveLoop_succ,
      if_neg List.not_mem_nil, loadExpected, hload]
    rfl

end SkeinDB.Rows
