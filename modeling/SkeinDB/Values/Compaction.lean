import SkeinDB.Values.Materialize

/-!
# Delta writes and compaction

`put_with_delta` stores a value as a patch against a base when the policy allows it,
with skip patches against ancestors at doubling distances. `compact_deltas` rewrites
deltas that the current policy no longer allows as cells and rebuilds the skip
patches of the others; it visits the index in the arbitrary order of a hash map.
-/
namespace SkeinDB.Values
open SkeinDB.Codec SkeinDB.Format SkeinDB.Delta

def usizeMax : ℕ := 2 ^ 64 - 1

/-- Walk the base chain of an id, adding up its entries. `none` when the walk does not end,
`some none` when an entry or its delta data is missing. -/
def chainLoop (s : ValueStore) (onDelta onCell : ℕ → ValueEntry → ℕ) :
    ℕ → ValueId → ℕ → Option (Option ℕ)
  | 0, _, _ => none
  | fuel + 1, current, acc =>
    match s.entryById current with
    | none => some none
    | some entry =>
      if entry.kind ≠ .delta then some (some (onCell acc entry))
      else match entry.delta with
        | none => some none
        | some delta => chainLoop s onDelta onCell fuel delta.base (onDelta acc entry)

def deltaChainDepth (s : ValueStore) (id : ValueId) : Option (Option ℕ) :=
  chainLoop s (fun depth _ => min (depth + 1) usizeMax) (fun depth _ => depth)
    (s.entries.length + 1) id 0

def deltaChainBytes (s : ValueStore) (id : ValueId) : Option (Option ℕ) :=
  chainLoop s (fun total e => total + e.bytes.length) (fun total e => total + e.bytes.length)
    (s.entries.length + 1) id 0

def ancestorAtDistance (s : ValueStore) (current : ValueId) : ℕ → Option ValueId
  | 0 => some current
  | steps + 1 =>
    match s.entryById current with
    | none => none
    | some entry =>
      match entry.delta with
      | none => none
      | some delta => ancestorAtDistance s delta.base steps

/-- The loop of `build_skip_patches`, over the patches it may still add. -/
def skipLoop (env : Env) (s : ValueStore) (bytes : Bytes) (baseId : ValueId) (depth : ℕ) :
    ℕ → ℕ → Option (List SkipPatch)
  | 0, _ => some []
  | left + 1, distance =>
    if depth < distance then some []
    else match ancestorAtDistance s baseId (distance - 1) with
      | none => some []
      | some ancestor =>
        match materializeInternal env s ancestor false with
        | none => none
        | some (.error _) => some []
        | some (.ok (baseBytes, _)) =>
          let patch := buildPatchBytes baseBytes bytes
          if patch = [] then some []
          else (skipLoop env s bytes baseId depth left (min (distance * 2) usizeMax)).map
            (fun rest => ⟨ancestor, patch, distance⟩ :: rest)

def buildSkipPatches (env : Env) (s : ValueStore) (bytes : Bytes) (baseId : ValueId)
    (depth maxSkip : ℕ) : Option (List SkipPatch) :=
  skipLoop env s bytes baseId depth maxSkip 2

/-- The policy checks of `put_with_delta` that need no patch. -/
def DeltaPolicy.refusesDepth (policy : DeltaPolicy) (depth : ℕ) : Bool :=
  (0 < policy.maxChain && policy.maxChain < depth) ||
    (0 < policy.snapshotInterval && depth % policy.snapshotInterval == 0)

/-- `put_with_delta`; every case it gives up on is an ordinary `put`. -/
def putWithDelta (env : Env) (s : ValueStore) (kind : ValueKind) (bytes : Bytes)
    (base : Option ValueId) : Option (ValueStore × ValueId) :=
  let policy := s.config.deltaPolicy
  match base with
  | none => some (s.put env kind bytes)
  | some baseId =>
    if !policy.enabled || kind ≠ .cell then some (s.put env kind bytes)
    else
      let id := env.valueId bytes
      if id ∈ s.index then some (s, id)
      else match s.entryById baseId with
        | none => some (s.put env kind bytes)
        | some baseEntry =>
          let baseDepth := (baseEntry.delta.map (·.depth)).getD 0
          match materializeInternal env s baseId false with
          | none => none
          | some (.error _) => some (s.put env kind bytes)
          | some (.ok (baseBytes, _)) =>
            let depth := min (baseDepth + 1) usizeMax
            let fullLen := bytes.length
            let patch := buildPatchBytes baseBytes bytes
            if fullLen < policy.minBytes || policy.refusesDepth depth || patch = [] ||
                policy.exceedsSavings fullLen patch.length then some (s.put env kind bytes)
            else
              (if 0 < policy.maxSkip then
                buildSkipPatches env s bytes baseId depth policy.maxSkip else some []).map
                fun skip =>
                  (s.insertNew env id ⟨.delta, patch, some ⟨baseId, fullLen, depth, skip⟩⟩, id)

structure DeltaCompactionReport where
  rewritten : ℕ
  skipRebuilt : ℕ
  cpuUnits : ℕ
  ioBytesRead : ℕ
  ioBytesWritten : ℕ
  deriving DecidableEq

/-- A hash map's iteration order over the index. -/
abbrev Order := List ((_ : ValueId) × ℕ)

/-- The ids whose delta the policy no longer allows. -/
def rewriteIds (s : ValueStore) (order : Order) : List ValueId :=
  order.filterMap fun p =>
    match s.entries[p.2]? with
    | none => none
    | some entry =>
      if entry.kind ≠ .delta then none
      else match entry.delta with
        | none => none
        | some delta => if s.config.deltaPolicy.refusesDepth delta.depth then some p.1 else none

/-- Rewrite one id as a cell, when it materializes. -/
def rewriteStep (env : Env) (acc : ValueStore × DeltaCompactionReport) (id : ValueId) :
    Option (ValueStore × DeltaCompactionReport) := do
  let (s, report) := acc
  let chainBytes := (← deltaChainBytes s id).getD 0
  match ← materializeInternal env s id false with
  | .error _ => some (s, report)
  | .ok (bytes, _) =>
    match s.index.lookup id with
    | none => some (s, report)
    | some idx =>
      if idx < s.entries.length then
        some ({ s with entries := s.entries.set idx ⟨.cell, bytes, none⟩ },
          { report with
            rewritten := report.rewritten + 1
            ioBytesRead := report.ioBytesRead + chainBytes
            ioBytesWritten := report.ioBytesWritten + bytes.length
            cpuUnits := report.cpuUnits + (chainBytes + bytes.length) })
      else some (s, report)

/-- The new depth and skip patches of one id, when it is a delta that materializes. -/
def skipUpdate (env : Env) (s : ValueStore) (p : (_ : ValueId) × ℕ) :
    Option (Option (ValueId × ℕ × List SkipPatch)) :=
  match s.entries[p.2]? with
  | none => some none
  | some entry =>
    if entry.kind ≠ .delta then some none
    else match entry.delta with
      | none => some none
      | some delta => do
        match ← deltaChainDepth s p.1 with
        | none => some none
        | some depth =>
          match ← materializeInternal env s p.1 false with
          | .error _ => some none
          | .ok (bytes, _) =>
            let skip ← buildSkipPatches env s bytes delta.base depth s.config.deltaPolicy.maxSkip
            some (some (p.1, depth, skip))

/-- The updates of every id in the order, and the bytes read and written for them. -/
def skipUpdates (env : Env) (s : ValueStore) :
    Order → DeltaCompactionReport →
      Option (List (ValueId × ℕ × List SkipPatch) × DeltaCompactionReport)
  | [], report => some ([], report)
  | p :: ps, report => do
    match ← skipUpdate env s p with
    | none => skipUpdates env s ps report
    | some update =>
      let skipBytes := (update.2.2.map (fun k => k.patch.length)).sum
      let chainBytes := (← deltaChainBytes s p.1).getD 0
      let (updates, report) ← skipUpdates env s ps
        { report with
          ioBytesRead := report.ioBytesRead + chainBytes
          ioBytesWritten := report.ioBytesWritten + skipBytes
          cpuUnits := report.cpuUnits + chainBytes + skipBytes }
      some (update :: updates, report)

/-- Store the new depth and skip patches of one id. -/
def applySkipUpdate (acc : ValueStore × DeltaCompactionReport)
    (update : ValueId × ℕ × List SkipPatch) : ValueStore × DeltaCompactionReport :=
  let (s, report) := acc
  match s.index.lookup update.1 with
  | none => (s, report)
  | some idx =>
    match s.entries[idx]? with
    | none => (s, report)
    | some entry =>
      match entry.delta with
      | none => (s, report)
      | some delta =>
        ({ s with
          entries := s.entries.set idx
            { entry with delta := some { delta with depth := update.2.1, skip := update.2.2 } } },
          { report with skipRebuilt := report.skipRebuilt + 1 })

/-- `compact_deltas`, with the two iteration orders of the index it collects. -/
def compactDeltas (env : Env) (s : ValueStore) (order order' : Order) :
    Option (ValueStore × DeltaCompactionReport) := do
  let (s, report) ← (rewriteIds s order).foldlM (rewriteStep env) (s, ⟨0, 0, 0, 0, 0⟩)
  if 0 < s.config.deltaPolicy.maxSkip then
    let (updates, report) ← skipUpdates env s order' report
    some (updates.foldl applySkipUpdate (s, report))
  else some (s, report)

section Specs
variable {env : Env} {s : ValueStore}

theorem nodeFor_true : s.nodeFor env true = s.node env := by
  funext id
  simp [ValueStore.nodeFor]

/-- The evaluation of a key along base patches bottoms out when the key resolves. -/
theorem Resolves.grounded {id : ValueId} {v : Bytes}
    (h : Resolves patchValue (s.node env) id v) :
    ∃ n, Grounded (fun k => (s.nodeFor env false k).map Node.deps) n id :=
  (resolves_iff_sound_dropSkips.mp h).grounded

/-- A walk along a chain that bottoms out ends. -/
theorem chainLoop_ne_none {onDelta onCell : ℕ → ValueEntry → ℕ} {n fuel acc : ℕ} {id : ValueId}
    (h : Grounded (fun k => (s.nodeFor env false k).map Node.deps) n id) (hfuel : n ≤ fuel) :
    chainLoop s onDelta onCell fuel id acc ≠ none := by
  induction n generalizing fuel id acc with
  | zero => exact h.elim
  | succ n ih =>
    obtain ⟨fuel, rfl⟩ : ∃ k, fuel = k + 1 := ⟨fuel - 1, by omega⟩
    obtain ⟨ds, hds, hbelow⟩ := h
    obtain ⟨node, hnode, rfl⟩ := Option.map_eq_some_iff.mp hds
    obtain ⟨entry, hentry, ⟨hkind, rfl⟩ | ⟨delta, hkind, hdelta, rfl⟩⟩ := nodeFor_cases hnode
    · simp [chainLoop, hentry, hkind]
    · simp only [chainLoop, hentry, hkind, ne_eq, not_true_eq_false, if_false, hdelta]
      exact ih (hbelow delta.base (by simp [Node.deps])) (by omega)

/-- A node of the store, by its entry. -/
theorem node_delta {id : ValueId} {entry : ValueEntry} {delta : DeltaEntry}
    (h : s.entryById id = some entry) (hkind : entry.kind = .delta)
    (hdelta : entry.delta = some delta) :
    s.node env id = some (.delta delta.base entry.bytes
      (delta.skip.map (fun k => (k.base, k.patch)))
      (fun v => v.length = delta.fullLen ∧ env.valueId v = id)) := by
  simp [ValueStore.node, h, ValueEntry.node, hkind, hdelta]

theorem node_cell {id : ValueId} {entry : ValueEntry} (h : s.entryById id = some entry)
    (hkind : entry.kind ≠ .delta) : s.node env id = some (.cell entry.bytes) := by
  simp [ValueStore.node, h, ValueEntry.node, hkind]

/-- Within its chain depth, a walk from a key visits ancestors only. -/
theorem ancestor_of_chainLoop {fuel acc d : ℕ} {id : ValueId}
    (h : chainLoop s (fun depth _ => min (depth + 1) usizeMax) (fun depth _ => depth) fuel id
      acc = some (some d)) {k : ℕ} (hk : acc + k ≤ d) {a : ValueId}
    (ha : ancestorAtDistance s id k = some a) : Ancestor (s.node env) id a := by
  induction fuel generalizing id acc k with
  | zero => simp [chainLoop] at h
  | succ fuel ih =>
    rw [chainLoop] at h
    cases hentry : s.entryById id with
    | none => simp [hentry] at h
    | some entry =>
      simp only [hentry] at h
      by_cases hkind : entry.kind = .delta
      · cases hdelta : entry.delta with
        | none => simp [hkind, hdelta] at h
        | some delta =>
          simp only [hkind, ne_eq, not_true_eq_false, if_false, hdelta] at h
          cases k with
          | zero =>
            cases ha
            exact .refl _
          | succ k =>
            simp only [ancestorAtDistance, hentry, hdelta] at ha
            exact .step (node_delta hentry hkind hdelta) (ih h (by omega) ha)
      · simp only [ne_eq, hkind, not_false_eq_true, if_true, Option.some.injEq] at h
        obtain rfl : k = 0 := by omega
        cases ha
        exact .refl _

/-- A skip patch as the loop builds it. -/
structure SkipBuilt (env : Env) (s : ValueStore) (bytes : Bytes) (baseId : ValueId) (depth : ℕ)
    (skip : SkipPatch) : Prop where
  distance : 2 ≤ skip.distance ∧ skip.distance ≤ depth
  ancestor : ancestorAtDistance s baseId (skip.distance - 1) = some skip.base
  patch : ∃ b, Resolves patchValue (s.node env) skip.base b ∧ b ≠ bytes ∧
    skip.patch = buildPatchBytes b bytes

theorem skipLoop_built {bytes : Bytes} {baseId : ValueId} {depth left distance : ℕ}
    {skips : List SkipPatch} (hdist : 2 ≤ distance)
    (h : skipLoop env s bytes baseId depth left distance = some skips) :
    ∀ skip ∈ skips, SkipBuilt env s bytes baseId depth skip := by
  induction left generalizing distance skips with
  | zero =>
    cases h
    simp
  | succ left ih =>
    rw [skipLoop] at h
    split at h
    · cases h
      simp
    rename_i hdepth
    split at h
    · cases h
      simp
    rename_i ancestor hanc
    split at h
    · cases h
    · cases h
      simp
    rename_i b trace hmat
    simp only at h
    split at h
    · cases h
      simp
    rename_i hpatch
    obtain ⟨rest, hrest, rfl⟩ := Option.map_eq_some_iff.mp h
    intro skip hskip
    rcases List.mem_cons.mp hskip with rfl | hskip
    · refine ⟨⟨hdist, by simpa using hdepth⟩, hanc, b, materializeInternal_sound hmat, ?_, rfl⟩
      rintro rfl
      simp [buildPatchBytes] at hpatch
    · exact ih (by simp only [usizeMax]; omega) hrest skip hskip

/-- What an operation that stores a byte string puts into the store: the bytes themselves,
or a patch against a resolving base with skip patches. -/
inductive EntryFor (env : Env) (s : ValueStore) (bytes : Bytes) : ValueEntry → Prop
  | cell {kind : ValueKind} (hkind : kind ≠ .delta) : EntryFor env s bytes ⟨kind, bytes, none⟩
  | delta {baseId : ValueId} {b : Bytes} {depth : ℕ} {skip : List SkipPatch}
      (hbase : Resolves patchValue (s.node env) baseId b) (hne : b ≠ bytes)
      (hskip : ∀ k ∈ skip, SkipBuilt env s bytes baseId depth k) :
      EntryFor env s bytes
        ⟨.delta, buildPatchBytes b bytes, some ⟨baseId, bytes.length, depth, skip⟩⟩

/-- The outcome of storing a byte string: its id was there, or it was added. -/
inductive Stored (env : Env) (s : ValueStore) (bytes : Bytes) : ValueStore → ValueId → Prop
  | present (hid : env.valueId bytes ∈ s.index) : Stored env s bytes s (env.valueId bytes)
  | added {entry : ValueEntry} (hid : env.valueId bytes ∉ s.index)
      (hentry : EntryFor env s bytes entry) :
      Stored env s bytes (s.insertNew env (env.valueId bytes) entry) (env.valueId bytes)

theorem put_stored {kind : ValueKind} (hkind : kind ≠ .delta) (bytes : Bytes) :
    Stored env s bytes (s.put env kind bytes).1 (s.put env kind bytes).2 := by
  unfold ValueStore.put ValueStore.putWithId
  split
  · rename_i hid
    exact .present hid
  · rename_i hid
    exact .added hid (.cell hkind)

/-- A delta write is an ordinary write, or adds a patch against a resolving base. -/
theorem putWithDelta_cases {kind : ValueKind} {bytes : Bytes} {base : Option ValueId}
    {s' : ValueStore} {id : ValueId}
    (h : putWithDelta env s kind bytes base = some (s', id)) :
    s.put env kind bytes = (s', id) ∨
      env.valueId bytes ∉ s.index ∧ id = env.valueId bytes ∧
        ∃ baseId b depth skip, Resolves patchValue (s.node env) baseId b ∧ b ≠ bytes ∧
          (∃ base, s.entryById baseId = some base ∧
            depth = min ((base.delta.map (·.depth)).getD 0 + 1) usizeMax) ∧
          (∀ k ∈ skip, SkipBuilt env s bytes baseId depth k) ∧
          s' = s.insertNew env id
            ⟨.delta, buildPatchBytes b bytes, some ⟨baseId, bytes.length, depth, skip⟩⟩ := by
  unfold putWithDelta at h
  simp only at h
  split at h
  · exact .inl (Option.some.inj h)
  rename_i baseId
  split at h
  · exact .inl (Option.some.inj h)
  split at h
  · rename_i hid
    left
    rw [ValueStore.put, ValueStore.putWithId, if_pos hid]
    exact Option.some.inj h
  rename_i hid
  split at h
  · exact .inl (Option.some.inj h)
  rename_i base hbase
  split at h
  · cases h
  · exact .inl (Option.some.inj h)
  rename_i b trace hmat
  split at h
  · exact .inl (Option.some.inj h)
  rename_i hpolicy
  obtain ⟨skip, hskip, heq⟩ := Option.map_eq_some_iff.mp h
  cases heq
  refine .inr ⟨hid, rfl, baseId, b, _, skip, materializeInternal_sound hmat, ?_,
    ⟨_, hbase, rfl⟩, ?_, rfl⟩
  · rintro rfl
    simp [buildPatchBytes] at hpolicy
  · split at hskip
    · exact skipLoop_built (by norm_num) hskip
    · cases hskip
      simp

theorem putWithDelta_stored {kind : ValueKind} (hkind : kind ≠ .delta) {bytes : Bytes}
    {base : Option ValueId} {s' : ValueStore} {id : ValueId}
    (h : putWithDelta env s kind bytes base = some (s', id)) : Stored env s bytes s' id := by
  obtain hput | ⟨hid, rfl, baseId, b, depth, skip, hbase, hne, -, hskip, rfl⟩ :=
    putWithDelta_cases h
  · have hstored : Stored env s bytes (s.put env kind bytes).1 (s.put env kind bytes).2 :=
      put_stored hkind bytes
    rwa [hput] at hstored
  · exact .added hid (.delta hbase hne hskip)

end Specs

end SkeinDB.Values
