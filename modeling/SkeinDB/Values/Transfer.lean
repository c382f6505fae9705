import SkeinDB.Values.Atomicity
import SkeinDB.Values.RoundTrip

/-!
# Verifying transferred entries

An entry of a peer is staged until it materializes over the other staged entries and the local
store to bytes with its id. The verification follows the bases with a cache and a set of ids under
visit. What it accepts, an import accepts too, and nothing that could be accepted is left out.
-/
namespace SkeinDB.Values
open SkeinDB.Codec SkeinDB.Format SkeinDB.Delta

section Model

def checkPatched (env : Env) (id : ValueId) (delta : DeltaEntry) (baseBytes patch : Bytes) :
    Except ValueStoreError Bytes :=
  match applyPatchBytes baseBytes patch with
  | .error e => .error e
  | .ok value =>
    if value.length ≠ delta.fullLen then .error .deltaLengthMismatch
    else if env.valueId value ≠ id then .error .invalidDelta
    else .ok value

/-- The resolver of bases carries a state along. -/
def materializeTransferEntryWithResolver {σ : Type*} (env : Env) (id : ValueId)
    (entry : ValueEntry) (baseResolver : ValueId → σ → Option (Except ValueStoreError Bytes × σ))
    (state : σ) : Option (Except ValueStoreError Bytes × σ) :=
  if entry.kind ≠ .delta then
    if env.valueId entry.bytes ≠ id then
      some (.error (.invalidSegmentEntry .transferIdMismatch), state)
    else some (.ok entry.bytes, state)
  else match entry.delta with
    | none => some (.error .invalidDelta, state)
    | some delta =>
      match baseResolver delta.base state with
      | none => none
      | some (.error e, state) => some (.error e, state)
      | some (.ok baseBytes, state) =>
        some (checkPatched env id delta baseBytes entry.bytes, state)

inductive TransferMaterializeError
  | deferred
  | invalid
  deriving DecidableEq, Repr

abbrev StagedCache := ValueId → Option Bytes

/-- The staged entries by their ids. -/
def findStaged (staged : List ValueSegmentEntry) (id : ValueId) : Option ValueSegmentEntry :=
  staged.find? (fun e => e.id = id)

def TransferMaterializeError.toStore : TransferMaterializeError → ValueStoreError
  | .deferred => .notFound
  | .invalid => .invalidDelta

def TransferMaterializeError.ofStore : ValueStoreError → TransferMaterializeError
  | .notFound => .deferred
  | _ => .invalid

/-- The closure that resolves a base: from the cache, from the staged entries, or from the local
store. -/
def stagedResolver (env : Env) (s : ValueStore) (staged : List ValueSegmentEntry)
    (recurse : ValueId → ValueEntry → StagedCache →
      Option (Except TransferMaterializeError Bytes × StagedCache))
    (baseId : ValueId) (cache : StagedCache) :
    Option (Except ValueStoreError Bytes × StagedCache) :=
  match cache baseId with
  | some hit => some (.ok hit, cache)
  | none =>
    match findStaged staged baseId with
    | some e => (recurse baseId e.entry cache).map fun r => (r.1.mapError (·.toStore), r.2)
    | none => (materialize env s baseId).map fun r => (r, cache)

/-- The recursion of the source ends because the ids under visit are distinct staged ids. -/
def materializeStagedTransferEntry (env : Env) (s : ValueStore) (staged : List ValueSegmentEntry) :
    ℕ → ValueId → ValueEntry → List ValueId → StagedCache →
      Option (Except TransferMaterializeError Bytes × StagedCache)
  | 0, _, _, _, _ => none
  | fuel + 1, id, entry, visiting, cache =>
    match cache id with
    | some hit => some (.ok hit, cache)
    | none =>
      if id ∈ visiting then some (.error .invalid, cache)
      else
        let recurse (baseId : ValueId) (entry : ValueEntry) (cache : StagedCache) :=
          materializeStagedTransferEntry env s staged fuel baseId entry (id :: visiting) cache
        match materializeTransferEntryWithResolver env id entry
            (stagedResolver env s staged recurse) cache with
        | none => none
        | some (.ok bytes, cache) => some (.ok bytes, Function.update cache id (some bytes))
        | some (.error e, cache) => some (.error (.ofStore e), cache)

/-- The verification of the staged entries, one after the other with one cache: those that
materialize, with their bytes, and the ids of the invalid ones. -/
def verifyStaged (env : Env) (s : ValueStore) (staged : List ValueSegmentEntry) :
    List ValueSegmentEntry → StagedCache →
      Option (List (ValueSegmentEntry × Bytes) × List ValueId)
  | [], _ => some ([], [])
  | e :: es, cache =>
    match materializeStagedTransferEntry env s staged (staged.length + 1) e.id e.entry [] cache with
    | none => none
    | some (r, cache) =>
      (verifyStaged env s staged es cache).map fun (ready, failed) =>
        match r with
        | .ok bytes => ((e, bytes) :: ready, failed)
        | .error .deferred => (ready, failed)
        | .error .invalid => (ready, e.id :: failed)

end Model

section Meaning

/-- The node that a staged entry stands for: unlike a stored one, a value must have its id. -/
def transferNode (env : Env) (e : ValueSegmentEntry) : Option (Node ValueId Bytes Bytes) :=
  if e.entry.kind ≠ .delta then
    if env.valueId e.entry.bytes = e.id then some (.cell e.entry.bytes) else none
  else e.entry.delta.map fun delta =>
    .delta delta.base e.entry.bytes [] (fun v => v.length = delta.fullLen ∧ env.valueId v = e.id)

/-- Staged entries over the values of the local store. -/
def stagedNode (env : Env) (s : ValueStore) (staged : List ValueSegmentEntry) (id : ValueId) :
    Option (Node ValueId Bytes Bytes) :=
  match findStaged staged id with
  | some e => transferNode env e
  | none =>
    match materialize env s id with
    | some (.ok v) => some (.cell v)
    | _ => none

variable {env : Env} {s : ValueStore} {staged : List ValueSegmentEntry}

theorem findStaged_id {id : ValueId} {e : ValueSegmentEntry} (h : findStaged staged id = some e) :
    e.id = id := by
  simpa using List.find?_some h

theorem findStaged_mem {id : ValueId} {e : ValueSegmentEntry} (h : findStaged staged id = some e) :
    e ∈ staged := List.mem_of_find?_eq_some h

theorem stagedNode_staged {id : ValueId} {e : ValueSegmentEntry}
    (h : findStaged staged id = some e) : stagedNode env s staged id = transferNode env e := by
  rw [stagedNode, h]

theorem stagedNode_delta {id : ValueId} {e : ValueSegmentEntry} {delta : DeltaEntry}
    (he : findStaged staged id = some e) (hkind : e.entry.kind = .delta)
    (hdelta : e.entry.delta = some delta) :
    stagedNode env s staged id = some (.delta delta.base e.entry.bytes []
      (fun v => v.length = delta.fullLen ∧ env.valueId v = e.id)) := by
  rw [stagedNode_staged he, transferNode, if_neg (not_not.mpr hkind), hdelta]
  rfl

theorem stagedNode_local {id : ValueId} {v : Bytes} (h : findStaged staged id = none)
    (hv : materialize env s id = some (.ok v)) : stagedNode env s staged id = some (.cell v) := by
  rw [stagedNode, h, hv]

theorem stagedNode_cases {id : ValueId} {e : ValueSegmentEntry} {node : Node ValueId Bytes Bytes}
    (he : findStaged staged id = some e) (h : stagedNode env s staged id = some node) :
    (e.entry.kind ≠ .delta ∧ env.valueId e.entry.bytes = id ∧ node = .cell e.entry.bytes) ∨
      ∃ delta, e.entry.kind = .delta ∧ e.entry.delta = some delta ∧
        node = .delta delta.base e.entry.bytes []
          (fun v => v.length = delta.fullLen ∧ env.valueId v = e.id) := by
  rw [stagedNode_staged he, transferNode] at h
  split_ifs at h with hkind hid
  · cases h
    exact .inl ⟨hkind, by rw [hid, findStaged_id he], rfl⟩
  · obtain ⟨delta, hdelta, rfl⟩ := Option.map_eq_some_iff.mp h
    exact .inr ⟨delta, not_not.mp hkind, hdelta, rfl⟩

/-- A staged entry that resolves gives bytes with its id. -/
theorem valueId_of_staged {id : ValueId} {v : Bytes} {e : ValueSegmentEntry}
    (he : findStaged staged id = some e)
    (h : Resolves patchValue (stagedNode env s staged) id v) : env.valueId v = id := by
  cases h with
  | cell h =>
    obtain ⟨-, hid, hnode⟩ | ⟨delta, -, -, hnode⟩ := stagedNode_cases he h
    · cases hnode
      exact hid
    · cases hnode
  | delta h _ _ haccepts =>
    obtain ⟨-, -, hnode⟩ | ⟨delta, -, -, hnode⟩ := stagedNode_cases he h
    · cases hnode
    · cases hnode
      have hboth := of_decide_eq_true haccepts
      rw [hboth.2, findStaged_id he]

theorem checkPatched_ok {id : ValueId} {delta : DeltaEntry} {b patch v : Bytes} :
    checkPatched env id delta b patch = .ok v ↔
      patchValue b patch = some v ∧ v.length = delta.fullLen ∧ env.valueId v = id := by
  rw [patchValue_eq_some, checkPatched]
  rcases applyPatchBytes b patch with e | w
  · simp
  · simp only [Except.ok.injEq]
    split_ifs with hlen hid <;> grind

/-- Values that the staged entries and the store stand for. -/
def StagedSound (env : Env) (s : ValueStore) (staged : List ValueSegmentEntry)
    (cache : StagedCache) : Prop :=
  ∀ id v, cache id = some v → Resolves patchValue (stagedNode env s staged) id v

theorem StagedSound.update {cache : StagedCache} (h : StagedSound env s staged cache)
    {id : ValueId} {v : Bytes} (hv : Resolves patchValue (stagedNode env s staged) id v) :
    StagedSound env s staged (Function.update cache id (some v)) := by
  intro k w hk
  by_cases hki : k = id
  · subst hki
    rw [Function.update_self] at hk
    cases hk
    exact hv
  · rw [Function.update_of_ne hki] at hk
    exact h k w hk

/-- What an entry materializes to is its bytes or the patched bytes of its base. -/
theorem materializeTransferEntryWithResolver_cases {σ : Type*} {id : ValueId} {entry : ValueEntry}
    {baseResolver : ValueId → σ → Option (Except ValueStoreError Bytes × σ)} {c c' : σ}
    {r : Except ValueStoreError Bytes}
    (h : materializeTransferEntryWithResolver env id entry baseResolver c = some (r, c')) :
    (c' = c ∧ ∀ v, r = .ok v → entry.kind ≠ .delta ∧ v = entry.bytes ∧ env.valueId v = id) ∨
      ∃ delta rb, entry.kind = .delta ∧ entry.delta = some delta ∧
        baseResolver delta.base c = some (rb, c') ∧
        ∀ v, r = .ok v → ∃ b, rb = .ok b ∧ checkPatched env id delta b entry.bytes = .ok v := by
  rw [materializeTransferEntryWithResolver] at h
  split_ifs at h with hkind hid
  · cases h
    exact .inl ⟨rfl, nofun⟩
  · cases h
    refine .inl ⟨rfl, fun v hv => ?_⟩
    cases hv
    exact ⟨hkind, rfl, not_not.mp hid⟩
  · rcases hdelta : entry.delta with _ | delta
    · rw [hdelta] at h
      cases h
      exact .inl ⟨rfl, nofun⟩
    · rw [hdelta] at h
      refine .inr ⟨delta, ?_⟩
      rcases hbase : baseResolver delta.base c with _ | ⟨_ | b, c₁⟩
      · simp [hbase] at h
      · simp only [hbase, Option.some.injEq, Prod.mk.injEq] at h
        obtain ⟨rfl, rfl⟩ := h
        exact ⟨_, not_not.mp hkind, rfl, rfl, nofun⟩
      · simp only [hbase, Option.some.injEq, Prod.mk.injEq] at h
        obtain ⟨rfl, rfl⟩ := h
        exact ⟨_, not_not.mp hkind, rfl, rfl, fun v hv => ⟨b, rfl, hv⟩⟩

/-- In a healthy store the ids that materialize are those that resolve, and every call returns. -/
theorem Healthy.materialize_cases (hs : Healthy env s) (id : ValueId) :
    (∃ v, materialize env s id = some (.ok v) ∧ Resolves patchValue (s.node env) id v) ∨
      materialize env s id = some (.error .notFound) ∧ id ∉ s.index := by
  by_cases hid : id ∈ s.index
  · obtain ⟨v, -, hv⟩ := hs.sound id hid
    exact .inl ⟨v, (materialize_ok hs.wf hv).1, hv.resolves⟩
  · have hnone : s.entryById id = none := by
      rw [← ValueStore.entryById_isSome hs.wf] at hid
      simpa using hid
    refine .inr ⟨?_, hid⟩
    simp [materialize, materializeInternal, materializeWithCache, hnone, Except.map]

theorem stagedResolver_sound
    {recurse : ValueId → ValueEntry → StagedCache →
      Option (Except TransferMaterializeError Bytes × StagedCache)}
    (hrecurse : ∀ {baseId e cache r cache'}, findStaged staged baseId = some e →
      StagedSound env s staged cache → recurse baseId e.entry cache = some (r, cache') →
      StagedSound env s staged cache' ∧
        ∀ v, r = .ok v → Resolves patchValue (stagedNode env s staged) baseId v)
    {baseId : ValueId} {cache cache' : StagedCache} {r : Except ValueStoreError Bytes}
    (hcache : StagedSound env s staged cache)
    (h : stagedResolver env s staged recurse baseId cache = some (r, cache')) :
    StagedSound env s staged cache' ∧
      ∀ v, r = .ok v → Resolves patchValue (stagedNode env s staged) baseId v := by
  rw [stagedResolver] at h
  split at h
  · rename_i hit hhit
    cases h
    refine ⟨hcache, fun v hv => ?_⟩
    cases hv
    exact hcache baseId _ hhit
  split at h
  · rename_i e he
    obtain ⟨⟨r', cache₁⟩, hrec, heq⟩ := Option.map_eq_some_iff.mp h
    cases heq
    obtain ⟨hcache', hr⟩ := hrecurse he hcache hrec
    refine ⟨hcache', fun v hv => ?_⟩
    rcases r' with e | w
    · cases hv
    · cases hv
      exact hr v rfl
  · rename_i hnone
    obtain ⟨r', hmat, heq⟩ := Option.map_eq_some_iff.mp h
    cases heq
    refine ⟨hcache, fun v hv => ?_⟩
    rw [hv] at hmat
    exact .cell (stagedNode_local hnone hmat)

/-- What the verification accepts resolves. -/
theorem materializeStaged_sound {fuel : ℕ} {id : ValueId} {e : ValueSegmentEntry}
    {visiting : List ValueId} {cache cache' : StagedCache}
    {r : Except TransferMaterializeError Bytes} (he : findStaged staged id = some e)
    (hcache : StagedSound env s staged cache)
    (h : materializeStagedTransferEntry env s staged fuel id e.entry visiting cache =
      some (r, cache')) :
    StagedSound env s staged cache' ∧
      ∀ v, r = .ok v → Resolves patchValue (stagedNode env s staged) id v := by
  induction fuel generalizing id e visiting cache cache' r with
  | zero => cases h
  | succ fuel ih =>
    rw [materializeStagedTransferEntry] at h
    split at h
    · rename_i hit hhit
      cases h
      refine ⟨hcache, fun v hv => ?_⟩
      cases hv
      exact hcache id _ hhit
    split_ifs at h with hvisit
    · cases h
      exact ⟨hcache, nofun⟩
    dsimp only at h
    split at h
    · cases h
    · rename_i bytes cache₁ hrun
      cases h
      rcases materializeTransferEntryWithResolver_cases hrun with
        ⟨rfl, hcell⟩ | ⟨delta, rb, hkind, hdelta, hbase, hpatched⟩
      · obtain ⟨hkind, rfl, hid⟩ := hcell bytes rfl
        have hnode : Resolves patchValue (stagedNode env s staged) id e.entry.bytes := by
          refine .cell ?_
          rw [stagedNode_staged he, transferNode, if_pos hkind, if_pos]
          rw [hid, findStaged_id he]
        exact ⟨hcache.update hnode, fun v hv => by cases hv; exact hnode⟩
      · obtain ⟨hcache₁, hb⟩ := stagedResolver_sound ih hcache hbase
        obtain ⟨b, rfl, hcheck⟩ := hpatched bytes rfl
        obtain ⟨hpatch, hlen, hid⟩ := checkPatched_ok.mp hcheck
        have hnode : Resolves patchValue (stagedNode env s staged) id bytes := by
          refine .delta (stagedNode_delta he hkind hdelta) (hb b rfl) hpatch ?_
          simp [hlen, hid, findStaged_id he]
        exact ⟨hcache₁.update hnode, fun v hv => by cases hv; exact hnode⟩
    · rename_i err cache₁ hrun
      cases h
      refine ⟨?_, nofun⟩
      rcases materializeTransferEntryWithResolver_cases hrun with
        ⟨rfl, -⟩ | ⟨delta, rb, -, -, hbase, -⟩
      · exact hcache
      · exact (stagedResolver_sound ih hcache hbase).1

/-- The staged bases of a staged id. -/
def stagedDeps (env : Env) (staged : List ValueSegmentEntry) (id : ValueId) :
    Option (List ValueId) :=
  ((findStaged staged id).bind (transferNode env)).map fun node =>
    node.deps.filter fun base => (findStaged staged base).isSome

/-- The staged bases of an id end within `n` steps. -/
def StagedEnds (env : Env) (staged : List ValueSegmentEntry) (n : ℕ) (id : ValueId) : Prop :=
  Grounded (stagedDeps env staged) n id

theorem stagedDeps_of_node {id : ValueId} {e : ValueSegmentEntry} {node : Node ValueId Bytes Bytes}
    (he : findStaged staged id = some e) (hnode : stagedNode env s staged id = some node) :
    stagedDeps env staged id =
      some (node.deps.filter fun base => (findStaged staged base).isSome) := by
  rw [stagedNode_staged he] at hnode
  rw [stagedDeps, he, Option.bind_some, hnode]
  rfl

theorem StagedEnds.base {n : ℕ} {id base : ValueId} {patch : Bytes} {accepts : Bytes → Bool}
    {e e' : ValueSegmentEntry} (h : StagedEnds env staged (n + 1) id)
    (he : findStaged staged id = some e)
    (hnode : stagedNode env s staged id = some (.delta base patch [] accepts))
    (hbase : findStaged staged base = some e') : StagedEnds env staged n base := by
  obtain ⟨ds, hds, hbelow⟩ := h
  rw [stagedDeps_of_node he hnode] at hds
  cases hds
  apply hbelow base
  simp [Node.deps, hbase]

theorem StagedEnds.delta {n : ℕ} {id base : ValueId} {patch : Bytes} {accepts : Bytes → Bool}
    {e : ValueSegmentEntry} (he : findStaged staged id = some e)
    (hnode : stagedNode env s staged id = some (.delta base patch [] accepts))
    (h : ∀ e', findStaged staged base = some e' → StagedEnds env staged n base) :
    StagedEnds env staged (n + 1) id := by
  refine ⟨_, stagedDeps_of_node he hnode, fun d hd => ?_⟩
  obtain ⟨hd, hsome⟩ := List.mem_filter.mp hd
  obtain rfl : d = base := by simpa [Node.deps] using hd
  obtain ⟨e', he'⟩ := Option.isSome_iff_exists.mp hsome
  exact h e' he'

/-- What resolves ends, within as many steps as there are staged entries. -/
theorem exists_stagedEnds {id : ValueId} {e : ValueSegmentEntry} {v : Bytes}
    (he : findStaged staged id = some e)
    (h : Resolves patchValue (stagedNode env s staged) id v) :
    StagedEnds env staged staged.length id := by
  obtain ⟨n, hn⟩ : ∃ n, StagedEnds env staged n id := by
    induction h generalizing e with
    | cell hnode =>
      exact ⟨1, _, stagedDeps_of_node he hnode, by simp [Node.deps]⟩
    | @delta id base patch skips accepts b v hnode _ _ _ ih =>
      obtain ⟨-, -, heq⟩ | ⟨delta, -, -, heq⟩ := stagedNode_cases he hnode
      · cases heq
      cases heq
      rcases hbase : findStaged staged delta.base with _ | e'
      · exact ⟨1, .delta he hnode (by simp [hbase])⟩
      · obtain ⟨n, hn⟩ := ih hbase
        exact ⟨n + 1, .delta he hnode fun _ _ => hn⟩
  have hpresent : ∀ k ds, stagedDeps env staged k = some ds →
      k ∈ (staged.map (·.id)).toFinset := by
    intro k ds hk
    obtain ⟨node, hnode, -⟩ := Option.map_eq_some_iff.mp hk
    obtain ⟨e, he, -⟩ := Option.bind_eq_some_iff.mp hnode
    rw [List.mem_toFinset, ← findStaged_id he]
    exact List.mem_map_of_mem (findStaged_mem he)
  refine (hn.le_card hpresent).mono ((List.toFinset_card_le _).trans ?_)
  rw [List.length_map]

theorem materialize_of_local {id : ValueId} {v : Bytes} (hnone : findStaged staged id = none)
    (h : Resolves patchValue (stagedNode env s staged) id v) :
    materialize env s id = some (.ok v) := by
  cases h with
  | cell h =>
    simp only [stagedNode, hnone] at h
    split at h
    · cases h
      assumption
    · cases h
  | delta h =>
    simp only [stagedNode, hnone] at h
    split at h
    · cases h
    · cases h

/-- A staged entry that resolves is accepted: no id under visit is as close to the end of its
bases. -/
theorem materializeStaged_ok {n fuel : ℕ} {id : ValueId} {e : ValueSegmentEntry}
    {visiting : List ValueId} {cache : StagedCache} {v : Bytes}
    (he : findStaged staged id = some e)
    (hv : Resolves patchValue (stagedNode env s staged) id v)
    (hend : StagedEnds env staged (n + 1) id) (hmin : ¬ StagedEnds env staged n id)
    (hvisiting : ∀ x ∈ visiting, ¬ StagedEnds env staged (n + 1) x)
    (hcache : StagedSound env s staged cache) (hfuel : n < fuel) :
    ∃ cache', materializeStagedTransferEntry env s staged fuel id e.entry visiting cache =
      some (.ok v, cache') := by
  induction fuel generalizing n id e visiting cache v with
  | zero => omega
  | succ fuel ih =>
    rw [materializeStagedTransferEntry]
    rcases hhit : cache id with _ | hit
    · have hid : id ∉ visiting := fun hmem => hvisiting id hmem hend
      simp only [hid, if_false]
      cases hv with
      | cell hnode =>
        obtain ⟨hkind, hbytes, heq⟩ | ⟨delta, -, -, heq⟩ := stagedNode_cases he hnode
        · cases heq
          simp [materializeTransferEntryWithResolver, hkind, hbytes]
        · cases heq
      | @delta _ base patch skips accepts b v hnode hbase hpatch haccepts =>
        obtain ⟨-, -, heq⟩ | ⟨delta, hkind, hdelta, heq⟩ := stagedNode_cases he hnode
        · cases heq
        cases heq
        have hcheck : checkPatched env id delta b e.entry.bytes = .ok v := by
          have hboth := of_decide_eq_true haccepts
          rw [findStaged_id he] at hboth
          exact checkPatched_ok.mpr ⟨hpatch, hboth⟩
        obtain ⟨cache', hresolver⟩ : ∃ cache', stagedResolver env s staged
            (fun baseId entry cache =>
              materializeStagedTransferEntry env s staged fuel baseId entry (id :: visiting) cache)
            delta.base cache = some (.ok b, cache') := by
          rw [stagedResolver]
          rcases hhit : cache delta.base with _ | hit
          · rcases hbaseFind : findStaged staged delta.base with _ | e'
            · exact ⟨cache, by simp [materialize_of_local hbaseFind hbase]⟩
            · have hbaseEnd := hend.base he hnode hbaseFind
              rcases n with _ | n
              · exact hbaseEnd.elim
              · have hbaseMin : ¬ StagedEnds env staged n delta.base := fun h =>
                  hmin (.delta he hnode fun _ _ => h)
                have hvisiting' : ∀ x ∈ id :: visiting, ¬ StagedEnds env staged (n + 1) x := by
                  intro x hx hends
                  rcases List.mem_cons.mp hx with rfl | hx
                  · exact hmin hends
                  · exact hvisiting x hx (hends.mono (Nat.le_succ _))
                obtain ⟨cache', hrec⟩ :=
                  ih hbaseFind hbase hbaseEnd hbaseMin hvisiting' hcache (by omega)
                exact ⟨cache', by simp [hrec, Except.mapError]⟩
          · rw [hbase.functional (hcache _ hit hhit)]
            exact ⟨cache, rfl⟩
        refine ⟨Function.update cache' id (some v), ?_⟩
        simp [materializeTransferEntryWithResolver, hkind, hdelta, hresolver, hcheck]
    · rw [hv.functional (hcache id hit hhit)]
      exact ⟨cache, rfl⟩

/-- The recursion ends: the ids under visit are distinct staged ids. -/
theorem materializeStaged_ne_none (hs : Healthy env s) {fuel : ℕ} {id : ValueId}
    {e : ValueSegmentEntry} {visiting : List ValueId} {cache : StagedCache}
    (he : findStaged staged id = some e) (hnodup : visiting.Nodup)
    (hstaged : visiting ⊆ staged.map (·.id)) (hfuel : staged.length < fuel + visiting.length) :
    materializeStagedTransferEntry env s staged fuel id e.entry visiting cache ≠ none := by
  induction fuel generalizing id e visiting cache with
  | zero =>
    have hlen := (List.subperm_of_subset hnodup hstaged).length_le
    rw [List.length_map] at hlen
    omega
  | succ fuel ih =>
    rw [materializeStagedTransferEntry]
    split
    · simp
    split_ifs with hvisit
    · simp
    have hid : id ∈ staged.map (·.id) := by
      rw [← findStaged_id he]
      exact List.mem_map_of_mem (findStaged_mem he)
    have hrecurse {baseId : ValueId} {e' : ValueSegmentEntry} {cache : StagedCache}
        (he' : findStaged staged baseId = some e') :
        materializeStagedTransferEntry env s staged fuel baseId e'.entry (id :: visiting) cache ≠
          none := by
      refine ih he' (List.nodup_cons.mpr ⟨hvisit, hnodup⟩) ?_ ?_
      · exact List.cons_subset.mpr ⟨hid, hstaged⟩
      · rw [List.length_cons]
        omega
    have hresolver (baseId : ValueId) (cache : StagedCache) :
        stagedResolver env s staged (fun baseId entry cache =>
          materializeStagedTransferEntry env s staged fuel baseId entry (id :: visiting) cache)
          baseId cache ≠ none := by
      rw [stagedResolver]
      split
      · simp
      split
      · rename_i e' he'
        simpa using hrecurse he'
      · rcases hs.materialize_cases baseId with ⟨v, hv, -⟩ | ⟨hv, -⟩
        · simp [hv]
        · simp [hv]
    dsimp only
    split
    · rename_i hnone
      exfalso
      rw [materializeTransferEntryWithResolver] at hnone
      split_ifs at hnone
      split at hnone
      · cases hnone
      · split at hnone
        · rename_i hbase
          exact hresolver _ _ hbase
        · cases hnone
        · cases hnone
    · simp
    · simp

/-- A staged entry is accepted exactly when it resolves. -/
theorem materializeStaged_iff (hs : Healthy env s) {id : ValueId} {e : ValueSegmentEntry}
    (he : findStaged staged id = some e) {cache : StagedCache}
    (hcache : StagedSound env s staged cache) :
    ∃ r cache', materializeStagedTransferEntry env s staged (staged.length + 1) id e.entry []
        cache = some (r, cache') ∧ StagedSound env s staged cache' ∧
      ∀ v, r = .ok v ↔ Resolves patchValue (stagedNode env s staged) id v := by
  have hreturns := @materializeStaged_ne_none _ _ _ hs _ _ _ _ cache he List.nodup_nil
    (List.nil_subset _) (by simp : staged.length < staged.length + 1 + [].length)
  obtain ⟨⟨r, cache'⟩, hrun⟩ := Option.ne_none_iff_exists'.mp hreturns
  obtain ⟨hcache', hsound⟩ := materializeStaged_sound he hcache hrun
  refine ⟨r, cache', hrun, hcache', fun v => ⟨hsound v, fun hv => ?_⟩⟩
  classical
  have hex : ∃ n, StagedEnds env staged n id := ⟨_, exists_stagedEnds he hv⟩
  obtain ⟨n, hn⟩ : ∃ n, Nat.find hex = n + 1 := by
    rcases hfind : Nat.find hex with _ | n
    · have hzero := Nat.find_spec hex
      rw [hfind] at hzero
      exact hzero.elim
    · exact ⟨n, rfl⟩
  have hend : StagedEnds env staged (n + 1) id := hn ▸ Nat.find_spec hex
  have hle : n + 1 ≤ staged.length := by
    rw [← hn]
    exact Nat.find_min' hex (exists_stagedEnds he hv)
  obtain ⟨cache₁, hok⟩ := materializeStaged_ok he hv hend (Nat.find_min hex (by omega))
    (by simp : ∀ x ∈ [], ¬ StagedEnds env staged (n + 1) x) hcache
    (by omega : n < staged.length + 1)
  rw [hrun] at hok
  cases hok
  rfl

theorem verifyStaged_spec (hs : Healthy env s) (hnodup : (staged.map (·.id)).Nodup)
    {es : List ValueSegmentEntry} (hes : es ⊆ staged) {cache : StagedCache}
    (hcache : StagedSound env s staged cache) :
    ∃ ready failed, verifyStaged env s staged es cache = some (ready, failed) ∧
      ∀ e v, (e, v) ∈ ready ↔ e ∈ es ∧ Resolves patchValue (stagedNode env s staged) e.id v := by
  induction es generalizing cache with
  | nil => exact ⟨[], [], rfl, by simp⟩
  | cons e es ih =>
    obtain ⟨he, hes⟩ := List.cons_subset.mp hes
    obtain ⟨r, cache', hrun, hcache', hr⟩ :=
      materializeStaged_iff hs (find_of_nodup hnodup he) hcache
    obtain ⟨ready, failed, hrest, hready⟩ := ih hes hcache'
    rw [verifyStaged, hrun]
    simp only [hrest, Option.map_some]
    rcases r with (_ | _) | bytes
    · refine ⟨ready, failed, rfl, fun e' v => ?_⟩
      have hnot : ∀ v, ¬ Resolves patchValue (stagedNode env s staged) e.id v := by
        simpa using hr
      rw [hready]
      grind
    · refine ⟨ready, e.id :: failed, rfl, fun e' v => ?_⟩
      have hnot : ∀ v, ¬ Resolves patchValue (stagedNode env s staged) e.id v := by
        simpa using hr
      rw [hready]
      grind
    · refine ⟨(e, bytes) :: ready, failed, rfl, fun e' v => ?_⟩
      have hok : ∀ v, bytes = v ↔ Resolves patchValue (stagedNode env s staged) e.id v := by
        simpa using hr
      rw [List.mem_cons, hready]
      grind

end Meaning

section Sizes

theorem decodeLen_spec {cursor rest : Bytes} {n : ℕ} (h : decodeLen cursor = .ok (n, rest)) :
    n < 2 ^ 64 ∧ rest.length ≤ cursor.length := by
  rw [decodeLen, decodeVaru] at h
  rcases hdecode : Leb128.decode 64 10 cursor with (_ | _) | ⟨value, rest'⟩
  · simp [hdecode] at h
  · simp [hdecode] at h
  · simp only [hdecode, Except.ok.injEq, Prod.mk.injEq] at h
    obtain ⟨rfl, rfl⟩ := h
    exact ⟨UInt64.toNat_lt _, (Leb128.decode_length_lt hdecode).le⟩

theorem decodeDelta1Bytes_spec {rawLen : ℕ} {stored patch : Bytes} {delta : DeltaEntry}
    (h : decodeDelta1Bytes rawLen stored = .ok (delta, patch)) :
    delta.fullLen < 2 ^ 64 ∧ patch.length ≤ stored.length := by
  rw [decodeDelta1Bytes] at h
  split_ifs at h with hlen
  dsimp only at h
  split_ifs at h with hcodec
  obtain ⟨⟨fullLen, rest⟩, hfull, h⟩ := bind_eq_ok h
  dsimp only at h
  split_ifs at h with hraw
  obtain ⟨⟨patchLen, rest'⟩, hpatch, h⟩ := bind_eq_ok h
  dsimp only at h
  split_ifs at h
  cases h
  have hle := (decodeLen_spec hfull).2
  have hle' := (decodeLen_spec hpatch).2
  refine ⟨(decodeLen_spec hfull).1, ?_⟩
  rw [List.length_drop] at hle
  rw [List.length_take]
  omega

/-- The entry of a payload fits into memory as the payload does. -/
theorem decodeTransferEntry_fits {z : Zstd}
    (hz : ∀ bytes decoded, z.decodeAll bytes = .ok decoded → decoded.length < 2 ^ 63)
    {payload : Bytes} (hpayload : payload.length < 2 ^ 63) {e : ValueSegmentEntry}
    (h : decodeTransferEntry z payload = .ok e) : e.entry.Fits := by
  rw [decodeTransferEntry, decodeVsegEntry] at h
  split_ifs at h with hlen htype hversion
  obtain ⟨kind, -, h⟩ := bind_eq_ok h
  obtain ⟨codec, -, h⟩ := bind_eq_ok h
  dsimp only at h
  obtain ⟨⟨rawLen, rest⟩, hraw, h⟩ := bind_eq_ok h
  obtain ⟨⟨storedLen, rest'⟩, hstored, h⟩ := bind_eq_ok h
  dsimp only at h
  split at h
  · cases h
  obtain ⟨stored, hdecoded, h⟩ := bind_eq_ok h
  have hbound : stored.length < 2 ^ 63 := by
    cases codec with
    | raw =>
      cases hdecoded
      have hle : rest.length ≤ (payload.drop 20).length := (decodeLen_spec hraw).2
      have hle' : rest'.length ≤ rest.length := (decodeLen_spec hstored).2
      rw [List.length_drop] at hle
      rw [List.length_take]
      omega
    | zstd =>
      rcases hzstd : z.decodeAll (rest'.take storedLen) with err | decoded
      · simp [decodeVsegBytes, hzstd, Except.mapError] at hdecoded
      · simp only [decodeVsegBytes, hzstd, Except.mapError, Except.ok.injEq] at hdecoded
        exact hdecoded ▸ hz _ _ hzstd
  split at h
  · cases h
  split at h
  · obtain ⟨⟨delta, patch⟩, hdelta, h⟩ := bind_eq_ok h
    cases h
    obtain ⟨hfull, hpatch⟩ := decodeDelta1Bytes_spec hdelta
    refine ⟨hpatch.trans_lt hbound, fun delta' hdelta' => ?_⟩
    cases hdelta'
    exact hfull
  split at h
  · cases h
  · cases h
    refine ⟨hbound, fun delta' hdelta' => ?_⟩
    cases hdelta'

end Sizes

section Import
variable {env : Env} {s : ValueStore} {staged : List ValueSegmentEntry}
  {ready : List (ValueSegmentEntry × Bytes)}

/-- The entries that the verification of all staged ones accepts, with their values. -/
def Accepted (env : Env) (s : ValueStore) (staged : List ValueSegmentEntry)
    (ready : List (ValueSegmentEntry × Bytes)) : Prop :=
  ∀ e v, (e, v) ∈ ready ↔ e ∈ staged ∧ Resolves patchValue (stagedNode env s staged) e.id v

/-- A staged id that the store holds too has the same value in both. -/
def Agrees (env : Env) (s : ValueStore) (staged : List ValueSegmentEntry) : Prop :=
  ∀ e ∈ staged, e.id ∈ s.index → ∀ v,
    Resolves patchValue (stagedNode env s staged) e.id v → Resolves patchValue (s.node env) e.id v

theorem Accepted.mergedNode (h : Accepted env s staged ready) (hs : s.WF)
    (hnodup : (staged.map (·.id)).Nodup) {e : ValueSegmentEntry} (he : e ∈ staged)
    (hid : e.id ∉ s.index) {v : Bytes}
    (hv : Resolves patchValue (stagedNode env s staged) e.id v) :
    s.mergedNode env (ready.map Prod.fst) e.id = e.entry.node env e.id := by
  have hnone : s.entryById e.id = none := by
    rw [← ValueStore.entryById_isSome hs] at hid
    simpa using hid
  have hfind : (ready.map Prod.fst).find? (fun x => x.id = e.id) = some e := by
    have hmem : e ∈ ready.map Prod.fst := List.mem_map_of_mem ((h e v).mpr ⟨he, hv⟩)
    obtain ⟨x, hx⟩ : ∃ x, (ready.map Prod.fst).find? (fun x => x.id = e.id) = some x := by
      rw [← Option.isSome_iff_exists, List.find?_isSome]
      exact ⟨e, hmem, by simp⟩
    obtain ⟨⟨x', w⟩, hxw, rfl⟩ := List.mem_map.mp (List.mem_of_find?_eq_some hx)
    have hxid : x'.id = e.id := by simpa using List.find?_some hx
    have hsame := find_of_nodup hnodup ((h x' w).mp hxw).1
    rw [hxid, find_of_nodup hnodup he] at hsame
    rw [hx, Option.some.inj hsame]
  rw [ValueStore.mergedNode, ValueStore.mergedEntry, hnone, hfind]
  rfl

/-- What was verified over the staged entries resolves over the accepted ones alone. -/
theorem Accepted.resolves (h : Accepted env s staged ready) (hs : Healthy env s)
    (hnodup : (staged.map (·.id)).Nodup) (hagree : Agrees env s staged) {id : ValueId} {v : Bytes}
    (hv : Resolves patchValue (stagedNode env s staged) id v) :
    Resolves patchValue (s.mergedNode env (ready.map Prod.fst)) id v := by
  have hlocal {k : ValueId} {w : Bytes} (hk : Resolves patchValue (s.node env) k w) :
      Resolves patchValue (s.mergedNode env (ready.map Prod.fst)) k w :=
    hk.refine (mergedNode_refines _)
  have hheld {k : ValueId} {w : Bytes} {e : ValueSegmentEntry}
      (he : findStaged staged k = some e) (hk : k ∈ s.index)
      (hw : Resolves patchValue (stagedNode env s staged) k w) :
      Resolves patchValue (s.mergedNode env (ready.map Prod.fst)) k w := by
    obtain rfl := findStaged_id he
    exact hlocal (hagree e (findStaged_mem he) hk w hw)
  induction hv with
  | @cell k w hnode =>
    have hw : Resolves patchValue (stagedNode env s staged) k w := .cell hnode
    rcases hfind : findStaged staged k with _ | e
    · have hmat := materialize_of_local hfind hw
      rcases hs.materialize_cases k with ⟨w', hw', hres⟩ | ⟨herr, -⟩
      · rw [hmat] at hw'
        cases hw'
        exact hlocal hres
      · rw [hmat] at herr
        cases herr
    · by_cases hk : k ∈ s.index
      · exact hheld hfind hk hw
      · obtain ⟨hkind, -, heq⟩ | ⟨delta, -, -, heq⟩ := stagedNode_cases hfind hnode
        · cases heq
          obtain rfl := findStaged_id hfind
          refine .cell ?_
          rw [h.mergedNode hs.wf hnodup (findStaged_mem hfind) hk hw]
          simp [ValueEntry.node, hkind]
        · cases heq
  | @delta k base patch skips accepts b w hnode hbase hpatch haccepts ih =>
    have hw : Resolves patchValue (stagedNode env s staged) k w :=
      .delta hnode hbase hpatch haccepts
    rcases hfind : findStaged staged k with _ | e
    · simp only [stagedNode, hfind] at hnode
      split at hnode <;> cases hnode
    · by_cases hk : k ∈ s.index
      · exact hheld hfind hk hw
      · obtain ⟨-, -, heq⟩ | ⟨delta, hkind, hdelta, heq⟩ := stagedNode_cases hfind hnode
        · cases heq
        · cases heq
          obtain rfl := findStaged_id hfind
          have hmerged := h.mergedNode hs.wf hnodup (findStaged_mem hfind) hk hw
          simp only [ValueEntry.node, hkind, hdelta, ne_eq, not_true, if_false,
            Option.map_some] at hmerged
          exact .delta hmerged ih hpatch haccepts

theorem mergedEntry_isSome (hs : s.WF) {es : List ValueSegmentEntry} {id : ValueId} :
    (s.mergedEntry es id).isSome ↔ id ∈ s.index ∨ ∃ e ∈ es, e.id = id := by
  rw [ValueStore.mergedEntry, Option.isSome_or, Bool.or_eq_true, ValueStore.entryById_isSome hs]
  simp

/-- An import, failing or not, leaves the ids of the store and those of the list. -/
theorem mem_index_of_import (hs : s.WF) {es : List ValueSegmentEntry} {u : ValueStore}
    {r : Except ValueStoreError ℕ} (h : s.importTransferEntries env es = some (r, u))
    {id : ValueId} : id ∈ u.index ↔ id ∈ s.index ∨ ∃ e ∈ es, e.id = id := by
  obtain ⟨r', p, q, u', hrun, hrec, -⟩ := importTransferEntries_spec env hs es
  rw [hrun] at h
  cases h
  obtain ⟨-, hindex, -⟩ := recomputed_frame (hrec.pushes.wf hs) hrec.reset hrec.learned
  rw [hindex, ← ValueStore.entryById_isSome (hrec.pushes.wf hs), hrec.look, mergedEntry_isSome hs]

/-- The import of the accepted entries succeeds. -/
theorem Accepted.import (h : Accepted env s staged ready) (hs : Healthy env s)
    (hnodup : (staged.map (·.id)).Nodup) (hagree : Agrees env s staged) :
    ∃ n u, s.importTransferEntries env (ready.map Prod.fst) = some (.ok n, u) ∧
      (∀ id v, Resolves patchValue (s.node env) id v → Resolves patchValue (u.node env) id v) ∧
      ∀ p ∈ ready, Resolves patchValue (u.node env) p.1.id p.2 := by
  have hall : AllResolve env s (ready.map Prod.fst) := by
    intro id hid
    by_cases hs' : id ∈ s.index
    · obtain ⟨v, -, hv⟩ := hs.sound id hs'
      exact ⟨v, hv.resolves.refine (mergedNode_refines _)⟩
    · obtain ⟨e, he, rfl⟩ := ((mergedEntry_isSome hs.wf).mp hid).resolve_left hs'
      obtain ⟨⟨e, v⟩, hp, rfl⟩ := List.mem_map.mp he
      exact ⟨v, h.resolves hs hnodup hagree ((h e v).mp hp).2⟩
  obtain ⟨r, p, q, u, hrun, hrec, hcases⟩ :=
    importTransferEntries_spec env hs.wf (ready.map Prod.fst)
  obtain ⟨-, -, -, hiff⟩ := recomputed_frame (hrec.pushes.wf hs.wf) hrec.reset hrec.learned
  have hok : ∃ n, r = .ok n := by
    rcases hcases with ⟨-, rfl, -⟩ | ⟨-, -, hok, -⟩
    · exact ⟨0, rfl⟩
    · exact hok.mpr hall
  obtain ⟨n, rfl⟩ := hok
  have hnode : p.node env = s.mergedNode env (ready.map Prod.fst) := by
    funext k
    rw [ValueStore.node, ValueStore.mergedNode, hrec.look]
  refine ⟨n, u, hrun, ?_, ?_⟩
  · intro id v hv
    rw [hiff, hnode]
    exact hv.refine (mergedNode_refines _)
  · rintro ⟨e, v⟩ hp
    rw [hiff, hnode]
    exact h.resolves hs hnodup hagree ((h e v).mp hp).2

end Import

end SkeinDB.Values
