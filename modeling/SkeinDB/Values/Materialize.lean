import SkeinDB.Values.Store
import SkeinDB.Delta.Resolution

/-!
# Materializing delta chains

`materialize_with_cache` evaluates an id through its base and, when asked to, through
every skip patch, with one cache per call. The recursion of the source is bounded
here by the number of entries; it exceeds that bound only on a cycle of bases, where
the source does not return, and the result is then `none`.
-/
namespace SkeinDB.Values
open SkeinDB.Codec SkeinDB.Format SkeinDB.Delta

structure DeltaReconstructTrace where
  steps : ℕ
  usedSkip : Bool
  deriving DecidableEq

abbrev Cache := ValueId → Option (Bytes × DeltaReconstructTrace)

/-- A call that may not return, may fail, and passes its cache on when it succeeds. -/
abbrev Materialized := Option (Except ValueStoreError ((Bytes × DeltaReconstructTrace) × Cache))

/-- A base and the patch against it, and whether it is a skip patch. -/
structure Candidate where
  base : ValueId
  patch : Bytes
  isSkip : Bool

def DeltaEntry.candidates (delta : DeltaEntry) (patch : Bytes) (useSkip : Bool) :
    List Candidate :=
  ⟨delta.base, patch, false⟩ ::
    if useSkip then delta.skip.map (fun s => ⟨s.base, s.patch, true⟩) else []

/-- Keep the result with the fewest steps, the earlier one on a tie. -/
def keepFewer (best : Option (Bytes × DeltaReconstructTrace)) (value : Bytes)
    (trace : DeltaReconstructTrace) : Bytes × DeltaReconstructTrace :=
  match best with
  | none => (value, trace)
  | some (v, t) => if trace.steps < t.steps then (value, trace) else (v, t)

/-- The candidate loop: every candidate is evaluated and must succeed. -/
def candidateLoop (materialize : ValueId → Cache → Materialized) (fullLen : ℕ) :
    List Candidate → Option (Bytes × DeltaReconstructTrace) → Cache →
      Option (Except ValueStoreError (Option (Bytes × DeltaReconstructTrace) × Cache))
  | [], best, cache => some (.ok (best, cache))
  | c :: cs, best, cache =>
    match materialize c.base cache with
    | none => none
    | some (.error e) => some (.error e)
    | some (.ok ((baseBytes, baseTrace), cache)) =>
      match applyPatchBytes baseBytes c.patch with
      | .error e => some (.error e)
      | .ok value =>
        if value.length ≠ fullLen then some (.error .deltaLengthMismatch)
        else
          let trace : DeltaReconstructTrace := ⟨baseTrace.steps + 1, baseTrace.usedSkip || c.isSkip⟩
          candidateLoop materialize fullLen cs (some (keepFewer best value trace)) cache

def materializeWithCache (env : Env) (s : ValueStore) (useSkip : Bool) :
    ℕ → ValueId → Cache → Materialized
  | 0, _, _ => none
  | fuel + 1, id, cache =>
    match cache id with
    | some hit => some (.ok (hit, cache))
    | none =>
      match s.entryById id with
      | none => some (.error .notFound)
      | some entry =>
        if entry.kind ≠ .delta then
          let result := (entry.bytes, (⟨0, false⟩ : DeltaReconstructTrace))
          some (.ok (result, Function.update cache id (some result)))
        else match entry.delta with
          | none => some (.error .invalidDelta)
          | some delta =>
            match candidateLoop (materializeWithCache env s useSkip fuel) delta.fullLen
                (delta.candidates entry.bytes useSkip) none cache with
            | none => none
            | some (.error e) => some (.error e)
            | some (.ok (none, _)) => some (.error .invalidDelta)
            | some (.ok (some (value, trace), cache)) =>
              if env.valueId value ≠ id then some (.error .invalidDelta)
              else some (.ok ((value, trace), Function.update cache id (some (value, trace))))

def materializeInternal (env : Env) (s : ValueStore) (id : ValueId) (useSkip : Bool) :
    Option (Except ValueStoreError (Bytes × DeltaReconstructTrace)) :=
  (materializeWithCache env s useSkip (s.entries.length + 1) id (fun _ => none)).map
    (fun r => r.map Prod.fst)

def materialize (env : Env) (s : ValueStore) (id : ValueId) :
    Option (Except ValueStoreError Bytes) :=
  (materializeInternal env s id true).map (fun r => r.map Prod.fst)

/-- The patch application of the store, as the library of delta chains sees it. -/
def patchValue (base patch : Bytes) : Option Bytes := (applyPatchBytes base patch).toOption

/-- The node an entry stands for. A delta entry without delta data is none. -/
def ValueEntry.node (env : Env) (id : ValueId) (entry : ValueEntry) :
    Option (Node ValueId Bytes Bytes) :=
  if entry.kind ≠ .delta then some (.cell entry.bytes)
  else entry.delta.map fun delta =>
    .delta delta.base entry.bytes (delta.skip.map (fun s => (s.base, s.patch)))
      (fun v => v.length = delta.fullLen ∧ env.valueId v = id)

def ValueStore.node (env : Env) (s : ValueStore) (id : ValueId) :
    Option (Node ValueId Bytes Bytes) :=
  (s.entryById id).bind (fun entry => entry.node env id)

/-- The node as an evaluation with or without skip patches sees it. -/
def ValueStore.nodeFor (env : Env) (s : ValueStore) (useSkip : Bool) (id : ValueId) :
    Option (Node ValueId Bytes Bytes) :=
  if useSkip then s.node env id else (s.node env id).map Node.dropSkips

section Correctness
variable {env : Env} {s : ValueStore} {useSkip : Bool}

theorem patchValue_eq_some {b patch v : Bytes} :
    patchValue b patch = some v ↔ applyPatchBytes b patch = .ok v := by
  rw [patchValue]
  cases applyPatchBytes b patch <;> simp [Except.toOption]

/-- The skip patches an evaluation looks at. -/
def DeltaEntry.skipsFor (delta : DeltaEntry) (useSkip : Bool) : List (ValueId × Bytes) :=
  if useSkip then delta.skip.map (fun s => (s.base, s.patch)) else []

theorem nodeFor_cell {id : ValueId} {entry : ValueEntry} (h : s.entryById id = some entry)
    (hkind : entry.kind ≠ .delta) : s.nodeFor env useSkip id = some (.cell entry.bytes) := by
  cases useSkip <;> simp [ValueStore.nodeFor, ValueStore.node, ValueEntry.node, h, hkind,
    Node.dropSkips]

theorem nodeFor_delta {id : ValueId} {entry : ValueEntry} {delta : DeltaEntry}
    (h : s.entryById id = some entry) (hkind : entry.kind = .delta)
    (hdelta : entry.delta = some delta) :
    s.nodeFor env useSkip id = some (.delta delta.base entry.bytes (delta.skipsFor useSkip)
      (fun v => v.length = delta.fullLen ∧ env.valueId v = id)) := by
  cases useSkip <;> simp [ValueStore.nodeFor, ValueStore.node, ValueEntry.node, h, hkind, hdelta,
    Node.dropSkips, DeltaEntry.skipsFor]

/-- An entry that evaluates to a node, by its kind. -/
theorem nodeFor_cases {id : ValueId} {n : Node ValueId Bytes Bytes}
    (h : s.nodeFor env useSkip id = some n) :
    ∃ entry, s.entryById id = some entry ∧
      ((entry.kind ≠ .delta ∧ n = .cell entry.bytes) ∨
        ∃ delta, entry.kind = .delta ∧ entry.delta = some delta ∧
          n = .delta delta.base entry.bytes (delta.skipsFor useSkip)
            (fun v => v.length = delta.fullLen ∧ env.valueId v = id)) := by
  cases hentry : s.entryById id with
  | none => cases useSkip <;> simp [ValueStore.nodeFor, ValueStore.node, hentry] at h
  | some entry =>
    refine ⟨entry, rfl, ?_⟩
    by_cases hkind : entry.kind = .delta
    · cases hdelta : entry.delta with
      | none =>
        cases useSkip <;>
          simp [ValueStore.nodeFor, ValueStore.node, ValueEntry.node, hentry, hkind, hdelta] at h
      | some delta =>
        rw [nodeFor_delta hentry hkind hdelta] at h
        exact .inr ⟨delta, hkind, rfl, (Option.some.inj h).symm⟩
    · rw [nodeFor_cell hentry hkind] at h
      exact .inl ⟨hkind, (Option.some.inj h).symm⟩

/-- A cache that holds only values of the keys it holds them for. -/
def CacheSound (env : Env) (s : ValueStore) (useSkip : Bool) (cache : Cache) : Prop :=
  ∀ id hit, cache id = some hit → Sound patchValue (s.nodeFor env useSkip) id hit.1

theorem CacheSound.update {cache : Cache} (h : CacheSound env s useSkip cache) {id : ValueId}
    {hit : Bytes × DeltaReconstructTrace}
    (hid : Sound patchValue (s.nodeFor env useSkip) id hit.1) :
    CacheSound env s useSkip (Function.update cache id (some hit)) := by
  intro k hit' hk
  by_cases hki : k = id
  · subst hki
    rw [Function.update_self] at hk
    cases hk
    exact hid
  · rw [Function.update_of_ne hki] at hk
    exact h k hit' hk

theorem keepFewer_fst {best : Option (Bytes × DeltaReconstructTrace)} {v : Bytes}
    (hbest : ∀ p, best = some p → p.1 = v) (trace : DeltaReconstructTrace) :
    (keepFewer best v trace).1 = v := by
  cases best with
  | none => rfl
  | some p =>
    have hp := hbest p rfl
    simp only [keepFewer]
    split
    · rfl
    · exact hp

/-- When every candidate gives the value, so does the loop. -/
theorem candidateLoop_ok {materialize : ValueId → Cache → Materialized} {v : Bytes}
    {cs : List Candidate} {best : Option (Bytes × DeltaReconstructTrace)} {cache : Cache}
    (hcs : ∀ c ∈ cs, ∃ b, applyPatchBytes b c.patch = .ok v ∧
      ∀ cache, CacheSound env s useSkip cache → ∃ trace cache',
        materialize c.base cache = some (.ok ((b, trace), cache')) ∧
          CacheSound env s useSkip cache')
    (hbest : ∀ p, best = some p → p.1 = v) (hcache : CacheSound env s useSkip cache) :
    ∃ best' cache', candidateLoop materialize v.length cs best cache = some (.ok (best', cache')) ∧
      CacheSound env s useSkip cache' ∧ (∀ p, best' = some p → p.1 = v) ∧
      (cs ≠ [] ∨ best ≠ none → best' ≠ none) := by
  induction cs generalizing best cache with
  | nil => exact ⟨best, cache, rfl, hcache, hbest, by simp⟩
  | cons c cs ih =>
    obtain ⟨b, hpatch, hmat⟩ := hcs c (by simp)
    obtain ⟨trace, cache1, hrun, hcache1⟩ := hmat cache hcache
    let best1 := keepFewer best v ⟨trace.steps + 1, trace.usedSkip || c.isSkip⟩
    have hbest1 : best1.1 = v := keepFewer_fst hbest _
    obtain ⟨best', cache', hloop, hcache', hv, hne⟩ :=
      ih (fun d hd => hcs d (by simp [hd])) (fun p hp => by rw [← Option.some.inj hp, hbest1])
        hcache1
    refine ⟨best', cache', ?_, hcache', hv, fun _ => hne (.inr (by simp))⟩
    rw [candidateLoop, hrun]
    simp only [hpatch, ne_eq, not_true_eq_false, if_false]
    exact hloop

/-- A sound key materializes to its value, given enough recursion depth. -/
theorem materializeWithCache_ok {n fuel : ℕ} {id : ValueId} {v : Bytes} {cache : Cache}
    (hsound : Sound patchValue (s.nodeFor env useSkip) id v)
    (hground : Grounded (fun k => (s.nodeFor env useSkip k).map Node.deps) n id)
    (hfuel : n ≤ fuel) (hcache : CacheSound env s useSkip cache) :
    ∃ trace cache', materializeWithCache env s useSkip fuel id cache =
      some (.ok ((v, trace), cache')) ∧ CacheSound env s useSkip cache' := by
  induction n generalizing fuel id v cache with
  | zero => exact hground.elim
  | succ n ih =>
    obtain ⟨fuel, rfl⟩ : ∃ k, fuel = k + 1 := ⟨fuel - 1, by omega⟩
    rw [materializeWithCache]
    cases hit : cache id with
    | some hit' =>
      have hv := (hcache id hit' hit).resolves.functional hsound.resolves
      exact ⟨hit'.2, cache, by rw [← hv], hcache⟩
    | none =>
      obtain ⟨ds, hds, hbelow⟩ := hground
      obtain ⟨node, hnode, rfl⟩ := Option.map_eq_some_iff.mp hds
      obtain ⟨entry, hentry, ⟨hkind, rfl⟩ | ⟨delta, hkind, hdelta, rfl⟩⟩ := nodeFor_cases hnode
      · have hv : entry.bytes = v := (Resolves.cell hnode).functional hsound.resolves
        simp only [hentry, ne_eq, hkind, not_false_eq_true, if_true]
        rw [hv]
        exact ⟨⟨0, false⟩, _, rfl, hcache.update hsound⟩
      · cases hsound with
        | cell h => simp [hnode] at h
        | @delta _ _ _ _ _ b _ skipValue h hbase hpatch haccepts hskip hskipPatch =>
          rw [hnode] at h
          cases h
          simp only [decide_eq_true_eq] at haccepts
          have hcs : ∀ c ∈ delta.candidates entry.bytes useSkip,
              ∃ b, applyPatchBytes b c.patch = .ok v ∧
                ∀ cache, CacheSound env s useSkip cache → ∃ trace cache',
                  materializeWithCache env s useSkip fuel c.base cache =
                    some (.ok ((b, trace), cache')) ∧ CacheSound env s useSkip cache' := by
            intro c hc
            rcases List.mem_cons.mp hc with rfl | hc
            · exact ⟨b, patchValue_eq_some.mp hpatch, fun cache hcache =>
                ih hbase (hbelow _ (by simp [Node.deps])) (by omega) hcache⟩
            · cases useSkip with
              | false => simp at hc
              | true =>
                obtain ⟨sk, hsk, rfl⟩ := List.mem_map.mp (by simpa using hc)
                have hq : (sk.base, sk.patch) ∈ delta.skipsFor true := by
                  rw [DeltaEntry.skipsFor, if_pos rfl]
                  exact List.mem_map.mpr ⟨sk, hsk, rfl⟩
                refine ⟨_, patchValue_eq_some.mp (hskipPatch _ hq), fun cache hcache =>
                  ih (hskip _ hq) (hbelow _ ?_) (by omega) hcache⟩
                simp only [Node.deps, List.mem_cons, List.mem_map]
                exact .inr ⟨_, hq, rfl⟩
          have hnone : ∀ p : Bytes × DeltaReconstructTrace, none = some p → p.1 = v := by simp
          obtain ⟨best, cache', hloop, hcache', hbest, hne⟩ := candidateLoop_ok hcs hnone hcache
          simp only [hentry, hkind, ne_eq, not_true_eq_false, if_false, hdelta, ← haccepts.1, hloop]
          cases best with
          | none => exact absurd rfl (hne (.inl (by simp [DeltaEntry.candidates])))
          | some p =>
            obtain ⟨w, trace⟩ := p
            obtain rfl : w = v := hbest _ rfl
            simp only [haccepts.2, not_true_eq_false, if_false]
            refine ⟨trace, _, rfl, hcache'.update ?_⟩
            exact .delta skipValue hnode hbase hpatch (by simpa using haccepts) hskip hskipPatch

theorem candidateLoop_ne_none {materialize : ValueId → Cache → Materialized} {fullLen : ℕ}
    {cs : List Candidate} {best : Option (Bytes × DeltaReconstructTrace)} {cache : Cache}
    (hcs : ∀ c ∈ cs, ∀ cache, materialize c.base cache ≠ none) :
    candidateLoop materialize fullLen cs best cache ≠ none := by
  induction cs generalizing best cache with
  | nil => simp [candidateLoop]
  | cons c cs ih =>
    have hc := hcs c (by simp) cache
    rw [candidateLoop]
    split
    · contradiction
    · simp
    · split
      · simp
      · split
        · simp
        · exact ih (fun d hd => hcs d (by simp [hd]))

/-- An evaluation whose dependencies bottom out returns. -/
theorem materializeWithCache_ne_none {n fuel : ℕ} {id : ValueId} {cache : Cache}
    (hground : Grounded (fun k => (s.nodeFor env useSkip k).map Node.deps) n id)
    (hfuel : n ≤ fuel) : materializeWithCache env s useSkip fuel id cache ≠ none := by
  induction n generalizing fuel id cache with
  | zero => exact hground.elim
  | succ n ih =>
    obtain ⟨fuel, rfl⟩ : ∃ k, fuel = k + 1 := ⟨fuel - 1, by omega⟩
    obtain ⟨ds, hds, hbelow⟩ := hground
    obtain ⟨node, hnode, rfl⟩ := Option.map_eq_some_iff.mp hds
    rw [materializeWithCache]
    cases cache id with
    | some hit => simp
    | none =>
      obtain ⟨entry, hentry, ⟨hkind, rfl⟩ | ⟨delta, hkind, hdelta, rfl⟩⟩ := nodeFor_cases hnode
      · simp [hentry, hkind]
      · have hloop : candidateLoop (materializeWithCache env s useSkip fuel) delta.fullLen
            (delta.candidates entry.bytes useSkip) none cache ≠ none := by
          refine candidateLoop_ne_none fun c hc cache => ih (hbelow c.base ?_) (by omega)
          rw [Node.deps, DeltaEntry.skipsFor]
          rcases List.mem_cons.mp hc with rfl | hc
          · simp
          · cases useSkip with
            | false => simp at hc
            | true =>
              obtain ⟨sk, hsk, rfl⟩ := List.mem_map.mp (by simpa using hc)
              simp only [if_true, List.mem_cons, List.map_map, List.mem_map]
              exact .inr ⟨sk, hsk, rfl⟩
        simp only [hentry, hkind, ne_eq, not_true_eq_false, if_false, hdelta]
        split
        · contradiction
        · simp
        · simp
        · split <;> simp

/-- What materializes along base patches resolves. -/
theorem materializeWithCache_sound {fuel : ℕ} {id : ValueId} {v : Bytes}
    {trace : DeltaReconstructTrace} {cache cache' : Cache}
    (h : materializeWithCache env s false fuel id cache = some (.ok ((v, trace), cache')))
    (hcache : CacheSound env s false cache) :
    Sound patchValue (s.nodeFor env false) id v ∧ CacheSound env s false cache' := by
  induction fuel generalizing id v trace cache cache' with
  | zero => simp [materializeWithCache] at h
  | succ fuel ih =>
    rw [materializeWithCache] at h
    cases hit : cache id with
    | some hit' =>
      simp only [hit, Option.some.injEq, Except.ok.injEq, Prod.mk.injEq] at h
      obtain ⟨rfl, rfl⟩ := h
      exact ⟨hcache id _ hit, hcache⟩
    | none =>
      simp only [hit] at h
      cases hentry : s.entryById id with
      | none => simp [hentry] at h
      | some entry =>
        simp only [hentry] at h
        by_cases hkind : entry.kind = .delta
        · cases hdelta : entry.delta with
          | none => simp [hkind, hdelta] at h
          | some delta =>
            simp only [hkind, ne_eq, not_true_eq_false, if_false, hdelta] at h
            have hcands : delta.candidates entry.bytes false = [⟨delta.base, entry.bytes, false⟩] :=
              rfl
            rw [hcands, candidateLoop] at h
            cases hbase : materializeWithCache env s false fuel delta.base cache with
            | none => simp [hbase] at h
            | some r =>
              cases r with
              | error e => simp [hbase] at h
              | ok r =>
                obtain ⟨⟨b, btrace⟩, cache1⟩ := r
                obtain ⟨hb, hcache1⟩ := ih hbase hcache
                simp only [hbase] at h
                cases hpatch : applyPatchBytes b entry.bytes with
                | error e => simp [hpatch] at h
                | ok value =>
                  simp only [hpatch] at h
                  by_cases hlen : value.length = delta.fullLen
                  · simp only [hlen, ne_eq, not_true_eq_false, if_false, candidateLoop, keepFewer] at h
                    by_cases hvid : env.valueId value = id
                    · simp only [hvid, not_true_eq_false, if_false, Option.some.injEq,
                        Except.ok.injEq, Prod.mk.injEq] at h
                      obtain ⟨⟨rfl, rfl⟩, rfl⟩ := h
                      have hv : Sound patchValue (s.nodeFor env false) id value :=
                        .of_delta (nodeFor_delta hentry hkind hdelta) hb
                          (patchValue_eq_some.mpr hpatch) (by simp [hlen, hvid])
                          (by simp [DeltaEntry.skipsFor])
                      exact ⟨hv, hcache1.update hv⟩
                    · simp [hvid] at h
                  · simp [hlen] at h
        · simp only [ne_eq, hkind, not_false_eq_true, if_true, Option.some.injEq, Except.ok.injEq,
            Prod.mk.injEq] at h
          obtain ⟨⟨rfl, rfl⟩, rfl⟩ := h
          have hv : Sound patchValue (s.nodeFor env false) id entry.bytes :=
            .cell (nodeFor_cell hentry hkind)
          exact ⟨hv, hcache.update hv⟩

/-- The recursion depth a call is given covers every key that bottoms out. -/
theorem grounded_entries (hs : s.WF) {n : ℕ} {id : ValueId}
    (h : Grounded (fun k => (s.nodeFor env useSkip k).map Node.deps) n id) :
    Grounded (fun k => (s.nodeFor env useSkip k).map Node.deps) s.entries.length id := by
  have hpresent : ∀ k ds, (s.nodeFor env useSkip k).map Node.deps = some ds →
      k ∈ s.index.keys.toFinset := by
    intro k ds hk
    obtain ⟨node, hnode, -⟩ := Option.map_eq_some_iff.mp hk
    obtain ⟨entry, hentry, -⟩ := nodeFor_cases hnode
    rw [List.mem_toFinset, ← AList.mem_keys, ← ValueStore.entryById_isSome hs, hentry]
    rfl
  refine (h.le_card hpresent).mono (le_trans (List.toFinset_card_le _) ?_)
  exact ValueStore.index_length_le hs

theorem cacheSound_empty : CacheSound env s useSkip (fun _ => none) := by
  intro id hit h
  cases h

theorem materializeInternal_ok (hs : s.WF) {id : ValueId} {v : Bytes}
    (h : Sound patchValue (s.nodeFor env useSkip) id v) :
    ∃ trace, materializeInternal env s id useSkip = some (.ok (v, trace)) := by
  obtain ⟨n, hn⟩ := h.grounded
  obtain ⟨trace, cache', hrun, -⟩ := materializeWithCache_ok h (grounded_entries hs hn)
    (Nat.le_succ _) cacheSound_empty
  exact ⟨trace, by rw [materializeInternal, hrun]; rfl⟩

theorem materializeInternal_sound {id : ValueId} {v : Bytes} {trace : DeltaReconstructTrace}
    (h : materializeInternal env s id false = some (.ok (v, trace))) :
    Resolves patchValue (s.node env) id v := by
  rw [materializeInternal] at h
  cases hrun : materializeWithCache env s false (s.entries.length + 1) id (fun _ => none) with
  | none => simp [hrun] at h
  | some r =>
    cases r with
    | error e => simp [hrun, Except.map] at h
    | ok r =>
      obtain ⟨⟨w, t⟩, cache'⟩ := r
      simp only [hrun, Option.map_some, Except.map, Option.some.injEq, Except.ok.injEq,
        Prod.mk.injEq] at h
      obtain ⟨rfl, rfl⟩ := h
      exact resolves_iff_sound_dropSkips.mpr (materializeWithCache_sound hrun cacheSound_empty).1

/-- Materializing without skip patches succeeds exactly on the keys that resolve. -/
theorem materializeInternal_iff (hs : s.WF) {id : ValueId} {v : Bytes} :
    (∃ trace, materializeInternal env s id false = some (.ok (v, trace))) ↔
      Resolves patchValue (s.node env) id v := by
  constructor
  · rintro ⟨trace, h⟩
    exact materializeInternal_sound h
  · intro h
    exact materializeInternal_ok hs (resolves_iff_sound_dropSkips.mp h)

end Correctness

end SkeinDB.Values
