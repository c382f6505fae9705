import SkeinDB.Values.Transfer

/-!
# Deferred entries

`materialize_staged_transfer_entry` defers an entry whose base chain ends at an id that is neither
staged nor stored, and no other. A deferred entry waits for the answer that brings the id, so the
verification of the staged entries keeps exactly those.
-/
namespace SkeinDB.Values
open SkeinDB.Codec SkeinDB.Format SkeinDB.Delta

section Errors
variable {α β : Type}

theorem bind_ne_notFound {m : Except ValueStoreError α} {f : α → Except ValueStoreError β}
    (hm : m ≠ .error .notFound) (hf : ∀ a, f a ≠ .error .notFound) :
    (m >>= f) ≠ .error .notFound := by
  rcases m with err | a
  · intro h
    cases h
    exact hm rfl
  · exact hf a

theorem decodeLen_ne_notFound (cursor : Bytes) : decodeLen cursor ≠ .error .notFound := by
  unfold decodeLen
  split <;> simp

theorem applyOps_ne_notFound (base : Bytes) (count : ℕ) (cursor out : Bytes) :
    applyOps base count cursor out ≠ .error .notFound := by
  induction count generalizing cursor out with
  | zero => simp [applyOps]
  | succ count ih =>
    rcases cursor with _ | ⟨tag, cursor⟩
    · simp [applyOps]
    rw [applyOps]
    split
    · refine bind_ne_notFound (decodeLen_ne_notFound _) fun p => ?_
      refine bind_ne_notFound (decodeLen_ne_notFound _) fun q => ?_
      dsimp only
      split
      · simp
      · exact ih _ _
    split
    · refine bind_ne_notFound (decodeLen_ne_notFound _) fun p => ?_
      dsimp only
      split
      · simp
      · exact ih _ _
    · simp

theorem applyPatchBytes_ne_notFound (base patch : Bytes) :
    applyPatchBytes base patch ≠ .error .notFound := by
  unfold applyPatchBytes
  refine bind_ne_notFound (decodeLen_ne_notFound _) fun p => ?_
  refine bind_ne_notFound (decodeLen_ne_notFound _) fun q => ?_
  refine bind_ne_notFound (applyOps_ne_notFound _ _ _ _) fun r => ?_
  dsimp only
  split
  · simp
  · split <;> simp

theorem checkPatched_ne_notFound (env : Env) (id : ValueId) (delta : DeltaEntry)
    (baseBytes patch : Bytes) : checkPatched env id delta baseBytes patch ≠ .error .notFound := by
  unfold checkPatched
  split
  · rename_i err herr
    intro h
    cases h
    exact applyPatchBytes_ne_notFound _ _ herr
  · split
    · simp
    · split <;> simp

end Errors

section Deferral
variable {env : Env} {s : ValueStore} {staged : List ValueSegmentEntry}

/-- The hops along staged deltas from an id to one that is neither staged nor stored. -/
inductive Lacks (s : ValueStore) (staged : List ValueSegmentEntry) : ValueId → ℕ → Prop
  | absent {id : ValueId} (hstaged : findStaged staged id = none) (hstored : id ∉ s.index) :
    Lacks s staged id 0
  | delta {id : ValueId} {e : ValueSegmentEntry} {delta : DeltaEntry} {n : ℕ}
      (he : findStaged staged id = some e) (hkind : e.entry.kind = .delta)
      (hdelta : e.entry.delta = some delta) (hbase : Lacks s staged delta.base n) :
    Lacks s staged id (n + 1)

theorem Lacks.functional {id : ValueId} {n m : ℕ} (hn : Lacks s staged id n)
    (hm : Lacks s staged id m) : n = m := by
  induction hn generalizing m with
  | absent hstaged =>
    cases hm with
    | absent => rfl
    | delta he => simp [hstaged] at he
  | delta he _ hdelta _ ih =>
    cases hm with
    | absent hstaged => simp [hstaged] at he
    | delta he' _ hdelta' hbase' =>
      rw [he] at he'
      cases he'
      rw [hdelta] at hdelta'
      cases hdelta'
      rw [ih hbase']

theorem Lacks.not_resolves (hs : Healthy env s) {id : ValueId} {n : ℕ} (h : Lacks s staged id n)
    (v : Bytes) : ¬ Resolves patchValue (stagedNode env s staged) id v := by
  induction h generalizing v with
  | absent hstaged hstored =>
    intro hv
    rcases hs.materialize_cases _ with ⟨w, -, hw⟩ | ⟨herr, -⟩
    · exact hstored (mem_index_of_resolves hs.wf hw)
    · rw [materialize_of_local hstaged hv] at herr
      cases herr
  | delta he hkind hdelta _ ih =>
    intro hv
    have hnode := @stagedNode_delta env s _ _ _ _ he hkind hdelta
    cases hv with
    | cell h => simp [hnode] at h
    | delta h hbase =>
      rw [hnode] at h
      cases h
      exact ih _ hbase

theorem stagedResolver_notFound (hs : Healthy env s)
    {recurse : ValueId → ValueEntry → StagedCache →
      Option (Except TransferMaterializeError Bytes × StagedCache)}
    {baseId : ValueId} {cache cache' : StagedCache}
    (h : stagedResolver env s staged recurse baseId cache = some (.error .notFound, cache')) :
    (∃ e, findStaged staged baseId = some e ∧
      recurse baseId e.entry cache = some (.error .deferred, cache')) ∨
      findStaged staged baseId = none ∧ baseId ∉ s.index := by
  rw [stagedResolver] at h
  split at h
  · cases h
  split at h
  · rename_i e he
    obtain ⟨⟨r, cache₁⟩, hrec, heq⟩ := Option.map_eq_some_iff.mp h
    rcases r with (_ | _) | v
    · cases heq
      exact .inl ⟨e, he, hrec⟩
    · cases heq
    · cases heq
  · rename_i hnone
    obtain ⟨r, hmat, heq⟩ := Option.map_eq_some_iff.mp h
    cases heq
    rcases hs.materialize_cases baseId with ⟨v, hv, -⟩ | ⟨-, hid⟩
    · rw [hmat] at hv
      cases hv
    · exact .inr ⟨hnone, hid⟩

/-- What is deferred lacks an id. -/
theorem materializeStaged_deferred (hs : Healthy env s) {fuel : ℕ} {id : ValueId}
    {e : ValueSegmentEntry} {visiting : List ValueId} {cache cache' : StagedCache}
    (he : findStaged staged id = some e)
    (h : materializeStagedTransferEntry env s staged fuel id e.entry visiting cache =
      some (.error .deferred, cache')) : ∃ n, Lacks s staged id n := by
  induction fuel generalizing id e visiting cache cache' with
  | zero => cases h
  | succ fuel ih =>
    rw [materializeStagedTransferEntry] at h
    split at h
    · cases h
    split_ifs at h with hvisit
    · cases h
    dsimp only at h
    split at h
    · cases h
    · cases h
    rename_i err cache₁ hrun
    have herr : err = .notFound := by
      cases err <;> first | rfl | cases h
    subst herr
    unfold materializeTransferEntryWithResolver at hrun
    split at hrun
    · split at hrun <;> cases hrun
    rename_i hkind
    split at hrun
    · cases hrun
    rename_i delta hdelta
    split at hrun
    · cases hrun
    · rename_i hbase
      cases hrun
      rcases stagedResolver_notFound hs hbase with ⟨e', he', hrec⟩ | ⟨hnone, hstored⟩
      · obtain ⟨n, hn⟩ := ih he' hrec
        exact ⟨n + 1, .delta he (not_not.mp hkind) hdelta hn⟩
      · exact ⟨1, .delta he (not_not.mp hkind) hdelta (.absent hnone hstored)⟩
    · simp only [Option.some.injEq, Prod.mk.injEq] at hrun
      exact absurd hrun.1 (checkPatched_ne_notFound _ _ _ _ _)

theorem Lacks.stagedResolver (hs : Healthy env s)
    {recurse : ValueId → ValueEntry → StagedCache →
      Option (Except TransferMaterializeError Bytes × StagedCache)}
    {baseId : ValueId} {n : ℕ} {cache cache' : StagedCache} {r : Except ValueStoreError Bytes}
    (h : Lacks s staged baseId n) (hcache : StagedSound env s staged cache)
    (hrecurse : ∀ {e r c}, findStaged staged baseId = some e →
      recurse baseId e.entry cache = some (r, c) → r = .error .deferred)
    (hrun : stagedResolver env s staged recurse baseId cache = some (r, cache')) :
    r = .error .notFound := by
  rw [Values.stagedResolver] at hrun
  split at hrun
  · rename_i hit hhit
    exact absurd (hcache baseId hit hhit) (h.not_resolves hs hit)
  split at hrun
  · rename_i e he
    obtain ⟨⟨r', cache₁⟩, hrec, heq⟩ := Option.map_eq_some_iff.mp hrun
    obtain rfl := hrecurse he hrec
    cases heq
    rfl
  · rename_i hnone
    obtain ⟨r', hmat, heq⟩ := Option.map_eq_some_iff.mp hrun
    cases heq
    rcases hs.materialize_cases baseId with ⟨v, hv, -⟩ | ⟨herr, -⟩
    · exact absurd (.cell (stagedNode_local hnone hv)) (h.not_resolves hs v)
    · rw [hmat] at herr
      exact Option.some.inj herr

/-- What lacks an id is deferred: the entries under visit have longer ways to it. -/
theorem Lacks.materializeStaged (hs : Healthy env s) {n fuel : ℕ} {id : ValueId}
    {e : ValueSegmentEntry} {visiting : List ValueId} {cache cache' : StagedCache}
    {r : Except TransferMaterializeError Bytes} (h : Lacks s staged id n)
    (he : findStaged staged id = some e) (hcache : StagedSound env s staged cache)
    (hvisiting : ∀ x ∈ visiting, ∀ m, Lacks s staged x m → n < m)
    (hrun : materializeStagedTransferEntry env s staged fuel id e.entry visiting cache =
      some (r, cache')) : r = .error .deferred := by
  induction h generalizing fuel e visiting cache cache' r with
  | absent hstaged => simp [hstaged] at he
  | @delta id e₁ delta n he₁ hkind hdelta hbase ih =>
    rw [he₁] at he
    cases he
    have hlacks : Lacks s staged id (n + 1) := .delta he₁ hkind hdelta hbase
    rcases fuel with _ | fuel
    · cases hrun
    rw [materializeStagedTransferEntry] at hrun
    split at hrun
    · rename_i hit hhit
      exact absurd (hcache id hit hhit) (hlacks.not_resolves hs hit)
    split_ifs at hrun with hvisit
    · exact absurd (hvisiting id hvisit _ hlacks) (lt_irrefl _)
    have hvisiting' : ∀ x ∈ id :: visiting, ∀ m, Lacks s staged x m → n < m := by
      intro x hx m hm
      rcases List.mem_cons.mp hx with rfl | hx
      · rw [hm.functional hlacks]
        omega
      · have := hvisiting x hx m hm
        omega
    have hresolver {rb : Except ValueStoreError Bytes} {c : StagedCache}
        (hbaseRun : Values.stagedResolver env s staged (fun baseId entry cache =>
          materializeStagedTransferEntry env s staged fuel baseId entry (id :: visiting) cache)
          delta.base cache = some (rb, c)) : rb = .error .notFound :=
      hbase.stagedResolver hs hcache (fun he hrec => ih he hcache hvisiting' hrec) hbaseRun
    have herror {r' : Except ValueStoreError Bytes} {c : StagedCache}
        (hentry : materializeTransferEntryWithResolver env id e₁.entry
          (Values.stagedResolver env s staged fun baseId entry cache =>
            materializeStagedTransferEntry env s staged fuel baseId entry (id :: visiting) cache)
          cache = some (r', c)) : r' = .error .notFound := by
      rw [materializeTransferEntryWithResolver, if_neg (not_not.mpr hkind), hdelta] at hentry
      dsimp only at hentry
      split at hentry
      · cases hentry
      · rename_i hbaseRun
        cases hentry
        exact hresolver hbaseRun
      · rename_i hbaseRun
        cases hresolver hbaseRun
    dsimp only at hrun
    split at hrun
    · cases hrun
    · rename_i hentry
      cases herror hentry
    · rename_i hentry
      cases herror hentry
      cases hrun
      rfl

/-- The verification drops the entries that lack no id. -/
theorem verifyStaged_deferred (hs : Healthy env s) (hnodup : (staged.map (·.id)).Nodup)
    {es : List ValueSegmentEntry} (hes : es ⊆ staged) {cache : StagedCache}
    (hcache : StagedSound env s staged cache) {ready : List (ValueSegmentEntry × Bytes)}
    {failed : List ValueId} (h : verifyStaged env s staged es cache = some (ready, failed)) :
    (∀ e ∈ es, (∃ n, Lacks s staged e.id n) ∨ e.id ∈ failed ∨ ∃ v, (e, v) ∈ ready) ∧
      ∀ id ∈ failed, ∀ n, ¬ Lacks s staged id n := by
  induction es generalizing cache ready failed with
  | nil =>
    cases h
    simp
  | cons e es ih =>
    obtain ⟨he, hes⟩ := List.cons_subset.mp hes
    have hfind := find_of_nodup hnodup he
    obtain ⟨r, cache', hrun, hcache', -⟩ := materializeStaged_iff hs hfind hcache
    rw [verifyStaged, hrun] at h
    obtain ⟨⟨ready', failed'⟩, hrest, heq⟩ := Option.map_eq_some_iff.mp h
    obtain ⟨hall, hfailed⟩ := ih hes hcache' hrest
    rcases r with (_ | _) | bytes
    · cases heq
      exact ⟨List.forall_mem_cons.mpr ⟨.inl (materializeStaged_deferred hs hfind hrun), hall⟩,
        hfailed⟩
    · cases heq
      refine ⟨List.forall_mem_cons.mpr ⟨.inr (.inl (by simp)), fun e' he' => ?_⟩, ?_⟩
      · rcases hall e' he' with hlacks | hmem | hready
        · exact .inl hlacks
        · exact .inr (.inl (List.mem_cons_of_mem _ hmem))
        · exact .inr (.inr hready)
      · refine List.forall_mem_cons.mpr ⟨fun n hn => ?_, hfailed⟩
        cases hn.materializeStaged hs hfind hcache (by simp) hrun
    · cases heq
      refine ⟨List.forall_mem_cons.mpr ⟨.inr (.inr ⟨bytes, by simp⟩), fun e' he' => ?_⟩, hfailed⟩
      rcases hall e' he' with hlacks | hmem | ⟨v, hv⟩
      · exact .inl hlacks
      · exact .inr (.inl hmem)
      · exact .inr (.inr ⟨v, List.mem_cons_of_mem _ hv⟩)

end Deferral

end SkeinDB.Values
