import SkeinDB.Values.Import

/-!
# Lookups through the learned index

The learned index is a copy of the hash index that is sorted and may be stale. A lookup
probes the range the model predicts and falls back to the hash index. Whatever range the
model predicts, and however old the copy is, the lookup finds what the hash index holds,
and the Bloom filter accepts every stored id.
-/
namespace SkeinDB.Values
open SkeinDB.Codec SkeinDB.Format SkeinDB.Delta

namespace BloomFilter

/-- The bit test of `maybe_contains`. -/
def hasBit (bits : List UInt64) (pos : ℕ) : Bool :=
  bits.getD (pos / 64) 0 &&& (1 <<< UInt64.ofNat (pos % 64)) != 0

theorem maybeContains_iff (f : BloomFilter) (id : ValueId) :
    f.maybeContains id ↔ ∀ pos ∈ f.hashes id, hasBit f.bits pos := by
  rw [maybeContains, List.all_eq_true]
  rfl

theorem mask_ne_zero {k : ℕ} (hk : k < 64) : (1 : UInt64) <<< UInt64.ofNat k ≠ 0 := by
  decide +revert

theorem or_and_self (w mask : UInt64) : (w ||| mask) &&& mask = mask := by
  apply UInt64.toBitVec_inj.mp
  ext i hi
  simp +contextual

theorem or_and_distrib (w mask q : UInt64) : (w ||| mask) &&& q = (w &&& q) ||| (mask &&& q) := by
  apply UInt64.toBitVec_inj.mp
  ext i hi
  simp [Bool.and_or_distrib_right]

theorem getD_setBit (bits : List UInt64) (pos i : ℕ) :
    (setBit bits pos).getD i 0 =
      if pos / 64 = i ∧ i < bits.length then
        bits.getD i 0 ||| (1 <<< UInt64.ofNat (pos % 64))
      else bits.getD i 0 := by
  rw [setBit, List.getD_eq_getElem?_getD, List.getD_eq_getElem?_getD, List.getElem?_modify]
  by_cases hi : i < bits.length
  · by_cases hpos : pos / 64 = i <;> simp [hi, hpos]
  · simp [hi]

theorem hasBit_setBit_self {bits : List UInt64} {pos : ℕ} (hpos : pos / 64 < bits.length) :
    hasBit (setBit bits pos) pos := by
  rw [hasBit, bne_iff_ne, getD_setBit, if_pos ⟨rfl, hpos⟩, or_and_self]
  exact mask_ne_zero (Nat.mod_lt pos (by norm_num))

theorem hasBit_setBit_mono {bits : List UInt64} {q : ℕ} (pos : ℕ) (h : hasBit bits q) :
    hasBit (setBit bits pos) q := by
  rw [hasBit, bne_iff_ne] at h ⊢
  rw [getD_setBit]
  split
  · rw [or_and_distrib, ne_eq, UInt64.or_eq_zero_iff]
    exact fun hzero => h hzero.1
  · exact h

theorem hasBit_foldl_mono (positions : List ℕ) {bits : List UInt64} {q : ℕ} (h : hasBit bits q) :
    hasBit (positions.foldl setBit bits) q := by
  induction positions generalizing bits with
  | nil => exact h
  | cons pos positions ih => exact ih (hasBit_setBit_mono pos h)

theorem length_foldl_setBit (positions : List ℕ) (bits : List UInt64) :
    (positions.foldl setBit bits).length = bits.length := by
  induction positions generalizing bits with
  | nil => rfl
  | cons pos positions ih => rw [List.foldl_cons, ih, setBit, List.length_modify]

theorem hasBit_foldl_self {positions : List ℕ} {bits : List UInt64}
    (hpos : ∀ pos ∈ positions, pos / 64 < bits.length) {q : ℕ} (hq : q ∈ positions) :
    hasBit (positions.foldl setBit bits) q := by
  induction positions generalizing bits with
  | nil => simp at hq
  | cons pos positions ih =>
    rw [List.foldl_cons]
    rcases List.mem_cons.mp hq with rfl | hq
    · exact hasBit_foldl_mono positions (hasBit_setBit_self (hpos q (by simp)))
    · refine ih (fun p hp => ?_) hq
      rw [setBit, List.length_modify]
      exact hpos p (by simp [hp])

/-- The words of the filter cover every position it hashes to. -/
structure Covers (f : BloomFilter) : Prop where
  pos : 0 < f.mBits
  word : f.mBits < 2 ^ 64
  bits : f.mBits ≤ 64 * f.bits.length

theorem new_covers : (new 1024).Covers := by
  refine ⟨?_, ?_, ?_⟩ <;> decide +kernel

theorem Covers.hashes {f : BloomFilter} (h : f.Covers) {id : ValueId} {pos : ℕ}
    (hpos : pos ∈ f.hashes id) : pos / 64 < f.bits.length := by
  obtain ⟨i, -, rfl⟩ := List.mem_map.mp hpos
  have hbits := h.bits
  have hlt : ∀ x : UInt64, (x % UInt64.ofNat f.mBits).toNat < f.mBits := by
    intro x
    rw [UInt64.toNat_mod, UInt64.toNat_ofNat_of_lt' h.word]
    exact Nat.mod_lt _ h.pos
  have hpos := hlt (UInt64.ofNat (leNat (id.val.take 8)) +
    UInt64.ofNat i * UInt64.ofNat (leNat (id.val.drop 8)) + UInt64.ofNat i)
  omega

theorem Covers.insert {f : BloomFilter} (h : f.Covers) (id : ValueId) : (f.insert id).Covers :=
  ⟨h.pos, h.word, by simpa [BloomFilter.insert, length_foldl_setBit] using h.bits⟩

theorem maybeContains_insert {f : BloomFilter} (h : f.Covers) {id k : ValueId}
    (hk : k = id ∨ f.maybeContains k) : (f.insert id).maybeContains k := by
  rw [maybeContains_iff]
  intro pos hpos
  rcases hk with rfl | hk
  · exact hasBit_foldl_self (fun p hp => h.hashes hp) hpos
  · exact hasBit_foldl_mono _ ((maybeContains_iff f k).mp hk pos hpos)

end BloomFilter

/-- A byte vector holds fewer than `2 ^ 63` bytes and a length fits in 64 bits. -/
structure ValueEntry.Fits (entry : ValueEntry) : Prop where
  bytes : entry.bytes.length < 2 ^ 63
  fullLen : ∀ delta, entry.delta = some delta → delta.fullLen < 2 ^ 64

/-- Every store that any use of the operations can reach, also through failing imports. The
source fixes `enable_learned_index` when a store is made; here it may change at any time. -/
inductive Reachable (env : Env) : ValueStore → Prop
  | new (config : ValueStoreConfig) : Reachable env (.new config)
  | putWithId {s : ValueStore} (h : Reachable env s) (kind : ValueKind) (id : ValueId)
      {bytes : Bytes} (hlen : bytes.length < 2 ^ 63) : Reachable env (s.putWithId env kind id bytes).1
  | putWithDelta {s t : ValueStore} {kind : ValueKind} {bytes : Bytes} {base : Option ValueId}
      {id : ValueId} (h : Reachable env s) (hlen : bytes.length < 2 ^ 63)
      (hput : putWithDelta env s kind bytes base = some (t, id)) : Reachable env t
  | setDeltaPolicy {s : ValueStore} (h : Reachable env s) (policy : DeltaPolicy) :
      Reachable env (s.setDeltaPolicy policy)
  | compactDeltas {s t : ValueStore} {order order' : Order} {report : DeltaCompactionReport}
      (h : Reachable env s) (hcompact : compactDeltas env s order order' = some (t, report)) :
      Reachable env t
  | get {s : ValueStore} (h : Reachable env s) (id : ValueId) : Reachable env (s.get id).2
  | enable {s : ValueStore} (h : Reachable env s) (enabled : Bool) :
      Reachable env { s with config := { s.config with enableLearnedIndex := enabled } }
  | maybeRefresh {s : ValueStore} (h : Reachable env s) : Reachable env (s.maybeRefresh env)
  | refreshLearnedIndex {s : ValueStore} (h : Reachable env s) :
      Reachable env (s.refreshLearnedIndex env)
  | importTransferEntries {s t : ValueStore} {es : List ValueSegmentEntry}
      {r : Except ValueStoreError ℕ} (h : Reachable env s) (hfits : ∀ e ∈ es, e.entry.Fits)
      (himport : s.importTransferEntries env es = some (r, t)) : Reachable env t
  | loadStore {config : ValueStoreConfig} {t : ValueStore} {es : List ValueSegmentEntry}
      (hfits : ∀ e ∈ es, e.entry.Fits)
      (hload : ValueStore.loadStore env config es = some (.ok t)) : Reachable env t

/-- The sorted copy agrees with the index and the Bloom filter holds every stored id. -/
structure LookupInv (s : ValueStore) : Prop where
  wf : s.WF
  sorted : ∀ (i : ℕ) (k : ValueId), s.sortedKeys[i]? = some k →
    ∃ e, s.sortedEntries[i]? = some e ∧ s.index.lookup k = some e
  covers : s.bloom.Covers
  bloom : ∀ id ∈ s.index, s.bloom.maybeContains id

section Invariant
variable {env : Env} {s t : ValueStore}

theorem new_lookupInv (config : ValueStoreConfig) : LookupInv (.new config) where
  wf := ValueStore.new_wf config
  sorted := by simp [ValueStore.new]
  covers := BloomFilter.new_covers
  bloom := by simp [ValueStore.new]

theorem LookupInv.pushEntry (h : LookupInv s) {id : ValueId} (hid : id ∉ s.index)
    (entry : ValueEntry) : LookupInv (s.pushEntry id entry) where
  wf := ValueStore.pushEntry_wf h.wf hid entry
  sorted i k hk := by
    obtain ⟨e, he, hlook⟩ := h.sorted i k hk
    have hne : k ≠ id := by
      rintro rfl
      exact hid (AList.lookup_isSome.mp (by rw [hlook]; rfl))
    exact ⟨e, he, by rw [ValueStore.pushEntry, AList.lookup_insert_ne hne, hlook]⟩
  covers := h.covers.insert id
  bloom k hk := by
    rw [ValueStore.pushEntry, AList.mem_insert] at hk
    exact BloomFilter.maybeContains_insert h.covers (hk.imp_right (h.bloom k))

/-- Statistics, policies and trained models do not matter. -/
theorem LookupInv.congr (h : LookupInv s) (hentries : t.entries.length = s.entries.length)
    (hids : t.entryIds = s.entryIds) (hindex : t.index = s.index) (hbloom : t.bloom = s.bloom)
    (hkeys : t.sortedKeys = s.sortedKeys) (hsorted : t.sortedEntries = s.sortedEntries) :
    LookupInv t := by
  refine ⟨⟨?_, ?_, ?_⟩, ?_, ?_, ?_⟩
  · rw [hids, hentries, h.wf.lengths]
  · rw [hids]
    exact h.wf.nodup
  · rw [hids, hindex]
    exact h.wf.lookup
  · rw [hkeys, hsorted, hindex]
    exact h.sorted
  · rw [hbloom]
    exact h.covers
  · rw [hindex, hbloom]
    exact h.bloom

theorem LookupInv.refreshLearnedIndex (h : LookupInv s) :
    LookupInv (s.refreshLearnedIndex env) := by
  have hsame := ValueStore.refreshLearnedIndex_same env s
  refine ⟨hsame.wf h.wf, ?_, ?_, ?_⟩
  · rw [hsame.index]
    unfold ValueStore.refreshLearnedIndex
    split
    · simp
    · intro i k hk
      simp only [ValueStore.rebuildSortedKeys, List.getElem?_map, Option.map_eq_some_iff] at hk ⊢
      obtain ⟨p, hp, rfl⟩ := hk
      refine ⟨p.2, ⟨p, hp, rfl⟩, AList.mem_lookup_iff.mpr ?_⟩
      exact (List.perm_insertionSort _ _).mem_iff.mp (List.mem_of_getElem? hp)
  · rw [hsame.bloom]
    exact h.covers
  · rw [hsame.index, hsame.bloom]
    exact h.bloom

theorem LookupInv.maybeRefresh (h : LookupInv s) : LookupInv (s.maybeRefresh env) := by
  unfold ValueStore.maybeRefresh
  split
  · exact h.refreshLearnedIndex
  · exact h

theorem LookupInv.insertNew (h : LookupInv s) {id : ValueId} (hid : id ∉ s.index)
    (entry : ValueEntry) : LookupInv (s.insertNew env id entry) := by
  let t := { s.pushEntry id entry with insertsSinceRefresh := satSucc s.insertsSinceRefresh }
  have ht : LookupInv t := (h.pushEntry hid entry).congr rfl rfl rfl rfl rfl rfl
  change LookupInv (if t.config.enableLearnedIndex then t.maybeRefresh env else t)
  split
  · exact ht.maybeRefresh
  · exact ht

theorem LookupInv.pushes {es : List ValueSegmentEntry} (h : LookupInv s) (hpush : Pushes es s t) :
    LookupInv t := by
  induction hpush with
  | refl => exact h
  | push _ hid _ ih => exact ih (h.pushEntry hid _)

theorem LookupInv.reset (h : LookupInv s) (hreset : Reset s t) : LookupInv t := by
  have hlen := hreset.length
  rw [hreset.shape] at hlen ⊢
  exact h.congr hlen rfl rfl rfl rfl rfl

/-- Other entries in the same positions. -/
structure Rewritten (s t : ValueStore) : Prop where
  shape : t = { s with entries := t.entries }
  length : t.entries.length = s.entries.length

theorem Rewritten.refl (s : ValueStore) : Rewritten s s := ⟨rfl, rfl⟩

theorem Rewritten.trans {u : ValueStore} (h : Rewritten s t) (h' : Rewritten t u) :
    Rewritten s u := by
  refine ⟨?_, h'.length.trans h.length⟩
  rw [h'.shape, h.shape]

theorem rewritten_set (s : ValueStore) (idx : ℕ) (entry : ValueEntry) :
    Rewritten s { s with entries := s.entries.set idx entry } := ⟨rfl, List.length_set⟩

theorem LookupInv.rewritten (h : LookupInv s) (hr : Rewritten s t) : LookupInv t := by
  have hlen := hr.length
  rw [hr.shape] at hlen ⊢
  exact h.congr hlen rfl rfl rfl rfl rfl

theorem rewriteStep_rewritten {report report' : DeltaCompactionReport} {id : ValueId}
    (h : rewriteStep env (s, report) id = some (t, report')) : Rewritten s t := by
  simp only [rewriteStep, Option.bind_eq_bind, Option.bind_eq_some_iff] at h
  obtain ⟨chain, -, m, -, h⟩ := h
  cases m with
  | error e =>
    cases h
    exact .refl s
  | ok m =>
    obtain ⟨bytes, trace⟩ := m
    simp only at h
    split at h
    · cases h
      exact .refl s
    · split at h
      · cases h
        exact rewritten_set s _ _
      · cases h
        exact .refl s

theorem rewrite_run_rewritten {ids : List ValueId} {report report' : DeltaCompactionReport}
    (h : ids.foldlM (rewriteStep env) (s, report) = some (t, report')) : Rewritten s t := by
  induction ids generalizing s report with
  | nil =>
    cases h
    exact .refl _
  | cons id ids ih =>
    rw [List.foldlM_cons, Option.bind_eq_bind, Option.bind_eq_some_iff] at h
    obtain ⟨⟨u, report1⟩, hstep, hrun⟩ := h
    exact (rewriteStep_rewritten hstep).trans (ih hrun)

theorem applySkipUpdate_rewritten (acc : ValueStore × DeltaCompactionReport)
    (update : ValueId × ℕ × List SkipPatch) :
    Rewritten acc.1 (applySkipUpdate acc update).1 := by
  obtain ⟨s, report⟩ := acc
  simp only [applySkipUpdate]
  split
  · exact .refl _
  split
  · exact .refl _
  split
  · exact .refl _
  · exact rewritten_set _ _ _

theorem applySkipUpdates_rewritten (acc : ValueStore × DeltaCompactionReport)
    (updates : List (ValueId × ℕ × List SkipPatch)) :
    Rewritten acc.1 (updates.foldl applySkipUpdate acc).1 := by
  induction updates generalizing acc with
  | nil => exact .refl _
  | cons update updates ih => exact (applySkipUpdate_rewritten acc update).trans (ih _)

/-- A compaction, of any store, rewrites entries in place. -/
theorem compactDeltas_rewritten {order order' : Order} {report : DeltaCompactionReport}
    (h : compactDeltas env s order order' = some (t, report)) : Rewritten s t := by
  simp only [compactDeltas, Option.bind_eq_bind, Option.bind_eq_some_iff] at h
  obtain ⟨⟨u, report1⟩, hrun, h⟩ := h
  have hu := rewrite_run_rewritten hrun
  simp only at h
  split at h
  · simp only [Option.bind_eq_some_iff] at h
    obtain ⟨⟨updates, report2⟩, -, h⟩ := h
    have happly := applySkipUpdates_rewritten (u, report2) updates
    rw [Option.some.inj h] at happly
    exact hu.trans happly
  · cases h
    exact hu

theorem get_snd (s : ValueStore) (id : ValueId) :
    (s.get id).2 = { s with lookupHist := s.lookupHist.record id } := by
  unfold ValueStore.get ValueStore.getWithTrace
  simp only
  split <;> rfl

theorem LookupInv.putWithId (h : LookupInv s) (kind : ValueKind) (id : ValueId) (bytes : Bytes) :
    LookupInv (s.putWithId env kind id bytes).1 := by
  unfold ValueStore.putWithId
  split
  · exact h
  · rename_i hid
    exact h.insertNew hid _

theorem Reachable.lookupInv (h : Reachable env s) : LookupInv s := by
  induction h with
  | new config => exact new_lookupInv config
  | putWithId _ kind id _ ih => exact ih.putWithId kind id _
  | @putWithDelta s t kind bytes base id _ _ hput ih =>
    obtain hput | ⟨hid, rfl, _, _, _, _, -, -, -, -, rfl⟩ := putWithDelta_cases hput
    · have hinv : LookupInv (s.put env kind bytes).1 := ih.putWithId kind (env.valueId bytes) bytes
      rwa [hput] at hinv
    · exact ih.insertNew hid _
  | setDeltaPolicy _ _ ih => exact ih.congr rfl rfl rfl rfl rfl rfl
  | compactDeltas _ hcompact ih => exact ih.rewritten (compactDeltas_rewritten hcompact)
  | @get s _ id ih =>
    rw [get_snd]
    exact ih.congr rfl rfl rfl rfl rfl rfl
  | enable _ _ ih => exact ih.congr rfl rfl rfl rfl rfl rfl
  | maybeRefresh _ ih => exact ih.maybeRefresh
  | refreshLearnedIndex _ ih => exact ih.refreshLearnedIndex
  | @importTransferEntries s t es r _ _ himport ih =>
    obtain ⟨r', p, q, u, hrun, hrec, -⟩ := importTransferEntries_spec env ih.wf es
    rw [hrun] at himport
    cases himport
    have hq := (ih.pushes hrec.pushes).reset hrec.reset
    rcases hrec.learned with rfl | rfl
    · exact hq
    · exact hq.refreshLearnedIndex
  | @loadStore config t es _ hload =>
    obtain ⟨p, q, hpush, hreset, hlearned, -⟩ := loadStore_spec hload
    have hq := ((new_lookupInv config).pushes hpush).reset hreset
    rcases hlearned with rfl | rfl
    · exact hq
    · exact hq.refreshLearnedIndex

end Invariant

theorem probeLoop_eq_some {keys : List ValueId} {id : ValueId} {positions : List ℕ} {n idx : ℕ}
    (h : (ValueStore.probeLoop keys id positions n).1 = some idx) : keys[idx]? = some id := by
  induction positions generalizing n with
  | nil => simp [ValueStore.probeLoop] at h
  | cons pos positions ih =>
    rw [ValueStore.probeLoop] at h
    split at h
    · rename_i hkey
      cases h
      exact hkey
    · exact ih h

/-- Probing the predicted range finds positions of the id only. -/
theorem probeLearned_eq_some {s : ValueStore} {id : ValueId} {used : Bool} {idx n : ℕ}
    (h : s.probeLearned id = (used, some idx, n)) : s.sortedKeys[idx]? = some id := by
  unfold ValueStore.probeLearned at h
  split at h
  · split at h
    · simp only [Prod.mk.injEq] at h
      exact probeLoop_eq_some (by rw [h.2])
    · simp at h
  · simp at h

theorem LookupInv.get_fst {s : ValueStore} (h : LookupInv s) (id : ValueId) :
    (s.get id).1 = s.entryById id := by
  unfold ValueStore.get ValueStore.getWithTrace
  simp only
  split
  · rename_i used idx n hprobe
    obtain ⟨e, he, hlook⟩ := h.sorted idx id (probeLearned_eq_some hprobe)
    simp [he, ValueStore.entryById, hlook]
  · rfl

/-- In every reachable store the lookup of any id, through the learned index or not, gives
what the hash index gives, and the Bloom filter accepts every stored id. -/
theorem learned_lookup_agrees {env : Env} {s : ValueStore} (h : Reachable env s) (id : ValueId) :
    (s.get id).1 = s.entryById id ∧ (id ∈ s.index → s.bloom.maybeContains id) :=
  ⟨h.lookupInv.get_fst id, h.lookupInv.bloom id⟩

/-- Three stored values, with a model that predicts the first two of the sorted keys: the second
one is found there, and the third is not. -/
theorem learned_lookup_agrees_sample :
    ∃ (env : Env) (s : ValueStore) (second third : ValueId), Reachable env s ∧
      s.sortedKeys.drop 1 = [second, third] ∧
      (s.getWithTrace second).1 = (some ⟨.cell, [2], none⟩, ⟨2, true, false⟩) ∧
      (s.getWithTrace third).1 = (some ⟨.cell, [3], none⟩, ⟨3, true, true⟩) ∧
      (s.get second).1 = s.entryById second ∧ (s.get third).1 = s.entryById third ∧
      s.bloom.maybeContains second ∧ s.bloom.maybeContains third := by
  let id (b : UInt8) : ValueId := ⟨List.replicate 16 b, rfl⟩
  let env : Env := ⟨fun _ => id 0, fun _ _ => ⟨fun _ => some (0, 1)⟩⟩
  let config : ValueStoreConfig :=
    ⟨true, 64, ⟨1, 1, fun _ _ => false⟩, ⟨false, 0, 0, fun _ _ => false, 0, 0⟩⟩
  obtain ⟨s, hs, hkeys, hhit, hmiss, hsecond, hthird⟩ : ∃ s, Reachable env s ∧
      s.sortedKeys.drop 1 = [id 2, id 3] ∧
      (s.getWithTrace (id 2)).1 = (some ⟨.cell, [2], none⟩, ⟨2, true, false⟩) ∧
      (s.getWithTrace (id 3)).1 = (some ⟨.cell, [3], none⟩, ⟨3, true, true⟩) ∧
      id 2 ∈ s.index ∧ id 3 ∈ s.index := by
    have hthree : Reachable env ((ValueStore.new config).putWithId env .cell (id 3) [3]).1 :=
      .putWithId (.new config) .cell (id 3) (by simp)
    have htwo : Reachable env (((ValueStore.new config).putWithId env .cell (id 3) [3]).1.putWithId
        env .cell (id 1) [1]).1 :=
      .putWithId hthree .cell (id 1) (by simp)
    refine ⟨((((ValueStore.new config).putWithId env .cell (id 3) [3]).1.putWithId env .cell (id 1)
      [1]).1.putWithId env .cell (id 2) [2]).1, .putWithId htwo .cell (id 2) (by simp), ?_⟩
    decide +kernel
  obtain ⟨hget, hbloom⟩ := learned_lookup_agrees hs (id 2)
  obtain ⟨hget', hbloom'⟩ := learned_lookup_agrees hs (id 3)
  exact ⟨env, s, id 2, id 3, hs, hkeys, hhit, hmiss, hget, hget', hbloom hsecond, hbloom' hthird⟩

end SkeinDB.Values
