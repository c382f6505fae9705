import SkeinDB.Values.Health

/-!
# Content fidelity

Over any run of writes, policy changes, compactions and lookups, every id that a write
returned keeps materializing to the bytes it was returned for, with and without skip
patches. Two byte strings of one run must not share an id.
-/
namespace SkeinDB.Values
open SkeinDB.Codec SkeinDB.Format SkeinDB.Delta

/-- The stores a run can reach, with the ids it returned and the bytes they are for. A byte
vector holds fewer than `2 ^ 63` bytes. Materializing changes statistics only. -/
inductive Run (env : Env) (config : ValueStoreConfig) : List (ValueId × Bytes) → ValueStore → Prop
  | new : Run env config [] (.new config)
  | put {puts : List (ValueId × Bytes)} {s : ValueStore} {kind : ValueKind} {bytes : Bytes}
      (h : Run env config puts s) (hkind : kind ≠ .delta) (hlen : bytes.length < 2 ^ 63) :
      Run env config (((s.put env kind bytes).2, bytes) :: puts) (s.put env kind bytes).1
  | putWithDelta {puts : List (ValueId × Bytes)} {s t : ValueStore} {kind : ValueKind}
      {bytes : Bytes} {base : Option ValueId} {id : ValueId} (h : Run env config puts s)
      (hkind : kind ≠ .delta) (hlen : bytes.length < 2 ^ 63)
      (hput : putWithDelta env s kind bytes base = some (t, id)) :
      Run env config ((id, bytes) :: puts) t
  | setDeltaPolicy {puts : List (ValueId × Bytes)} {s : ValueStore} (h : Run env config puts s)
      (policy : DeltaPolicy) : Run env config puts (s.setDeltaPolicy policy)
  | compactDeltas {puts : List (ValueId × Bytes)} {s t : ValueStore} {order order' : Order}
      {report : DeltaCompactionReport} (h : Run env config puts s)
      (horder : order.Perm s.index.entries) (horder' : order'.Perm s.index.entries)
      (hcompact : compactDeltas env s order order' = some (t, report)) : Run env config puts t
  | get {puts : List (ValueId × Bytes)} {s : ValueStore} (h : Run env config puts s)
      (id : ValueId) : Run env config puts (s.get id).2

variable {env : Env} {config : ValueStoreConfig}

/-- Healthy, every stored id was returned for some bytes, and every returned id is the id of
its bytes and sound for them. -/
structure RunInv (env : Env) (puts : List (ValueId × Bytes)) (s : ValueStore) : Prop where
  healthy : Healthy env s
  returned : ∀ id ∈ s.index, ∃ b, (id, b) ∈ puts
  sound : ∀ id b, (id, b) ∈ puts → id = env.valueId b ∧ Sound patchValue (s.node env) id b

/-- Changes outside the entries and the index keep the invariant. -/
theorem RunInv.congr {puts : List (ValueId × Bytes)} {s t : ValueStore} (h : RunInv env puts s)
    (hsame : t.entries = s.entries) (hids : t.entryIds = s.entryIds)
    (hindex : t.index = s.index) : RunInv env puts t := by
  refine ⟨h.healthy.congr hsame hids hindex, ?_, ?_⟩
  · rw [hindex]
    exact h.returned
  · rw [node_of_entries hsame hindex]
    exact h.sound

/-- One write: the new id is sound for its bytes, also when it was already stored. -/
theorem RunInv.stored {puts : List (ValueId × Bytes)} {s t : ValueStore} {bytes : Bytes}
    {id : ValueId} (h : RunInv env puts s) (hlen : bytes.length < 2 ^ 63)
    (hinj : Set.InjOn env.valueId {b | ∃ p ∈ (id, bytes) :: puts, p.2 = b})
    (hstored : Stored env s bytes t id) : RunInv env ((id, bytes) :: puts) t := by
  have hlen64 : bytes.length < 2 ^ 64 := by omega
  obtain ⟨hhealthy, hkeeps⟩ := hstored.healthy h.healthy hlen64
  have hnew : id = env.valueId bytes ∧ Sound patchValue (t.node env) id bytes := by
    cases hstored with
    | present hid =>
      obtain ⟨b, hb⟩ := h.returned _ hid
      obtain ⟨hidb, hsound⟩ := h.sound _ b hb
      have hbytes : bytes = b :=
        hinj ⟨(env.valueId bytes, bytes), by simp, rfl⟩ ⟨(env.valueId bytes, b), by simp [hb], rfl⟩
          hidb
      rw [hbytes] at hsound ⊢
      exact ⟨rfl, hsound⟩
    | added hid hentry => exact ⟨rfl, hentry.sound h.healthy hlen64 hid⟩
  refine ⟨hhealthy, fun k hk => ?_, fun k b hkb => ?_⟩
  · have hk' : k = id ∨ k ∈ s.index := by
      cases hstored with
      | present => exact .inr hk
      | added => exact (ValueStore.mem_index_insertNew env _).mp hk
    rcases hk' with rfl | hk'
    · exact ⟨bytes, by simp⟩
    · obtain ⟨b, hb⟩ := h.returned k hk'
      exact ⟨b, by simp [hb]⟩
  · rcases List.mem_cons.mp hkb with heq | hkb
    · cases heq
      exact hnew
    · obtain ⟨hid, hsound⟩ := h.sound k b hkb
      exact ⟨hid, hkeeps k b hsound⟩

theorem Run.inv {puts : List (ValueId × Bytes)} {s : ValueStore} (h : Run env config puts s)
    (hinj : Set.InjOn env.valueId {b | ∃ p ∈ puts, p.2 = b}) : RunInv env puts s := by
  have hless {p : ValueId × Bytes} {puts : List (ValueId × Bytes)}
      (hinj : Set.InjOn env.valueId {b | ∃ q ∈ p :: puts, q.2 = b}) :
      Set.InjOn env.valueId {b | ∃ q ∈ puts, q.2 = b} := by
    refine hinj.mono fun b => ?_
    rintro ⟨q, hq, rfl⟩
    exact ⟨q, by simp [hq], rfl⟩
  induction h with
  | new => exact ⟨new_healthy env config, by simp [ValueStore.new], by simp⟩
  | put _ hkind hlen ih => exact (ih (hless hinj)).stored hlen hinj (put_stored hkind _)
  | putWithDelta _ hkind hlen hput ih =>
    exact (ih (hless hinj)).stored hlen hinj (putWithDelta_stored hkind hput)
  | setDeltaPolicy _ policy ih => exact (ih hinj).congr rfl rfl rfl
  | @compactDeltas puts s t order order' report _ _ horder' hcompact ih =>
    obtain ⟨t', report', hrun, ht, hkeeps, hsame⟩ :=
      compactDeltas_spec (ih hinj).healthy order horder'
    rw [hrun] at hcompact
    cases hcompact
    refine ⟨ht, ?_, fun id b hb => ?_⟩
    · rw [hsame.index]
      exact (ih hinj).returned
    · obtain ⟨hid, hsound⟩ := (ih hinj).sound id b hb
      exact ⟨hid, hkeeps id b hsound⟩
  | @get puts s _ id ih =>
    have hget : (s.get id).2 = { s with lookupHist := s.lookupHist.record id } := by
      unfold ValueStore.get ValueStore.getWithTrace
      simp only
      split <;> rfl
    rw [hget]
    exact (ih hinj).congr rfl rfl rfl

/-- Content fidelity: in every state of a run, every returned id materializes to its bytes on
the skip-patch path and on the plain path, and the next delta write or compaction returns. -/
theorem content_fidelity {puts : List (ValueId × Bytes)} {s : ValueStore}
    (h : Run env config puts s) (hinj : Set.InjOn env.valueId {b | ∃ p ∈ puts, p.2 = b}) :
    (∀ id b, (id, b) ∈ puts →
      materialize env s id = some (.ok b) ∧
        (∃ trace, materializeInternal env s id true = some (.ok (b, trace))) ∧
        ∃ trace, materializeInternal env s id false = some (.ok (b, trace))) ∧
      (∀ kind bytes base, putWithDelta env s kind bytes base ≠ none) ∧
      ∀ order order', order'.Perm s.index.entries → compactDeltas env s order order' ≠ none := by
  have hinv := h.inv hinj
  refine ⟨fun id b hb => ?_, putWithDelta_ne_none hinv.healthy, fun order order' horder' => ?_⟩
  · obtain ⟨-, hsound⟩ := hinv.sound id b hb
    exact materialize_ok hinv.healthy.wf hsound
  · obtain ⟨t, report, hrun, -⟩ := compactDeltas_spec hinv.healthy order horder'
    rw [hrun]
    simp

/-- The content hash on three growing byte strings; any other string gets the empty hash. -/
def sampleEnv : Env where
  valueId b :=
    if b = [1, 2, 3] then
      ⟨[177, 119, 236, 27, 242, 109, 251, 59, 112, 16, 212, 115, 230, 212, 71, 19], rfl⟩
    else if b = [1, 2, 3, 4] then
      ⟨[99, 120, 29, 23, 20, 37, 163, 99, 18, 250, 5, 141, 135, 18, 213, 208], rfl⟩
    else if b = [1, 2, 3, 4, 5] then
      ⟨[2, 79, 103, 192, 66, 90, 61, 192, 47, 186, 245, 140, 185, 61, 229, 19], rfl⟩
    else ⟨[175, 19, 73, 185, 245, 249, 161, 166, 160, 64, 77, 234, 54, 220, 201, 73], rfl⟩
  build _ _ := ⟨fun _ => none⟩

def sampleConfig : ValueStoreConfig where
  enableLearnedIndex := false
  segmentSize := 64
  refreshPolicy := ⟨1, 1, fun _ _ => false⟩
  deltaPolicy := ⟨true, 0, 0, fun _ _ => false, 0, 2⟩

/-- A chain of two deltas, the second with a skip patch, still materializes. -/
theorem content_fidelity_sample :
    ∃ s t u, Run sampleEnv sampleConfig
        [(sampleEnv.valueId [1, 2, 3], [1, 2, 3])] s ∧
      putWithDelta sampleEnv s .cell [1, 2, 3, 4] (some (sampleEnv.valueId [1, 2, 3])) =
        some (t, sampleEnv.valueId [1, 2, 3, 4]) ∧
      putWithDelta sampleEnv t .cell [1, 2, 3, 4, 5] (some (sampleEnv.valueId [1, 2, 3, 4])) =
        some (u, sampleEnv.valueId [1, 2, 3, 4, 5]) ∧
      (∃ patch, t.entryById (sampleEnv.valueId [1, 2, 3, 4]) =
        some ⟨.delta, patch, some ⟨sampleEnv.valueId [1, 2, 3], 4, 1, []⟩⟩) ∧
      (∃ patch skipPatch, u.entryById (sampleEnv.valueId [1, 2, 3, 4, 5]) =
        some ⟨.delta, patch, some ⟨sampleEnv.valueId [1, 2, 3, 4], 5, 2,
          [⟨sampleEnv.valueId [1, 2, 3], skipPatch, 2⟩]⟩⟩) ∧
      materialize sampleEnv u (sampleEnv.valueId [1, 2, 3, 4, 5]) = some (.ok [1, 2, 3, 4, 5]) := by
  have hkind : ValueKind.cell ≠ .delta := by decide
  have hlen3 : ([1, 2, 3] : Bytes).length < 2 ^ 63 := by simp
  have hlen4 : ([1, 2, 3, 4] : Bytes).length < 2 ^ 63 := by simp
  have hlen5 : ([1, 2, 3, 4, 5] : Bytes).length < 2 ^ 63 := by simp
  have hinj : Set.InjOn sampleEnv.valueId
      {b | ∃ p ∈ [(sampleEnv.valueId [1, 2, 3, 4, 5], ([1, 2, 3, 4, 5] : Bytes)),
        (sampleEnv.valueId [1, 2, 3, 4], [1, 2, 3, 4]), (sampleEnv.valueId [1, 2, 3], [1, 2, 3])],
        p.2 = b} := by
    simp only [List.mem_cons, List.not_mem_nil, or_false, exists_eq_or_imp, exists_eq_left]
    rintro _ (rfl | rfl | rfl) _ (rfl | rfl | rfl) <;> decide
  have hs : Run sampleEnv sampleConfig [(sampleEnv.valueId [1, 2, 3], [1, 2, 3])]
      ((ValueStore.new sampleConfig).put sampleEnv .cell [1, 2, 3]).1 :=
    .put .new hkind hlen3
  obtain ⟨t, u, ht, hu, hdelta, hskip⟩ : ∃ t u,
      putWithDelta sampleEnv ((ValueStore.new sampleConfig).put sampleEnv .cell [1, 2, 3]).1 .cell
        [1, 2, 3, 4] (some (sampleEnv.valueId [1, 2, 3])) =
          some (t, sampleEnv.valueId [1, 2, 3, 4]) ∧
      putWithDelta sampleEnv t .cell [1, 2, 3, 4, 5] (some (sampleEnv.valueId [1, 2, 3, 4])) =
        some (u, sampleEnv.valueId [1, 2, 3, 4, 5]) ∧
      (∃ patch, t.entryById (sampleEnv.valueId [1, 2, 3, 4]) =
        some ⟨.delta, patch, some ⟨sampleEnv.valueId [1, 2, 3], 4, 1, []⟩⟩) ∧
      ∃ patch skipPatch, u.entryById (sampleEnv.valueId [1, 2, 3, 4, 5]) =
        some ⟨.delta, patch, some ⟨sampleEnv.valueId [1, 2, 3, 4], 5, 2,
          [⟨sampleEnv.valueId [1, 2, 3], skipPatch, 2⟩]⟩⟩ :=
    ⟨_, _, rfl, rfl, ⟨_, rfl⟩, _, _, rfl⟩
  have hrun := Run.putWithDelta (.putWithDelta hs hkind hlen4 ht) hkind hlen5 hu
  exact ⟨_, t, u, hs, ht, hu, hdelta, hskip, ((content_fidelity hrun hinj).1 _ _ (by simp)).1⟩

end SkeinDB.Values
