import SkeinDB.Values.CheckedPull

/-!
# Pulls that end

A peer that answers every request of `objects_pull` from one finite table. Each round requests at
most as many new bases as it takes ids from the queue, and where it requests as many, every answer
waits for its own base and the table of staged entries grows. So a pull ends when the peer or the
store holds every base that it meets, and nothing panics. A base that neither holds is requested in
every round, again and again: the code notes it as missing, and forgets that when it looks for
bases. A patch that asks for more than a vector can have ends the pull in a panic, and so does an
id of the request that is cut inside a character.
-/
namespace SkeinDB.Values
open SkeinDB.Codec SkeinDB.Format SkeinDB.Delta

section Model
variable {env : Env} {z : Zstd}

/-- The binary form labels an object with its id in hexadecimal, the JSON form with the text of the
request. -/
inductive Transport where
  | binary
  | json

def Transport.label : Transport → String → ValueId → String
  | .binary, _, id => valueIdToHex id
  | .json, text, _ => text

/-- A peer with a finite table of entries and their transfer forms. -/
structure RemoteEntries (z : Zstd) where
  find : ValueId → Option (Bytes × ValueEntry)
  ids : Finset ValueId
  finite : ∀ id, (find id).isSome → id ∈ ids
  decodes : ∀ id payload entry, find id = some (payload, entry) →
    decodeTransferEntry z payload = .ok ⟨id, entry⟩
  sizes : ∀ id payload entry, find id = some (payload, entry) → payload.length < 2 ^ 63

/-- The order in which a table of staged entries is iterated. -/
structure TableOrder where
  order : List ValueSegmentEntry → List ValueSegmentEntry
  perm : ∀ es, (order es).Perm es

def RemoteEntries.object (remote : RemoteEntries z) (transport : Transport) (text : String) :
    Option RemoteTransferObject :=
  (parseValueId text).bind fun id => (remote.find id).map fun found =>
    ⟨transport.label text id, some found.1, none⟩

def RemoteEntries.answer (remote : RemoteEntries z) (transport : Transport) (batch : List String)
    (order : TableOrder) : RemoteBatch :=
  ⟨.ok (batch.filterMap (remote.object transport)), order.order, order.perm⟩

/-- The answers to the first requests of a pull. -/
def RemoteEntries.answers (remote : RemoteEntries z) (transport : Transport) (env : Env)
    (batchSize : ℕ) : ℕ → (ℕ → TableOrder) → PullState → List RemoteBatch
  | 0, _, _ => []
  | n + 1, orders, st =>
    let response := remote.answer transport (st.pending.take batchSize) (orders 0)
    response ::
      match pullRound env z batchSize st response with
      | some (.ok (), st) =>
        remote.answers transport env batchSize n (fun i => orders (i + 1)) st
      | _ => []

/-- A request for a text is answered under that text. -/
def Transport.Serves (transport : Transport) (text : String) (id : ValueId) : Prop :=
  parseValueId text = some id ∧ normalizeId (transport.label text id) = text

/-- The ids that a pull asks the peer for: those of the request, and the bases of the deltas that
it gets. What the store holds at the start is not asked for. -/
inductive RemoteEntries.Wanted (remote : RemoteEntries z) (transport : Transport) (s : ValueStore)
    (ids : List String) : ValueId → Prop
  | requested {rawId : String} {id : ValueId} (hraw : rawId ∈ ids)
      (hserves : transport.Serves (normalizeId rawId) id) (hnew : id ∉ s.index) :
      Wanted remote transport s ids id
  | base {id : ValueId} {payload : Bytes} {entry : ValueEntry} {delta : DeltaEntry}
      (h : Wanted remote transport s ids id) (hentry : remote.find id = some (payload, entry))
      (hdelta : entry.delta = some delta) (hnew : delta.base ∉ s.index) :
      Wanted remote transport s ids delta.base

/-- The peer or the store holds the base of every delta that the pull gets. -/
def RemoteEntries.Complete (remote : RemoteEntries z) (transport : Transport) (s : ValueStore)
    (ids : List String) : Prop :=
  ∀ id payload entry delta, remote.Wanted transport s ids id →
    remote.find id = some (payload, entry) → entry.delta = some delta →
    delta.base ∈ s.index ∨ (remote.find delta.base).isSome

end Model

section Answers
variable {env : Env} {z : Zstd} {remote : RemoteEntries z} {transport : Transport}
  {s₀ : ValueStore} {ids : List String} {st : PullState}

/-- A decoded entry has delta data only as a delta. -/
theorem decodeTransferEntry_kind {payload : Bytes} {e : ValueSegmentEntry}
    (h : decodeTransferEntry z payload = .ok e) {delta : DeltaEntry}
    (hdelta : e.entry.delta = some delta) : e.entry.kind = .delta := by
  rw [decodeTransferEntry, decodeVsegEntry] at h
  split_ifs at h with hlen htype hversion
  obtain ⟨kind, -, h⟩ := bind_eq_ok h
  obtain ⟨codec, -, h⟩ := bind_eq_ok h
  dsimp only at h
  obtain ⟨⟨rawLen, rest⟩, -, h⟩ := bind_eq_ok h
  obtain ⟨⟨storedLen, rest'⟩, -, h⟩ := bind_eq_ok h
  dsimp only at h
  split at h
  · cases h
  obtain ⟨stored, -, h⟩ := bind_eq_ok h
  split at h
  · cases h
  split at h
  · rename_i hkind
    obtain ⟨⟨delta', patch⟩, -, h⟩ := bind_eq_ok h
    cases h
    exact hkind
  split at h
  · cases h
  · cases h
    cases hdelta

theorem findStaged_isSome {staged : List ValueSegmentEntry} {id : ValueId} :
    (findStaged staged id).isSome ↔ ∃ e ∈ staged, e.id = id := by
  simp [findStaged, List.find?_isSome]

theorem Transport.label_spec (transport : Transport) {text : String} {id : ValueId}
    (htext : normalizeId text = text) (hparse : parseValueId text = some id) :
    normalizeId (transport.label text id) = transport.label text id ∧
      parseValueId (transport.label text id) = some id := by
  cases transport with
  | binary => exact ⟨normalizeId_toHex id, parseValueId_toHex id⟩
  | json => exact ⟨htext, hparse⟩

theorem Transport.label_label (transport : Transport) (text : String) (id : ValueId) :
    transport.label (transport.label text id) id = transport.label text id := by
  cases transport with
  | binary => rfl
  | json => rfl

/-- An object of the peer stages its entry, if its label was requested. -/
theorem RemoteEntries.check_object (remote : RemoteEntries z) {text : String} {id : ValueId}
    {payload : Bytes} {entry : ValueEntry} (htext : normalizeId text = text)
    (hparse : parseValueId text = some id) (hfind : remote.find id = some (payload, entry)) :
    transport.Serves (normalizeId (transport.label text id)) id ∧
      checkObject z (normalizeId (transport.label text id))
        ⟨transport.label text id, some payload, none⟩ = some ⟨id, entry⟩ := by
  obtain ⟨hnorm, hlabel⟩ := transport.label_spec htext hparse
  rw [hnorm]
  refine ⟨⟨hlabel, ?_⟩, ?_⟩
  · rw [transport.label_label, hnorm]
  · simp [checkObject, remote.decodes id payload entry hfind, hlabel]

theorem stageObjects_frame (batch : List String) (returnedIds : Finset String)
    (objects : List RemoteTransferObject) :
    let st' := (stageObjects z batch st returnedIds objects).1
    st'.store = st.store ∧ st'.pending = st.pending ∧ st'.queued = st.queued := by
  induction objects generalizing st returnedIds with
  | nil => exact ⟨rfl, rfl, rfl⟩
  | cons object objects ih =>
    rw [stageObjects]
    dsimp only
    split
    · exact ih _
    split
    · exact ih _
    · exact ih _

/-- The staged entries after an answer are old ones and ones that pass the checks. -/
theorem mem_stageObjects {batch : List String} {returnedIds : Finset String}
    {objects : List RemoteTransferObject} {e : ValueSegmentEntry}
    (he : e ∈ (stageObjects z batch st returnedIds objects).1.staged) :
    e ∈ st.staged ∨ ∃ object ∈ objects, normalizeId object.id ∈ batch ∧
      checkObject z (normalizeId object.id) object = some e := by
  induction objects generalizing st returnedIds with
  | nil => exact .inl he
  | cons object objects ih =>
    have hrest {st' : PullState} {returnedIds : Finset String}
        (he : e ∈ (stageObjects z batch st' returnedIds objects).1.staged) :
        e ∈ st'.staged ∨ ∃ object' ∈ object :: objects, normalizeId object'.id ∈ batch ∧
          checkObject z (normalizeId object'.id) object' = some e := by
      rcases ih he with hold | ⟨object', hmem, hchecked⟩
      · exact .inl hold
      · exact .inr ⟨object', List.mem_cons_of_mem _ hmem, hchecked⟩
    rw [stageObjects] at he
    dsimp only at he
    split at he
    · exact hrest he
    rename_i hrequested
    obtain ⟨-, hmem⟩ := not_or.mp hrequested
    split at he
    · have hfailed := hrest he
      exact hfailed
    rename_i transfer hcheck
    rcases hrest he with hold | hnew
    · rcases List.mem_cons.mp hold with rfl | hold
      · exact .inr ⟨object, List.mem_cons_self, not_not.mp hmem, hcheck⟩
      · exact .inl (List.mem_of_mem_filter hold)
    · exact .inr hnew

/-- An answer unstages no id. -/
theorem stageObjects_kept {batch : List String} {returnedIds : Finset String}
    {objects : List RemoteTransferObject} {e : ValueSegmentEntry} (he : e ∈ st.staged) :
    ∃ e' ∈ (stageObjects z batch st returnedIds objects).1.staged, e'.id = e.id := by
  induction objects generalizing st returnedIds e with
  | nil => exact ⟨e, he, rfl⟩
  | cons object objects ih =>
    rw [stageObjects]
    dsimp only
    split
    · exact ih he
    split
    · exact ih he
    rename_i transfer _
    by_cases hid : e.id = transfer.id
    · rw [hid]
      exact ih List.mem_cons_self
    · exact ih (List.mem_cons_of_mem _ (List.mem_filter.mpr ⟨he, by simpa using hid⟩))

/-- An object that passes the checks is staged. -/
theorem stageObjects_fetched {batch : List String} {returnedIds : Finset String}
    {objects : List RemoteTransferObject} {object : RemoteTransferObject}
    {transfer : ValueSegmentEntry} (hobject : object ∈ objects)
    (hbatch : normalizeId object.id ∈ batch)
    (hcheck : checkObject z (normalizeId object.id) object = some transfer) :
    ∃ e ∈ (stageObjects z batch st returnedIds objects).1.staged, e.id = transfer.id := by
  have hparse := (checkObject_spec hcheck).1
  induction objects generalizing st returnedIds with
  | nil => simp at hobject
  | cons first objects ih =>
    rw [stageObjects]
    dsimp only
    rcases List.mem_cons.mp hobject with rfl | hobject
    · rw [if_neg, hcheck]
      · exact @stageObjects_kept _ { st with
          staged := transfer :: st.staged.filter (·.id ≠ transfer.id) } _ _ _ _ List.mem_cons_self
      · rintro (hempty | hmissing)
        · rw [hempty] at hparse
          cases hparse
        · exact hmissing hbatch
    · split
      · exact ih hobject
      split
      · exact ih hobject
      · exact ih hobject

theorem exists_of_forall₂ {α β : Type*} {R : α → β → Prop} {as : List α} {bs : List β}
    (h : List.Forall₂ R as bs) {b : β} (hb : b ∈ bs) : ∃ a ∈ as, R a b := by
  induction h with
  | nil => simp at hb
  | cons hab _ ih =>
    rcases List.mem_cons.mp hb with rfl | hb
    · exact ⟨_, List.mem_cons_self, hab⟩
    · obtain ⟨a, ha, hr⟩ := ih hb
      exact ⟨a, List.mem_cons_of_mem _ ha, hr⟩

/-- A base is requested that is neither staged, stored nor requested already. -/
def Requests (staged : List ValueSegmentEntry) (st : PullState) (e : ValueSegmentEntry)
    (text : String) : Prop :=
  ∃ delta, e.entry.delta = some delta ∧ text = valueIdToHex delta.base ∧
    findStaged staged delta.base = none ∧ delta.base ∉ st.store.index ∧ text ∉ st.queued

theorem queueBases_spec (staged transfers : List ValueSegmentEntry) :
    let st' := queueBases staged st transfers
    st'.store = st.store ∧ st'.staged = st.staged ∧
      (∃ pushed texts, pushed.Sublist transfers ∧ List.Forall₂ (Requests staged st) pushed texts ∧
        st'.pending = st.pending ++ texts ∧
        ∀ text, text ∈ st'.queued ↔ text ∈ st.queued ∨ text ∈ texts) ∧
      ∀ e ∈ transfers, ∀ delta, e.entry.delta = some delta →
        (findStaged staged delta.base).isSome ∨ delta.base ∈ st.store.index ∨
          valueIdToHex delta.base ∈ st'.queued := by
  induction transfers generalizing st with
  | nil => exact ⟨rfl, rfl, ⟨[], [], .refl _, .nil, by simp [queueBases], by simp [queueBases]⟩, by simp⟩
  | cons e transfers ih =>
    rw [queueBases]
    dsimp only
    split
    · rename_i hdelta
      obtain ⟨hstore, hstaged, ⟨pushed, texts, hsub, hrest⟩, hall⟩ := @ih st
      exact ⟨hstore, hstaged, ⟨pushed, texts, hsub.cons _, hrest⟩,
        List.forall_mem_cons.mpr ⟨by simp [hdelta], hall⟩⟩
    rename_i delta hdelta
    split
    · rename_i hpresent
      obtain ⟨hstore, hstaged, ⟨pushed, texts, hsub, hpushed, hpending, hqueued⟩, hall⟩ := @ih st
      refine ⟨hstore, hstaged, ⟨pushed, texts, hsub.cons _, hpushed, hpending, hqueued⟩,
        List.forall_mem_cons.mpr ⟨fun delta' hdelta' => ?_, hall⟩⟩
      obtain rfl : delta = delta' := Option.some.inj (hdelta.symm.trans hdelta')
      exact hpresent.imp_right (.imp_right fun hmem => (hqueued _).mpr (.inl hmem))
    · rename_i hmissing
      simp only [not_or, Option.not_isSome_iff_eq_none] at hmissing
      obtain ⟨hstore, hstaged, ⟨pushed, texts, hsub, hpushed, hpending, hqueued⟩, hall⟩ := @ih
        { st with
          pending := st.pending ++ [valueIdToHex delta.base]
          queued := insert (valueIdToHex delta.base) st.queued }
      refine ⟨hstore, hstaged, ⟨e :: pushed, valueIdToHex delta.base :: texts, hsub.cons_cons _,
        ?_, ?_, ?_⟩, List.forall_mem_cons.mpr ⟨fun delta' hdelta' => ?_, hall⟩⟩
      · refine .cons ⟨delta, hdelta, rfl, hmissing⟩ (hpushed.imp fun e' text h => ?_)
        obtain ⟨delta', hdelta', htext, hnone, hstored, hnew⟩ := h
        exact ⟨delta', hdelta', htext, hnone, hstored, fun hmem => hnew (by simp [hmem])⟩
      · rw [hpending]
        simp
      · intro text
        rw [hqueued]
        simp only [Finset.mem_insert, List.mem_cons]
        tauto
      · obtain rfl : delta = delta' := Option.some.inj (hdelta.symm.trans hdelta')
        exact .inr (.inr ((hqueued _).mpr (.inl (by simp))))

/-- What an answer does to a pull. -/
structure Answered (remote : RemoteEntries z) (transport : Transport) (batch : List String)
    (st mid : PullState) : Prop where
  store : mid.store = st.store
  kept : ∀ e ∈ st.staged, ∃ e' ∈ mid.staged, e'.id = e.id
  fetched : ∀ text ∈ batch, ∀ id, transport.Serves text id → (remote.find id).isSome →
    ∃ e ∈ mid.staged, e.id = id
  staged : ∀ e ∈ mid.staged, e ∈ st.staged ∨ ∃ text ∈ batch, transport.Serves text e.id ∧
    ∃ payload, remote.find e.id = some (payload, e.entry)
  bases : ∀ e ∈ mid.staged, ∀ delta, e.entry.delta = some delta →
    (findStaged mid.staged delta.base).isSome ∨ delta.base ∈ mid.store.index ∨
      valueIdToHex delta.base ∈ mid.queued
  pushed : ∃ pushed texts, pushed.Sublist mid.staged ∧
    List.Forall₂ (Requests mid.staged (settleBatch st ∅ batch)) pushed texts ∧
    mid.pending = st.pending ++ texts ∧
    ∀ text ∈ mid.queued, text ∈ st.queued ∧ text ∉ batch ∨ text ∈ texts

theorem RemoteEntries.answered (remote : RemoteEntries z) {batch : List String}
    (htexts : ∀ text ∈ batch, normalizeId text = text) (o : TableOrder) :
    Answered remote transport batch st (stageAnswer z batch o.order st
      (batch.filterMap (remote.object transport))) := by
  have hobject {object : RemoteTransferObject}
      (hmem : object ∈ batch.filterMap (remote.object transport)) :
      ∃ text ∈ batch, ∃ id payload entry, parseValueId text = some id ∧
        remote.find id = some (payload, entry) ∧
        object = ⟨transport.label text id, some payload, none⟩ := by
    obtain ⟨text, htext, heq⟩ := List.mem_filterMap.mp hmem
    obtain ⟨id, hparse, heq⟩ := Option.bind_eq_some_iff.mp heq
    obtain ⟨⟨payload, entry⟩, hfind, rfl⟩ := Option.map_eq_some_iff.mp heq
    exact ⟨text, htext, id, payload, entry, hparse, hfind, rfl⟩
  rw [stageAnswer]
  dsimp only
  generalize hst₁ : ({ st with
      fetchedObjects := saturatingAdd st.fetchedObjects
        (batch.filterMap (remote.object transport)).length } : PullState) = st₁
  obtain ⟨hstore, hpending, hqueued⟩ := @stageObjects_frame z st₁ batch ∅
    (batch.filterMap (remote.object transport))
  have hkept := @stageObjects_kept z st₁ batch ∅ (batch.filterMap (remote.object transport))
  have hnew := @mem_stageObjects z st₁ batch ∅ (batch.filterMap (remote.object transport))
  have hfetched := @stageObjects_fetched z st₁ batch ∅
    (batch.filterMap (remote.object transport))
  rcases hstage : stageObjects z batch st₁ ∅ (batch.filterMap (remote.object transport)) with
    ⟨st', returnedIds⟩
  simp only [hstage] at hstore hpending hqueued hkept hnew hfetched ⊢
  have hperm {e : ValueSegmentEntry} : e ∈ o.order st'.staged ↔ e ∈ st'.staged :=
    (o.perm st'.staged).mem_iff
  have hsettled : (settleBatch st' returnedIds batch).staged = st'.staged := rfl
  rw [hsettled]
  obtain ⟨hstore', hstaged', ⟨pushed, texts, hsub, hpushed, hpending', hqueued'⟩, hall⟩ :=
    @queueBases_spec { settleBatch st' returnedIds batch with staged := o.order st'.staged }
      (o.order st'.staged) (o.order st'.staged)
  generalize queueBases (o.order st'.staged) { settleBatch st' returnedIds batch with
    staged := o.order st'.staged } (o.order st'.staged) = mid at *
  dsimp only at hstore' hstaged' hall hpending' hqueued'
  subst hst₁
  have hstoreEq : mid.store = st.store := hstore'.trans hstore
  refine ⟨hstoreEq, ?_, ?_, ?_, ?_, pushed, texts, ?_, ?_, ?_, ?_⟩
  · intro e he
    obtain ⟨e', he', hid⟩ := hkept he
    exact ⟨e', hstaged' ▸ hperm.mpr he', hid⟩
  · intro text htext id hserves hfind
    obtain ⟨⟨payload, entry⟩, hfind⟩ := Option.isSome_iff_exists.mp hfind
    obtain ⟨-, hcheck⟩ := @RemoteEntries.check_object _ transport remote _ _ _ _ (htexts text htext)
      hserves.1 hfind
    have hmem : (⟨transport.label text id, some payload, none⟩ : RemoteTransferObject) ∈
        batch.filterMap (remote.object transport) := by
      refine List.mem_filterMap.mpr ⟨text, htext, ?_⟩
      rw [RemoteEntries.object, hserves.1, Option.bind_some, hfind]
      rfl
    obtain ⟨e, he, hid⟩ := hfetched hmem (by rw [hserves.2]; exact htext) hcheck
    exact ⟨e, hstaged' ▸ hperm.mpr he, hid⟩
  · intro e he
    rcases hnew (hperm.mp (hstaged' ▸ he)) with hold | ⟨object, hmem, hbatch, hcheck⟩
    · exact .inl hold
    · obtain ⟨text, htext, id, payload, entry, hparse, hfind, rfl⟩ := hobject hmem
      obtain ⟨hserves, hcheck'⟩ := @RemoteEntries.check_object _ transport remote _ _ _ _
        (htexts text htext) hparse hfind
      rw [hcheck] at hcheck'
      cases hcheck'
      exact .inr ⟨_, hbatch, hserves, payload, hfind⟩
  · intro e he delta hdelta
    have hcovered := hall e (hstaged' ▸ he) delta hdelta
    rw [hstaged', hstoreEq]
    exact hcovered.imp_right (.imp_left fun hmem => hstore ▸ hmem)
  · rw [hstaged']
    exact hsub
  · rw [hstaged']
    refine hpushed.imp fun e text h => ?_
    obtain ⟨delta, hdelta, htext, hnone, hstored, hnew⟩ := h
    refine ⟨delta, hdelta, htext, hnone, fun hmem => hstored ?_, fun hmem => hnew ?_⟩
    · change delta.base ∈ st'.store.index
      rw [hstore]
      exact hmem
    · change text ∈ st'.queued.filter _
      rw [hqueued]
      exact hmem
  · rw [hpending']
    change st'.pending ++ texts = _
    rw [hpending]
  · intro text htext
    rcases (hqueued' text).mp htext with hold | hpush
    · left
      change text ∈ st'.queued.filter _ at hold
      rw [hqueued, Finset.mem_filter] at hold
      exact hold
    · exact .inr hpush

end Answers

section Rounds
variable {env : Env} {z : Zstd} {remote : RemoteEntries z} {transport : Transport}
  {s₀ s : ValueStore} {ids : List String} {st : PullState} {staged : List ValueSegmentEntry}

/-- What an id stands for in a pull: its value in the store at the start, or the peer's entry. -/
def RemoteEntries.originNode (remote : RemoteEntries z) (env : Env) (s₀ : ValueStore)
    (id : ValueId) : Option (Node ValueId Bytes Bytes) :=
  if id ∈ s₀.index then s₀.node env id
  else (remote.find id).bind fun found => transferNode env ⟨id, found.2⟩

/-- The patch of every delta that the pull gets fits its base. -/
def RemoteEntries.PatchesFit (remote : RemoteEntries z) (transport : Transport) (env : Env)
    (s : ValueStore) (ids : List String) : Prop :=
  ∀ id payload entry delta b, remote.Wanted transport s ids id →
    remote.find id = some (payload, entry) → entry.delta = some delta →
    Resolves patchValue (remote.originNode env s) delta.base b → PatchFits b entry.bytes

/-- A pull between two rounds: what is staged waits for a base that is requested. -/
structure Settled (remote : RemoteEntries z) (transport : Transport) (env : Env)
    (s₀ : ValueStore) (ids : List String) (st : PullState) : Prop where
  pulling : Pulling env s₀ st
  origin : ∀ id v, Resolves patchValue (st.store.node env) id v →
    Resolves patchValue (remote.originNode env s₀) id v
  held : ∀ e ∈ st.staged, ∃ payload, remote.find e.id = some (payload, e.entry)
  wanted : ∀ e ∈ st.staged, remote.Wanted transport s₀ ids e.id
  lacks : ∀ e ∈ st.staged, ∃ n, Lacks st.store st.staged e.id n
  bases : ∀ e ∈ st.staged, ∀ delta, e.entry.delta = some delta →
    (findStaged st.staged delta.base).isSome ∨ valueIdToHex delta.base ∈ st.queued
  queued : ∀ text ∈ st.queued, text ∈ st.pending
  pending : ∀ text ∈ st.pending, normalizeId text = text ∧
    ∀ id, transport.Serves text id → remote.Wanted transport s₀ ids id

theorem RemoteEntries.origin_eq_staged
    (hheld : ∀ e ∈ staged, e.id ∉ s₀.index ∧
      ∃ payload, remote.find e.id = some (payload, e.entry))
    {k : ValueId} {e : ValueSegmentEntry} (he : findStaged staged k = some e) :
    remote.originNode env s₀ k = stagedNode env s staged k := by
  obtain ⟨hnew, payload, hfind⟩ := hheld e (findStaged_mem he)
  rw [stagedNode_staged he]
  rw [findStaged_id he] at hnew hfind
  rw [RemoteEntries.originNode, if_neg hnew, hfind, Option.bind_some, ← findStaged_id he]

/-- Staged entries of the peer mean what the peer's entries mean. -/
theorem RemoteEntries.origin_of_staged (hs : Healthy env s)
    (horigin : ∀ id v, Resolves patchValue (s.node env) id v →
      Resolves patchValue (remote.originNode env s₀) id v)
    (hheld : ∀ e ∈ staged, e.id ∉ s₀.index ∧
      ∃ payload, remote.find e.id = some (payload, e.entry))
    {id : ValueId} {v : Bytes} (h : Resolves patchValue (stagedNode env s staged) id v) :
    Resolves patchValue (remote.originNode env s₀) id v := by
  induction h with
  | @cell k w hnode =>
    rcases hfind : findStaged staged k with _ | e
    · have hmat := materialize_of_local hfind (.cell hnode)
      rcases hs.materialize_cases k with ⟨w', hw', hres⟩ | ⟨herr, -⟩
      · rw [hmat] at hw'
        cases hw'
        exact horigin k w hres
      · rw [hmat] at herr
        cases herr
    · exact .cell ((remote.origin_eq_staged hheld hfind).trans hnode)
  | @delta k base patch skips accepts b w hnode _ hpatch haccepts ih =>
    rcases hfind : findStaged staged k with _ | e
    · simp only [stagedNode, hfind] at hnode
      split at hnode <;> cases hnode
    · exact .delta ((remote.origin_eq_staged hheld hfind).trans hnode) ih hpatch haccepts

/-- What an id stands for is staged or stored already, or one of its bases is lacking. -/
theorem RemoteEntries.lacks_or_staged (hs : Healthy env s)
    (horigin : ∀ id v, Resolves patchValue (s.node env) id v →
      Resolves patchValue (remote.originNode env s₀) id v)
    (hheld : ∀ e ∈ staged, e.id ∉ s₀.index ∧
      ∃ payload, remote.find e.id = some (payload, e.entry))
    {id : ValueId} {v : Bytes} (h : Resolves patchValue (remote.originNode env s₀) id v) :
    (∃ n, Lacks s staged id n) ∨ Resolves patchValue (stagedNode env s staged) id v := by
  have hlocal {k : ValueId} {w : Bytes} (hfind : findStaged staged k = none)
      (hw : Resolves patchValue (remote.originNode env s₀) k w) :
      (∃ n, Lacks s staged k n) ∨ Resolves patchValue (stagedNode env s staged) k w := by
    rcases hs.materialize_cases k with ⟨w', hmat, hres⟩ | ⟨-, hstored⟩
    · rw [hw.functional (horigin k w' hres)]
      exact .inr (.cell (stagedNode_local hfind hmat))
    · exact .inl ⟨0, .absent hfind hstored⟩
  induction h with
  | @cell k w hnode =>
    rcases hfind : findStaged staged k with _ | e
    · exact hlocal hfind (.cell hnode)
    · exact .inr (.cell ((remote.origin_eq_staged hheld hfind).symm.trans hnode))
  | @delta k base patch skips accepts b w hnode hbase hpatch haccepts ih =>
    rcases hfind : findStaged staged k with _ | e
    · exact hlocal hfind (.delta hnode hbase hpatch haccepts)
    rw [remote.origin_eq_staged hheld hfind] at hnode
    rcases ih with ⟨n, hn⟩ | hstaged
    · left
      rcases stagedNode_cases hfind hnode with ⟨-, -, heq⟩ | ⟨delta, hkind, hdelta, heq⟩
      · cases heq
      · cases heq
        exact ⟨n + 1, .delta hfind hkind hdelta hn⟩
    · exact .inr (.delta hnode hstaged hpatch haccepts)

/-- The entries of one table agree with each other, so an import succeeds. -/
theorem RemoteEntries.agrees (hs : Healthy env s)
    (horigin : ∀ id v, Resolves patchValue (s.node env) id v →
      Resolves patchValue (remote.originNode env s₀) id v)
    (hheld : ∀ e ∈ staged, e.id ∉ s₀.index ∧
      ∃ payload, remote.find e.id = some (payload, e.entry)) : Agrees env s staged := by
  intro e _ hid v hv
  obtain ⟨w, -, hw⟩ := hs.sound e.id hid
  have hsame := (horigin e.id w hw.resolves).functional
    (remote.origin_of_staged hs horigin hheld hv)
  rw [← hsame]
  exact hw.resolves

/-- The import of accepted entries that agree with the store. -/
structure Imported (env : Env) (ready : List (ValueSegmentEntry × Bytes)) (st st' : PullState) :
    Prop where
  run : importReady env st ready = some (.ok (), st')
  pending : st'.pending = st.pending
  queued : st'.queued = st.queued
  staged : ∀ e, e ∈ st'.staged ↔ e ∈ st.staged ∧ ∀ p ∈ ready, p.1.id ≠ e.id
  index : ∀ id, id ∈ st'.store.index ↔ id ∈ st.store.index ∨ ∃ p ∈ ready, p.1.id = id
  keeps : ∀ id v, Resolves patchValue (st.store.node env) id v →
    Resolves patchValue (st'.store.node env) id v
  ready : ∀ p ∈ ready, Resolves patchValue (st'.store.node env) p.1.id p.2

theorem Accepted.imported (hs : Healthy env st.store)
    {ready : List (ValueSegmentEntry × Bytes)} (h : Accepted env st.store staged ready)
    (hnodup : (staged.map (·.id)).Nodup) (hagree : Agrees env st.store staged) :
    ∃ st', Imported env ready st st' := by
  rcases ready with _ | ⟨first, ready⟩
  · exact ⟨_, ⟨rfl, rfl, rfl, by simp, by simp, fun _ _ => id, by simp⟩⟩
  · obtain ⟨n, u, himport, hkeeps, hready⟩ := h.import hs hnodup hagree
    have hrun : importReady env st (first :: ready) = some (.ok (), { st with
        store := u
        stored := saturatingAdd st.stored n
        staged := st.staged.filter (·.id ∉ ((first :: ready).map Prod.fst).map (·.id))
        verified := st.verified ++ (first :: ready).map Prod.snd }) := by
      rw [importReady, if_neg (by simp), himport]
    refine ⟨_, ⟨hrun, rfl, rfl, fun e => ?_, fun id => ?_, hkeeps, hready⟩⟩
    · rw [List.mem_filter, List.map_map]
      simp only [Function.comp_def, List.mem_map, decide_eq_true_eq, not_exists, not_and]
    · rw [mem_index_of_import hs.wf himport]
      simp only [List.mem_map, exists_exists_and_eq_and]

/-- What a round leaves of the staged entries: those that lack an id. -/
structure Round (env : Env) (mid st' : PullState) : Prop where
  pending : st'.pending = mid.pending
  staged : ∀ e, e ∈ st'.staged ↔ e ∈ mid.staged ∧ ∃ n, Lacks mid.store mid.staged e.id n
  index : ∀ id, id ∈ st'.store.index → id ∈ mid.store.index ∨
    ∃ e ∈ mid.staged, e.id = id ∧ ∀ n, ¬ Lacks mid.store mid.staged id n
  values : ∀ id v, Resolves patchValue (st'.store.node env) id v →
    Resolves patchValue (mid.store.node env) id v ∨
      ∃ e ∈ mid.staged, e.id = id ∧
        Resolves patchValue (stagedNode env mid.store mid.staged) id v

/-- What lacks an id before the import lacks it afterwards. -/
theorem Round.lacks {mid st' : PullState} (h : Round env mid st')
    (hnodup : (st'.staged.map (·.id)).Nodup) {id : ValueId} {n : ℕ}
    (hn : Lacks mid.store mid.staged id n) : Lacks st'.store st'.staged id n := by
  induction hn with
  | @absent id hstaged hstored =>
    refine .absent ?_ fun hmem => ?_
    · rw [← Option.not_isSome_iff_eq_none, findStaged_isSome]
      rintro ⟨e, he, rfl⟩
      have hsome := findStaged_isSome.mpr ⟨e, ((h.staged e).mp he).1, rfl⟩
      rw [hstaged] at hsome
      cases hsome
    · rcases h.index id hmem with hold | ⟨e, he, rfl, -⟩
      · exact hstored hold
      · have hsome := findStaged_isSome.mpr ⟨e, he, rfl⟩
        rw [hstaged] at hsome
        cases hsome
  | @delta id e delta n he hkind hdelta hbase ih =>
    have hid : e.id = id := findStaged_id he
    have hmem : e ∈ st'.staged :=
      (h.staged e).mpr ⟨findStaged_mem he, n + 1, hid ▸ .delta he hkind hdelta hbase⟩
    have hfind : findStaged st'.staged id = some e := hid ▸ find_of_nodup hnodup hmem
    exact .delta hfind hkind hdelta ih

/-- The ids that a round takes from the queue leave it. -/
def PullState.request (st : PullState) (batchSize : ℕ) : PullState :=
  { st with pending := st.pending.drop batchSize, batches := saturatingAdd st.batches 1 }

section Verification
variable {mid : PullState} {batchSize : ℕ}

theorem Settled.mid_held (h : Settled remote transport env s₀ ids st)
    (hanswered : Answered remote transport (st.pending.take batchSize) (st.request batchSize) mid)
    {e : ValueSegmentEntry} (he : e ∈ mid.staged) :
    (∃ payload, remote.find e.id = some (payload, e.entry)) ∧
      remote.Wanted transport s₀ ids e.id := by
  rcases hanswered.staged e he with hold | ⟨text, htext, hserves, hfind⟩
  · exact ⟨h.held e hold, h.wanted e hold⟩
  · exact ⟨hfind, (h.pending text (List.mem_of_mem_take htext)).2 e.id hserves⟩

theorem Settled.mid_origin (h : Settled remote transport env s₀ ids st)
    (hanswered : Answered remote transport (st.pending.take batchSize) (st.request batchSize) mid)
    (id : ValueId) (v : Bytes) (hv : Resolves patchValue (mid.store.node env) id v) :
    Resolves patchValue (remote.originNode env s₀) id v := by
  rw [hanswered.store] at hv
  exact h.origin id v hv

/-- The staged entries verify and are imported, and those that lack an id are left. -/
theorem Settled.imported (h : Settled remote transport env s₀ ids st)
    (hpulling : Pulling env s₀ mid)
    (hanswered : Answered remote transport (st.pending.take batchSize) (st.request batchSize) mid) :
    ∃ ready failed st', verifyAndImport env mid = some (.ok (), st') ∧
      Accepted env mid.store mid.staged ready ∧
      Imported env ready (dropFailed mid failed) st' ∧ Pulling env s₀ st' ∧ Round env mid st' ∧
      ∀ id ∈ failed, ∀ n, ¬ Lacks mid.store mid.staged id n := by
  have hhealthy := hpulling.clean.healthy
  have hcache : StagedSound env mid.store mid.staged (fun _ => none) := nofun
  obtain ⟨ready, failed, hverify, haccepted⟩ :=
    verifyStaged_spec hhealthy hpulling.nodup (List.Subset.refl _) hcache
  obtain ⟨hall, hfailed⟩ :=
    verifyStaged_deferred hhealthy hpulling.nodup (List.Subset.refl _) hcache hverify
  have hagrees : Agrees env mid.store mid.staged := by
    refine remote.agrees hhealthy (h.mid_origin hanswered) fun e he => ?_
    exact ⟨hpulling.stagedNew e he, (h.mid_held hanswered he).1⟩
  obtain ⟨st', himported⟩ := @Accepted.imported _ (dropFailed mid failed) _ hhealthy _
    haccepted hpulling.nodup hagrees
  obtain ⟨r, st'', hrun, -, hok, -⟩ := (hpulling.dropFailed failed).importReady
    hpulling.stagedNew hpulling.fits hpulling.nodup haccepted
  rw [himported.run] at hrun
  cases hrun
  refine ⟨ready, failed, st', ?_, haccepted, himported, hok rfl, ⟨himported.pending, ?_, ?_, ?_⟩,
    hfailed⟩
  · rw [verifyAndImport, hverify]
    exact himported.run
  · intro e
    have hdropped : e ∈ (dropFailed mid failed).staged ↔ e ∈ mid.staged ∧ e.id ∉ failed := by
      simp [dropFailed, List.mem_filter]
    rw [himported.staged, hdropped]
    constructor
    · rintro ⟨⟨he, hnot⟩, hready⟩
      rcases hall e he with hlacks | hmem | ⟨v, hv⟩
      · exact ⟨he, hlacks⟩
      · exact absurd hmem hnot
      · exact absurd rfl (hready _ hv)
    · rintro ⟨he, n, hn⟩
      refine ⟨⟨he, fun hmem => hfailed _ hmem n hn⟩, fun p hp hid => ?_⟩
      have hresolves := ((haccepted p.1 p.2).mp hp).2
      rw [hid] at hresolves
      exact hn.not_resolves hhealthy _ hresolves
  · intro id hid
    rcases (himported.index id).mp hid with hold | ⟨p, hp, rfl⟩
    · exact .inl hold
    · obtain ⟨hmem, hresolves⟩ := (haccepted p.1 p.2).mp hp
      exact .inr ⟨p.1, hmem, rfl, fun n hn => hn.not_resolves hhealthy _ hresolves⟩
  · intro id v hv
    have hid := mem_index_of_resolves (hok rfl).clean.healthy.wf hv
    rcases (himported.index id).mp hid with hold | ⟨p, hp, rfl⟩
    · obtain ⟨w, -, hw⟩ := hhealthy.sound id hold
      rw [hv.functional (himported.keeps id w hw.resolves)]
      exact .inl hw.resolves
    · obtain ⟨hmem, hresolves⟩ := (haccepted p.1 p.2).mp hp
      rw [hv.functional (himported.ready p hp)]
      exact .inr ⟨p.1, hmem, rfl, hresolves⟩

/-- A round keeps the invariant. -/
theorem Settled.verified (h : Settled remote transport env s₀ ids st)
    (hpulling : Pulling env s₀ mid)
    (hanswered : Answered remote transport (st.pending.take batchSize) (st.request batchSize) mid) :
    ∃ st', verifyAndImport env mid = some (.ok (), st') ∧ Round env mid st' ∧
      Settled remote transport env s₀ ids st' := by
  have hhealthy := hpulling.clean.healthy
  obtain ⟨ready, failed, st', hrun, haccepted, himported, hpulling', hround, hfailed⟩ :=
    h.imported hpulling hanswered
  obtain ⟨pushed, texts, hsub, hpushed, hpending, hqueued⟩ := hanswered.pushed
  have hheld {e : ValueSegmentEntry} (he : e ∈ mid.staged) :=
    @Settled.mid_held _ _ remote _ _ _ _ _ _ h hanswered _ he
  have hmem {e : ValueSegmentEntry} (he : e ∈ st'.staged) : e ∈ mid.staged :=
    ((hround.staged e).mp he).1
  refine ⟨st', hrun, hround, hpulling', ?_, fun e he => (hheld (hmem he)).1,
    fun e he => (hheld (hmem he)).2, ?_, ?_, ?_, ?_⟩
  · intro id w hw
    rcases (himported.index id).mp (mem_index_of_resolves hpulling'.clean.healthy.wf hw) with
      hold | ⟨p, hp, rfl⟩
    · obtain ⟨v, -, hv⟩ := hhealthy.sound id hold
      rw [hw.functional (himported.keeps id v hv.resolves)]
      exact h.mid_origin hanswered id v hv.resolves
    · rw [hw.functional (himported.ready p hp)]
      refine remote.origin_of_staged hhealthy (h.mid_origin hanswered) (fun e he => ?_)
        ((haccepted p.1 p.2).mp hp).2
      exact ⟨hpulling.stagedNew e he, (hheld he).1⟩
  · intro e he
    obtain ⟨-, n, hn⟩ := (hround.staged e).mp he
    exact ⟨n, hround.lacks hpulling'.nodup hn⟩
  · intro e he delta hdelta
    obtain ⟨hemid, n, hn⟩ := (hround.staged e).mp he
    obtain ⟨m, hm⟩ : ∃ m, Lacks mid.store mid.staged delta.base m := by
      have hfind := find_of_nodup hpulling.nodup hemid
      cases hn with
      | absent hnone => rw [findStaged, hfind] at hnone; cases hnone
      | delta he' _ hdelta' hbase =>
        rw [findStaged, hfind] at he'
        cases he'
        rw [hdelta] at hdelta'
        cases hdelta'
        exact ⟨_, hbase⟩
    by_cases hbase : (findStaged mid.staged delta.base).isSome
    · left
      obtain ⟨e₁, he₁, hid⟩ := findStaged_isSome.mp hbase
      exact findStaged_isSome.mpr ⟨e₁, (hround.staged e₁).mpr ⟨he₁, m, hid ▸ hm⟩, hid⟩
    · right
      rcases hanswered.bases e hemid delta hdelta with hsome | hstored | hrequested
      · exact absurd hsome hbase
      · cases hm with
        | absent _ hnot => exact absurd hstored hnot
        | delta he' => simp [he'] at hbase
      · rw [himported.queued]
        refine Finset.mem_filter.mpr ⟨hrequested, fun hin => ?_⟩
        obtain ⟨id, hid, heq⟩ := List.mem_map.mp hin
        exact hfailed id hid m (valueIdToHex_injective heq ▸ hm)
  · intro text htext
    rw [himported.queued] at htext
    rw [himported.pending]
    change text ∈ mid.pending
    rw [hpending]
    rcases hqueued text (Finset.mem_filter.mp htext).1 with ⟨hold, hnot⟩ | hnew
    · have hall := h.queued text hold
      rw [← List.take_append_drop batchSize st.pending] at hall
      exact List.mem_append_left _ ((List.mem_append.mp hall).resolve_left hnot)
    · exact List.mem_append_right _ hnew
  · intro text htext
    rw [himported.pending] at htext
    change text ∈ mid.pending at htext
    rw [hpending] at htext
    rcases List.mem_append.mp htext with hold | hnew
    · exact h.pending text (List.mem_of_mem_drop hold)
    · obtain ⟨e, he, delta, hdelta, rfl, -, hstored, -⟩ := exists_of_forall₂ hpushed hnew
      refine ⟨normalizeId_toHex _, fun id hserves => ?_⟩
      have hid := hserves.1
      rw [parseValueId_toHex] at hid
      cases hid
      obtain ⟨⟨payload, hfind⟩, hwanted⟩ := hheld (hsub.subset he)
      exact .base hwanted hfind hdelta fun hmem => hstored (h.pulling.grows _ hmem)

end Verification

/-- One round of a pull from a fixed table returns, or faults at a patch that does not fit. -/
theorem Settled.round (h : Settled remote transport env s₀ ids st)
    (hz : ∀ bytes decoded, z.decodeAll bytes = .ok decoded → decoded.length < 2 ^ 63)
    (hvalues : VectorValues env st.store) (batchSize : ℕ) (o : TableOrder) :
    ∃ mid st', pullRound env z batchSize st
        (remote.answer transport (st.pending.take batchSize) o) = some (.ok (), st') ∧
      Answered remote transport (st.pending.take batchSize)
        (st.request batchSize) mid ∧
      Pulling env s₀ mid ∧ Round env mid st' ∧
      Settled remote transport env s₀ ids st' ∧
      ((∃ e ∈ mid.staged, ¬ PatchOfFits env mid.store mid.staged e) ∧
          pullRoundRun env z batchSize st
            (remote.answer transport (st.pending.take batchSize) o) =
              some (.error .capacityOverflow) ∨
        (∀ e ∈ mid.staged, PatchOfFits env mid.store mid.staged e) ∧
          pullRoundRun env z batchSize st
            (remote.answer transport (st.pending.take batchSize) o) = some (.ok (.ok (), st')) ∧
          VectorValues env st'.store) := by
  have hbatch {text : String} (htext : text ∈ st.pending.take batchSize) : text ∈ st.pending :=
    List.mem_of_mem_take htext
  have hrest : Pulling env s₀ (st.request batchSize) :=
    ⟨h.pulling.clean, h.pulling.grows,
      fun text htext => h.pulling.pendingNew text (List.mem_of_mem_drop htext),
      h.pulling.stagedNew, h.pulling.fits, h.pulling.nodup⟩
  have hsizes : ∀ object ∈ (st.pending.take batchSize).filterMap (remote.object transport),
      ∀ payload ∈ object.payload, payload.length < 2 ^ 63 := by
    intro object hobject payload hpayload
    obtain ⟨text, -, heq⟩ := List.mem_filterMap.mp hobject
    obtain ⟨id, -, heq⟩ := Option.bind_eq_some_iff.mp heq
    obtain ⟨⟨payload', entry⟩, hfind, rfl⟩ := Option.map_eq_some_iff.mp heq
    cases hpayload
    exact remote.sizes id _ entry hfind
  have hanswered := @RemoteEntries.answered _ transport (st.request batchSize)
    remote _ (fun text htext => (h.pending text (hbatch htext)).1) o
  obtain ⟨hmid, -, -⟩ := hrest.stageAnswer hz
    (fun text htext => h.pulling.pendingNew text (hbatch htext)) o.perm hsizes
  have hround : pullRound env z batchSize st
      (remote.answer transport (st.pending.take batchSize) o) =
        verifyAndImport env (stageAnswer z (st.pending.take batchSize) o.order
          (st.request batchSize)
          ((st.pending.take batchSize).filterMap (remote.object transport))) := rfl
  have hroundRun : pullRoundRun env z batchSize st
      (remote.answer transport (st.pending.take batchSize) o) =
        verifyAndImportRun env (stageAnswer z (st.pending.take batchSize) o.order
          (st.request batchSize)
          ((st.pending.take batchSize).filterMap (remote.object transport))) := rfl
  rw [hround, hroundRun]
  generalize stageAnswer z (st.pending.take batchSize) o.order
    (st.request batchSize)
    ((st.pending.take batchSize).filterMap (remote.object transport)) = mid at *
  obtain ⟨st', hrun, hround, hsettled⟩ := h.verified hmid hanswered
  have hbytes : VectorBytes env mid.store mid.staged := by
    refine ⟨?_, fun e he => Nat.le_sub_one_of_lt (hmid.fits e he).bytes⟩
    rw [hanswered.store]
    exact hvalues
  refine ⟨mid, st', hrun, hanswered, hmid, hround, hsettled, ?_⟩
  refine (verifyAndImportRun_cases hmid.clean.healthy hbytes hmid.nodup).imp_right ?_
  rintro ⟨hfits, hrunEq, hstaged⟩
  refine ⟨hfits, by rw [hrunEq, hrun]; rfl, fun id v hv => ?_⟩
  have hhealthy := hsettled.pulling.clean.healthy
  rcases hhealthy.materialize_cases id with ⟨w, hw, hres⟩ | ⟨herr, -⟩
  · rw [hv] at hw
    cases hw
    rcases hround.values id v hres with hold | ⟨e, he, rfl, hvalue⟩
    · have hsound := (hmid.clean.healthy.sound_of_resolves hold).2
      exact hbytes.stored id v (materialize_ok hmid.clean.healthy.wf hsound).1
    · exact hstaged e he v hvalue
  · rw [hv] at herr
    cases herr

/-- Where the peer's patches fit, so do those that are staged. -/
theorem Settled.fits (h : Settled remote transport env s₀ ids st)
    (hpatches : remote.PatchesFit transport env s₀ ids) {mid : PullState} {batchSize : ℕ}
    (hmid : Pulling env s₀ mid)
    (hanswered : Answered remote transport (st.pending.take batchSize) (st.request batchSize) mid)
    {e : ValueSegmentEntry} (he : e ∈ mid.staged) : PatchOfFits env mid.store mid.staged e := by
  intro delta b _ hdelta hb
  obtain ⟨⟨payload, hfind⟩, hwanted⟩ := h.mid_held hanswered he
  refine hpatches e.id payload e.entry delta b hwanted hfind hdelta ?_
  refine remote.origin_of_staged hmid.clean.healthy (h.mid_origin hanswered) (fun e' he' => ?_) hb
  exact ⟨hmid.stagedNew e' he', (h.mid_held hanswered he').1⟩

end Rounds

section Progress
variable {env : Env} {z : Zstd} {remote : RemoteEntries z} {transport : Transport}
  {s₀ : ValueStore} {ids : List String} {st mid st' : PullState} {batchSize : ℕ}

def PullState.stagedIds (st : PullState) : Finset ValueId := (st.staged.map (·.id)).toFinset

theorem mem_stagedIds {id : ValueId} : id ∈ st.stagedIds ↔ ∃ e ∈ st.staged, e.id = id := by
  simp [PullState.stagedIds]

/-- The ids that an answer stages anew are those of requested texts. -/
theorem Answered.card_new (h : Answered remote transport (st.pending.take batchSize)
    (st.request batchSize) mid) :
    (mid.stagedIds \ st.stagedIds).card ≤ (st.pending.take batchSize).length := by
  have hsub : mid.stagedIds \ st.stagedIds ⊆
      ((st.pending.take batchSize).filterMap parseValueId).toFinset := by
    intro id hid
    obtain ⟨hmid, hold⟩ := Finset.mem_sdiff.mp hid
    obtain ⟨e, he, rfl⟩ := mem_stagedIds.mp hmid
    rcases h.staged e he with hmem | ⟨text, htext, hserves, -⟩
    · exact absurd (mem_stagedIds.mpr ⟨e, hmem, rfl⟩) hold
    · exact List.mem_toFinset.mpr (List.mem_filterMap.mpr ⟨text, htext, hserves.1⟩)
  calc (mid.stagedIds \ st.stagedIds).card
      ≤ ((st.pending.take batchSize).filterMap parseValueId).toFinset.card :=
        Finset.card_le_card hsub
    _ ≤ ((st.pending.take batchSize).filterMap parseValueId).length := List.toFinset_card_le _
    _ ≤ (st.pending.take batchSize).length := List.length_filterMap_le _ _

/-- Where every base is held, only what was staged anew requests its base. -/
theorem Settled.pushed_new (h : Settled remote transport env s₀ ids st)
    (hcomplete : remote.Complete transport s₀ ids)
    (hanswered : Answered remote transport (st.pending.take batchSize) (st.request batchSize) mid)
    {e : ValueSegmentEntry} (he : e ∈ mid.staged) {text : String}
    (hrequests : Requests mid.staged
      (settleBatch (st.request batchSize) ∅ (st.pending.take batchSize)) e text) :
    e.id ∉ st.stagedIds := by
  intro hold
  obtain ⟨e₀, he₀, hid⟩ := mem_stagedIds.mp hold
  obtain ⟨delta, hdelta, rfl, hnone, hstored, hqueued⟩ := hrequests
  have hstaged {id : ValueId} (hin : ∃ e' ∈ mid.staged, e'.id = id) :
      findStaged mid.staged id ≠ none := by
    have hsome := findStaged_isSome.mpr hin
    intro hnone
    rw [hnone] at hsome
    cases hsome
  obtain ⟨payload₀, hfind₀⟩ := h.held e₀ he₀
  obtain ⟨⟨payload, hfind⟩, hwanted⟩ := h.mid_held hanswered he
  rw [hid, hfind] at hfind₀
  have hentry : e.entry = e₀.entry := (Prod.mk.inj (Option.some.inj hfind₀)).2
  rcases h.bases e₀ he₀ delta (hentry ▸ hdelta) with hsome | hrequested
  · obtain ⟨e₁, he₁, hbase⟩ := findStaged_isSome.mp hsome
    obtain ⟨e₂, he₂, hid₂⟩ := hanswered.kept e₁ he₁
    exact hstaged ⟨e₂, he₂, hid₂.trans hbase⟩ hnone
  · have hbatch : valueIdToHex delta.base ∈ st.pending.take batchSize := by
      by_contra hnot
      exact hqueued (Finset.mem_filter.mpr ⟨hrequested, by simpa using hnot⟩)
    rcases hcomplete e.id payload e.entry delta hwanted hfind hdelta with hin | hin
    · exact hstored (h.pulling.grows _ hin)
    · have hserves : transport.Serves (valueIdToHex delta.base) delta.base := by
        refine ⟨parseValueId_toHex _, ?_⟩
        cases transport with
        | binary => exact normalizeId_toHex _
        | json => exact normalizeId_toHex _
      exact hstaged (hanswered.fetched _ hbatch _ hserves hin) hnone

/-- Where everything staged anew lacks its base, so does what was staged before. -/
theorem Settled.lacks_mid (h : Settled remote transport env s₀ ids st)
    (hpulling : (mid.staged.map (·.id)).Nodup)
    (hanswered : Answered remote transport (st.pending.take batchSize) (st.request batchSize) mid)
    (hnew : ∀ id ∈ mid.stagedIds \ st.stagedIds, ∃ n, Lacks mid.store mid.staged id n)
    {id : ValueId} {n : ℕ} (hn : Lacks st.store st.staged id n) :
    ∃ m, Lacks mid.store mid.staged id m := by
  induction hn with
  | @absent id hstaged hstored =>
    by_cases hmid : id ∈ mid.stagedIds
    · refine hnew id (Finset.mem_sdiff.mpr ⟨hmid, fun hold => ?_⟩)
      have hsome := findStaged_isSome.mpr (mem_stagedIds.mp hold)
      rw [hstaged] at hsome
      cases hsome
    · refine ⟨0, .absent ?_ ?_⟩
      · rw [← Option.not_isSome_iff_eq_none, findStaged_isSome, ← mem_stagedIds]
        exact hmid
      · rw [hanswered.store]
        exact hstored
  | @delta id e delta n he hkind hdelta _ ih =>
    obtain ⟨m, hm⟩ := ih
    have hmem := findStaged_mem he
    obtain rfl := findStaged_id he
    obtain ⟨e', he', hid⟩ := hanswered.kept e hmem
    obtain ⟨payload, hfind⟩ := h.held e hmem
    obtain ⟨⟨payload', hfind'⟩, -⟩ := h.mid_held hanswered he'
    rw [hid, hfind] at hfind'
    have hentry : e.entry = e'.entry := (Prod.mk.inj (Option.some.inj hfind')).2
    have hlook : findStaged mid.staged e.id = some e' := hid ▸ find_of_nodup hpulling he'
    exact ⟨m + 1, .delta hlook (hentry ▸ hkind) (hentry ▸ hdelta) hm⟩

/-- Where every base is held, a round shortens the queue, or keeps its length and stages more. -/
theorem Settled.progress (h : Settled remote transport env s₀ ids st)
    (hcomplete : remote.Complete transport s₀ ids) (hsize : 0 < batchSize)
    (hne : st.pending ≠ []) (hpulling : (mid.staged.map (·.id)).Nodup)
    (hanswered : Answered remote transport (st.pending.take batchSize) (st.request batchSize) mid)
    (hround : Round env mid st') :
    st'.pending.length < st.pending.length ∨
      st'.pending.length ≤ st.pending.length ∧
        (remote.ids \ st'.stagedIds).card < (remote.ids \ st.stagedIds).card := by
  obtain ⟨pushed, texts, hsub, hpushed, hpending, -⟩ := hanswered.pushed
  have hlength : st'.pending.length + (st.pending.take batchSize).length =
      st.pending.length + pushed.length := by
    have hdrop : (st.request batchSize).pending = st.pending.drop batchSize := rfl
    rw [hround.pending, hpending, hdrop, List.length_append, List.length_drop, List.length_take,
      hpushed.length_eq]
    omega
  have hpos : 0 < (st.pending.take batchSize).length := by
    have := List.length_pos_iff.mpr hne
    rw [List.length_take]
    omega
  have hcardNew := hanswered.card_new
  -- the ids of the entries whose bases are requested are new
  have hpushedNew : (pushed.map (·.id)).toFinset ⊆ mid.stagedIds \ st.stagedIds := by
    intro id hid
    obtain ⟨e, he, rfl⟩ := List.mem_map.mp (List.mem_toFinset.mp hid)
    obtain ⟨text, hrequests⟩ : ∃ text, Requests mid.staged
        (settleBatch (st.request batchSize) ∅ (st.pending.take batchSize)) e text := by
      obtain ⟨text, -, hr⟩ := exists_of_forall₂ hpushed.flip he
      exact ⟨text, hr⟩
    exact Finset.mem_sdiff.mpr ⟨mem_stagedIds.mpr ⟨e, hsub.subset he, rfl⟩,
      h.pushed_new hcomplete hanswered (hsub.subset he) hrequests⟩
  have hcardPushed : (pushed.map (·.id)).toFinset.card = pushed.length := by
    rw [List.toFinset_card_of_nodup (hpulling.sublist (hsub.map _)), List.length_map]
  have hle := Finset.card_le_card hpushedNew
  rw [hcardPushed] at hle
  rcases Nat.lt_or_ge pushed.length (st.pending.take batchSize).length with hlt | hge
  · exact .inl (by omega)
  right
  have heq : (pushed.map (·.id)).toFinset = mid.stagedIds \ st.stagedIds :=
    Finset.eq_of_subset_of_card_le hpushedNew (by omega)
  have hnew : ∀ id ∈ mid.stagedIds \ st.stagedIds, ∃ n, Lacks mid.store mid.staged id n := by
    intro id hid
    rw [← heq] at hid
    obtain ⟨e, he, rfl⟩ := List.mem_map.mp (List.mem_toFinset.mp hid)
    obtain ⟨text, -, delta, hdelta, -, hnone, hstored, -⟩ := exists_of_forall₂ hpushed.flip he
    obtain ⟨⟨payload, hfind⟩, -⟩ := h.mid_held hanswered (hsub.subset he)
    have hkind := decodeTransferEntry_kind (remote.decodes _ _ _ hfind) hdelta
    refine ⟨1, .delta (find_of_nodup hpulling (hsub.subset he)) hkind hdelta (.absent hnone ?_)⟩
    rw [hanswered.store]
    exact hstored
  have hkept : mid.stagedIds ⊆ st'.stagedIds := by
    intro id hid
    obtain ⟨e, he, rfl⟩ := mem_stagedIds.mp hid
    refine mem_stagedIds.mpr ⟨e, (hround.staged e).mpr ⟨he, ?_⟩, rfl⟩
    by_cases hold : e.id ∈ st.stagedIds
    · obtain ⟨e₀, he₀, hid₀⟩ := mem_stagedIds.mp hold
      obtain ⟨n, hn⟩ := h.lacks e₀ he₀
      exact h.lacks_mid hpulling hanswered hnew (hid₀ ▸ hn)
    · exact hnew e.id (Finset.mem_sdiff.mpr ⟨hid, hold⟩)
  refine ⟨by omega, Finset.card_lt_card ?_⟩
  have hold : st.stagedIds ⊆ st'.stagedIds := by
    intro id hid
    obtain ⟨e, he, rfl⟩ := mem_stagedIds.mp hid
    obtain ⟨e', he', hid'⟩ := hanswered.kept e he
    exact hkept (mem_stagedIds.mpr ⟨e', he', hid'⟩)
  refine (Finset.sdiff_subset_sdiff subset_rfl hold).ssubset_of_ne fun hsame => ?_
  obtain ⟨id, hid⟩ : (mid.stagedIds \ st.stagedIds).Nonempty := by
    rw [← Finset.card_pos]
    omega
  obtain ⟨hmid, hnot⟩ := Finset.mem_sdiff.mp hid
  obtain ⟨e, he, rfl⟩ := mem_stagedIds.mp hmid
  obtain ⟨⟨payload, hfind⟩, -⟩ := h.mid_held hanswered he
  have hin : e.id ∈ remote.ids \ st.stagedIds :=
    Finset.mem_sdiff.mpr ⟨remote.finite e.id (by rw [hfind]; rfl), hnot⟩
  rw [← hsame] at hin
  exact (Finset.mem_sdiff.mp hin).2 (hkept hmid)

end Progress

section Runs
variable {env : Env} {z : Zstd} {remote : RemoteEntries z} {transport : Transport}
  {s₀ : ValueStore} {ids : List String} {st : PullState} {batchSize : ℕ}

theorem pullLoopRun_nil (summarize : PullState → PullSummary) (h : st.pending = [])
    (responses : List RemoteBatch) :
    ∃ summary t, pullLoopRun env z batchSize summarize st responses =
      some (.ok (.finished summary, t)) := by
  rw [pullLoopRun.eq_def]
  dsimp only
  rw [if_pos (by rw [h]; rfl)]
  exact ⟨_, _, rfl⟩

/-- A round is followed by the rest of the loop. -/
theorem pullLoopRun_round (summarize : PullState → PullSummary) (hne : st.pending ≠ [])
    {orders : ℕ → TableOrder} {st' : PullState}
    (hplain : pullRound env z batchSize st
      (remote.answer transport (st.pending.take batchSize) (orders 0)) = some (.ok (), st'))
    (hrun : pullRoundRun env z batchSize st
      (remote.answer transport (st.pending.take batchSize) (orders 0)) =
        some (.ok (.ok (), st'))) (n : ℕ) :
    pullLoopRun env z batchSize summarize st
        (remote.answers transport env batchSize (n + 1) orders st) =
      pullLoopRun env z batchSize summarize st'
        (remote.answers transport env batchSize n (fun i => orders (i + 1)) st') := by
  rw [pullLoopRun.eq_def]
  dsimp only
  rw [if_neg (by simpa using hne), RemoteEntries.answers]
  dsimp only
  rw [hplain, hrun]

theorem pullLoopRun_fault (summarize : PullState → PullSummary) (hne : st.pending ≠ [])
    {orders : ℕ → TableOrder} {fault : Fault}
    (hrun : pullRoundRun env z batchSize st
      (remote.answer transport (st.pending.take batchSize) (orders 0)) = some (.error fault))
    (n : ℕ) :
    pullLoopRun env z batchSize summarize st
      (remote.answers transport env batchSize (n + 1) orders st) = some (.error fault) := by
  rw [pullLoopRun.eq_def]
  dsimp only
  rw [if_neg (by simpa using hne), RemoteEntries.answers]
  dsimp only
  rw [hrun]

/-- Where every base is held and every patch fits, the loop ends. -/
theorem Settled.ends (h : Settled remote transport env s₀ ids st)
    (hz : ∀ bytes decoded, z.decodeAll bytes = .ok decoded → decoded.length < 2 ^ 63)
    (hvalues : VectorValues env st.store) (hcomplete : remote.Complete transport s₀ ids)
    (hpatches : remote.PatchesFit transport env s₀ ids) (hsize : 0 < batchSize)
    (summarize : PullState → PullSummary) (orders : ℕ → TableOrder) :
    ∃ n summary t, pullLoopRun env z batchSize summarize st
      (remote.answers transport env batchSize n orders st) = some (.ok (.finished summary, t)) := by
  obtain ⟨measure, hmeasure⟩ : ∃ measure, st.pending.length * (remote.ids.card + 1) +
      (remote.ids \ st.stagedIds).card < measure := ⟨_, Nat.lt_succ_self _⟩
  induction measure generalizing st orders with
  | zero => omega
  | succ measure ih =>
    by_cases hne : st.pending = []
    · obtain ⟨summary, t, hrun⟩ := @pullLoopRun_nil env z _ batchSize
        summarize hne []
      exact ⟨0, summary, t, hrun⟩
    obtain ⟨mid, st', hplain, hanswered, hmid, hround, hsettled, hmisfit | hfits⟩ :=
      h.round hz hvalues batchSize (orders 0)
    · obtain ⟨⟨e, he, hnot⟩, -⟩ := hmisfit
      exact absurd (h.fits hpatches hmid hanswered he) hnot
    obtain ⟨-, hrun, hvalues'⟩ := hfits
    have hle : (remote.ids \ st'.stagedIds).card ≤ remote.ids.card :=
      Finset.card_le_card Finset.sdiff_subset
    obtain ⟨n, summary, t, hrest⟩ := ih hsettled hvalues' (fun i => orders (i + 1)) <| by
      rcases h.progress hcomplete hsize hne hmid.nodup hanswered hround with hlt | ⟨hlen, hlt⟩
      · have := Nat.mul_le_mul_right (remote.ids.card + 1) hlt
        rw [Nat.succ_mul] at this
        omega
      · have := Nat.mul_le_mul_right (remote.ids.card + 1) hlen
        omega
    exact ⟨n + 1, summary, t, (pullLoopRun_round summarize hne hplain hrun n).trans hrest⟩

/-- The peer's chain of an id comes to a base that nobody holds, or to a patch that does not fit. -/
inductive RemoteEntries.Doomed (remote : RemoteEntries z) (env : Env) (s : ValueStore) :
    ValueId → Prop
  | absent {id : ValueId} (hfind : remote.find id = none) (hnew : id ∉ s.index) :
    Doomed remote env s id
  | misfit {id : ValueId} {payload : Bytes} {entry : ValueEntry} {delta : DeltaEntry} {b : Bytes}
      (hfind : remote.find id = some (payload, entry)) (hdelta : entry.delta = some delta)
      (hnew : id ∉ s.index) (hbase : Resolves patchValue (remote.originNode env s) delta.base b)
      (hmisfit : ¬ PatchFits b entry.bytes) : Doomed remote env s id
  | delta {id : ValueId} {payload : Bytes} {entry : ValueEntry} {delta : DeltaEntry}
      (hfind : remote.find id = some (payload, entry)) (hdelta : entry.delta = some delta)
      (hnew : id ∉ s.index) (hbase : Doomed remote env s delta.base) : Doomed remote env s id

theorem RemoteEntries.Doomed.not_stored {id : ValueId} (h : remote.Doomed env s₀ id) :
    id ∉ s₀.index := by
  cases h with
  | absent _ hnew => exact hnew
  | misfit _ _ hnew => exact hnew
  | delta _ _ hnew => exact hnew

theorem RemoteEntries.Wanted.not_stored {id : ValueId}
    (h : remote.Wanted transport s₀ ids id) : id ∉ s₀.index := by
  cases h with
  | requested _ _ hnew => exact hnew
  | base _ _ _ hnew => exact hnew

/-- Where some base is not held or some patch does not fit, some request of a held entry is
doomed. -/
theorem RemoteEntries.exists_doomed
    (hnot : ¬ (remote.Complete transport s₀ ids ∧ remote.PatchesFit transport env s₀ ids)) :
    ∃ rawId ∈ ids, ∃ id, transport.Serves (normalizeId rawId) id ∧ id ∉ s₀.index ∧
      (remote.find id).isSome ∧ remote.Doomed env s₀ id := by
  have hroot {id : ValueId} (h : remote.Wanted transport s₀ ids id)
      (hsome : (remote.find id).isSome) (hdoomed : remote.Doomed env s₀ id) :
      ∃ rawId ∈ ids, ∃ id, transport.Serves (normalizeId rawId) id ∧ id ∉ s₀.index ∧
        (remote.find id).isSome ∧ remote.Doomed env s₀ id := by
    induction h with
    | @requested rawId id hraw hserves hnew => exact ⟨rawId, hraw, id, hserves, hnew, hsome, hdoomed⟩
    | base h hentry hdelta _ ih =>
      exact ih (by rw [hentry]; rfl) (.delta hentry hdelta h.not_stored hdoomed)
  rcases Classical.not_and_iff_not_or_not.mp hnot with hincomplete | hmisfits
  · simp only [RemoteEntries.Complete, not_forall, not_or,
      Option.not_isSome_iff_eq_none] at hincomplete
    obtain ⟨id, payload, entry, delta, hwanted, hfind, hdelta, hstored, hnone⟩ := hincomplete
    exact hroot hwanted (by rw [hfind]; rfl)
      (.delta hfind hdelta hwanted.not_stored (.absent hnone hstored))
  · simp only [RemoteEntries.PatchesFit, not_forall] at hmisfits
    obtain ⟨id, payload, entry, delta, b, hwanted, hfind, hdelta, hb, hmisfit⟩ := hmisfits
    exact hroot hwanted (by rw [hfind]; rfl)
      (.misfit hfind hdelta hwanted.not_stored hb hmisfit)

/-- A doomed id lacks a base, whatever has been staged so far: a staged patch that does not fit
has not met its base. -/
theorem RemoteEntries.Doomed.lacks {s : ValueStore} {staged : List ValueSegmentEntry}
    (hs : Healthy env s)
    (horigin : ∀ id v, Resolves patchValue (s.node env) id v →
      Resolves patchValue (remote.originNode env s₀) id v)
    (hheld : ∀ e ∈ staged, e.id ∉ s₀.index ∧
      ∃ payload, remote.find e.id = some (payload, e.entry))
    (hfits : ∀ e ∈ staged, PatchOfFits env s staged e)
    (hstored : ∀ id ∈ s.index, ¬ remote.Doomed env s₀ id) {id : ValueId}
    (h : remote.Doomed env s₀ id) : ∃ n, Lacks s staged id n := by
  have hentry {k : ValueId} {e : ValueSegmentEntry} {payload : Bytes} {entry : ValueEntry}
      (hlook : findStaged staged k = some e) (hfind : remote.find k = some (payload, entry)) :
      entry = e.entry := by
    obtain ⟨-, payload', hheld'⟩ := hheld e (findStaged_mem hlook)
    rw [findStaged_id hlook, hfind] at hheld'
    exact (Prod.mk.inj (Option.some.inj hheld')).2
  induction h with
  | @absent id hfind hnew =>
    refine ⟨0, .absent ?_ fun hmem => hstored id hmem (.absent hfind hnew)⟩
    rw [← Option.not_isSome_iff_eq_none, findStaged_isSome]
    rintro ⟨e, he, rfl⟩
    obtain ⟨-, payload, hsome⟩ := hheld e he
    rw [hfind] at hsome
    cases hsome
  | @misfit id payload entry delta b hfind hdelta hnew hbase hmisfit =>
    rcases hlook : findStaged staged id with _ | e
    · exact ⟨0, .absent hlook fun hmem =>
        hstored id hmem (.misfit hfind hdelta hnew hbase hmisfit)⟩
    · have hkind := decodeTransferEntry_kind (remote.decodes _ _ _ hfind) hdelta
      cases hentry hlook hfind
      rcases remote.lacks_or_staged hs horigin hheld hbase with ⟨n, hn⟩ | hb
      · exact ⟨n + 1, .delta hlook hkind hdelta hn⟩
      · exact absurd (hfits e (findStaged_mem hlook) delta b hkind hdelta hb) hmisfit
  | @delta id payload entry delta hfind hdelta hnew hbase ih =>
    rcases hlook : findStaged staged id with _ | e
    · exact ⟨0, .absent hlook fun hmem => hstored id hmem (.delta hfind hdelta hnew hbase)⟩
    · obtain ⟨n, hn⟩ := ih
      have hkind := decodeTransferEntry_kind (remote.decodes _ _ _ hfind) hdelta
      cases hentry hlook hfind
      exact ⟨n + 1, .delta hlook hkind hdelta hn⟩

/-- What is staged between two rounds waits for a pending request. -/
theorem Settled.pending_ne_nil (h : Settled remote transport env s₀ ids st)
    {e : ValueSegmentEntry} (he : e ∈ st.staged) : st.pending ≠ [] := by
  obtain ⟨n, hn⟩ := h.lacks e he
  induction n generalizing e with
  | zero =>
    cases hn with
    | absent hnone =>
      have hsome := findStaged_isSome.mpr ⟨e, he, rfl⟩
      rw [hnone] at hsome
      cases hsome
  | succ n ih =>
    cases hn with
    | @delta _ e' delta _ he' _ hdelta hbase =>
      rw [findStaged, find_of_nodup h.pulling.nodup he] at he'
      cases he'
      rcases h.bases e he delta hdelta with hsome | hrequested
      · obtain ⟨e₁, he₁, hid⟩ := findStaged_isSome.mp hsome
        exact ih he₁ (hid ▸ hbase)
      · exact List.ne_nil_of_mem (h.queued _ hrequested)

/-- A pull that has asked for a doomed entry waits for the next answer after every round, or has
faulted at a patch that does not fit. -/
theorem Settled.waits (h : Settled remote transport env s₀ ids st)
    (hz : ∀ bytes decoded, z.decodeAll bytes = .ok decoded → decoded.length < 2 ^ 63)
    (hvalues : VectorValues env st.store)
    (hstored : ∀ id ∈ st.store.index, ¬ remote.Doomed env s₀ id)
    (hdoomed : ∃ id, remote.Doomed env s₀ id ∧ (id ∈ st.stagedIds ∨
      (remote.find id).isSome ∧ ∃ text ∈ st.pending, transport.Serves text id))
    (summarize : PullState → PullSummary) (n : ℕ) (orders : ℕ → TableOrder) :
    (¬ remote.PatchesFit transport env s₀ ids ∧ ∃ fault, pullLoopRun env z batchSize summarize st
        (remote.answers transport env batchSize n orders st) = some (.error fault)) ∨
      ∃ t, pullLoopRun env z batchSize summarize st
        (remote.answers transport env batchSize n orders st) = some (.ok (.waiting, t)) := by
  induction n generalizing st orders with
  | zero =>
    have hne : st.pending ≠ [] := by
      obtain ⟨id, -, hstaged | ⟨-, text, htext, -⟩⟩ := hdoomed
      · obtain ⟨e, he, -⟩ := mem_stagedIds.mp hstaged
        exact h.pending_ne_nil he
      · exact List.ne_nil_of_mem htext
    rw [RemoteEntries.answers, pullLoopRun]
    dsimp only
    rw [if_neg (by simpa using hne)]
    exact .inr ⟨st, rfl⟩
  | succ n ih =>
    obtain ⟨id, hid, hasked⟩ := hdoomed
    have hne : st.pending ≠ [] := by
      rcases hasked with hstaged | ⟨-, text, htext, -⟩
      · obtain ⟨e, he, -⟩ := mem_stagedIds.mp hstaged
        exact h.pending_ne_nil he
      · exact List.ne_nil_of_mem htext
    obtain ⟨mid, st', hplain, hanswered, hmid, hround, hsettled, hmisfit | hfits⟩ :=
      h.round hz hvalues batchSize (orders 0)
    · obtain ⟨⟨e, he, hnot⟩, hfault⟩ := hmisfit
      exact .inl ⟨fun hpatches => hnot (h.fits hpatches hmid hanswered he), _,
        pullLoopRun_fault summarize hne hfault n⟩
    obtain ⟨hfits, hrun, hvalues'⟩ := hfits
    have hlacks {k : ValueId} (hk : remote.Doomed env s₀ k) :
        ∃ n, Lacks mid.store mid.staged k n := by
      refine hk.lacks hmid.clean.healthy (h.mid_origin hanswered) (fun e he => ?_) hfits ?_
      · exact ⟨hmid.stagedNew e he, (h.mid_held hanswered he).1⟩
      · rw [hanswered.store]
        exact hstored
    have hstays {e : ValueSegmentEntry} (he : e ∈ mid.staged) (heq : e.id = id) :
        id ∈ st'.stagedIds :=
      mem_stagedIds.mpr ⟨e, (hround.staged e).mpr ⟨he, hlacks (heq ▸ hid)⟩, heq⟩
    rw [pullLoopRun_round summarize hne hplain hrun n]
    refine ih hsettled hvalues' ?_ ⟨id, hid, ?_⟩ _
    · intro k hk hkdoomed
      rcases hround.index k hk with hold | ⟨e, -, rfl, hnot⟩
      · rw [hanswered.store] at hold
        exact hstored k hold hkdoomed
      · obtain ⟨m, hm⟩ := hlacks hkdoomed
        exact hnot m hm
    · rcases hasked with hstaged | ⟨hsome, text, htext, hserves⟩
      · obtain ⟨e, he, heq⟩ := mem_stagedIds.mp hstaged
        obtain ⟨e', he', heq'⟩ := hanswered.kept e he
        exact .inl (hstays he' (heq'.trans heq))
      · rw [← List.take_append_drop batchSize st.pending] at htext
        rcases List.mem_append.mp htext with htaken | hrest
        · obtain ⟨e, he, heq⟩ := hanswered.fetched text htaken id hserves hsome
          exact .inl (hstays he heq)
        · obtain ⟨pushed, texts, -, -, hpending, -⟩ := hanswered.pushed
          refine .inr ⟨hsome, text, ?_, hserves⟩
          rw [hround.pending, hpending]
          exact List.mem_append_left _ hrest

/-- What the first loop queues. -/
structure Queued (s : ValueStore) (rawIds : List String) (st st' : PullState) : Prop where
  staged : st'.staged = st.staged
  queued : ∀ text ∈ st'.queued, text ∈ st'.pending
  kept : ∀ text ∈ st.pending, text ∈ st'.pending
  pending : ∀ text ∈ st'.pending, text ∈ st.pending ∨ ∃ rawId ∈ rawIds,
    text = normalizeId rawId ∧ ∀ id ∈ parseValueId text, id ∉ s.index

theorem Queued.cons {s : ValueStore} {rawId : String} {rawIds : List String}
    {st st₁ st' : PullState} (h : Queued s rawIds st₁ st') (hstaged : st₁.staged = st.staged)
    (hkept : ∀ text ∈ st.pending, text ∈ st₁.pending)
    (hpending : ∀ text ∈ st₁.pending, text ∈ st.pending ∨ text = normalizeId rawId ∧
      ∀ id ∈ parseValueId text, id ∉ s.index) : Queued s (rawId :: rawIds) st st' where
  staged := h.staged.trans hstaged
  queued := h.queued
  kept := fun text htext => h.kept text (hkept text htext)
  pending := by
    intro text htext
    rcases h.pending text htext with hold | ⟨rawId', hmem, hnew⟩
    · exact (hpending text hold).imp_right fun hnew => ⟨rawId, List.mem_cons_self, hnew⟩
    · exact .inr ⟨rawId', List.mem_cons_of_mem _ hmem, hnew⟩

theorem queueIds_queued (s : ValueStore) (seen : Finset String) (rawIds : List String)
    (hqueued : ∀ text ∈ st.queued, text ∈ st.pending) :
    Queued s rawIds st (queueIds s st seen rawIds) := by
  induction rawIds generalizing st seen with
  | nil => exact ⟨rfl, hqueued, fun _ => id, fun _ => .inl⟩
  | cons rawId rawIds ih =>
    rw [queueIds]
    dsimp only
    split
    · exact (ih _ hqueued).cons rfl (fun _ => id) fun _ => .inl
    split
    · refine Queued.cons (ih _ ?_) rfl (fun _ => id) fun _ => .inl
      exact hqueued
    rename_i known hparse
    split
    · refine Queued.cons (ih _ ?_) rfl (fun _ => id) fun _ => .inl
      exact hqueued
    rename_i hnew
    split
    · exact (ih _ hqueued).cons rfl (fun _ => id) fun _ => .inl
    · refine Queued.cons (ih _ ?_) rfl ?_ ?_
      · intro text htext
        rcases Finset.mem_insert.mp htext with rfl | htext
        · simp
        · exact List.mem_append_left _ (hqueued text htext)
      · exact fun text htext => List.mem_append_left _ htext
      · intro text htext
        rcases List.mem_append.mp htext with htext | htext
        · exact .inl htext
        · obtain rfl := List.mem_singleton.mp htext
          refine .inr ⟨rfl, fun id' hid' => ?_⟩
          rw [hparse] at hid'
          cases hid'
          exact hnew

/-- An id that is not stored is queued. -/
theorem mem_queueIds {s : ValueStore} {seen : Finset String} {rawIds : List String}
    (hqueued : ∀ text ∈ st.queued, text ∈ st.pending) {rawId : String} (hraw : rawId ∈ rawIds)
    (hseen : normalizeId rawId ∈ seen → normalizeId rawId ∈ st.pending) {id : ValueId}
    (hparse : parseValueId (normalizeId rawId) = some id) (hnew : id ∉ s.index) :
    normalizeId rawId ∈ (queueIds s st seen rawIds).pending := by
  induction rawIds generalizing st seen with
  | nil => simp at hraw
  | cons first rawIds ih =>
    have hkept {st' : PullState} (hqueued : ∀ text ∈ st'.queued, text ∈ st'.pending)
        (seen : Finset String) (hin : normalizeId rawId ∈ st'.pending) :
        normalizeId rawId ∈ (queueIds s st' seen rawIds).pending :=
      (queueIds_queued s seen rawIds hqueued).kept _ hin
    rw [queueIds]
    dsimp only
    by_cases hfirst : normalizeId first = normalizeId rawId
    · rw [hfirst]
      split
      · rename_i hskipped
        rcases hskipped with hempty | hmem
        · rw [hempty] at hparse
          cases hparse
        · exact hkept hqueued _ (hseen hmem)
      rw [hparse]
      dsimp only
      rw [if_neg hnew]
      split
      · rename_i hmem
        exact hkept hqueued _ (hqueued _ hmem)
      · refine hkept ?_ _ (by simp)
        intro text htext
        rcases Finset.mem_insert.mp htext with rfl | htext
        · simp
        · exact List.mem_append_left _ (hqueued text htext)
    · have hrest : rawId ∈ rawIds := by
        rcases List.mem_cons.mp hraw with rfl | hrest
        · exact absurd rfl hfirst
        · exact hrest
      have hseen' (hmem : normalizeId rawId ∈ insert (normalizeId first) seen) :
          normalizeId rawId ∈ st.pending := by
        rcases Finset.mem_insert.mp hmem with heq | hmem
        · exact absurd heq.symm hfirst
        · exact hseen hmem
      split
      · exact ih hqueued hrest hseen
      split
      · exact ih hqueued hrest hseen'
      split
      · exact ih hqueued hrest hseen'
      split
      · exact ih hqueued hrest hseen'
      · refine ih ?_ hrest ?_
        · intro text htext
          rcases Finset.mem_insert.mp htext with rfl | htext
          · simp
          · exact List.mem_append_left _ (hqueued text htext)
        · exact fun hmem => List.mem_append_left _ (hseen' hmem)

/-- A pull starts with nothing staged and the requested ids in the queue. -/
theorem RemoteEntries.start_settled (hs : CleanRun env s₀) :
    Settled remote transport env s₀ ids (queueIds s₀ (.start s₀) ∅ ids) := by
  obtain ⟨hpulling, hstore⟩ := (Pulling.start hs).queueIds rfl ∅ ids
  have hqueued := @queueIds_queued (.start s₀) s₀ ∅ ids (by simp [PullState.start])
  have hnone : (queueIds s₀ (.start s₀) ∅ ids).staged = [] := hqueued.staged
  refine ⟨hpulling, ?_, by simp [hnone], by simp [hnone], by simp [hnone], by simp [hnone],
    hqueued.queued, ?_⟩
  · intro id v hv
    rw [hstore] at hv
    refine hv.refine fun k node hnode => .inl ?_
    have hk : k ∈ s₀.index := by
      rw [← ValueStore.entryById_isSome hs.healthy.wf]
      rcases hentry : s₀.entryById k with _ | entry
      · simp [ValueStore.node, hentry] at hnode
      · rfl
    rw [RemoteEntries.originNode, if_pos hk, hnode]
  · intro text htext
    rcases hqueued.pending text htext with hold | ⟨rawId, hraw, rfl, hnew⟩
    · simp [PullState.start] at hold
    · exact ⟨normalizeId_idem rawId, fun id hserves => .requested hraw hserves
        (hnew id hserves.1)⟩

/-- A text of the request that is cut inside a character ends the pull before its first request. -/
theorem objectsPullRun_splits {s : ValueStore} {params : ObjectsPullParams}
    {client : Except Cluster.RpcError Unit} (hurl : trim params.sourceRpcUrl ≠ "")
    (hsplits : ∃ rawId ∈ params.ids, SplitsCharacter (normalizeId rawId))
    (responses : List RemoteBatch) :
    ∃ fault, objectsPullRun env z s params client responses = some (.error fault) := by
  obtain ⟨rawId, hraw, hsplits⟩ := hsplits
  obtain ⟨fault, hfault⟩ := @queueIdsRun_fault s (.start s) ∅ _ _ hraw hsplits (by simp)
  refine ⟨fault, ?_⟩
  rw [objectsPullRun]
  dsimp only
  rw [if_neg hurl, hfault]

theorem objectsPullRun_loop {s : ValueStore} {params : ObjectsPullParams}
    (hurl : trim params.sourceRpcUrl ≠ "")
    (hids : ∀ rawId ∈ params.ids, ¬ SplitsCharacter (normalizeId rawId)) :
    ∃ summarize : PullState → PullSummary, ∀ responses,
      objectsPullRun env z s params (.ok ()) responses =
        pullLoopRun env z (normalizeObjectsPullBatchSize params.batchSize) summarize
          (queueIds s (.start s) ∅ params.ids) responses := by
  simp only [objectsPullRun, if_neg hurl, queueIdsRun_eq hids]
  exact ⟨_, fun _ => rfl⟩

/-- Where some base is not held or some patch does not fit, the pull waits for another answer
after every round, or has faulted at a patch that does not fit. -/
theorem objectsPullRun_waits {s : ValueStore} (hs : CleanRun env s)
    (hz : ∀ bytes decoded, z.decodeAll bytes = .ok decoded → decoded.length < 2 ^ 63)
    (hvalues : VectorValues env s) {params : ObjectsPullParams}
    (hurl : trim params.sourceRpcUrl ≠ "")
    (hids : ∀ rawId ∈ params.ids, ¬ SplitsCharacter (normalizeId rawId))
    (hnot : ¬ (remote.Complete transport s params.ids ∧
      remote.PatchesFit transport env s params.ids)) (n : ℕ) (orders : ℕ → TableOrder) :
    (¬ remote.PatchesFit transport env s params.ids ∧
        ∃ fault, objectsPullRun env z s params (.ok ())
        (remote.answers transport env (normalizeObjectsPullBatchSize params.batchSize) n orders
          (queueIds s (.start s) ∅ params.ids)) = some (.error fault)) ∨
      ∃ t, objectsPullRun env z s params (.ok ())
        (remote.answers transport env (normalizeObjectsPullBatchSize params.batchSize) n orders
          (queueIds s (.start s) ∅ params.ids)) = some (.ok (.waiting, t)) := by
  obtain ⟨rawId, hraw, id, hserves, hnew, hsome, hdoomed⟩ := RemoteEntries.exists_doomed hnot
  have hsettled : Settled remote transport env s params.ids
      (queueIds s (.start s) ∅ params.ids) := RemoteEntries.start_settled hs
  have hpending := @mem_queueIds (.start s) _ ∅ _ (by simp [PullState.start]) _ hraw
    (by simp) _ hserves.1 hnew
  obtain ⟨-, hstore⟩ := (Pulling.start hs).queueIds rfl ∅ params.ids
  obtain ⟨summarize, hloop⟩ := @objectsPullRun_loop env z s _ hurl hids
  rw [hloop]
  refine hsettled.waits hz (by rw [hstore]; exact hvalues) (fun k hk hkdoomed => ?_)
    ⟨id, hdoomed, .inr ⟨hsome, _, hpending, hserves⟩⟩ summarize n orders
  rw [hstore] at hk
  exact hkdoomed.not_stored hk

/-- A pull from a peer with a fixed table returns if and only if it is refused before it looks at
the ids, or no id of the request is cut inside a character, and the client is not built or the peer
or the store holds the base of every delta that the pull gets and every patch fits its base. -/
theorem objects_pull_ends_iff {s : ValueStore} (hs : CleanRun env s)
    (hz : ∀ bytes decoded, z.decodeAll bytes = .ok decoded → decoded.length < 2 ^ 63)
    (hvalues : VectorValues env s) (remote : RemoteEntries z) (transport : Transport)
    (orders : ℕ → TableOrder) (params : ObjectsPullParams)
    (client : Except Cluster.RpcError Unit) :
    (∃ n outcome t, objectsPullRun env z s params client
        (remote.answers transport env (normalizeObjectsPullBatchSize params.batchSize) n orders
          (queueIds s (.start s) ∅ params.ids)) = some (.ok (outcome, t)) ∧ outcome ≠ .waiting) ↔
      trim params.sourceRpcUrl = "" ∨
        (∀ rawId ∈ params.ids, ¬ SplitsCharacter (normalizeId rawId)) ∧
          ((∃ err, client = .error err) ∨
            remote.Complete transport s params.ids ∧
              remote.PatchesFit transport env s params.ids) := by
  have hsize : 0 < normalizeObjectsPullBatchSize params.batchSize := by
    rw [normalizeObjectsPullBatchSize]
    omega
  have hsettled : Settled remote transport env s params.ids
      (queueIds s (.start s) ∅ params.ids) := RemoteEntries.start_settled hs
  by_cases hurl : trim params.sourceRpcUrl = ""
  · have hrefused : ∀ responses, objectsPullRun env z s params client responses =
        some (.ok (.failed (.rpc ⟨"invalid_request", "source_rpc_url is required"⟩), .start s)) :=
      fun _ => if_pos hurl
    exact ⟨fun _ => .inl hurl, fun _ => ⟨0, _, _, hrefused _, nofun⟩⟩
  constructor
  · rintro ⟨n, outcome, t, hrun, hne⟩
    refine .inr ⟨fun rawId hraw hsplits => ?_, ?_⟩
    · obtain ⟨fault, hfault⟩ := @objectsPullRun_splits env z s _ client hurl
        ⟨rawId, hraw, hsplits⟩ _
      cases hfault.symm.trans hrun
    rcases client with err | _
    · exact .inl ⟨err, rfl⟩
    by_contra hnot
    have hids : ∀ rawId ∈ params.ids, ¬ SplitsCharacter (normalizeId rawId) := by
      intro rawId hraw hsplits
      obtain ⟨fault, hfault⟩ := @objectsPullRun_splits env z s _ (.ok ()) hurl
        ⟨rawId, hraw, hsplits⟩ _
      cases hfault.symm.trans hrun
    rcases objectsPullRun_waits hs hz hvalues hurl hids (fun hboth => hnot (.inr hboth)) n
      orders with ⟨-, fault, hfault⟩ | ⟨t', hwaits⟩
    · cases hfault.symm.trans hrun
    · cases hwaits.symm.trans hrun
      exact hne rfl
  · rintro (h | ⟨hids, ⟨err, rfl⟩ | ⟨hcomplete, hpatches⟩⟩)
    · exact absurd h hurl
    · refine ⟨0, .failed (.rpc err), queueIds s (.start s) ∅ params.ids, ?_, nofun⟩
      rw [objectsPullRun]
      dsimp only
      rw [if_neg hurl, queueIdsRun_eq hids]
    · rcases client with err | _
      · refine ⟨0, .failed (.rpc err), queueIds s (.start s) ∅ params.ids, ?_, nofun⟩
        rw [objectsPullRun]
        dsimp only
        rw [if_neg hurl, queueIdsRun_eq hids]
      obtain ⟨-, hstore⟩ := (Pulling.start hs).queueIds rfl ∅ params.ids
      obtain ⟨summarize, hloop⟩ := @objectsPullRun_loop env z s _ hurl hids
      obtain ⟨n, summary, t, hrun⟩ := hsettled.ends hz (by rw [hstore]; exact hvalues) hcomplete
        hpatches hsize summarize orders
      exact ⟨n, _, t, (hloop _).trans hrun, nofun⟩

end Runs

section Sample

/-- A peer with a delta, and with its base or without. -/
def sampleEntries (withBase : Bool) (id : ValueId) : Option ValueEntry :=
  if id = sampleEnv.valueId [1, 2, 3, 4] then
    some ⟨.delta, buildPatchBytes [1, 2, 3] [1, 2, 3, 4],
      some ⟨sampleEnv.valueId [1, 2, 3], 4, 0, []⟩⟩
  else if withBase ∧ id = sampleEnv.valueId [1, 2, 3] then some ⟨.cell, [1, 2, 3], none⟩
  else none

def samplePayload (id : ValueId) (entry : ValueEntry) : Bytes :=
  (encodeTransferEntry boundedFrames id entry).toOption.getD []

theorem sampleEntries_cases {withBase : Bool} {id : ValueId} {entry : ValueEntry}
    (h : sampleEntries withBase id = some entry) :
    id = sampleEnv.valueId [1, 2, 3, 4] ∧
        entry = ⟨.delta, buildPatchBytes [1, 2, 3] [1, 2, 3, 4],
          some ⟨sampleEnv.valueId [1, 2, 3], 4, 0, []⟩⟩ ∨
      id = sampleEnv.valueId [1, 2, 3] ∧ entry = ⟨.cell, [1, 2, 3], none⟩ ∧ withBase := by
  unfold sampleEntries at h
  split_ifs at h with hdelta hbase
  · cases h
    exact .inl ⟨hdelta, rfl⟩
  · cases h
    exact .inr ⟨hbase.2, rfl, hbase.1⟩

def sampleRemote (withBase : Bool) : RemoteEntries boundedFrames where
  find id := (sampleEntries withBase id).map fun entry => (samplePayload id entry, entry)
  ids := {sampleEnv.valueId [1, 2, 3, 4], sampleEnv.valueId [1, 2, 3]}
  finite := by
    intro id hsome
    obtain ⟨found, hfound⟩ := Option.isSome_iff_exists.mp hsome
    obtain ⟨entry, hentry, -⟩ := Option.map_eq_some_iff.mp hfound
    rcases sampleEntries_cases hentry with ⟨rfl, -⟩ | ⟨rfl, -⟩ <;> simp
  decodes := by
    intro id payload entry hfound
    obtain ⟨entry, hentry, heq⟩ := Option.map_eq_some_iff.mp hfound
    cases heq
    rcases sampleEntries_cases hentry with ⟨rfl, rfl⟩ | ⟨rfl, rfl, -⟩
    · decide +kernel
    · decide +kernel
  sizes := by
    intro id payload entry hfound
    obtain ⟨entry, hentry, heq⟩ := Option.map_eq_some_iff.mp hfound
    cases heq
    have hshort : (samplePayload id entry).length < 100 := by
      rcases sampleEntries_cases hentry with ⟨rfl, rfl⟩ | ⟨rfl, rfl, -⟩
      · decide +kernel
      · decide +kernel
    exact hshort.trans (by norm_num)

def sampleParams : ObjectsPullParams :=
  ⟨"http://b:8080", [valueIdToHex (sampleEnv.valueId [1, 2, 3, 4])], none⟩

def sampleTableOrder : TableOrder := ⟨fun es => es, fun es => .refl es⟩

theorem boundedFrames_bounded (bytes decoded : Bytes)
    (h : boundedFrames.decodeAll bytes = .ok decoded) : decoded.length < 2 ^ 63 := by
  simp only [boundedFrames] at h
  split_ifs at h with hlen
  cases h
  exact hlen

theorem sampleRemote_complete :
    (sampleRemote true).Complete .binary (.new sampleConfig) sampleParams.ids := by
  intro id payload entry delta _ hfound hdelta
  right
  obtain ⟨entry, hentry, heq⟩ := Option.map_eq_some_iff.mp hfound
  cases heq
  rcases sampleEntries_cases hentry with ⟨rfl, rfl⟩ | ⟨rfl, rfl, -⟩
  · cases hdelta
    decide
  · cases hdelta

theorem sampleRemote_patchesFit (withBase : Bool) :
    (sampleRemote withBase).PatchesFit .binary sampleEnv (.new sampleConfig) sampleParams.ids := by
  intro id payload entry delta b _ hfound hdelta hb
  obtain ⟨entry, hentry, heq⟩ := Option.map_eq_some_iff.mp hfound
  cases heq
  rcases sampleEntries_cases hentry with ⟨rfl, rfl⟩ | ⟨rfl, rfl, -⟩
  · cases hdelta
    have hnode : (sampleRemote withBase).originNode sampleEnv (.new sampleConfig)
        (sampleEnv.valueId [1, 2, 3]) = if withBase then some (.cell [1, 2, 3]) else none := by
      cases withBase <;> rfl
    have hpatch : applyPatchBytes [1, 2, 3] (buildPatchBytes [1, 2, 3] [1, 2, 3, 4]) =
        .ok [1, 2, 3, 4] := by
      decide +kernel
    cases hb with
    | cell h =>
      cases withBase
      · cases hnode.symm.trans h
      · cases hnode.symm.trans h
        exact patchFits_of_ok hpatch (by decide)
    | delta h =>
      cases withBase
      · cases hnode.symm.trans h
      · cases hnode.symm.trans h
  · cases hdelta

theorem vectorValues_new (env : Env) (config : ValueStoreConfig) :
    VectorValues env (.new config) := by
  intro id v hv
  rcases (CleanRun.new config : CleanRun env _).healthy.materialize_cases id with
    ⟨w, -, hw⟩ | ⟨herr, -⟩
  · have hid := mem_index_of_resolves (CleanRun.new config : CleanRun env _).healthy.wf hw
    simp [ValueStore.new] at hid
  · cases hv.symm.trans herr

theorem sampleParams_ids :
    ∀ rawId ∈ sampleParams.ids, ¬ SplitsCharacter (normalizeId rawId) := by
  decide +kernel

theorem objects_pull_ends_sample :
    ∃ n outcome t, objectsPullRun sampleEnv boundedFrames (.new sampleConfig) sampleParams (.ok ())
        ((sampleRemote true).answers .binary sampleEnv
          (normalizeObjectsPullBatchSize sampleParams.batchSize) n (fun _ => sampleTableOrder)
          (queueIds (.new sampleConfig) (.start (.new sampleConfig)) ∅ sampleParams.ids)) =
        some (.ok (outcome, t)) ∧ outcome ≠ .waiting :=
  (objects_pull_ends_iff (.new sampleConfig) boundedFrames_bounded
    (vectorValues_new sampleEnv sampleConfig) (sampleRemote true) .binary
    (fun _ => sampleTableOrder) sampleParams (.ok ())).mpr
    (.inr ⟨sampleParams_ids, .inr ⟨sampleRemote_complete, sampleRemote_patchesFit true⟩⟩)

/-- With the base missing at the peer, the pull asks for it in every round. -/
theorem missing_base_pulled_forever :
    ¬ ∃ n, ∀ t, objectsPullRun sampleEnv boundedFrames (.new sampleConfig) sampleParams (.ok ())
      ((sampleRemote false).answers .binary sampleEnv
        (normalizeObjectsPullBatchSize sampleParams.batchSize) n (fun _ => sampleTableOrder)
        (queueIds (.new sampleConfig) (.start (.new sampleConfig)) ∅ sampleParams.ids)) ≠
      some (.ok (.waiting, t)) := by
  rintro ⟨n, hends⟩
  have hserves : Transport.binary.Serves (normalizeId (valueIdToHex
      (sampleEnv.valueId [1, 2, 3, 4]))) (sampleEnv.valueId [1, 2, 3, 4]) := by
    rw [normalizeId_toHex]
    exact ⟨parseValueId_toHex _, normalizeId_toHex _⟩
  have hwanted : (sampleRemote false).Wanted .binary (.new sampleConfig) sampleParams.ids
      (sampleEnv.valueId [1, 2, 3, 4]) :=
    .requested List.mem_cons_self hserves (by simp [ValueStore.new])
  have hincomplete :
      ¬ (sampleRemote false).Complete .binary (.new sampleConfig) sampleParams.ids := by
    intro hcomplete
    rcases hcomplete _ _ _ _ hwanted rfl rfl with hstored | hheld
    · simp [ValueStore.new] at hstored
    · revert hheld
      decide
  rcases objectsPullRun_waits (.new sampleConfig) boundedFrames_bounded
    (vectorValues_new sampleEnv sampleConfig) (by decide +kernel) sampleParams_ids
    (fun hboth => hincomplete hboth.1) n (fun _ => sampleTableOrder) with
    ⟨hmisfit, -⟩ | ⟨t, hwaits⟩
  · exact hmisfit (sampleRemote_patchesFit false)
  · exact hends t hwaits

end Sample

end SkeinDB.Values
