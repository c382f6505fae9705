import SkeinDB.Codec.Checked
import SkeinDB.Values.ObjectsPull
import SkeinDB.Values.RoundTrip

/-!
# Binary object responses

The binary form of an `objects.fetch` response in `skeindb/src/server.rs`: a header with the number
of transfer entries, and the entries behind their lengths. The decoder is modelled with its
indices, its additions and the capacities of its vectors checked.
-/
namespace SkeinDB.Values
open SkeinDB.Codec SkeinDB.Format SkeinDB.Cluster Codec.Checked

/-- `SKOF` -/
def objectsFetchBinaryMagic : Bytes := [0x53, 0x4B, 0x4F, 0x46]

def objectsFetchBinaryVersion : UInt8 := 1

/-- The size of a `RemoteTransferObject`, a string and two optional vectors of three words each. -/
def remoteTransferObjectSize : ℕ := 72

section Encoder

def encodeFetchPayloads : Bytes → List Bytes → Codec.Checked RpcError Bytes
  | body, [] => .ok body
  | body, payload :: payloads =>
    if 2 ^ 32 ≤ payload.length then
      .error (.err ⟨"internal", "binary transfer entry too large"⟩)
    else encodeFetchPayloads (body ++ leBytes 4 payload.length ++ payload) payloads

def encodeObjectsFetchBinaryPayloads (payloads : List Bytes) : Codec.Checked RpcError Bytes :=
  if 2 ^ 32 ≤ payloads.length then .error (.err ⟨"internal", "too many binary fetch objects"⟩)
  else do
    let body ← withCapacity 1 (9 + (payloads.map (4 + ·.length)).sum)
    encodeFetchPayloads (body ++ objectsFetchBinaryMagic ++ [objectsFetchBinaryVersion] ++
      leBytes 4 payloads.length) payloads

end Encoder

section Decoder
variable (z : Zstd) (text : ValueStoreError → String)

/-- `u32::from_le_bytes` of a slice, which has to have four bytes. -/
def u32FromLeBytes (message : String) (bytes : Bytes) : Codec.Checked RpcError ℕ :=
  if bytes.length = 4 then .ok (leNat bytes) else .error (.err ⟨"invalid_response", message⟩)

/-- One round of the loop, with the offset behind the entry. `text` is the text of a store error. -/
def decodeFetchEntry (body : Bytes) (offset : ℕ) :
    Codec.Checked RpcError (RemoteTransferObject × ℕ) := do
  let lenEnd ← add offset 4
  if body.length < lenEnd then
    .error (.err ⟨"invalid_response", "truncated binary objects.fetch entry length"⟩)
  else
    let lenBytes ← slice body offset lenEnd
    let len ← u32FromLeBytes "invalid binary entry length" lenBytes
    let offset ← add offset 4
    if 2 ^ 64 ≤ offset + len ∨ body.length < offset + len then
      .error (.err ⟨"invalid_response", "truncated binary objects.fetch entry payload"⟩)
    else
      let payload ← slice body offset (offset + len)
      let transfer ← lift ((decodeTransferEntry z payload).mapError
        fun err => RpcError.mk "invalid_response" (text err))
      .ok (⟨valueIdToHex transfer.id, some payload, none⟩, offset + len)

def decodeFetchEntries (body : Bytes) :
    ℕ → ℕ → Codec.Checked RpcError (List RemoteTransferObject × ℕ)
  | 0, offset => .ok ([], offset)
  | count + 1, offset => do
    let (object, offset) ← decodeFetchEntry z text body offset
    let (objects, offset) ← decodeFetchEntries body count offset
    .ok (object :: objects, offset)

def decodeObjectsFetchBinary (body : Bytes) : Codec.Checked RpcError (List RemoteTransferObject) :=
  if body.length < 9 then
    .error (.err ⟨"invalid_response", "binary objects.fetch response has invalid magic/header"⟩)
  else do
    let magic ← slice body 0 4
    if magic ≠ objectsFetchBinaryMagic then
      .error (.err ⟨"invalid_response", "binary objects.fetch response has invalid magic/header"⟩)
    else
      let version ← itemAt body 4
      if version ≠ objectsFetchBinaryVersion then
        .error (.err ⟨"unsupported_version",
          s!"unsupported binary objects.fetch version {version}"⟩)
      else
        let countBytes ← slice body 5 9
        let count ← u32FromLeBytes "invalid binary object count" countBytes
        let _ : List RemoteTransferObject ← withCapacity remoteTransferObjectSize count
        let (objects, offset) ← decodeFetchEntries z text body count 9
        if offset ≠ body.length then
          .error (.err ⟨"invalid_response", "binary objects.fetch response has trailing bytes"⟩)
        else .ok objects

end Decoder

section Frames

/-- An entry behind its length. -/
def fetchFrame (payload : Bytes) : Bytes := leBytes 4 payload.length ++ payload

@[simp] theorem fetchFrame_length (payload : Bytes) :
    (fetchFrame payload).length = 4 + payload.length := by
  simp [fetchFrame]

theorem encodeFetchPayloads_ok {body out : Bytes} {payloads : List Bytes}
    (h : encodeFetchPayloads body payloads = .ok out) :
    out = body ++ payloads.flatMap fetchFrame ∧ ∀ payload ∈ payloads, payload.length < 2 ^ 32 := by
  induction payloads generalizing body with
  | nil =>
    cases h
    simp
  | cons payload payloads ih =>
    rw [encodeFetchPayloads] at h
    split_ifs at h with hlen
    obtain ⟨rfl, hpayloads⟩ := ih h
    refine ⟨by simp [fetchFrame], fun p hp => ?_⟩
    rcases List.mem_cons.mp hp with rfl | hp
    · exact Nat.lt_of_not_le hlen
    · exact hpayloads p hp

/-- The header of a response with a number of entries. -/
def fetchHeader (count : ℕ) : Bytes :=
  objectsFetchBinaryMagic ++ (objectsFetchBinaryVersion :: leBytes 4 count)

@[simp] theorem fetchHeader_length (count : ℕ) : (fetchHeader count).length = 9 := by
  simp [fetchHeader, objectsFetchBinaryMagic]

/-- What the encoder puts out, and the bounds that it has checked. -/
structure EncodedFetch (payloads : List Bytes) (body : Bytes) : Prop where
  count : payloads.length < 2 ^ 32
  lengths : ∀ payload ∈ payloads, payload.length < 2 ^ 32
  encoded : body = fetchHeader payloads.length ++ payloads.flatMap fetchFrame
  size : body.length ≤ isizeMax

theorem encodedFetch_of_ok {payloads : List Bytes} {body : Bytes}
    (h : encodeObjectsFetchBinaryPayloads payloads = .ok body) : EncodedFetch payloads body := by
  rw [encodeObjectsFetchBinaryPayloads] at h
  split_ifs at h with hcount
  unfold withCapacity at h
  split_ifs at h with hsize
  swap
  · cases h
  obtain ⟨rfl, hlengths⟩ := encodeFetchPayloads_ok h
  refine ⟨Nat.lt_of_not_le hcount, hlengths, by simp [fetchHeader], ?_⟩
  have hsum : (payloads.flatMap fetchFrame).length = (payloads.map (4 + ·.length)).sum := by
    simp [List.length_flatMap]
  rw [List.length_append, hsum]
  simpa [objectsFetchBinaryMagic] using hsize

end Frames

section Decoding
variable {z : Zstd} {text : ValueStoreError → String}

/-- What a transfer entry is received as. -/
def receivedObject (payload : Bytes) (transfer : ValueSegmentEntry) : RemoteTransferObject :=
  ⟨valueIdToHex transfer.id, some payload, none⟩

variable {front rest payload : Bytes} {transfer : ValueSegmentEntry}

theorem slice_append {α ε : Type} (front mid rest : List α) {lo hi : ℕ} (hlo : lo = front.length)
    (hhi : hi = front.length + mid.length) :
    slice (ε := ε) (front ++ mid ++ rest) lo hi = .ok mid := by
  subst hlo hhi
  rw [slice_eq ⟨Nat.le_add_right _ _, by simp⟩, ← List.length_append, List.take_left' rfl,
    List.drop_left' rfl]

/-- The length in front of an entry is read as it was written. -/
theorem u32FromLeBytes_length (message : String) (hlen : payload.length < 2 ^ 32) :
    u32FromLeBytes message (leBytes 4 payload.length) = .ok payload.length := by
  rw [u32FromLeBytes, if_pos (leBytes_length 4 _), leNat_leBytes 4 _ hlen]

theorem decodeFetchEntry_frame (hlen : payload.length < 2 ^ 32)
    (hsize : (front ++ fetchFrame payload).length ≤ isizeMax)
    (h : decodeTransferEntry z payload = .ok transfer) :
    decodeFetchEntry z text (front ++ fetchFrame payload ++ rest) front.length =
      .ok (receivedObject payload transfer, (front ++ fetchFrame payload).length) := by
  have hbound : front.length + (4 + payload.length) < 2 ^ 63 := by
    simp only [List.length_append, fetchFrame_length, isizeMax] at hsize
    omega
  have hbody : front ++ fetchFrame payload ++ rest =
      front ++ leBytes 4 payload.length ++ (payload ++ rest) := by
    simp [fetchFrame]
  have hlength : (front ++ fetchFrame payload ++ rest).length =
      front.length + (4 + payload.length) + rest.length := by
    simp [Nat.add_assoc]
  have hpayload : slice (ε := RpcError) (front ++ fetchFrame payload ++ rest) (front.length + 4)
      (front.length + 4 + payload.length) = .ok payload := by
    rw [hbody, ← List.append_assoc]
    exact slice_append _ payload rest (by simp) (by simp)
  rw [decodeFetchEntry, add_eq (by omega)]
  simp only [bind, Except.bind]
  rw [if_neg (by omega), hbody, slice_append front _ _ rfl (by simp), ← hbody]
  simp only
  rw [u32FromLeBytes_length _ hlen]
  simp only
  rw [if_neg (by omega), hpayload]
  simp only
  rw [h]
  simp [receivedObject, Except.mapError, Nat.add_assoc]

/-- A frame that is cut off is refused. -/
theorem decodeFetchEntry_truncated (hlen : payload.length < 2 ^ 32)
    (hsize : (front ++ fetchFrame payload).length ≤ isizeMax) {k : ℕ}
    (hk : k < (fetchFrame payload).length) :
    ∃ err, decodeFetchEntry z text (front ++ (fetchFrame payload).take k) front.length =
      .error (.err err) := by
  have hbound : front.length + (4 + payload.length) < 2 ^ 63 := by
    simp only [List.length_append, fetchFrame_length, isizeMax] at hsize
    omega
  have hlength : (front ++ (fetchFrame payload).take k).length = front.length + k := by
    rw [List.length_append, List.length_take_of_le hk.le]
  rw [fetchFrame_length] at hk
  rw [decodeFetchEntry, add_eq (by omega)]
  simp only [bind, Except.bind]
  rcases Nat.lt_or_ge k 4 with hk4 | hk4
  · exact ⟨_, if_pos (by omega)⟩
  have hbody : front ++ (fetchFrame payload).take k =
      front ++ leBytes 4 payload.length ++ payload.take (k - 4) := by
    rw [fetchFrame, List.take_append, leBytes_length, List.take_of_length_le (by simpa using hk4),
      List.append_assoc]
  rw [if_neg (by omega), hbody, slice_append front _ _ rfl (by simp), ← hbody]
  simp only
  rw [u32FromLeBytes_length _ hlen]
  exact ⟨_, if_pos (by omega)⟩

/-- The loop takes the frames of the entries off, whatever follows them. -/
theorem decodeFetchEntries_frames {payloads : List Bytes} {transfers : List ValueSegmentEntry}
    (hlens : ∀ payload ∈ payloads, payload.length < 2 ^ 32)
    (h : List.Forall₂ (fun p e => decodeTransferEntry z p = .ok e) payloads transfers)
    (hsize : (front ++ payloads.flatMap fetchFrame).length ≤ isizeMax) :
    decodeFetchEntries z text (front ++ payloads.flatMap fetchFrame ++ rest) payloads.length
        front.length =
      .ok (List.zipWith receivedObject payloads transfers,
        (front ++ payloads.flatMap fetchFrame).length) := by
  induction h generalizing front with
  | nil => simp [decodeFetchEntries]
  | @cons payload transfer payloads transfers hdecode _ ih =>
    have hassoc : front ++ (payload :: payloads).flatMap fetchFrame =
        front ++ fetchFrame payload ++ payloads.flatMap fetchFrame := by
      simp
    rw [hassoc] at hsize ⊢
    have hle : (front ++ fetchFrame payload).length ≤ isizeMax := by
      rw [List.length_append] at hsize
      omega
    have hentry := @decodeFetchEntry_frame z text front
      (payloads.flatMap fetchFrame ++ rest) _ _ (hlens payload (by simp)) hle hdecode
    rw [List.length_cons, decodeFetchEntries, List.append_assoc _ (payloads.flatMap _), hentry]
    simp only [bind, Except.bind]
    rw [← List.append_assoc, ih (fun p hp => hlens p (by simp [hp])) hsize]
    rfl

/-- Entries that are cut off are refused, whichever of them the cut falls into. -/
theorem decodeFetchEntries_truncated {payloads : List Bytes} {transfers : List ValueSegmentEntry}
    (hlens : ∀ payload ∈ payloads, payload.length < 2 ^ 32)
    (h : List.Forall₂ (fun p e => decodeTransferEntry z p = .ok e) payloads transfers)
    (hsize : (front ++ payloads.flatMap fetchFrame).length ≤ isizeMax) {k : ℕ}
    (hk : k < (payloads.flatMap fetchFrame).length) :
    ∃ err, decodeFetchEntries z text (front ++ (payloads.flatMap fetchFrame).take k)
      payloads.length front.length = .error (.err err) := by
  induction h generalizing front k with
  | nil => simp at hk
  | @cons payload transfer payloads transfers hdecode _ ih =>
    rw [List.flatMap_cons, ← List.append_assoc] at hsize
    rw [List.flatMap_cons, List.length_append] at hk
    have hlen := hlens payload (by simp)
    have hle : (front ++ fetchFrame payload).length ≤ isizeMax := by
      rw [List.length_append] at hsize
      omega
    rw [List.length_cons, decodeFetchEntries, List.flatMap_cons, List.take_append]
    rcases Nat.lt_or_ge k (fetchFrame payload).length with hcut | hcut
    · obtain ⟨err, herr⟩ := @decodeFetchEntry_truncated z text front _ hlen hle _ hcut
      refine ⟨err, ?_⟩
      rw [Nat.sub_eq_zero_of_le hcut.le, List.take_zero, List.append_nil, herr]
      rfl
    · obtain ⟨err, herr⟩ := ih (fun p hp => hlens p (by simp [hp])) hsize
        (k := k - (fetchFrame payload).length) (by omega)
      refine ⟨err, ?_⟩
      rw [List.take_of_length_le hcut, ← List.append_assoc,
        decodeFetchEntry_frame hlen hle hdecode]
      simp only [bind, Except.bind]
      rw [herr]

variable {payloads : List Bytes} {transfers : List ValueSegmentEntry} {body : Bytes}

/-- What the decoder makes of a header: it reads the entries behind it, as many as it tells. -/
theorem decodeObjectsFetchBinary_header {count : ℕ} (hcount : count < 2 ^ 32) (bytes : Bytes) :
    decodeObjectsFetchBinary z text (fetchHeader count ++ bytes) = (do
      let (objects, offset) ← decodeFetchEntries z text (fetchHeader count ++ bytes) count 9
      if offset ≠ (fetchHeader count ++ bytes).length then
        .error (.err ⟨"invalid_response", "binary objects.fetch response has trailing bytes"⟩)
      else .ok objects) := by
  have hmagic : slice (ε := RpcError) (fetchHeader count ++ bytes) 0 4 =
      .ok objectsFetchBinaryMagic := by
    rw [fetchHeader, List.append_assoc]
    exact slice_append [] objectsFetchBinaryMagic _ rfl rfl
  have hversion : itemAt (ε := RpcError) (fetchHeader count ++ bytes) 4 =
      .ok objectsFetchBinaryVersion := rfl
  have hcounted : slice (ε := RpcError) (fetchHeader count ++ bytes) 5 9 =
      .ok (leBytes 4 count) :=
    slice_append (objectsFetchBinaryMagic ++ [objectsFetchBinaryVersion]) (leBytes 4 count) bytes
      rfl (by simp [objectsFetchBinaryMagic])
  have hcapacity : withCapacity (ε := RpcError) (α := RemoteTransferObject)
      remoteTransferObjectSize count = .ok [] := by
    refine if_pos ?_
    simp only [remoteTransferObjectSize, isizeMax]
    omega
  rw [decodeObjectsFetchBinary, if_neg (by simp)]
  rw [hmagic]
  simp only [bind, Except.bind, hversion, hcounted, ne_eq, not_true_eq_false, if_false]
  rw [u32FromLeBytes, if_pos (leBytes_length 4 _), leNat_leBytes 4 _ hcount]
  simp only [hcapacity]

/-- A response decodes to its entries, whatever follows; bytes that follow are refused. -/
theorem EncodedFetch.decode_append (h : EncodedFetch payloads body)
    (hdecode : List.Forall₂ (fun p e => decodeTransferEntry z p = .ok e) payloads transfers)
    (extra : Bytes) :
    decodeObjectsFetchBinary z text (body ++ extra) =
      if extra = [] then .ok (List.zipWith receivedObject payloads transfers)
      else .error (.err ⟨"invalid_response",
        "binary objects.fetch response has trailing bytes"⟩) := by
  have hsize := h.size
  rw [h.encoded] at hsize ⊢
  have hentries := @decodeFetchEntries_frames z text _ extra _ _ h.lengths hdecode hsize
  rw [fetchHeader_length] at hentries
  rw [List.append_assoc, decodeObjectsFetchBinary_header h.count, ← List.append_assoc, hentries]
  simp only [bind, Except.bind]
  split_ifs with hlength hextra hextra
  · simp [hextra] at hlength
  · rfl
  · rfl
  · simp [hextra] at hlength

/-- A response that is cut off is refused. -/
theorem EncodedFetch.decode_take (h : EncodedFetch payloads body)
    (hdecode : List.Forall₂ (fun p e => decodeTransferEntry z p = .ok e) payloads transfers)
    {k : ℕ} (hk : k < body.length) :
    ∃ err, decodeObjectsFetchBinary z text (body.take k) = .error (.err err) := by
  have hsize := h.size
  rw [h.encoded] at hsize hk ⊢
  rcases Nat.lt_or_ge k 9 with hk9 | hk9
  · refine ⟨_, if_pos ?_⟩
    rw [List.length_take]
    omega
  have hrest : k - 9 < (payloads.flatMap fetchFrame).length := by
    rw [List.length_append, fetchHeader_length] at hk
    omega
  obtain ⟨err, herr⟩ := @decodeFetchEntries_truncated z text
    (fetchHeader payloads.length) _ _ h.lengths hdecode hsize _ hrest
  refine ⟨err, ?_⟩
  rw [fetchHeader_length] at herr
  rw [List.take_append, List.take_of_length_le (by simpa using hk9), fetchHeader_length,
    decodeObjectsFetchBinary_header h.count, herr]
  rfl

end Decoding

/-- A response that was encoded decodes to the same transfer entries in the same order, each under
its id; every strict prefix and every extension of it is refused with an error. The payloads of
entries that a store exports are such transfer entries. -/
theorem objects_fetch_binary (z : Zstd) (text : ValueStoreError → String) :
    (∀ (payloads : List Bytes) (transfers : List ValueSegmentEntry) (body : Bytes),
      List.Forall₂ (fun p e => decodeTransferEntry z p = .ok e) payloads transfers →
      encodeObjectsFetchBinaryPayloads payloads = .ok body →
      decodeObjectsFetchBinary z text body =
          .ok (List.zipWith receivedObject payloads transfers) ∧
        (∀ k < body.length,
          ∃ err, decodeObjectsFetchBinary z text (body.take k) = .error (.err err)) ∧
        ∀ extra ≠ [],
          ∃ err, decodeObjectsFetchBinary z text (body ++ extra) = .error (.err err)) ∧
      ∀ (entries : List ValueSegmentEntry) (payloads : List Bytes), z.Lossless →
        (∀ e ∈ entries, e.entry.Storable) →
        List.Forall₂ (fun e p => encodeTransferEntry z e.id e.entry = .ok p) entries payloads →
        List.Forall₂ (fun p e => decodeTransferEntry z p = .ok e) payloads
          (entries.map fun e => ⟨e.id, e.entry.stored⟩) := by
  constructor
  · intro payloads transfers body hdecode h
    have henc := encodedFetch_of_ok h
    refine ⟨?_, fun k hk => henc.decode_take hdecode hk, fun extra hextra => ?_⟩
    · have hall := @EncodedFetch.decode_append z text _ _ _ henc hdecode []
      rwa [List.append_nil, if_pos rfl] at hall
    · have hall := @EncodedFetch.decode_append z text _ _ _ henc hdecode extra
      rw [if_neg hextra] at hall
      exact ⟨_, hall⟩
  · intro entries payloads hz hfit h
    induction h with
    | nil => exact .nil
    | @cons e payload entries payloads hencode _ ih =>
      exact .cons (decodeVsegEntry_encode hz (hfit e (by simp)) hencode)
        (ih fun e he => hfit e (by simp [he]))

/-- A value and a delta against it. -/
def fetchedEntries : List ValueSegmentEntry :=
  [⟨⟨List.replicate 16 1, rfl⟩, ⟨.cell, [1, 2, 3], none⟩⟩,
    ⟨⟨List.replicate 16 2, rfl⟩, ⟨.delta, [4, 0], some ⟨⟨List.replicate 16 1, rfl⟩, 4, 1, []⟩⟩⟩]

def fetchedPayloads : List Bytes :=
  fetchedEntries.filterMap fun e => (encodeTransferEntry rawFrames e.id e.entry).toOption

theorem objects_fetch_binary_sample : ∃ body,
    encodeObjectsFetchBinaryPayloads fetchedPayloads = .ok body ∧
      decodeObjectsFetchBinary rawFrames (fun _ => "") body =
        .ok (List.zipWith receivedObject fetchedPayloads
          (fetchedEntries.map fun e => ⟨e.id, e.entry.stored⟩)) ∧
      ∃ err, decodeObjectsFetchBinary rawFrames (fun _ => "") (body.take 40) =
        .error (.err err) := by
  have hstorable : ∀ e ∈ fetchedEntries, e.entry.Storable := by
    intro e he
    fin_cases he <;> exact ⟨by decide, by simp⟩
  have hencode : List.Forall₂ (fun e p => encodeTransferEntry rawFrames e.id e.entry = .ok p)
      fetchedEntries fetchedPayloads := .cons (by decide) (.cons (by decide) .nil)
  have hdecode := (objects_fetch_binary rawFrames fun _ => "").2 _ _ rawFrames_lossless hstorable
    hencode
  obtain ⟨body, hbody, hlen⟩ : ∃ body, encodeObjectsFetchBinaryPayloads fetchedPayloads =
      .ok body ∧ 40 < body.length := ⟨_, rfl, by decide⟩
  have hround := (objects_fetch_binary rawFrames fun _ => "").1 _ _ body hdecode hbody
  exact ⟨body, hbody, hround.1, hround.2.1 40 hlen⟩

end SkeinDB.Values
