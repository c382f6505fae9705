import SkeinDB.Codec.Stream
import SkeinDB.Format.Primitives

/-!
# Record frames

`skeindb-core/src/lib.rs`: a record frame is the payload length and the CRC32C of
the payload, both little-endian `u32`, followed by the payload. Framing any
payload codec gives a stream codec, so the torn-tail theorems apply to every log
built from frames.
-/
namespace SkeinDB.Format
open SkeinDB.Codec

def recordFrameHeaderLen : ℕ := 8

/-- The bytes that `append_record_frame` adds for a payload it accepts. -/
def recordFrame (payload : Bytes) : Bytes :=
  leBytes 4 payload.length ++ (leBytes 4 (crc32c payload).toNat ++ payload)

def appendRecordFrame (buf payload : Bytes) : Except FormatError Bytes :=
  if payload.length < 2 ^ 32 then .ok (buf ++ recordFrame payload)
  else .error (.recordFrameTooLarge payload.length)

/-- `decode_record_frame`: the payload of the first frame and the input after it. -/
def decodeRecordFrame (input : Bytes) : Except FormatError (Bytes × Bytes) :=
  if input.length < recordFrameHeaderLen then .error .unexpectedEof
  else do
    let len := (← u32Le input 0).toNat
    let expectedCrc ← u32Le input 4
    if input.length < recordFrameHeaderLen + len then .error .unexpectedEof
    else
      let payload := (input.drop recordFrameHeaderLen).take len
      let actualCrc := crc32c payload
      if expectedCrc ≠ actualCrc then .error (.recordFrameCrcMismatch expectedCrc actualCrc)
      else .ok (payload, input.drop (recordFrameHeaderLen + len))

@[simp] theorem recordFrame_length (payload : Bytes) :
    (recordFrame payload).length = recordFrameHeaderLen + payload.length := by
  simp only [recordFrame, List.length_append, leBytes_length, recordFrameHeaderLen]
  omega

theorem u32Le_recordFrame_len (payload rest : Bytes) (h : payload.length < 2 ^ 32) :
    u32Le (recordFrame payload ++ rest) 0 = .ok (UInt32.ofNat payload.length) := by
  have hv : (UInt32.ofNat payload.length).toNat = payload.length := by
    simp only [UInt32.toNat_ofNat']
    omega
  refine u32Le_append [] ((leBytes 4 (crc32c payload).toNat ++ payload) ++ rest) ?_ rfl
  simp [recordFrame, hv]

theorem u32Le_recordFrame_crc (payload rest : Bytes) :
    u32Le (recordFrame payload ++ rest) 4 = .ok (crc32c payload) := by
  refine u32Le_append (leBytes 4 payload.length) (payload ++ rest) ?_ (by simp)
  simp [recordFrame]

/-- A frame followed by anything decodes to its payload and what follows. -/
theorem decodeRecordFrame_recordFrame (payload rest : Bytes) (h : payload.length < 2 ^ 32) :
    decodeRecordFrame (recordFrame payload ++ rest) = .ok (payload, rest) := by
  have hlen : (UInt32.ofNat payload.length).toNat = payload.length := by
    simp only [UInt32.toNat_ofNat']
    omega
  have hfront : recordFrame payload =
      (leBytes 4 payload.length ++ leBytes 4 (crc32c payload).toNat) ++ payload := by
    simp [recordFrame]
  have hpayload : ((recordFrame payload ++ rest).drop 8).take payload.length = payload := by
    rw [hfront, List.append_assoc, List.drop_left' (by simp), List.take_left' rfl]
  have hrest : (recordFrame payload ++ rest).drop (8 + payload.length) = rest :=
    List.drop_left' (by simp [recordFrameHeaderLen])
  have hshort : ¬ (recordFrame payload ++ rest).length < 8 + payload.length := by
    simp [recordFrameHeaderLen]
  rw [decodeRecordFrame, if_neg (by simp [recordFrameHeaderLen]; omega)]
  rw [u32Le_recordFrame_len payload rest h, u32Le_recordFrame_crc payload rest]
  simp only [recordFrameHeaderLen, bind, Except.bind, hlen, if_neg hshort, hpayload, hrest]
  simp

/-- Every strict prefix of a frame is rejected as truncated. -/
theorem decodeRecordFrame_torn (payload : Bytes) (n : ℕ) (h : payload.length < 2 ^ 32)
    (hn : n < (recordFrame payload).length) :
    decodeRecordFrame ((recordFrame payload).take n) = .error .unexpectedEof := by
  have htake : ((recordFrame payload).take n).length = n := by
    rw [List.length_take]
    omega
  rw [decodeRecordFrame, htake]
  by_cases hshort : n < recordFrameHeaderLen
  · rw [if_pos hshort]
  · rw [if_neg hshort]
    simp only [recordFrameHeaderLen] at hshort
    -- the eight header bytes are all there, so both fields read as in the whole frame
    have hfield (k offset : ℕ) (hk : offset + k ≤ 8) :
        leAt k ((recordFrame payload).take n) offset = leAt k (recordFrame payload) offset := by
      rw [recordFrame_length, recordFrameHeaderLen] at hn
      have h1 : ¬ n - offset < k := by omega
      have h2 : ¬ (recordFrame payload).length - offset < k := by
        rw [recordFrame_length, recordFrameHeaderLen]
        omega
      rw [leAt, leAt, htake, if_neg h1, if_neg h2, List.drop_take, List.take_take,
        Nat.min_eq_left (by omega)]
    have hlen0 := u32Le_recordFrame_len payload [] h
    have hcrc0 := u32Le_recordFrame_crc payload []
    rw [List.append_nil] at hlen0 hcrc0
    have hlen : (UInt32.ofNat payload.length).toNat = payload.length := by
      simp only [UInt32.toNat_ofNat']
      omega
    rw [recordFrame_length] at hn
    have hlen1 : u32Le ((recordFrame payload).take n) 0 = .ok (UInt32.ofNat payload.length) := by
      rw [u32Le, hfield 4 0 (by omega), ← u32Le, hlen0]
    have hcrc1 : u32Le ((recordFrame payload).take n) 4 = .ok (crc32c payload) := by
      rw [u32Le, hfield 4 4 (by omega), ← u32Le, hcrc0]
    rw [hlen1, hcrc1]
    simp only [bind, Except.bind, hlen, if_pos hn]

/-- What was decoded is a frame and the input behind it. -/
theorem decodeRecordFrame_split {input payload rest : Bytes}
    (h : decodeRecordFrame input = .ok (payload, rest)) :
    payload.length < 2 ^ 32 ∧ input = recordFrame payload ++ rest := by
  unfold decodeRecordFrame at h
  split at h
  · cases h
  rename_i hheader
  cases hlen : u32Le input 0 with
  | error e => simp [hlen, bind, Except.bind] at h
  | ok len =>
    cases hcrc : u32Le input 4 with
    | error e => simp [hlen, hcrc, bind, Except.bind] at h
    | ok expectedCrc =>
      simp only [hlen, hcrc, bind, Except.bind] at h
      split at h
      · cases h
      rename_i hfits
      split at h
      · cases h
      rename_i hsum
      cases h
      rw [recordFrameHeaderLen] at hfits hsum ⊢
      have hpayload : ((input.drop 8).take len.toNat).length = len.toNat := by
        rw [List.length_take, List.length_drop]
        omega
      have hlenBytes : input.take 4 = leBytes 4 len.toNat := u32Le_eq_ok hlen
      have hcrcBytes := u32Le_eq_ok hcrc
      rw [not_not] at hsum
      refine ⟨by rw [hpayload]; exact len.toNat_lt, ?_⟩
      rw [recordFrame, hpayload, ← hsum, ← hlenBytes, ← hcrcBytes]
      calc input = input.take 4 ++ ((input.drop 4).take 4 ++ ((input.drop 8).take len.toNat ++
            input.drop (8 + len.toNat))) := by
            rw [← List.drop_drop, List.take_append_drop, ← List.drop_drop (i := 4) (j := 4),
              List.take_append_drop, List.take_append_drop]
        _ = _ := by simp only [List.append_assoc]

/-- More input does not change what was decoded. -/
theorem decodeRecordFrame_append {input payload rest : Bytes}
    (h : decodeRecordFrame input = .ok (payload, rest)) (more : Bytes) :
    decodeRecordFrame (input ++ more) = .ok (payload, rest ++ more) := by
  obtain ⟨hlen, rfl⟩ := decodeRecordFrame_split h
  rw [List.append_assoc, decodeRecordFrame_recordFrame _ _ hlen]

/-- `append_record_frame` over a payload codec: the stream of framed records. -/
def framed {α ε : Type*} (valid : α → Prop) (encode : α → Bytes) (decode : Bytes → Except ε α)
    (format : FormatError → ε) (hlen : ∀ a, valid a → (encode a).length < 2 ^ 32)
    (hdecode : ∀ a, valid a → decode (encode a) = .ok a) : StreamCodec α ε where
  Valid := valid
  encode a := recordFrame (encode a)
  decode input :=
    match decodeRecordFrame input with
    | .error e => .error (format e)
    | .ok (payload, rest) => (decode payload).map (fun a => (a, rest))
  encode_pos a _ := by
    rw [recordFrame_length, recordFrameHeaderLen]
    omega
  decode_encode a rest ha := by
    rw [decodeRecordFrame_recordFrame _ rest (hlen a ha)]
    simp [hdecode a ha, Except.map]
  decode_torn a n ha hn := by
    rw [decodeRecordFrame_torn _ n (hlen a ha) hn]
    exact ⟨_, rfl⟩

end SkeinDB.Format
