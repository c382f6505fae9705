import SkeinDB.Format.FileHeader

/-!
# Copy/add patches

`skeindb-core/src/valuestore.rs`: a delta value stores a patch against its base. A
patch is the target length, the number of operations, and copy and add operations;
`build_patch_bytes` copies the common prefix and suffix and adds what lies between.
-/
namespace SkeinDB.Values
open SkeinDB.Codec SkeinDB.Format

/-- The checks of a segment entry that fail with a text of their own. -/
inductive SegmentEntryError
  | trailingBytesAfterVE1
  | rawLenMismatch
  | deltaFullLenMismatch
  | trailingBytesAfterDelta1
  | transferIdMismatch
  deriving DecidableEq, Repr

inductive ValueStoreError
  | notFound
  | badHeader
  | invalidSegmentRecordType (recType : UInt8)
  | unsupportedSegmentRecordVersion (version : UInt8)
  | unsupportedValueCodec (codec : UInt8)
  | unsupportedDeltaCodec (codec : UInt8)
  | invalidValueKind (kind : UInt8)
  | duplicateValueId
  | invalidSegmentEntry (err : SegmentEntryError)
  | invalidDelta
  | deltaLengthMismatch
  | missingDeltaBase
  | format (err : FormatError)
  | io (err : IoError)
  | core (err : CoreError)
  deriving DecidableEq, Repr

def equalPair (p : UInt8 × UInt8) : Bool := p.1 == p.2

def commonPrefixLen (a b : Bytes) : ℕ := ((a.zip b).takeWhile equalPair).length

/-- The common suffix, not reaching into the first `front` bytes of the shorter slice. -/
def commonSuffixLen (a b : Bytes) (front : ℕ) : ℕ :=
  (((a.reverse.zip b.reverse).take (min a.length b.length - front)).takeWhile equalPair).length

/-- `encode_varu` of a `usize`. -/
def encodeLen (n : ℕ) : Bytes := encodeVaru (UInt64.ofNat n)

def copyOp (off len : ℕ) : Bytes := [0] ++ encodeLen off ++ encodeLen len

def addOp (slice : Bytes) : Bytes := [1] ++ encodeLen slice.length ++ slice

def patchOps (base target : Bytes) : List Bytes :=
  let front := commonPrefixLen base target
  let back := commonSuffixLen base target front
  let midEnd := target.length - back
  (if 0 < front then [copyOp 0 front] else []) ++
    (if front < midEnd then [addOp ((target.take midEnd).drop front)] else []) ++
    (if 0 < back then [copyOp (base.length - back) back] else [])

def buildPatchBytes (base target : Bytes) : Bytes :=
  if base = target then []
  else
    let ops := patchOps base target
    encodeLen target.length ++ encodeLen ops.length ++ ops.flatten

/-- `decode_varu(&mut cursor)? as usize`. -/
def decodeLen (cursor : Bytes) : Except ValueStoreError (ℕ × Bytes) :=
  match decodeVaru cursor with
  | .error e => .error (.core e)
  | .ok (n, cursor) => .ok (n.toNat, cursor)

/-- The operation loop, over the operations left, the cursor and the output so far. -/
def applyOps (base : Bytes) : ℕ → Bytes → Bytes → Except ValueStoreError (Bytes × Bytes)
  | 0, cursor, out => .ok (cursor, out)
  | _ + 1, [], _ => .error .invalidDelta
  | count + 1, tag :: cursor, out => do
    if tag = 0 then
      let (off, cursor) ← decodeLen cursor
      let (len, cursor) ← decodeLen cursor
      if base.length < min (off + len) (2 ^ 64 - 1) then .error .invalidDelta
      else applyOps base count cursor (out ++ (base.drop off).take len)
    else if tag = 1 then
      let (len, cursor) ← decodeLen cursor
      if cursor.length < len then .error .invalidDelta
      else applyOps base count (cursor.drop len) (out ++ cursor.take len)
    else .error .invalidDelta

def applyPatchBytes (base patch : Bytes) : Except ValueStoreError Bytes := do
  let (targetLen, cursor) ← decodeLen patch
  let (opCount, cursor) ← decodeLen cursor
  let (cursor, out) ← applyOps base opCount cursor []
  if cursor ≠ [] then .error .invalidDelta
  else if out.length ≠ targetLen then .error .deltaLengthMismatch
  else .ok out

theorem takeWhile_zip_take {α : Type*} [BEq α] [LawfulBEq α] (a b : List α) (n : ℕ) :
    let k := (((a.zip b).take n).takeWhile (fun p => p.1 == p.2)).length
    k ≤ a.length ∧ k ≤ b.length ∧ k ≤ n ∧ a.take k = b.take k := by
  induction a generalizing b n with
  | nil => simp
  | cons x a ih =>
    cases b with
    | nil => simp
    | cons y b =>
      cases n with
      | zero => simp
      | succ n =>
        by_cases hxy : x = y
        · obtain ⟨h1, h2, h3, h4⟩ := ih b n
          simp [hxy, h1, h2, h3, h4]
        · simp [hxy]

theorem commonPrefixLen_spec (a b : Bytes) :
    commonPrefixLen a b ≤ a.length ∧ commonPrefixLen a b ≤ b.length ∧
      a.take (commonPrefixLen a b) = b.take (commonPrefixLen a b) := by
  obtain ⟨h1, h2, -, h4⟩ := takeWhile_zip_take a b (a.zip b).length
  simp only [List.take_length] at h1 h2 h4
  exact ⟨h1, h2, h4⟩

theorem commonSuffixLen_spec (a b : Bytes) (front : ℕ) :
    let k := commonSuffixLen a b front
    k ≤ min a.length b.length - front ∧ a.drop (a.length - k) = b.drop (b.length - k) := by
  obtain ⟨h1, h2, h3, h4⟩ :=
    takeWhile_zip_take a.reverse b.reverse (min a.length b.length - front)
  refine ⟨h3, ?_⟩
  have h5 := congrArg List.reverse h4
  rwa [List.take_reverse, List.take_reverse, List.reverse_reverse, List.reverse_reverse] at h5

theorem decodeLen_encodeLen {n : ℕ} (hn : n < 2 ^ 64) (rest : Bytes) :
    decodeLen (encodeLen n ++ rest) = .ok (n, rest) := by
  rw [decodeLen, encodeLen, decodeVaru_encodeVaru]
  simp only [UInt64.toNat_ofNat', Nat.mod_eq_of_lt hn]

theorem applyOps_copyOp {base : Bytes} {off len : ℕ} (h : off + len ≤ base.length)
    (hbase : base.length < 2 ^ 64) (count : ℕ) (rest out : Bytes) :
    applyOps base (count + 1) (copyOp off len ++ rest) out =
      applyOps base count rest (out ++ (base.drop off).take len) := by
  have hfits : ¬ base.length < min (off + len) (2 ^ 64 - 1) := by omega
  simp only [copyOp, List.append_assoc, List.cons_append, List.nil_append, applyOps]
  rw [decodeLen_encodeLen (by omega)]
  simp only [bind, Except.bind, decodeLen_encodeLen (show len < 2 ^ 64 by omega), if_neg hfits,
    if_true]

theorem applyOps_addOp {base slice : Bytes} (h : slice.length < 2 ^ 64) (count : ℕ)
    (rest out : Bytes) :
    applyOps base (count + 1) (addOp slice ++ rest) out =
      applyOps base count rest (out ++ slice) := by
  simp only [addOp, List.append_assoc, List.cons_append, List.nil_append, applyOps]
  rw [decodeLen_encodeLen h]
  simp [bind, Except.bind]

/-- An operation that is left out when the piece it produces is empty. -/
theorem applyOps_ite {base op : Bytes} {ops : List Bytes} {c : Prop} [Decidable c] (piece : Bytes)
    (hop : c → ∀ count rest out, applyOps base (count + 1) (op ++ rest) out =
      applyOps base count rest (out ++ piece))
    (hpiece : ¬ c → piece = []) (out : Bytes) :
    applyOps base ((if c then [op] else []) ++ ops).length
        ((if c then [op] else []) ++ ops).flatten out =
      applyOps base ops.length ops.flatten (out ++ piece) := by
  by_cases h : c
  · rw [if_pos h]
    exact hop h ops.length ops.flatten out
  · rw [if_neg h, hpiece h, List.append_nil, List.nil_append]

/-- Running the built operations reproduces the target. -/
theorem applyOps_patchOps {base target : Bytes} (hbase : base.length < 2 ^ 64)
    (htarget : target.length < 2 ^ 64) :
    applyOps base (patchOps base target).length (patchOps base target).flatten [] =
      .ok ([], target) := by
  obtain ⟨hp1, hp2, hp3⟩ := commonPrefixLen_spec base target
  obtain ⟨hs1, hs2⟩ := commonSuffixLen_spec base target (commonPrefixLen base target)
  rw [patchOps]
  generalize commonPrefixLen base target = front at *
  generalize commonSuffixLen base target front = back at *
  let mid := (target.take (target.length - back)).drop front
  -- prefix, middle and suffix of the target
  have hsplit : target = base.take front ++ (mid ++ (base.drop (base.length - back)).take back) := by
    have hback : (base.drop (base.length - back)).take back =
        target.drop (target.length - back) := by
      rw [List.take_of_length_le (by rw [List.length_drop]; omega), hs2]
    rw [hp3, hback]
    have h1 : (target.take (target.length - back)).take front = target.take front := by
      rw [List.take_take, Nat.min_eq_left (by omega)]
    conv_lhs => rw [← List.take_append_drop (target.length - back) target,
      ← List.take_append_drop front (target.take (target.length - back)), h1]
    rw [List.append_assoc]
  have hmid : mid.length = target.length - back - front := by
    rw [List.length_drop, List.length_take]
    omega
  rw [List.append_assoc, applyOps_ite (base.take front)
      (fun _ count rest out => applyOps_copyOp (by omega) hbase count rest out)
      (fun h => by simp [Nat.eq_zero_of_not_pos h]),
    applyOps_ite mid
      (fun _ count rest out => applyOps_addOp (by omega) count rest out)
      (fun h => List.length_eq_zero_iff.mp (by omega)),
    ← List.append_nil (if 0 < back then _ else _),
    applyOps_ite ((base.drop (base.length - back)).take back)
      (fun _ count rest out => applyOps_copyOp (by omega) hbase count rest out)
      (fun h => by simp [Nat.eq_zero_of_not_pos h])]
  rw [List.nil_append, List.append_assoc, ← hsplit]
  rfl

theorem patchOps_length_le (base target : Bytes) : (patchOps base target).length ≤ 3 := by
  simp only [patchOps, List.length_append]
  split <;> split <;> split <;> simp

theorem encodeLen_length_le (n : ℕ) : (encodeLen n).length ≤ 10 := encodeVaru_length_le _

/-- A patch is little longer than its target. -/
theorem buildPatchBytes_length_le (base target : Bytes) :
    (buildPatchBytes base target).length ≤ target.length + 73 := by
  have hlen := encodeLen_length_le
  have hcopy (off len : ℕ) : (copyOp off len).length ≤ 21 := by
    have h1 := hlen off
    have h2 := hlen len
    simp only [copyOp, List.length_append, List.length_singleton]
    omega
  have hadd (slice : Bytes) : (addOp slice).length ≤ 11 + slice.length := by
    have h1 := hlen slice.length
    simp only [addOp, List.length_append, List.length_singleton]
    omega
  have hops : (patchOps base target).flatten.length ≤ 53 + target.length := by
    simp only [patchOps, List.flatten_append, List.length_append]
    generalize commonPrefixLen base target = front
    generalize commonSuffixLen base target front = back
    have h1 := hcopy 0 front
    have h2 := hcopy (base.length - back) back
    have h3 := hadd ((target.take (target.length - back)).drop front)
    have h4 : ((target.take (target.length - back)).drop front).length ≤ target.length := by
      rw [List.length_drop, List.length_take]
      omega
    split <;> split <;> split <;> simp <;> omega
  rw [buildPatchBytes]
  split
  · simp
  · have h1 := hlen target.length
    have h2 := hlen (patchOps base target).length
    simp only [List.length_append]
    omega

/-- Applying the built patch to the base gives the target. -/
theorem applyPatchBytes_buildPatchBytes {base target : Bytes} (hne : base ≠ target)
    (hbase : base.length < 2 ^ 64) (htarget : target.length < 2 ^ 64) :
    applyPatchBytes base (buildPatchBytes base target) = .ok target := by
  have hcount := patchOps_length_le base target
  rw [applyPatchBytes, buildPatchBytes, if_neg hne]
  simp only [List.append_assoc, bind, Except.bind]
  rw [decodeLen_encodeLen htarget]
  simp only [decodeLen_encodeLen (show (patchOps base target).length < 2 ^ 64 by omega),
    applyOps_patchOps hbase htarget]
  simp

end SkeinDB.Values
