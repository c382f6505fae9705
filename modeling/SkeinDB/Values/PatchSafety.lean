import SkeinDB.Codec.Checked
import SkeinDB.Values.Patch

/-!
# Patches of any bytes

`apply_patch_bytes` of `skeindb-core/src/valuestore.rs` with its slices, its additions and the
capacity of its output checked. The offsets and lengths of a patch come from outside; the only
fault they can bring about is a capacity above `isize::MAX`.
-/
namespace SkeinDB.Values
open SkeinDB.Codec SkeinDB.Format Checked

/-- The operation loop with its slices and the growth of its output checked. -/
def applyOpsRun (base : Bytes) : ℕ → Bytes → Bytes → Checked ValueStoreError (Bytes × Bytes)
  | 0, cursor, out => .ok (cursor, out)
  | _ + 1, [], _ => .error (.err .invalidDelta)
  | count + 1, tag :: cursor, out => do
    if tag = 0 then
      let (off, cursor) ← lift (decodeLen cursor)
      let (len, cursor) ← lift (decodeLen cursor)
      let stop := saturatingAdd off len
      if base.length < stop then .error (.err .invalidDelta)
      else
        let piece ← slice base off stop
        let out ← extend out piece
        applyOpsRun base count cursor out
    else if tag = 1 then
      let (len, cursor) ← lift (decodeLen cursor)
      if cursor.length < len then .error (.err .invalidDelta)
      else
        let piece ← slice cursor 0 len
        let out ← extend out piece
        let cursor ← slice cursor len cursor.length
        applyOpsRun base count cursor out
    else .error (.err .invalidDelta)

def applyPatchRun (base patch : Bytes) : Checked ValueStoreError Bytes := do
  let (targetLen, cursor) ← lift (decodeLen patch)
  let (opCount, cursor) ← lift (decodeLen cursor)
  let out ← withCapacity 1 targetLen
  let (cursor, out) ← applyOpsRun base opCount cursor out
  if cursor ≠ [] then .error (.err .invalidDelta)
  else if out.length ≠ targetLen then .error (.err .deltaLengthMismatch)
  else .ok out

/-- The piece that the operation in front of a cursor puts out, and the bytes behind it. -/
def readPiece (base : Bytes) : Bytes → Except ValueStoreError (Bytes × Bytes)
  | [] => .error .invalidDelta
  | tag :: cursor => do
    if tag = 0 then
      let (off, cursor) ← decodeLen cursor
      let (len, cursor) ← decodeLen cursor
      if base.length < min (off + len) (2 ^ 64 - 1) then .error .invalidDelta
      else .ok ((base.drop off).take len, cursor)
    else if tag = 1 then
      let (len, cursor) ← decodeLen cursor
      if cursor.length < len then .error .invalidDelta
      else .ok (cursor.take len, cursor.drop len)
    else .error .invalidDelta

/-- How many bytes the operations put out, up to the first one that is refused. -/
def pieceBytes (base : Bytes) : ℕ → Bytes → ℕ
  | 0, _ => 0
  | count + 1, cursor =>
    match readPiece base cursor with
    | .error _ => 0
    | .ok (piece, cursor) => piece.length + pieceBytes base count cursor

section Ops
variable {base : Bytes}

theorem applyOps_succ (count : ℕ) (cursor out : Bytes) :
    applyOps base (count + 1) cursor out = readPiece base cursor >>= fun taken =>
      applyOps base count taken.2 (out ++ taken.1) := by
  rcases cursor with _ | ⟨tag, cursor⟩
  · rfl
  rw [applyOps, readPiece]
  split_ifs
  · rw [bind_assoc]
    refine bind_congr fun off => ?_
    rw [bind_assoc]
    refine bind_congr ?_
    rintro ⟨len, cursor⟩
    dsimp only
    split_ifs <;> rfl
  · rw [bind_assoc]
    refine bind_congr ?_
    rintro ⟨len, cursor⟩
    dsimp only
    split_ifs <;> rfl
  · rfl

/-- The slices of an operation are within their bounds: its copy ends at or behind its start,
also where the sum of the two lengths saturates. -/
theorem applyOpsRun_succ (hbase : base.length ≤ isizeMax) (count : ℕ) (cursor out : Bytes) :
    applyOpsRun base (count + 1) cursor out = lift (readPiece base cursor) >>= fun taken =>
      extend out taken.1 >>= fun out => applyOpsRun base count taken.2 out := by
  rcases cursor with _ | ⟨tag, cursor⟩
  · rfl
  rw [isizeMax] at hbase
  rw [applyOpsRun, readPiece]
  split_ifs
  · rw [lift_bind, bind_assoc]
    refine bind_congr ?_
    rintro ⟨off, cursor⟩
    dsimp only
    rw [lift_bind, bind_assoc]
    refine bind_congr ?_
    rintro ⟨len, cursor⟩
    by_cases hlong : base.length < min (off + len) (2 ^ 64 - 1)
    · simp only [saturatingAdd, hlong, if_true]
      rfl
    · have hstop : min (off + len) (2 ^ 64 - 1) = off + len := by omega
      rw [hstop] at hlong
      simp only [saturatingAdd, hstop, hlong, if_false]
      rw [slice_eq (by omega), List.drop_take, Nat.add_sub_cancel_left]
      rfl
  · rw [lift_bind, bind_assoc]
    refine bind_congr ?_
    rintro ⟨len, cursor⟩
    dsimp only
    by_cases hshort : cursor.length < len
    · rw [if_pos hshort, if_pos hshort]
      rfl
    · rw [if_neg hshort, if_neg hshort, slice_eq (by omega), slice_eq (by omega), List.drop_zero,
        List.take_length]
      rfl
  · rfl

/-- Without a fault the checked loop is the loop. -/
theorem applyOpsRun_eq (hbase : base.length ≤ isizeMax) {count : ℕ} {cursor out : Bytes}
    (hout : out.length ≤ isizeMax) :
    applyOpsRun base count cursor out =
      if out.length + pieceBytes base count cursor ≤ isizeMax then
        lift (applyOps base count cursor out)
      else .error (.fault .capacityOverflow) := by
  induction count generalizing cursor out with
  | zero =>
    rw [applyOpsRun, applyOps, pieceBytes, if_pos (by omega)]
    rfl
  | succ count ih =>
    rw [applyOpsRun_succ hbase, applyOps_succ, pieceBytes, lift_bind]
    rcases readPiece base cursor with e | ⟨piece, cursor'⟩
    · rw [if_pos (by simpa using hout)]
      rfl
    · simp only [lift_ok, bind, Except.bind]
      rw [extend]
      by_cases hpiece : out.length + piece.length ≤ isizeMax
      · rw [if_pos hpiece]
        change applyOpsRun base count cursor' (out ++ piece) = _
        rw [ih (by rwa [List.length_append]), List.length_append, Nat.add_assoc]
      · rw [if_neg hpiece, if_neg (by omega)]

theorem applyOps_length {count : ℕ} {cursor out rest out' : Bytes}
    (h : applyOps base count cursor out = .ok (rest, out')) :
    out'.length = out.length + pieceBytes base count cursor := by
  induction count generalizing cursor out with
  | zero =>
    cases h
    rfl
  | succ count ih =>
    rw [applyOps_succ] at h
    obtain ⟨⟨piece, cursor'⟩, hpiece, h⟩ := bind_eq_ok h
    rw [ih h, List.length_append, pieceBytes, hpiece, Nat.add_assoc]

end Ops

/-- The vector of a patch never needs more than `isize::MAX` bytes, neither for the length that
the patch names nor for what its operations put out. -/
def PatchFits (base patch : Bytes) : Prop :=
  ∀ targetLen cursor opCount cursor', decodeLen patch = .ok (targetLen, cursor) →
    decodeLen cursor = .ok (opCount, cursor') →
      targetLen ≤ isizeMax ∧ pieceBytes base opCount cursor' ≤ isizeMax

section Patches
variable {base patch target : Bytes}

theorem applyPatchRun_of_fits (hbase : base.length ≤ isizeMax) (hfits : PatchFits base patch) :
    applyPatchRun base patch = lift (applyPatchBytes base patch) := by
  rw [applyPatchRun, applyPatchBytes]
  rcases hlen : decodeLen patch with e | ⟨targetLen, cursor⟩
  · rfl
  rcases hcount : decodeLen cursor with e | ⟨opCount, cursor'⟩
  · simp only [bind, Except.bind, lift_ok, hcount]
    rfl
  obtain ⟨htarget, hpieces⟩ := hfits _ _ _ _ hlen hcount
  have hrun : applyOpsRun base opCount cursor' [] = lift (applyOps base opCount cursor' []) :=
    (applyOpsRun_eq hbase (Nat.zero_le _)).trans (if_pos (by simpa using hpieces))
  have hcapacity : (withCapacity 1 targetLen : Checked ValueStoreError Bytes) = .ok [] :=
    if_pos (by omega)
  simp only [bind, Except.bind, lift_ok, hcount, hcapacity, hrun]
  rcases applyOps base opCount cursor' [] with e | ⟨rest, out⟩
  · rfl
  · simp only [lift_ok]
    split_ifs <;> rfl

/-- A patch whose value is that of a vector fits. -/
theorem patchFits_of_ok {v : Bytes} (h : applyPatchBytes base patch = .ok v)
    (hv : v.length ≤ isizeMax) : PatchFits base patch := by
  intro targetLen cursor opCount cursor' htarget hcount
  simp only [applyPatchBytes, htarget, hcount, bind, Except.bind] at h
  rcases hops : applyOps base opCount cursor' [] with e | ⟨rest, out⟩
  · rw [hops] at h
    cases h
  · rw [hops] at h
    dsimp only at h
    split_ifs at h with hrest hlen
    cases h
    have hlength := applyOps_length hops
    rw [List.length_nil, Nat.zero_add] at hlength
    exact ⟨not_not.mp hlen ▸ hv, hlength ▸ hv⟩

theorem applyPatchRun_of_not_fits (hbase : base.length ≤ isizeMax)
    (hfits : ¬ PatchFits base patch) :
    applyPatchRun base patch = .error (.fault .capacityOverflow) := by
  rw [PatchFits] at hfits
  push Not at hfits
  obtain ⟨targetLen, cursor, opCount, cursor', hlen, hcount, hlong⟩ := hfits
  simp only [applyPatchRun, bind, Except.bind, hlen, lift_ok, hcount]
  rw [withCapacity]
  by_cases htarget : targetLen ≤ isizeMax
  · have hrun : applyOpsRun base opCount cursor' [] = .error (.fault .capacityOverflow) :=
      (applyOpsRun_eq hbase (Nat.zero_le _)).trans (if_neg (by simpa using hlong htarget))
    rw [if_pos (by omega)]
    simp only [hrun]
  · rw [if_neg (by omega)]

theorem buildPatchBytes_fits (hne : base ≠ target) (hbase : base.length ≤ isizeMax)
    (htarget : target.length ≤ isizeMax) : PatchFits base (buildPatchBytes base target) := by
  rw [isizeMax] at hbase
  have hlength : target.length < 2 ^ 64 := by
    rw [isizeMax] at htarget
    omega
  have hcount := patchOps_length_le base target
  have hops := applyOps_length (applyOps_patchOps (show base.length < 2 ^ 64 by omega) hlength)
  rw [List.length_nil, Nat.zero_add] at hops
  intro targetLen cursor opCount cursor' hpatch hcursor
  rw [buildPatchBytes, if_neg hne, List.append_assoc, decodeLen_encodeLen hlength] at hpatch
  cases hpatch
  rw [decodeLen_encodeLen (by omega)] at hcursor
  cases hcursor
  exact ⟨htarget, hops ▸ htarget⟩

/-- The patch from one byte string to another one, applied to the first, gives the second. -/
theorem patch_round_trip (hne : base ≠ target) (hbase : base.length ≤ isizeMax)
    (htarget : target.length ≤ isizeMax) :
    applyPatchRun base (buildPatchBytes base target) = .ok target := by
  rw [applyPatchRun_of_fits hbase (buildPatchBytes_fits hne hbase htarget),
    applyPatchBytes_buildPatchBytes hne (hbase.trans_lt (by norm_num [isizeMax]))
      (htarget.trans_lt (by norm_num [isizeMax]))]
  rfl

theorem patch_round_trip_sample :
    applyPatchRun [1, 2, 1, 2] (buildPatchBytes [1, 2, 1, 2] [1, 2, 1, 2, 1, 2]) =
      .ok [1, 2, 1, 2, 1, 2] :=
  patch_round_trip (by decide) (by decide) (by decide)

/-- On any bytes a patch is applied or refused exactly when its lengths stay below `isize::MAX`;
otherwise the capacity of the output is the fault. -/
theorem apply_patch_safe (hbase : base.length ≤ isizeMax) :
    (Safe (applyPatchRun base patch) ↔ PatchFits base patch) ∧
      ∀ fault, applyPatchRun base patch = .error (.fault fault) → fault = .capacityOverflow := by
  by_cases hfits : PatchFits base patch
  · rw [applyPatchRun_of_fits hbase hfits]
    exact ⟨iff_of_true (safe_lift _) hfits, fun fault h => absurd h (safe_lift _ fault)⟩
  · rw [applyPatchRun_of_not_fits hbase hfits]
    refine ⟨iff_of_false (not_safe_fault _) hfits, ?_⟩
    rintro fault ⟨⟩
    rfl

theorem apply_patch_safe_sample :
    Safe (applyPatchRun [1, 2, 3] (buildPatchBytes [1, 2, 3] [1, 2, 2, 3])) :=
  (apply_patch_safe (by decide)).1.mpr
    (buildPatchBytes_fits (by decide) (by decide) (by decide))

/-- A patch that names a target of 2 ^ 63 bytes. -/
theorem apply_patch_overflows : ¬ Safe (applyPatchRun [] (encodeLen (2 ^ 63) ++ encodeLen 0)) := by
  have hrun : applyPatchRun [] (encodeLen (2 ^ 63) ++ encodeLen 0) =
      .error (.fault .capacityOverflow) := by
    decide +kernel
  rw [hrun]
  exact not_safe_fault _

end Patches

end SkeinDB.Values
