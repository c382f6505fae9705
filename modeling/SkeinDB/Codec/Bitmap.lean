import SkeinDB.Codec.LittleEndian

/-!
# Bitmaps

A flag is kept in one bit of a byte string: the flag at `i` is bit `i % 8` of byte `i / 8`. Flags
behind the last byte are unset.
-/
namespace SkeinDB.Codec

/-- `bitmap[i / 8] & (1 << (i % 8)) != 0` -/
def bitAt (bitmap : Bytes) (i : ℕ) : Bool :=
  match bitmap[i / 8]? with
  | none => false
  | some b => b &&& (1 <<< UInt8.ofNat (i % 8)) != 0

/-- `bitmap[i / 8] |= 1 << (i % 8)` -/
def setBit (bitmap : Bytes) (i : ℕ) : Bytes :=
  bitmap.modify (i / 8) (· ||| (1 <<< UInt8.ofNat (i % 8)))

/-- The bytes that a number of flags takes: `div_ceil(8)`. -/
def bitmapLen (count : ℕ) : ℕ := (count + 7) / 8

/-- Set the bits of the flags that hold, from a position on. -/
def setFlags (bitmap : Bytes) : (start : ℕ) → List Bool → Bytes
  | _, [] => bitmap
  | start, flag :: flags =>
    setFlags (if flag then setBit bitmap start else bitmap) (start + 1) flags

def bitmapOf (flags : List Bool) : Bytes :=
  setFlags (List.replicate (bitmapLen flags.length) 0) 0 flags

section Bits
variable {bitmap : Bytes} {i j : ℕ}

@[simp] theorem setBit_length (bitmap : Bytes) (i : ℕ) : (setBit bitmap i).length = bitmap.length :=
  List.length_modify ..

/-- A bit of a byte that has another one set. -/
theorem or_bit (b : UInt8) (hi : i < 8) (hj : j < 8) :
    ((b ||| (1 <<< UInt8.ofNat i)) &&& (1 <<< UInt8.ofNat j) != 0) =
      (b &&& (1 <<< UInt8.ofNat j) != 0 || i == j) := by
  have hsplit (x y : UInt8) : (b ||| x) &&& y = (b &&& y) ||| (x &&& y) := by
    rw [← UInt8.toNat_inj]
    simp only [UInt8.toNat_or, UInt8.toNat_and, Nat.and_or_distrib_right]
  have hall : ∀ i < 8, ∀ j < 8,
      ((1 <<< UInt8.ofNat i) &&& (1 <<< UInt8.ofNat j) != (0 : UInt8)) = (i == j) := by
    decide +kernel
  rw [hsplit, ← hall i hi j hj, Bool.eq_iff_iff]
  simp only [bne_iff_ne, Bool.or_eq_true, ne_eq, UInt8.or_eq_zero_iff, not_and_or]

theorem bitAt_setBit (h : i / 8 < bitmap.length) :
    bitAt (setBit bitmap i) j = (bitAt bitmap j || i == j) := by
  rw [bitAt, bitAt, setBit, List.getElem?_modify]
  by_cases hbyte : i / 8 = j / 8
  · simp only [if_pos hbyte]
    rw [← hbyte, List.getElem?_eq_getElem h]
    have hij : (i % 8 == j % 8) = (i == j) := by
      rw [Bool.eq_iff_iff, beq_iff_eq, beq_iff_eq]
      omega
    rw [← hij]
    exact or_bit _ (Nat.mod_lt _ (by norm_num)) (Nat.mod_lt _ (by norm_num))
  · have hij : (i == j) = false := beq_eq_false_iff_ne.mpr fun h => hbyte (h ▸ rfl)
    simp only [if_neg hbyte]
    rw [hij, Bool.or_false, Option.map_eq_map, Option.map_id']

@[simp] theorem setFlags_length (bitmap : Bytes) (start : ℕ) (flags : List Bool) :
    (setFlags bitmap start flags).length = bitmap.length := by
  induction flags generalizing bitmap start with
  | nil => rfl
  | cons flag flags ih =>
    rw [setFlags, ih]
    cases flag <;> simp

theorem bitAt_setFlags {flags : List Bool} {start : ℕ}
    (h : start + flags.length ≤ 8 * bitmap.length) :
    bitAt (setFlags bitmap start flags) j =
      (bitAt bitmap j || (decide (start ≤ j) && flags.getD (j - start) false)) := by
  induction flags generalizing bitmap start with
  | nil => simp [setFlags]
  | cons flag flags ih =>
    rw [List.length_cons] at h
    have hbyte : start / 8 < bitmap.length := by omega
    have hset : bitAt (if flag then setBit bitmap start else bitmap) j =
        (bitAt bitmap j || (flag && start == j)) := by
      cases flag with
      | true => exact bitAt_setBit hbyte
      | false => exact (Bool.or_false _).symm
    rw [setFlags, ih (by cases flag <;> simp <;> omega), hset, Bool.or_assoc]
    refine congrArg (bitAt bitmap j || ·) ?_
    rcases Nat.lt_trichotomy j start with hlt | rfl | hgt
    · simp [show ¬ start + 1 ≤ j by omega, show ¬ start ≤ j by omega, show start ≠ j by omega]
    · simp
    · rw [show j - start = j - (start + 1) + 1 by omega, List.getD_cons_succ]
      simp [show start + 1 ≤ j by omega, show start ≤ j by omega, show start ≠ j by omega]

theorem bitmapOf_length (flags : List Bool) : (bitmapOf flags).length = bitmapLen flags.length := by
  rw [bitmapOf, setFlags_length, List.length_replicate]

theorem le_bitmapLen (count : ℕ) : count ≤ 8 * bitmapLen count := by
  rw [bitmapLen]
  omega

/-- A bitmap has the flags that it was made of. -/
theorem bitAt_bitmapOf (flags : List Bool) (i : ℕ) :
    bitAt (bitmapOf flags) i = flags.getD i false := by
  have hzero : bitAt (List.replicate (bitmapLen flags.length) 0) i = false := by
    rw [bitAt, List.getElem?_replicate]
    split_ifs
    · simp
    · rfl
  rw [bitmapOf, bitAt_setFlags, hzero]
  · simp
  · rw [List.length_replicate, Nat.zero_add]
    exact le_bitmapLen _

end Bits

end SkeinDB.Codec
