import Mathlib.Data.Nat.Bitwise
import SkeinDB.Format.Primitives

/-!
# Changes that CRC32C detects

The register of `crc32c` is changed by an injective function of the register and of the byte, so
two byte strings that differ in a single byte have different checksums.
-/
namespace SkeinDB.Format
open SkeinDB.Codec

theorem crc32cBit_toNat (x : UInt32) :
    (crc32cBit x).toNat = x.toNat / 2 ^^^ if x.toNat % 2 = 1 then 0x82F63B78 else 0 := by
  have hlow : x &&& 1 = 1 ↔ x.toNat % 2 = 1 := by
    rw [← UInt32.toNat_inj]
    simp
  rw [crc32cBit]
  by_cases hodd : x.toNat % 2 = 1
  · rw [if_pos (hlow.mpr hodd), if_pos hodd]
    simp [Nat.shiftRight_eq_div_pow]
  · rw [if_neg (hlow.not.mpr hodd), if_neg hodd]
    simp [Nat.shiftRight_eq_div_pow]

/-- The polynomial sets the top bit, which the shift leaves clear. -/
theorem crc32cBit_top (x : UInt32) :
    (crc32cBit x).toNat.testBit 31 = decide (x.toNat % 2 = 1) := by
  have hhalf : (x.toNat / 2).testBit 31 = false := by
    have := x.toNat_lt
    exact Nat.testBit_lt_two_pow (by omega)
  rw [crc32cBit_toNat, Nat.testBit_xor, hhalf]
  by_cases hodd : x.toNat % 2 = 1
  · rw [if_pos hodd, decide_eq_true hodd]
    decide
  · rw [if_neg hodd, decide_eq_false hodd]
    decide

theorem crc32cBit_injective : Function.Injective crc32cBit := by
  intro x y hxy
  have hlow : x.toNat % 2 = 1 ↔ y.toNat % 2 = 1 := by
    rw [← decide_eq_decide, ← crc32cBit_top, ← crc32cBit_top, hxy]
  have hhalf := crc32cBit_toNat x
  rw [hxy, crc32cBit_toNat y, if_congr hlow rfl rfl] at hhalf
  have hhigh : y.toNat / 2 = x.toNat / 2 := Nat.xor_left_inj.mp hhalf
  apply UInt32.toNat_inj.mp
  omega

theorem crc32cByte_injective_left (b : UInt8) : Function.Injective (crc32cByte · b) := by
  intro x y hxy
  exact UInt32.xor_left_inj b.toUInt32 |>.mp ((crc32cBit_injective.iterate 8) hxy)

theorem crc32cByte_injective_right (crc : UInt32) : Function.Injective (crc32cByte crc) := by
  intro a b hab
  have hbyte := UInt32.xor_right_inj crc |>.mp ((crc32cBit_injective.iterate 8) hab)
  simpa [← UInt32.toNat_inj, ← UInt8.toNat_inj] using hbyte

theorem foldl_crc32cByte_injective (data : Bytes) :
    Function.Injective fun crc => data.foldl crc32cByte crc := by
  induction data with
  | nil => exact Function.injective_id
  | cons b data ih => exact ih.comp (crc32cByte_injective_left b)

/-- A single changed byte changes the checksum. -/
theorem crc32c_set_ne {data : Bytes} {i : ℕ} {b : UInt8} (hi : i < data.length) (hb : data[i] ≠ b) :
    crc32c (data.set i b) ≠ crc32c data := by
  intro h
  have hfold := UInt32.xor_left_inj 0xFFFFFFFF |>.mp h
  have hsplit : data = data.take i ++ data[i] :: data.drop (i + 1) := by
    rw [← List.drop_eq_getElem_cons hi, List.take_append_drop]
  have hset : data.set i b = data.take i ++ b :: data.drop (i + 1) := by
    rw [List.set_eq_take_append_cons_drop, if_pos hi]
  rw [hset] at hfold
  nth_rewrite 3 [hsplit] at hfold
  simp only [List.foldl_append, List.foldl_cons] at hfold
  exact hb (crc32cByte_injective_right _ (foldl_crc32cByte_injective _ hfold)).symm

end SkeinDB.Format
