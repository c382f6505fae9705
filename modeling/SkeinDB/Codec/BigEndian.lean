import SkeinDB.Codec.LittleEndian

/-!
# Fixed-width big-endian integers

A number below `256 ^ k` is stored as `k` bytes, most significant byte first, so that the
lexicographic order of the bytes is the order of the numbers.
-/
namespace SkeinDB.Codec

def beBytes (k n : ℕ) : Bytes := (leBytes k n).reverse

def beNat (bs : Bytes) : ℕ := leNat bs.reverse

@[simp] theorem beBytes_length (k n : ℕ) : (beBytes k n).length = k := by simp [beBytes]

theorem beNat_beBytes {k n : ℕ} (h : n < 256 ^ k) : beNat (beBytes k n) = n := by
  rw [beNat, beBytes, List.reverse_reverse, leNat_leBytes k n h]

/-- Lists of one length compare by their fronts first. -/
theorem compare_append_singleton {xs ys : Bytes} (h : xs.length = ys.length) (x y : UInt8) :
    compare (xs ++ [x]) (ys ++ [y]) = (compare xs ys).then (compare x y) := by
  induction xs generalizing ys with
  | nil =>
    obtain rfl := List.length_eq_zero_iff.mp h.symm
    simp
  | cons a xs ih =>
    cases ys with
    | nil => simp at h
    | cons b ys =>
      have hrest := ih (Nat.succ.inj h)
      simp only [List.compare_eq_compareLex, List.cons_append, List.compareLex_cons_cons] at hrest ⊢
      rw [hrest]
      cases compare a b <;> rfl

theorem compare_ofNat (a b : ℕ) :
    compare (UInt8.ofNat a) (UInt8.ofNat b) = compare (a % 256) (b % 256) := by
  change compareOfLessAndEq _ _ = compareOfLessAndEq _ _
  simp only [compareOfLessAndEq, UInt8.lt_iff_toNat_lt, ← UInt8.toNat_inj, UInt8.toNat_ofNat']

/-- The high digits decide, and then the low ones. -/
theorem compare_digits {p q r s : ℕ} (hr : r < 256) (hs : s < 256) :
    compare (256 * p + r) (256 * q + s) = (compare p q).then (compare r s) := by
  rcases lt_trichotomy p q with hlt | rfl | hgt
  · rw [Nat.compare_eq_lt.mpr hlt, Nat.compare_eq_lt.mpr (by omega)]
    rfl
  · rw [Nat.compare_eq_eq.mpr rfl, Nat.compare_eq_ite_lt, Nat.compare_eq_ite_lt]
    simp
  · rw [Nat.compare_eq_gt.mpr hgt, Nat.compare_eq_gt.mpr (by omega)]
    rfl

theorem compare_beBytes (k a b : ℕ) :
    compare (beBytes k a) (beBytes k b) = compare (a % 256 ^ k) (b % 256 ^ k) := by
  induction k generalizing a b with
  | zero => simp [beBytes, leBytes, Nat.mod_one]
  | succ k ih =>
    have hcompare (n : ℕ) : n % 256 ^ (k + 1) = 256 * (n / 256 % 256 ^ k) + n % 256 := by
      rw [pow_succ', Nat.mod_mul]
      omega
    have hbytes (n : ℕ) : beBytes (k + 1) n = beBytes k (n / 256) ++ [UInt8.ofNat n] := by
      simp [beBytes, leBytes]
    rw [hbytes, hbytes, compare_append_singleton (by simp), ih, hcompare, hcompare,
      compare_ofNat, compare_digits (Nat.mod_lt _ (by norm_num)) (Nat.mod_lt _ (by norm_num))]

end SkeinDB.Codec
