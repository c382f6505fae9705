import Mathlib

/-!
# The order of 64-bit floats

A float other than NaN has a rank: its class by sign, its exponent and its mantissa, in
lexicographic order. Floats compare as their ranks do, and the float of an integer lies on the same
side of zero and of one as the integer does.
-/
namespace SkeinDB.Search
open Float.Model Float.Model.UnpackedFloat

section Ranks

/-- The rank of an unpacked float; NaN has none. -/
def unpackedRank : UnpackedFloat → ℤ ×ₗ (ℤ ×ₗ ℤ)
  | .infinity .negative => toLex (-2, toLex (0, 0))
  | .finite .negative m e _ => toLex (-1, toLex (-e, -m))
  | .notANumber => toLex (0, toLex (0, 0))
  | .zero _ => toLex (0, toLex (0, 0))
  | .finite .positive m e _ => toLex (1, toLex (e, m))
  | .infinity .positive => toLex (2, toLex (0, 0))

def floatRank (x : Float) : ℤ ×ₗ (ℤ ×ₗ ℤ) := unpackedRank x.toModel.unpack

theorem compare_rank (a b c a' b' c' : ℤ) :
    compare (toLex (a, toLex (b, c)) : ℤ ×ₗ (ℤ ×ₗ ℤ)) (toLex (a', toLex (b', c'))) =
      (compare a a').then ((compare b b').then (compare c c')) := rfl

theorem compare_neg_int (a b : ℤ) : compare (-a) (-b) = (compare a b).swap := by
  rcases lt_trichotomy a b with h | rfl | h
  · rw [compare_lt_iff_lt.mpr h, compare_gt_iff_gt.mpr (neg_lt_neg h)]
    rfl
  · simp
  · rw [compare_gt_iff_gt.mpr h, compare_lt_iff_lt.mpr (neg_lt_neg h)]
    rfl

theorem compare_cast (m n : ℕ) : compare (m : ℤ) (n : ℤ) = compare m n := by
  rcases lt_trichotomy m n with h | rfl | h
  · rw [compare_lt_iff_lt.mpr h, compare_lt_iff_lt.mpr (by exact_mod_cast h)]
  · simp
  · rw [compare_gt_iff_gt.mpr h, compare_gt_iff_gt.mpr (by exact_mod_cast h)]

/-- Floats other than NaN compare as their ranks. -/
theorem unpacked_compare {a b : UnpackedFloat} (ha : a.isNaN = false) (hb : b.isNaN = false) :
    a.compare b = some (compare (unpackedRank a) (unpackedRank b)) := by
  cases a with
  | notANumber => cases ha
  | infinity s =>
    cases b with
    | notANumber => cases hb
    | infinity t => cases s <;> cases t <;> rfl
    | zero t => cases s <;> rfl
    | finite t m e h => cases s <;> cases t <;> rfl
  | zero s =>
    cases b with
    | notANumber => cases hb
    | infinity t => cases t <;> rfl
    | zero t => rfl
    | finite t m e h => cases t <;> rfl
  | finite s m e h =>
    cases b with
    | notANumber => cases hb
    | infinity t => cases s <;> cases t <;> rfl
    | zero t => cases s <;> rfl
    | finite t m' e' h' =>
      cases s <;> cases t
      · rw [unpackedRank, unpackedRank, compare_rank, compare_neg_int e,
          compare_neg_int m, compare_cast]
        change _ = some ((compare e e').swap.then (compare m m').swap)
        rw [← Ordering.swap_then]
        rfl
      · rfl
      · rfl
      · rw [unpackedRank, unpackedRank, compare_rank, compare_cast]
        rfl

variable {x y : Float}

theorem lt_iff_compare : x < y ↔ x.toModel.unpack.compare y.toModel.unpack = some .lt := by
  change decide ((x.toModel.unpack.compare y.toModel.unpack == some .lt) = true) = true ↔ _
  rw [decide_eq_true_iff, beq_iff_eq]

theorem beq_iff_compare :
    (x == y) = true ↔ x.toModel.unpack.compare y.toModel.unpack = some .eq := by
  change (x.toModel.unpack.compare y.toModel.unpack == some .eq) = true ↔ _
  rw [beq_iff_eq]

theorem lt_iff_rank (hx : x.isNaN = false) (hy : y.isNaN = false) :
    x < y ↔ compare (floatRank x) (floatRank y) = .lt := by
  rw [lt_iff_compare, unpacked_compare hx hy, Option.some.injEq]
  rfl

theorem beq_iff_rank (hx : x.isNaN = false) (hy : y.isNaN = false) :
    (x == y) = true ↔ compare (floatRank x) (floatRank y) = .eq := by
  rw [beq_iff_compare, unpacked_compare hx hy, Option.some.injEq]
  rfl

theorem compare_of_isNaN (h : x.isNaN = true ∨ y.isNaN = true) :
    x.toModel.unpack.compare y.toModel.unpack = none := by
  have hnan {z : Float} (hz : z.isNaN = true) : z.toModel.unpack = .notANumber := by
    change z.toModel.unpack.isNaN = true at hz
    generalize z.toModel.unpack = u at hz
    cases u <;> first | rfl | cases hz
  rcases h with h | h
  · rw [hnan h]
    rfl
  · rw [hnan h]
    generalize x.toModel.unpack = u
    cases u with
    | infinity s => cases s <;> rfl
    | finite s m e h => cases s <;> rfl
    | _ => rfl

theorem not_lt_of_isNaN (h : x.isNaN = true ∨ y.isNaN = true) : ¬ x < y := by
  rw [lt_iff_compare, compare_of_isNaN h]
  nofun

end Ranks

section Integers

/-- A float of at least two, in canonical form. -/
inductive Large : UnpackedFloat → Prop
  | infinity : Large (.infinity .positive)
  | finite (m : ℕ) (e : ℤ) (h : 0 < m) (hm : 2 ^ 52 ≤ m) (hm' : m < 2 ^ 53) (he : -51 ≤ e) :
    Large (.finite .positive m e h)

theorem shiftRight_mantissa (em : ExtendedMantissa) (n : ℕ) :
    (em >>> n).mantissa = em.mantissa / 2 ^ n := by
  induction n with
  | zero => exact (Nat.div_one _).symm
  | succ n ih =>
    change (em >>> n).mantissa / 2 = _
    rw [ih, Nat.div_div_eq_div_mul, Nat.pow_succ]

theorem roundedMantissa_bounds (em : ExtendedMantissa) :
    em.mantissa ≤ em.roundedMantissa ∧ em.roundedMantissa ≤ em.mantissa + 1 := by
  rcases em with ⟨m, round, sticky⟩
  have heven : m % 2 ≤ 1 := Nat.le_of_lt_succ (Nat.mod_lt m two_pos)
  cases round <;> cases sticky
  · exact ⟨le_rfl, Nat.le_succ m⟩
  · exact ⟨le_rfl, Nat.le_succ m⟩
  · exact ⟨Nat.le_add_right m _, Nat.add_le_add_left heven m⟩
  · exact ⟨Nat.le_succ m, le_rfl⟩

theorem targetExponent_of_le {t : ℤ} (h : 2 ≤ t) :
    Format.binary64.targetExponent t = t - 53 := by
  have hmin : Format.binary64.minExponent = -1074 := by decide
  have hbits : (Format.binary64.mantissaBits : ℤ) = 53 := by decide
  rw [Format.targetExponent, hmin, hbits]
  omega

theorem log2_bounds {m k : ℕ} (h : m.log2 = k) (hm : m ≠ 0) : 2 ^ k ≤ m ∧ m < 2 ^ (k + 1) := by
  subst h
  exact ⟨Nat.log2_self_le hm, Nat.lt_log2_self⟩

/-- A product of at least two is rounded to a float of at least two. -/
theorem large_roundWithAccuracy {m : ℕ} {e : ℤ} (hbits : 52 ≤ m.log2)
    (htotal : 2 ≤ totalExponent m e) :
    Large (roundWithAccuracy Format.binary64 .positive m e .exact) := by
  have hm : m ≠ 0 := by
    rintro rfl
    revert hbits
    decide
  obtain ⟨hlow, hhigh⟩ := log2_bounds rfl hm
  -- the first shift leaves 53 bits
  obtain ⟨k, hk⟩ : ∃ k, m.log2 = 52 + k := ⟨m.log2 - 52, by omega⟩
  have htotal' : totalExponent m e = 53 + k + e := by
    rw [totalExponent, hk]
    push_cast
    ring
  rw [hk, Nat.pow_add] at hlow
  rw [hk, show 52 + k + 1 = 53 + k by omega, Nat.pow_add] at hhigh
  have hpow : 0 < 2 ^ k := Nat.two_pow_pos k
  have hquotLow : 2 ^ 52 ≤ m / 2 ^ k := (Nat.le_div_iff_mul_le hpow).mpr hlow
  have hquotHigh : m / 2 ^ k < 2 ^ 53 := (Nat.div_lt_iff_lt_mul hpow).mpr hhigh
  have hshift : shiftToTargetExponent Format.binary64 m e .exact =
      ((⟨m, false, false⟩ : ExtendedMantissa) >>> k, e + k) := by
    rw [shiftToTargetExponent, targetExponent_of_le htotal, htotal', shiftToExponent,
      show (53 + k + e - 53 - e).toNat = k by omega]
    rfl
  rw [roundWithAccuracy, hshift]
  dsimp only
  obtain ⟨hroundLow, hroundHigh⟩ :=
    roundedMantissa_bounds ((⟨m, false, false⟩ : ExtendedMantissa) >>> k)
  rw [shiftRight_mantissa] at hroundLow hroundHigh
  generalize ((⟨m, false, false⟩ : ExtendedMantissa) >>> k).roundedMantissa = r at *
  dsimp only at hroundLow hroundHigh
  have hr : r ≠ 0 := by omega
  -- the rounded mantissa has 53 bits, or it is the next power of two
  rcases Nat.lt_or_ge r (2 ^ 53) with hsmall | hcarry
  · have hlog : r.log2 = 52 := by
      rw [Nat.log2_eq_iff hr]
      omega
    have hsecond : shiftToTargetExponent Format.binary64 r (e + k) .exact =
        (⟨r, false, false⟩, e + k) := by
      rw [shiftToTargetExponent, totalExponent, hlog, targetExponent_of_le (by omega), shiftToExponent,
        show (((52 : ℕ) : ℤ) + 1 + (e + k) - 53 - (e + k)).toNat = 0 by omega]
      simp only [Nat.cast_zero, add_zero]
      rfl
    rw [hsecond]
    dsimp only
    rw [dif_neg hr]
    exact .finite r _ _ (by omega) hsmall (by omega)
  · obtain rfl : r = 2 ^ 53 := by omega
    have hsecond : shiftToTargetExponent Format.binary64 (2 ^ 53) (e + k) .exact =
        ((⟨2 ^ 53, false, false⟩ : ExtendedMantissa) >>> 1, e + k + 1) := by
      rw [shiftToTargetExponent, totalExponent, Nat.log2_two_pow, targetExponent_of_le (by omega),
        shiftToExponent,
        show (((53 : ℕ) : ℤ) + 1 + (e + k) - 53 - (e + k)).toNat = 1 by omega]
      rfl
    rw [hsecond]
    dsimp only
    rw [shiftRight_mantissa]
    dsimp only
    rw [dif_neg (by norm_num)]
    exact .finite _ _ _ (by norm_num) (by norm_num) (by omega)

theorem unpackSign_packComponents {spec : Format} (sign : Sign)
    (exponent : BitVec spec.exponentBits) (mantissa : BitVec spec.mantissaBitsWithoutImplicit) :
    unpackSign (packComponents spec sign exponent mantissa) = sign.toBitVec := by
  ext i hi
  obtain rfl : i = 0 := by omega
  simp [unpackSign, packComponents, BitVec.getLsbD_eq_getElem, BitVec.getLsbD_append,
    BitVec.getElem_append]

theorem ofBitVec_toBitVec (sign : Sign) : Sign.ofBitVec sign.toBitVec = sign := by
  cases sign <;> rfl

/-- A float with neither the least nor the greatest exponent is normal. -/
theorem unpack_packComponents {spec : Format} (sign : Sign) {exponent : BitVec spec.exponentBits}
    (mantissa : BitVec spec.mantissaBitsWithoutImplicit) (hmax : exponent ≠ -1#_)
    (hzero : exponent ≠ 0#_) :
    ∃ h, UnpackedFloat.unpack spec (packComponents spec sign exponent mantissa) =
      .finite sign (1#1 ++ mantissa).toNat
        (exponent.toNat - (spec.exponentBias + spec.mantissaBitsWithoutImplicit)) h := by
  have hpos : 0 < (1#1 ++ mantissa).toNat := by
    simp
  refine ⟨hpos, ?_⟩
  rw [UnpackedFloat.unpack]
  simp only [unpackExponent_packComponents, unpackMantissa_packComponents,
    unpackSign_packComponents, ofBitVec_toBitVec, if_neg hmax, if_neg hzero]

theorem one_append_bounds {n : ℕ} (mantissa : BitVec n) :
    2 ^ n ≤ (1#1 ++ mantissa).toNat ∧ (1#1 ++ mantissa).toNat < 2 ^ (n + 1) := by
  have hm := mantissa.isLt
  have happend : (1#1 ++ mantissa).toNat = 2 ^ n + mantissa.toNat := by
    rw [BitVec.toNat_append, ← Nat.shiftLeft_add_eq_or_of_lt hm, Nat.shiftLeft_eq]
    simp
  rw [happend, Nat.pow_succ]
  omega

theorem unpack_packedInfinity {spec : Format} (sign : Sign) :
    UnpackedFloat.unpack spec (packedInfinity spec sign) = .infinity sign := by
  rw [packedInfinity, UnpackedFloat.unpack]
  simp only [unpackExponent_packComponents, unpackMantissa_packComponents,
    unpackSign_packComponents, ofBitVec_toBitVec, if_true]
  rfl

/-- A normal float keeps its sign and its exponent when it is packed, unless it overflows. -/
theorem unpack_pack_normal {spec : Format} (sign : Sign) {m : ℕ} {e : ℤ} (h : 0 < m)
    (hbits : m.log2 + 1 = spec.mantissaBits)
    (hexp : 0 < e + spec.exponentBias + spec.mantissaBitsWithoutImplicit) :
    UnpackedFloat.unpack spec (UnpackedFloat.pack spec (.finite sign m e h)) = .infinity sign ∨
      ∃ m' h', UnpackedFloat.unpack spec (UnpackedFloat.pack spec (.finite sign m e h)) =
          .finite sign m' e h' ∧ 2 ^ spec.mantissaBitsWithoutImplicit ≤ m' ∧
        m' < 2 ^ (spec.mantissaBitsWithoutImplicit + 1) := by
  rw [UnpackedFloat.pack]
  generalize hbiased : (e + spec.exponentBias + spec.mantissaBitsWithoutImplicit).toNat = biased
  by_cases hfits : 2 ^ spec.exponentBits ≤ biased + 1
  · rw [if_pos hfits]
    exact .inl (unpack_packedInfinity sign)
  rw [if_neg hfits, if_pos hbits]
  right
  have hlt : biased < 2 ^ spec.exponentBits := by omega
  have hnat : (BitVec.ofNat spec.exponentBits biased).toNat = biased := by
    rw [BitVec.toNat_ofNat, Nat.mod_eq_of_lt hlt]
  have hmax : BitVec.ofNat spec.exponentBits biased ≠ -1#_ := by
    intro heq
    rw [BitVec.neg_one_eq_allOnes] at heq
    rw [heq, BitVec.toNat_allOnes] at hnat
    omega
  have hzero : BitVec.ofNat spec.exponentBits biased ≠ 0#_ := by
    intro heq
    rw [heq, BitVec.toNat_ofNat, Nat.zero_mod] at hnat
    omega
  obtain ⟨h', hunpack⟩ := unpack_packComponents sign
    (BitVec.ofNat spec.mantissaBitsWithoutImplicit m) hmax hzero
  rw [hnat] at hunpack
  have hexponent : (biased : ℤ) - (spec.exponentBias + spec.mantissaBitsWithoutImplicit) = e := by
    omega
  refine ⟨_, h', ?_, one_append_bounds _⟩
  simp only [hexponent] at hunpack
  exact hunpack

theorem log2_binary64 {m : ℕ} (hm : 2 ^ 52 ≤ m) (hm' : m < 2 ^ 53) :
    m.log2 + 1 = Format.binary64.mantissaBits := by
  rw [(Nat.log2_eq_iff (by omega : m ≠ 0)).mpr ⟨hm, hm'⟩]
  rfl

theorem exponent_binary64 {e : ℤ} (he : -51 ≤ e) :
    0 < e + Format.binary64.exponentBias + Format.binary64.mantissaBitsWithoutImplicit := by
  have hbias : (Format.binary64.exponentBias : ℤ) = 1023 := by decide
  rw [hbias]
  dsimp only
  omega

/-- A large float stays large when it is packed. -/
theorem Large.unpack_pack {u : UnpackedFloat} (h : Large u) : Large (Float.Model.pack u).unpack := by
  cases h with
  | infinity => exact @unpack_packedInfinity Format.binary64 .positive ▸ .infinity
  | finite m e h hm hm' he =>
    change Large (UnpackedFloat.unpack Format.binary64 (UnpackedFloat.pack Format.binary64 _))
    rcases unpack_pack_normal .positive h (log2_binary64 hm hm') (exponent_binary64 he) with
      hinf | ⟨m', h', hunpack, hlow, hhigh⟩
    · rw [hinf]
      exact .infinity
    · rw [hunpack]
      exact .finite m' e h' hlow hhigh he

theorem unpack_one : (1 : Float).toModel.unpack = .finite .positive (2 ^ 52) (-52) (by decide) := by
  rfl

/-- Large floats stay large when they are multiplied by one. -/
theorem Large.mul_one {u : UnpackedFloat} (h : Large u) :
    Large (mul Format.binary64 u (.finite .positive (2 ^ 52) (-52) (by decide))) := by
  cases h with
  | infinity => exact .infinity
  | finite m e h hm hm' he =>
    have hlog : (m * 2 ^ 52).log2 = 104 := by
      rw [Nat.log2_eq_iff (by omega)]
      omega
    refine large_roundWithAccuracy (by rw [hlog]; omega) ?_
    rw [totalExponent, hlog]
    omega

theorem log2_shiftLeft {n k : ℕ} (hn : n ≠ 0) : (n <<< k).log2 = n.log2 + k := by
  obtain ⟨hlow, hhigh⟩ := log2_bounds rfl hn
  rw [Nat.shiftLeft_eq, Nat.log2_eq_iff (by positivity), Nat.pow_add,
    show n.log2 + k + 1 = n.log2 + 1 + k by omega, Nat.pow_add]
  exact ⟨Nat.mul_le_mul_right _ hlow, Nat.mul_lt_mul_of_pos_right hhigh (Nat.two_pow_pos k)⟩

theorem large_round {n : ℕ} (h : 2 ≤ n) : Large (round Format.binary64 .positive n 0) := by
  have hlog : 1 ≤ n.log2 := by
    rw [Nat.le_log2 (by omega)]
    exact h
  have htotal : totalExponent n 0 = n.log2 + 1 := by
    rw [totalExponent, add_zero]
  rw [UnpackedFloat.round, htotal, targetExponent_of_le (by omega), decreaseExponent]
  dsimp only
  generalize hshift : (0 - ((n.log2 : ℤ) + 1 - 53)).toNat = k
  have hshifted : (n <<< k).log2 = n.log2 + k := log2_shiftLeft (by omega)
  refine large_roundWithAccuracy (by omega) ?_
  rw [totalExponent, hshifted]
  push_cast
  omega

/-- The float of a number from two on is large. -/
theorem large_ofNat {n : ℕ} (h : 2 ≤ n) : Large (Float.ofNat n).toModel.unpack := by
  change Large (Float.ofScientific n false 0).toModel.unpack
  rw [Float.ofScientific]
  split
  · rename_i hsmall
    have hn : n.toUInt64.toNat = n := by
      rw [Nat.toUInt64, UInt64.toNat_ofNat']
      omega
    have hofNat : Large (Float.Model.ofUInt64 n.toUInt64).unpack := by
      refine Large.unpack_pack ?_
      rw [UnpackedFloat.ofUInt64, hn, UnpackedFloat.ofNat, UnpackedFloat.ofInt,
        UnpackedFloat.normalize,
        compare_gt_iff_gt.mpr (by exact_mod_cast (by omega : 0 < n))]
      exact large_round h
    change Large (Float.Model.pack (mul Format.binary64 (Float.Model.ofUInt64 n.toUInt64).unpack
      (1 : Float).toModel.unpack)).unpack
    rw [unpack_one]
    exact hofNat.mul_one.unpack_pack
  · rename_i hlarge
    have hbig : 2 ^ 53 ≤ n := by omega
    have hlog : 53 ≤ n.log2 := by
      rw [Nat.le_log2 (by omega)]
      exact hbig
    have hbits : Format.binary64.mantissaBits = 53 := rfl
    have hshifted : (n <<< 53 * 10 ^ (0 : ℤ).toNat).log2 = n.log2 + 53 := by
      rw [Int.toNat_zero, pow_zero, Nat.mul_one, log2_shiftLeft (by omega)]
    refine Large.unpack_pack ?_
    change Large (UnpackedFloat.ofScientific Format.binary64 n 0)
    rw [UnpackedFloat.ofScientific, dif_neg (by omega : n ≠ 0), if_neg (by decide),
      if_neg (by simp), if_pos le_rfl, UnpackedFloat.mul, hbits]
    refine large_roundWithAccuracy (by omega) ?_
    rw [totalExponent, hshifted]
    push_cast
    omega

theorem not_isNaN_of_large {x : Float} (h : Large x.toModel.unpack) : x.isNaN = false := by
  change x.toModel.unpack.isNaN = false
  generalize x.toModel.unpack = u at h
  cases h <;> rfl

theorem Large.rank {u : UnpackedFloat} (h : Large u) :
    compare (unpackedRank u) (unpackedRank (.zero .positive)) = .gt ∧
      compare (unpackedRank u)
        (unpackedRank (.finite .positive (2 ^ 52) (-52) (by decide))) = .gt := by
  cases h with
  | infinity => exact ⟨rfl, rfl⟩
  | finite m e h hm hm' he =>
    refine ⟨rfl, ?_⟩
    rw [unpackedRank, unpackedRank, compare_rank, compare_gt_iff_gt.mpr (by omega : e > -52)]
    rfl

/-- A float of at most minus one. -/
theorem Large.neg {x : Float} (h : Large x.toModel.unpack) :
    x.neg.toModel.unpack = .infinity .negative ∨
      ∃ m e h, x.neg.toModel.unpack = .finite .negative m e h := by
  change (Float.Model.pack x.toModel.unpack.neg).unpack = _ ∨
    ∃ m e h, (Float.Model.pack x.toModel.unpack.neg).unpack = _
  generalize x.toModel.unpack = u at h
  cases h with
  | infinity => exact .inl (unpack_packedInfinity .negative)
  | finite m e h hm hm' he =>
    rcases unpack_pack_normal .negative h (log2_binary64 hm hm') (exponent_binary64 he) with
      hinf | ⟨m', h', hunpack, -⟩
    · exact .inl hinf
    · exact .inr ⟨m', e, h', hunpack⟩

theorem floatRank_bool (v : Bool) : (if v then 1 else 0 : Float).isNaN = false ∧
    floatRank (if v then 1 else 0) = if v then toLex (1, toLex (-52, 2 ^ 52)) else 0 := by
  cases v
  · exact ⟨rfl, rfl⟩
  · exact ⟨rfl, rfl⟩

/-- The float of an integer compares with zero and with one as the integer does. -/
theorem compare_ofInt (n : ℤ) (v : Bool) : (Float.ofInt n).isNaN = false ∧
    compare (floatRank (Float.ofInt n)) (floatRank (if v then 1 else 0)) =
      compare n (if v then 1 else 0) := by
  rcases n with (_ | _ | k) | (_ | k)
  · cases v <;> decide +kernel
  · cases v <;> decide +kernel
  · have hlarge : Large (Float.ofNat (k + 2)).toModel.unpack := large_ofNat (by omega)
    refine ⟨not_isNaN_of_large hlarge, ?_⟩
    obtain ⟨hzero, hone⟩ := hlarge.rank
    cases v
    · exact hzero.trans (compare_gt_iff_gt.mpr (Int.ofNat_lt.mpr (by omega : 0 < k + 2))).symm
    · exact hone.trans (compare_gt_iff_gt.mpr (Int.ofNat_lt.mpr (by omega : 1 < k + 2))).symm
  · cases v <;> decide +kernel
  · have hlarge : Large (Float.ofNat (k + 2)).toModel.unpack := large_ofNat (by omega)
    have hint : compare (Int.negSucc (k + 1)) (if v then 1 else 0) = .lt := by
      cases v
      · exact compare_lt_iff_lt.mpr (Int.negSucc_lt_zero _)
      · exact compare_lt_iff_lt.mpr ((Int.negSucc_lt_zero _).trans zero_lt_one)
    rw [hint]
    change (Float.neg (Float.ofNat (k + 2))).toModel.unpack.isNaN = false ∧
      compare (unpackedRank (Float.neg (Float.ofNat (k + 2))).toModel.unpack) _ = .lt
    rcases hlarge.neg with hinf | ⟨m, e, h, hfinite⟩
    · rw [hinf]
      cases v <;> exact ⟨rfl, rfl⟩
    · rw [hfinite]
      cases v <;> exact ⟨rfl, rfl⟩

end Integers

end SkeinDB.Search
