import SkeinDB.Codec.Reader

/-!
# Unsigned LEB128

A number is cut into 7-bit groups, least significant first; every byte but the
last carries the continuation bit `0x80`. Both directions are loops of at most
`groups` rounds over a `width`-bit accumulator.
-/
namespace SkeinDB.Codec.Leb128

/-- Why a decoder stopped: no byte left, or no final byte within the allowed rounds. -/
inductive Error
  | eof
  | overlong
  deriving DecidableEq, Repr

/-- Emit the groups of `n`, at most `groups` of them. -/
def encode : (groups : ℕ) → (n : ℕ) → Bytes
  | 0, _ => []
  | groups + 1, n =>
    if n / 128 = 0 then [UInt8.ofNat (n % 128)]
    else UInt8.ofNat (n % 128 + 128) :: encode groups (n / 128)

/-- Read groups into a `width`-bit accumulator, or-ing each payload at its shift. -/
def decodeLoop (width : ℕ) : (groups shift acc : ℕ) → Bytes → Except Error (ℕ × Bytes)
  | 0, _, _, _ => .error .overlong
  | _ + 1, _, _, [] => .error .eof
  | groups + 1, shift, acc, b :: rest =>
    let acc := acc ||| (b.toNat % 128) <<< shift % 2 ^ width
    if b.toNat < 128 then .ok (acc, rest) else decodeLoop width groups (shift + 7) acc rest

def decode (width groups : ℕ) (bytes : Bytes) : Except Error (ℕ × Bytes) :=
  decodeLoop width groups 0 0 bytes

theorem encode_ne_nil (groups n : ℕ) (h : 0 < groups) : encode groups n ≠ [] := by
  cases groups with
  | zero => omega
  | succ groups =>
    rw [encode]
    split <;> simp

theorem encode_length_le (groups n : ℕ) : (encode groups n).length ≤ groups := by
  induction groups generalizing n with
  | zero => simp [encode]
  | succ groups ih =>
    rw [encode]
    split
    · simp
    · simpa using ih (n / 128)

/-- Or-ing a group above the bits already read is addition. -/
theorem or_group (acc x shift : ℕ) (h : acc < 2 ^ shift) :
    acc ||| x <<< shift = acc + 2 ^ shift * x := by
  have hor := Nat.two_pow_add_eq_or_of_lt h x
  rw [Nat.shiftLeft_eq, Nat.mul_comm x, Nat.or_comm, ← hor, Nat.add_comm]

/-- The decoder loop adds the encoded number at the current shift, whatever follows it. -/
theorem decodeLoop_encode (width groups shift acc n : ℕ) (rest : Bytes)
    (hacc : acc < 2 ^ shift) (hn : n < 128 ^ groups) (hw : 2 ^ shift * n < 2 ^ width)
    (hg : 0 < groups) :
    decodeLoop width groups shift acc (encode groups n ++ rest) =
      .ok (acc + 2 ^ shift * n, rest) := by
  induction groups generalizing shift acc n with
  | zero => omega
  | succ groups ih =>
    have hlow : (n % 128) <<< shift < 2 ^ width := by
      rw [Nat.shiftLeft_eq, Nat.mul_comm]
      exact lt_of_le_of_lt (Nat.mul_le_mul_left _ (Nat.mod_le _ _)) hw
    have hstep : acc ||| (n % 128) <<< shift % 2 ^ width = acc + 2 ^ shift * (n % 128) := by
      rw [Nat.mod_eq_of_lt hlow, or_group acc _ shift hacc]
    rw [encode]
    split
    · rename_i hlast
      have hsmall : n < 128 := by omega
      have hb : (UInt8.ofNat (n % 128)).toNat = n % 128 := by
        simp only [UInt8.toNat_ofNat']
        omega
      simp only [List.cons_append, List.nil_append, decodeLoop, hb]
      rw [Nat.mod_mod, hstep, if_pos (by omega), Nat.mod_eq_of_lt hsmall]
    · rename_i hmore
      have hb : (UInt8.ofNat (n % 128 + 128)).toNat = n % 128 + 128 := by
        simp only [UInt8.toNat_ofNat']
        omega
      have hgroups : 0 < groups := by
        rcases Nat.eq_zero_or_pos groups with h0 | h0
        · subst h0
          simp at hn
          omega
        · exact h0
      have hnext : n / 128 < 128 ^ groups := by
        rw [Nat.div_lt_iff_lt_mul (by norm_num)]
        simpa [pow_succ] using hn
      have hpow : 2 ^ (shift + 7) = 2 ^ shift * 128 := by rw [pow_add]; norm_num
      have hsplit : 2 ^ shift * (n % 128) + 2 ^ shift * 128 * (n / 128) = 2 ^ shift * n := by
        rw [Nat.mul_assoc, ← Nat.mul_add, Nat.mod_add_div]
      have haccnext : acc + 2 ^ shift * (n % 128) < 2 ^ (shift + 7) := by
        have : 2 ^ shift * (n % 128) ≤ 2 ^ shift * 127 := Nat.mul_le_mul_left _ (by omega)
        omega
      have hwnext : 2 ^ (shift + 7) * (n / 128) < 2 ^ width := by
        rw [hpow]
        omega
      simp only [List.cons_append, decodeLoop, hb]
      rw [Nat.add_mod_right, Nat.mod_mod, hstep, if_neg (by omega),
        ih (shift + 7) _ _ haccnext hnext hwnext hgroups, hpow]
      simp only [Except.ok.injEq, Prod.mk.injEq, and_true]
      omega

/-- Decoding an encoded number returns it and leaves exactly the bytes that follow it. -/
theorem decode_encode (width groups n : ℕ) (rest : Bytes) (hn : n < 128 ^ groups)
    (hw : n < 2 ^ width) (hg : 0 < groups) :
    decode width groups (encode groups n ++ rest) = .ok (n, rest) := by
  have h := decodeLoop_encode width groups 0 0 n rest (by simp) hn (by simpa using hw) hg
  simpa [decode] using h

theorem decodeLoop_length_lt {width groups shift acc n : ℕ} {bytes rest : Bytes}
    (h : decodeLoop width groups shift acc bytes = .ok (n, rest)) :
    rest.length < bytes.length := by
  induction groups generalizing shift acc bytes with
  | zero => cases h
  | succ groups ih =>
    rcases bytes with _ | ⟨b, bytes⟩
    · cases h
    · rw [decodeLoop] at h
      split_ifs at h with hlast
      · cases h
        exact Nat.lt_succ_self _
      · exact (ih h).trans (Nat.lt_succ_self _)

/-- What a decoder leaves is shorter than its input. -/
theorem decode_length_lt {width groups n : ℕ} {bytes rest : Bytes}
    (h : decode width groups bytes = .ok (n, rest)) : rest.length < bytes.length :=
  decodeLoop_length_lt h

theorem decodeLoop_local (width groups shift acc : ℕ) :
    Reader.Local (decodeLoop width groups shift acc) := by
  intro bytes n rest more h
  induction groups generalizing shift acc bytes with
  | zero => cases h
  | succ groups ih =>
    rcases bytes with _ | ⟨b, bytes⟩
    · cases h
    · rw [decodeLoop] at h
      rw [List.cons_append, decodeLoop]
      split_ifs at h ⊢ with hlast
      · cases h
        rfl
      · exact ih _ _ _ h

section Payloads

/-- The number whose 7-bit groups are in some bytes. -/
def payloadSum (bytes : Bytes) : ℕ := ∑ i : Fin bytes.length, bytes[i].toNat % 128 * 2 ^ (7 * i.val)

theorem payloadSum_cons (b : UInt8) (bytes : Bytes) :
    payloadSum (b :: bytes) = b.toNat % 128 + 2 ^ 7 * payloadSum bytes := by
  have hfirst := Fin.sum_univ_succ fun i : Fin (bytes.length + 1) =>
    (b :: bytes)[i].toNat % 128 * 2 ^ (7 * i.val)
  refine hfirst.trans ?_
  rw [payloadSum, Finset.mul_sum]
  congr 1
  · simp
  · refine Finset.sum_congr rfl fun i _ => ?_
    have hshift : 7 * (i.val + 1) = 7 + 7 * i.val := by ring
    simp only [Fin.getElem_fin, Fin.val_succ, List.getElem_cons_succ, hshift, pow_add]
    ring

theorem payloadSum_lt (bytes : Bytes) : payloadSum bytes < 2 ^ (7 * bytes.length) := by
  induction bytes with
  | nil => simp [payloadSum]
  | cons b bytes ih =>
    have hlength : 2 ^ (7 * (b :: bytes).length) = 2 ^ 7 * 2 ^ (7 * bytes.length) := by
      rw [← pow_add, List.length_cons]
      ring_nf
    rw [payloadSum_cons, hlength]
    have := Nat.mod_lt b.toNat (by norm_num : 0 < 128)
    omega

theorem payloadSum_append (bytes bytes' : Bytes) :
    payloadSum (bytes ++ bytes') = payloadSum bytes + 2 ^ (7 * bytes.length) * payloadSum bytes' := by
  induction bytes with
  | nil => simp [payloadSum]
  | cons b bytes ih =>
    rw [List.cons_append, payloadSum_cons, payloadSum_cons, ih, List.length_cons]
    ring

/-- Or-ing a group into an accumulator is addition within its width. -/
theorem or_group_mod (width acc x shift : ℕ) (h : acc < 2 ^ shift) (hacc : acc < 2 ^ width) :
    acc ||| x <<< shift % 2 ^ width = (acc + 2 ^ shift * x) % 2 ^ width := by
  rw [← or_group acc x shift h]
  refine Nat.eq_of_testBit_eq fun i => ?_
  rw [Nat.testBit_or, Nat.testBit_mod_two_pow, Nat.testBit_mod_two_pow, Nat.testBit_or]
  by_cases hi : i < width
  · simp [hi]
  · have hzero : acc.testBit i = false :=
      Nat.testBit_lt_two_pow (hacc.trans_le (Nat.pow_le_pow_right (by norm_num) (not_lt.mp hi)))
    simp [hi, hzero]

/-- A decoder that succeeds has read the number of the payloads, up to the bits above the width
of its accumulator. -/
theorem decodeLoop_payloads {width groups shift acc n : ℕ} {bytes rest : Bytes}
    (hacc : acc < 2 ^ shift) (hwidth : acc < 2 ^ width)
    (h : decodeLoop width groups shift acc bytes = .ok (n, rest)) :
    ∃ read, bytes = read ++ rest ∧ read.length ≤ groups ∧
      n = (acc + 2 ^ shift * payloadSum read) % 2 ^ width := by
  induction groups generalizing shift acc bytes with
  | zero => cases h
  | succ groups ih =>
    rcases bytes with _ | ⟨b, bytes⟩
    · cases h
    · rw [decodeLoop, or_group_mod width acc _ shift hacc hwidth] at h
      set acc' := (acc + 2 ^ shift * (b.toNat % 128)) % 2 ^ width with hacc'
      have hmod : ∀ m, (acc' + m) % 2 ^ width =
          (acc + 2 ^ shift * (b.toNat % 128) + m) % 2 ^ width := by
        intro m
        rw [hacc', Nat.mod_add_mod]
      split_ifs at h with hlast
      · obtain ⟨hn, rfl⟩ := Prod.mk.inj (Except.ok.inj h)
        refine ⟨[b], rfl, Nat.succ_le_succ (Nat.zero_le _), ?_⟩
        rw [payloadSum_cons, ← hn, hacc']
        simp [payloadSum]
      · have hnext : acc' < 2 ^ (shift + 7) := by
          refine (Nat.mod_le _ _).trans_lt ?_
          have hpayload := Nat.mod_lt b.toNat (by norm_num : 0 < 128)
          rw [pow_add]
          nlinarith
        obtain ⟨read, rfl, hlength, hn⟩ := ih hnext (Nat.mod_lt _ (by positivity)) h
        refine ⟨b :: read, rfl, Nat.succ_le_succ hlength, ?_⟩
        rw [hn, hmod, payloadSum_cons, pow_add]
        congr 1
        ring

end Payloads

end SkeinDB.Codec.Leb128
