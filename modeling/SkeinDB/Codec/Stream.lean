import SkeinDB.Codec.LittleEndian

/-!
# Self-delimiting records and torn tails

A stream codec writes each valid record as a non-empty run of bytes that its
decoder recognises whatever follows, and whose strict prefixes the decoder
rejects. A file of such records cut at any byte scans back to exactly the records
it contains whole; the bytes after the last of them are the torn tail.
-/
namespace SkeinDB.Codec

/-- A record format whose encodings of valid records delimit themselves. -/
structure StreamCodec (α ε : Type*) where
  Valid : α → Prop
  encode : α → Bytes
  decode : Bytes → Except ε (α × Bytes)
  encode_pos : ∀ a, Valid a → 0 < (encode a).length
  decode_encode : ∀ a rest, Valid a → decode (encode a ++ rest) = .ok (a, rest)
  decode_torn : ∀ a n, Valid a → n < (encode a).length →
    ∃ e, decode ((encode a).take n) = .error e

/-- What a scan found: the records, the bytes they take, and the error that stopped it. -/
structure Scanned (α ε : Type*) where
  records : List α
  validBytes : ℕ
  stopped : Option ε

/-- Decode records from the front until the bytes run out or a decode fails. Every
success consumes at least one byte, so `bytes.length` rounds are enough. -/
def scanLoop {α ε : Type*} (decode : Bytes → Except ε (α × Bytes)) : ℕ → Bytes → Scanned α ε
  | 0, _ => ⟨[], 0, none⟩
  | fuel + 1, bytes =>
    if bytes = [] then ⟨[], 0, none⟩
    else match decode bytes with
      | .error e => ⟨[], 0, some e⟩
      | .ok (a, rest) =>
        let tail := scanLoop decode fuel rest
        ⟨a :: tail.records, (bytes.length - rest.length) + tail.validBytes, tail.stopped⟩

@[simp] theorem scanLoop_nil {α ε : Type*} (decode : Bytes → Except ε (α × Bytes)) (fuel : ℕ) :
    scanLoop decode fuel [] = ⟨[], 0, none⟩ := by
  cases fuel <;> simp [scanLoop]

namespace StreamCodec
variable {α ε : Type*} (c : StreamCodec α ε)

def encodeAll (as : List α) : Bytes := as.flatMap c.encode

def scan (bytes : Bytes) : Scanned α ε := scanLoop c.decode bytes.length bytes

/-- The records whose encodings lie wholly within the first `n` bytes of the stream. -/
def contained : List α → ℕ → List α
  | [], _ => []
  | a :: as, n =>
    if (c.encode a).length ≤ n then a :: contained as (n - (c.encode a).length) else []

@[simp] theorem encodeAll_nil : c.encodeAll [] = [] := rfl

@[simp] theorem encodeAll_cons (a : α) (as : List α) :
    c.encodeAll (a :: as) = c.encode a ++ c.encodeAll as := rfl

theorem encodeAll_append (as bs : List α) :
    c.encodeAll (as ++ bs) = c.encodeAll as ++ c.encodeAll bs := by
  simp [encodeAll]

/-- The contained records are an initial run of the stream. -/
theorem contained_isPrefix (as : List α) (n : ℕ) : c.contained as n <+: as := by
  induction as generalizing n with
  | nil => simp [contained]
  | cons a as ih =>
    rw [contained]
    split
    · exact List.cons_prefix_cons.mpr ⟨rfl, ih _⟩
    · exact List.nil_prefix

variable {c}

theorem length_le_encodeAll {as : List α} (hv : ∀ a ∈ as, c.Valid a) :
    as.length ≤ (c.encodeAll as).length := by
  induction as with
  | nil => simp
  | cons a as ih =>
    have hpos := c.encode_pos a (hv a (by simp))
    have htail := ih (fun b hb => hv b (by simp [hb]))
    rw [encodeAll_cons, List.length_append, List.length_cons]
    omega

/-- A whole stream followed by other bytes scans to its records and then those bytes. -/
theorem scanLoop_encodeAll {as : List α} (hv : ∀ a ∈ as, c.Valid a) (tail : Bytes) (fuel : ℕ)
    (hfuel : (c.encodeAll as ++ tail).length ≤ fuel) :
    scanLoop c.decode fuel (c.encodeAll as ++ tail) =
      let rest := scanLoop c.decode (fuel - as.length) tail
      ⟨as ++ rest.records, (c.encodeAll as).length + rest.validBytes, rest.stopped⟩ := by
  induction as generalizing fuel with
  | nil => simp
  | cons a as ih =>
    have hpos := c.encode_pos a (hv a (by simp))
    rw [encodeAll_cons, List.append_assoc] at hfuel ⊢
    simp only [List.length_append] at hfuel
    obtain ⟨fuel, rfl⟩ : ∃ k, fuel = k + 1 := ⟨fuel - 1, by omega⟩
    have hne : c.encode a ++ (c.encodeAll as ++ tail) ≠ [] := by
      intro h
      have := congrArg List.length h
      simp only [List.length_append, List.length_nil] at this
      omega
    rw [scanLoop, if_neg hne, c.decode_encode _ _ (hv a (by simp))]
    simp only
    rw [ih (fun b hb => hv b (by simp [hb])) fuel (by simp only [List.length_append]; omega)]
    simp only [List.length_append, List.length_cons, Nat.add_sub_add_right, List.cons_append,
      Scanned.mk.injEq, true_and, and_true]
    omega

/-- The cut stream is its contained records followed by a strict prefix of the next one. -/
theorem take_encodeAll (as : List α) (n : ℕ) :
    ∃ tail, (c.encodeAll as).take n = c.encodeAll (c.contained as n) ++ tail ∧
      (tail = [] ∨ ∃ a m, a ∈ as ∧ 0 < m ∧ m < (c.encode a).length ∧
        tail = (c.encode a).take m) := by
  induction as generalizing n with
  | nil => exact ⟨[], by simp [contained], .inl rfl⟩
  | cons a as ih =>
    rw [contained]
    split
    · rename_i hle
      obtain ⟨tail, htake, htail⟩ := ih (n - (c.encode a).length)
      refine ⟨tail, ?_, ?_⟩
      · rw [encodeAll_cons, encodeAll_cons, List.take_append, List.take_of_length_le hle, htake,
          List.append_assoc]
      · rcases htail with h | ⟨b, m, hb, h⟩
        · exact .inl h
        · exact .inr ⟨b, m, by simp [hb], h⟩
    · rename_i hlt
      have htake : (c.encodeAll (a :: as)).take n = (c.encode a).take n := by
        rw [encodeAll_cons, List.take_append_of_le_length (by omega)]
      rcases Nat.eq_zero_or_pos n with h0 | h0
      · exact ⟨[], by simp [h0], .inl rfl⟩
      · exact ⟨(c.encode a).take n, by rw [htake, encodeAll_nil, List.nil_append],
          .inr ⟨a, n, by simp, h0, by omega, rfl⟩⟩

/-- Scanning a strict prefix of one record finds nothing and stops with an error. -/
theorem scanLoop_torn {a : α} (hv : c.Valid a) {m fuel : ℕ} (hm : 0 < m)
    (hlt : m < (c.encode a).length) (hfuel : 0 < fuel) :
    ∃ e, scanLoop c.decode fuel ((c.encode a).take m) = ⟨[], 0, some e⟩ := by
  obtain ⟨fuel, rfl⟩ : ∃ k, fuel = k + 1 := ⟨fuel - 1, by omega⟩
  obtain ⟨e, he⟩ := c.decode_torn a m hv hlt
  have hne : (c.encode a).take m ≠ [] := by
    intro h
    have := congrArg List.length h
    rw [List.length_take, List.length_nil] at this
    omega
  exact ⟨e, by rw [scanLoop, if_neg hne, he]⟩

/-- Torn-tail scan: a stream cut at any byte scans to its contained records, the valid
bytes are exactly theirs, and the scan stops with an error unless the cut is between records. -/
theorem scan_take {as : List α} (hv : ∀ a ∈ as, c.Valid a) {n : ℕ}
    (hn : n ≤ (c.encodeAll as).length) :
    let kept := c.contained as n
    let found := c.scan ((c.encodeAll as).take n)
    found.records = kept ∧ found.validBytes = (c.encodeAll kept).length ∧
      (found.stopped = none ↔ (c.encodeAll kept).length = n) := by
  obtain ⟨tail, htake, htail⟩ := c.take_encodeAll as n
  have hkept : ∀ a ∈ c.contained as n, c.Valid a :=
    fun a ha => hv a ((c.contained_isPrefix as n).subset ha)
  have hlen := congrArg List.length htake
  rw [List.length_take, Nat.min_eq_left hn, List.length_append] at hlen
  simp only
  rw [htake, scan, scanLoop_encodeAll hkept tail _ le_rfl]
  rcases htail with rfl | ⟨a, m, ha, hm, hlt, rfl⟩
  · simp only [scanLoop_nil, List.append_nil, Nat.add_zero, true_and, true_iff]
    simpa using hlen.symm
  · have hmlen : ((c.encode a).take m).length = m := by
      rw [List.length_take]
      omega
    have hfuel : 0 < (c.encodeAll (c.contained as n) ++ (c.encode a).take m).length -
        (c.contained as n).length := by
      have := length_le_encodeAll hkept
      rw [List.length_append, hmlen]
      omega
    obtain ⟨e, he⟩ := scanLoop_torn (hv a ha) hm hlt hfuel
    simp only [he, List.append_nil, Nat.add_zero, true_and, reduceCtorEq, false_iff]
    omega

/-- Scanning a whole stream returns every record and stops at its end. -/
theorem scan_encodeAll {as : List α} (hv : ∀ a ∈ as, c.Valid a) :
    c.scan (c.encodeAll as) = ⟨as, (c.encodeAll as).length, none⟩ := by
  have h := scanLoop_encodeAll hv [] (c.encodeAll as).length (by simp)
  rw [List.append_nil] at h
  rw [scan, h]
  simp

end StreamCodec

end SkeinDB.Codec
