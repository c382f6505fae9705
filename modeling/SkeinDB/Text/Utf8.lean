import SkeinDB.Codec.LittleEndian

/-!
# Characters as bytes

The UTF-8 form of a list of characters. A byte below 128 is a character of its own, every other
character has several bytes from 128 on, and only the first byte of a character can begin one.
-/
namespace SkeinDB.Text
open SkeinDB.Codec

def utf8 (chars : List Char) : Bytes := chars.flatMap String.utf8EncodeChar

@[simp] theorem utf8_nil : utf8 [] = [] := rfl

@[simp] theorem utf8_cons (c : Char) (chars : List Char) :
    utf8 (c :: chars) = String.utf8EncodeChar c ++ utf8 chars := rfl

@[simp] theorem utf8_append (chars more : List Char) :
    utf8 (chars ++ more) = utf8 chars ++ utf8 more := List.flatMap_append

/-- `String::from_utf8`. -/
def fromUtf8 (bytes : Bytes) : Option (List Char) :=
  bytes.toByteArray.utf8Decode?.map Array.toList

theorem fromUtf8_utf8 (chars : List Char) : fromUtf8 (utf8 chars) = some chars := by
  have hencode : (utf8 chars).toByteArray = chars.utf8Encode := rfl
  rw [fromUtf8, hencode, List.utf8Decode?_utf8Encode]
  simp

/-- A character with a single byte. -/
def Ascii (c : Char) : Prop := c.toNat < 128

instance (c : Char) : Decidable (Ascii c) := inferInstanceAs (Decidable (_ < _))

section Bytes
variable {c d : Char} {b : UInt8}

theorem utf8Size_eq_one : c.utf8Size = 1 ↔ Ascii c := by
  rw [Char.utf8Size_eq_one_iff, UInt32.le_iff_toNat_le]
  exact Nat.lt_succ_iff.symm

theorem utf8EncodeChar_ascii (h : Ascii c) : String.utf8EncodeChar c = [UInt8.ofNat c.toNat] :=
  String.utf8EncodeChar_eq_singleton (utf8Size_eq_one.mpr h)

/-- The bytes of a character that has several of them. -/
theorem le_of_mem_utf8EncodeChar (h : ¬ Ascii c) (hb : b ∈ String.utf8EncodeChar c) :
    128 ≤ b.toNat := by
  have hor : ∀ (b : UInt8) (k : ℕ), k < 256 → 128 ≤ k → 128 ≤ (b ||| UInt8.ofNat k).toNat := by
    intro b k hk hle
    rw [UInt8.toNat_or, UInt8.toNat_ofNat', Nat.mod_eq_of_lt hk]
    exact hle.trans Nat.right_le_or
  rw [← utf8Size_eq_one] at h
  have hpos := c.utf8Size_pos
  have hle := c.utf8Size_le_four
  obtain h2 | h3 | h4 : c.utf8Size = 2 ∨ c.utf8Size = 3 ∨ c.utf8Size = 4 := by omega
  · rw [String.utf8EncodeChar_eq_cons_cons h2] at hb
    simp only [List.mem_cons, List.not_mem_nil, or_false] at hb
    rcases hb with rfl | rfl
    · exact hor _ 0xc0 (by decide) (by decide)
    · exact hor _ 0x80 (by decide) (by decide)
  · rw [String.utf8EncodeChar_eq_cons_cons_cons h3] at hb
    simp only [List.mem_cons, List.not_mem_nil, or_false] at hb
    rcases hb with rfl | rfl | rfl
    · exact hor _ 0xe0 (by decide) (by decide)
    · exact hor _ 0x80 (by decide) (by decide)
    · exact hor _ 0x80 (by decide) (by decide)
  · rw [String.utf8EncodeChar_eq_cons_cons_cons_cons h4] at hb
    simp only [List.mem_cons, List.not_mem_nil, or_false] at hb
    rcases hb with rfl | rfl | rfl | rfl
    · exact hor _ 0xf0 (by decide) (by decide)
    · exact hor _ 0x80 (by decide) (by decide)
    · exact hor _ 0x80 (by decide) (by decide)
    · exact hor _ 0x80 (by decide) (by decide)

/-- A byte below 128 stands for its own character only. -/
theorem eq_of_mem_utf8EncodeChar (hd : Ascii d)
    (hb : UInt8.ofNat d.toNat ∈ String.utf8EncodeChar c) : c = d := by
  unfold Ascii at hd
  by_cases hc : Ascii c
  · rw [utf8EncodeChar_ascii hc, List.mem_singleton] at hb
    have hnat := congrArg UInt8.toNat hb
    unfold Ascii at hc
    rw [UInt8.toNat_ofNat', UInt8.toNat_ofNat', Nat.mod_eq_of_lt (by omega),
      Nat.mod_eq_of_lt (by omega)] at hnat
    exact Char.toNat_inj.mp hnat.symm
  · have hle := le_of_mem_utf8EncodeChar hc hb
    rw [UInt8.toNat_ofNat', Nat.mod_eq_of_lt (by omega)] at hle
    omega

theorem mem_utf8_ascii (hd : Ascii d) {chars : List Char} :
    UInt8.ofNat d.toNat ∈ utf8 chars ↔ d ∈ chars := by
  rw [utf8, List.mem_flatMap]
  constructor
  · rintro ⟨c, hc, hb⟩
    rwa [← eq_of_mem_utf8EncodeChar hd hb]
  · intro h
    exact ⟨d, h, by rw [utf8EncodeChar_ascii hd]; simp⟩

end Bytes

section Lengths

/-- There are as many bytes as characters if every character is a byte, and more otherwise. -/
theorem length_le_utf8 (chars : List Char) : chars.length ≤ (utf8 chars).length := by
  induction chars with
  | nil => rfl
  | cons c chars ih =>
    rw [utf8_cons, List.length_append, String.length_utf8EncodeChar, List.length_cons]
    have := c.utf8Size_pos
    omega

theorem utf8_length_eq_iff {chars : List Char} :
    (utf8 chars).length = chars.length ↔ ∀ c ∈ chars, Ascii c := by
  induction chars with
  | nil => simp
  | cons c chars ih =>
    have hpos := c.utf8Size_pos
    have hle := length_le_utf8 chars
    rw [utf8_cons, List.length_append, String.length_utf8EncodeChar, List.length_cons,
      List.forall_mem_cons, ← ih, ← utf8Size_eq_one]
    omega

end Lengths

section Boundaries

/-- A byte in the middle of a character. -/
def Continues (b : UInt8) : Prop := ¬ b.IsUTF8FirstByte

/-- The first byte of a character begins it and the others continue it. -/
theorem utf8EncodeChar_cons (c : Char) : ∃ b bytes, String.utf8EncodeChar c = b :: bytes ∧
    ¬ Continues b ∧ ∀ b' ∈ bytes, Continues b' := by
  rcases h : String.utf8EncodeChar c with _ | ⟨b, bytes⟩
  · exact absurd h String.utf8EncodeChar_ne_nil
  · refine ⟨b, bytes, rfl, ?_, fun b' hb' => ?_⟩
    · have hfirst := UInt8.isUTF8FirstByte_getElem_zero_utf8EncodeChar (c := c)
      simp only [h, List.getElem_cons_zero] at hfirst
      exact not_not.mpr hfirst
    · obtain ⟨i, hi, rfl⟩ := List.getElem_of_mem hb'
      have hnext := @UInt8.isUTF8FirstByte_getElem_utf8EncodeChar c (i + 1)
        (by rw [h]; simpa using hi)
      simp only [h, List.getElem_cons_succ, Nat.add_eq_zero_iff, one_ne_zero, and_false,
        iff_false] at hnext
      exact hnext

/-- The first character of a text is told by its bytes. -/
theorem utf8_head_eq {c : Char} {rest : Bytes} {chars : List Char}
    (h : String.utf8EncodeChar c ++ rest = utf8 chars) :
    ∃ more, chars = c :: more ∧ rest = utf8 more := by
  rcases chars with _ | ⟨d, more⟩
  · exact absurd (List.append_eq_nil_iff.mp h).1 String.utf8EncodeChar_ne_nil
  · rw [utf8_cons] at h
    have hdecode : ∀ (c : Char) (rest : Bytes), ByteArray.utf8DecodeChar?
        ((String.utf8EncodeChar c ++ rest).toByteArray) 0 = some c := by
      intro c rest
      rw [List.toByteArray_append]
      exact ByteArray.utf8DecodeChar?_utf8EncodeChar_append
    have hc := hdecode c rest
    rw [h, hdecode d] at hc
    obtain rfl := Option.some.inj hc
    exact ⟨more, rfl, List.append_cancel_left h⟩

/-- The bytes of a text from some byte on: the rest of a character that is cut, and the characters
behind it. -/
theorem utf8_suffix {chars : List Char} {bytes : Bytes} (h : bytes <:+ utf8 chars) :
    ∃ cut more, bytes = cut ++ utf8 more ∧ (∀ b ∈ cut, Continues b) ∧ more <:+ chars := by
  induction chars generalizing bytes with
  | nil =>
    rw [utf8_nil, List.suffix_nil] at h
    exact ⟨[], [], h, by simp, List.suffix_refl _⟩
  | cons c chars ih =>
    obtain ⟨b, tail, hencode, -, htail⟩ := utf8EncodeChar_cons c
    obtain ⟨skip, hskip⟩ := h
    rw [utf8_cons, List.append_eq_append_iff] at hskip
    rcases hskip with ⟨cut, hcut, rfl⟩ | ⟨skip', -, hrest⟩
    · rcases skip with _ | ⟨b', skip⟩
      · rw [List.nil_append] at hcut
        exact ⟨[], c :: chars, by rw [← hcut]; rfl, by simp, List.suffix_refl _⟩
      · rw [hencode, List.cons_append, List.cons.injEq] at hcut
        refine ⟨cut, chars, rfl, fun b hb => htail b ?_, List.suffix_cons c chars⟩
        rw [hcut.2]
        exact List.mem_append_right _ hb
    · obtain ⟨cut, more, hbytes, hcut, hmore⟩ := ih ⟨skip', hrest.symm⟩
      exact ⟨cut, more, hbytes, hcut, hmore.trans (List.suffix_cons c chars)⟩

end Boundaries

end SkeinDB.Text
