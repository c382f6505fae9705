import SkeinDB.Codec.LittleEndian

/-!
# Buffers

A buffer of a fixed length is filled by writes at offsets. Writes that go upwards do not touch each
other: every area of the buffer that one of them has filled reads as what it wrote.
-/
namespace SkeinDB.Codec

/-- `buf[offset..offset + bytes.len()].copy_from_slice(bytes)` -/
def writeAt (buf : Bytes) (offset : ℕ) (bytes : Bytes) : Bytes :=
  buf.take offset ++ bytes ++ buf.drop (offset + bytes.length)

/-- `buf[offset..offset + len]` -/
def area (buf : Bytes) (offset len : ℕ) : Bytes := (buf.drop offset).take len

/-- The writes of a list, the first one first. -/
def writeAll (buf : Bytes) : List (ℕ × Bytes) → Bytes
  | [] => buf
  | (offset, bytes) :: writes => writeAll (writeAt buf offset bytes) writes

/-- The writes go upwards, from one offset to another. -/
def Upwards : (lo hi : ℕ) → List (ℕ × Bytes) → Prop
  | lo, hi, [] => lo ≤ hi
  | lo, hi, (offset, bytes) :: writes => lo ≤ offset ∧ Upwards (offset + bytes.length) hi writes

section Writes
variable {buf bytes : Bytes} {offset offset' len lo mid hi : ℕ} {writes more : List (ℕ × Bytes)}

theorem writeAt_length (h : offset + bytes.length ≤ buf.length) :
    (writeAt buf offset bytes).length = buf.length := by
  rw [writeAt, List.length_append, List.length_append, List.length_take, List.length_drop]
  omega

theorem area_writeAt_same (h : offset + bytes.length ≤ buf.length) :
    area (writeAt buf offset bytes) offset bytes.length = bytes := by
  have hfront : (buf.take offset).length = offset := List.length_take_of_le (by omega)
  rw [area, writeAt, List.append_assoc, List.drop_left' hfront, List.take_left' rfl]

theorem area_writeAt_below (h : offset + bytes.length ≤ buf.length)
    (hbelow : offset' + len ≤ offset) :
    area (writeAt buf offset bytes) offset' len = area buf offset' len := by
  have hfront : (buf.take offset).length = offset := List.length_take_of_le (by omega)
  rw [area, area, writeAt, List.append_assoc, List.drop_append_of_le_length (by omega),
    List.take_append_of_le_length (by rw [List.length_drop]; omega), List.drop_take,
    List.take_take, Nat.min_eq_left (by omega)]

theorem Upwards.le (h : Upwards lo hi writes) : lo ≤ hi := by
  induction writes generalizing lo with
  | nil => exact h
  | cons write writes ih =>
    have := ih h.2
    have := h.1
    omega

theorem Upwards.append (h : Upwards lo mid writes) (h' : Upwards mid hi more) :
    Upwards lo hi (writes ++ more) := by
  induction writes generalizing lo with
  | nil =>
    rcases more with _ | ⟨⟨offset, bytes⟩, more⟩
    · exact le_trans h h'
    · exact ⟨le_trans h h'.1, h'.2⟩
  | cons write writes ih => exact ⟨h.1, ih h.2⟩

theorem writeAll_length (h : Upwards lo hi writes) (hhi : hi ≤ buf.length) :
    (writeAll buf writes).length = buf.length := by
  induction writes generalizing buf lo with
  | nil => rfl
  | cons write writes ih =>
    have hle := h.2.le
    have hlength : (writeAt buf write.1 write.2).length = buf.length :=
      writeAt_length (hle.trans hhi)
    rw [writeAll, ih h.2 (hlength ▸ hhi), hlength]

theorem writeAll_below (h : Upwards lo hi writes) (hhi : hi ≤ buf.length)
    (hbelow : offset + len ≤ lo) : area (writeAll buf writes) offset len = area buf offset len := by
  induction writes generalizing buf lo with
  | nil => rfl
  | cons write writes ih =>
    obtain ⟨hlo, hrest⟩ := h
    have hle := hrest.le
    rw [writeAll, ih hrest (by rw [writeAt_length (hle.trans hhi)]; exact hhi) (by omega),
      area_writeAt_below (hle.trans hhi) (by omega)]

/-- What a write left is there in the end. -/
theorem writeAll_mem (h : Upwards lo hi writes) (hhi : hi ≤ buf.length)
    (hmem : (offset, bytes) ∈ writes) : area (writeAll buf writes) offset bytes.length = bytes := by
  induction writes generalizing buf lo with
  | nil => cases hmem
  | cons write writes ih =>
    obtain ⟨hlo, hrest⟩ := h
    have hle := hrest.le
    have hlength : (writeAt buf write.1 write.2).length = buf.length :=
      writeAt_length (hle.trans hhi)
    rcases List.mem_cons.mp hmem with rfl | hmem
    · rw [writeAll, writeAll_below hrest (hlength ▸ hhi) le_rfl,
        area_writeAt_same (hle.trans hhi)]
    · exact ih hrest (hlength ▸ hhi) hmem

theorem Upwards.mem_le (h : Upwards lo hi writes) (hmem : (offset, bytes) ∈ writes) :
    lo ≤ offset ∧ offset + bytes.length ≤ hi := by
  induction writes generalizing lo with
  | nil => cases hmem
  | cons write writes ih =>
    rcases List.mem_cons.mp hmem with rfl | hmem
    · exact ⟨h.1, h.2.le⟩
    · have := ih h.2 hmem
      have := h.1
      exact ⟨by omega, by omega⟩

end Writes

end SkeinDB.Codec
