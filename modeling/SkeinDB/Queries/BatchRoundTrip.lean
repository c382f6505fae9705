import SkeinDB.Queries.WasmBatch

/-!
# Batches as they are encoded

What `encode_wasm_batch_v1` writes is found again: the areas of the columns go upwards behind the
header, so that every field and every area reads as it was written, and the rows of a column come
back from its bytes, its offsets and its bitmap.
-/
namespace SkeinDB.Queries
open SkeinDB.Codec SkeinDB.Format SkeinDB.Tables SkeinDB.Text Checked

section Areas
variable {bytes : Bytes} {offset len n : ℕ} {writes more : List (ℕ × Bytes)}

/-- The buffer has what was written in place. -/
def Holds (bytes : Bytes) (writes : List (ℕ × Bytes)) : Prop :=
  ∀ write ∈ writes, area bytes write.1 write.2.length = write.2 ∧
    write.1 + write.2.length ≤ bytes.length

theorem Holds.of_append (h : Holds bytes (writes ++ more)) :
    Holds bytes writes ∧ Holds bytes more :=
  ⟨fun write hw => h write (List.mem_append_left _ hw),
    fun write hw => h write (List.mem_append_right _ hw)⟩

theorem holds_writeAll {buf : Bytes} {lo hi : ℕ} (h : Upwards lo hi writes)
    (hhi : hi ≤ buf.length) : Holds (writeAll buf writes) writes := by
  rintro ⟨offset, bytes⟩ hmem
  refine ⟨writeAll_mem h hhi hmem, ?_⟩
  rw [writeAll_length h hhi]
  exact (h.mem_le hmem).2.trans hhi

theorem slice_area (h : offset + len ≤ bytes.length) :
    slice (ε := String) bytes offset (offset + len) = .ok (area bytes offset len) := by
  rw [slice_eq ⟨Nat.le_add_right _ _, h⟩, area, List.drop_take, Nat.add_sub_cancel_left]

theorem saturatingAdd_eq {a b : ℕ} (h : a + b < 2 ^ 64) : saturatingAdd a b = a + b := by
  rw [saturatingAdd, Nat.min_eq_left (by omega)]

theorem saturatingMulUsize_eq {a b : ℕ} (h : a * b < 2 ^ 64) : saturatingMulUsize a b = a * b := by
  rw [saturatingMulUsize, Nat.min_eq_left (by omega)]

/-- A number reads as it was written. -/
theorem readUintLe_eq {size : ℕ} (hbytes : bytes.length < 2 ^ 64) (hn : n < 256 ^ size)
    (h : Holds bytes [(offset, leBytes size n)]) : readUintLe size bytes offset = .ok n := by
  obtain ⟨harea, hle⟩ := h _ List.mem_cons_self
  rw [leBytes_length] at harea hle
  dsimp only at hle
  rw [readUintLe, saturatingAdd_eq (by omega), if_neg (by omega), slice_area hle, harea]
  simp only [bind, Except.bind, leNat_leBytes size n hn]
  rfl

theorem optionalArea_eq (hbytes : bytes.length < 2 ^ 64) {piece : Bytes} (hoffset : 0 < offset)
    (hpiece : piece ≠ []) (h : Holds bytes (areaWrites offset piece.length (some piece)))
    (beyond : String) : optionalArea bytes offset piece.length beyond = .ok (some piece) := by
  have hpos := List.length_pos_of_ne_nil hpiece
  rw [areaWrites, if_pos hpos] at h
  obtain ⟨harea, hle⟩ := h _ List.mem_cons_self
  dsimp only at harea hle
  rw [optionalArea, if_neg (by omega), saturatingAdd_eq (by omega), if_neg (by omega),
    slice_area hle, harea]
  rfl

end Areas

section Nulls
variable {rows : List (List Lit)} {colIdx rowIdx cursor : ℕ} {nulls : Bytes}

/-- The values of a column. -/
def columnOf (rows : List (List Lit)) (colIdx : ℕ) : List Lit :=
  rows.map fun row => row.getD colIdx .null

/-- The rows that have a value in a column. -/
def present (rows : List (List Lit)) (colIdx : ℕ) : List Bool :=
  (columnOf rows colIdx).map fun lit => !lit.isNull

theorem wasmSetBit_eq (h : rowIdx < 8 * nulls.length) :
    wasmSetBit nulls rowIdx = setBit nulls rowIdx := by
  rw [wasmSetBit, if_neg (by rintro rfl; simp at h), if_pos (by omega)]

theorem getD_of_getElem? {row : List Lit} {lit : Lit} (h : row[colIdx]? = some lit) :
    row.getD colIdx .null = lit := by
  rw [List.getD_eq_getElem?_getD, h]
  rfl

variable {fmt : BatchFormats} {tag : WasmBatchTypeTag} {width : ℕ} {out : ColumnBytes}

/-- The bitmap has a bit for every row with a value, and some row is null if there is one without. -/
theorem fixedColumn_nulls (h : fixedColumn fmt tag width colIdx rowIdx nulls rows = .ok out)
    (hroom : rowIdx + rows.length ≤ 8 * nulls.length) :
    out.nulls = setFlags nulls rowIdx (present rows colIdx) ∧
      out.hasNull = (present rows colIdx).any (!·) := by
  induction rows generalizing rowIdx nulls out with
  | nil =>
    obtain rfl := Except.ok.inj h
    exact ⟨rfl, rfl⟩
  | cons row rows ih =>
    rw [List.length_cons] at hroom
    rw [fixedColumn] at h
    rcases hlit : row[colIdx]? with _ | lit
    · rw [hlit] at h
      cases h
    have hvalue := getD_of_getElem? hlit
    rw [hlit] at h
    simp only at h
    rw [present, columnOf, List.map_cons, List.map_cons, setFlags, hvalue, List.any_cons]
    split_ifs at h with hnull
    · obtain ⟨rest, hrest, h⟩ := bind_eq_ok h
      obtain rfl := Except.ok.inj h
      obtain ⟨hnulls, -⟩ := ih hrest (by omega)
      rw [hnull]
      exact ⟨hnulls, rfl⟩
    · cases hbytes : fixedBytes fmt tag lit with
      | none =>
        rw [hbytes] at h
        cases h
      | some bytes =>
        rw [hbytes] at h
        obtain ⟨rest, hrest, h⟩ := bind_eq_ok h
        obtain rfl := Except.ok.inj h
        rw [wasmSetBit_eq (by omega)] at hrest
        obtain ⟨hnulls, hany⟩ := ih hrest (by rw [setBit_length]; omega)
        rw [Bool.eq_false_iff.mpr hnull]
        exact ⟨hnulls, hany⟩

theorem varColumn_nulls (h : varColumn fmt tag colIdx rowIdx cursor nulls rows = .ok out)
    (hroom : rowIdx + rows.length ≤ 8 * nulls.length) :
    out.nulls = setFlags nulls rowIdx (present rows colIdx) ∧
      out.hasNull = (present rows colIdx).any (!·) := by
  induction rows generalizing rowIdx cursor nulls out with
  | nil =>
    obtain rfl := Except.ok.inj h
    exact ⟨rfl, rfl⟩
  | cons row rows ih =>
    rw [List.length_cons] at hroom
    rw [varColumn] at h
    rcases hlit : row[colIdx]? with _ | lit
    · rw [hlit] at h
      cases h
    have hvalue := getD_of_getElem? hlit
    rw [hlit] at h
    simp only at h
    rw [present, columnOf, List.map_cons, List.map_cons, setFlags, hvalue, List.any_cons]
    split_ifs at h with hnull hlarge
    · obtain ⟨rest, hrest, h⟩ := bind_eq_ok h
      obtain rfl := Except.ok.inj h
      obtain ⟨hnulls, -⟩ := ih hrest (by omega)
      rw [hnull]
      exact ⟨hnulls, rfl⟩
    · obtain ⟨bytes, -, h⟩ := bind_eq_ok h
      split_ifs at h with hlarge
      obtain ⟨rest, hrest, h⟩ := bind_eq_ok h
      obtain rfl := Except.ok.inj h
      rw [wasmSetBit_eq (by omega)] at hrest
      obtain ⟨hnulls, hany⟩ := ih hrest (by rw [setBit_length]; omega)
      rw [Bool.eq_false_iff.mpr hnull]
      exact ⟨hnulls, hany⟩

theorem wasmNullBitmapLen_eq (count : ℕ) : wasmNullBitmapLen count = bitmapLen count := by
  rw [wasmNullBitmapLen]
  split_ifs with hzero
  · rw [hzero]
    rfl
  · rfl

theorem wasmIsNonNull_eq {bits : Bytes} (h : bits ≠ []) (i : ℕ) :
    wasmIsNonNull (some bits) i = .ok (bitAt bits i) := by
  rw [wasmIsNonNull, if_neg h, bitAt]
  split_ifs with hend
  · rw [List.getElem?_eq_none hend]
  · have hbyte := List.getElem?_eq_getElem (not_le.mp hend)
    rw [itemAt_eq hbyte, hbyte]
    rfl

@[simp] theorem present_length (rows : List (List Lit)) (colIdx : ℕ) :
    (present rows colIdx).length = rows.length := by
  rw [present, columnOf, List.length_map, List.length_map]

/-- The bitmap of a column tells its nulls, and so does its absence. -/
theorem wasmIsNonNull_column {out : ColumnBytes}
    (hnulls : out.nulls =
      setFlags (List.replicate (wasmNullBitmapLen rows.length) 0) 0 (present rows colIdx))
    (hany : out.hasNull = (present rows colIdx).any (!·)) {i : ℕ} (hi : i < rows.length) :
    wasmIsNonNull (if out.hasNull then some out.nulls else none) i =
      .ok ((present rows colIdx).getD i false) := by
  have hbitmap : out.nulls = bitmapOf (present rows colIdx) := by
    rw [hnulls, bitmapOf, wasmNullBitmapLen_eq, present_length]
  cases hnull : out.hasNull with
  | true =>
    have hne : out.nulls ≠ [] := by
      refine List.ne_nil_of_length_pos ?_
      rw [hbitmap, bitmapOf_length, present_length, bitmapLen]
      omega
    rw [if_pos rfl, wasmIsNonNull_eq hne, hbitmap, bitAt_bitmapOf]
  | false =>
    rw [hnull, eq_comm, List.any_eq_false] at hany
    have hi' : i < (present rows colIdx).length := by rwa [present_length]
    have hpresent := hany _ (List.getElem_mem hi')
    rw [List.getD_eq_getElem?_getD, List.getElem?_eq_getElem hi', Option.getD_some]
    rw [Bool.not_eq_true, Bool.not_eq_false'] at hpresent
    rw [hpresent]
    rfl

end Nulls

section Columns
variable {fmt : BatchFormats} {tag : WasmBatchTypeTag} {width colIdx rowIdx : ℕ}
  {rows : List (List Lit)} {nulls : Bytes} {out : ColumnBytes}

/-- A value of its type: integers are in range, the bits of a float give it back, and bytes are in
canonical base64. -/
def BatchFormats.Keeps (fmt : BatchFormats) : Lit → Prop
  | .i64 v => -2 ^ 63 ≤ v ∧ v < 2 ^ 63
  | .u64 v => v < 2 ^ 64
  | .f64 v => fmt.ofBits (fmt.toBits v) = v
  | .bytes b64 => ∀ bytes, fmt.decodeBase64 b64 = some bytes → fmt.encodeBase64 bytes = b64
  | _ => True

theorem fixedLit_fixedBytes (hwidth : tag.fixedSizeBytes = some width) {lit : Lit} {bytes : Bytes}
    (h : fixedBytes fmt tag lit = some bytes) (hkeeps : fmt.Keeps lit) :
    fixedLit fmt tag bytes = .ok lit ∧ bytes.length = width := by
  cases tag with
  | bool =>
    cases lit <;> cases h
    case bool v =>
      obtain rfl := Option.some.inj hwidth
      exact ⟨by cases v <;> rfl, rfl⟩
  | i64 =>
    cases lit <;> cases h
    case i64 v =>
      obtain rfl := Option.some.inj hwidth
      obtain ⟨hlo, hhi⟩ := hkeeps
      have hlt : (v % 2 ^ 64).toNat < 256 ^ 8 := by omega
      refine ⟨?_, leBytes_length _ _⟩
      rw [fixedLit, leNat_leBytes _ _ hlt]
      refine congrArg (Except.ok ∘ Lit.i64) ?_
      omega
  | u64 =>
    cases lit <;> cases h
    case u64 v =>
      obtain rfl := Option.some.inj hwidth
      have hlt : v < 256 ^ 8 := lt_of_lt_of_eq hkeeps (by norm_num)
      exact ⟨by rw [fixedLit, leNat_leBytes _ _ hlt], leBytes_length _ _⟩
  | f64 =>
    cases lit <;> cases h
    case f64 v =>
      obtain rfl := Option.some.inj hwidth
      have hlt : (fmt.toBits v).toNat < 256 ^ 8 := (fmt.toBits v).toNat_lt
      refine ⟨?_, leBytes_length _ _⟩
      rw [fixedLit, leNat_leBytes _ _ hlt, UInt64.ofNat_toNat, show fmt.ofBits _ = v from hkeeps]
  | str => cases hwidth
  | bytes => cases hwidth

theorem varLit_varBytes {lit : Lit} {bytes : Bytes} (h : varBytes fmt tag lit = .ok bytes)
    (hkeeps : fmt.Keeps lit) : varLit fmt tag bytes = .ok lit := by
  cases tag <;> cases lit <;> try cases h
  case str.str v =>
    rw [varLit, fromUtf8_utf8]
    exact congrArg (Except.ok ∘ Lit.str) String.ofList_toList
  case bytes.bytes b64 =>
    rw [varBytes] at h
    cases hdecode : fmt.decodeBase64 b64 with
    | none =>
      rw [hdecode] at h
      cases h
    | some decoded =>
      rw [hdecode] at h
      obtain rfl := Except.ok.inj h
      rw [varLit, hkeeps decoded hdecode]

section Fixed
variable {bitmap : Option Bytes} {front bytes tail : Bytes} {count : ℕ} {lit : Lit} {rest : List Lit}

theorem decodeFixed_null {data : Bytes} (hbit : wasmIsNonNull bitmap rowIdx = .ok false)
    (hrest : decodeFixed fmt tag width data bitmap count (rowIdx + 1) = .ok rest) :
    decodeFixed fmt tag width data bitmap (count + 1) rowIdx = .ok (.null :: rest) := by
  rw [decodeFixed, hbit]
  simp only [bind, Except.bind, Bool.false_eq_true, if_false, hrest]
  rfl

theorem decodeFixed_value (hbit : wasmIsNonNull bitmap rowIdx = .ok true)
    (hfront : front.length = rowIdx * width) (hbytes : bytes.length = width)
    (hroom : (rowIdx + 1) * width < 2 ^ 64) (hlit : fixedLit fmt tag bytes = .ok lit)
    (hrest : decodeFixed fmt tag width (front ++ (bytes ++ tail)) bitmap count (rowIdx + 1) =
      .ok rest) :
    decodeFixed fmt tag width (front ++ (bytes ++ tail)) bitmap (count + 1) rowIdx =
      .ok (lit :: rest) := by
  rw [Nat.add_one_mul] at hroom
  have hle : rowIdx * width + width ≤ (front ++ (bytes ++ tail)).length := by
    simp only [List.length_append, hfront, hbytes]
    omega
  rw [decodeFixed, hbit]
  simp only [bind, Except.bind, if_true, mul_eq (show rowIdx * width < 2 ^ 64 by omega),
    add_eq hroom, slice_area hle]
  rw [area, List.drop_left' hfront, List.take_left' hbytes, hlit]
  simp only [hrest]
  rfl

theorem present_tail {row : List Lit} (hbits : ∀ i < (row :: rows).length,
      wasmIsNonNull bitmap (rowIdx + i) = .ok ((present (row :: rows) colIdx).getD i false)) :
    ∀ i < rows.length,
      wasmIsNonNull bitmap (rowIdx + 1 + i) = .ok ((present rows colIdx).getD i false) := by
  intro i hi
  rw [Nat.add_assoc, Nat.add_comm 1 i]
  exact hbits (i + 1) (by simpa using hi)

/-- The rows of a column with values of a fixed size come back from its bytes. -/
theorem decodeFixed_fixedColumn (hwidth : tag.fixedSizeBytes = some width)
    (hkeeps : ∀ row ∈ rows, ∀ lit ∈ row, fmt.Keeps lit)
    (h : fixedColumn fmt tag width colIdx rowIdx nulls rows = .ok out)
    (hroom : (rowIdx + rows.length) * width < 2 ^ 64)
    (hbits : ∀ i < rows.length,
      wasmIsNonNull bitmap (rowIdx + i) = .ok ((present rows colIdx).getD i false))
    (hfront : front.length = rowIdx * width) :
    decodeFixed fmt tag width (front ++ out.data) bitmap rows.length rowIdx =
        .ok (columnOf rows colIdx) ∧ out.data.length = rows.length * width := by
  induction rows generalizing rowIdx nulls out front with
  | nil =>
    obtain rfl := Except.ok.inj h
    exact ⟨rfl, by simp⟩
  | cons row rows ih =>
    have hbit := hbits 0 (by simp)
    have hmore := present_tail hbits
    have hkeeps' := fun row' hrow => hkeeps row' (List.mem_cons_of_mem row hrow)
    rw [List.length_cons, Nat.add_comm rows.length 1, ← Nat.add_assoc] at hroom
    rw [fixedColumn] at h
    rcases hlit : row[colIdx]? with _ | lit
    · rw [hlit] at h
      cases h
    have hvalue := getD_of_getElem? hlit
    rw [hlit] at h
    simp only at h
    rw [present, columnOf, List.map_cons, List.map_cons, hvalue, List.getD_cons_zero,
      Nat.add_zero] at hbit
    rw [columnOf, List.map_cons, hvalue, List.length_cons]
    split_ifs at h with hnull
    · obtain ⟨rest, hrest, h⟩ := bind_eq_ok h
      obtain rfl := Except.ok.inj h
      have hnext : (front ++ List.replicate width 0).length = (rowIdx + 1) * width := by
        rw [List.length_append, hfront, List.length_replicate, Nat.add_one_mul]
      obtain ⟨hdecode, hlength⟩ := ih hkeeps' hrest hroom hmore hnext
      rw [List.append_assoc] at hdecode
      rw [hnull] at hbit
      obtain rfl : lit = .null := by
        cases lit <;> first | rfl | cases hnull
      refine ⟨decodeFixed_null hbit hdecode, ?_⟩
      rw [List.length_append, List.length_replicate, hlength, Nat.add_one_mul, Nat.add_comm]
    · cases hbytes : fixedBytes fmt tag lit with
      | none =>
        rw [hbytes] at h
        cases h
      | some bytes =>
        rw [hbytes] at h
        obtain ⟨rest, hrest, h⟩ := bind_eq_ok h
        obtain rfl := Except.ok.inj h
        have hkeep := hkeeps row List.mem_cons_self lit (List.mem_of_getElem? hlit)
        obtain ⟨hread, hsize⟩ := fixedLit_fixedBytes hwidth hbytes hkeep
        have hnext : (front ++ bytes).length = (rowIdx + 1) * width := by
          rw [List.length_append, hfront, hsize, Nat.add_one_mul]
        obtain ⟨hdecode, hlength⟩ := ih hkeeps' hrest hroom hmore hnext
        rw [List.append_assoc] at hdecode
        rw [Bool.eq_false_iff.mpr hnull] at hbit
        have hfits : (rowIdx + 1) * width < 2 ^ 64 :=
          lt_of_le_of_lt (Nat.mul_le_mul_right _ (Nat.le_add_right _ _)) hroom
        refine ⟨decodeFixed_value hbit hfront hsize hfits hread hdecode, ?_⟩
        rw [List.length_append, hsize, hlength, Nat.add_one_mul, Nat.add_comm]

end Fixed

section Var
variable {bitmap : Option Bytes} {front lead bytes data : Bytes} {offsets : List ℕ}
  {count cursor stop : ℕ} {lit : Lit} {rest : List Lit}

theorem decodeVar_null (hbit : wasmIsNonNull bitmap rowIdx = .ok false)
    (hrest : decodeVar fmt tag data offsets bitmap count (rowIdx + 1) = .ok rest) :
    decodeVar fmt tag data offsets bitmap (count + 1) rowIdx = .ok (.null :: rest) := by
  rw [decodeVar, hbit]
  simp only [bind, Except.bind, Bool.false_eq_true, if_false, hrest]
  rfl

theorem decodeVar_value (hbit : wasmIsNonNull bitmap rowIdx = .ok true)
    (hstart : offsets[rowIdx]? = some cursor)
    (hstop : offsets[rowIdx + 1]? = some (cursor + bytes.length))
    (hle : cursor + bytes.length ≤ data.length) (hbytes : area data cursor bytes.length = bytes)
    (hlit : varLit fmt tag bytes = .ok lit)
    (hrest : decodeVar fmt tag data offsets bitmap count (rowIdx + 1) = .ok rest) :
    decodeVar fmt tag data offsets bitmap (count + 1) rowIdx = .ok (lit :: rest) := by
  rw [decodeVar, hbit]
  simp only [bind, Except.bind, if_true, itemAt_eq hstart, itemAt_eq hstop]
  rw [if_neg (by omega), slice_area hle, hbytes]
  simp only [hlit, hrest]
  rfl

/-- There is an offset for every row and one behind the last, all of them in range. -/
theorem varColumn_offsets (h : varColumn fmt tag colIdx rowIdx cursor nulls rows = .ok out)
    (hcursor : cursor ≤ u32Max) :
    (∃ more, out.offsets = cursor :: more) ∧ out.offsets.length = rows.length + 1 ∧
      ∀ offset ∈ out.offsets, offset ≤ u32Max := by
  induction rows generalizing rowIdx cursor nulls out with
  | nil =>
    obtain rfl := Except.ok.inj h
    exact ⟨⟨[], rfl⟩, rfl, by simpa using hcursor⟩
  | cons row rows ih =>
    rw [varColumn] at h
    rcases hlit : row[colIdx]? with _ | lit
    · rw [hlit] at h
      cases h
    rw [hlit] at h
    simp only at h
    split_ifs at h with hnull hlarge
    · obtain ⟨rest, hrest, h⟩ := bind_eq_ok h
      obtain rfl := Except.ok.inj h
      obtain ⟨-, hlength, hrange⟩ := ih hrest hcursor
      exact ⟨⟨_, rfl⟩, congrArg (· + 1) hlength, List.forall_mem_cons.mpr ⟨hcursor, hrange⟩⟩
    · obtain ⟨bytes, -, h⟩ := bind_eq_ok h
      split_ifs at h with hlarge
      obtain ⟨rest, hrest, h⟩ := bind_eq_ok h
      obtain rfl := Except.ok.inj h
      obtain ⟨-, hlength, hrange⟩ := ih hrest (not_lt.mp hlarge)
      exact ⟨⟨_, rfl⟩, congrArg (· + 1) hlength, List.forall_mem_cons.mpr ⟨hcursor, hrange⟩⟩

/-- The rows of a column with values of any size come back from its bytes and its offsets. -/
theorem decodeVar_varColumn (hkeeps : ∀ row ∈ rows, ∀ lit ∈ row, fmt.Keeps lit)
    (h : varColumn fmt tag colIdx rowIdx cursor nulls rows = .ok out) (hcursor : cursor ≤ u32Max)
    (hbits : ∀ i < rows.length,
      wasmIsNonNull bitmap (rowIdx + i) = .ok ((present rows colIdx).getD i false))
    {before : List ℕ} (hbefore : before.length = rowIdx) (hfront : front.length = cursor) :
    decodeVar fmt tag (front ++ out.data) (before ++ out.offsets) bitmap rows.length rowIdx =
      .ok (columnOf rows colIdx) := by
  induction rows generalizing rowIdx cursor nulls out before front with
  | nil => rfl
  | cons row rows ih =>
    have hbit := hbits 0 (by simp)
    have hmore := present_tail hbits
    have hkeeps' := fun row' hrow => hkeeps row' (List.mem_cons_of_mem row hrow)
    have hplace : (before ++ [cursor]).length = rowIdx + 1 := by
      rw [List.length_append, hbefore, List.length_singleton]
    rw [varColumn] at h
    rcases hlit : row[colIdx]? with _ | lit
    · rw [hlit] at h
      cases h
    have hvalue := getD_of_getElem? hlit
    rw [hlit] at h
    simp only at h
    rw [present, columnOf, List.map_cons, List.map_cons, hvalue, List.getD_cons_zero,
      Nat.add_zero] at hbit
    rw [columnOf, List.map_cons, hvalue, List.length_cons]
    split_ifs at h with hnull hlarge
    · obtain ⟨rest, hrest, h⟩ := bind_eq_ok h
      obtain rfl := Except.ok.inj h
      have hdecode := ih hkeeps' hrest hcursor hmore hplace hfront
      rw [List.append_assoc] at hdecode
      rw [hnull] at hbit
      obtain rfl : lit = .null := by
        cases lit <;> first | rfl | cases hnull
      exact decodeVar_null hbit hdecode
    · obtain ⟨bytes, hbytes, h⟩ := bind_eq_ok h
      split_ifs at h with hlarge
      obtain ⟨rest, hrest, h⟩ := bind_eq_ok h
      obtain rfl := Except.ok.inj h
      have hkeep := hkeeps row List.mem_cons_self lit (List.mem_of_getElem? hlit)
      obtain ⟨⟨more, hoffsets⟩, -⟩ := varColumn_offsets hrest (not_lt.mp hlarge)
      have hnext : (front ++ bytes).length = cursor + bytes.length := by
        rw [List.length_append, hfront]
      have hdecode := ih hkeeps' hrest (not_lt.mp hlarge) hmore hplace hnext
      rw [List.append_assoc, List.append_assoc] at hdecode
      rw [Bool.eq_false_iff.mpr hnull] at hbit
      have hstart : (before ++ cursor :: rest.offsets)[rowIdx]? = some cursor := by
        rw [← hbefore, List.getElem?_append_right le_rfl, Nat.sub_self]
        rfl
      have hstop : (before ++ cursor :: rest.offsets)[rowIdx + 1]? =
          some (cursor + bytes.length) := by
        rw [← hbefore, List.getElem?_append_right (Nat.le_succ _), Nat.succ_sub le_rfl,
          Nat.sub_self, hoffsets]
        rfl
      have harea : area (front ++ (bytes ++ rest.data)) cursor bytes.length = bytes := by
        rw [area, List.drop_left' hfront, List.take_left' rfl]
      have hle : cursor + bytes.length ≤ (front ++ (bytes ++ rest.data)).length := by
        rw [List.length_append, List.length_append, hfront]
        omega
      exact decodeVar_value hbit hstart hstop hle harea (varLit_varBytes hbytes hkeep) hdecode

/-- Offsets in range come back from their bytes. -/
theorem leChunks_flatMap (h : ∀ offset ∈ offsets, offset ≤ u32Max) :
    leChunks (offsets.flatMap (leBytes 4)) = offsets := by
  induction offsets with
  | nil => rfl
  | cons offset offsets ih =>
    obtain ⟨hoffset, hrest⟩ := List.forall_mem_cons.mp h
    have hlt : offset < 256 ^ 4 := by
      rw [u32Max] at hoffset
      omega
    have hread := leNat_leBytes 4 offset hlt
    rw [List.flatMap_cons]
    change leNat (leBytes 4 offset) :: leChunks (offsets.flatMap (leBytes 4)) = _
    rw [hread, ih hrest]

end Var

end Columns

section Payloads
variable {fmt : BatchFormats} {tag : WasmBatchTypeTag} {colIdx limit litSize : ℕ}
  {rows : List (List Lit)} {payload : WasmBatchColumnPayload}

theorem fixedSizeBytes_le {width : ℕ} (h : tag.fixedSizeBytes = some width) :
    1 ≤ width ∧ width ≤ 8 := by
  cases tag <;> cases h <;> decide

/-- A bitmap has a bit for every row. -/
theorem bitmap_room (count : ℕ) :
    0 + count ≤ 8 * (List.replicate (wasmNullBitmapLen count) (0 : UInt8)).length := by
  rw [List.length_replicate, wasmNullBitmapLen_eq, Nat.zero_add]
  exact le_bitmapLen _

/-- The bitmap of a column has the length that the decoder asks for, or it is not there. -/
theorem payload_nulls {out : ColumnBytes} {nulls : Option Bytes}
    (hnulls : nulls = if out.hasNull then some out.nulls else none)
    (hlength : out.nulls.length = wasmNullBitmapLen rows.length) :
    ¬ (nulls.any (fun bitmap => bitmap.length != wasmNullBitmapLen rows.length) ∧
      rows.length > 0) := by
  rintro ⟨h, -⟩
  cases hnull : out.hasNull with
  | true =>
    rw [hnulls, hnull, if_pos rfl, Option.any_some, hlength, bne_self_eq_false] at h
    cases h
  | false =>
    rw [hnulls, hnull] at h
    cases h

theorem decode_fixedPayload {width : ℕ} {out : ColumnBytes}
    (hwidth : tag.fixedSizeBytes = some width)
    (hout : fixedColumn fmt tag width colIdx 0
      (List.replicate (wasmNullBitmapLen rows.length) 0) rows = .ok out)
    (hkeeps : ∀ row ∈ rows, ∀ lit ∈ row, fmt.Keeps lit) (hrows : rows.length ≤ u32Max)
    (hroom : litSize * rows.length ≤ limit) :
    decodeWasmBatchColumn fmt limit litSize tag rows.length out.data
      (if out.hasNull then some out.nulls else none) none = .ok (columnOf rows colIdx) := by
  obtain ⟨hnulls, hany⟩ := fixedColumn_nulls hout (bitmap_room _)
  have hlength : out.nulls.length = wasmNullBitmapLen rows.length := by
    rw [hnulls, setFlags_length, List.length_replicate]
  obtain ⟨-, hle⟩ := fixedSizeBytes_le hwidth
  have hfits : rows.length * width < 2 ^ 64 := by
    have := Nat.mul_le_mul hrows hle
    rw [u32Max] at this
    omega
  have hread : ∀ i < rows.length, wasmIsNonNull (if out.hasNull then some out.nulls else none)
      (0 + i) = .ok ((present rows colIdx).getD i false) := by
    intro i hi
    rw [Nat.zero_add]
    exact wasmIsNonNull_column hnulls hany hi
  have hstart : ([] : Bytes).length = 0 * width := by simp
  obtain ⟨hdecode, hsize⟩ := decodeFixed_fixedColumn hwidth hkeeps hout
    (by rwa [Nat.zero_add]) hread hstart
  rw [decodeWasmBatchColumn, if_neg (payload_nulls rfl hlength), hwidth]
  simp only
  rw [saturatingMulUsize_eq hfits, if_neg (not_not.mpr hsize), reserve_eq hroom]
  exact hdecode

theorem decode_varPayload {out : ColumnBytes} (hwidth : tag.fixedSizeBytes = none)
    (hout : varColumn fmt tag colIdx 0 0
      (List.replicate (wasmNullBitmapLen rows.length) 0) rows = .ok out)
    (hkeeps : ∀ row ∈ rows, ∀ lit ∈ row, fmt.Keeps lit) (hrows : rows.length ≤ u32Max)
    (hroom : litSize * rows.length ≤ limit) (hoffsets : 8 * (rows.length + 1) ≤ limit) :
    decodeWasmBatchColumn fmt limit litSize tag rows.length out.data
      (if out.hasNull then some out.nulls else none) (some (out.offsets.flatMap (leBytes 4))) =
        .ok (columnOf rows colIdx) := by
  obtain ⟨hnulls, hany⟩ := varColumn_nulls hout (bitmap_room _)
  have hlength : out.nulls.length = wasmNullBitmapLen rows.length := by
    rw [hnulls, setFlags_length, List.length_replicate]
  have hread : ∀ i < rows.length, wasmIsNonNull (if out.hasNull then some out.nulls else none)
      (0 + i) = .ok ((present rows colIdx).getD i false) := by
    intro i hi
    rw [Nat.zero_add]
    exact wasmIsNonNull_column hnulls hany hi
  obtain ⟨-, hcount, hrange⟩ := varColumn_offsets hout (Nat.zero_le _)
  have hlt : rows.length + 1 < 2 ^ 61 := by
    rw [u32Max] at hrows
    omega
  have haux : (out.offsets.flatMap (leBytes 4)).length = (rows.length + 1) * 4 := by
    rw [List.length_flatMap, List.map_congr_left fun offset _ => leBytes_length 4 offset,
      List.map_const', List.sum_replicate, hcount, smul_eq_mul]
  have hplace : ([] : List ℕ).length = 0 := rfl
  have hstart : ([] : Bytes).length = 0 := rfl
  have hdecode := decodeVar_varColumn hkeeps hout (Nat.zero_le _) hread hplace hstart
  rw [decodeWasmBatchColumn, if_neg (payload_nulls rfl hlength), hwidth]
  simp only
  rw [saturatingAdd_eq (by omega), saturatingMulUsize_eq (by omega),
    if_neg (fun h => h.1 haux), reserve_eq hoffsets, leChunks_flatMap hrange]
  simp only [bind, Except.bind, add_eq (show rows.length + 1 < 2 ^ 64 by omega), reserve_eq hroom,
    hcount, ne_eq, not_true_eq_false, if_false]
  exact hdecode

/-- The rows of a column come back from its payload. -/
theorem decode_payload (h : buildWasmBatchPayload fmt tag rows colIdx = .ok payload)
    (hkeeps : ∀ row ∈ rows, ∀ lit ∈ row, fmt.Keeps lit) (hrows : rows.length ≤ u32Max)
    (hroom : litSize * rows.length ≤ limit) (hoffsets : 8 * (rows.length + 1) ≤ limit) :
    decodeWasmBatchColumn fmt limit litSize tag rows.length payload.data payload.nulls
      payload.aux = .ok (columnOf rows colIdx) ∧ payload.tag = tag := by
  rw [buildWasmBatchPayload] at h
  cases hwidth : tag.fixedSizeBytes with
  | some width =>
    rw [hwidth] at h
    obtain ⟨out, hout, h⟩ := bind_eq_ok h
    obtain rfl := Except.ok.inj h
    exact ⟨decode_fixedPayload hwidth hout hkeeps hrows hroom, rfl⟩
  | none =>
    rw [hwidth] at h
    obtain ⟨out, hout, h⟩ := bind_eq_ok h
    obtain rfl := Except.ok.inj h
    exact ⟨decode_varPayload hwidth hout hkeeps hrows hroom hoffsets, rfl⟩

/-- A bitmap of a column with a null has a byte. -/
theorem nulls_ne_nil {out : ColumnBytes}
    (hnulls : out.nulls =
      setFlags (List.replicate (wasmNullBitmapLen rows.length) 0) 0 (present rows colIdx))
    (hany : out.hasNull = (present rows colIdx).any (!·)) :
    (if out.hasNull then some out.nulls else none) ≠ some [] := by
  split_ifs with hnull
  · intro hnil
    rw [hnull, eq_comm, List.any_eq_true] at hany
    obtain ⟨flag, hflag, -⟩ := hany
    have hpos := List.length_pos_of_mem hflag
    have hlength := congrArg List.length (Option.some.inj hnil)
    rw [hnulls, setFlags_length, List.length_replicate, wasmNullBitmapLen_eq, bitmapLen,
      List.length_nil] at hlength
    rw [present_length] at hpos
    omega
  · exact fun h => by cases h

theorem payload_areas (h : buildWasmBatchPayload fmt tag rows colIdx = .ok payload) :
    payload.nulls ≠ some [] ∧ payload.aux ≠ some [] := by
  rw [buildWasmBatchPayload] at h
  cases hwidth : tag.fixedSizeBytes with
  | some width =>
    rw [hwidth] at h
    obtain ⟨out, hout, h⟩ := bind_eq_ok h
    obtain rfl := Except.ok.inj h
    obtain ⟨hnulls, hany⟩ := fixedColumn_nulls hout (bitmap_room _)
    exact ⟨nulls_ne_nil hnulls hany, fun h => by cases h⟩
  | none =>
    rw [hwidth] at h
    obtain ⟨out, hout, h⟩ := bind_eq_ok h
    obtain rfl := Except.ok.inj h
    obtain ⟨hnulls, hany⟩ := varColumn_nulls hout (bitmap_room _)
    obtain ⟨⟨more, hoffsets⟩, -⟩ := varColumn_offsets hout (Nat.zero_le _)
    refine ⟨nulls_ne_nil hnulls hany, fun h => ?_⟩
    rw [hoffsets] at h
    cases Option.some.inj h

end Payloads

section Layout
variable {payload : WasmBatchColumnPayload} {payloads : List WasmBatchColumnPayload}
  {columnMeta : WasmBatchColumnMeta} {metas : List WasmBatchColumnMeta} {cursor size offset : ℕ}

/-- An area that a column may have lies behind the header and inside the buffer. -/
def PlacedArea (size offset len : ℕ) : Option Bytes → Prop
  | some bytes => 0 < offset ∧ len = bytes.length ∧ offset + len ≤ size
  | none => offset = 0 ∧ len = 0

/-- The areas that a meta names are those of a payload. -/
structure Placed (size : ℕ) (payload : WasmBatchColumnPayload)
    (columnMeta : WasmBatchColumnMeta) : Prop where
  tag : columnMeta.tag = payload.tag
  data : PlacedArea size columnMeta.dataOffset columnMeta.dataLen (some payload.data)
  nulls : PlacedArea size columnMeta.nullsOffset columnMeta.nullsLen payload.nulls
  aux : PlacedArea size columnMeta.auxOffset columnMeta.auxLen payload.aux

theorem PlacedArea.mono {size' len : ℕ} {bytes : Option Bytes} (hsize : size ≤ size')
    (h : PlacedArea size offset len bytes) : PlacedArea size' offset len bytes := by
  cases bytes with
  | none => exact h
  | some bytes => exact ⟨h.1, h.2.1, h.2.2.trans hsize⟩

theorem PlacedArea.le {len : ℕ} {bytes : Option Bytes} (h : PlacedArea size offset len bytes) :
    offset ≤ size ∧ len ≤ size := by
  cases bytes with
  | none =>
    obtain ⟨rfl, rfl⟩ := h
    exact ⟨Nat.zero_le _, Nat.zero_le _⟩
  | some bytes =>
    have hle := h.2.2
    omega

theorem upwards_areaWrites (cursor : ℕ) (bytes : Bytes) :
    Upwards cursor (cursor + bytes.length) (areaWrites cursor bytes.length (some bytes)) := by
  rw [areaWrites]
  split_ifs with hlen
  · exact ⟨le_rfl, le_rfl⟩
  · exact Nat.le_add_right _ _

theorem placeArea_spec (hcursor : 0 < cursor) (bytes : Option Bytes) :
    PlacedArea (placeArea cursor bytes).2 (placeArea cursor bytes).1.1 (placeArea cursor bytes).1.2
        bytes ∧
      Upwards cursor (placeArea cursor bytes).2
        (areaWrites (placeArea cursor bytes).1.1 (placeArea cursor bytes).1.2 bytes) := by
  cases bytes with
  | none => exact ⟨⟨rfl, rfl⟩, le_rfl⟩
  | some bytes => exact ⟨⟨hcursor, rfl, le_rfl⟩, upwards_areaWrites cursor bytes⟩

/-- The areas of the columns go upwards from the cursor to the end of the buffer. -/
theorem layoutPayloads_spec (h : layoutPayloads cursor payloads = .ok (metas, size))
    (hcursor : 0 < cursor) (hle : cursor ≤ u32Max) :
    size ≤ u32Max ∧ List.Forall₂ (Placed size) payloads metas ∧
      Upwards cursor size (payloadsWrites payloads metas) := by
  induction payloads generalizing cursor metas with
  | nil =>
    obtain ⟨rfl, rfl⟩ := Prod.ext_iff.mp (Except.ok.inj h)
    exact ⟨hle, .nil, le_rfl⟩
  | cons payload payloads ih =>
    rw [layoutPayloads] at h
    simp only at h
    have hdata := upwards_areaWrites cursor payload.data
    obtain ⟨hnulls, hupNulls⟩ :=
      placeArea_spec (Nat.add_pos_left hcursor payload.data.length) payload.nulls
    have hleNulls := hupNulls.le
    set nullsPlace := placeArea (cursor + payload.data.length) payload.nulls
    obtain ⟨haux, hupAux⟩ :=
      placeArea_spec (lt_of_lt_of_le (Nat.add_pos_left hcursor _) hleNulls) payload.aux
    have hleAux := hupAux.le
    set auxPlace := placeArea nullsPlace.2 payload.aux
    split_ifs at h with hlarge
    obtain ⟨⟨metas', size'⟩, hrest, h⟩ := bind_eq_ok h
    obtain ⟨rfl, rfl⟩ := Prod.ext_iff.mp (Except.ok.inj h)
    obtain ⟨hsize, hplaced, hup⟩ := ih hrest (by omega) (not_lt.mp hlarge)
    have hend := hup.le
    have hdataEnd : cursor + payload.data.length ≤ size' := by omega
    refine ⟨hsize, .cons ⟨rfl, ⟨hcursor, rfl, hdataEnd⟩, hnulls.mono (by omega), haux.mono hend⟩
      hplaced, ?_⟩
    exact ((hdata.append hupNulls).append hupAux).append hup

theorem upwards_headerWrites (rowCount colCount : ℕ) :
    Upwards 0 wasmBatchHeaderSize (headerWrites rowCount colCount) := by
  simp [headerWrites, Upwards, wasmBatchHeaderSize]

theorem upwards_metaWrites (base : ℕ) (columnMeta : WasmBatchColumnMeta) :
    Upwards base (base + wasmBatchColumnMetaSize) (metaWrites base columnMeta) := by
  simp only [metaWrites, Upwards, leBytes_length, wasmBatchColumnMetaSize]
  omega

theorem upwards_metasWrites (idx : ℕ) (metas : List WasmBatchColumnMeta) :
    Upwards (wasmBatchHeaderSize + idx * wasmBatchColumnMetaSize)
      (wasmBatchHeaderSize + (idx + metas.length) * wasmBatchColumnMetaSize)
      (metasWrites idx metas) := by
  induction metas generalizing idx with
  | nil => exact le_rfl
  | cons columnMeta metas ih =>
    have hmeta := upwards_metaWrites (wasmBatchHeaderSize + idx * wasmBatchColumnMetaSize)
      columnMeta
    have hrest := ih (idx + 1)
    rw [Nat.add_one_mul, ← Nat.add_assoc] at hrest
    rw [List.length_cons, Nat.add_comm metas.length 1, ← Nat.add_assoc]
    exact hmeta.append hrest

theorem buildPayloads_length {fmt : BatchFormats} {rows : List (List Lit)} {colIdx : ℕ}
    {columns : List ColumnMeta} (h : buildPayloads fmt rows colIdx columns = .ok payloads) :
    payloads.length = columns.length := by
  induction columns generalizing colIdx payloads with
  | nil =>
    obtain rfl := Except.ok.inj h
    rfl
  | cons column columns ih =>
    rw [buildPayloads] at h
    obtain ⟨tag, -, h⟩ := bind_eq_ok h
    obtain ⟨payload, -, h⟩ := bind_eq_ok h
    obtain ⟨rest, hrest, h⟩ := bind_eq_ok h
    obtain rfl := Except.ok.inj h
    exact congrArg (· + 1) (ih hrest)

theorem checkWidths_ok {colCount idx : ℕ} {rows : List (List Lit)} {done : Unit}
    (h : checkWidths colCount idx rows = .ok done) : ∀ row ∈ rows, row.length = colCount := by
  induction rows generalizing idx with
  | nil => exact fun row hrow => absurd hrow List.not_mem_nil
  | cons row rows ih =>
    rw [checkWidths] at h
    split_ifs at h with hwidth
    exact List.forall_mem_cons.mpr ⟨not_not.mp hwidth, ih h⟩

/-- What an encoded batch consists of. -/
theorem encodeWasmBatchV1_spec {fmt : BatchFormats} {columns : List ColumnMeta}
    {rows : List (List Lit)} {bytes : Bytes} (h : encodeWasmBatchV1 fmt columns rows = .ok bytes) :
    rows.length ≤ u32Max ∧ columns.length ≤ u32Max ∧
      (∀ row ∈ rows, row.length = columns.length) ∧
      ∃ payloads metas, buildPayloads fmt rows 0 columns = .ok payloads ∧
        bytes.length ≤ u32Max ∧
        wasmBatchHeaderSize + columns.length * wasmBatchColumnMetaSize ≤ bytes.length ∧
        List.Forall₂ (Placed bytes.length) payloads metas ∧
        Holds bytes (headerWrites rows.length columns.length) ∧ Holds bytes (metasWrites 0 metas) ∧
        Holds bytes (payloadsWrites payloads metas) := by
  rw [encodeWasmBatchV1] at h
  split_ifs at h with hlarge
  obtain ⟨done, hwidths, h⟩ := bind_eq_ok h
  obtain ⟨payloads, hbuild, h⟩ := bind_eq_ok h
  simp only at h
  split_ifs at h with hstart
  obtain ⟨⟨metas, size⟩, hlayout, h⟩ := bind_eq_ok h
  obtain rfl := Except.ok.inj h
  rw [not_or, not_lt, not_lt] at hlarge
  have hpos : 0 < wasmBatchHeaderSize + columns.length * wasmBatchColumnMetaSize :=
    Nat.add_pos_left (by decide) _
  obtain ⟨hsize, hplaced, hup⟩ := layoutPayloads_spec hlayout hpos (not_lt.mp hstart)
  have hcount : metas.length = columns.length :=
    hplaced.length_eq.symm.trans (buildPayloads_length hbuild)
  have hmetas := upwards_metasWrites 0 metas
  rw [Nat.zero_mul, Nat.add_zero, Nat.zero_add, hcount] at hmetas
  have hall := ((upwards_headerWrites rows.length columns.length).append hmetas).append hup
  have hzeros : size ≤ (List.replicate size (0 : UInt8)).length := by rw [List.length_replicate]
  have hlength := writeAll_length hall hzeros
  rw [List.length_replicate] at hlength
  obtain ⟨hfront, hpayloads⟩ := (holds_writeAll hall hzeros).of_append
  obtain ⟨hheader, hmetaFields⟩ := hfront.of_append
  refine ⟨hlarge.1, hlarge.2, checkWidths_ok hwidths, payloads, metas, hbuild, ?_⟩
  rw [hlength]
  exact ⟨hsize, hup.le, hplaced, hheader, hmetaFields, hpayloads⟩

end Layout

section Batches
variable {fmt : BatchFormats} {bytes : Bytes} {rows : List (List Lit)} {columns : List ColumnMeta}
  {payload : WasmBatchColumnPayload} {payloads : List WasmBatchColumnPayload}
  {columnMeta : WasmBatchColumnMeta} {metas : List WasmBatchColumnMeta} {base idx limit litSize : ℕ}

/-- A written number of four bytes reads as it was written, behind an addition that has room. -/
theorem readUintLe_written {writes : List (ℕ × Bytes)} (hbytes : bytes.length ≤ u32Max)
    (h : Holds bytes writes) {offset n : ℕ} (hmem : (offset, leBytes 4 n) ∈ writes)
    (hn : n ≤ u32Max) : readUintLe 4 bytes offset = .ok n := by
  rw [u32Max] at hbytes hn
  exact readUintLe_eq (by omega) (by omega) fun write hwrite => by
    rw [List.mem_singleton.mp hwrite]
    exact h _ hmem

/-- The bytes of an area that is there come back from its fields, and so does an area that is not. -/
theorem optionalArea_placed {offset len : ℕ} {piece : Option Bytes}
    (hbytes : bytes.length ≤ u32Max) (hplaced : PlacedArea bytes.length offset len piece)
    (hpiece : piece ≠ some []) (h : Holds bytes (areaWrites offset len piece)) (beyond : String) :
    optionalArea bytes offset len beyond = .ok piece := by
  cases piece with
  | none =>
    obtain ⟨rfl, rfl⟩ := hplaced
    rw [optionalArea, if_pos (.inl rfl)]
  | some piece =>
    obtain ⟨hoffset, rfl, -⟩ := hplaced
    rw [u32Max] at hbytes
    exact optionalArea_eq (by omega) hoffset (fun hnil => hpiece (congrArg some hnil)) h beyond

theorem slice_placed {offset len : ℕ} {piece : Bytes} (hbytes : bytes.length ≤ u32Max)
    (hplaced : PlacedArea bytes.length offset len (some piece))
    (h : Holds bytes (areaWrites offset len (some piece))) :
    saturatingAdd offset len ≤ bytes.length ∧
      slice (ε := String) bytes offset (saturatingAdd offset len) = .ok piece := by
  obtain ⟨-, rfl, hle⟩ := hplaced
  rw [u32Max] at hbytes
  rw [saturatingAdd_eq (by omega), slice_area hle]
  refine ⟨hle, congrArg Except.ok ?_⟩
  rcases piece.eq_nil_or_concat with rfl | ⟨front, last, rfl⟩
  · exact List.take_zero
  · exact (h _ (by rw [areaWrites, if_pos (by simp)]; exact List.mem_cons_self)).1

theorem fromU32_code (tag : WasmBatchTypeTag) : WasmBatchTypeTag.fromU32 tag.code = some tag := by
  cases tag <;> rfl

theorem code_le (tag : WasmBatchTypeTag) : tag.code ≤ u32Max := by
  cases tag <;> decide

/-- One more column: its fields and its areas are read, and the rest of the columns. -/
theorem decodeColumns_step {columnsOffset rowCount count : ℕ} {values : List Lit}
    {rest : List (ColumnMeta × List Lit)} (hbytes : bytes.length ≤ u32Max)
    (hbase : columnsOffset + idx * wasmBatchColumnMetaSize + wasmBatchColumnMetaSize ≤ bytes.length)
    (hplaced : Placed bytes.length payload columnMeta)
    (hmeta : Holds bytes
      (metaWrites (columnsOffset + idx * wasmBatchColumnMetaSize) columnMeta))
    (hpayload : Holds bytes (payloadWrites payload columnMeta))
    (hnulls : payload.nulls ≠ some []) (haux : payload.aux ≠ some [])
    (hvalues : decodeWasmBatchColumn fmt limit litSize payload.tag rowCount payload.data
      payload.nulls payload.aux = .ok values)
    (hrest : decodeColumns fmt limit litSize bytes rowCount columnsOffset count (idx + 1) =
      .ok rest) :
    decodeColumns fmt limit litSize bytes rowCount columnsOffset (count + 1) idx =
      .ok ((decodedColumnMeta idx payload.tag, values) :: rest) := by
  obtain ⟨hfront, hauxWrites⟩ := hpayload.of_append
  obtain ⟨hdataWrites, hnullsWrites⟩ := hfront.of_append
  obtain ⟨hdataLe, hdata⟩ := slice_placed hbytes hplaced.data hdataWrites
  have hnullsArea := optionalArea_placed hbytes hplaced.nulls hnulls hnullsWrites
  have hauxArea := optionalArea_placed hbytes hplaced.aux haux hauxWrites
  have hread {offset n : ℕ} (hmem : (offset, leBytes 4 n) ∈
      metaWrites (columnsOffset + idx * wasmBatchColumnMetaSize) columnMeta) (hn : n ≤ u32Max) :=
    readUintLe_written hbytes hmeta hmem hn
  have hdataFields := hplaced.data.le
  have hnullsFields := hplaced.nulls.le
  have hauxFields := hplaced.aux.le
  have hmul : idx * wasmBatchColumnMetaSize < 2 ^ 64 := by
    rw [u32Max] at hbytes
    omega
  have hsum : add (ε := String) columnsOffset (idx * wasmBatchColumnMetaSize) =
      .ok (columnsOffset + idx * wasmBatchColumnMetaSize) := by
    rw [u32Max] at hbytes
    exact add_eq (by omega)
  generalize columnsOffset + idx * wasmBatchColumnMetaSize = base at *
  have hadd {n : ℕ} (hn : n ≤ 24) : add (ε := String) base n = .ok (base + n) := by
    rw [wasmBatchColumnMetaSize] at hbase
    rw [u32Max] at hbytes
    exact add_eq (by omega)
  have htag : readUintLe 4 bytes base = .ok columnMeta.tag.code :=
    hread (by simp [metaWrites]) (code_le _)
  have hdataOffset : readUintLe 4 bytes (base + 4) = .ok columnMeta.dataOffset :=
    hread (by simp [metaWrites]) (by omega)
  have hdataLen : readUintLe 4 bytes (base + 8) = .ok columnMeta.dataLen :=
    hread (by simp [metaWrites]) (by omega)
  have hnullsOffset : readUintLe 4 bytes (base + 12) = .ok columnMeta.nullsOffset :=
    hread (by simp [metaWrites]) (by omega)
  have hnullsLen : readUintLe 4 bytes (base + 16) = .ok columnMeta.nullsLen :=
    hread (by simp [metaWrites]) (by omega)
  have hauxOffset : readUintLe 4 bytes (base + 20) = .ok columnMeta.auxOffset :=
    hread (by simp [metaWrites]) (by omega)
  have hauxLen : readUintLe 4 bytes (base + 24) = .ok columnMeta.auxLen :=
    hread (by simp [metaWrites]) (by omega)
  rw [decodeColumns, mul_eq hmul]
  simp only [bind, Except.bind, hsum, htag, fromU32_code, hadd (by norm_num : 4 ≤ 24),
    hadd (by norm_num : 8 ≤ 24), hadd (by norm_num : 12 ≤ 24), hadd (by norm_num : 16 ≤ 24),
    hadd (by norm_num : 20 ≤ 24), hadd (le_refl 24), hdataOffset, hdataLen, hnullsOffset,
    hnullsLen, hauxOffset, hauxLen, if_neg (not_lt.mpr hdataLe), hdata, hnullsArea, hauxArea,
    hplaced.tag, hvalues, hrest]
  rfl

/-- The tags of the columns from one on. -/
def resolveTags (rows : List (List Lit)) : (colIdx : ℕ) → List ColumnMeta →
    Except String (List WasmBatchTypeTag)
  | _, [] => .ok []
  | colIdx, column :: columns => do
    let tag ← resolveWasmBatchTag column.type.kind rows colIdx
    return tag :: (← resolveTags rows (colIdx + 1) columns)

/-- The columns from one on as they are decoded: they have the names of their places and the kinds
of their tags. -/
def decodedMetas : (idx : ℕ) → List WasmBatchTypeTag → List ColumnMeta
  | _, [] => []
  | idx, tag :: tags => decodedColumnMeta idx tag :: decodedMetas (idx + 1) tags

def columnsFrom (rows : List (List Lit)) : (idx : ℕ) → List WasmBatchTypeTag →
    List (ColumnMeta × List Lit)
  | _, [] => []
  | idx, tag :: tags =>
    (decodedColumnMeta idx tag, columnOf rows idx) :: columnsFrom rows (idx + 1) tags

/-- The columns come back from their payloads. -/
theorem decodeColumns_payloads (hbuild : buildPayloads fmt rows idx columns = .ok payloads)
    (hbytes : bytes.length ≤ u32Max)
    (hmetasEnd : wasmBatchHeaderSize + (idx + columns.length) * wasmBatchColumnMetaSize ≤
      bytes.length)
    (hplaced : List.Forall₂ (Placed bytes.length) payloads metas)
    (hmetas : Holds bytes (metasWrites idx metas))
    (hpayloads : Holds bytes (payloadsWrites payloads metas))
    (hkeeps : ∀ row ∈ rows, ∀ lit ∈ row, fmt.Keeps lit) (hrows : rows.length ≤ u32Max)
    (hroom : litSize * rows.length ≤ limit) (hoffsets : 8 * (rows.length + 1) ≤ limit) :
    ∃ tags, resolveTags rows idx columns = .ok tags ∧ tags.length = columns.length ∧
      decodeColumns fmt limit litSize bytes rows.length wasmBatchHeaderSize columns.length idx =
        .ok (columnsFrom rows idx tags) := by
  induction columns generalizing idx payloads metas with
  | nil => exact ⟨[], rfl, rfl, rfl⟩
  | cons column columns ih =>
    rw [buildPayloads] at hbuild
    obtain ⟨tag, htag, hbuild⟩ := bind_eq_ok hbuild
    obtain ⟨payload, hpayload, hbuild⟩ := bind_eq_ok hbuild
    obtain ⟨rest, hrest, hbuild⟩ := bind_eq_ok hbuild
    obtain rfl := Except.ok.inj hbuild
    cases hplaced with
    | cons hfirst hplaced =>
      obtain ⟨hmeta, hmetas⟩ := hmetas.of_append
      obtain ⟨hwrites, hpayloads⟩ := hpayloads.of_append
      rw [List.length_cons] at hmetasEnd
      have hnextEnd : wasmBatchHeaderSize + (idx + 1 + columns.length) * wasmBatchColumnMetaSize ≤
          bytes.length := by
        rwa [Nat.add_assoc idx 1, Nat.add_comm 1]
      have hbase : wasmBatchHeaderSize + idx * wasmBatchColumnMetaSize + wasmBatchColumnMetaSize ≤
          bytes.length := by
        have := Nat.mul_le_mul_right wasmBatchColumnMetaSize
          (show idx + 1 ≤ idx + (columns.length + 1) by omega)
        rw [Nat.add_one_mul] at this
        omega
      obtain ⟨tags, htags, hcount, hcolumns⟩ := ih hrest hnextEnd hplaced hmetas hpayloads
      obtain ⟨hvalues, hsame⟩ := decode_payload hpayload hkeeps hrows hroom hoffsets
      obtain ⟨hnulls, haux⟩ := payload_areas hpayload
      rw [← hsame] at hvalues
      have hstep := decodeColumns_step hbytes hbase hfirst hmeta hwrites hnulls haux hvalues
        hcolumns
      rw [hsame] at hstep
      refine ⟨tag :: tags, ?_, congrArg (· + 1) hcount, hstep⟩
      rw [resolveTags, htag]
      simp only [bind, Except.bind, htags]
      rfl

theorem columnsFrom_fst (rows : List (List Lit)) (idx : ℕ) (tags : List WasmBatchTypeTag) :
    (columnsFrom rows idx tags).map Prod.fst = decodedMetas idx tags := by
  induction tags generalizing idx with
  | nil => rfl
  | cons tag tags ih => exact congrArg (_ :: ·) (ih (idx + 1))

theorem columnsFrom_snd (rows : List (List Lit)) (idx : ℕ) (tags : List WasmBatchTypeTag) :
    (columnsFrom rows idx tags).map Prod.snd =
      (List.range' idx tags.length).map (columnOf rows) := by
  induction tags generalizing idx with
  | nil => rfl
  | cons tag tags ih =>
    rw [List.length_cons, List.range'_succ, List.map_cons, ← ih]
    rfl

/-- A row of the columns of the rows. -/
theorem rowAt_columns {rowIdx idx count : ℕ} {row : List Lit} (hrow : rows[rowIdx]? = some row) :
    rowAt ((List.range' idx count).map (columnOf rows)) rowIdx =
      .ok ((List.range' idx count).map fun colIdx => row.getD colIdx .null) := by
  induction count generalizing idx with
  | zero => rfl
  | succ count ih =>
    have hvalue : (columnOf rows idx)[rowIdx]? = some (row.getD idx .null) := by
      rw [columnOf, List.getElem?_map, hrow]
      rfl
    have hrest : rowAt ((List.range' (idx + 1) count).map (columnOf rows)) rowIdx = _ := ih
    rw [rowAt] at hrest
    rw [rowAt, List.range'_succ, List.map_cons, List.mapM_cons, hvalue, hrest]
    rfl

theorem range_getD (row : List Lit) :
    ((List.range' 0 row.length).map fun colIdx => row.getD colIdx .null) = row := by
  refine List.ext_getElem (by simp) fun i hi hi' => ?_
  rw [List.getElem_map, List.getElem_range', Nat.zero_add, Nat.one_mul,
    List.getD_eq_getElem?_getD, List.getElem?_eq_getElem hi', Option.getD_some]

/-- The rows come back from their columns. -/
theorem decodeRows_columns {colCount rowIdx : ℕ}
    (hwidths : ∀ row ∈ rows, row.length = colCount) (hroom : litSize * colCount ≤ limit)
    (hle : rowIdx ≤ rows.length) :
    decodeRows limit litSize ((List.range' 0 colCount).map (columnOf rows)) (rows.length - rowIdx)
      rowIdx = .ok (rows.drop rowIdx) := by
  induction hcount : rows.length - rowIdx generalizing rowIdx with
  | zero =>
    rw [List.drop_eq_nil_of_le (by omega)]
    rfl
  | succ count ih =>
    have hlt : rowIdx < rows.length := by omega
    have hwidth := hwidths _ (List.getElem_mem hlt)
    have hrow : rowAt ((List.range' 0 colCount).map (columnOf rows)) rowIdx = _ :=
      rowAt_columns (List.getElem?_eq_getElem hlt)
    rw [← hwidth, range_getD] at hrow
    have hrest := ih (show rowIdx + 1 ≤ rows.length by omega) (by omega)
    rw [decodeRows, List.length_map, List.length_range', reserve_eq hroom]
    rw [← hwidth] at hrest ⊢
    simp only [bind, Except.bind, hrow, hrest]
    rw [List.drop_eq_getElem_cons hlt]
    rfl

theorem readUintLe_header {writes : List (ℕ × Bytes)} {offset size n : ℕ}
    (hbytes : bytes.length ≤ u32Max) (h : Holds bytes writes)
    (hmem : (offset, leBytes size n) ∈ writes) (hn : n < 256 ^ size) :
    readUintLe size bytes offset = .ok n := by
  rw [u32Max] at hbytes
  exact readUintLe_eq (by omega) hn fun write hwrite => by
    rw [List.mem_singleton.mp hwrite]
    exact h _ hmem

/-- An encoded batch is decoded to its rows, with columns that are named by their places. -/
theorem decode_encodeWasmBatchV1 {metaSize : ℕ}
    (h : encodeWasmBatchV1 fmt columns rows = .ok bytes)
    (hkeeps : ∀ row ∈ rows, ∀ lit ∈ row, fmt.Keeps lit)
    (hrows : max 24 litSize * (rows.length + 1) ≤ limit)
    (hcolumns : max 24 (max litSize metaSize) * columns.length ≤ limit) :
    ∃ tags, resolveTags rows 0 columns = .ok tags ∧
      decodeWasmBatchV1 fmt limit litSize metaSize bytes = .ok (decodedMetas 0 tags, rows) := by
  obtain ⟨hrowCount, hcolCount, hwidths, payloads, metas, hbuild, hbytes, hmetasEnd, hplaced,
    hheader, hmetaFields, hpayloads⟩ := encodeWasmBatchV1_spec h
  have hmax := Nat.mul_le_mul_right (rows.length + 1) (le_max_left 24 litSize)
  have hmaxLit := Nat.mul_le_mul_right (rows.length + 1) (le_max_right 24 litSize)
  have hlits : litSize * rows.length ≤ limit :=
    (Nat.mul_le_mul_left _ (Nat.le_succ _)).trans (hmaxLit.trans hrows)
  have hcol {size : ℕ} (hsize : size ≤ max 24 (max litSize metaSize)) :
      size * columns.length ≤ limit := (Nat.mul_le_mul_right _ hsize).trans hcolumns
  obtain ⟨tags, htags, hcount, hdecode⟩ := decodeColumns_payloads hbuild hbytes
    (by rwa [Nat.zero_add]) hplaced hmetaFields hpayloads hkeeps hrowCount hlits (by omega)
  refine ⟨tags, htags, ?_⟩
  have hread {offset size n : ℕ}
      (hmem : (offset, leBytes size n) ∈ headerWrites rows.length columns.length)
      (hn : n < 256 ^ size) : readUintLe size bytes offset = .ok n :=
    readUintLe_header hbytes hheader hmem hn
  have hmagic : readUintLe 4 bytes 0 = .ok wasmBatchMagicV1 :=
    hread (by simp [headerWrites]) (by decide)
  have hversion : readUintLe 2 bytes 4 = .ok wasmBatchVersionV1 :=
    hread (by simp [headerWrites]) (by decide)
  rw [u32Max] at hrowCount hcolCount
  have hrowField : readUintLe 4 bytes 8 = .ok rows.length :=
    hread (by simp [headerWrites]) (by omega)
  have hcolField : readUintLe 4 bytes 12 = .ok columns.length :=
    hread (by simp [headerWrites]) (by omega)
  have hoffset : readUintLe 4 bytes 16 = .ok wasmBatchHeaderSize :=
    hread (by simp [headerWrites]) (by decide)
  have hmetasLen : saturatingMulUsize columns.length wasmBatchColumnMetaSize =
      columns.length * wasmBatchColumnMetaSize :=
    saturatingMulUsize_eq (by rw [wasmBatchColumnMetaSize]; omega)
  rw [u32Max] at hbytes
  have hrowsBack := decodeRows_columns hwidths
    (hcol ((le_max_left litSize metaSize).trans (le_max_right _ _))) (Nat.zero_le _)
  rw [Nat.sub_zero, List.drop_zero] at hrowsBack
  rw [decodeWasmBatchV1, if_neg (by omega), hmagic]
  simp only [bind, Except.bind, ne_eq, not_true_eq_false, if_false, hversion, hrowField, hcolField,
    hoffset, hmetasLen, saturatingAdd_eq (show wasmBatchHeaderSize +
      columns.length * wasmBatchColumnMetaSize < 2 ^ 64 by omega), if_neg (not_lt.mpr hmetasEnd),
    reserve_eq (hcol (le_max_left 24 _)),
    reserve_eq (hcol ((le_max_right litSize metaSize).trans (le_max_right _ _))), hdecode,
    reserve_eq (show 24 * rows.length ≤ limit by omega), columnsFrom_snd, hcount, hrowsBack,
    columnsFrom_fst]
  rfl

end Batches

end SkeinDB.Queries
