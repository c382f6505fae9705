import SkeinDB.Queries.BatchRoundTrip

/-!
# Batches that anyone may send

`decode_wasm_batch_v1` checks every offset that it follows, so that it never reads outside of its
input. Where a batch has a column, its rows take bytes of the input, and with them every vector that
is asked for; a batch without columns may announce any number of rows.
-/
namespace SkeinDB.Queries
open SkeinDB.Codec SkeinDB.Format SkeinDB.Tables SkeinDB.Text Checked

section Fields
variable {bytes : Bytes} {size offset len n : ℕ}

/-- A number of so many bytes. -/
theorem readUintLe_yields (h : offset + size < 2 ^ 64) :
    Yields (readUintLe size bytes offset) (· < 256 ^ size) := by
  rw [readUintLe, saturatingAdd_eq h]
  split_ifs with hend
  · exact .err _
  · rw [slice_area (not_lt.mp hend)]
    have hlt := leNat_lt (area bytes offset size)
    rw [area, List.length_take_of_le (by rw [List.length_drop]; omega)] at hlt
    exact .ok hlt

/-- An area is a part of the input. -/
theorem optionalArea_yields (hoffset : offset + len < 2 ^ 64) (beyond : String) :
    Yields (optionalArea bytes offset len beyond)
      fun piece => ∀ area, piece = some area → area.length ≤ bytes.length := by
  rw [optionalArea, saturatingAdd_eq hoffset]
  dsimp only
  split_ifs with hnone hend
  · exact .ok fun _ h => by cases h
  · exact .err _
  · rw [slice_area (not_lt.mp hend)]
    refine .ok fun piece h => ?_
    rw [← Option.some.inj h, area, List.length_take, List.length_drop]
    omega

theorem wasmIsNonNull_safe (bitmap : Option Bytes) (rowIdx : ℕ) :
    Safe (wasmIsNonNull bitmap rowIdx) := by
  cases bitmap with
  | none => exact .ok _
  | some bits =>
    by_cases hnil : bits = []
    · rw [wasmIsNonNull, if_pos hnil]
      exact .ok _
    · rw [wasmIsNonNull_eq hnil]
      exact .ok _

end Fields

section Values
variable {fmt : BatchFormats} {tag : WasmBatchTypeTag} {data : Bytes} {nulls aux : Option Bytes}
  {limit litSize width rowCount count rowIdx : ℕ}

theorem fixedLit_safe {bytes : Bytes} (h : bytes ≠ []) : Safe (fixedLit fmt tag bytes) := by
  obtain ⟨b, bytes, rfl⟩ := List.exists_cons_of_ne_nil h
  cases tag <;> exact .ok _

theorem varLit_safe (bytes : Bytes) : Safe (varLit fmt tag bytes) := by
  cases tag with
  | str =>
    rw [varLit]
    cases fromUtf8 bytes with
    | none => exact .err _
    | some chars => exact .ok _
  | _ => exact .ok _

theorem decodeFixed_safe (hwidth : 0 < width) (hdata : data.length = (rowIdx + count) * width)
    (hroom : (rowIdx + count) * width < 2 ^ 64) :
    Safe (decodeFixed fmt tag width data nulls count rowIdx) := by
  induction count generalizing rowIdx with
  | zero => exact .ok _
  | succ count ih =>
    rw [Nat.add_comm count 1, ← Nat.add_assoc] at hdata hroom
    have hrest := ih hdata hroom
    have hnext := Nat.mul_le_mul_right width (Nat.le_add_right (rowIdx + 1) count)
    rw [Nat.add_one_mul rowIdx] at hnext
    refine (wasmIsNonNull_safe nulls rowIdx).bind fun nonNull _ => ?_
    split_ifs
    · rw [mul_eq (by omega)]
      change Safe (add (rowIdx * width) width >>= _)
      rw [add_eq (by omega)]
      change Safe (slice data (rowIdx * width) (rowIdx * width + width) >>= _)
      rw [slice_area (by omega)]
      have hne : area data (rowIdx * width) width ≠ [] := by
        refine List.ne_nil_of_length_pos ?_
        rw [area, List.length_take, List.length_drop]
        omega
      exact (fixedLit_safe hne).bind fun _ _ => hrest.bind fun _ _ => .ok _
    · exact hrest.bind fun _ _ => .ok _

theorem decodeVar_safe {offsets : List ℕ} (hoffsets : offsets.length = rowIdx + count + 1) :
    Safe (decodeVar fmt tag data offsets nulls count rowIdx) := by
  induction count generalizing rowIdx with
  | zero => exact .ok _
  | succ count ih =>
    have hrest := ih (show offsets.length = rowIdx + 1 + count + 1 by omega)
    refine (wasmIsNonNull_safe nulls rowIdx).bind fun nonNull _ => ?_
    split_ifs
    · have hstart := List.getElem?_eq_getElem (show rowIdx < offsets.length by omega)
      have hstop := List.getElem?_eq_getElem (show rowIdx + 1 < offsets.length by omega)
      simp only [bind, Except.bind, itemAt_eq hstart, itemAt_eq hstop]
      split_ifs with hbounds
      · exact .err _
      · rw [slice_eq (by omega)]
        exact (varLit_safe _).bind fun _ _ => hrest.bind fun _ _ => .ok _
    · exact hrest.bind fun _ _ => .ok _

/-- The vectors that a column asks for have room. -/
structure ColumnRoom (limit litSize rowCount len : ℕ) : Prop where
  values : litSize * min rowCount len ≤ limit
  offsets : 8 * (min rowCount len + 1) ≤ limit

/-- A column reads without a fault, and where it reads, its rows take bytes of the input. -/
theorem decodeWasmBatchColumn_yields {len : ℕ} (hroom : ColumnRoom limit litSize rowCount len)
    (hrows : rowCount ≤ u32Max) (hdata : data.length ≤ len)
    (haux : ∀ auxBytes, aux = some auxBytes → auxBytes.length ≤ len) :
    Yields (decodeWasmBatchColumn fmt limit litSize tag rowCount data nulls aux)
      fun _ => rowCount ≤ len := by
  rw [u32Max] at hrows
  unfold decodeWasmBatchColumn
  split_ifs with hbitmap
  · exact .err _
  cases hwidth : tag.fixedSizeBytes with
  | some width =>
    obtain ⟨hpos, hle⟩ := fixedSizeBytes_le hwidth
    have hfits : rowCount * width < 2 ^ 64 := by
      have := Nat.mul_le_mul hrows hle
      omega
    have htake := Nat.le_mul_of_pos_right rowCount hpos
    simp only
    rw [saturatingMulUsize_eq hfits]
    split_ifs with hlength
    · exact .err _
    · have hvalues := hroom.values
      rw [min_eq_left (by omega)] at hvalues
      rw [reserve_eq hvalues]
      refine ⟨decodeFixed_safe hpos ?_ ?_, fun _ _ => by omega⟩
      · rw [Nat.zero_add, ← not_not.mp hlength]
      · rwa [Nat.zero_add]
  | none =>
    cases aux with
    | none => exact .err _
    | some auxBytes =>
      have hauxLe := haux auxBytes rfl
      simp only
      rw [saturatingAdd_eq (by omega), saturatingMulUsize_eq (by omega)]
      split_ifs with hoffsets
      · exact .err _
      · have hcount : rowCount ≤ len := by
          by_contra hlt
          exact hoffsets ⟨by omega, by omega⟩
        have hvalues := hroom.values
        have hcapacity := hroom.offsets
        rw [min_eq_left hcount] at hvalues hcapacity
        rw [reserve_eq hcapacity]
        simp only [bind, Except.bind, add_eq (show rowCount + 1 < 2 ^ 64 by omega),
          reserve_eq hvalues]
        refine ⟨?_, fun _ _ => hcount⟩
        split_ifs with hchunks
        · exact .err _
        · exact decodeVar_safe (by rw [not_not.mp hchunks, Nat.zero_add])

end Values

section Batches
variable {fmt : BatchFormats} {bytes : Bytes} {limit litSize metaSize rowCount colCount : ℕ}

/-- The columns read without a fault, and where there are some, their rows take bytes of the
input. -/
theorem decodeColumns_yields {columnsOffset count idx : ℕ} (hrows : rowCount ≤ u32Max)
    (hroom : ColumnRoom limit litSize rowCount bytes.length)
    (hbase : columnsOffset + (idx + count) * wasmBatchColumnMetaSize < 2 ^ 63) :
    Yields (decodeColumns fmt limit litSize bytes rowCount columnsOffset count idx)
      fun columns => columns.length = count ∧ (0 < count → rowCount ≤ bytes.length) := by
  induction count generalizing idx with
  | zero => exact .ok ⟨rfl, fun h => absurd h (lt_irrefl 0)⟩
  | succ count ih =>
    rw [wasmBatchColumnMetaSize] at hbase ih
    have hmul : idx * wasmBatchColumnMetaSize < 2 ^ 64 := by
      rw [wasmBatchColumnMetaSize]
      omega
    have hsum : columnsOffset + idx * wasmBatchColumnMetaSize < 2 ^ 63 := by
      rw [wasmBatchColumnMetaSize]
      omega
    have hrest := ih (show columnsOffset + (idx + 1 + count) * 28 < 2 ^ 63 by omega)
    rw [decodeColumns, mul_eq hmul]
    change Yields (add columnsOffset (idx * wasmBatchColumnMetaSize) >>= _) _
    rw [add_eq (by omega)]
    change Yields (readUintLe 4 bytes (columnsOffset + idx * wasmBatchColumnMetaSize) >>= _) _
    generalize columnsOffset + idx * wasmBatchColumnMetaSize = base at hsum ⊢
    have hadd {n : ℕ} (hn : n ≤ 24) : add (ε := String) base n = .ok (base + n) :=
      add_eq (by omega)
    have hfield {n : ℕ} (hn : n ≤ 24) : Yields (readUintLe 4 bytes (base + n)) (· < 256 ^ 4) :=
      readUintLe_yields (by omega)
    refine (hfield (Nat.zero_le 24)).bind fun tagRaw _ => ?_
    cases WasmBatchTypeTag.fromU32 tagRaw with
    | none => exact .err _
    | some tag =>
      simp only [hadd (by norm_num : 4 ≤ 24), hadd (by norm_num : 8 ≤ 24),
        hadd (by norm_num : 12 ≤ 24), hadd (by norm_num : 16 ≤ 24), hadd (by norm_num : 20 ≤ 24),
        hadd (le_refl 24), bind_ok]
      refine (hfield (by norm_num)).bind fun dataOffset hdataOffset => ?_
      refine (hfield (by norm_num)).bind fun dataLen hdataLen => ?_
      refine (hfield (by norm_num)).bind fun nullsOffset hnullsOffset => ?_
      refine (hfield (by norm_num)).bind fun nullsLen hnullsLen => ?_
      refine (hfield (by norm_num)).bind fun auxOffset hauxOffset => ?_
      refine (hfield (by norm_num)).bind fun auxLen hauxLen => ?_
      rw [saturatingAdd_eq (by omega)]
      split_ifs with hend
      · exact .err _
      · rw [slice_area (not_lt.mp hend), bind_ok]
        refine (optionalArea_yields (by omega) _).bind fun nulls _ => ?_
        refine (optionalArea_yields (by omega) _).bind fun aux haux => ?_
        have hdata : (area bytes dataOffset dataLen).length ≤ bytes.length := by
          rw [area, List.length_take, List.length_drop]
          omega
        refine (decodeWasmBatchColumn_yields hroom hrows hdata haux).bind fun values hle => ?_
        exact hrest.bind fun rest hlength => .ok ⟨congrArg (· + 1) hlength.1, fun _ => hle⟩

theorem rowAt_safe (columnValues : List (List Lit)) (rowIdx : ℕ) :
    Safe (rowAt columnValues rowIdx) := by
  induction columnValues with
  | nil => exact .ok _
  | cons column columnValues ih =>
    rw [rowAt, List.mapM_cons]
    refine Safe.bind ?_ fun value _ => ih.bind fun _ _ => .ok _
    cases column[rowIdx]? with
    | none => exact .err _
    | some value => exact .ok _

theorem decodeRows_safe {columnValues : List (List Lit)} {count rowIdx : ℕ}
    (hroom : litSize * columnValues.length ≤ limit) :
    Safe (decodeRows limit litSize columnValues count rowIdx) := by
  induction count generalizing rowIdx with
  | zero => exact .ok _
  | succ count ih =>
    rw [decodeRows, reserve_eq hroom]
    exact (rowAt_safe columnValues rowIdx).bind fun _ _ => ih.bind fun _ _ => .ok _

/-- The rows and the columns that the header of a batch announces. -/
def batchRows (bytes : Bytes) : ℕ := leNat (area bytes 8 4)

def batchColumns (bytes : Bytes) : ℕ := leNat (area bytes 12 4)

/-- The vectors that a batch asks for have room. -/
structure BatchRoom (limit litSize metaSize : ℕ) (bytes : Bytes) : Prop where
  column : ColumnRoom limit litSize (batchRows bytes) bytes.length
  columns : batchColumns bytes * wasmBatchColumnMetaSize ≤ bytes.length →
    max 24 (max litSize metaSize) * batchColumns bytes ≤ limit
  rows : (0 < batchColumns bytes → batchRows bytes ≤ bytes.length) → 24 * batchRows bytes ≤ limit

theorem readUintLe_eq_area {size offset : ℕ} (h : offset + size ≤ bytes.length)
    (hroom : offset + size < 2 ^ 64) :
    readUintLe size bytes offset = .ok (leNat (area bytes offset size)) := by
  rw [readUintLe, saturatingAdd_eq hroom, if_neg (not_lt.mpr h), slice_area h]
  rfl

theorem area_lt (offset : ℕ) : leNat (area bytes offset 4) < 2 ^ 32 := by
  have hlt := leNat_lt (area bytes offset 4)
  have hlength : (area bytes offset 4).length ≤ 4 := List.length_take_le _ _
  have hpow : 256 ^ (area bytes offset 4).length ≤ 256 ^ 4 :=
    Nat.pow_le_pow_right (by norm_num) hlength
  omega

/-- A batch reads without a fault where there is room for its vectors. -/
theorem decodeWasmBatchV1_safe (hroom : BatchRoom limit litSize metaSize bytes) :
    Safe (decodeWasmBatchV1 fmt limit litSize metaSize bytes) := by
  have hrows : batchRows bytes < 2 ^ 32 := area_lt 8
  have hcols : batchColumns bytes < 2 ^ 32 := area_lt 12
  have hoffset : leNat (area bytes 16 4) < 2 ^ 32 := area_lt 16
  rw [decodeWasmBatchV1]
  split_ifs with hshort
  · exact .err _
  rw [wasmBatchHeaderSize, not_lt] at hshort
  refine (readUintLe_yields (by norm_num)).safe.bind fun magic _ => ?_
  split_ifs with hmagic
  · exact .err _
  refine (readUintLe_yields (by norm_num)).safe.bind fun version _ => ?_
  split_ifs with hversion
  · exact .err _
  rw [readUintLe_eq_area (by omega) (by norm_num), bind_ok,
    readUintLe_eq_area (by omega) (by norm_num), bind_ok,
    readUintLe_eq_area (by omega) (by norm_num), bind_ok]
  rw [show leNat (area bytes 8 4) = batchRows bytes from rfl,
    show leNat (area bytes 12 4) = batchColumns bytes from rfl]
  have hmul : batchColumns bytes * wasmBatchColumnMetaSize < 2 ^ 63 := by
    rw [wasmBatchColumnMetaSize]
    omega
  dsimp only
  rw [saturatingMulUsize_eq (by omega), saturatingAdd_eq (by omega)]
  split_ifs with hend
  · exact .err _
  have hcolumns := hroom.columns (by omega)
  have hcol {size : ℕ} (hsize : size ≤ max 24 (max litSize metaSize)) :
      size * batchColumns bytes ≤ limit := (Nat.mul_le_mul_right _ hsize).trans hcolumns
  rw [reserve_eq (hcol (le_max_left 24 _)), bind_ok,
    reserve_eq (hcol ((le_max_right litSize metaSize).trans (le_max_right _ _))), bind_ok]
  have hyields : Yields (decodeColumns fmt limit litSize bytes (batchRows bytes)
      (leNat (area bytes 16 4)) (batchColumns bytes) 0) _ :=
    decodeColumns_yields (by rw [u32Max]; omega) hroom.column
      (by rw [Nat.zero_add, wasmBatchColumnMetaSize]; omega)
  refine hyields.safe.bind fun columns hcolumnsOk => ?_
  obtain ⟨hlength, hrowsLe⟩ := hyields.2 columns hcolumnsOk
  rw [reserve_eq (hroom.rows hrowsLe), bind_ok]
  refine (decodeRows_safe ?_).bind fun _ _ => .ok _
  rw [List.length_map, hlength]
  exact hcol ((le_max_left litSize metaSize).trans (le_max_right _ _))

/-- Any batch has room for its vectors in a memory of `isize::MAX` bytes. -/
theorem batchRoom_isizeMax (hlit : litSize < 2 ^ 30) (hmeta : metaSize < 2 ^ 30) :
    BatchRoom isizeMax litSize metaSize bytes := by
  have hrows : batchRows bytes < 2 ^ 32 := area_lt 8
  have hcols : batchColumns bytes < 2 ^ 32 := area_lt 12
  have hmin : min (batchRows bytes) bytes.length ≤ 2 ^ 32 := (min_le_left _ _).trans hrows.le
  have hsize : max 24 (max litSize metaSize) ≤ 2 ^ 30 :=
    max_le (by norm_num) (max_le hlit.le hmeta.le)
  have hbig : 2 ^ 30 * 2 ^ 32 ≤ isizeMax := by decide
  exact
    { column :=
        { values := (Nat.mul_le_mul hlit.le hmin).trans hbig
          offsets := by
            rw [isizeMax]
            omega }
      columns := fun _ => (Nat.mul_le_mul hsize hcols.le).trans hbig
      rows := fun _ => (Nat.mul_le_mul (by norm_num) hrows.le).trans hbig }

/-- A batch with a column has room for its vectors in a multiple of its own size. -/
theorem batchRoom_input (hcolumns : 0 < batchColumns bytes)
    (hheader : wasmBatchHeaderSize ≤ bytes.length) :
    BatchRoom ((24 + litSize + metaSize) * bytes.length) litSize metaSize bytes := by
  have hsize : max 24 (max litSize metaSize) ≤ 24 + litSize + metaSize := by omega
  rw [wasmBatchHeaderSize] at hheader
  have hall : 24 * bytes.length ≤ (24 + litSize + metaSize) * bytes.length :=
    Nat.mul_le_mul_right _ (by omega)
  exact
    { column :=
        { values := Nat.mul_le_mul (by omega) (min_le_right _ _)
          offsets := by omega }
      columns := fun hle => Nat.mul_le_mul hsize (by rw [wasmBatchColumnMetaSize] at hle; omega)
      rows := fun hle => Nat.mul_le_mul (by omega) (hle hcolumns) }

theorem decodeWasmBatchV1_short (hshort : bytes.length < wasmBatchHeaderSize) :
    Safe (decodeWasmBatchV1 fmt limit litSize metaSize bytes) := by
  rw [decodeWasmBatchV1, if_pos hshort]
  exact .err _

end Batches

section Results
variable (fmt : BatchFormats) {litSize metaSize : ℕ}

/-- The rows of a batch come back, and its columns with the names of their places and the kinds of
their tags. No bytes make the decoder fault, and where they announce a column, every vector that it
asks for is bounded by their number times a constant. -/
theorem wasm_batch_codec (hlit : litSize < 2 ^ 30) (hmeta : metaSize < 2 ^ 30) :
    (∀ columns rows bytes, encodeWasmBatchV1 fmt columns rows = .ok bytes →
      (∀ row ∈ rows, ∀ lit ∈ row, fmt.Keeps lit) →
      ∃ tags, resolveTags rows 0 columns = .ok tags ∧
        decodeWasmBatchV1 fmt isizeMax litSize metaSize bytes = .ok (decodedMetas 0 tags, rows)) ∧
    (∀ bytes, Safe (decodeWasmBatchV1 fmt isizeMax litSize metaSize bytes)) ∧
    ∀ bytes, 0 < batchColumns bytes → Safe
      (decodeWasmBatchV1 fmt ((24 + litSize + metaSize) * bytes.length) litSize metaSize bytes) := by
  refine ⟨fun columns rows bytes hencode hkeeps => ?_,
    fun bytes => decodeWasmBatchV1_safe (batchRoom_isizeMax hlit hmeta), fun bytes hcolumns => ?_⟩
  · obtain ⟨hrows, hcols, -⟩ := encodeWasmBatchV1_spec hencode
    have hbig : 2 ^ 30 * (2 ^ 32) ≤ isizeMax := by decide
    rw [u32Max] at hrows hcols
    exact decode_encodeWasmBatchV1 hencode hkeeps
      ((Nat.mul_le_mul (max_le (by norm_num) hlit.le) (by omega)).trans hbig)
      ((Nat.mul_le_mul (max_le (by norm_num) (max_le hlit.le hmeta.le)) (by omega)).trans hbig)
  · rcases lt_or_ge bytes.length wasmBatchHeaderSize with hshort | hheader
    · exact decodeWasmBatchV1_short hshort
    · exact decodeWasmBatchV1_safe (batchRoom_input hcolumns hheader)

end Results

/-- `BASE64_STANDARD` on two bytes. -/
def plainBatchFormats : BatchFormats where
  toBits := Float.toBits
  ofBits := Float.ofBits
  encodeBase64 bytes := if bytes = [1, 2] then "AQI=" else ""
  decodeBase64 b64 := if b64 = "AQI=" then some [1, 2] else none

def kindColumn (name kind : String) : ColumnMeta :=
  ⟨name, ⟨kind, none, none, none, none, none, none⟩⟩

def countColumn : ColumnMeta := kindColumn "n" "i64"

def countRows : List (List Lit) := [[.i64 7], [.null]]

/-- The header, the fields of the column, its two values and its bitmap. -/
def countBatch : Bytes :=
  [83, 75, 66, 49, 1, 0, 0, 0, 2, 0, 0, 0, 1, 0, 0, 0, 20, 0, 0, 0] ++
    [2, 0, 0, 0, 48, 0, 0, 0, 16, 0, 0, 0, 64, 0, 0, 0, 1, 0, 0, 0, 0, 0, 0, 0, 0, 0, 0, 0] ++
    [7, 0, 0, 0, 0, 0, 0, 0, 0, 0, 0, 0, 0, 0, 0, 0] ++ [1]

set_option maxRecDepth 4000 in
theorem encode_countRows :
    encodeWasmBatchV1 plainBatchFormats [countColumn] countRows = .ok countBatch := by rfl

theorem countRows_keep : ∀ row ∈ countRows, ∀ lit ∈ row, plainBatchFormats.Keeps lit := by
  simp [countRows, BatchFormats.Keeps]

def mixedColumns : List ColumnMeta :=
  [countColumn, kindColumn "s" "varchar", kindColumn "b" "bytes", kindColumn "u" "bool"]

def mixedRows : List (List Lit) :=
  [[.null, .str "né", .bytes "AQI=", .null], [.i64 (-7), .null, .null, .null],
    [.i64 9, .str "", .bytes "AQI=", .null]]

/-- The rows come back from the bytes that they are encoded to. -/
def ComesBack (rows : List (List Lit)) : Prop :=
  ∃ bytes tags, encodeWasmBatchV1 plainBatchFormats mixedColumns rows = .ok bytes ∧
    resolveTags rows 0 mixedColumns = .ok tags ∧
    decodeWasmBatchV1 plainBatchFormats isizeMax 56 200 bytes = .ok (decodedMetas 0 tags, rows)

/-- Strings, bytes and nulls, a column of nulls only, and no rows at all. -/
theorem wasm_batch_codec_sample : ComesBack mixedRows ∧ ComesBack [] := by
  have hcodec := (wasm_batch_codec plainBatchFormats (by norm_num : 56 < 2 ^ 30)
    (by norm_num : 200 < 2 ^ 30)).1
  constructor
  · obtain ⟨bytes, hbytes⟩ : ∃ bytes,
        encodeWasmBatchV1 plainBatchFormats mixedColumns mixedRows = .ok bytes := ⟨_, rfl⟩
    obtain ⟨tags, htags, hdecode⟩ := hcodec _ _ _ hbytes
      (by simp [mixedRows, BatchFormats.Keeps, plainBatchFormats])
    exact ⟨bytes, tags, hbytes, htags, hdecode⟩
  · obtain ⟨bytes, hbytes⟩ : ∃ bytes,
        encodeWasmBatchV1 plainBatchFormats mixedColumns [] = .ok bytes := ⟨_, rfl⟩
    obtain ⟨tags, htags, hdecode⟩ := hcodec _ _ _ hbytes (fun row hrow => by cases hrow)
    exact ⟨bytes, tags, hbytes, htags, hdecode⟩

/-- The name of a column is not a part of the batch. -/
theorem column_name_lost :
    encodeWasmBatchV1 plainBatchFormats [countColumn] countRows = .ok countBatch ∧
      decodeWasmBatchV1 plainBatchFormats isizeMax 56 200 countBatch ≠ .ok ([countColumn], countRows) := by
  refine ⟨encode_countRows, fun h => ?_⟩
  obtain ⟨tags, htags, hdecode⟩ := decode_encodeWasmBatchV1 encode_countRows countRows_keep
    (show max 24 56 * (countRows.length + 1) ≤ isizeMax by decide)
    (show max 24 (max 56 200) * [countColumn].length ≤ isizeMax by decide)
  obtain rfl := Except.ok.inj (htags.symm.trans
    (show resolveTags countRows 0 [countColumn] = Except.ok [.i64] from rfl))
  have hnames := congrArg (List.map ColumnMeta.name)
    (Prod.ext_iff.mp (Except.ok.inj (hdecode.symm.trans h))).1
  exact absurd hnames (by decide)

end SkeinDB.Queries
