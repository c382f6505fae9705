import SkeinDB.Codec.Bitmap
import SkeinDB.Codec.Buffer
import SkeinDB.Codec.Checked
import SkeinDB.Format.Primitives
import SkeinDB.Tables.Table
import SkeinDB.Text.Utf8

/-!
# Columnar batches

`skeindb/src/engine.rs`: `encode_wasm_batch_v1` lays the columns of a result out in one buffer, with
the offsets of their areas in front of them, and `decode_wasm_batch_v1` finds them through offsets
that it does not trust. The decoder is modelled with its slices, its indices, its sums and products
and the capacities of its vectors checked, for any limit on the bytes that a vector may ask for (the
limit of the source is `isize::MAX`).
-/
namespace SkeinDB.Queries
open SkeinDB.Codec SkeinDB.Format SkeinDB.Tables SkeinDB.Text Checked

structure TypeDesc where
  kind : String
  max : Option ℕ
  precision : Option ℕ
  scale : Option ℕ
  charset : Option String
  collation : Option String
  unsigned : Option Bool
  deriving DecidableEq, Repr

structure ColumnMeta where
  name : String
  type : TypeDesc
  deriving DecidableEq, Repr

/-- The bits of a float, and `BASE64_STANDARD`. -/
structure BatchFormats where
  toBits : Float → UInt64
  ofBits : UInt64 → Float
  encodeBase64 : Bytes → String
  decodeBase64 : String → Option Bytes

def wasmBatchMagicV1 : ℕ := 0x31424B53

def wasmBatchVersionV1 : ℕ := 1

def wasmBatchHeaderSize : ℕ := 20

def wasmBatchColumnMetaSize : ℕ := 28

def u32Max : ℕ := 2 ^ 32 - 1

/-- `saturating_mul` of `usize`. -/
def saturatingMulUsize (a b : ℕ) : ℕ := min (a * b) (2 ^ 64 - 1)

inductive WasmBatchTypeTag
  | bool
  | i64
  | u64
  | f64
  | str
  | bytes
  deriving DecidableEq, Repr

namespace WasmBatchTypeTag

def fromKind : String → Option WasmBatchTypeTag
  | "bool" => some .bool
  | "i64" => some .i64
  | "u64" => some .u64
  | "f64" => some .f64
  | "str" | "string" | "varchar" => some .str
  | "bytes" => some .bytes
  | _ => none

def fromLit : Lit → Option WasmBatchTypeTag
  | .bool _ => some .bool
  | .i64 _ => some .i64
  | .u64 _ => some .u64
  | .f64 _ => some .f64
  | .str _ => some .str
  | .bytes _ => some .bytes
  | _ => none

def fromU32 : ℕ → Option WasmBatchTypeTag
  | 1 => some .bool
  | 2 => some .i64
  | 3 => some .u64
  | 4 => some .f64
  | 5 => some .str
  | 6 => some .bytes
  | _ => none

def code : WasmBatchTypeTag → ℕ
  | .bool => 1
  | .i64 => 2
  | .u64 => 3
  | .f64 => 4
  | .str => 5
  | .bytes => 6

def kind : WasmBatchTypeTag → String
  | .bool => "bool"
  | .i64 => "i64"
  | .u64 => "u64"
  | .f64 => "f64"
  | .str => "str"
  | .bytes => "bytes"

def fixedSizeBytes : WasmBatchTypeTag → Option ℕ
  | .bool => some 1
  | .i64 | .u64 | .f64 => some 8
  | .str | .bytes => none

end WasmBatchTypeTag

structure WasmBatchColumnPayload where
  tag : WasmBatchTypeTag
  data : Bytes
  nulls : Option Bytes
  aux : Option Bytes

structure WasmBatchColumnMeta where
  tag : WasmBatchTypeTag
  dataOffset : ℕ
  dataLen : ℕ
  nullsOffset : ℕ
  nullsLen : ℕ
  auxOffset : ℕ
  auxLen : ℕ

section Encoding
variable (fmt : BatchFormats)

def wasmNullBitmapLen (rows : ℕ) : ℕ := if rows = 0 then 0 else bitmapLen rows

def wasmSetBit (bitmap : Bytes) (rowIdx : ℕ) : Bytes :=
  if bitmap = [] then bitmap
  else if rowIdx / 8 < bitmap.length then setBit bitmap rowIdx
  else bitmap

/-- The type of a column whose kind does not tell it: the one of its first value. -/
def inferWasmBatchTag (colIdx : ℕ) : List (List Lit) → Except String WasmBatchTypeTag
  | [] => .error "invalid_request: cannot infer wasm batch column type"
  | row :: rows =>
    match row[colIdx]? with
    | none => .error "invalid_request: wasm batch row missing column"
    | some lit =>
      if lit.isNull then inferWasmBatchTag colIdx rows
      else match WasmBatchTypeTag.fromLit lit with
        | some tag => .ok tag
        | none => .error "invalid_request: unsupported literal in wasm batch"

def resolveWasmBatchTag (kind : String) (rows : List (List Lit)) (colIdx : ℕ) :
    Except String WasmBatchTypeTag :=
  match WasmBatchTypeTag.fromKind kind with
  | some tag => .ok tag
  | none => inferWasmBatchTag colIdx rows

/-- The bytes of a value that take as many as its type has. -/
def fixedBytes : WasmBatchTypeTag → Lit → Option Bytes
  | .bool, .bool v => some [if v then 1 else 0]
  | .i64, .i64 v => some (leBytes 8 (v % 2 ^ 64).toNat)
  | .u64, .u64 v => some (leBytes 8 v)
  | .f64, .f64 v => some (leBytes 8 (fmt.toBits v).toNat)
  | _, _ => none

def varBytes : WasmBatchTypeTag → Lit → Except String Bytes
  | .str, .str v => .ok (utf8 v.toList)
  | .bytes, .bytes b64 =>
    match fmt.decodeBase64 b64 with
    | some decoded => .ok decoded
    | none => .error "invalid_request: invalid bytes b64"
  | _, _ => .error "invalid_request: type mismatch in wasm batch column"

/-- What the rows of a column come to: the bytes of the values, the bitmap and whether any of them
is null, and the offsets where they have some. -/
structure ColumnBytes where
  data : Bytes
  offsets : List ℕ
  nulls : Bytes
  hasNull : Bool

/-- The rows from one on of a column whose values have `width` bytes each. -/
def fixedColumn (tag : WasmBatchTypeTag) (width colIdx : ℕ) :
    (rowIdx : ℕ) → Bytes → List (List Lit) → Except String ColumnBytes
  | _, nulls, [] => .ok ⟨[], [], nulls, false⟩
  | rowIdx, nulls, row :: rows =>
    match row[colIdx]? with
    | none => .error "invalid_request: wasm batch row missing column"
    | some lit =>
      if lit.isNull then do
        let rest ← fixedColumn tag width colIdx (rowIdx + 1) nulls rows
        return { rest with data := List.replicate width 0 ++ rest.data, hasNull := true }
      else match fixedBytes fmt tag lit with
        | none => .error "invalid_request: type mismatch in wasm batch column"
        | some bytes => do
          let rest ← fixedColumn tag width colIdx (rowIdx + 1) (wasmSetBit nulls rowIdx) rows
          return { rest with data := bytes ++ rest.data }

/-- The rows from one on of a column whose values have any number of bytes, the first of them at the
cursor. -/
def varColumn (tag : WasmBatchTypeTag) (colIdx : ℕ) :
    (rowIdx cursor : ℕ) → Bytes → List (List Lit) → Except String ColumnBytes
  | _, cursor, nulls, [] => .ok ⟨[], [cursor], nulls, false⟩
  | rowIdx, cursor, nulls, row :: rows =>
    match row[colIdx]? with
    | none => .error "invalid_request: wasm batch row missing column"
    | some lit =>
      if lit.isNull then
        if cursor > u32Max then .error "invalid_request: wasm batch column too large"
        else do
          let rest ← varColumn tag colIdx (rowIdx + 1) cursor nulls rows
          return { rest with offsets := cursor :: rest.offsets, hasNull := true }
      else do
        let bytes ← varBytes fmt tag lit
        if cursor + bytes.length > u32Max then
          .error "invalid_request: wasm batch column too large"
        else
          let rest ← varColumn tag colIdx (rowIdx + 1) (cursor + bytes.length)
            (wasmSetBit nulls rowIdx) rows
          return { rest with data := bytes ++ rest.data, offsets := cursor :: rest.offsets }

def buildWasmBatchPayload (tag : WasmBatchTypeTag) (rows : List (List Lit)) (colIdx : ℕ) :
    Except String WasmBatchColumnPayload :=
  let nulls := List.replicate (wasmNullBitmapLen rows.length) 0
  match tag.fixedSizeBytes with
  | some width => do
    let column ← fixedColumn fmt tag width colIdx 0 nulls rows
    return { tag, data := column.data, nulls := if column.hasNull then some column.nulls else none
             aux := none }
  | none => do
    let column ← varColumn fmt tag colIdx 0 0 nulls rows
    return { tag, data := column.data, nulls := if column.hasNull then some column.nulls else none
             aux := some (column.offsets.flatMap (leBytes 4)) }

/-- The payloads of the columns from one on. -/
def buildPayloads (rows : List (List Lit)) : (colIdx : ℕ) → List ColumnMeta →
    Except String (List WasmBatchColumnPayload)
  | _, [] => .ok []
  | colIdx, column :: columns => do
    let tag ← resolveWasmBatchTag column.type.kind rows colIdx
    let payload ← buildWasmBatchPayload fmt tag rows colIdx
    let payloads ← buildPayloads rows (colIdx + 1) columns
    return payload :: payloads

/-- The offset and the length of an area that a column may have, and the cursor behind it. -/
def placeArea (cursor : ℕ) : Option Bytes → (ℕ × ℕ) × ℕ
  | some bytes => ((cursor, bytes.length), cursor + bytes.length)
  | none => ((0, 0), cursor)

/-- Where the columns go, and the length of the buffer. -/
def layoutPayloads : (cursor : ℕ) → List WasmBatchColumnPayload →
    Except String (List WasmBatchColumnMeta × ℕ)
  | cursor, [] => .ok ([], cursor)
  | cursor, payload :: payloads =>
    let dataOffset := cursor
    let cursor := cursor + payload.data.length
    let (nullsArea, cursor) := placeArea cursor payload.nulls
    let (auxArea, cursor) := placeArea cursor payload.aux
    if cursor > u32Max then .error "invalid_request: wasm batch too large"
    else do
      let (metas, size) ← layoutPayloads cursor payloads
      return ({ tag := payload.tag, dataOffset, dataLen := payload.data.length
                nullsOffset := nullsArea.1, nullsLen := nullsArea.2
                auxOffset := auxArea.1, auxLen := auxArea.2 } :: metas, size)

def headerWrites (rowCount colCount : ℕ) : List (ℕ × Bytes) :=
  [(0, leBytes 4 wasmBatchMagicV1), (4, leBytes 2 wasmBatchVersionV1), (6, leBytes 2 0),
    (8, leBytes 4 rowCount), (12, leBytes 4 colCount), (16, leBytes 4 wasmBatchHeaderSize)]

def metaWrites (base : ℕ) (columnMeta : WasmBatchColumnMeta) : List (ℕ × Bytes) :=
  [(base, leBytes 4 columnMeta.tag.code), (base + 4, leBytes 4 columnMeta.dataOffset),
    (base + 8, leBytes 4 columnMeta.dataLen), (base + 12, leBytes 4 columnMeta.nullsOffset),
    (base + 16, leBytes 4 columnMeta.nullsLen), (base + 20, leBytes 4 columnMeta.auxOffset),
    (base + 24, leBytes 4 columnMeta.auxLen)]

/-- The writes of the column metas from one on. -/
def metasWrites : (idx : ℕ) → List WasmBatchColumnMeta → List (ℕ × Bytes)
  | _, [] => []
  | idx, columnMeta :: metas =>
    metaWrites (wasmBatchHeaderSize + idx * wasmBatchColumnMetaSize) columnMeta ++
      metasWrites (idx + 1) metas

/-- An area is copied if the column has it and it is not empty. -/
def areaWrites (offset len : ℕ) : Option Bytes → List (ℕ × Bytes)
  | some bytes => if len > 0 then [(offset, bytes)] else []
  | none => []

def payloadWrites (payload : WasmBatchColumnPayload) (columnMeta : WasmBatchColumnMeta) :
    List (ℕ × Bytes) :=
  areaWrites columnMeta.dataOffset columnMeta.dataLen (some payload.data) ++
    areaWrites columnMeta.nullsOffset columnMeta.nullsLen payload.nulls ++
    areaWrites columnMeta.auxOffset columnMeta.auxLen payload.aux

def payloadsWrites : List WasmBatchColumnPayload → List WasmBatchColumnMeta → List (ℕ × Bytes)
  | payload :: payloads, columnMeta :: metas =>
    payloadWrites payload columnMeta ++ payloadsWrites payloads metas
  | _, _ => []

/-- The first row with another number of columns. -/
def checkWidths (colCount : ℕ) : (idx : ℕ) → List (List Lit) → Except String Unit
  | _, [] => .ok ()
  | idx, row :: rows =>
    if row.length ≠ colCount then
      .error s!"invalid_request: wasm batch row {idx} has {row.length} columns (expected {colCount})"
    else checkWidths colCount (idx + 1) rows

def encodeWasmBatchV1 (columns : List ColumnMeta) (rows : List (List Lit)) :
    Except String Bytes := do
  if rows.length > u32Max ∨ columns.length > u32Max then
    .error "invalid_request: wasm batch too large"
  else
    checkWidths columns.length 0 rows
    let payloads ← buildPayloads fmt rows 0 columns
    let start := wasmBatchHeaderSize + columns.length * wasmBatchColumnMetaSize
    if start > u32Max then .error "invalid_request: wasm batch too large"
    else
      let (metas, size) ← layoutPayloads start payloads
      return writeAll (List.replicate size 0)
        (headerWrites rows.length columns.length ++ metasWrites 0 metas ++
          payloadsWrites payloads metas)

end Encoding

section Decoding

/-- `read_u16_le` and `read_u32_le`. -/
def readUintLe (size : ℕ) (buf : Bytes) (offset : ℕ) : Checked String ℕ :=
  let stop := saturatingAdd offset size
  if stop > buf.length then .error (.err "invalid_request: wasm batch header out of bounds")
  else return leNat (← slice buf offset stop)

def wasmIsNonNull (bitmap : Option Bytes) (rowIdx : ℕ) : Checked String Bool :=
  match bitmap with
  | none => .ok true
  | some bits =>
    if bits = [] then .ok true
    else if rowIdx / 8 ≥ bits.length then .ok false
    else return (← itemAt bits (rowIdx / 8)) &&& (1 <<< UInt8.ofNat (rowIdx % 8)) != 0

/-- The area that two fields of a column name: one at offset 0 or of length 0 is not there. -/
def optionalArea (bytes : Bytes) (offset len : ℕ) (beyond : String) :
    Checked String (Option Bytes) :=
  if offset = 0 ∨ len = 0 then .ok none
  else
    let stop := saturatingAdd offset len
    if stop > bytes.length then .error (.err beyond)
    else return some (← slice bytes offset stop)

/-- `as_chunks::<4>().0`, each chunk as the number it has. -/
def leChunks : Bytes → List ℕ
  | a :: b :: c :: d :: bytes => leNat [a, b, c, d] :: leChunks bytes
  | _ => []

variable (fmt : BatchFormats)

def fixedLit (tag : WasmBatchTypeTag) (bytes : Bytes) : Checked String Lit :=
  match tag with
  | .bool => return .bool ((← itemAt bytes 0) != 0)
  | .i64 => .ok (.i64 ((leNat bytes + 2 ^ 63 : ℤ) % 2 ^ 64 - 2 ^ 63))
  | .u64 => .ok (.u64 (leNat bytes))
  | .f64 => .ok (.f64 (fmt.ofBits (.ofNat (leNat bytes))))
  | .str | .bytes => .ok .null

def varLit (tag : WasmBatchTypeTag) (bytes : Bytes) : Checked String Lit :=
  match tag with
  | .str =>
    match fromUtf8 bytes with
    | some chars => .ok (.str (.ofList chars))
    | none => .error (.err "invalid_request: invalid utf8 in batch")
  | .bytes => .ok (.bytes (fmt.encodeBase64 bytes))
  | _ => .ok .null

/-- The rows from one on, as many as are left, of a column with `width` bytes for each. -/
def decodeFixed (tag : WasmBatchTypeTag) (width : ℕ) (data : Bytes) (nulls : Option Bytes) :
    (count rowIdx : ℕ) → Checked String (List Lit)
  | 0, _ => .ok []
  | count + 1, rowIdx => do
    if ← wasmIsNonNull nulls rowIdx then
      let offset ← mul rowIdx width
      let stop ← add offset width
      let lit ← fixedLit fmt tag (← slice data offset stop)
      return lit :: (← decodeFixed tag width data nulls count (rowIdx + 1))
    else
      return .null :: (← decodeFixed tag width data nulls count (rowIdx + 1))

/-- The rows from one on, as many as are left, of a column with offsets. -/
def decodeVar (tag : WasmBatchTypeTag) (data : Bytes) (offsets : List ℕ) (nulls : Option Bytes) :
    (count rowIdx : ℕ) → Checked String (List Lit)
  | 0, _ => .ok []
  | count + 1, rowIdx => do
    if ← wasmIsNonNull nulls rowIdx then
      let start ← itemAt offsets rowIdx
      let stop ← itemAt offsets (rowIdx + 1)
      if start > stop ∨ stop > data.length then
        .error (.err "invalid_request: wasm batch offsets out of bounds")
      else
        let lit ← varLit fmt tag (← slice data start stop)
        return lit :: (← decodeVar tag data offsets nulls count (rowIdx + 1))
    else
      return .null :: (← decodeVar tag data offsets nulls count (rowIdx + 1))

/-- A `Lit` takes `litSize` bytes in a vector, and an offset takes 8. A vector may ask for `limit`
bytes. -/
def decodeWasmBatchColumn (limit litSize : ℕ) (tag : WasmBatchTypeTag) (rowCount : ℕ) (data : Bytes)
    (nulls aux : Option Bytes) : Checked String (List Lit) :=
  if nulls.any (fun bitmap => bitmap.length != wasmNullBitmapLen rowCount) ∧ rowCount > 0 then
    .error (.err "invalid_request: wasm batch null bitmap length mismatch")
  else
    match tag.fixedSizeBytes with
    | some width =>
      if data.length ≠ saturatingMulUsize rowCount width then
        .error (.err "invalid_request: wasm batch fixed column length mismatch")
      else do
        let _ : List Lit ← reserve limit litSize rowCount
        decodeFixed fmt tag width data nulls rowCount 0
    | none =>
      match aux with
      | none => .error (.err "invalid_request: wasm batch missing varlen offsets")
      | some auxBytes =>
        if auxBytes.length ≠ saturatingMulUsize (saturatingAdd rowCount 1) 4 ∧ rowCount > 0 then
          .error (.err "invalid_request: wasm batch offsets length mismatch")
        else do
          let _ : List ℕ ← reserve limit 8 (saturatingAdd rowCount 1)
          let offsets := leChunks auxBytes
          if offsets.length ≠ (← add rowCount 1) then
            .error (.err "invalid_request: wasm batch offsets length mismatch")
          else
            let _ : List Lit ← reserve limit litSize rowCount
            decodeVar fmt tag data offsets nulls rowCount 0

def decodedColumnMeta (idx : ℕ) (tag : WasmBatchTypeTag) : ColumnMeta where
  name := s!"col_{idx}"
  type :=
    { kind := tag.kind, max := none, precision := none, scale := none, charset := none
      collation := none, unsigned := none }

/-- The columns from one on, as many as are left, with their values. -/
def decodeColumns (limit litSize : ℕ) (bytes : Bytes) (rowCount columnsOffset : ℕ) :
    (count idx : ℕ) → Checked String (List (ColumnMeta × List Lit))
  | 0, _ => .ok []
  | count + 1, idx => do
    let skipped ← mul idx wasmBatchColumnMetaSize
    let base ← add columnsOffset skipped
    let tagRaw ← readUintLe 4 bytes base
    match WasmBatchTypeTag.fromU32 tagRaw with
    | none => .error (.err "invalid_request: unknown wasm batch type tag")
    | some tag =>
      let dataOffset ← readUintLe 4 bytes (← add base 4)
      let dataLen ← readUintLe 4 bytes (← add base 8)
      let nullsOffset ← readUintLe 4 bytes (← add base 12)
      let nullsLen ← readUintLe 4 bytes (← add base 16)
      let auxOffset ← readUintLe 4 bytes (← add base 20)
      let auxLen ← readUintLe 4 bytes (← add base 24)
      let dataEnd := saturatingAdd dataOffset dataLen
      if dataEnd > bytes.length then
        .error (.err "invalid_request: wasm batch data out of bounds")
      else
        let data ← slice bytes dataOffset dataEnd
        let nulls ← optionalArea bytes nullsOffset nullsLen
          "invalid_request: wasm batch nulls out of bounds"
        let aux ← optionalArea bytes auxOffset auxLen
          "invalid_request: wasm batch aux out of bounds"
        let values ← decodeWasmBatchColumn fmt limit litSize tag rowCount data nulls aux
        let columns ← decodeColumns limit litSize bytes rowCount columnsOffset count (idx + 1)
        return (decodedColumnMeta idx tag, values) :: columns

/-- A row of the values that the columns have. -/
def rowAt (columnValues : List (List Lit)) (rowIdx : ℕ) : Checked String (List Lit) :=
  columnValues.mapM fun column =>
    match column[rowIdx]? with
    | some value => .ok value
    | none => .error (.err "invalid_request: wasm batch row out of bounds")

/-- The rows from one on, as many as are left. -/
def decodeRows (limit litSize : ℕ) (columnValues : List (List Lit)) :
    (count rowIdx : ℕ) → Checked String (List (List Lit))
  | 0, _ => .ok []
  | count + 1, rowIdx => do
    let _ : List Lit ← reserve limit litSize columnValues.length
    let row ← rowAt columnValues rowIdx
    return row :: (← decodeRows limit litSize columnValues count (rowIdx + 1))

/-- A `Vec` takes 24 bytes in a vector of them, and a `ColumnMeta` takes `metaSize`. -/
def decodeWasmBatchV1 (limit litSize metaSize : ℕ) (bytes : Bytes) :
    Checked String (List ColumnMeta × List (List Lit)) :=
  if bytes.length < wasmBatchHeaderSize then
    .error (.err "invalid_request: wasm batch too short")
  else do
    let magic ← readUintLe 4 bytes 0
    if magic ≠ wasmBatchMagicV1 then
      .error (.err "invalid_request: unsupported wasm batch magic")
    else
      let version ← readUintLe 2 bytes 4
      if version ≠ wasmBatchVersionV1 then
        .error (.err "invalid_request: unsupported wasm batch version")
      else
        let rowCount ← readUintLe 4 bytes 8
        let colCount ← readUintLe 4 bytes 12
        let columnsOffset ← readUintLe 4 bytes 16
        let metasLen := saturatingMulUsize colCount wasmBatchColumnMetaSize
        if saturatingAdd columnsOffset metasLen > bytes.length then
          .error (.err "invalid_request: wasm batch metadata out of bounds")
        else
          let _ : List (List Lit) ← reserve limit 24 colCount
          let _ : List ColumnMeta ← reserve limit metaSize colCount
          let columns ← decodeColumns fmt limit litSize bytes rowCount columnsOffset colCount 0
          let _ : List (List Lit) ← reserve limit 24 rowCount
          let rows ← decodeRows limit litSize (columns.map Prod.snd) rowCount 0
          return (columns.map Prod.fst, rows)

end Decoding

end SkeinDB.Queries
