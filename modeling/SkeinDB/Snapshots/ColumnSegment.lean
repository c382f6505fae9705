import SkeinDB.Changes.Sidecar
import SkeinDB.Codec.Bitmap
import SkeinDB.Codec.Checked
import SkeinDB.Format.Primitives
import SkeinDB.Text.Utf8

/-!
# Column segments

`skeindb/src/engine.rs`: a `.cseg` file has a column of a snapshot. Behind the header are a bitmap
of the rows that are null and the JSON texts of the others. The reader is modelled with its slices,
its indices and the capacity of its vector checked: the number of rows comes from the header, and
the vector is asked for that many before any of them is looked for.
-/
namespace SkeinDB.Snapshots
open SkeinDB.Changes SkeinDB.Codec SkeinDB.Format SkeinDB.Tables SkeinDB.Text Checked

/-- `*b"SKNCSEG1"` -/
def snapshotCsegMagic : Bytes := [83, 75, 78, 67, 83, 69, 71, 49]

def snapshotCsegFormatVersion : ℕ := 1

def snapshotCsegKindValue : UInt8 := 0

def snapshotCsegKindPk : UInt8 := 1

/-- What a file says of its column in front of the rows. -/
structure CsegColumn where
  db : String
  table : String
  column : String
  isPk : Bool
  snapshotTs : UInt64
  deriving DecidableEq, Repr

structure ColumnSnapshotSegmentDisk where
  column : String
  isPk : Bool
  file : String
  rowCount : ℕ
  nonNullCount : ℕ
  encoding : String
  minValue : Option Lit
  maxValue : Option Lit

structure DecodedSnapshotCseg where
  source : CsegColumn
  values : List Lit

inductive CsegError
  | unexpectedEof
  | varu (e : CoreError)
  | invalidUtf8
  | invalidMagic
  | unsupportedVersion (version : ℕ)
  | json
  | trailingBytes
  deriving DecidableEq, Repr

section Writing
variable (json : JsonCodec Lit)

def encodeNullBitmap (values : List Lit) : Bytes := bitmapOf (values.map Lit.isNull)

def nameBytes (name : String) : Bytes := utf8 name.toList

/-- The texts of the values that are not null; none where one has no text. -/
def encodeValues : List Lit → Option Bytes
  | [] => some []
  | value :: values =>
    if value.isNull then encodeValues values
    else do
      let payload ← json.toVec value
      let rest ← encodeValues values
      some (lenPrefixed payload ++ rest)

def csegHeader (source : CsegColumn) (rowCount : ℕ) : Bytes :=
  snapshotCsegMagic ++ leBytes 4 snapshotCsegFormatVersion ++
    [if source.isPk then snapshotCsegKindPk else snapshotCsegKindValue] ++
    leBytes 8 source.snapshotTs.toNat ++ leBytes 8 rowCount ++
    lenPrefixed (nameBytes source.db) ++ lenPrefixed (nameBytes source.table) ++
    lenPrefixed (nameBytes source.column)

/-- The bytes of the file and what the manifest says of it. -/
def writeSnapshotCseg (source : CsegColumn) (file : String) (values : List Lit) :
    Option (Bytes × ColumnSnapshotSegmentDisk) := do
  let payloads ← encodeValues json values
  some (csegHeader source values.length ++ lenPrefixed (encodeNullBitmap values) ++ payloads,
    { column := source.column
      isPk := source.isPk
      file
      rowCount := values.length
      nonNullCount := (values.filter fun value => !value.isNull).length
      encoding := "plain+null_bitmap"
      minValue := none
      maxValue := none })

end Writing

section Reading

/-- A part of the file, and the bytes behind it. -/
abbrev CsegReader (α : Type) := Reader (Stop CsegError) α

def takeBytes (len : ℕ) : CsegReader Bytes := fun input =>
  if input.length < len then .error (.err .unexpectedEof)
  else do
    let head ← slice input 0 len
    let tail ← slice input len input.length
    return (head, tail)

def readUint (len : ℕ) : CsegReader ℕ := fun input => do
  let (bytes, input) ← takeBytes len input
  return (leNat bytes, input)

def decodeLen : CsegReader ℕ := fun input => do
  let (len, input) ← lift ((decodeVaru input).mapError .varu)
  return (len.toNat, input)

def readLenPrefixed : CsegReader Bytes := fun input => do
  let (len, input) ← decodeLen input
  takeBytes len input

def readVaruString : CsegReader String := fun input => do
  let (bytes, input) ← readLenPrefixed input
  match fromUtf8 bytes with
  | none => .error (.err .invalidUtf8)
  | some chars => return (.ofList chars, input)

/-- The header, with the rows that it announces. -/
def readCsegHeader : CsegReader (CsegColumn × ℕ) := fun input => do
  let (magic, input) ← takeBytes snapshotCsegMagic.length input
  if magic ≠ snapshotCsegMagic then .error (.err .invalidMagic)
  else
    let (version, input) ← readUint 4 input
    if version ≠ snapshotCsegFormatVersion then .error (.err (.unsupportedVersion version))
    else
      let (kindBytes, input) ← takeBytes 1 input
      let kind ← itemAt kindBytes 0
      let (snapshotTs, input) ← readUint 8 input
      let (rowCount, input) ← readUint 8 input
      let (db, input) ← readVaruString input
      let (table, input) ← readVaruString input
      let (column, input) ← readVaruString input
      return (({ db, table, column, isPk := kind == snapshotCsegKindPk
                 snapshotTs := .ofNat snapshotTs }, rowCount), input)

/-- The header and the bitmap, which come before any row. -/
def readCsegFront : CsegReader ((CsegColumn × ℕ) × Bytes) := fun input => do
  let (header, input) ← readCsegHeader input
  let (nullBitmap, input) ← readLenPrefixed input
  return ((header, nullBitmap), input)

def nullBitmapIsNull (bitmap : Bytes) (idx : ℕ) : Checked CsegError Bool :=
  if idx / 8 ≥ bitmap.length then .ok false
  else do
    let byte ← itemAt bitmap (idx / 8)
    return byte &&& (1 <<< UInt8.ofNat (idx % 8)) != 0

variable (json : JsonCodec Lit)

/-- The rows from one on, as many as are left. -/
def readCsegValues (nullBitmap : Bytes) : (count idx : ℕ) → CsegReader (List Lit)
  | 0, _, input => .ok ([], input)
  | count + 1, idx, input => do
    if ← nullBitmapIsNull nullBitmap idx then
      let (values, input) ← readCsegValues nullBitmap count (idx + 1) input
      return (.null :: values, input)
    else
      let (payload, input) ← readLenPrefixed input
      match json.fromSlice payload with
      | none => .error (.err .json)
      | some value =>
        let (values, input) ← readCsegValues nullBitmap count (idx + 1) input
        return (value :: values, input)

/-- A `Lit` takes `litSize` bytes in a vector. -/
def readSnapshotCseg (litSize : ℕ) (bytes : Bytes) : Checked CsegError DecodedSnapshotCseg := do
  let (((source, rowCount), nullBitmap), input) ← readCsegFront bytes
  let _ : List Lit ← withCapacity litSize rowCount
  let (values, input) ← readCsegValues json nullBitmap rowCount 0 input
  if input ≠ [] then .error (.err .trailingBytes)
  else return { source, values }

end Reading

section Steps
variable {input rest bytes : Bytes} {len n : ℕ}

theorem takeBytes_eq (len : ℕ) (input : Bytes) : takeBytes len input =
    if input.length < len then .error (.err .unexpectedEof)
    else .ok (input.take len, input.drop len) := by
  rw [takeBytes]
  split_ifs with hshort
  · rfl
  · have hle := not_lt.mp hshort
    rw [slice_eq ⟨Nat.zero_le _, hle⟩, slice_eq ⟨hle, le_rfl⟩, List.drop_zero,
      List.take_length]
    rfl

theorem takeBytes_append (rest : Bytes) (h : bytes.length = len) :
    takeBytes len (bytes ++ rest) = .ok (bytes, rest) := by
  rw [takeBytes_eq, List.length_append, if_neg (by omega), List.take_left' h, List.drop_left' h]

theorem takeBytes_safe (len : ℕ) (input : Bytes) : Safe (takeBytes len input) := by
  rw [takeBytes_eq]
  split_ifs
  · exact Safe.err _
  · exact Safe.ok _

theorem takeBytes_eq_ok (h : takeBytes len input = .ok (bytes, rest)) :
    bytes = input.take len ∧ rest = input.drop len ∧ bytes.length = len := by
  rw [takeBytes_eq] at h
  split_ifs at h with hshort
  obtain ⟨rfl, rfl⟩ := Prod.mk.inj (Except.ok.inj h)
  exact ⟨rfl, rfl, List.length_take_of_le (not_lt.mp hshort)⟩

theorem readUint_leBytes (rest : Bytes) (h : n < 256 ^ len) :
    readUint len (leBytes len n ++ rest) = .ok (n, rest) := by
  rw [readUint, takeBytes_append rest (leBytes_length len n)]
  simp only [bind, Except.bind, leNat_leBytes len n h]
  rfl

theorem readUint_safe (len : ℕ) (input : Bytes) : Safe (readUint len input) :=
  (takeBytes_safe len input).bind fun _ _ => Safe.ok _

theorem decodeLen_encodeVaru (rest : Bytes) (h : n < 2 ^ 64) :
    decodeLen (encodeVaru (.ofNat n) ++ rest) = .ok (n, rest) := by
  rw [decodeLen, decodeVaru_encodeVaru]
  simp only [Except.mapError, lift_ok, bind, Except.bind, UInt64.toNat_ofNat']
  rw [Nat.mod_eq_of_lt h]
  rfl

theorem decodeLen_safe (input : Bytes) : Safe (decodeLen input) :=
  (safe_lift _).bind fun _ _ => Safe.ok _

theorem readLenPrefixed_append (rest : Bytes) (h : bytes.length < 2 ^ 64) :
    readLenPrefixed (lenPrefixed bytes ++ rest) = .ok (bytes, rest) := by
  rw [readLenPrefixed, lenPrefixed, List.append_assoc, decodeLen_encodeVaru _ h]
  exact takeBytes_append rest rfl

theorem readLenPrefixed_safe (input : Bytes) : Safe (readLenPrefixed input) :=
  (decodeLen_safe input).bind fun _ _ => takeBytes_safe _ _

theorem readVaruString_append (name : String) (rest : Bytes)
    (h : (nameBytes name).length < 2 ^ 64) :
    readVaruString (lenPrefixed (nameBytes name) ++ rest) = .ok (name, rest) := by
  rw [readVaruString, readLenPrefixed_append rest h]
  simp only [bind, Except.bind, nameBytes, fromUtf8_utf8, String.ofList_toList]
  rfl

theorem readVaruString_safe (input : Bytes) : Safe (readVaruString input) := by
  refine (readLenPrefixed_safe input).bind ?_
  rintro ⟨bytes, input⟩ -
  dsimp only
  cases fromUtf8 bytes with
  | none => exact Safe.err _
  | some chars => exact Safe.ok _

theorem nullBitmapIsNull_eq (bitmap : Bytes) (idx : ℕ) :
    nullBitmapIsNull bitmap idx = .ok (bitAt bitmap idx) := by
  rw [nullBitmapIsNull, bitAt]
  split_ifs with hend
  · rw [List.getElem?_eq_none hend]
  · have hbyte := List.getElem?_eq_getElem (not_le.mp hend)
    rw [itemAt_eq hbyte, hbyte]
    rfl

end Steps

section Front
variable {source : CsegColumn} {rowCount : ℕ} {input : Bytes}

/-- The names of a column can be written: a length takes 64 bits. -/
structure CsegColumn.Fits (source : CsegColumn) : Prop where
  db : (nameBytes source.db).length < 2 ^ 64
  table : (nameBytes source.table).length < 2 ^ 64
  column : (nameBytes source.column).length < 2 ^ 64

theorem readCsegHeader_append (hfits : source.Fits) (hrows : rowCount < 2 ^ 64) (rest : Bytes) :
    readCsegHeader (csegHeader source rowCount ++ rest) = .ok ((source, rowCount), rest) := by
  have hts : source.snapshotTs.toNat < 256 ^ 8 := source.snapshotTs.toNat_lt
  have hkind : ((if source.isPk then snapshotCsegKindPk else snapshotCsegKindValue) ==
      snapshotCsegKindPk) = source.isPk := by
    cases source.isPk <;> rfl
  simp only [csegHeader, List.append_assoc]
  rw [readCsegHeader, takeBytes_append _ rfl]
  simp only [bind, Except.bind]
  rw [if_neg (not_not.mpr rfl), readUint_leBytes _ (by decide)]
  simp only
  rw [if_neg (not_not.mpr rfl), takeBytes_append _ List.length_singleton]
  simp only [itemAt, List.getElem?_cons_zero]
  rw [readUint_leBytes _ hts]
  simp only
  rw [readUint_leBytes _ (hrows.trans_eq (by norm_num))]
  simp only
  rw [readVaruString_append _ _ hfits.db]
  simp only
  rw [readVaruString_append _ _ hfits.table]
  simp only
  rw [readVaruString_append _ _ hfits.column]
  simp only [hkind, UInt64.ofNat_toNat]
  rfl

theorem readCsegFront_append (hfits : source.Fits) (hrows : rowCount < 2 ^ 64) {bitmap : Bytes}
    (hbitmap : bitmap.length < 2 ^ 64) (rest : Bytes) :
    readCsegFront (csegHeader source rowCount ++ (lenPrefixed bitmap ++ rest)) =
      .ok (((source, rowCount), bitmap), rest) := by
  rw [readCsegFront, readCsegHeader_append hfits hrows]
  simp only [bind, Except.bind]
  rw [readLenPrefixed_append _ hbitmap]
  rfl

theorem readCsegHeader_safe (input : Bytes) : Safe (readCsegHeader input) := by
  refine (takeBytes_safe _ _).bind ?_
  rintro ⟨magic, input⟩ -
  dsimp only
  split_ifs
  · exact Safe.err _
  refine (readUint_safe _ _).bind ?_
  rintro ⟨version, input⟩ -
  dsimp only
  split_ifs
  · exact Safe.err _
  refine (takeBytes_safe _ _).bind ?_
  rintro ⟨kind, input⟩ hkind
  obtain ⟨byte, rfl⟩ := List.length_eq_one_iff.mp (takeBytes_eq_ok hkind).2.2
  refine Safe.bind (Safe.ok byte) fun byte _ => ?_
  refine (readUint_safe _ _).bind fun ts _ => ?_
  refine (readUint_safe _ _).bind fun rows _ => ?_
  refine (readVaruString_safe _).bind fun db _ => ?_
  refine (readVaruString_safe _).bind fun table _ => ?_
  exact (readVaruString_safe _).bind fun column _ => Safe.ok _

theorem readCsegFront_safe (input : Bytes) : Safe (readCsegFront input) :=
  (readCsegHeader_safe input).bind fun _ _ => (readLenPrefixed_safe _).bind fun _ _ => Safe.ok _

/-- The bytes in which the header announces its rows. -/
def announcedRows (bytes : Bytes) : ℕ := leNat ((bytes.drop 21).take 8)

theorem readUint_eq_ok {len n : ℕ} {rest : Bytes} (h : readUint len input = .ok (n, rest)) :
    n = leNat (input.take len) ∧ rest = input.drop len := by
  obtain ⟨⟨bytes, rest'⟩, htake, h⟩ := bind_eq_ok h
  obtain ⟨rfl, rfl⟩ := Prod.mk.inj (Except.ok.inj h)
  obtain ⟨rfl, rfl, -⟩ := takeBytes_eq_ok htake
  exact ⟨rfl, rfl⟩

theorem readCsegHeader_rows {rest : Bytes}
    (h : readCsegHeader input = .ok ((source, rowCount), rest)) :
    rowCount = announcedRows input := by
  obtain ⟨⟨magic, input₁⟩, hmagic, h⟩ := bind_eq_ok h
  dsimp only at h
  split_ifs at h
  obtain ⟨⟨version, input₂⟩, hversion, h⟩ := bind_eq_ok h
  dsimp only at h
  split_ifs at h
  obtain ⟨⟨kindBytes, input₃⟩, hkind, h⟩ := bind_eq_ok h
  obtain ⟨kind, -, h⟩ := bind_eq_ok h
  obtain ⟨⟨ts, input₄⟩, hts, h⟩ := bind_eq_ok h
  obtain ⟨⟨rows, input₅⟩, hrows, h⟩ := bind_eq_ok h
  obtain ⟨_, -, h⟩ := bind_eq_ok h
  obtain ⟨_, -, h⟩ := bind_eq_ok h
  obtain ⟨_, -, h⟩ := bind_eq_ok h
  obtain rfl : rows = rowCount := (Prod.mk.inj (Prod.mk.inj (Except.ok.inj h)).1).2
  have hdrop : input₄ = input.drop 21 := by
    rw [(readUint_eq_ok hts).2, (takeBytes_eq_ok hkind).2.1, (readUint_eq_ok hversion).2,
      (takeBytes_eq_ok hmagic).2.1]
    simp only [List.drop_drop]
    rfl
  rw [(readUint_eq_ok hrows).1, hdrop, announcedRows]

theorem readCsegFront_rows {bitmap rest : Bytes}
    (h : readCsegFront input = .ok (((source, rowCount), bitmap), rest)) :
    rowCount = announcedRows input := by
  obtain ⟨⟨⟨source', rows⟩, input₁⟩, hheader, h⟩ := bind_eq_ok h
  obtain ⟨_, -, h⟩ := bind_eq_ok h
  have hsame := Except.ok.inj h
  simp only [Prod.mk.injEq] at hsame
  obtain ⟨⟨⟨rfl, rfl⟩, -⟩, -⟩ := hsame
  exact readCsegHeader_rows hheader

end Front

section Values
variable {json : JsonCodec Lit} {values : List Lit} {nullBitmap : Bytes}

/-- The JSON text of a value reads as the value. -/
def ReadsBack (json : JsonCodec Lit) (value : Lit) : Prop :=
  ∃ payload, json.toVec value = some payload ∧ json.fromSlice payload = some value

theorem readCsegValues_null {count idx : ℕ} (hbit : bitAt nullBitmap idx = true) (input : Bytes) :
    readCsegValues json nullBitmap (count + 1) idx input =
      (readCsegValues json nullBitmap count (idx + 1) input).map
        fun taken => (.null :: taken.1, taken.2) := by
  rw [readCsegValues, nullBitmapIsNull_eq, hbit]
  simp only [bind, Except.bind, if_true]
  cases readCsegValues json nullBitmap count (idx + 1) input <;> rfl

theorem readCsegValues_payload {count idx : ℕ} (hbit : bitAt nullBitmap idx = false)
    {payload : Bytes} (hpayload : payload.length < 2 ^ 64) (input : Bytes) :
    readCsegValues json nullBitmap (count + 1) idx (lenPrefixed payload ++ input) =
      match json.fromSlice payload with
      | none => .error (.err .json)
      | some value => (readCsegValues json nullBitmap count (idx + 1) input).map
          fun taken => (value :: taken.1, taken.2) := by
  rw [readCsegValues, nullBitmapIsNull_eq, hbit]
  simp only [bind, Except.bind, Bool.false_eq_true, if_false]
  rw [readLenPrefixed_append input hpayload]
  simp only
  cases json.fromSlice payload with
  | none => rfl
  | some value =>
    simp only
    cases readCsegValues json nullBitmap count (idx + 1) input <;> rfl

/-- The rows come back exactly if the texts of all that are not null do. -/
theorem readCsegValues_encodeValues {payloads : Bytes}
    (hencode : encodeValues json values = some payloads) (hbytes : payloads.length < 2 ^ 64)
    {idx : ℕ} (hnulls : ∀ i < values.length,
      bitAt nullBitmap (idx + i) = (values.map Lit.isNull).getD i false)
    (rest rest' : Bytes) :
    readCsegValues json nullBitmap values.length idx (payloads ++ rest) = .ok (values, rest') ↔
      (∀ value ∈ values, value.isNull = false → ReadsBack json value) ∧ rest' = rest := by
  induction values generalizing idx payloads with
  | nil =>
    obtain rfl := Option.some.inj hencode
    rw [List.length_nil, readCsegValues, List.nil_append, Except.ok.injEq, Prod.mk.injEq]
    exact ⟨fun h => ⟨by simp, h.2.symm⟩, fun h => ⟨rfl, h.2.symm⟩⟩
  | cons value values ih =>
    have hnext : ∀ i < values.length,
        bitAt nullBitmap (idx + 1 + i) = (values.map Lit.isNull).getD i false := by
      intro i hi
      have hflag := hnulls (i + 1) (by rw [List.length_cons]; omega)
      rwa [show idx + (i + 1) = idx + 1 + i by omega, List.map_cons, List.getD_cons_succ] at hflag
    have hflag := hnulls 0 (by rw [List.length_cons]; omega)
    rw [Nat.add_zero, List.map_cons, List.getD_cons_zero] at hflag
    rw [encodeValues] at hencode
    rw [List.length_cons, List.forall_mem_cons]
    cases hnull : value.isNull with
    | true =>
      have hvalue : value = .null := by
        cases value <;> first | rfl | cases hnull
      rw [hnull, if_pos rfl] at hencode
      rw [readCsegValues_null (hflag.trans hnull), map_eq_ok_iff]
      have hrest := ih hencode hbytes hnext
      constructor
      · rintro ⟨⟨values', rest''⟩, hread, hsame⟩
        simp only [Prod.mk.injEq, List.cons.injEq] at hsame
        obtain ⟨⟨-, rfl⟩, rfl⟩ := hsame
        obtain ⟨hback, hrest'⟩ := hrest.mp hread
        exact ⟨⟨fun h => (by cases h), hback⟩, hrest'⟩
      · rintro ⟨⟨-, hback⟩, hrest'⟩
        exact ⟨_, hrest.mpr ⟨hback, hrest'⟩, by rw [hvalue]⟩
    | false =>
      rw [hnull, if_neg (by simp)] at hencode
      obtain ⟨payload, hpayload, hencode⟩ := Option.bind_eq_some_iff.mp hencode
      obtain ⟨more, hmore, hencode⟩ := Option.bind_eq_some_iff.mp hencode
      obtain rfl := Option.some.inj hencode
      rw [List.length_append, lenPrefixed, List.length_append] at hbytes
      rw [List.append_assoc, readCsegValues_payload (hflag.trans hnull) (by omega)]
      have hrest := ih hmore (by omega) hnext
      constructor
      · intro hread
        cases hslice : json.fromSlice payload with
        | none =>
          rw [hslice] at hread
          cases hread
        | some value' =>
          rw [hslice] at hread
          obtain ⟨⟨values', rest''⟩, hnext', hsame⟩ := map_eq_ok_iff.mp hread
          simp only [Prod.mk.injEq, List.cons.injEq] at hsame
          obtain ⟨⟨rfl, rfl⟩, rfl⟩ := hsame
          obtain ⟨hback, hrest'⟩ := hrest.mp hnext'
          exact ⟨⟨fun _ => ⟨payload, hpayload, hslice⟩, hback⟩, hrest'⟩
      · rintro ⟨⟨hvalue, hback⟩, hrest'⟩
        obtain ⟨payload', hpayload', hslice⟩ := hvalue rfl
        rw [hpayload, Option.some_inj] at hpayload'
        rw [hpayload', hslice]
        exact map_eq_ok_iff.mpr ⟨_, hrest.mpr ⟨hback, hrest'⟩, rfl⟩

theorem encodeValues_of_readsBack
    (hback : ∀ value ∈ values, value.isNull = false → ReadsBack json value) :
    ∃ payloads, encodeValues json values = some payloads := by
  induction values with
  | nil => exact ⟨[], rfl⟩
  | cons value values ih =>
    obtain ⟨more, hmore⟩ := ih fun v hv => hback v (List.mem_cons_of_mem value hv)
    rw [encodeValues]
    split_ifs with hnull
    · exact ⟨more, hmore⟩
    · obtain ⟨payload, hpayload, -⟩ := hback value List.mem_cons_self (Bool.eq_false_iff.mpr hnull)
      rw [hpayload, hmore]
      exact ⟨_, rfl⟩

theorem readCsegValues_safe (json : JsonCodec Lit) (nullBitmap : Bytes) (count idx : ℕ)
    (input : Bytes) : Safe (readCsegValues json nullBitmap count idx input) := by
  induction count generalizing idx input with
  | zero => exact Safe.ok _
  | succ count ih =>
    rw [readCsegValues, nullBitmapIsNull_eq]
    refine Safe.bind (Safe.ok _) fun isNull _ => ?_
    cases isNull with
    | true => exact (ih _ _).bind fun _ _ => Safe.ok _
    | false =>
      refine (readLenPrefixed_safe input).bind ?_
      rintro ⟨payload, input⟩ -
      dsimp only
      cases json.fromSlice payload with
      | none => exact Safe.err _
      | some value => exact (ih _ _).bind fun _ _ => Safe.ok _

end Values

section Codec
variable {json : JsonCodec Lit} {litSize : ℕ} {source : CsegColumn} {file : String}
  {values : List Lit}

/-- What is written of a column reads as the column with all its values in their order. -/
def RoundTrips (json : JsonCodec Lit) (litSize : ℕ) (source : CsegColumn) (file : String)
    (values : List Lit) : Prop :=
  ∃ bytes segment, writeSnapshotCseg json source file values = some (bytes, segment) ∧
    readSnapshotCseg json litSize bytes = .ok { source, values }

/-- The rows that the reader asks a vector for, if it comes that far. -/
def reservedRows (bytes : Bytes) : ℕ :=
  match readCsegFront bytes with
  | .ok (((_, rowCount), _), _) => rowCount
  | .error _ => 0

/-- Every byte string comes to an end of its own, and the vector is not asked for more rows than a
file of that length can have: a bit of the bitmap for each of them. -/
def DecodesSafely (json : JsonCodec Lit) (litSize : ℕ) (bytes : Bytes) : Prop :=
  Safe (readSnapshotCseg json litSize bytes) ∧ reservedRows bytes ≤ 8 * bytes.length

theorem writeSnapshotCseg_fits {bytes : Bytes} {segment : ColumnSnapshotSegmentDisk}
    (h : writeSnapshotCseg json source file values = some (bytes, segment))
    (hbytes : bytes.length ≤ isizeMax) :
    source.Fits ∧ ∃ payloads, encodeValues json values = some payloads ∧
      (encodeNullBitmap values).length < 2 ^ 64 ∧ payloads.length < 2 ^ 64 ∧
      bytes = csegHeader source values.length ++
        (lenPrefixed (encodeNullBitmap values) ++ payloads) := by
  obtain ⟨payloads, hencode, h⟩ := Option.bind_eq_some_iff.mp h
  obtain ⟨rfl, -⟩ := Prod.mk.inj (Option.some.inj h)
  rw [isizeMax] at hbytes
  simp only [csegHeader, lenPrefixed, List.length_append] at hbytes
  refine ⟨⟨?_, ?_, ?_⟩, payloads, hencode, ?_, ?_, List.append_assoc _ _ _⟩
  all_goals omega

/-- The rows come back exactly if every value that is not null comes back from its JSON text. -/
theorem segmentRoundTrips_iff (hsize : 0 < litSize) (hvec : litSize * values.length ≤ isizeMax)
    (hfile : ∀ bytes segment, writeSnapshotCseg json source file values = some (bytes, segment) →
      bytes.length ≤ isizeMax) :
    RoundTrips json litSize source file values ↔
      ∀ value ∈ values, value.isNull = false → ReadsBack json value := by
  have hrows : values.length < 2 ^ 64 := by
    have hle := Nat.le_mul_of_pos_left values.length hsize
    rw [isizeMax] at hvec
    omega
  have hnulls : ∀ i < values.length, bitAt (encodeNullBitmap values) (0 + i) =
      (values.map Lit.isNull).getD i false := fun i _ => by
    rw [Nat.zero_add]
    exact bitAt_bitmapOf _ i
  have hread {bytes : Bytes} {segment : ColumnSnapshotSegmentDisk}
      (hwrite : writeSnapshotCseg json source file values = some (bytes, segment)) :
      readSnapshotCseg json litSize bytes = .ok { source, values } ↔
        ∀ value ∈ values, value.isNull = false → ReadsBack json value := by
    obtain ⟨hfits, payloads, hencode, hbitmap, hpayloads, rfl⟩ :=
      writeSnapshotCseg_fits hwrite (hfile _ _ hwrite)
    have hvalues := readCsegValues_encodeValues hencode hpayloads hnulls []
    rw [List.append_nil] at hvalues
    rw [readSnapshotCseg, readCsegFront_append hfits hrows hbitmap]
    simp only [bind, Except.bind, withCapacity, if_pos hvec]
    rcases hread : readCsegValues json (encodeNullBitmap values) values.length 0 payloads
      with e | ⟨values', rest⟩
    · have hnone := fun rest' => hvalues rest'
      rw [hread] at hnone
      exact iff_of_false (fun h => by cases h) fun h => by cases (hnone []).mpr ⟨h, rfl⟩
    · constructor
      · intro h
        dsimp only at h
        split_ifs at h with hrest
        obtain rfl : values' = values := (DecodedSnapshotCseg.mk.inj (Except.ok.inj h)).2
        exact ((hvalues rest).mp hread).1
      · intro hback
        have hok := (hvalues []).mpr ⟨hback, rfl⟩
        rw [hread] at hok
        obtain ⟨rfl, rfl⟩ := Prod.mk.inj (Except.ok.inj hok)
        exact if_neg (not_not.mpr rfl)
  constructor
  · rintro ⟨bytes, segment, hwrite, hok⟩
    exact (hread hwrite).mp hok
  · intro hback
    obtain ⟨payloads, hencode⟩ := encodeValues_of_readsBack hback
    have hwrite : ∃ bytes segment,
        writeSnapshotCseg json source file values = some (bytes, segment) := by
      rw [writeSnapshotCseg, hencode]
      exact ⟨_, _, rfl⟩
    obtain ⟨bytes, segment, hwrite⟩ := hwrite
    exact ⟨bytes, segment, hwrite, (hread hwrite).mpr hback⟩

theorem readSnapshotCseg_safe_iff (bytes : Bytes) :
    Safe (readSnapshotCseg json litSize bytes) ↔
      ((∃ front, readCsegFront bytes = .ok front) →
        litSize * announcedRows bytes ≤ isizeMax) := by
  rw [readSnapshotCseg]
  rcases hfront : readCsegFront bytes with stop | ⟨⟨⟨source, rowCount⟩, nullBitmap⟩, input⟩
  · refine iff_of_true (fun fault h => readCsegFront_safe bytes fault ?_) fun ⟨_, h⟩ => by cases h
    rw [hfront]
    exact congrArg Except.error (Except.error.inj h)
  rw [← readCsegFront_rows hfront]
  simp only [bind, Except.bind, withCapacity]
  split_ifs with hcapacity
  · refine iff_of_true ?_ fun _ => hcapacity
    refine Safe.bind (readCsegValues_safe json nullBitmap rowCount 0 input) ?_
    rintro ⟨values, rest⟩ -
    dsimp only
    split_ifs
    · exact Safe.err _
    · exact Safe.ok _
  · exact iff_of_false (not_safe_fault _) fun h => hcapacity (h ⟨_, rfl⟩)

/-- A column is read as it was written exactly if the values come back from their JSON texts. A
byte string is read safely exactly if its front does not read, or announces no more rows than eight
for each byte of the file and than a vector can have. -/
theorem csegCodec_iff (hsize : 0 < litSize) (hvec : litSize * values.length ≤ isizeMax)
    (hfile : ∀ bytes segment, writeSnapshotCseg json source file values = some (bytes, segment) →
      bytes.length ≤ isizeMax) (bytes : Bytes) :
    (RoundTrips json litSize source file values ↔
      ∀ value ∈ values, value.isNull = false → ReadsBack json value) ∧
    (DecodesSafely json litSize bytes ↔ ((∃ front, readCsegFront bytes = .ok front) →
      announcedRows bytes ≤ 8 * bytes.length ∧ litSize * announcedRows bytes ≤ isizeMax)) := by
  refine ⟨segmentRoundTrips_iff hsize hvec hfile, ?_⟩
  rw [DecodesSafely, readSnapshotCseg_safe_iff]
  constructor
  · rintro ⟨hsafe, hreserved⟩ hfront
    refine ⟨?_, hsafe hfront⟩
    obtain ⟨⟨⟨⟨_, rowCount⟩, _⟩, _⟩, hfront⟩ := hfront
    rw [reservedRows, hfront] at hreserved
    rwa [← readCsegFront_rows hfront]
  · intro hrows
    refine ⟨fun hfront => (hrows hfront).2, ?_⟩
    rw [reservedRows]
    split
    · next rowCount _ _ hfront =>
      rw [readCsegFront_rows hfront]
      exact (hrows ⟨_, hfront⟩).1
    · exact Nat.zero_le _

section Samples

def trueText : Bytes := nameBytes "\x7b\"t\":\"bool\",\"v\":true\x7d"

/-- `serde_json` on the value `true` only. -/
def trueJson : JsonCodec Lit where
  toVec
    | .bool true => some trueText
    | _ => none
  fromSlice bytes := if bytes = trueText then some (.bool true) else none

theorem readsBack_true : ReadsBack trueJson (.bool true) := by
  refine ⟨trueText, rfl, ?_⟩
  simp only [trueJson, if_true]

def sampleColumn : CsegColumn := ⟨"d", "t", "c", false, 7⟩

def sampleFile : Bytes :=
  ((writeSnapshotCseg trueJson sampleColumn "col-0001.cseg" [.null, .bool true]).map
    Prod.fst).getD []

/-- A column is read as written, and its file is read safely, also when the file ends early or its
header announces one row more. -/
theorem csegCodec_sample :
    RoundTrips trueJson 56 sampleColumn "col-0001.cseg" [.null, .bool true] ∧
      ∀ bytes ∈ [sampleFile, sampleFile.dropLast,
          csegHeader sampleColumn 3 ++ sampleFile.drop (csegHeader sampleColumn 3).length],
        bytes ≠ [] ∧ DecodesSafely trueJson 56 bytes := by
  have hfile : ∀ bytes segment, writeSnapshotCseg trueJson sampleColumn "col-0001.cseg"
      [.null, .bool true] = some (bytes, segment) → bytes.length ≤ isizeMax := by
    intro bytes segment h
    obtain ⟨rfl, -⟩ := Prod.mk.inj (Option.some.inj h)
    decide +kernel
  have hcodec := csegCodec_iff (by decide : 0 < 56) (by decide) hfile
  refine ⟨(hcodec []).1.mpr fun value hvalue hnull => ?_, fun bytes hbytes => ?_⟩
  · rcases List.mem_cons.mp hvalue with rfl | hvalue
    · cases hnull
    · obtain rfl := List.mem_singleton.mp hvalue
      exact readsBack_true
  · have hrows : bytes ≠ [] ∧ announcedRows bytes ≤ 8 * bytes.length ∧
        56 * announcedRows bytes ≤ isizeMax := by
      revert bytes
      decide +kernel
    exact ⟨hrows.1, (hcodec bytes).2.mpr fun _ => hrows.2⟩

/-- The file of a column without rows, whose header announces 2^63 of them. -/
def emptyColumnManyRows : Bytes := csegHeader sampleColumn (2 ^ 63) ++ lenPrefixed []

theorem unchecked_rows_panic : ¬ DecodesSafely trueJson 56 emptyColumnManyRows := by
  rintro ⟨hsafe, -⟩
  have hfits : sampleColumn.Fits := ⟨by decide, by decide, by decide⟩
  have hfront := readCsegFront_append hfits (by norm_num : 2 ^ 63 < 2 ^ 64)
    (by decide : ([] : Bytes).length < 2 ^ 64) []
  rw [List.append_nil] at hfront
  have hcapacity := (readSnapshotCseg_safe_iff emptyColumnManyRows).mp hsafe ⟨_, hfront⟩
  rw [emptyColumnManyRows, ← readCsegFront_rows hfront] at hcapacity
  exact absurd hcapacity (by decide)

end Samples

end Codec

end SkeinDB.Snapshots
