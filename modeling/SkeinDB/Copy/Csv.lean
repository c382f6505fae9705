import SkeinDB.Copy.Options

/-!
# COPY in the CSV format

`skeindb/src/server.rs`: `pg_copy_csv_encode_row`, `pg_copy_parse_csv_rows` and the header line. A
field that could be taken for something else is written in quotes. The reader takes the quotes off
again, and only a field without quotes can be the null marker.
-/
namespace SkeinDB.Copy
open SkeinDB.Codec SkeinDB.Text

section Code
variable (delimiter quote escape : UInt8) (null : Bytes)

def csvNeedsQuotes (bytes : Bytes) : Bool :=
  let conflictsWithNullMarker := null ≠ [] && null <:+: bytes
  bytes = [] || delimiter ∈ bytes || quote ∈ bytes || 10 ∈ bytes || 13 ∈ bytes ||
    conflictsWithNullMarker

def csvEscapeByte (byte : UInt8) : Bytes :=
  if escape = quote then
    if byte = quote then [quote, quote] else [byte]
  else if byte = quote ∨ byte = escape then [escape, byte]
  else [byte]

def pgCopyCsvEncodeField (bytes : Bytes) : Bytes :=
  if csvNeedsQuotes delimiter quote null bytes then
    quote :: bytes.flatMap (csvEscapeByte quote escape) ++ [quote]
  else bytes

/-- A cell in the CSV format. -/
def csvField : Cell → Bytes
  | none => null
  | some value => pgCopyCsvEncodeField delimiter quote escape null (utf8 value.toList)

def pgCopyCsvEncodeRow (decodeBase64 : String → Option Bytes) (columns : List PgColumn)
    (row : List Cell) : Bytes :=
  writeRecord (csvField delimiter quote escape null) delimiter (textRow decodeBase64 columns row)

def pgCopyDecodeCsvField (raw : Bytes) (quoted : Bool) : Except String Cell :=
  if !quoted && raw = null then .ok none
  else match readUtf8 raw with
    | some value => .ok (some value)
    | none => .error "COPY csv data must be valid UTF-8"

/-- Where the reader is in the buffer. -/
structure CsvScan where
  rows : List (List Cell) := []
  row : List Cell := []
  field : Bytes := []
  quoted : Bool := false
  fieldWasQuoted : Bool := false
  afterQuote : Bool := false

def CsvScan.push (s : CsvScan) (byte : UInt8) : CsvScan := { s with field := s.field ++ [byte] }

def CsvScan.close (s : CsvScan) : CsvScan := { s with quoted := false, afterQuote := true }

def endField (s : CsvScan) : Except String CsvScan := do
  let cell ← pgCopyDecodeCsvField null s.field s.fieldWasQuoted
  .ok { rows := s.rows, row := s.row ++ [cell] }

def endRow (s : CsvScan) : Except String CsvScan := do
  let s ← endField null s
  .ok { rows := s.rows ++ [s.row] }

def csvEnd (s : CsvScan) : Except String (List (List Cell)) :=
  if s.quoted then .error "COPY csv data ended inside a quoted field"
  else if s.afterQuote || s.field ≠ [] || s.row ≠ [] || s.fieldWasQuoted then do
    let s ← endRow null s
    .ok s.rows
  else .ok s.rows

def readCsv (s : CsvScan) : Bytes → Except String (List (List Cell))
  | [] => csvEnd null s
  | byte :: rest =>
    if s.quoted then
      if escape = quote then
        if byte = quote then
          match rest with
          | [] => readCsv s.close []
          | next :: after =>
            if next = quote then readCsv (s.push quote) after else readCsv s.close (next :: after)
        else readCsv (s.push byte) rest
      else if byte = escape then
        match rest with
        | [] => readCsv (s.push byte) []
        | next :: after =>
          if next = quote ∨ next = escape then readCsv (s.push next) after
          else readCsv (s.push byte) (next :: after)
      else if byte = quote then readCsv s.close rest
      else readCsv (s.push byte) rest
    else if !s.afterQuote && s.field = [] && byte = quote then
      readCsv { s with quoted := true, fieldWasQuoted := true } rest
    else if byte = delimiter then do readCsv (← endField null s) rest
    else if byte = 10 then do readCsv (← endRow null s) rest
    else if byte = 13 then do
      let s ← endRow null s
      match rest with
      | [] => readCsv s []
      | next :: after => if next = 10 then readCsv s after else readCsv s (next :: after)
    else if s.afterQuote then .error "unexpected character after closing CSV quote"
    else if byte = quote then .error "unexpected quote in unquoted CSV field"
    else readCsv (s.push byte) rest

/-- The reader at the start of a field. -/
def readCsvField (rows : List (List Cell)) (row : List Cell) (buffer : Bytes) :
    Except String (List (List Cell)) := readCsv delimiter quote escape null { rows, row } buffer

def pgCopyParseCsvRows (buffer : Bytes) : Except String (List (List Cell)) :=
  readCsv delimiter quote escape null {} buffer

-- The equation is made here, once for all lemmas below.
attribute [local grind =] readCsv.eq_def

end Code

section Fields
variable {delimiter quote escape : UInt8} {null : Bytes}

/-- Bytes outside quotes that end nothing. -/
theorem readCsv_plain {bytes : Bytes} (hdelimiter : delimiter ∉ bytes) (hquote : quote ∉ bytes)
    (hline : 10 ∉ bytes) (hreturn : 13 ∉ bytes) {s : CsvScan} (hquoted : s.quoted = false)
    (hafter : s.afterQuote = false) (rest : Bytes) :
    readCsv delimiter quote escape null s (bytes ++ rest) =
      readCsv delimiter quote escape null { s with field := s.field ++ bytes } rest := by
  induction bytes generalizing s with
  | nil => simp
  | cons byte bytes ih =>
    simp only [List.mem_cons, not_or] at hdelimiter hquote hline hreturn
    rw [List.cons_append, readCsv.eq_def]
    simp only [hquoted, hafter, Ne.symm hdelimiter.1, Ne.symm hquote.1, Ne.symm hline.1,
      Ne.symm hreturn.1, decide_false, Bool.and_false, Bool.false_eq_true, if_false]
    rw [ih hdelimiter.2 hquote.2 hline.2 hreturn.2]
    · simp [CsvScan.push, hquoted, hafter]
    · exact hquoted
    · exact hafter

/-- Bytes inside quotes, as they were escaped. -/
theorem readCsv_quoted (bytes : Bytes) {s : CsvScan} (hquoted : s.quoted = true) (rest : Bytes) :
    readCsv delimiter quote escape null s (bytes.flatMap (csvEscapeByte quote escape) ++ rest) =
      readCsv delimiter quote escape null { s with field := s.field ++ bytes } rest := by
  induction bytes generalizing s with
  | nil => simp
  | cons byte bytes ih =>
    have hstep : ∀ rest, readCsv delimiter quote escape null s
        (csvEscapeByte quote escape byte ++ rest) =
          readCsv delimiter quote escape null (s.push byte) rest := by
      intro rest
      unfold csvEscapeByte
      split_ifs with hescape hbyte hbyte
      · rw [List.cons_append, readCsv.eq_def]
        simp [hquoted, hescape, hbyte]
      · rw [List.cons_append, readCsv.eq_def]
        simp [hquoted, hescape, hbyte]
      · rw [List.cons_append, readCsv.eq_def]
        simp [hquoted, hescape, hbyte]
      · rw [List.cons_append, readCsv.eq_def]
        rw [not_or] at hbyte
        simp [hquoted, hescape, hbyte]
    rw [List.flatMap_cons, List.append_assoc, hstep, ih]
    · simp [CsvScan.push]
    · exact hquoted

/-- The quote that ends a field. -/
theorem readCsv_close {s : CsvScan} (hquoted : s.quoted = true) {next : UInt8}
    (hnext : escape = quote → next ≠ quote) (rest : Bytes) :
    readCsv delimiter quote escape null s (quote :: next :: rest) =
      readCsv delimiter quote escape null s.close (next :: rest) := by
  rw [readCsv.eq_def]
  by_cases hescape : escape = quote
  · simp [hquoted, hescape, hnext hescape]
  · simp [hquoted, hescape, Ne.symm hescape]

/-- A field whose end is known is taken up. -/
theorem readCsv_delimiter {s : CsvScan} (hquoted : s.quoted = false)
    (hdelimiter : delimiter ≠ quote) (rest : Bytes) :
    readCsv delimiter quote escape null s (delimiter :: rest) =
      endField null s >>= fun s => readCsv delimiter quote escape null s rest := by
  rw [readCsv.eq_def]
  simp [hquoted, hdelimiter]

theorem readCsv_lineFeed {s : CsvScan} (hquoted : s.quoted = false) (hline : delimiter ≠ 10)
    (hquote : s.afterQuote = true ∨ s.field ≠ [] ∨ quote ≠ 10) (rest : Bytes) :
    readCsv delimiter quote escape null s (10 :: rest) =
      endRow null s >>= fun s => readCsv delimiter quote escape null s rest := by
  have hopen : (!s.afterQuote && decide (s.field = []) && decide (10 = quote)) = false := by
    grind
  rw [readCsv.eq_def]
  simp [hquoted, hopen, hline.symm]

theorem takesPlain {bytes : Bytes} {cell : Cell} (hdelimiter : delimiter ∉ bytes)
    (hquote : quote ∉ bytes) (hline : 10 ∉ bytes) (hreturn : 13 ∉ bytes)
    (hcell : pgCopyDecodeCsvField null bytes false = .ok cell) (hne : delimiter ≠ quote)
    (hlf : delimiter ≠ 10) (hopen : bytes ≠ [] ∨ quote ≠ 10) :
    TakesField (readCsvField delimiter quote escape null) delimiter bytes cell where
  next rows row rest := by
    rw [readCsvField, readCsv_plain hdelimiter hquote hline hreturn rfl rfl,
      readCsv_delimiter rfl hne]
    simp [endField, hcell, readCsvField]
  last rows row rest := by
    rw [readCsvField, lineFeed, readCsv_plain hdelimiter hquote hline hreturn rfl rfl,
      readCsv_lineFeed rfl hlf (.inr (by simpa using hopen))]
    simp [endRow, endField, hcell, readCsvField]

theorem takesQuoted {bytes : Bytes} {cell : Cell}
    (hcell : pgCopyDecodeCsvField null bytes true = .ok cell) (hne : delimiter ≠ quote)
    (hlf : delimiter ≠ 10) (hclose : escape = quote → quote ≠ 10) :
    TakesField (readCsvField delimiter quote escape null) delimiter
      (quote :: bytes.flatMap (csvEscapeByte quote escape) ++ [quote]) cell := by
  have hopen : ∀ rows row rest, readCsvField delimiter quote escape null rows row
      (quote :: (bytes.flatMap (csvEscapeByte quote escape) ++ rest)) =
        readCsv delimiter quote escape null
          { rows, row, field := bytes, quoted := true, fieldWasQuoted := true } rest := by
    intro rows row rest
    rw [readCsvField, readCsv.eq_def]
    simp only [Bool.false_eq_true, if_false, Bool.not_false, decide_true, Bool.and_self, if_true]
    rw [readCsv_quoted bytes rfl]
    rfl
  constructor
  · intro rows row rest
    have hfield := hopen rows row (quote :: delimiter :: rest)
    simp only [List.cons_append, List.append_assoc, List.nil_append] at hfield ⊢
    rw [hfield, readCsv_close rfl fun _ => hne, readCsv_delimiter rfl hne]
    simp [endField, CsvScan.close, hcell, readCsvField]
  · intro rows row rest
    have hfield := hopen rows row (quote :: 10 :: rest)
    simp only [List.cons_append, List.append_assoc, List.nil_append, lineFeed] at hfield ⊢
    rw [hfield, readCsv_close rfl fun h => (hclose h).symm, readCsv_lineFeed rfl hlf (.inl rfl)]
    simp [endRow, endField, CsvScan.close, hcell, readCsvField]

end Fields

section Lossless
variable {o : PgCopyOptions}

/-- The options with which the CSV format loses nothing. Where the quote is the line feed, it has to
be escaped by another byte, and a line must not begin with it because the null marker is empty. -/
def CsvLossless (o : PgCopyOptions) : Prop :=
  o.quote = 10 → o.escape ≠ o.quote ∧ o.nullBytes ≠ []

theorem decodeCsv_plain {raw null : Bytes} {value : String} (hraw : raw = utf8 value.toList)
    (hnull : raw ≠ null) : pgCopyDecodeCsvField null raw false = .ok (some value) := by
  rw [pgCopyDecodeCsvField, hraw] at *
  simp [hnull]

theorem decodeCsv_quoted {null : Bytes} (value : String) :
    pgCopyDecodeCsvField null (utf8 value.toList) true = .ok (some value) := by
  simp [pgCopyDecodeCsvField]

theorem CsvLossless.takesCell (h : CsvLossless o) (haccepted : o.accepted = true)
    (hformat : o.format = .csv) (cell : Cell) :
    TakesField (readCsvField o.delimiter o.quote o.escape o.nullBytes) o.delimiter
      (csvField o.delimiter o.quote o.escape o.nullBytes cell) cell := by
  have hbinary : o.format ≠ .binary := by simp [hformat]
  have hne := PgCopyOptions.accepted_quote haccepted hformat
  have hlf := PgCopyOptions.accepted_lineFeed haccepted hbinary
  have hnull := PgCopyOptions.accepted_null haccepted hbinary
  cases cell with
  | none =>
    apply takesPlain hnull.2 (PgCopyOptions.accepted_null_quote haccepted hformat) hnull.1.1
      hnull.1.2 (by simp [pgCopyDecodeCsvField]) hne hlf
    by_cases hquote : o.quote = 10
    · exact .inl (h hquote).2
    · exact .inr hquote
  | some value =>
    rw [csvField, pgCopyCsvEncodeField]
    split_ifs with hquotes
    · exact takesQuoted (decodeCsv_quoted value) hne hlf fun hescape hquote =>
        (h hquote).1 hescape
    · simp only [csvNeedsQuotes, Bool.or_eq_true, Bool.and_eq_true, decide_eq_true_eq,
        not_or, not_and] at hquotes
      obtain ⟨⟨⟨⟨⟨hnil, hdelimiter⟩, hquote⟩, hline⟩, hreturn⟩, hmark⟩ := hquotes
      apply takesPlain hdelimiter hquote hline hreturn (decodeCsv_plain rfl ?_) hne hlf (.inl hnil)
      intro heq
      exact hmark (heq ▸ hnil) (heq ▸ List.infix_rfl)

theorem CsvLossless.readsBack (h : CsvLossless o) (haccepted : o.accepted = true)
    (hformat : o.format = .csv) (decodeBase64 : String → Option Bytes) (columns : List PgColumn)
    {rows : List (List Cell)} (hne : ∀ row ∈ rows, row ≠ []) :
    pgCopyParseCsvRows o.delimiter o.quote o.escape o.nullBytes (rows.flatMap
      (pgCopyCsvEncodeRow o.delimiter o.quote o.escape o.nullBytes decodeBase64 columns)) =
        .ok (rows.map (textRow decodeBase64 columns)) := by
  have hrows : ∀ row ∈ rows.map (textRow decodeBase64 columns), row ≠ [] := by
    simpa using fun row hrow => textRow_ne_nil decodeBase64 (hne row hrow)
  have hread := read_writeRecords hrows (fun _ _ cell _ => h.takesCell haccepted hformat cell) [] []
  have hrow : pgCopyCsvEncodeRow o.delimiter o.quote o.escape o.nullBytes decodeBase64 columns =
      fun row => writeRecord (csvField o.delimiter o.quote o.escape o.nullBytes) o.delimiter
        (textRow decodeBase64 columns row) := rfl
  rw [hrow]
  simpa [writeRecords, List.flatMap_map, csvEnd, readCsv, pgCopyParseCsvRows, readCsvField]
    using hread

theorem csvField_empty : csvField o.delimiter o.quote o.escape o.nullBytes (some "") =
    [o.quote, o.quote] := by
  simp [csvField, pgCopyCsvEncodeField, csvNeedsQuotes]

/-- The rows that are copied out in the CSV format are copied in again exactly under these
options. -/
theorem copy_csv_lossless_iff (haccepted : o.accepted = true) (hformat : o.format = .csv) :
    (∀ decodeBase64 columns (rows : List (List Cell)), (∀ row ∈ rows, row ≠ []) →
      pgCopyParseCsvRows o.delimiter o.quote o.escape o.nullBytes (rows.flatMap
        (pgCopyCsvEncodeRow o.delimiter o.quote o.escape o.nullBytes decodeBase64 columns)) =
          .ok (rows.map (textRow decodeBase64 columns))) ↔ CsvLossless o := by
  constructor
  · intro h hquote
    have hline : ∀ cell, pgCopyParseCsvRows o.delimiter o.quote o.escape o.nullBytes
        (csvField o.delimiter o.quote o.escape o.nullBytes cell ++ [10]) = .ok [[cell]] := by
      intro cell
      simpa [pgCopyCsvEncodeRow, lineFeed] using h (fun _ => none) [] [[cell]]
    constructor
    · intro hescape
      have hempty := hline (some "")
      rw [csvField_empty, hescape, hquote] at hempty
      simp [pgCopyParseCsvRows, readCsv, CsvScan.push, csvEnd] at hempty
    · intro hnull
      have hnone := hline none
      rw [csvField, hnull, hquote] at hnone
      simp [pgCopyParseCsvRows, readCsv, csvEnd] at hnone
  · intro h decodeBase64 columns rows hne
    exact h.readsBack haccepted hformat decodeBase64 columns hne

/-- Every quote but the line feed loses nothing. -/
theorem csvLossless_of_quote (h : o.quote ≠ 10) : CsvLossless o := fun hquote => absurd hquote h

def semicolonOptions : PgCopyOptions :=
  { format := .csv, delimiter? := some 59, quote? := some 39, escape? := some 92,
    nullString? := some "NULL" }

theorem copy_csv_lossless_samples :
    pgCopyCsvEncodeRow 59 39 92 semicolonOptions.nullBytes (fun _ => none) []
      [some "NULL", none, some "it's"] = utf8 "'NULL';NULL;'it\\'s'\n".toList ∧
    ∀ o ∈ [{ format := .csv }, semicolonOptions], CsvLossless o ∧
      ∀ decodeBase64 columns (rows : List (List Cell)), (∀ row ∈ rows, row ≠ []) →
        pgCopyParseCsvRows o.delimiter o.quote o.escape o.nullBytes (rows.flatMap
          (pgCopyCsvEncodeRow o.delimiter o.quote o.escape o.nullBytes decodeBase64 columns)) =
            .ok (rows.map (textRow decodeBase64 columns)) := by
  refine ⟨by decide +kernel, fun o ho => ?_⟩
  rcases List.mem_cons.mp ho with rfl | ho
  · have hlossless : CsvLossless { format := .csv } := csvLossless_of_quote (by decide)
    exact ⟨hlossless, (copy_csv_lossless_iff (by decide) rfl).mpr hlossless⟩
  · obtain rfl := List.mem_singleton.mp ho
    have hlossless : CsvLossless semicolonOptions := csvLossless_of_quote (by decide)
    exact ⟨hlossless, (copy_csv_lossless_iff (by decide) rfl).mpr hlossless⟩

end Lossless

section Header
variable (decodeBase64 : String → Option Bytes)

def pgCopyHeaderRow (columns : List PgColumn) (o : PgCopyOptions) : Bytes :=
  pgCopyCsvEncodeRow o.delimiter o.quote o.escape o.nullBytes decodeBase64 columns
    (columns.map fun column => some column.name)

/-- What COPY TO STDOUT sends in the CSV format. -/
def copyOutCsv (o : PgCopyOptions) (columns : List PgColumn) (rows : List (List Cell)) : Bytes :=
  (if o.emitsHeaderRow then pgCopyHeaderRow decodeBase64 columns o else []) ++
    rows.flatMap
      (pgCopyCsvEncodeRow o.delimiter o.quote o.escape o.nullBytes decodeBase64 columns)

def eqIgnoreAsciiCase (a b : String) : Bool :=
  Queries.toAsciiLowercase a = Queries.toAsciiLowercase b

def headerMatches (header : List Cell) (columnNames : List String) : Bool :=
  (header.zip columnNames).all fun (actual, expected) =>
    actual.any fun value => eqIgnoreAsciiCase value expected

/-- What `pg_finish_copy_from_stdin` does with the rows before it inserts them. -/
def takeHeader (o : PgCopyOptions) (columnNames : List String) (rows : List (List Cell)) :
    Except String (List (List Cell)) :=
  if o.hasHeader && o.format = .csv then
    match rows with
    | [] => .ok []
    | header :: remaining =>
      if header.length ≠ columnNames.length then .error "COPY header row has the wrong column count"
      else if o.requiresHeaderMatch && !headerMatches header columnNames then
        .error "COPY header row does not match target columns"
      else .ok remaining
  else .ok rows

def checkWidths (columnNames : List String) (rows : List (List Cell)) :
    Except String (List (List Cell)) :=
  if rows.any fun row => row.length ≠ columnNames.length then
    .error "COPY row has the wrong column count"
  else .ok rows

def copyInCsv (o : PgCopyOptions) (columnNames : List String) (buffer : Bytes) :
    Except String (List (List Cell)) := do
  let rows ← pgCopyParseCsvRows o.delimiter o.quote o.escape o.nullBytes buffer
  let rows ← takeHeader o columnNames rows
  checkWidths columnNames rows

end Header

section HeaderLine
variable {o : PgCopyOptions} (decodeBase64 : String → Option Bytes) {columns : List PgColumn}
  {rows : List (List Cell)}

/-- The names of the columns as the header line has them. -/
def headerRow (columns : List PgColumn) : List Cell :=
  textRow decodeBase64 columns (columns.map fun column => some column.name)

theorem parse_copyOutCsv (h : CsvLossless o) (haccepted : o.accepted = true)
    (hformat : o.format = .csv) (hheader : o.header = .present) (hcolumns : columns ≠ [])
    (hrows : ∀ row ∈ rows, row.length = columns.length) :
    pgCopyParseCsvRows o.delimiter o.quote o.escape o.nullBytes
        (copyOutCsv decodeBase64 o columns rows) =
      .ok (headerRow decodeBase64 columns :: rows.map (textRow decodeBase64 columns)) := by
  have hne : ∀ row ∈ (columns.map fun column => some column.name) :: rows, row ≠ [] := by
    rw [List.forall_mem_cons]
    refine ⟨by simpa using hcolumns, fun row hrow hnil => hcolumns ?_⟩
    have hlength := hrows row hrow
    rw [hnil] at hlength
    exact List.eq_nil_of_length_eq_zero hlength.symm
  have hread := h.readsBack haccepted hformat decodeBase64 columns hne
  rw [List.flatMap_cons] at hread
  rw [copyOutCsv, if_pos (by simp [PgCopyOptions.emitsHeaderRow, hheader]), pgCopyHeaderRow]
  exact hread

theorem checkWidths_textRows (hrows : ∀ row ∈ rows, row.length = columns.length) :
    checkWidths (columns.map PgColumn.name) (rows.map (textRow decodeBase64 columns)) =
      .ok (rows.map (textRow decodeBase64 columns)) := by
  rw [checkWidths, if_neg]
  simpa using hrows

/-- The name of a column is the same in the header line, which treats it as a value of the type of
the column. -/
def keepsName (column : PgColumn) : Bool :=
  (pgTextValueForColumn decodeBase64 (some column.name) (some column)).any
    (eqIgnoreAsciiCase · column.name)

theorem headerRow_eq : headerRow decodeBase64 columns = columns.map fun column =>
    pgTextValueForColumn decodeBase64 (some column.name) (some column) := by
  apply List.ext_getElem
  · simp [headerRow]
  · intro idx hidx hidx'
    have hlt : idx < columns.length := by simpa using hidx'
    simp [headerRow, textRow, List.getElem?_eq_getElem hlt]

theorem headerMatches_eq : headerMatches (headerRow decodeBase64 columns)
    (columns.map PgColumn.name) = columns.all (keepsName decodeBase64) := by
  rw [headerMatches, headerRow_eq, List.zip_map', List.all_map]
  rfl

theorem copyInCsv_eq (hheader : List (List Cell)) {buffer : Bytes} {names : List String}
    (hparse : pgCopyParseCsvRows o.delimiter o.quote o.escape o.nullBytes buffer = .ok hheader) :
    copyInCsv o names buffer = takeHeader o names hheader >>= checkWidths names := by
  rw [copyInCsv, hparse, ok_bind]

/-- A file with a header line is taken in again, whatever the names are. Where the names have to
match, it is taken in if every name survives the header line, and refused otherwise. -/
theorem copy_csv_header (h : CsvLossless o) (haccepted : o.accepted = true)
    (hformat : o.format = .csv) (hheader : o.header = .present) (hcolumns : columns ≠ [])
    (hrows : ∀ row ∈ rows, row.length = columns.length) :
    copyInCsv o (columns.map PgColumn.name) (copyOutCsv decodeBase64 o columns rows) =
        .ok (rows.map (textRow decodeBase64 columns)) ∧
      copyInCsv { o with header := .match } (columns.map PgColumn.name)
          (copyOutCsv decodeBase64 o columns rows) =
        if columns.all (keepsName decodeBase64) then .ok (rows.map (textRow decodeBase64 columns))
        else .error "COPY header row does not match target columns" := by
  have hparse := parse_copyOutCsv decodeBase64 h haccepted hformat hheader hcolumns hrows
  have hwidths := checkWidths_textRows decodeBase64 hrows
  have hlength : (headerRow decodeBase64 columns).length = (columns.map PgColumn.name).length := by
    simp [headerRow]
  constructor
  · rw [copyInCsv_eq _ hparse, takeHeader]
    simp [PgCopyOptions.hasHeader, PgCopyOptions.requiresHeaderMatch, hheader, hformat, hlength,
      hwidths]
  · rw [copyInCsv_eq (o := { o with header := .match }) _ hparse, takeHeader,
      ← headerMatches_eq decodeBase64]
    rcases hmatch : headerMatches (headerRow decodeBase64 columns) (columns.map PgColumn.name)
    · simp [PgCopyOptions.hasHeader, PgCopyOptions.requiresHeaderMatch, hformat, hlength]
    · simp [PgCopyOptions.hasHeader, PgCopyOptions.requiresHeaderMatch, hformat, hlength,
        hwidths]

def headerOptions : PgCopyOptions := { format := .csv, header := .present }

def decodeData (text : String) : Option Bytes := if text = "data" then some [117, 171, 90] else none

/-- A column of bytes whose name reads as base64 is not taken in with its own header line. -/
theorem copy_csv_header_data :
    copyInCsv { headerOptions with header := .match } ["data"]
        (copyOutCsv decodeData headerOptions [⟨"data", Oid.bytea⟩] [[none]]) =
      .error "COPY header row does not match target columns" := by
  have hheader : _ ∧ copyInCsv { headerOptions with header := .match } ["data"]
      (copyOutCsv decodeData headerOptions [⟨"data", Oid.bytea⟩] [[none]]) = _ :=
    copy_csv_header decodeData (csvLossless_of_quote (by decide)) (by decide) rfl rfl
      (List.cons_ne_nil _ _) (by simp)
  have hname : pgTextValueForColumn decodeData (some "data") (some ⟨"data", Oid.bytea⟩) =
      some "\\x75ab5a" := by
    decide +kernel
  have hkept : keepsName decodeData ⟨"data", Oid.bytea⟩ = false := by
    rw [keepsName, hname]
    decide +kernel
  rw [hheader.2, if_neg]
  simp [hkept]

end HeaderLine

end SkeinDB.Copy
