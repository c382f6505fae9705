import SkeinDB.Copy.Options

/-!
# COPY in the text format

`skeindb/src/server.rs`: `pg_copy_text_encode_row` and `pg_copy_parse_text_rows`. A field is written
with its special bytes escaped, and one that looks like the null marker gets a backslash in front.
The reader splits at the bytes that are not escaped and takes the escapes back field by field.
-/
namespace SkeinDB.Copy
open SkeinDB.Codec SkeinDB.Text

section Code
variable (delimiter : UInt8)

def escapeTextByte (byte : UInt8) : Bytes :=
  if byte = 92 then [92, 92]
  else if byte = 9 then [92, 116]
  else if byte = 10 then [92, 110]
  else if byte = 13 then [92, 114]
  else if byte = delimiter then [92, byte]
  else [byte]

def pgCopyEscapeTextField (bytes : Bytes) : Bytes := bytes.flatMap (escapeTextByte delimiter)

variable (null : Bytes)

/-- A cell in the text format. -/
def textField : Cell → Bytes
  | none => null
  | some value =>
    let escaped := pgCopyEscapeTextField delimiter (utf8 value.toList)
    if null ≠ [] ∧ escaped = null then 92 :: escaped else escaped

def pgCopyTextEncodeRow (decodeBase64 : String → Option Bytes) (columns : List PgColumn)
    (row : List Cell) : Bytes :=
  writeRecord (textField delimiter null) delimiter (textRow decodeBase64 columns row)

def unescapeTextByte (byte : UInt8) : UInt8 :=
  if byte = 116 then 9 else if byte = 110 then 10 else if byte = 114 then 13 else byte

def unescapeText : Bytes → Except String Bytes
  | [] => .ok []
  | byte :: rest =>
    if byte ≠ 92 then (unescapeText rest).map (byte :: ·)
    else match rest with
      | [] => .error "COPY data ended with a trailing escape"
      | escaped :: rest => (unescapeText rest).map (unescapeTextByte escaped :: ·)

def pgCopyDecodeTextField (raw : Bytes) : Except String Cell :=
  if raw = null then .ok none
  else do
    let decoded ← unescapeText raw
    match readUtf8 decoded with
    | some value => .ok (some value)
    | none => .error "COPY text data must be valid UTF-8"

/-- Where the reader is in the buffer. -/
structure TextScan where
  rows : List (List Cell) := []
  row : List Cell := []
  field : Bytes := []
  escaped : Bool := false

def textByte (s : TextScan) (byte : UInt8) : Except String TextScan :=
  if s.escaped then .ok { s with field := s.field ++ [byte], escaped := false }
  else if byte = 92 then .ok { s with field := s.field ++ [byte], escaped := true }
  else if byte = delimiter then do
    let cell ← pgCopyDecodeTextField null s.field
    return { s with row := s.row ++ [cell], field := [] }
  else if byte = 10 then do
    let cell ← pgCopyDecodeTextField null s.field
    return { s with rows := s.rows ++ [s.row ++ [cell]], row := [], field := [] }
  else .ok { s with field := s.field ++ [byte] }

def textEnd (s : TextScan) : Except String (List (List Cell)) :=
  if s.escaped then .error "COPY data ended with a trailing escape"
  else if s.field ≠ [] ∨ s.row ≠ [] then do
    let cell ← pgCopyDecodeTextField null s.field
    return s.rows ++ [s.row ++ [cell]]
  else .ok s.rows

def readText (s : TextScan) (buffer : Bytes) : Except String (List (List Cell)) := do
  textEnd null (← buffer.foldlM (textByte delimiter null) s)

/-- The reader at the start of a field. -/
def readTextField (rows : List (List Cell)) (row : List Cell) (buffer : Bytes) :
    Except String (List (List Cell)) := readText delimiter null { rows, row } buffer

def pgCopyParseTextRows (buffer : Bytes) : Except String (List (List Cell)) :=
  readText delimiter null {} buffer

end Code

section Fields
variable {delimiter : UInt8} {null : Bytes}

@[simp] theorem readText_nil (s : TextScan) : readText delimiter null s [] = textEnd null s := rfl

theorem readText_cons (s : TextScan) (byte : UInt8) (rest : Bytes) :
    readText delimiter null s (byte :: rest) =
      textByte delimiter null s byte >>= fun s => readText delimiter null s rest := by
  simp [readText]

/-- Bytes that make up a part of one field: no byte of theirs ends it, and their last escape is
complete. -/
def Closed (delimiter : UInt8) : Bytes → Prop
  | [] => True
  | byte :: rest =>
    if byte = 92 then
      match rest with
      | [] => False
      | _ :: rest => Closed delimiter rest
    else byte ≠ delimiter ∧ byte ≠ 10 ∧ Closed delimiter rest

theorem closed_escape (byte : UInt8) (rest : Bytes) :
    Closed delimiter (92 :: byte :: rest) ↔ Closed delimiter rest := by
  simp [Closed]

theorem closed_plain {byte : UInt8} (hbyte : byte ≠ 92) (rest : Bytes) :
    Closed delimiter (byte :: rest) ↔ byte ≠ delimiter ∧ byte ≠ 10 ∧ Closed delimiter rest := by
  rw [Closed.eq_def]
  simp [hbyte]

theorem readText_escape {s : TextScan} (hs : s.escaped = false) (byte : UInt8) (rest : Bytes) :
    readText delimiter null s (92 :: byte :: rest) =
      readText delimiter null { s with field := s.field ++ [92, byte] } rest := by
  obtain ⟨rows, row, field, escaped⟩ := s
  cases hs
  simp [readText_cons, textByte]

theorem readText_plain {s : TextScan} (hs : s.escaped = false) {byte : UInt8} (hbyte : byte ≠ 92)
    (hdelimiter : byte ≠ delimiter) (hline : byte ≠ 10) (rest : Bytes) :
    readText delimiter null s (byte :: rest) =
      readText delimiter null { s with field := s.field ++ [byte] } rest := by
  simp [readText_cons, textByte, hs, hbyte, hdelimiter, hline]

theorem readText_closed {raw : Bytes} (hraw : Closed delimiter raw) {s : TextScan}
    (hs : s.escaped = false) (rest : Bytes) :
    readText delimiter null s (raw ++ rest) =
      readText delimiter null { s with field := s.field ++ raw } rest := by
  induction raw using Closed.induct generalizing s with
  | case1 => simp
  | case2 => simp [Closed] at hraw
  | case3 byte raw ih =>
    rw [closed_escape] at hraw
    rw [List.cons_append, List.cons_append, readText_escape hs, ih hraw]
    · simp
    · exact hs
  | case4 byte raw hbyte ih =>
    rw [closed_plain hbyte] at hraw
    rw [List.cons_append, readText_plain hs hbyte hraw.1 hraw.2.1, ih hraw.2.2]
    · simp
    · exact hs

theorem Closed.append {raw more : Bytes} (hraw : Closed delimiter raw)
    (hmore : Closed delimiter more) : Closed delimiter (raw ++ more) := by
  induction raw using Closed.induct with
  | case1 => exact hmore
  | case2 => simp [Closed] at hraw
  | case3 byte raw ih =>
    rw [closed_escape] at hraw
    rw [List.cons_append, List.cons_append, closed_escape]
    exact ih hraw
  | case4 byte raw hbyte ih =>
    rw [closed_plain hbyte] at hraw
    rw [List.cons_append, closed_plain hbyte]
    exact ⟨hraw.1, hraw.2.1, ih hraw.2.2⟩

/-- The two ends of a field that the reader knows. -/
theorem takesField {raw : Bytes} {cell : Cell} (hdelimiter : delimiter ≠ 92)
    (hline : delimiter ≠ 10) (hraw : Closed delimiter raw)
    (hcell : pgCopyDecodeTextField null raw = .ok cell) :
    TakesField (readTextField delimiter null) delimiter raw cell where
  next rows row rest := by
    rw [readTextField, readText_closed hraw rfl, readText_cons]
    simp [textByte, hdelimiter, hcell, readTextField]
  last rows row rest := by
    rw [readTextField, lineFeed, readText_closed hraw rfl, readText_cons]
    simp [textByte, hline.symm, hcell, readTextField]

end Fields

section Values
variable {delimiter : UInt8}

theorem closed_escapeTextByte (byte : UInt8) : Closed delimiter (escapeTextByte delimiter byte) := by
  unfold escapeTextByte
  split_ifs with hslash htab hline hreturn hdelimiter
  · simp [Closed]
  · simp [Closed]
  · simp [Closed]
  · simp [Closed]
  · simp [Closed]
  · exact (closed_plain hslash _).mpr ⟨hdelimiter, hline, trivial⟩

theorem closed_escape_field (bytes : Bytes) :
    Closed delimiter (pgCopyEscapeTextField delimiter bytes) := by
  induction bytes with
  | nil => trivial
  | cons byte bytes ih => exact (closed_escapeTextByte byte).append ih

@[simp] theorem unescapeText_escape (byte : UInt8) (rest : Bytes) :
    unescapeText (92 :: byte :: rest) = (unescapeText rest).map (unescapeTextByte byte :: ·) := by
  simp [unescapeText]

theorem unescapeText_plain {byte : UInt8} (hbyte : byte ≠ 92) (rest : Bytes) :
    unescapeText (byte :: rest) = (unescapeText rest).map (byte :: ·) := by
  rw [unescapeText.eq_def]
  simp [hbyte]

/-- The bytes that stand for others behind a backslash. -/
def isEscapeLetter (byte : UInt8) : Prop := byte ∈ [116, 110, 114]

instance (byte : UInt8) : Decidable (isEscapeLetter byte) := inferInstanceAs (Decidable (_ ∈ _))

theorem unescapeTextByte_eq_iff {byte : UInt8} :
    unescapeTextByte byte = byte ↔ ¬ isEscapeLetter byte := by
  unfold unescapeTextByte isEscapeLetter
  split_ifs with ht hn hr
  · simp [ht]
  · simp [hn]
  · simp [hr]
  · simp [ht, hn, hr]

theorem unescapeText_escapeTextByte (hletter : ¬ isEscapeLetter delimiter) (byte : UInt8)
    (rest : Bytes) : unescapeText (escapeTextByte delimiter byte ++ rest) =
      (unescapeText rest).map (byte :: ·) := by
  unfold escapeTextByte
  split_ifs with hslash htab hline hreturn hdelimiter
  · simp [hslash, unescapeTextByte]
  · simp [htab, unescapeTextByte]
  · simp [hline, unescapeTextByte]
  · simp [hreturn, unescapeTextByte]
  · simp [hdelimiter, unescapeTextByte_eq_iff.mpr hletter]
  · exact unescapeText_plain hslash rest

theorem unescapeText_escape_field (hletter : ¬ isEscapeLetter delimiter) (bytes : Bytes) :
    unescapeText (pgCopyEscapeTextField delimiter bytes) = .ok bytes := by
  induction bytes with
  | nil => rfl
  | cons byte bytes ih =>
    rw [pgCopyEscapeTextField, List.flatMap_cons, unescapeText_escapeTextByte hletter]
    rw [← pgCopyEscapeTextField, ih]
    rfl

end Values

section Marker
variable {delimiter : UInt8}

/-- A backslash in front of the marker changes nothing: behind its pairs of backslashes stands a
byte that stands for itself. -/
def Harmless : Bytes → Prop
  | [] => False
  | byte :: rest =>
    if byte = 92 then
      match rest with
      | [] => False
      | next :: rest => next = 92 ∧ Harmless rest
    else ¬ isEscapeLetter byte

@[simp] theorem harmless_escape (byte : UInt8) (rest : Bytes) :
    Harmless (92 :: byte :: rest) ↔ byte = 92 ∧ Harmless rest := by
  simp [Harmless]

theorem harmless_plain {byte : UInt8} (hbyte : byte ≠ 92) (rest : Bytes) :
    Harmless (byte :: rest) ↔ ¬ isEscapeLetter byte := by
  rw [Harmless.eq_def]
  simp [hbyte]

/-- How a byte is written that is not the delimiter. -/
theorem escapeTextByte_cases {byte : UInt8} (hdelimiter : delimiter ∉ escapeTextByte delimiter byte) :
    (byte = 92 ∧ escapeTextByte delimiter byte = [92, 92]) ∨
    (byte ≠ 92 ∧ ∃ letter, isEscapeLetter letter ∧ escapeTextByte delimiter byte = [92, letter]) ∨
    (byte ≠ 92 ∧ escapeTextByte delimiter byte = [byte]) := by
  unfold escapeTextByte isEscapeLetter at *
  split_ifs at hdelimiter ⊢ with hslash htab hline hreturn hbyte
  · simp [hslash]
  · simp [htab]
  · simp [hline]
  · simp [hreturn]
  · simp [hbyte] at hdelimiter
  · simp [hslash]

theorem harmless_spec {bytes : Bytes}
    (hdelimiter : delimiter ∉ pgCopyEscapeTextField delimiter bytes)
    (hharmless : Harmless (pgCopyEscapeTextField delimiter bytes))
    (hletter : ¬ isEscapeLetter delimiter) :
    Closed delimiter (92 :: pgCopyEscapeTextField delimiter bytes) ∧
      unescapeText (92 :: pgCopyEscapeTextField delimiter bytes) = .ok bytes := by
  induction bytes with
  | nil => exact hharmless.elim
  | cons byte bytes ih =>
    rw [pgCopyEscapeTextField, List.flatMap_cons, ← pgCopyEscapeTextField] at *
    rw [List.mem_append, not_or] at hdelimiter
    rcases escapeTextByte_cases hdelimiter.1 with
      ⟨rfl, heq⟩ | ⟨hbyte, letter, hesc, heq⟩ | ⟨hbyte, heq⟩
    · rw [heq] at hharmless ⊢
      obtain ⟨hclosed, hread⟩ := ih hdelimiter.2 ((harmless_escape _ _).mp hharmless).2
      refine ⟨(closed_escape _ _).mpr hclosed, ?_⟩
      simp only [List.cons_append, List.nil_append]
      rw [unescapeText_escape, hread]
      rfl
    · rw [heq] at hharmless
      have hslash := ((harmless_escape _ _).mp hharmless).1
      rw [hslash] at hesc
      exact absurd hesc (by decide)
    · rw [heq] at hharmless ⊢
      have hbyte' := (harmless_plain hbyte _).mp hharmless
      refine ⟨(closed_escape _ _).mpr (closed_escape_field bytes), ?_⟩
      simp only [List.cons_append, List.nil_append]
      rw [unescapeText_escape, unescapeText_escape_field hletter,
        unescapeTextByte_eq_iff.mpr hbyte']
      rfl

theorem map_cons_ne {x : Except String Bytes} {a b : UInt8} {bytes : Bytes}
    (h : a ≠ b ∨ x ≠ .ok bytes) : x.map (a :: ·) ≠ .ok (b :: bytes) := by
  rcases x with e | c
  · simp [Except.map]
  · simpa [Except.map, imp_iff_not_or] using h

/-- Otherwise the value is not read back, also where the escape takes up the line feed. -/
theorem not_harmless_spec {bytes : Bytes}
    (hdelimiter : delimiter ∉ pgCopyEscapeTextField delimiter bytes)
    (hharmless : ¬ Harmless (pgCopyEscapeTextField delimiter bytes)) {tail : Bytes}
    (htail : tail = [] ∨ tail = [10]) :
    unescapeText (92 :: (pgCopyEscapeTextField delimiter bytes ++ tail)) ≠ .ok bytes := by
  induction bytes with
  | nil =>
    rcases htail with rfl | rfl
    · simp [pgCopyEscapeTextField, unescapeText]
    · simp [pgCopyEscapeTextField, unescapeText, Except.map]
  | cons byte bytes ih =>
    rw [pgCopyEscapeTextField, List.flatMap_cons, ← pgCopyEscapeTextField] at *
    rw [List.mem_append, not_or] at hdelimiter
    rcases escapeTextByte_cases hdelimiter.1 with
      ⟨rfl, heq⟩ | ⟨hbyte, letter, hesc, heq⟩ | ⟨hbyte, heq⟩
    · rw [heq] at hharmless ⊢
      simp only [List.cons_append, List.nil_append] at hharmless ⊢
      rw [harmless_escape] at hharmless
      rw [unescapeText_escape]
      exact map_cons_ne (.inr (ih hdelimiter.2 (by tauto)))
    · rw [heq]
      simp only [List.cons_append, List.nil_append]
      rw [unescapeText_escape]
      exact map_cons_ne (.inl (by simpa [unescapeTextByte] using hbyte.symm))
    · rw [heq] at hharmless ⊢
      simp only [List.cons_append, List.nil_append] at hharmless ⊢
      rw [harmless_plain hbyte, not_not] at hharmless
      rw [unescapeText_escape]
      refine map_cons_ne (.inl ?_)
      exact fun h => unescapeTextByte_eq_iff.mp h hharmless

end Marker

section Lines
variable {delimiter : UInt8} {null raw : Bytes}

theorem parse_closed_line (hdelimiter : delimiter ≠ 10) (hraw : Closed delimiter raw) :
    pgCopyParseTextRows delimiter null (raw ++ [10]) =
      (pgCopyDecodeTextField null raw).map fun cell => [[cell]] := by
  rw [pgCopyParseTextRows, readText_closed hraw rfl, readText_cons]
  rcases h : pgCopyDecodeTextField null raw with e | cell
  · simp [textByte, hdelimiter.symm, h, Except.map]
  · simp [textByte, hdelimiter.symm, h, Except.map, textEnd]

/-- The line feed of an open field is a part of it. -/
theorem readText_open (hdelimiter : delimiter ∉ raw) (hline : 10 ∉ raw)
    (hraw : ¬ Closed delimiter raw) {s : TextScan} (hs : s.escaped = false) :
    readText delimiter null s (raw ++ [10]) =
      (pgCopyDecodeTextField null (s.field ++ raw ++ [10])).map fun cell =>
        s.rows ++ [s.row ++ [cell]] := by
  induction raw using Closed.induct generalizing s with
  | case1 => exact absurd trivial hraw
  | case2 =>
    rw [List.cons_append, List.nil_append, readText_escape hs, readText_nil]
    simp [textEnd, hs]
    rfl
  | case3 byte raw ih =>
    rw [closed_escape] at hraw
    simp only [List.mem_cons, not_or] at hdelimiter hline
    rw [List.cons_append, List.cons_append, readText_escape hs,
      ih hdelimiter.2.2 hline.2.2 hraw]
    · simp
    · exact hs
  | case4 byte raw hbyte ih =>
    simp only [List.mem_cons, not_or] at hdelimiter hline
    rw [closed_plain hbyte] at hraw
    have hrest : ¬ Closed delimiter raw := fun h => hraw ⟨Ne.symm hdelimiter.1, Ne.symm hline.1, h⟩
    rw [List.cons_append, readText_plain hs hbyte (Ne.symm hdelimiter.1) (Ne.symm hline.1),
      ih hdelimiter.2 hline.2 hrest]
    · simp
    · exact hs

@[simp] theorem decode_none_iff : pgCopyDecodeTextField null raw = .ok none ↔ raw = null := by
  unfold pgCopyDecodeTextField
  rcases hread : unescapeText raw with e | bytes
  · simp
  · rcases hutf : readUtf8 bytes with _ | value
    · simp [hutf]
    · simp [hutf]

theorem decode_some_iff {value : String} : pgCopyDecodeTextField null raw = .ok (some value) ↔
    raw ≠ null ∧ unescapeText raw = .ok (utf8 value.toList) := by
  unfold pgCopyDecodeTextField
  by_cases hnull : raw = null
  · simp [hnull]
  rw [if_neg hnull]
  rcases hread : unescapeText raw with e | bytes
  · simp
  · rcases hutf : readUtf8 bytes with _ | value'
    · have hne : bytes ≠ utf8 value.toList := by
        rintro rfl
        simp at hutf
      simp [hutf, hne]
    · rw [← utf8_of_readUtf8 hutf]
      simp [hnull, utf8_toList_inj]

end Lines

section Main

/-- The options with which the text format loses nothing: the delimiter is not a letter that stands
behind a backslash for another byte, the null marker is not empty and is a field of its own, and a
value that is written like it is still read when a backslash is put in front. -/
def TextLossless (o : PgCopyOptions) : Prop :=
  ¬ isEscapeLetter o.delimiter ∧ o.nullBytes ≠ [] ∧ Closed o.delimiter o.nullBytes ∧
    ∀ value : String, pgCopyEscapeTextField o.delimiter (utf8 value.toList) = o.nullBytes →
      Harmless o.nullBytes

variable {o : PgCopyOptions}

/-- Such options give every cell back. -/
theorem TextLossless.takesCell (h : TextLossless o) (haccepted : o.accepted = true)
    (hformat : o.format = .text) (cell : Cell) :
    TakesField (readTextField o.delimiter o.nullBytes) o.delimiter
      (textField o.delimiter o.nullBytes cell) cell := by
  obtain ⟨hletter, hnull, hclosed, hmark⟩ := h
  have hbinary : o.format ≠ .binary := by simp [hformat]
  have hslash := PgCopyOptions.accepted_backslash haccepted hformat
  have hline := PgCopyOptions.accepted_lineFeed haccepted hbinary
  cases cell with
  | none => exact takesField hslash hline hclosed (decode_none_iff.mpr rfl)
  | some value =>
    rw [textField]
    split_ifs with h
    · have hmem := (PgCopyOptions.accepted_null haccepted hbinary).2
      have hharmless := hmark value h.2
      rw [← h.2] at hmem hharmless
      obtain ⟨hprefixed, hread⟩ := harmless_spec hmem hharmless hletter
      apply takesField hslash hline hprefixed
      rw [decode_some_iff]
      refine ⟨?_, hread⟩
      rw [← h.2]
      exact fun heq => by simpa using congrArg List.length heq
    · apply takesField hslash hline (closed_escape_field _)
      rw [decode_some_iff]
      exact ⟨fun heq => h ⟨hnull, heq⟩, unescapeText_escape_field hletter _⟩

/-- A cell on a line of its own is read back. -/
def ReadsBack (o : PgCopyOptions) (cell : Cell) : Prop :=
  pgCopyParseTextRows o.delimiter o.nullBytes
    (textField o.delimiter o.nullBytes cell ++ [10]) = .ok [[cell]]

theorem map_line_iff {x : Except String Cell} {cell : Cell} :
    (x.map fun cell => [[cell]]) = .ok [[cell]] ↔ x = .ok cell := by
  rcases x with e | cell'
  · simp [Except.map]
  · simp [Except.map]

section Necessary
variable (hline : o.delimiter ≠ 10) (hmem : o.delimiter ∉ o.nullBytes)
include hline

theorem readsBack_closed {cell : Cell}
    (hclosed : Closed o.delimiter (textField o.delimiter o.nullBytes cell)) : ReadsBack o cell ↔
      pgCopyDecodeTextField o.nullBytes (textField o.delimiter o.nullBytes cell) = .ok cell := by
  rw [ReadsBack, parse_closed_line hline hclosed, map_line_iff]

theorem marker_ne_nil (h : ReadsBack o (some "")) : o.nullBytes ≠ [] := by
  intro hnil
  have hfield : textField o.delimiter o.nullBytes (some "") = [] := by
    simp [textField, pgCopyEscapeTextField, hnil]
  rw [readsBack_closed hline (by rw [hfield]; trivial), hfield, hnil, decode_some_iff] at h
  exact h.1 rfl

include hmem

theorem not_isEscapeLetter (h : ∀ cell, ReadsBack o cell) : ¬ isEscapeLetter o.delimiter := by
  intro hletter
  have hvalue : ∃ value : String, utf8 value.toList = [o.delimiter] := by
    simp only [isEscapeLetter, List.mem_cons, List.not_mem_nil, or_false] at hletter
    rcases hletter with heq | heq | heq
    · exact ⟨"t", by rw [heq]; rfl⟩
    · exact ⟨"n", by rw [heq]; rfl⟩
    · exact ⟨"r", by rw [heq]; rfl⟩
  obtain ⟨value, hvalue⟩ := hvalue
  have hescape : pgCopyEscapeTextField o.delimiter [o.delimiter] = [92, o.delimiter] := by
    have hspecial : ∀ byte ∈ [116, 110, 114], escapeTextByte byte byte = [92, byte] := by
      simp [escapeTextByte]
    simpa [pgCopyEscapeTextField] using hspecial _ hletter
  have hfield : textField o.delimiter o.nullBytes (some value) = [92, o.delimiter] := by
    rw [textField, hvalue, hescape, if_neg]
    rintro ⟨-, heq⟩
    exact hmem (by simp [← heq])
  have hback := h (some value)
  rw [readsBack_closed hline (by rw [hfield]; simp [Closed]), hfield, decode_some_iff, hvalue,
    unescapeText_escape] at hback
  simp only [unescapeText, Except.map, Except.ok.injEq, List.cons.injEq, and_true] at hback
  exact unescapeTextByte_eq_iff.mp hback.2 hletter

variable (hten : 10 ∉ o.nullBytes)
include hten

omit hline in
theorem marker_closed (h : ReadsBack o none) : Closed o.delimiter o.nullBytes := by
  by_contra hopen
  have hread : ReadsBack o none ↔ _ := Eq.congr_left (readText_open hmem hten hopen rfl)
  rw [hread] at h
  have hnone := map_line_iff.mp h
  rw [decode_none_iff] at hnone
  exact absurd hnone (by simp)

theorem marker_harmless (hslash : o.delimiter ≠ 92) {value : String} (h : ReadsBack o (some value))
    (hnull : o.nullBytes ≠ [])
    (hvalue : pgCopyEscapeTextField o.delimiter (utf8 value.toList) = o.nullBytes) :
    Harmless o.nullBytes := by
  by_contra hharmless
  have hfield : textField o.delimiter o.nullBytes (some value) = 92 :: o.nullBytes := by
    rw [textField, if_pos ⟨hnull, hvalue⟩, hvalue]
  rw [← hvalue] at hmem hharmless
  by_cases hclosed : Closed o.delimiter (92 :: o.nullBytes)
  · rw [readsBack_closed hline (by rwa [hfield]), hfield, decode_some_iff, ← hvalue] at h
    exact not_harmless_spec hmem hharmless (.inl rfl) (by simpa using h.2)
  · have hmem' : o.delimiter ∉ 92 :: o.nullBytes := by
      simpa [hslash, ← hvalue] using hmem
    have hten' : 10 ∉ 92 :: o.nullBytes := by simpa using hten
    rw [ReadsBack, pgCopyParseTextRows, hfield, readText_open hmem' hten' hclosed rfl] at h
    have hsome := decode_some_iff.mp (map_line_iff.mp h)
    rw [← hvalue] at hsome
    exact not_harmless_spec hmem hharmless (.inr rfl) (by simpa using hsome.2)

end Necessary

theorem TextLossless.of_readsBack (haccepted : o.accepted = true) (hformat : o.format = .text)
    (h : ∀ cell, ReadsBack o cell) : TextLossless o := by
  have hbinary : o.format ≠ .binary := by simp [hformat]
  have hline := PgCopyOptions.accepted_lineFeed haccepted hbinary
  obtain ⟨⟨hten, -⟩, hmem⟩ := PgCopyOptions.accepted_null haccepted hbinary
  have hnull := marker_ne_nil hline (h _)
  exact ⟨not_isEscapeLetter hline hmem h, hnull, marker_closed hmem hten (h _), fun value =>
    marker_harmless hline hmem hten (PgCopyOptions.accepted_backslash haccepted hformat) (h _) hnull⟩

/-- The rows that are copied out in the text format are copied in again exactly under these
options. -/
theorem copy_text_lossless_iff (haccepted : o.accepted = true) (hformat : o.format = .text) :
    (∀ decodeBase64 columns (rows : List (List Cell)), (∀ row ∈ rows, row ≠ []) →
      pgCopyParseTextRows o.delimiter o.nullBytes
        (rows.flatMap (pgCopyTextEncodeRow o.delimiter o.nullBytes decodeBase64 columns)) =
          .ok (rows.map (textRow decodeBase64 columns))) ↔ TextLossless o := by
  constructor
  · intro h
    apply TextLossless.of_readsBack haccepted hformat
    intro cell
    simpa [pgCopyTextEncodeRow, ReadsBack, lineFeed] using h (fun _ => none) [] [[cell]]
  · intro h decodeBase64 columns rows hne
    have hrows : ∀ row ∈ rows.map (textRow decodeBase64 columns), row ≠ [] := by
      simpa using fun row hrow => textRow_ne_nil decodeBase64 (hne row hrow)
    have hread := read_writeRecords hrows (fun _ _ cell _ => h.takesCell haccepted hformat cell) [] []
    have hrow : pgCopyTextEncodeRow o.delimiter o.nullBytes decodeBase64 columns =
        fun row => writeRecord (textField o.delimiter o.nullBytes) o.delimiter
          (textRow decodeBase64 columns row) := rfl
    rw [hrow]
    simpa [writeRecords, List.flatMap_map, textEnd, pgCopyParseTextRows, readTextField] using hread

/-- The defaults lose nothing: no value is written like their null marker. -/
theorem textLossless_default : TextLossless {} := by
  have hclosed : Closed 9 [92, 78] := by simp [Closed]
  refine ⟨by decide, by decide, hclosed, fun value hvalue => ?_⟩
  have hnull : PgCopyOptions.nullBytes {} = [92, 78] := rfl
  have hread := unescapeText_escape_field (show ¬ isEscapeLetter 9 by decide) (utf8 value.toList)
  have hdelimiter : PgCopyOptions.delimiter {} = 9 := rfl
  rw [hnull, hdelimiter] at hvalue
  rw [hvalue] at hread
  rw [← Except.ok.inj hread] at hvalue
  exact absurd hvalue (by decide)

/-- A value that looks like this marker is written with a backslash in front. -/
def pipeOptions : PgCopyOptions := { delimiter? := some 124, nullString? := some "NULL" }

theorem textLossless_pipe : TextLossless pipeOptions := by
  have hnull : pipeOptions.nullBytes = [78, 85, 76, 76] := rfl
  have hharmless : Harmless pipeOptions.nullBytes := by
    rw [hnull, harmless_plain (by decide)]
    decide
  have hclosed : Closed pipeOptions.delimiter pipeOptions.nullBytes := by
    rw [hnull]
    simp [Closed, pipeOptions, PgCopyOptions.delimiter]
  exact ⟨by decide, by decide, hclosed, fun _ _ => hharmless⟩

theorem copy_text_lossless_samples :
    pgCopyTextEncodeRow pipeOptions.delimiter pipeOptions.nullBytes (fun _ => none) []
      [some "NULL", none, some "a|b"] = utf8 "\\NULL|NULL|a\\|b\n".toList ∧
    ∀ o ∈ [{}, pipeOptions], TextLossless o ∧
      ∀ decodeBase64 columns (rows : List (List Cell)), (∀ row ∈ rows, row ≠ []) →
        pgCopyParseTextRows o.delimiter o.nullBytes
          (rows.flatMap (pgCopyTextEncodeRow o.delimiter o.nullBytes decodeBase64 columns)) =
            .ok (rows.map (textRow decodeBase64 columns)) := by
  refine ⟨by decide +kernel, fun o ho => ?_⟩
  rcases List.mem_cons.mp ho with rfl | ho
  · exact ⟨textLossless_default,
      (copy_text_lossless_iff (by decide) rfl).mpr textLossless_default⟩
  · obtain rfl := List.mem_singleton.mp ho
    exact ⟨textLossless_pipe, (copy_text_lossless_iff (by decide) rfl).mpr textLossless_pipe⟩

end Main

end SkeinDB.Copy
