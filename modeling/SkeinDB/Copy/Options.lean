import SkeinDB.Codec.Records
import SkeinDB.Queries.Syntax
import SkeinDB.Sessions.MySql
import SkeinDB.Text.Utf8

/-!
# Options of COPY

`skeindb/src/server.rs`: the format of a COPY with its delimiter, quote, escape and null marker,
what is refused of them, and the text of a value under the type of its column.
-/
namespace SkeinDB.Copy
open SkeinDB.Codec SkeinDB.Text

inductive PgCopyFormat
  | text
  | csv
  | binary
  deriving DecidableEq, Repr

inductive PgCopyHeaderOption
  | none
  | present
  | match
  deriving DecidableEq, Repr

structure PgCopyOptions where
  format : PgCopyFormat := .text
  header : PgCopyHeaderOption := .none
  delimiter? : Option UInt8 := Option.none
  quote? : Option UInt8 := Option.none
  escape? : Option UInt8 := Option.none
  nullString? : Option String := Option.none

namespace PgCopyOptions
variable (o : PgCopyOptions)

/-- The binary format has no delimiter: the source panics there, and never asks for one. -/
def delimiter : UInt8 :=
  o.delimiter?.getD <| match o.format with
    | .text => 9
    | .csv => 44
    | .binary => 0

def nullString : String :=
  o.nullString?.getD <| match o.format with
    | .text => "\\N"
    | .csv => ""
    | .binary => ""

def quote : UInt8 :=
  o.quote?.getD <| match o.format with
    | .csv => 34
    | .text | .binary => 0

def escape : UInt8 :=
  o.escape?.getD <| match o.format with
    | .csv => o.quote
    | .text | .binary => 0

def nullBytes : Bytes := utf8 o.nullString.toList

def hasHeader : Bool := o.header ≠ .none

def emitsHeaderRow : Bool := o.header = .present

def requiresHeaderMatch : Bool := o.header = .match

/-- What `pg_parse_copy_trailing_options` checks once it has read the options. -/
def accepted : Bool :=
  if o.hasHeader && o.format ≠ .csv then false
  else if o.format = .binary then
    o.delimiter?.isNone && o.quote?.isNone && o.escape?.isNone && o.nullString?.isNone
  else if o.quote?.isSome && o.format ≠ .csv then false
  else if o.escape?.isSome && o.format ≠ .csv then false
  else if o.delimiter ∈ [0, 10, 13] then false
  else if o.format = .text && o.delimiter = 92 then false
  else
    let quote := if o.format = .csv then o.quote else 34
    if o.format = .csv && o.delimiter = quote then false
    else if 0 ∈ o.nullBytes || 10 ∈ o.nullBytes || 13 ∈ o.nullBytes then false
    else if o.delimiter ∈ o.nullBytes then false
    else !(o.format = .csv && quote ∈ o.nullBytes)

section Accepted
variable {o} (h : o.accepted = true)
include h

theorem accepted_lineFeed (hformat : o.format ≠ .binary) : o.delimiter ≠ 10 := by
  grind [accepted]

theorem accepted_backslash (hformat : o.format = .text) : o.delimiter ≠ 92 := by
  grind [accepted]

theorem accepted_quote (hformat : o.format = .csv) : o.delimiter ≠ o.quote := by
  grind [accepted]

theorem accepted_null (hformat : o.format ≠ .binary) :
    (10 ∉ o.nullBytes ∧ 13 ∉ o.nullBytes) ∧ o.delimiter ∉ o.nullBytes := by
  grind [accepted]

theorem accepted_null_quote (hformat : o.format = .csv) : o.quote ∉ o.nullBytes := by
  grind [accepted]

end Accepted

end PgCopyOptions

namespace Oid

def bool : ℤ := 16
def bytea : ℤ := 17

end Oid

structure PgColumn where
  name : String
  typeOid : ℤ

/-- A cell of a row, `none` for NULL. -/
abbrev Cell := Option String

section Values
variable (decodeBase64 : String → Option Bytes)

def pgTextValueForColumn (value : Cell) (column : Option PgColumn) : Cell :=
  value.map fun value =>
    let typeOid := column.map PgColumn.typeOid
    if typeOid = some Oid.bool then
      let lower := Queries.toAsciiLowercase (Values.trim value)
      if lower ∈ ["1", "t", "true"] then "t"
      else if lower ∈ ["0", "f", "false"] then "f"
      else value
    else if typeOid = some Oid.bytea then
      match decodeBase64 value with
      | some bytes => "\\x" ++ Sessions.hexEncode bytes
      | none => value
    else value

/-- The cells of a row as the text formats write them. -/
def textRow (columns : List PgColumn) (row : List Cell) : List Cell :=
  row.mapIdx fun idx value => pgTextValueForColumn decodeBase64 value columns[idx]?

@[simp] theorem pgTextValueForColumn_none (value : Cell) :
    pgTextValueForColumn decodeBase64 value none = value := by
  cases value <;> rfl

@[simp] theorem textRow_nil_columns (row : List Cell) : textRow decodeBase64 [] row = row := by
  ext1 idx
  simp [textRow]

@[simp] theorem textRow_length (columns : List PgColumn) (row : List Cell) :
    (textRow decodeBase64 columns row).length = row.length := by
  simp [textRow]

theorem textRow_ne_nil {columns : List PgColumn} {row : List Cell} (h : row ≠ []) :
    textRow decodeBase64 columns row ≠ [] := by
  simpa [textRow] using h

end Values

@[simp] theorem ok_bind {ε α β : Type} (a : α) (f : α → Except ε β) : (.ok a >>= f) = f a := rfl

@[simp] theorem error_bind {ε α β : Type} (e : ε) (f : α → Except ε β) :
    (.error e >>= f) = .error e := rfl

/-- A text as `String::from_utf8` reads it. -/
def readUtf8 (bytes : Bytes) : Option String := (fromUtf8 bytes).map String.ofList

@[simp] theorem readUtf8_utf8 (s : String) : readUtf8 (utf8 s.toList) = some s := by
  simp [readUtf8, fromUtf8_utf8]

theorem utf8_toList_inj {s t : String} : utf8 s.toList = utf8 t.toList ↔ s = t := by
  constructor
  · intro h
    simpa using congrArg readUtf8 h
  · rintro rfl
    rfl

theorem utf8_of_readUtf8 {bytes : Bytes} {s : String} (h : readUtf8 bytes = some s) :
    utf8 s.toList = bytes := by
  unfold readUtf8 fromUtf8 at h
  rw [Option.map_map, Option.map_eq_some_iff] at h
  obtain ⟨chars, hdecode, rfl⟩ := h
  have hencode := ByteArray.utf8Encode_get_utf8Decode? (h := by rw [hdecode]; rfl)
  simp only [hdecode, Option.get_some] at hencode
  simpa [List.utf8Encode, utf8] using congrArg (fun b => b.data.toList) hencode

end SkeinDB.Copy
