import SkeinDB.Codec.LittleEndian
import Mathlib.Data.List.DropRight

/-!
# Newline-delimited records

A text of one record per line is read from any line boundary, a bounded number of records at a
time. Reading it piece by piece gives the records that were written.
-/
namespace SkeinDB.Codec

/-- A record format whose text never holds a line end. -/
structure LineCodec (α : Type*) where
  encode : α → Bytes
  decode : Bytes → Option α
  decode_encode : ∀ a, decode (encode a) = some a
  encode_ne_nil : ∀ a, encode a ≠ []
  no_line_end : ∀ a, ∀ b ∈ encode a, b ≠ 10 ∧ b ≠ 13

/-- The lines of a text, each with the newline that ends it. -/
def splitLines : Bytes → List Bytes
  | [] => []
  | b :: bytes =>
    if b = 10 then [b] :: splitLines bytes
    else match splitLines bytes with
      | [] => [[b]]
      | line :: lines => (b :: line) :: lines

/-- A line without the line ends at its right. -/
def trimLine (line : Bytes) : Bytes := line.rdropWhile fun b => b = 10 ∨ b = 13

/-- Read at most `limit` records, skipping empty lines, with the number of bytes they take. -/
def readRecords {α : Type*} (decode : Bytes → Option α) :
    List Bytes → (limit : ℕ) → Option (List α × ℕ)
  | [], _ => some ([], 0)
  | _ :: _, 0 => some ([], 0)
  | line :: lines, limit + 1 =>
    if trimLine line = [] then
      (readRecords decode lines (limit + 1)).map fun r => (r.1, line.length + r.2)
    else (decode (trimLine line)).bind fun a =>
      (readRecords decode lines limit).map fun r => (a :: r.1, line.length + r.2)

theorem splitLines_append_newline {line : Bytes} (hline : ∀ b ∈ line, b ≠ 10) (rest : Bytes) :
    splitLines (line ++ 10 :: rest) = (line ++ [10]) :: splitLines rest := by
  induction line with
  | nil => simp [splitLines]
  | cons b line ih =>
    have hb : b ≠ 10 := hline b (by simp)
    rw [List.cons_append, splitLines, if_neg hb, ih (fun c hc => hline c (by simp [hc]))]
    rfl

namespace LineCodec
variable {α : Type*} (c : LineCodec α)

def writeLine (a : α) : Bytes := c.encode a ++ [10]

def writeLines (as : List α) : Bytes := as.flatMap c.writeLine

@[simp] theorem writeLines_nil : c.writeLines [] = [] := rfl

@[simp] theorem writeLines_cons (a : α) (as : List α) :
    c.writeLines (a :: as) = c.writeLine a ++ c.writeLines as := rfl

theorem writeLines_append (as bs : List α) :
    c.writeLines (as ++ bs) = c.writeLines as ++ c.writeLines bs :=
  List.flatMap_append

theorem trimLine_writeLine (a : α) : trimLine (c.writeLine a) = c.encode a := by
  unfold trimLine writeLine
  rw [List.rdropWhile_concat_pos _ _ _ (by simp), List.rdropWhile_eq_self_iff]
  intro hne
  have hlast := c.no_line_end a _ (List.getLast_mem hne)
  simpa using hlast

theorem splitLines_writeLines (as : List α) :
    splitLines (c.writeLines as) = as.map c.writeLine := by
  induction as with
  | nil => rfl
  | cons a as ih =>
    rw [writeLines_cons, writeLine, List.append_assoc, List.singleton_append,
      splitLines_append_newline (fun b hb => (c.no_line_end a b hb).1), ih]
    rfl

theorem readRecords_writeLines (as : List α) (limit : ℕ) :
    readRecords c.decode (as.map c.writeLine) limit =
      some (as.take limit, (c.writeLines (as.take limit)).length) := by
  induction as generalizing limit with
  | nil => simp [readRecords]
  | cons a as ih =>
    cases limit with
    | zero => rfl
    | succ limit =>
      rw [List.map_cons, readRecords, trimLine_writeLine, if_neg (c.encode_ne_nil a),
        c.decode_encode, Option.bind_some, ih]
      simp

/-- From a line boundary the next records are read. -/
theorem readRecords_drop (read rest : List α) (limit : ℕ) :
    readRecords c.decode
        (splitLines ((c.writeLines (read ++ rest)).drop (c.writeLines read).length)) limit =
      some (rest.take limit, (c.writeLines (rest.take limit)).length) := by
  rw [writeLines_append, List.drop_left, splitLines_writeLines, readRecords_writeLines]

end LineCodec

end SkeinDB.Codec
