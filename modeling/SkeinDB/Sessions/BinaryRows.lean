import SkeinDB.Codec.Checked
import SkeinDB.Codec.LittleEndian
import SkeinDB.Tables.Literals
import SkeinDB.Text.Utf8
import SkeinDB.Values.ObjectsPull

/-!
# Rows of prepared statements

`skeindb/src/server.rs`: the result of a prepared statement is sent in the binary protocol. The
type of a column is guessed from the texts of its cells, and every cell is written under that
type. `readBinaryRow` is the reader on the other side.
-/
namespace SkeinDB.Sessions
open SkeinDB.Codec SkeinDB.Tables SkeinDB.Text

inductive MySqlStmtColumnType
  | bool
  | longLong
  | double
  | date
  | time
  | dateTime
  | json
  | bytes
  | uuid
  | varString
  deriving DecidableEq, Repr

section Shapes

def checkedI64 (v : ℤ) : Option ℤ := if -2 ^ 63 ≤ v ∧ v < 2 ^ 63 then some v else none

/-- `str::parse::<i64>`. -/
def parseI64 (text : String) : Option ℤ :=
  let (negative, digits) := match text.toList with
    | '-' :: digits => (true, digits)
    | '+' :: digits => (false, digits)
    | digits => (false, digits)
  if digits = [] ∨ ¬ digits.all Char.isDigit then none
  else
    let n : ℕ := digits.foldl (fun n c => n * 10 + (c.toNat - 48)) 0
    checkedI64 (if negative then -n else n)

def lowered (text : String) : String :=
  .ofList ((Values.trim text).toList.map Char.toLower)

def isBoolWord (text : String) : Bool :=
  ["t", "f", "true", "false", "1", "0"].contains (lowered text)

/-- The characters from a byte offset on; none where the offset is inside a character. -/
def dropBytes : ℕ → List Char → Option (List Char)
  | 0, chars => some chars
  | _ + 1, [] => none
  | n + 1, c :: chars => if c.utf8Size ≤ n + 1 then dropBytes (n + 1 - c.utf8Size) chars else none

def takeBytes : ℕ → List Char → Option (List Char)
  | 0, _ => some []
  | _ + 1, [] => none
  | n + 1, c :: chars =>
    if c.utf8Size ≤ n + 1 then (takeBytes (n + 1 - c.utf8Size) chars).map (c :: ·) else none

/-- `&text[lo..hi]`, which panics inside a character. -/
def strSlice (chars : List Char) (lo hi : ℕ) : Option (List Char) :=
  (dropBytes lo chars).bind (takeBytes (hi - lo))

/-- `YYYY-MM-DD`. -/
def isDateShape (text : String) : Option Bool :=
  let chars := text.toList
  if Values.byteLen text ≠ 10 ∨ chars[4]? ≠ some '-' ∨ chars[7]? ≠ some '-' then some false
  else do
    let year ← strSlice chars 0 4
    if ¬ year.all Char.isDigit then some false
    else
      let month ← strSlice chars 5 7
      if ¬ month.all Char.isDigit then some false
      else
        let day ← strSlice chars 8 10
        some (day.all Char.isDigit)

def isTimeShape (text : String) : Bool :=
  8 ≤ Values.byteLen text && text.toList[2]? == some ':' && text.toList[5]? == some ':'

def isDateTimeShape (text : String) : Bool :=
  19 ≤ Values.byteLen text &&
    ((utf8 text.toList)[10]? == some 84 || (utf8 text.toList)[10]? == some 32) &&
    text.toList[4]? == some '-'

def isHexDigit (c : Char) : Bool :=
  c.isDigit || ('a' ≤ c && c ≤ 'f') || ('A' ≤ c && c ≤ 'F')

def isUuidShape (text : String) : Bool :=
  Values.byteLen text == 36 && text.toList[8]? == some '-' && text.toList[13]? == some '-' &&
    text.toList.all fun c => isHexDigit c || c == '-'

def isJsonShape (text : String) : Bool :=
  let trimmed := (Values.trim text).toList
  (trimmed.head? == some '\x7b' && trimmed.getLast? == some '\x7d') ||
    (trimmed.head? == some '[' && trimmed.getLast? == some ']')

end Shapes

section Inference
variable (fmt : Formats)

/-- The types that are still possible for a column. -/
structure ColumnGuess where
  i64 : Bool
  f64 : Bool
  bool : Bool
  date : Bool
  time : Bool
  dateTime : Bool
  uuid : Bool
  json : Bool
  deriving DecidableEq, Repr

def ColumnGuess.all : ColumnGuess := ⟨true, true, true, true, true, true, true, true⟩

def ColumnGuess.none : ColumnGuess := ⟨false, false, false, false, false, false, false, false⟩

def ColumnGuess.and (a b : ColumnGuess) : ColumnGuess :=
  ⟨a.i64 && b.i64, a.f64 && b.f64, a.bool && b.bool, a.date && b.date, a.time && b.time,
    a.dateTime && b.dateTime, a.uuid && b.uuid, a.json && b.json⟩

/-- What a cell looks like; `none` stands for a panic. -/
def cellGuess (cell : String) : Option ColumnGuess :=
  (isDateShape cell).map fun date =>
    ⟨(parseI64 cell).isSome, (fmt.parseF64 cell).isSome, isBoolWord cell, date, isTimeShape cell,
      isDateTimeShape cell, isUuidShape cell, isJsonShape cell⟩

/-- The loop over the rows, with whether a value was seen. It ends when no type is left. -/
def guessLoop : (sawValue : Bool) → ColumnGuess → List (Option String) →
    Option (Bool × ColumnGuess)
  | sawValue, guess, [] => some (sawValue, guess)
  | sawValue, guess, none :: cells => guessLoop sawValue guess cells
  | _, guess, some cell :: cells => do
    let guess := guess.and (← cellGuess fmt cell)
    if guess = .none then some (true, guess) else guessLoop true guess cells

def columnType (sawValue : Bool) (guess : ColumnGuess) : MySqlStmtColumnType :=
  if !sawValue then .varString
  else if guess.bool && !guess.i64 then .bool
  else if guess.i64 then .longLong
  else if guess.f64 then .double
  else if guess.uuid then .uuid
  else if guess.dateTime then .dateTime
  else if guess.date then .date
  else if guess.time then .time
  else if guess.json then .json
  else .varString

/-- `row.get(idx).and_then(|v| v.as_deref())`. -/
def cellAt (row : List (Option String)) (idx : ℕ) : Option String := row[idx]?.join

def mysqlStmtInferColumnTypes (rows : List (List (Option String))) (columnCount : ℕ) :
    Option (List MySqlStmtColumnType) :=
  (List.range columnCount).mapM fun colIdx =>
    (guessLoop fmt false .all (rows.map (cellAt · colIdx))).map fun (sawValue, guess) =>
      columnType sawValue guess

end Inference

section Packets
variable (fmt : Formats)

def i64Bytes (v : ℤ) : Bytes := leBytes 8 (v % 2 ^ 64).toNat

def pushLenencInt (n : ℕ) : Bytes :=
  if n < 251 then [.ofNat n]
  else if n ≤ 0xffff then 0xfc :: leBytes 2 n
  else if n ≤ 0x00ffffff then 0xfd :: leBytes 3 n
  else 0xfe :: leBytes 8 n

def pushLenencBytes (bytes : Bytes) : Bytes := pushLenencInt bytes.length ++ bytes

def boolValue (text : String) : Option ℤ :=
  if ["1", "t", "true"].contains (lowered text) then some 1
  else if ["0", "f", "false"].contains (lowered text) then some 0
  else none

/-- What the packet holds of a value under a type. -/
def cellBytes (kind : MySqlStmtColumnType) (value : String) : Except String Bytes :=
  match kind with
  | .bool =>
    match boolValue value <|> parseI64 value with
    | some v => .ok (i64Bytes v)
    | none => .error ("invalid prepared bool result '" ++ value ++ "'")
  | .longLong =>
    match parseI64 value with
    | some v => .ok (i64Bytes v)
    | none => .error ("invalid prepared integer result '" ++ value ++ "'")
  | .double =>
    match fmt.parseF64 value with
    | some x => .ok (leBytes 8 x.toBits.toNat)
    | none => .error ("invalid prepared float result '" ++ value ++ "'")
  | .date | .time | .dateTime | .json | .bytes | .uuid | .varString =>
    .ok (pushLenencBytes (utf8 value.toList))

/-- The null bitmap and the values of the columns from `idx` on. -/
def binaryRowLoop (row : List (Option String)) : (idx : ℕ) → List MySqlStmtColumnType →
    (bitmap body : Bytes) → Except String (Bytes × Bytes)
  | _, [], bitmap, body => .ok (bitmap, body)
  | idx, kind :: kinds, bitmap, body =>
    match cellAt row idx with
    | none =>
      let bit := idx + 2
      binaryRowLoop row (idx + 1) kinds
        (bitmap.modify (bit / 8) (· ||| (1 <<< UInt8.ofNat (bit % 8)))) body
    | some value => do
      let bytes ← cellBytes fmt kind value
      binaryRowLoop row (idx + 1) kinds bitmap (body ++ bytes)

def nullBitmapLen (columns : ℕ) : ℕ := (columns + 7 + 2) / 8

def mysqlBinaryRowPacket (row : List (Option String)) (columnTypes : List MySqlStmtColumnType) :
    Except String Bytes :=
  (binaryRowLoop fmt row 0 columnTypes (List.replicate (nullBitmapLen columnTypes.length) 0)
    []).map fun (bitmap, body) => 0 :: (bitmap ++ body)

end Packets

section Reader

/-- A value as it is read. -/
inductive BinaryValue
  | int (v : ℤ)
  | double (bits : ℕ)
  | text (bytes : Bytes)
  deriving DecidableEq

def readFixed (n : ℕ) (bytes : Bytes) : Option (ℕ × Bytes) :=
  if bytes.length < n then none else some (leNat (bytes.take n), bytes.drop n)

def readLenencInt : Bytes → Option (ℕ × Bytes)
  | [] => none
  | b :: bytes =>
    if b < 251 then some (b.toNat, bytes)
    else if b = 0xfc then readFixed 2 bytes
    else if b = 0xfd then readFixed 3 bytes
    else if b = 0xfe then readFixed 8 bytes
    else none

def readLenencBytes (bytes : Bytes) : Option (Bytes × Bytes) := do
  let (n, bytes) ← readLenencInt bytes
  if bytes.length < n then none else some (bytes.take n, bytes.drop n)

def toI64 (n : ℕ) : ℤ := if n < 2 ^ 63 then n else n - 2 ^ 64

def readValue (kind : MySqlStmtColumnType) (bytes : Bytes) : Option (BinaryValue × Bytes) :=
  match kind with
  | .bool | .longLong => (readFixed 8 bytes).map fun (n, rest) => (.int (toI64 n), rest)
  | .double => (readFixed 8 bytes).map fun (n, rest) => (.double n, rest)
  | .date | .time | .dateTime | .json | .bytes | .uuid | .varString =>
    (readLenencBytes bytes).map fun (text, rest) => (.text text, rest)

def isNullBit (bitmap : Bytes) (bit : ℕ) : Bool := (bitmap.getD (bit / 8) 0).toNat.testBit (bit % 8)

def readColumns (bitmap : Bytes) : (idx : ℕ) → List MySqlStmtColumnType → Bytes →
    Option (List (Option BinaryValue))
  | _, [], [] => some []
  | _, [], _ :: _ => none
  | idx, kind :: kinds, bytes =>
    if isNullBit bitmap (idx + 2) then (readColumns bitmap (idx + 1) kinds bytes).map (none :: ·)
    else do
      let (value, rest) ← readValue kind bytes
      (readColumns bitmap (idx + 1) kinds rest).map (some value :: ·)

def readBinaryRow (columnTypes : List MySqlStmtColumnType) :
    Bytes → Option (List (Option BinaryValue))
  | [] => none
  | header :: bytes =>
    let n := nullBitmapLen columnTypes.length
    if header ≠ 0 ∨ bytes.length < n then none
    else readColumns (bytes.take n) 0 columnTypes (bytes.drop n)

end Reader

section Guesses
variable (fmt : Formats) {texts : List String}

def looks (text : String) : ColumnGuess :=
  ⟨(parseI64 text).isSome, (fmt.parseF64 text).isSome, isBoolWord text,
    (isDateShape text).getD false, isTimeShape text, isDateTimeShape text, isUuidShape text,
    isJsonShape text⟩

/-- The types that all of the texts leave. -/
def guessAll (guess : ColumnGuess) (texts : List String) : ColumnGuess :=
  texts.foldl (fun guess text => guess.and (looks fmt text)) guess

/-- The scan comes to a text whose date shape cannot be looked at. -/
def Panics (guess : ColumnGuess) : List String → Prop
  | [] => False
  | text :: texts => isDateShape text = none ∨
      (guess.and (looks fmt text) ≠ .none ∧ Panics (guess.and (looks fmt text)) texts)

theorem guessAll_none : guessAll fmt .none texts = .none := by
  induction texts with
  | nil => rfl
  | cons text texts ih => exact ih

theorem cellGuess_eq {text : String} (h : isDateShape text ≠ none) :
    cellGuess fmt text = some (looks fmt text) := by
  obtain ⟨date, hdate⟩ := Option.ne_none_iff_exists'.mp h
  rw [cellGuess, looks, hdate]
  rfl

theorem guessLoop_panics {guess : ColumnGuess} {cells : List (Option String)}
    (h : Panics fmt guess (cells.filterMap id)) (sawValue : Bool) :
    guessLoop fmt sawValue guess cells = none := by
  induction cells generalizing guess sawValue with
  | nil => exact h.elim
  | cons cell cells ih =>
    cases cell with
    | none => exact ih h sawValue
    | some text =>
      by_cases hdate : isDateShape text = none
      · rw [guessLoop, cellGuess, hdate]
        rfl
      · obtain ⟨hgo, hrest⟩ := h.resolve_left hdate
        rw [guessLoop, cellGuess_eq fmt hdate]
        exact (if_neg hgo).trans (ih hrest true)

theorem guessLoop_eq {guess : ColumnGuess} {cells : List (Option String)}
    (h : ¬ Panics fmt guess (cells.filterMap id)) (sawValue : Bool) :
    guessLoop fmt sawValue guess cells =
      some (sawValue || !(cells.filterMap id).isEmpty, guessAll fmt guess (cells.filterMap id)) := by
  induction cells generalizing guess sawValue with
  | nil => simp [guessLoop, guessAll]
  | cons cell cells ih =>
    cases cell with
    | none => exact ih h sawValue
    | some text =>
      obtain ⟨hdate, hrest⟩ := not_or.mp h
      rw [guessLoop, cellGuess_eq fmt hdate]
      by_cases hstop : guess.and (looks fmt text) = .none
      · refine (if_pos hstop).trans ?_
        have hall : guessAll fmt guess (text :: cells.filterMap id) = .none := by
          rw [guessAll, List.foldl_cons, hstop]
          exact guessAll_none fmt
        change _ = some (sawValue || true, guessAll fmt guess (text :: cells.filterMap id))
        rw [hall, Bool.or_true, hstop]
      · refine (if_neg hstop).trans ((ih (fun hp => hrest ⟨hstop, hp⟩) true).trans ?_)
        change _ = some (sawValue || true, _)
        rw [Bool.or_true, Bool.true_or]
        rfl

/-- Every type is refuted by one of the texts. -/
def RuledOut (texts : List String) : Prop := guessAll fmt .all texts = .none

theorem panics_iff {guess : ColumnGuess} (hguess : guess ≠ .none) :
    Panics fmt guess texts ↔ ∃ before text after, texts = before ++ text :: after ∧
      isDateShape text = none ∧ guessAll fmt guess before ≠ .none := by
  induction texts generalizing guess with
  | nil => exact iff_of_false id fun ⟨before, text, after, h, _⟩ => by simp at h
  | cons text texts ih =>
    constructor
    · rintro (hdate | ⟨hgo, hrest⟩)
      · exact ⟨[], text, texts, rfl, hdate, hguess⟩
      · obtain ⟨before, cell, after, rfl, hcell⟩ := (ih hgo).mp hrest
        exact ⟨text :: before, cell, after, rfl, hcell⟩
    · rintro ⟨before, cell, after, heq, hdate, hgo⟩
      rcases before with _ | ⟨first, before⟩
      · obtain ⟨rfl, -⟩ := List.cons.inj heq
        exact Or.inl hdate
      · obtain ⟨rfl, hrest⟩ := List.cons.inj heq
        have hnext : guess.and (looks fmt text) ≠ .none := by
          intro hnone
          refine hgo ?_
          rw [guessAll, List.foldl_cons, hnone]
          exact guessAll_none fmt
        exact Or.inr ⟨hnext, (ih hnext).mpr ⟨before, cell, after, hrest, hdate, hgo⟩⟩

theorem field_guessAll {p : ColumnGuess → Bool} (hp : ∀ a b, p (a.and b) = (p a && p b))
    (guess : ColumnGuess) (texts : List String) :
    p (guessAll fmt guess texts) = (p guess && texts.all fun text => p (looks fmt text)) := by
  induction texts generalizing guess with
  | nil => simp [guessAll]
  | cons text texts ih =>
    rw [guessAll, List.foldl_cons, ← guessAll, ih, hp, List.all_cons, Bool.and_assoc]

/-- The type that the texts of a column have. -/
def textsType (texts : List String) : MySqlStmtColumnType :=
  columnType (!texts.isEmpty) (guessAll fmt .all texts)

/-- Every text is a number, but some is not a 64-bit integer and some is not a boolean. -/
def FloatColumn (texts : List String) : Prop :=
  (∀ t ∈ texts, (fmt.parseF64 t).isSome) ∧ (∃ t ∈ texts, parseI64 t = none) ∧
    ∃ t ∈ texts, isBoolWord t = false

/-- Of the types with values of a fixed size, a column has the one that all its texts have. -/
theorem textsType_cases {text : String} (htext : text ∈ texts) :
    (textsType fmt texts = .bool ∧ ¬ FloatColumn fmt texts ∧ ∀ t ∈ texts, isBoolWord t = true) ∨
      (textsType fmt texts = .longLong ∧ ¬ FloatColumn fmt texts ∧
        ∀ t ∈ texts, (parseI64 t).isSome) ∨
      (textsType fmt texts = .double ∧ FloatColumn fmt texts) ∨
      textsType fmt texts ∉ [.bool, .longLong, .double] ∧ ¬ FloatColumn fmt texts := by
  have hsaw : (!texts.isEmpty) = true := by
    rw [Bool.not_eq_true', List.isEmpty_eq_false_iff]
    exact List.ne_nil_of_mem htext
  have hi64 := field_guessAll fmt (p := (·.i64)) (fun _ _ => rfl) .all texts
  have hf64 := field_guessAll fmt (p := (·.f64)) (fun _ _ => rfl) .all texts
  have hbool := field_guessAll fmt (p := (·.bool)) (fun _ _ => rfl) .all texts
  simp only [ColumnGuess.all, looks, Bool.true_and] at hi64 hf64 hbool
  rw [textsType, columnType, hsaw, ColumnGuess.all, hi64, hf64, hbool]
  by_cases hint : ∀ t ∈ texts, (parseI64 t).isSome = true
  · refine Or.inr (Or.inl ⟨?_, ?_, hint⟩)
    · rw [List.all_eq_true.mpr hint]
      simp
    · rintro ⟨-, ⟨t, ht, hnone⟩, -⟩
      have hsome := hint t ht
      rw [hnone] at hsome
      cases hsome
  · have hsome : ∃ t ∈ texts, parseI64 t = none := by simpa using hint
    rw [Bool.eq_false_iff.mpr (mt List.all_eq_true.mp hint)]
    by_cases hword : ∀ t ∈ texts, isBoolWord t = true
    · refine Or.inl ⟨?_, ?_, hword⟩
      · rw [List.all_eq_true.mpr hword]
        rfl
      · rintro ⟨-, -, t, ht, hfalse⟩
        rw [hword t ht] at hfalse
        cases hfalse
    · have hother : ∃ t ∈ texts, isBoolWord t = false := by simpa using hword
      rw [Bool.eq_false_iff.mpr (mt List.all_eq_true.mp hword)]
      by_cases hfloat : ∀ t ∈ texts, (fmt.parseF64 t).isSome = true
      · refine Or.inr (Or.inr (Or.inl ⟨?_, hfloat, hsome, hother⟩))
        rw [List.all_eq_true.mpr hfloat]
        rfl
      · refine Or.inr (Or.inr (Or.inr ⟨?_, fun h => hfloat h.1⟩))
        rw [Bool.eq_false_iff.mpr (mt List.all_eq_true.mp hfloat)]
        simp only [Bool.not_true, Bool.false_and, Bool.false_eq_true, if_false]
        split_ifs <;> decide

end Guesses

section Reading
variable (fmt : Formats) {text : String} {rest : Bytes}

theorem parseI64_bounds {v : ℤ} (h : parseI64 text = some v) : -2 ^ 63 ≤ v ∧ v < 2 ^ 63 := by
  have hchecked : ∀ w, checkedI64 w = some v → -2 ^ 63 ≤ v ∧ v < 2 ^ 63 := by
    intro w hw
    unfold checkedI64 at hw
    split_ifs at hw with hrange
    exact Option.some.inj hw ▸ hrange
  unfold parseI64 at h
  split at h
  dsimp only at h
  split at h
  · cases h
  · exact hchecked _ h

theorem boolValue_bounds {v : ℤ} (h : boolValue text = some v) : -2 ^ 63 ≤ v ∧ v < 2 ^ 63 := by
  unfold boolValue at h
  split_ifs at h <;> cases h <;> norm_num

theorem boolValue_isSome (h : isBoolWord text = true) : (boolValue text).isSome := by
  unfold isBoolWord at h
  unfold boolValue
  generalize lowered text = word at h ⊢
  rw [List.contains_iff_mem] at h
  simp only [List.mem_cons, List.not_mem_nil, or_false] at h
  rcases h with rfl | rfl | rfl | rfl | rfl | rfl <;> decide

theorem readFixed_leBytes {k n : ℕ} (h : n < 256 ^ k) :
    readFixed k (leBytes k n ++ rest) = some (n, rest) := by
  have hlen : ¬ (leBytes k n ++ rest).length < k := by
    rw [List.length_append, leBytes_length]
    omega
  rw [readFixed, if_neg hlen, List.take_left' (leBytes_length k n),
    List.drop_left' (leBytes_length k n), leNat_leBytes k n h]

theorem readFixed_i64Bytes {v : ℤ} (h : -2 ^ 63 ≤ v ∧ v < 2 ^ 63) :
    (readFixed 8 (i64Bytes v ++ rest)).map (fun read => toI64 read.1) = some v := by
  rw [i64Bytes, readFixed_leBytes (by omega), Option.map_some, toI64]
  congr 1
  split_ifs <;> omega

theorem readLenencInt_pushLenencInt {n : ℕ} (h : n < 2 ^ 64) :
    readLenencInt (pushLenencInt n ++ rest) = some (n, rest) := by
  unfold pushLenencInt
  split_ifs with h1 h2 h3
  · have hlt : (UInt8.ofNat n) < 251 := by
      rw [UInt8.lt_iff_toNat_lt, UInt8.toNat_ofNat', Nat.mod_eq_of_lt (by omega)]
      exact h1
    rw [List.singleton_append, readLenencInt, if_pos hlt, UInt8.toNat_ofNat',
      Nat.mod_eq_of_lt (by omega)]
  · exact readFixed_leBytes (k := 2) (by omega)
  · exact readFixed_leBytes (k := 3) (by omega)
  · exact readFixed_leBytes (k := 8) (by omega)

theorem readLenencBytes_pushLenencBytes {bytes : Bytes} (h : bytes.length < 2 ^ 64) :
    readLenencBytes (pushLenencBytes bytes ++ rest) = some (bytes, rest) := by
  rw [readLenencBytes, pushLenencBytes, List.append_assoc, readLenencInt_pushLenencInt h]
  have hlen : ¬ (bytes ++ rest).length < bytes.length := by
    rw [List.length_append]
    omega
  change (if _ then _ else _) = _
  rw [if_neg hlen, List.take_left, List.drop_left]

/-- The value that is written for a text. -/
def writtenValue (kind : MySqlStmtColumnType) (text : String) : BinaryValue :=
  match kind with
  | .bool => .int ((boolValue text <|> parseI64 text).getD 0)
  | .longLong => .int ((parseI64 text).getD 0)
  | .double => .double (((fmt.parseF64 text).map (·.toBits.toNat)).getD 0)
  | .date | .time | .dateTime | .json | .bytes | .uuid | .varString => .text (utf8 text.toList)

/-- A text has a value under a type. -/
def Encodable (kind : MySqlStmtColumnType) (text : String) : Prop :=
  match kind with
  | .bool => (boolValue text).isSome
  | .longLong => (parseI64 text).isSome
  | .double => (fmt.parseF64 text).isSome
  | .date | .time | .dateTime | .json | .bytes | .uuid | .varString => True

theorem readValue_cellBytes {kind : MySqlStmtColumnType} (h : Encodable fmt kind text)
    (hlen : (utf8 text.toList).length < 2 ^ 64) :
    ∃ bytes, cellBytes fmt kind text = .ok bytes ∧
      ∀ rest, readValue kind (bytes ++ rest) = some (writtenValue fmt kind text, rest) := by
  have hint : ∀ v : ℤ, -2 ^ 63 ≤ v ∧ v < 2 ^ 63 → ∀ rest, (readFixed 8 (i64Bytes v ++ rest)).map
      (fun read => (BinaryValue.int (toI64 read.1), read.2)) = some (.int v, rest) := by
    intro v hv rest
    have hread : (readFixed 8 (i64Bytes v ++ rest)).map (fun read => toI64 read.1) = some v :=
      readFixed_i64Bytes hv
    rw [i64Bytes, readFixed_leBytes (by omega), Option.map_some] at hread ⊢
    rw [Option.some.inj hread]
  cases kind with
  | bool =>
    obtain ⟨v, hv⟩ := Option.isSome_iff_exists.mp h
    refine ⟨i64Bytes v, by rw [cellBytes, hv]; rfl, fun rest => ?_⟩
    rw [writtenValue, hv]
    exact hint v (boolValue_bounds hv) rest
  | longLong =>
    obtain ⟨v, hv⟩ := Option.isSome_iff_exists.mp h
    refine ⟨i64Bytes v, by rw [cellBytes, hv], fun rest => ?_⟩
    rw [writtenValue, hv]
    exact hint v (parseI64_bounds hv) rest
  | double =>
    obtain ⟨x, hx⟩ := Option.isSome_iff_exists.mp h
    refine ⟨leBytes 8 x.toBits.toNat, by rw [cellBytes, hx], fun rest => ?_⟩
    rw [writtenValue, hx, readValue, readFixed_leBytes x.toBits.toNat_lt]
    rfl
  | _ =>
    refine ⟨pushLenencBytes (utf8 text.toList), rfl, fun rest => ?_⟩
    rw [readValue, readLenencBytes_pushLenencBytes hlen]
    rfl

theorem isNullBit_modify {bitmap : Bytes} {k : ℕ} (hk : k / 8 < bitmap.length) (bit : ℕ) :
    isNullBit (bitmap.modify (k / 8) (· ||| (1 <<< UInt8.ofNat (k % 8)))) bit =
      (isNullBit bitmap bit || decide (bit = k)) := by
  have hshift : ∀ m < 8, ((1 : UInt8) <<< UInt8.ofNat m).toNat = 2 ^ m := by decide
  have hmod := hshift (k % 8) (Nat.mod_lt _ (by norm_num))
  rw [isNullBit, isNullBit, List.getD_eq_getElem?_getD, List.getD_eq_getElem?_getD,
    List.getElem?_modify, Option.map_eq_map]
  by_cases hsame : k / 8 = bit / 8
  · obtain ⟨b, hb⟩ : ∃ b, bitmap[bit / 8]? = some b :=
      ⟨_, List.getElem?_eq_getElem (hsame ▸ hk)⟩
    simp only [hb, if_pos hsame, Option.map_some, Option.getD_some]
    rw [UInt8.toNat_or, hmod, Nat.testBit_or, Nat.testBit_two_pow]
    congr 1
    rw [decide_eq_decide]
    omega
  · have hne : bit ≠ k := by
      rintro rfl
      exact hsame rfl
    simp only [if_neg hsame, Option.map_id', decide_eq_false hne, Bool.or_false]

/-- What the reader finds of a row. -/
def rowValues (row : List (Option String)) : (idx : ℕ) → List MySqlStmtColumnType →
    List (Option BinaryValue)
  | _, [] => []
  | idx, kind :: kinds =>
    (cellAt row idx).map (writtenValue fmt kind) :: rowValues row (idx + 1) kinds

theorem rowValues_getElem? (row : List (Option String)) (idx : ℕ)
    (kinds : List MySqlStmtColumnType) (j : ℕ) : (rowValues fmt row idx kinds)[j]? =
      kinds[j]?.map fun kind => (cellAt row (idx + j)).map (writtenValue fmt kind) := by
  induction kinds generalizing idx j with
  | nil => simp [rowValues]
  | cons kind kinds ih =>
    rw [rowValues]
    cases j with
    | zero => rfl
    | succ j => rw [List.getElem?_cons_succ, List.getElem?_cons_succ, ih, Nat.add_right_comm,
        Nat.add_assoc]

/-- The columns from `idx` on have values under their types. -/
def RowEncodable (row : List (Option String)) (idx : ℕ) (kinds : List MySqlStmtColumnType) : Prop :=
  ∀ j kind text, kinds[j]? = some kind → cellAt row (idx + j) = some text →
    Encodable fmt kind text ∧ (utf8 text.toList).length < 2 ^ 64

theorem RowEncodable.tail {row : List (Option String)} {idx : ℕ} {kind : MySqlStmtColumnType}
    {kinds : List MySqlStmtColumnType} (h : RowEncodable fmt row idx (kind :: kinds)) :
    RowEncodable fmt row (idx + 1) kinds := by
  intro j kind' text hkind hcell
  refine h (j + 1) kind' text hkind ?_
  rwa [← Nat.add_assoc, Nat.add_right_comm]

/-- The null bits that the loop sets are those of the cells that are NULL, and what it writes is
read back with such a bitmap. -/
theorem binaryRowLoop_reads {row : List (Option String)} {idx : ℕ}
    {kinds : List MySqlStmtColumnType} (hcells : RowEncodable fmt row idx kinds)
    {bitmap : Bytes} (hbitmap : ∀ bit < idx + kinds.length + 2, bit / 8 < bitmap.length)
    (body : Bytes) :
    ∃ bitmap' more, binaryRowLoop fmt row idx kinds bitmap body = .ok (bitmap', body ++ more) ∧
      bitmap'.length = bitmap.length ∧
      (∀ bit, isNullBit bitmap' bit = true ↔ isNullBit bitmap bit = true ∨
        ∃ j < kinds.length, bit = idx + j + 2 ∧ cellAt row (idx + j) = none) ∧
      ∀ bm, (∀ j < kinds.length, isNullBit bm (idx + j + 2) = (cellAt row (idx + j)).isNone) →
        readColumns bm idx kinds more = some (rowValues fmt row idx kinds) := by
  induction kinds generalizing idx bitmap body with
  | nil => exact ⟨bitmap, [], by rw [List.append_nil]; rfl, rfl, fun bit => by simp, fun bm _ => rfl⟩
  | cons kind kinds ih =>
    have hshift : ∀ {P : ℕ → Prop}, (∃ j < (kind :: kinds).length, P j) ↔
        P 0 ∨ ∃ j < kinds.length, P (j + 1) := by
      intro P
      rw [List.length_cons]
      exact Nat.exists_lt_succ_left
    have hbits : ∀ bit < idx + 1 + kinds.length + 2, bit / 8 < bitmap.length := fun bit hbit =>
      hbitmap bit (by rw [List.length_cons]; omega)
    have hnext : ∀ j, idx + 1 + j = idx + (j + 1) := fun j => by omega
    rw [binaryRowLoop]
    rcases hcell : cellAt row idx with _ | text
    · have hfirst := hbitmap (idx + 2) (by rw [List.length_cons]; omega)
      have hmarked : ∀ bit < idx + 1 + kinds.length + 2, bit / 8 < (bitmap.modify ((idx + 2) / 8)
          (· ||| (1 <<< UInt8.ofNat ((idx + 2) % 8)))).length := by rwa [List.length_modify]
      obtain ⟨bitmap', more, hloop, hlen, hset, hread⟩ := ih hcells.tail hmarked body
      refine ⟨bitmap', more, hloop, by rw [hlen, List.length_modify], fun bit => ?_, fun bm hbm => ?_⟩
      · rw [hset, isNullBit_modify hfirst, Bool.or_eq_true, decide_eq_true_eq, hshift, or_assoc]
        simp only [hnext, Nat.add_zero, hcell, and_true]
      · have h0 := hbm 0 (Nat.zero_lt_succ _)
        simp only [Nat.add_zero, hcell, Option.isNone_none] at h0
        rw [readColumns, h0]
        have hrest := hread bm fun j hj => by
          rw [hnext]
          exact hbm (j + 1) (Nat.succ_lt_succ hj)
        change Option.map _ (readColumns bm (idx + 1) kinds more) = _
        rw [hrest, rowValues, hcell]
        rfl
    · obtain ⟨hencode, hlong⟩ := hcells 0 kind text rfl hcell
      obtain ⟨bytes, hbytes, hvalue⟩ := readValue_cellBytes fmt hencode hlong
      obtain ⟨bitmap', more, hloop, hlen, hset, hread⟩ := ih hcells.tail hbits (body ++ bytes)
      refine ⟨bitmap', bytes ++ more, ?_, hlen, fun bit => ?_, fun bm hbm => ?_⟩
      · rw [← List.append_assoc]
        change (cellBytes fmt kind text >>= fun bytes =>
          binaryRowLoop fmt row (idx + 1) kinds bitmap (body ++ bytes)) = _
        rw [hbytes]
        exact hloop
      · rw [hset, hshift]
        simp only [hnext, Nat.add_zero, hcell, reduceCtorEq, and_false, false_or]
      · have h0 := hbm 0 (Nat.zero_lt_succ _)
        simp only [Nat.add_zero, hcell, Option.isNone_some] at h0
        rw [readColumns, h0]
        have hrest := hread bm fun j hj => by
          rw [hnext]
          exact hbm (j + 1) (Nat.succ_lt_succ hj)
        change (readValue kind (bytes ++ more) >>= fun read =>
          (readColumns bm (idx + 1) kinds read.2).map (some read.1 :: ·)) = _
        rw [hvalue, rowValues, hcell]
        change Option.map _ (readColumns bm (idx + 1) kinds more) = _
        rw [hrest]
        rfl

/-- A row whose cells have values under the types is sent, and read back as these values. -/
theorem readBinaryRow_packet {row : List (Option String)} {kinds : List MySqlStmtColumnType}
    (hcells : RowEncodable fmt row 0 kinds) : ∃ packet,
      mysqlBinaryRowPacket fmt row kinds = .ok packet ∧
        readBinaryRow kinds packet = some (rowValues fmt row 0 kinds) := by
  have hbitmap : ∀ bit < 0 + kinds.length + 2,
      bit / 8 < (List.replicate (nullBitmapLen kinds.length) (0 : UInt8)).length := by
    intro bit hbit
    rw [List.length_replicate, nullBitmapLen]
    omega
  obtain ⟨bitmap, more, hloop, hlen, hset, hread⟩ := binaryRowLoop_reads fmt hcells hbitmap []
  rw [List.length_replicate] at hlen
  refine ⟨0 :: (bitmap ++ more), ?_, ?_⟩
  · rw [mysqlBinaryRowPacket, hloop]
    rfl
  · have hempty : ∀ bit, isNullBit (List.replicate (nullBitmapLen kinds.length) 0) bit = false := by
      intro bit
      rw [isNullBit, List.getD_eq_getElem?_getD, List.getElem?_replicate]
      split_ifs <;> exact Nat.zero_testBit _
    have hlong : ¬ ((0 : UInt8) ≠ 0 ∨ (bitmap ++ more).length < nullBitmapLen kinds.length) := by
      rw [List.length_append, hlen]
      simp
    simp only [readBinaryRow, if_neg hlong, List.take_left' hlen, List.drop_left' hlen]
    refine hread bitmap fun j hj => ?_
    rw [Bool.eq_iff_iff, hset, hempty, Option.isNone_iff_eq_none]
    constructor
    · rintro (h | ⟨i, -, hbit, hnone⟩)
      · cases h
      · obtain rfl : j = i := by omega
        exact hnone
    · exact fun hnone => Or.inr ⟨j, hj, rfl, hnone⟩

end Reading

section Lossless
variable (fmt : Formats)

/-- A result set in memory. -/
structure ResultSet where
  columnCount : ℕ
  rows : List (List (Option String))
  fits : ∀ row ∈ rows, ∀ text, some text ∈ row → (utf8 text.toList).length ≤ isizeMax

/-- The values of a column. -/
def ResultSet.columnTexts (rs : ResultSet) (idx : ℕ) : List String :=
  (rs.rows.map (cellAt · idx)).filterMap id

/-- The number is written as the text, or both are the same integer. -/
def Shows (x : Float) (text : String) : Prop :=
  fmt.showF64 x = text ∨ ∃ v, parseI64 text = some v ∧ parseI64 (fmt.showF64 x) = some v

/-- The value that is read stands for the text. -/
def Recovers (text : String) : BinaryValue → Prop
  | .int v => parseI64 text = some v ∨ boolValue text = some v
  | .double bits => Shows fmt (.ofBits (.ofNat bits)) text
  | .text bytes => bytes = utf8 text.toList

/-- The types are found, and each row is sent and read back under them. -/
def Lossless (rs : ResultSet) : Prop :=
  ∃ types, mysqlStmtInferColumnTypes fmt rs.rows rs.columnCount = some types ∧
    ∀ row ∈ rs.rows, ∃ packet values, mysqlBinaryRowPacket fmt row types = .ok packet ∧
      readBinaryRow types packet = some values ∧ ∀ idx < rs.columnCount,
        match cellAt row idx with
        | none => values[idx]? = some none
        | some text => ∃ value, values[idx]? = some (some value) ∧ Recovers fmt text value

/-- No text of the column is cut inside a character, unless all types are ruled out before. -/
def ScansOver (texts : List String) : Prop :=
  ∀ before text after, texts = before ++ text :: after → isDateShape text = none →
    RuledOut fmt before

variable {fmt} {rs : ResultSet} {idx : ℕ} {text : String}

theorem mem_columnTexts : text ∈ rs.columnTexts idx ↔ ∃ row ∈ rs.rows, cellAt row idx = some text := by
  simp [ResultSet.columnTexts]

theorem scansOver_iff {texts : List String} : ScansOver fmt texts ↔ ¬ Panics fmt .all texts := by
  rw [panics_iff fmt (by decide)]
  constructor
  · rintro h ⟨before, text, after, heq, hdate, hgo⟩
    exact hgo (h before text after heq hdate)
  · intro h before text after heq hdate
    by_contra hgo
    exact h ⟨before, text, after, heq, hdate, hgo⟩

theorem infer_eq (h : ∀ idx < rs.columnCount, ScansOver fmt (rs.columnTexts idx)) :
    mysqlStmtInferColumnTypes fmt rs.rows rs.columnCount =
      some ((List.range rs.columnCount).map fun idx => textsType fmt (rs.columnTexts idx)) := by
  have heach : ∀ idx ∈ List.range rs.columnCount,
      ((guessLoop fmt false .all (rs.rows.map (cellAt · idx))).map fun read =>
        columnType read.1 read.2) = some (textsType fmt (rs.columnTexts idx)) := by
    intro idx hidx
    rw [guessLoop_eq fmt (scansOver_iff.mp (h idx (List.mem_range.mp hidx)))]
    rfl
  rw [mysqlStmtInferColumnTypes]
  generalize List.range rs.columnCount = columns at heach
  induction columns with
  | nil => rfl
  | cons idx columns ih =>
    obtain ⟨hfirst, hrest⟩ := List.forall_mem_cons.mp heach
    rw [List.mapM_cons]
    change (Option.map _ _ >>= _) = _
    rw [hfirst, ih hrest]
    rfl

theorem infer_panics (hidx : idx < rs.columnCount) (h : ¬ ScansOver fmt (rs.columnTexts idx)) :
    mysqlStmtInferColumnTypes fmt rs.rows rs.columnCount = none := by
  have hpanics := guessLoop_panics fmt (not_not.mp (mt scansOver_iff.mpr h)) false
  have hmem := List.mem_range.mpr hidx
  rw [mysqlStmtInferColumnTypes]
  generalize List.range rs.columnCount = columns at hmem
  induction columns with
  | nil => cases hmem
  | cons first columns ih =>
    rw [List.mapM_cons]
    rcases List.mem_cons.mp hmem with rfl | hmem
    · rw [hpanics]
      rfl
    · rw [ih hmem]
      rcases guessLoop fmt false .all (rs.rows.map (cellAt · first)) with _ | read <;> rfl

theorem encodable_of_mem (h : text ∈ rs.columnTexts idx) :
    Encodable fmt (textsType fmt (rs.columnTexts idx)) text := by
  rcases textsType_cases fmt h with ⟨hkind, -, hall⟩ | ⟨hkind, -, hall⟩ | ⟨hkind, hall⟩ | ⟨hkind, -⟩
  · rw [hkind]
    exact boolValue_isSome (hall text h)
  · rw [hkind]
    exact hall text h
  · rw [hkind]
    exact hall.1 text h
  · generalize textsType fmt (rs.columnTexts idx) = kind at hkind
    cases kind <;> simp at hkind <;> trivial

/-- What is written of a text stands for it, if it is not a number in a column of numbers that are
not written as they are read. -/
theorem recovers_iff (h : text ∈ rs.columnTexts idx) :
    Recovers fmt text (writtenValue fmt (textsType fmt (rs.columnTexts idx)) text) ↔
      (FloatColumn fmt (rs.columnTexts idx) →
        ∀ x, fmt.parseF64 text = some x → Shows fmt (.ofBits x.toBits) text) := by
  rcases textsType_cases fmt h with
    ⟨hkind, hfloat, hall⟩ | ⟨hkind, hfloat, hall⟩ | ⟨hkind, hfloat⟩ | ⟨hkind, hfloat⟩
  · obtain ⟨v, hv⟩ := Option.isSome_iff_exists.mp (boolValue_isSome (hall text h))
    rw [hkind, writtenValue, hv]
    exact iff_of_true (Or.inr hv) fun hcol => absurd hcol hfloat
  · obtain ⟨v, hv⟩ := Option.isSome_iff_exists.mp (hall text h)
    rw [hkind, writtenValue, hv]
    exact iff_of_true (Or.inl hv) fun hcol => absurd hcol hfloat
  · obtain ⟨x, hx⟩ := Option.isSome_iff_exists.mp (hfloat.1 text h)
    rw [hkind, writtenValue, hx]
    simp only [Recovers, Option.map_some, Option.getD_some, UInt64.ofNat_toNat, Option.some.injEq,
      forall_eq', hfloat, forall_const]
  · refine iff_of_true ?_ fun hcol => absurd hcol hfloat
    generalize textsType fmt (rs.columnTexts idx) = kind at hkind
    cases kind <;> simp at hkind <;> rfl

/-- The types that are found when no scan panics. -/
def ResultSet.types (fmt : Formats) (rs : ResultSet) : List MySqlStmtColumnType :=
  (List.range rs.columnCount).map fun idx => textsType fmt (rs.columnTexts idx)

theorem types_getElem? (hidx : idx < rs.columnCount) :
    (rs.types fmt)[idx]? = some (textsType fmt (rs.columnTexts idx)) := by
  rw [ResultSet.types, List.getElem?_map, List.getElem?_range hidx, Option.map_some]

theorem mem_of_cellAt {row : List (Option String)} (h : cellAt row idx = some text) :
    some text ∈ row :=
  List.mem_of_getElem? (Option.join_eq_some_iff.mp h)

theorem rowEncodable {row : List (Option String)} (hrow : row ∈ rs.rows) :
    RowEncodable fmt row 0 (rs.types fmt) := by
  intro j kind text hkind hcell
  rw [Nat.zero_add] at hcell
  have hj : j < rs.columnCount := by
    have hlt := (List.getElem?_eq_some_iff.mp hkind).1
    rwa [ResultSet.types, List.length_map, List.length_range] at hlt
  rw [types_getElem? hj] at hkind
  obtain rfl := Option.some.inj hkind
  refine ⟨encodable_of_mem (mem_columnTexts.mpr ⟨row, hrow, hcell⟩), ?_⟩
  exact (rs.fits row hrow text (mem_of_cellAt hcell)).trans_lt (by norm_num [isizeMax])

theorem types_rowValues {row : List (Option String)} (hidx : idx < rs.columnCount) :
    (rowValues fmt row 0 (rs.types fmt))[idx]? = some ((cellAt row idx).map
      (writtenValue fmt (textsType fmt (rs.columnTexts idx)))) := by
  rw [rowValues_getElem?, types_getElem? hidx, Option.map_some, Nat.zero_add]

/-- The result is sent without loss exactly if the scan of no column comes to a text that it cuts
inside a character, and each number of a column of numbers is written as it was read. -/
theorem prepared_rows_lossless_iff (fmt : Formats) (rs : ResultSet) :
    Lossless fmt rs ↔ ∀ idx < rs.columnCount, ScansOver fmt (rs.columnTexts idx) ∧
      (FloatColumn fmt (rs.columnTexts idx) → ∀ text ∈ rs.columnTexts idx, ∀ x,
        fmt.parseF64 text = some x → Shows fmt (.ofBits x.toBits) text) := by
  by_cases hscan : ∀ idx < rs.columnCount, ScansOver fmt (rs.columnTexts idx)
  · have htypes : mysqlStmtInferColumnTypes fmt rs.rows rs.columnCount = some (rs.types fmt) :=
      infer_eq hscan
    constructor
    · rintro ⟨types, htypes', hrows⟩ idx hidx
      rw [htypes] at htypes'
      obtain rfl := Option.some.inj htypes'
      refine ⟨hscan idx hidx, fun hfloat text htext => ?_⟩
      obtain ⟨row, hrow, hcell⟩ := mem_columnTexts.mp htext
      obtain ⟨packet, hpacket, hread⟩ := readBinaryRow_packet fmt (rowEncodable hrow)
      obtain ⟨packet', values, hpacket', hread', hvalues⟩ := hrows row hrow
      rw [hpacket] at hpacket'
      obtain rfl := Except.ok.inj hpacket'
      rw [hread] at hread'
      obtain rfl := Option.some.inj hread'
      have hvalue := hvalues idx hidx
      simp only [types_rowValues hidx, hcell, Option.map_some, Option.some.injEq] at hvalue
      obtain ⟨value, rfl, hrecovers⟩ := hvalue
      exact (recovers_iff htext).mp hrecovers hfloat
    · intro h
      refine ⟨rs.types fmt, htypes, fun row hrow => ?_⟩
      obtain ⟨packet, hpacket, hread⟩ := readBinaryRow_packet fmt (rowEncodable hrow)
      refine ⟨packet, _, hpacket, hread, fun idx hidx => ?_⟩
      simp only [types_rowValues hidx]
      rcases hcell : cellAt row idx with _ | text
      · rfl
      · have htext := mem_columnTexts.mpr ⟨row, hrow, hcell⟩
        exact ⟨_, rfl, (recovers_iff htext).mpr fun hfloat => (h idx hidx).2 hfloat text htext⟩
  · push Not at hscan
    obtain ⟨idx, hidx, hpanics⟩ := hscan
    refine iff_of_false ?_ fun h => hpanics (h idx hidx).1
    rintro ⟨types, htypes, -⟩
    rw [infer_panics hidx hpanics] at htypes
    cases htypes

theorem cutDate_fits : ∀ row ∈ [[some "abcé-fg-i"]], ∀ text, some text ∈ row →
    (utf8 text.toList).length ≤ isizeMax := by
  intro row hrow text htext
  obtain rfl := List.mem_singleton.mp hrow
  obtain rfl := Option.some.inj (List.mem_singleton.mp htext)
  decide +kernel

/-- Ten bytes with dashes where a date has them, and a character of two bytes before the first. -/
def cutDate : ResultSet := ⟨1, [[some "abcé-fg-i"]], cutDate_fits⟩

theorem cut_date_panics (fmt : Formats) :
    mysqlStmtInferColumnTypes fmt cutDate.rows cutDate.columnCount = none := by
  have hdate : isDateShape "abcé-fg-i" = none := by decide +kernel
  refine infer_panics (show 0 < cutDate.columnCount from Nat.one_pos) fun hscan => ?_
  have hruled := hscan [] "abcé-fg-i" [] rfl hdate
  cases hruled

theorem cut_date_not_lossless :
    ¬ Lossless ⟨fun _ => none, fun _ => "", fun _ => ""⟩ cutDate := by
  rintro ⟨types, htypes, -⟩
  rw [cut_date_panics] at htypes
  cases htypes

end Lossless

end SkeinDB.Sessions
