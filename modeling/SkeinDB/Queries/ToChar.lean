import SkeinDB.Queries.DateArithmetic
import SkeinDB.Text.Identifiers

/-!
# Formats of dates

`skeindb/src/engine.rs`: `pg_to_char_format` walks the bytes of a format. Words for a part of the
date or of the time are replaced, and a byte that begins no such word is copied as a character. All
words are ASCII, so a character of several bytes is never skipped, and the loop steps into it.
-/
namespace SkeinDB.Queries
open SkeinDB.Calendar SkeinDB.Codec SkeinDB.Sessions SkeinDB.Text

section Loop

/-- What the loop recognises. -/
inductive PgToken
  | yyyy
  | yy
  | month
  | mon
  | mm
  | day
  | dd
  | hh24
  | hh
  | mi
  | ss
  | am
  | pm
  | quotes
  deriving DecidableEq, Repr

/-- The order of the tests. -/
def PgToken.inOrder : List PgToken :=
  [.yyyy, .yy, .month, .mon, .mm, .day, .dd, .hh24, .hh, .mi, .ss, .am, .pm, .quotes]

def PgToken.word : PgToken → String
  | .yyyy => "YYYY"
  | .yy => "YY"
  | .month => "Month"
  | .mon => "Mon"
  | .mm => "MM"
  | .day => "Day"
  | .dd => "DD"
  | .hh24 => "HH24"
  | .hh => "HH"
  | .mi => "MI"
  | .ss => "SS"
  | .am => "AM"
  | .pm => "PM"
  | .quotes => "\"\""

theorem PgToken.word_length_pos (token : PgToken) : 0 < token.word.length := by
  cases token <;> decide

def monthNames : List String :=
  ["January", "February", "March", "April", "May", "June", "July", "August", "September",
    "October", "November", "December"]

def dayNames : List String :=
  ["Sunday", "Monday", "Tuesday", "Wednesday", "Thursday", "Friday", "Saturday"]

def mysqlWeekdayIndex (date : MySqlDateParts) : Except Fault ℕ := do
  let days ← mysqlDaysFromCivil date
  return ((← i64 (days + 4)) % 7).toNat

/-- `remaining.len() >= word.len() && remaining[..word.len()].eq_ignore_ascii_case(word)`. -/
def startsIgnoringCase (word : String) (remaining : List Char) : Except Fault Bool :=
  if (utf8 remaining).length < word.length then .ok false
  else match takeBytes word.length remaining with
    | some front => .ok (front.map Char.toLower == word.toList.map Char.toLower)
    | none => .error .outOfBounds

def firstToken (remaining : List Char) : List PgToken → Except Fault (Option PgToken)
  | [] => .ok none
  | token :: tokens => do
    if ← startsIgnoringCase token.word remaining then return some token
    else firstToken remaining tokens

/-- A name, in lowercase unless the word begins with the capital letter. -/
def nameAs (capital : Char) (remaining : List Char) (name : String) : List Char :=
  if remaining.head? = some capital then name.toList else name.toList.map Char.toLower

variable (date : MySqlDateParts) (h mi s : ℕ)

def PgToken.pushed (remaining : List Char) : PgToken → Except Fault (List Char)
  | .yyyy => .ok (showPadded 4 date.year).toList
  | .yy => .ok (showPadded 2 (date.year.tmod 100)).toList
  | .month => .ok (nameAs 'M' remaining (monthNames.getD (date.month - 1) "Unknown"))
  | .mon =>
    .ok (nameAs 'M' remaining
      (.ofList ((monthNames.getD (date.month - 1) "Unk").toList.take 3)))
  | .mm => .ok (showPadded 2 date.month).toList
  | .day => do
    let dow ← mysqlWeekdayIndex date
    return nameAs 'D' remaining (dayNames.getD dow "Unknown")
  | .dd => .ok (showPadded 2 date.day).toList
  | .hh24 => .ok (showPadded 2 h).toList
  | .hh => .ok (showPadded 2 ((if h = 0 then 12 else if h > 12 then h - 12 else h : ℕ))).toList
  | .mi => .ok (showPadded 2 mi).toList
  | .ss => .ok (showPadded 2 s).toList
  | .am | .pm => .ok (if h < 12 then "AM" else "PM").toList
  | .quotes => .ok []

/-- The text from a byte of the format on. -/
def toCharLoop (fmt : List Char) (i : ℕ) : Except Fault (List Char) :=
  if hi : i < (utf8 fmt).length then
    -- `&fmt[i..]`
    match dropBytes i fmt with
    | none => .error .outOfBounds
    | some remaining => do
      match ← firstToken remaining PgToken.inOrder with
      | some token =>
        let text ← token.pushed date h mi s remaining
        return text ++ (← toCharLoop fmt (i + token.word.length))
      | none => return byteAsChar (utf8 fmt)[i] :: (← toCharLoop fmt (i + 1))
  else .ok []
termination_by (utf8 fmt).length - i
decreasing_by
  · have := token.word_length_pos
    omega
  · omega

/-- `FM` in front of the format, in any case. -/
def stripFm (bytes : Bytes) : Bool :=
  2 ≤ bytes.length && (bytes[0]? == some 70 || bytes[0]? == some 102) &&
    (bytes[1]? == some 77 || bytes[1]? == some 109)

def pgToCharFormat (fmt : String) : Except Fault String := do
  let text ← toCharLoop date h mi s fmt.toList (if stripFm (utf8 fmt.toList) then 2 else 0)
  return .ofList text

end Loop

section Pieces

/-- The parts of a format: what fills it, what is replaced and what is copied. -/
inductive FormatPiece
  | fillMode (written : List Char)
  | token (token : PgToken) (written : List Char)
  | literal (c : Char)
  deriving DecidableEq, Repr

def FormatPiece.written : FormatPiece → List Char
  | .fillMode written => written
  | .token _ written => written
  | .literal c => [c]

/-- The text begins with a word, whatever the case of its letters. -/
def BeginsWith (word : String) (text : List Char) : Prop :=
  word.toList.map Char.toLower <+: text.map Char.toLower

instance (word : String) (text : List Char) : Decidable (BeginsWith word text) :=
  inferInstanceAs (Decidable (_ <+: _))

def tokenAt (text : List Char) : Option PgToken :=
  PgToken.inOrder.find? fun token => decide (BeginsWith token.word text)

/-- The pieces of a text behind the characters of one that is found already. -/
def scanPieces : (skip : ℕ) → List Char → List FormatPiece
  | _, [] => []
  | skip + 1, _ :: text => scanPieces skip text
  | 0, c :: text =>
    match tokenAt (c :: text) with
    | some token => .token token ((c :: text).take token.word.length) ::
        scanPieces (token.word.length - 1) text
    | none => .literal c :: scanPieces 0 text

def formatPieces (text : List Char) : List FormatPiece :=
  if BeginsWith "FM" text then .fillMode (text.take 2) :: scanPieces 0 (text.drop 2)
  else scanPieces 0 text

/-- What a token stands for: hours of half a day go from 12 to 11, and the ordinal of a Sunday is a
multiple of 7. -/
def PgToken.value (date : MySqlDateParts) (time : MySqlTimeParts) (written : List Char) :
    PgToken → List Char
  | .yyyy => (showPadded 4 date.year).toList
  | .yy => (showPadded 2 (date.year.tmod 100)).toList
  | .month => nameAs 'M' written (monthNames.getD (date.month - 1) "")
  | .mon => nameAs 'M' written (.ofList ((monthNames.getD (date.month - 1) "").toList.take 3))
  | .mm => (showPadded 2 date.month).toList
  | .day => nameAs 'D' written (dayNames.getD (date.ordinal % 7).toNat "")
  | .dd => (showPadded 2 date.day).toList
  | .hh24 => (showPadded 2 time.hour).toList
  | .hh => (showPadded 2 ((time.hour + 11) % 12 + 1 : ℕ)).toList
  | .mi => (showPadded 2 time.minute).toList
  | .ss => (showPadded 2 time.second).toList
  | .am | .pm => (if time.hour < 12 then "AM" else "PM").toList
  | .quotes => []

def FormatPiece.value (date : MySqlDateParts) (time : MySqlTimeParts) : FormatPiece → List Char
  | .fillMode _ => []
  | .token word written => word.value date time written
  | .literal c => [c]

theorem scanPieces_skip (skip : ℕ) (text : List Char) :
    scanPieces skip text = scanPieces 0 (text.drop skip) := by
  induction text generalizing skip with
  | nil => rw [List.drop_nil, scanPieces, scanPieces]
  | cons c text ih =>
    rcases skip with _ | skip
    · rfl
    · rw [scanPieces, ih, List.drop_succ_cons]

theorem scanPieces_token {text : List Char} {token : PgToken} (h : tokenAt text = some token) :
    scanPieces 0 text =
      .token token (text.take token.word.length) :: scanPieces 0 (text.drop token.word.length) := by
  rcases text with _ | ⟨c, text⟩
  · cases token <;> exact absurd h (by decide)
  · have hpos := token.word_length_pos
    rw [scanPieces, h]
    simp only
    rw [scanPieces_skip, ← List.drop_succ_cons (a := c), Nat.sub_add_cancel hpos]

theorem scanPieces_literal {c : Char} {text : List Char} (h : tokenAt (c :: text) = none) :
    scanPieces 0 (c :: text) = .literal c :: scanPieces 0 text := by
  rw [scanPieces, h]

/-- Nothing is left out of the pieces. -/
theorem scanPieces_written (skip : ℕ) (text : List Char) :
    (scanPieces skip text).flatMap FormatPiece.written = text.drop skip := by
  induction skip, text using scanPieces.induct with
  | case1 skip => rw [scanPieces, List.drop_nil, List.flatMap_nil]
  | case2 skip c text ih => rw [scanPieces, ih, List.drop_succ_cons]
  | case3 c text token h ih =>
    rw [scanPieces_token h, List.flatMap_cons]
    rw [scanPieces_skip, ← List.drop_succ_cons (a := c),
      Nat.sub_add_cancel token.word_length_pos] at ih
    rw [ih]
    exact List.take_append_drop _ _
  | case4 c text h ih =>
    rw [scanPieces_literal h, List.flatMap_cons, ih]
    rfl

theorem formatPieces_written (text : List Char) :
    (formatPieces text).flatMap FormatPiece.written = text := by
  rw [formatPieces]
  split_ifs with h
  · rw [List.flatMap_cons, scanPieces_written, List.drop_zero]
    exact List.take_append_drop 2 text
  · rw [scanPieces_written, List.drop_zero]

end Pieces

section Words
variable {word : String} {text : List Char}

theorem takeBytes_add (c : Char) (n : ℕ) :
    takeBytes (c.utf8Size + n) (c :: text) = (takeBytes n text).map (c :: ·) := by
  obtain ⟨k, hk⟩ := Nat.exists_eq_succ_of_ne_zero c.utf8Size_pos.ne'
  rw [show c.utf8Size + n = k + n + 1 by omega, takeBytes, if_pos (by omega), hk,
    show k + n + 1 - k.succ = n by omega]

theorem dropBytes_add (c : Char) (n : ℕ) :
    dropBytes (c.utf8Size + n) (c :: text) = dropBytes n text := by
  obtain ⟨k, hk⟩ := Nat.exists_eq_succ_of_ne_zero c.utf8Size_pos.ne'
  rw [show c.utf8Size + n = k + n + 1 by omega, dropBytes, if_pos (by omega), hk,
    show k + n + 1 - k.succ = n by omega]

theorem takeBytes_append (front text : List Char) :
    takeBytes (utf8 front).length (front ++ text) = some front := by
  induction front with
  | nil => rw [utf8_nil, List.length_nil, takeBytes]
  | cons c front ih =>
    rw [utf8_cons, List.length_append, String.length_utf8EncodeChar, List.cons_append,
      takeBytes_add, ih, Option.map_some]

/-- What is taken is the front of the text and has as many bytes. -/
theorem takeBytes_eq_some {n : ℕ} {front : List Char} (h : takeBytes n text = some front) :
    ∃ rest, text = front ++ rest ∧ (utf8 front).length = n := by
  induction text generalizing n front with
  | nil =>
    rcases n with _ | n
    · obtain rfl := Option.some.inj h
      exact ⟨[], rfl, rfl⟩
    · cases h
  | cons c text ih =>
    rcases n with _ | n
    · obtain rfl := Option.some.inj h
      exact ⟨c :: text, rfl, rfl⟩
    · rw [takeBytes] at h
      split_ifs at h with hsize
      obtain ⟨front', hfront, rfl⟩ := Option.map_eq_some_iff.mp h
      obtain ⟨rest, rfl, hlength⟩ := ih hfront
      refine ⟨rest, rfl, ?_⟩
      rw [utf8_cons, List.length_append, String.length_utf8EncodeChar, hlength]
      omega

theorem dropBytes_append (before : List Char) :
    dropBytes (utf8 before).length (before ++ text) = some text := by
  induction before with
  | nil => rw [utf8_nil, List.length_nil, List.nil_append, dropBytes]
  | cons c before ih =>
    rw [utf8_cons, List.length_append, String.length_utf8EncodeChar, List.cons_append,
      dropBytes_add, ih]

/-- No text begins at the second byte of a character. -/
theorem dropBytes_inside (before : List Char) {c : Char} (h : ¬ Ascii c) :
    dropBytes ((utf8 before).length + 1) (before ++ c :: text) = none := by
  induction before with
  | nil =>
    have hsize := c.utf8Size_pos
    rw [← utf8Size_eq_one] at h
    rw [utf8_nil, List.length_nil, List.nil_append, dropBytes, if_neg (by omega)]
  | cons d before ih =>
    rw [utf8_cons, List.length_append, String.length_utf8EncodeChar, List.cons_append,
      Nat.add_assoc, dropBytes_add, ih]

/-- Checked character by character, not over all characters that there are. -/
theorem ascii_of_all {chars : List Char} (h : chars.all (Ascii ·) = true) : ∀ c ∈ chars, Ascii c :=
  fun c hc => of_decide_eq_true (List.all_eq_true.mp h c hc)

theorem PgToken.word_ascii (token : PgToken) : ∀ c ∈ token.word.toList, Ascii c :=
  ascii_of_all (by cases token <;> decide)

/-- A text that begins with a word has its characters in front, which are ASCII as well. -/
theorem BeginsWith.split (hword : ∀ c ∈ word.toList, Ascii c) (h : BeginsWith word text) :
    (text.take word.length).map Char.toLower = word.toList.map Char.toLower ∧
      (utf8 (text.take word.length)).length = word.length ∧
        ∀ c ∈ text.take word.length, Ascii c := by
  obtain ⟨rest, hrest⟩ := h
  have hfront : (text.take word.length).map Char.toLower = word.toList.map Char.toLower := by
    rw [List.map_take, ← hrest, List.take_left' (by rw [List.length_map, String.length_toList])]
  have hlength : (utf8 (text.take word.length)).length = word.length := by
    rw [← length_utf8_toLower, hfront, length_utf8_toLower, utf8_length_eq_iff.mpr hword,
      String.length_toList]
  refine ⟨hfront, hlength, utf8_length_eq_iff.mp ?_⟩
  have hchars := congrArg List.length hfront
  rw [List.length_map, List.length_map, String.length_toList] at hchars
  rw [hlength, hchars]

theorem takeBytes_word (hword : ∀ c ∈ word.toList, Ascii c) {front : List Char}
    (h : takeBytes word.length text = some front) :
    front.map Char.toLower = word.toList.map Char.toLower ↔ BeginsWith word text := by
  constructor
  · intro hfront
    obtain ⟨rest, rfl, -⟩ := takeBytes_eq_some h
    exact ⟨rest.map Char.toLower, by rw [← hfront, ← List.map_append]⟩
  · intro hbegins
    obtain ⟨hlower, hlength, -⟩ := hbegins.split hword
    have htake := takeBytes_append (text.take word.length) (text.drop word.length)
    rw [hlength, List.take_append_drop, h, Option.some_inj] at htake
    rw [htake, hlower]

/-- A test that ends tells whether the word is there. -/
theorem startsIgnoringCase_eq (hword : ∀ c ∈ word.toList, Ascii c) {found : Bool}
    (h : startsIgnoringCase word text = .ok found) : found = decide (BeginsWith word text) := by
  rw [startsIgnoringCase] at h
  split_ifs at h with hshort
  · obtain rfl := Except.ok.inj h
    refine (decide_eq_false fun hbegins => ?_).symm
    obtain ⟨-, hlength, -⟩ := hbegins.split hword
    have hbytes := congrArg (fun chars => (utf8 chars).length)
      (List.take_append_drop word.length text)
    simp only [utf8_append, List.length_append, hlength] at hbytes
    omega
  · rcases htake : takeBytes word.length text with _ | front
    · rw [htake] at h
      cases h
    · rw [htake] at h
      rw [← Except.ok.inj h, beq_eq_decide]
      exact decide_eq_decide.mpr (takeBytes_word hword htake)

/-- No test fails in a text of ASCII characters. -/
theorem startsIgnoringCase_ascii (hword : ∀ c ∈ word.toList, Ascii c)
    (htext : ∀ c ∈ text, Ascii c) :
    startsIgnoringCase word text = .ok (decide (BeginsWith word text)) := by
  have hend : ∃ found, startsIgnoringCase word text = .ok found := by
    rw [startsIgnoringCase, utf8_length_eq_iff.mpr htext]
    split_ifs with hshort
    · exact ⟨false, rfl⟩
    · have htake := takeBytes_append (text.take word.length) (text.drop word.length)
      rw [utf8_length_eq_iff.mpr fun c hc => htext c (List.mem_of_mem_take hc),
        List.length_take_of_le (not_lt.mp hshort), List.take_append_drop] at htake
      rw [htake]
      exact ⟨_, rfl⟩
  obtain ⟨found, hfound⟩ := hend
  rw [hfound, startsIgnoringCase_eq hword hfound]

theorem firstToken_eq {tokens : List PgToken} {found : Option PgToken}
    (h : firstToken text tokens = .ok found) :
    found = tokens.find? fun token => decide (BeginsWith token.word text) := by
  induction tokens with
  | nil => exact (Except.ok.inj h).symm
  | cons token tokens ih =>
    rcases htest : startsIgnoringCase token.word text with e | hit
    · rw [firstToken, htest] at h
      cases h
    · rw [firstToken, htest] at h
      have hhit := startsIgnoringCase_eq token.word_ascii htest
      rw [List.find?_cons, ← hhit]
      cases hit with
      | true => exact (Except.ok.inj h).symm
      | false => exact ih h

theorem firstToken_ascii (htext : ∀ c ∈ text, Ascii c) (tokens : List PgToken) :
    firstToken text tokens =
      .ok (tokens.find? fun token => decide (BeginsWith token.word text)) := by
  induction tokens with
  | nil => rfl
  | cons token tokens ih =>
    rw [firstToken, startsIgnoringCase_ascii token.word_ascii htext, List.find?_cons]
    cases decide (BeginsWith token.word text) with
    | true => rfl
    | false => exact ih

theorem tokenAt_beginsWith {token : PgToken} (h : tokenAt text = some token) :
    BeginsWith token.word text := by
  have hfound := List.find?_some (p := fun token : PgToken => decide (BeginsWith token.word text)) h
  exact of_decide_eq_true hfound

end Words

section Values
variable {date : MySqlDateParts} {time : MySqlTimeParts}

theorem mysqlWeekdayIndex_eq (hvalid : date.Valid) (hfits : FitsI32 date.year) :
    mysqlWeekdayIndex date = if firstMarchYear ≤ date.marchYear then .ok (date.ordinal % 7).toNat
      else .error .arithmeticOverflow := by
  rw [mysqlWeekdayIndex, mysqlDaysFromCivil_eq hvalid hfits]
  split_ifs with hroom
  · have hbounds := ordinal_bounds hvalid hfits
    simp only [bind, Except.bind]
    rw [i64_ok ⟨by omega, by omega⟩]
    refine congrArg (Except.ok ∘ Int.toNat) ?_
    omega
  · rfl

/-- What a token leaves in the text is its value, unless the days of the date have no room. -/
theorem PgToken.pushed_eq (hvalid : date.Valid) (hfits : FitsI32 date.year) (htime : time.Valid)
    (token : PgToken) (text : List Char) :
    token.pushed date time.hour time.minute time.second text =
      if token = .day ∧ date.marchYear < firstMarchYear then .error .arithmeticOverflow
      else .ok (token.value date time (text.take token.word.length)) := by
  have hname (capital : Char) (name : String) :
      nameAs capital (text.take token.word.length) name = nameAs capital text name := by
    rw [nameAs, nameAs, List.head?_take, if_neg token.word_length_pos.ne']
  have hmonth (default : String) :
      monthNames.getD (date.month - 1) default = monthNames.getD (date.month - 1) "" := by
    have hlt : date.month - 1 < monthNames.length := by
      have := hvalid.month_pos
      have := hvalid.month_le
      rw [show monthNames.length = 12 from rfl]
      omega
    rw [List.getD_eq_getElem?_getD, List.getD_eq_getElem?_getD, List.getElem?_eq_getElem hlt]
    rfl
  cases token with
  | month => rw [pushed, value, hname, hmonth, if_neg (by simp)]
  | mon => rw [pushed, value, hname, hmonth, if_neg (by simp)]
  | day =>
    rw [pushed, mysqlWeekdayIndex_eq hvalid hfits, value, hname]
    by_cases hroom : firstMarchYear ≤ date.marchYear
    · have hday : (date.ordinal % 7).toNat < dayNames.length := by
        rw [show dayNames.length = 7 from rfl]
        omega
      rw [if_pos hroom, if_neg fun h => absurd h.2 (not_lt.mpr hroom)]
      refine congrArg (fun name => Except.ok (nameAs 'D' text name)) ?_
      rw [List.getD_eq_getElem?_getD, List.getD_eq_getElem?_getD, List.getElem?_eq_getElem hday]
      rfl
    · rw [if_neg hroom, if_pos ⟨rfl, not_le.mp hroom⟩]
      rfl
  | hh =>
    have hhalf : (if time.hour = 0 then 12
        else if time.hour > 12 then time.hour - 12 else time.hour) =
          (time.hour + 11) % 12 + 1 := by
      have := htime.hour_le
      split_ifs <;> omega
    rw [pushed, value, hhalf, if_neg (by simp)]
  | _ => rfl

/-- A name of a day is asked for. -/
def UsesDay (pieces : List FormatPiece) : Prop := ∃ written, .token .day written ∈ pieces

theorem usesDay_cons {piece : FormatPiece} {pieces : List FormatPiece} :
    UsesDay (piece :: pieces) ↔ (∃ written, piece = .token .day written) ∨ UsesDay pieces := by
  simp [UsesDay, eq_comm, exists_or]

theorem toCharLoop_end (fmt : List Char) (h mi s : ℕ) :
    toCharLoop date h mi s fmt (utf8 fmt).length = .ok [] := by
  rw [toCharLoop, dif_neg (lt_irrefl _)]

/-- A step of the loop at the first byte of a character. -/
theorem toCharLoop_step (before : List Char) (c : Char) (text : List Char) (h mi s : ℕ) :
    toCharLoop date h mi s (before ++ c :: text) (utf8 before).length =
      (firstToken (c :: text) PgToken.inOrder).bind fun found =>
        match found with
        | some token => (token.pushed date h mi s (c :: text)).bind fun out =>
            (toCharLoop date h mi s (before ++ c :: text)
              ((utf8 before).length + token.word.length)).map (out ++ ·)
        | none => (toCharLoop date h mi s (before ++ c :: text) ((utf8 before).length + 1)).map
            (byteAsChar ((utf8 (c :: text)).headD 0) :: ·) := by
  obtain ⟨b, bytes, hencode, -⟩ := utf8EncodeChar_cons c
  have hlt : (utf8 before).length < (utf8 (before ++ c :: text)).length := by
    rw [utf8_append, utf8_cons, hencode]
    simp
  have hbyte : (utf8 (before ++ c :: text))[(utf8 before).length] =
      (utf8 (c :: text)).headD 0 := by
    simp only [utf8_append, utf8_cons, hencode]
    rw [List.getElem_append_right le_rfl]
    simp
  rw [toCharLoop, dif_pos hlt, dropBytes_append, ← hbyte]
  simp only [bind, Except.bind]
  rcases firstToken (c :: text) PgToken.inOrder with e | _ | token
  · rfl
  · simp only
    cases toCharLoop date h mi s (before ++ c :: text) ((utf8 before).length + 1) <;> rfl
  · simp only
    cases token.pushed date h mi s (c :: text) with
    | error e => rfl
    | ok out =>
      simp only
      cases toCharLoop date h mi s (before ++ c :: text)
        ((utf8 before).length + token.word.length) <;> rfl

theorem byteAsChar_ascii {c : Char} (h : Ascii c) : byteAsChar (.ofNat c.toNat) = c := by
  have hall : ∀ n < 128, byteAsChar (.ofNat n) = Char.ofNat n := by decide +kernel
  rw [hall c.toNat h, Char.ofNat_toNat]

/-- The loop ends in ASCII formats only, and there it replaces and copies as it should. -/
theorem toCharLoop_eq_ok_iff (hvalid : date.Valid) (hfits : FitsI32 date.year)
    (htime : time.Valid) (before text out : List Char) :
    toCharLoop date time.hour time.minute time.second (before ++ text) (utf8 before).length =
        .ok out ↔
      (∀ c ∈ text, Ascii c) ∧ (UsesDay (scanPieces 0 text) → firstMarchYear ≤ date.marchYear) ∧
        out = (scanPieces 0 text).flatMap (FormatPiece.value date time) := by
  induction hlength : text.length using Nat.strong_induction_on generalizing before text out with
  | _ n ih =>
  rcases text with _ | ⟨c, text⟩
  · rw [List.append_nil, toCharLoop_end, scanPieces, List.flatMap_nil, Except.ok.injEq]
    exact ⟨fun h => ⟨by simp, fun ⟨_, hday⟩ => (by cases hday), h.symm⟩, fun h => h.2.2.symm⟩
  rw [toCharLoop_step]
  rcases htest : firstToken (c :: text) PgToken.inOrder with e | found
  · -- some test cuts a character
    refine iff_of_false (fun h => by cases h) fun h => ?_
    rw [firstToken_ascii h.1] at htest
    cases htest
  have hfound : found = tokenAt (c :: text) := firstToken_eq htest
  rcases found with _ | token
  · change (toCharLoop _ _ _ _ _ _).map _ = _ ↔ _
    rw [scanPieces_literal hfound.symm, map_eq_ok_iff, usesDay_cons, List.flatMap_cons,
      List.forall_mem_cons]
    by_cases hc : Ascii c
    · have hbytes : utf8 (before ++ [c]) = utf8 before ++ [.ofNat c.toNat] := by
        rw [utf8_append, utf8_cons, utf8EncodeChar_ascii hc, utf8_nil, List.append_nil]
      have hnext := fun out => ih text.length (by rw [← hlength]; exact Nat.lt_succ_self _)
        (before ++ [c]) text out rfl
      rw [hbytes, List.length_append, List.append_assoc] at hnext
      have hcopy : byteAsChar ((utf8 (c :: text)).headD 0) = c := by
        rw [utf8_cons, utf8EncodeChar_ascii hc]
        exact byteAsChar_ascii hc
      have hliteral : ¬ ∃ written, FormatPiece.literal c = .token .day written := by simp
      rw [hcopy]
      constructor
      · rintro ⟨out', hloop, rfl⟩
        obtain ⟨hascii, hday, rfl⟩ := (hnext out').mp hloop
        exact ⟨⟨hc, hascii⟩, fun h => hday (h.resolve_left hliteral), rfl⟩
      · rintro ⟨⟨-, hascii⟩, hday, rfl⟩
        exact ⟨_, (hnext _).mpr ⟨hascii, fun h => hday (.inr h), rfl⟩, rfl⟩
    · -- the next byte is in the middle of the character
      refine iff_of_false (fun ⟨out, hnext, _⟩ => ?_) fun h => hc h.1.1
      have hsize : 1 < c.utf8Size := by
        have := c.utf8Size_pos
        rw [← utf8Size_eq_one] at hc
        omega
      rw [toCharLoop, dif_pos (by
        rw [utf8_append, utf8_cons, List.length_append, List.length_append,
          String.length_utf8EncodeChar]
        omega), dropBytes_inside before hc] at hnext
      cases hnext
  · obtain ⟨-, hbytes, hfront⟩ := (tokenAt_beginsWith hfound.symm).split token.word_ascii
    have hpos := token.word_length_pos
    have htext := List.take_append_drop token.word.length (c :: text)
    have hshort : ((c :: text).drop token.word.length).length < n := by
      rw [← hlength, List.length_drop, List.length_cons]
      omega
    change (token.pushed _ _ _ _ _).bind _ = _ ↔ _
    rw [token.pushed_eq hvalid hfits htime, scanPieces_token hfound.symm, usesDay_cons,
      List.flatMap_cons]
    generalize (c :: text).drop token.word.length = rest at *
    generalize (c :: text).take token.word.length = front at *
    have hnext := fun out => ih rest.length hshort (before ++ front) rest out rfl
    rw [utf8_append, List.length_append, hbytes, List.append_assoc, htext] at hnext
    have hall : (∀ c' ∈ c :: text, Ascii c') ↔ ∀ c' ∈ rest, Ascii c' := by
      rw [← htext, List.forall_mem_append]
      exact and_iff_right hfront
    have hday : (∃ written, FormatPiece.token token front = .token .day written) ↔
        token = .day := by simp
    rw [hall, hday]
    split_ifs with hroom
    · exact iff_of_false (fun h => by cases h) fun h =>
        absurd (h.2.1 (.inl hroom.1)) (not_le.mpr hroom.2)
    · change (toCharLoop _ _ _ _ _ _).map _ = _ ↔ _
      rw [map_eq_ok_iff]
      constructor
      · rintro ⟨out', hloop, rfl⟩
        obtain ⟨hascii, hday', rfl⟩ := (hnext out').mp hloop
        refine ⟨hascii, fun h => ?_, rfl⟩
        rcases h with htoken | h
        · exact not_lt.mp fun hlt => hroom ⟨htoken, hlt⟩
        · exact hday' h
      · rintro ⟨hascii, hday', rfl⟩
        exact ⟨_, (hnext _).mpr ⟨hascii, fun h => hday' (.inr h), rfl⟩, rfl⟩

end Values

section Format
variable {date : MySqlDateParts} {time : MySqlTimeParts}

/-- The first byte of a text is below 128 if its first character is. -/
theorem utf8_first_iff {d : Char} (hd : Ascii d) (text : List Char) :
    (utf8 text)[0]? = some (.ofNat d.toNat) ↔ text.head? = some d := by
  rcases text with _ | ⟨c, text⟩
  · simp
  · obtain ⟨b, bytes, hencode, -⟩ := utf8EncodeChar_cons c
    rw [utf8_cons, hencode, List.cons_append, List.getElem?_cons_zero, Option.some_inj,
      List.head?_cons, Option.some_inj]
    constructor
    · intro hb
      exact eq_of_mem_utf8EncodeChar hd (by rw [hencode, hb]; exact List.mem_cons_self)
    · rintro rfl
      rw [utf8EncodeChar_ascii hd] at hencode
      exact (List.cons.inj hencode).1.symm

theorem toLower_fm (c : Char) :
    (c.toLower = 'f' ↔ c = 'F' ∨ c = 'f') ∧ (c.toLower = 'm' ↔ c = 'M' ∨ c = 'm') := by
  by_cases hc : Ascii c
  · have hall : ∀ n < 128,
        ((Char.ofNat n).toLower = 'f' ↔ Char.ofNat n = 'F' ∨ Char.ofNat n = 'f') ∧
        ((Char.ofNat n).toLower = 'm' ↔ Char.ofNat n = 'M' ∨ Char.ofNat n = 'm') := by
      decide +kernel
    have hchar := hall c.toNat hc
    rwa [Char.ofNat_toNat] at hchar
  · have hne {d : Char} (hd : Ascii d) : c ≠ d := fun h => hc (h ▸ hd)
    rw [toLower_of_not_ascii hc]
    exact ⟨(or_iff_right (hne (by decide))).symm, (or_iff_right (hne (by decide))).symm⟩

theorem stripFm_eq (text : List Char) :
    stripFm (utf8 text) = decide (BeginsWith "FM" text) := by
  have hfirst (text : List Char) (upper lower : Char) (hu : Ascii upper) (hl : Ascii lower) :
      (utf8 text)[0]? = some (.ofNat upper.toNat) ∨ (utf8 text)[0]? = some (.ofNat lower.toNat) ↔
        text.head? = some upper ∨ text.head? = some lower :=
    or_congr (utf8_first_iff hu text) (utf8_first_iff hl text)
  rw [Bool.eq_iff_iff, decide_eq_true_iff]
  simp only [stripFm, Bool.and_eq_true, Bool.or_eq_true, decide_eq_true_iff, beq_iff_eq]
  rcases text with _ | ⟨c, rest⟩
  · exact iff_of_false (by simp) (by decide)
  have hbegins : BeginsWith "FM" (c :: rest) ↔
      c.toLower = 'f' ∧ (rest.head? = some 'M' ∨ rest.head? = some 'm') := by
    change ['f', 'm'] <+: c.toLower :: rest.map Char.toLower ↔ _
    rw [List.cons_prefix_cons, eq_comm]
    refine and_congr_right fun _ => ?_
    rcases rest with _ | ⟨d, rest⟩
    · simp
    · rw [List.map_cons, List.cons_prefix_cons, and_iff_left List.nil_prefix, eq_comm,
        (toLower_fm d).2, List.head?_cons, Option.some_inj, Option.some_inj]
  rw [hbegins, (toLower_fm c).1]
  have hbyte := hfirst (c :: rest) 'F' 'f' (by decide) (by decide)
  rw [List.head?_cons, Option.some_inj, Option.some_inj] at hbyte
  change (_ ∧ (_ = some (UInt8.ofNat 'F'.toNat) ∨ _ = some (UInt8.ofNat 'f'.toNat))) ∧ _ ↔ _
  rw [hbyte]
  by_cases hc : c = 'F' ∨ c = 'f'
  · have hascii : Ascii c := by
      rcases hc with rfl | rfl <;> decide
    have hnext := hfirst rest 'M' 'm' (by decide) (by decide)
    rw [utf8_cons, utf8EncodeChar_ascii hascii, List.singleton_append, List.length_cons,
      List.getElem?_cons_succ, ← hnext]
    refine ⟨fun h => ⟨hc, h.2⟩, fun h => ⟨⟨?_, hc⟩, h.2⟩⟩
    rcases hrest : utf8 rest with _ | ⟨b, bytes⟩
    · simp [hrest] at h
    · simp
  · exact iff_of_false (fun h => hc h.1.2) fun h => hc h.1

theorem pgToCharFormat_eq_ok_iff {h mi s : ℕ} {fmt text : String} :
    pgToCharFormat date h mi s fmt = .ok text ↔
      toCharLoop date h mi s fmt.toList (if BeginsWith "FM" fmt.toList then 2 else 0) =
        .ok text.toList := by
  rw [pgToCharFormat, stripFm_eq]
  simp only [decide_eq_true_iff, bind, Except.bind]
  cases toCharLoop date h mi s fmt.toList (if BeginsWith "FM" fmt.toList then 2 else 0) with
  | error e => exact iff_of_false (fun h => by cases h) fun h => by cases h
  | ok out =>
    change Except.ok _ = _ ↔ _
    rw [Except.ok.injEq, Except.ok.injEq]
    exact ⟨fun h => by rw [← h, String.toList_ofList], fun h => by rw [h, String.ofList_toList]⟩

/-- The format is used as it is meant: what it fills, replaces and copies is in its place. -/
def FormatsFaithfully (date : MySqlDateParts) (time : MySqlTimeParts) (fmt : String) : Prop :=
  pgToCharFormat date time.hour time.minute time.second fmt =
    .ok (.ofList ((formatPieces fmt.toList).flatMap (FormatPiece.value date time)))

theorem loop_formatPieces_iff (hvalid : date.Valid) (hfits : FitsI32 date.year)
    (htime : time.Valid) (text out : List Char) :
    toCharLoop date time.hour time.minute time.second text
        (if BeginsWith "FM" text then 2 else 0) = .ok out ↔
      (∀ c ∈ text, Ascii c) ∧ (UsesDay (formatPieces text) → firstMarchYear ≤ date.marchYear) ∧
        out = (formatPieces text).flatMap (FormatPiece.value date time) := by
  rw [formatPieces]
  split_ifs with hfill
  · obtain ⟨-, hbytes, hfront⟩ := hfill.split (ascii_of_all (by decide))
    have hloop := toCharLoop_eq_ok_iff hvalid hfits htime (text.take 2) (text.drop 2) out
    have hall : (∀ c ∈ text, Ascii c) ↔ ∀ c ∈ text.drop 2, Ascii c := by
      conv_lhs => rw [← List.take_append_drop 2 text]
      rw [List.forall_mem_append]
      exact and_iff_right hfront
    rw [List.take_append_drop, show (utf8 (text.take 2)).length = 2 from hbytes] at hloop
    rw [hloop, hall, usesDay_cons, List.flatMap_cons, or_iff_right (by simp)]
    rfl
  · exact toCharLoop_eq_ok_iff hvalid hfits htime [] text out

/-- A format is used as it is meant exactly if it has ASCII characters only and asks for the name
of a day only where the formulas of the days have room for the date. -/
theorem pgToCharFormat_faithful_iff (hvalid : date.Valid) (hfits : FitsI32 date.year)
    (htime : time.Valid) (fmt : String) :
    FormatsFaithfully date time fmt ↔ (∀ c ∈ fmt.toList, Ascii c) ∧
      (UsesDay (formatPieces fmt.toList) → firstMarchYear ≤ date.marchYear) := by
  rw [FormatsFaithfully, pgToCharFormat_eq_ok_iff, loop_formatPieces_iff hvalid hfits htime,
    String.toList_ofList, and_iff_left rfl]

theorem pgToCharFormat_faithful_sample :
    FormatsFaithfully ⟨2024, 1, 15⟩ ⟨14, 30, 45⟩ "FMDay, YYYY-MM-DD HH:MI" :=
  have hvalid : (⟨2024, 1, 15⟩ : Date).Valid := ⟨by decide, by decide, by decide, by decide⟩
  (pgToCharFormat_faithful_iff hvalid (by decide) ⟨by decide, by decide, by decide⟩ _).mpr
    ⟨ascii_of_all (by decide), fun _ => by decide⟩

/-- Two bytes are compared where three are one character. -/
theorem year_sign_cut : ¬ FormatsFaithfully ⟨2024, 1, 15⟩ ⟨14, 30, 45⟩ "YYYY年" := by
  intro h
  have hvalid : (⟨2024, 1, 15⟩ : Date).Valid := ⟨by decide, by decide, by decide, by decide⟩
  rw [FormatsFaithfully, pgToCharFormat_eq_ok_iff, loop_formatPieces_iff hvalid (by decide)
    ⟨by decide, by decide, by decide⟩] at h
  exact absurd (h.1 '年' (by decide)) (by decide)

end Format

end SkeinDB.Queries
