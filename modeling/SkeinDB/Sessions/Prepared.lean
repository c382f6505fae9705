import SkeinDB.Sessions.Rollback
import SkeinDB.Text.Identifiers

/-!
# Prepared statements

`skeindb/src/server.rs`: `COM_STMT_EXECUTE` puts the text of its parameters in the place of the
question marks of a statement and has the result read as any other statement. The values stay
values as long as none of them has a backslash.
-/
namespace SkeinDB.Sessions
open SkeinDB.Codec SkeinDB.Tables SkeinDB.Text

section Definitions
variable (render : Lit → String)

/-- A byte that opens a quoted region. -/
def opensQuote (b : UInt8) : Bool := b == 39 || b == 34 || b == 96

def countLoop : (quote : UInt8) → (count : ℕ) → Bytes → ℕ
  | _, count, [] => count
  | quote, count, b :: rest =>
    if quote ≠ 0 then
      if b = quote then
        match rest with
        | c :: rest' => if quote = 39 ∧ c = 39 then countLoop quote count rest'
          else countLoop 0 count (c :: rest')
        | [] => count
      else countLoop quote count rest
    else if opensQuote b then countLoop b count rest
    else if b = 63 then countLoop 0 (min (count + 1) 65535) rest
    else countLoop 0 count rest

def mysqlCountPlaceholders (sql : Bytes) : ℕ := countLoop 0 0 sql

/-- `out.push(b as char)`. -/
def pushByte (b : UInt8) : Bytes := utf8 [byteAsChar b]

/-- The rest of the statement, and the parameters that are left. -/
def substituteLoop : (quote : UInt8) → Bytes → List Lit → Except String Bytes
  | _, [], [] => .ok []
  | _, [], _ :: _ => .error "too many prepared parameters"
  | quote, b :: rest, params =>
    if quote ≠ 0 then
      if b = quote then
        match rest with
        | c :: rest' =>
          if quote = 39 ∧ c = 39 then
            (substituteLoop quote rest' params).map (pushByte b ++ pushByte 39 ++ ·)
          else (substituteLoop 0 (c :: rest') params).map (pushByte b ++ ·)
        | [] => (substituteLoop 0 [] params).map (pushByte b ++ ·)
      else (substituteLoop quote rest params).map (pushByte b ++ ·)
    else if opensQuote b then (substituteLoop b rest params).map (pushByte b ++ ·)
    else if b = 63 then
      match params with
      | [] => .error "not enough prepared parameters"
      | lit :: params => (substituteLoop 0 rest params).map (utf8 (render lit).toList ++ ·)
    else (substituteLoop 0 rest params).map (pushByte b ++ ·)

def mysqlSubstituteStmtSql (sql : Bytes) (params : List Lit) : Except String Bytes :=
  substituteLoop render 0 sql params

/-- There is an odd number of backslashes right before a position. The bytes before it come last
first. -/
def mysqlIsBackslashEscaped (before : Bytes) : Bool :=
  (before.takeWhile (· == 92)).length % 2 == 1

def mysqlIsDoubledSingleQuote (before bytes : Bytes) (quote : UInt8) : Bool :=
  quote == 39 && bytes.head? == some quote && bytes.tail.head? == some quote &&
    !mysqlIsBackslashEscaped before

def lowerByte (b : UInt8) : UInt8 := if 65 ≤ b && b ≤ 90 then b + 32 else b

/-- The position of the keyword, counted from the bytes that are left. -/
def findLoop (needle : Bytes) : (quote : UInt8) → (depth : ℕ) → (before bytes : Bytes) → Option ℕ
  | _, _, _, [] => none
  | quote, depth, before, b :: rest =>
    if quote ≠ 0 then
      if b = quote then
        match rest with
        | c :: rest' =>
          if mysqlIsDoubledSingleQuote before (b :: c :: rest') quote then
            (findLoop needle quote depth (c :: b :: before) rest').map (· + 2)
          else if quote ≠ 96 && mysqlIsBackslashEscaped before then
            (findLoop needle quote depth (b :: before) (c :: rest')).map (· + 1)
          else (findLoop needle 0 depth (b :: before) (c :: rest')).map (· + 1)
        | [] => none
      else (findLoop needle quote depth (b :: before) rest).map (· + 1)
    else if opensQuote b then (findLoop needle b depth (b :: before) rest).map (· + 1)
    else if b = 40 then (findLoop needle 0 (depth + 1) (b :: before) rest).map (· + 1)
    else if b = 41 then (findLoop needle 0 (depth - 1) (b :: before) rest).map (· + 1)
    else if depth = 0 ∧ StandsAt needle (before.head?.map lowerByte) ((b :: rest).map lowerByte) then
      some 0
    else (findLoop needle 0 depth (b :: before) rest).map (· + 1)

def findKeywordTopLevel (haystack keyword : Bytes) : Option ℕ :=
  if keyword = [] then none else findLoop keyword 0 0 [] haystack

def unescapeChar : Char → Char
  | '0' => '\x00'
  | 'b' => '\x08'
  | 'n' => '\n'
  | 'r' => '\r'
  | 't' => '\t'
  | 'Z' => '\x1a'
  | c => c

def mysqlUnescapeStringBody (quote : Char) : List Char → List Char
  | [] => []
  | [c] => [c]
  | c :: d :: rest =>
    if quote = '\'' ∧ c = '\'' ∧ d = '\'' then '\'' :: mysqlUnescapeStringBody quote rest
    else if quote ≠ '\x60' ∧ c = '\\' then unescapeChar d :: mysqlUnescapeStringBody quote rest
    else c :: mysqlUnescapeStringBody quote (d :: rest)

def parseSqlStringLiteral (input : List Char) : Option (List Char) :=
  match input with
  | '\'' :: body =>
    if body.getLast? = some '\'' then some (mysqlUnescapeStringBody '\'' body.dropLast) else none
  | _ => none

-- The equations are made here, once for all lemmas below.
attribute [local grind =] countLoop.eq_def substituteLoop.eq_def findLoop.eq_def
  mysqlUnescapeStringBody.eq_def

end Definitions

section Pieces
variable (render : Lit → String)

/-- What the scanner makes of a byte of a statement. -/
inductive Piece
  | byte (b : UInt8)
  | mark
  deriving DecidableEq

/-- The pieces of a statement, one for each byte. -/
def lex : (quote : UInt8) → Bytes → List Piece
  | _, [] => []
  | quote, b :: rest =>
    if quote ≠ 0 then
      if b = quote then
        match rest with
        | c :: rest' =>
          if quote = 39 ∧ c = 39 then .byte b :: .byte c :: lex quote rest'
          else .byte b :: lex 0 (c :: rest')
        | [] => [.byte b]
      else .byte b :: lex quote rest
    else if opensQuote b then .byte b :: lex b rest
    else if b = 63 then .mark :: lex 0 rest
    else .byte b :: lex 0 rest

attribute [local grind =] lex.eq_def

def fill : List Piece → List Lit → Bytes
  | [], _ => []
  | .byte b :: pieces, params => pushByte b ++ fill pieces params
  | .mark :: pieces, [] => fill pieces []
  | .mark :: pieces, lit :: params => utf8 (render lit).toList ++ fill pieces params

/-- The number of placeholders. -/
def marks (pieces : List Piece) : ℕ := pieces.count .mark

/-- Bytes with the same head, to a loop that is not in a quoted region. -/
theorem lex_induction {P : UInt8 → Bytes → Prop} (nil : ∀ quote, P quote [])
    (doubled : ∀ rest, P 39 rest → P 39 (39 :: 39 :: rest))
    (closed : ∀ quote rest, quote ≠ 0 → (quote = 39 → rest.head? ≠ some 39) → P 0 rest →
      P quote (quote :: rest))
    (quoted : ∀ quote b rest, quote ≠ 0 → b ≠ quote → P quote rest → P quote (b :: rest))
    (opened : ∀ b rest, opensQuote b = true → P b rest → P 0 (b :: rest))
    (marked : ∀ rest, P 0 rest → P 0 (63 :: rest))
    (plain : ∀ b rest, opensQuote b = false → b ≠ 63 → P 0 rest → P 0 (b :: rest))
    (quote : UInt8) (bytes : Bytes) : P quote bytes := by
  induction hn : bytes.length using Nat.strong_induction_on generalizing quote bytes with
  | _ n ih =>
    subst hn
    match bytes with
    | [] => exact nil quote
    | b :: rest =>
      have hrest : ∀ quote, P quote rest := fun quote => ih _ (Nat.lt_succ_self _) quote rest rfl
      by_cases hquote : quote = 0
      · subst hquote
        cases hopens : opensQuote b
        · by_cases hmark : b = 63
          · subst hmark
            exact marked rest (hrest 0)
          · exact plain b rest hopens hmark (hrest 0)
        · exact opened b rest hopens (hrest b)
      · by_cases hb : b = quote
        · subst hb
          by_cases hdoubled : b = 39 ∧ rest.head? = some 39
          · obtain ⟨rfl, hhead⟩ := hdoubled
            match rest, hhead with
            | _ :: rest', rfl => exact doubled rest' (ih _ (by simp) 39 rest' rfl)
          · exact closed b rest hquote (fun hsingle hhead => hdoubled ⟨hsingle, hhead⟩) (hrest 0)
        · exact quoted quote b rest hquote hb (hrest quote)

section Lex
variable {quote b : UInt8} {rest : Bytes}

@[simp] theorem lex_nil (quote : UInt8) : lex quote [] = [] := rfl

theorem lex_doubled (rest : Bytes) :
    lex 39 (39 :: 39 :: rest) = .byte 39 :: .byte 39 :: lex 39 rest := by
  rw [lex.eq_def]
  simp

theorem lex_closed (hquote : quote ≠ 0) (h : quote = 39 → rest.head? ≠ some 39) :
    lex quote (quote :: rest) = .byte quote :: lex 0 rest := by
  rw [lex.eq_def]
  cases rest with
  | nil => simp [hquote]
  | cons c rest =>
    have hnot : ¬(quote = 39 ∧ c = 39) := fun ⟨hsingle, hc⟩ => h hsingle (by rw [hc]; rfl)
    simp [hquote, hnot]

theorem lex_quoted (hquote : quote ≠ 0) (hb : b ≠ quote) (rest : Bytes) :
    lex quote (b :: rest) = .byte b :: lex quote rest := by
  rw [lex.eq_def]
  simp [hquote, hb]

theorem lex_opened (hopens : opensQuote b = true) (rest : Bytes) :
    lex 0 (b :: rest) = .byte b :: lex b rest := by
  rw [lex.eq_def]
  simp [hopens]

theorem lex_mark (rest : Bytes) : lex 0 (63 :: rest) = .mark :: lex 0 rest := by
  rw [lex.eq_def]
  simp [opensQuote]

theorem lex_plain (hopens : opensQuote b = false) (hmark : b ≠ 63) (rest : Bytes) :
    lex 0 (b :: rest) = .byte b :: lex 0 rest := by
  rw [lex.eq_def]
  simp [hopens, hmark]

end Lex

/-- The outcome of a substitution, from the pieces. -/
def filled (pieces : List Piece) (params : List Lit) : Except String Bytes :=
  if params.length < marks pieces then .error "not enough prepared parameters"
  else if marks pieces < params.length then .error "too many prepared parameters"
  else .ok (fill render pieces params)

theorem filled_byte (b : UInt8) (pieces : List Piece) (params : List Lit) :
    filled render (.byte b :: pieces) params = (filled render pieces params).map (pushByte b ++ ·) := by
  have hmarks : marks (.byte b :: pieces) = marks pieces := by simp [marks]
  unfold filled
  rw [hmarks]
  split
  · rfl
  · split <;> rfl

/-- The parameters go into the placeholders, one into each. -/
theorem substituteLoop_eq (quote : UInt8) (sql : Bytes) (params : List Lit) :
    substituteLoop render quote sql params = filled render (lex quote sql) params := by
  induction quote, sql using lex_induction generalizing params with
  | nil quote => cases params <;> simp [substituteLoop, filled, marks, fill]
  | doubled rest ih =>
    rw [lex_doubled, filled_byte, filled_byte, ← ih, substituteLoop.eq_def]
    rcases hrun : substituteLoop render 39 rest params with e | out <;> simp [hrun, Except.map]
  | closed quote rest hquote hdoubled ih =>
    rw [lex_closed hquote hdoubled, filled_byte, ← ih, substituteLoop.eq_def]
    cases rest with
    | nil => simp [hquote]
    | cons c rest =>
      have hnot : ¬(quote = 39 ∧ c = 39) := fun ⟨hsingle, hc⟩ => hdoubled hsingle (by rw [hc]; rfl)
      simp [hquote, hnot]
  | quoted quote b rest hquote hb ih =>
    rw [lex_quoted hquote hb, filled_byte, ← ih, substituteLoop.eq_def]
    simp [hquote, hb]
  | opened b rest hopens ih =>
    rw [lex_opened hopens, filled_byte, ← ih, substituteLoop.eq_def]
    simp [hopens]
  | marked rest ih =>
    rw [lex_mark, substituteLoop.eq_def]
    have hmarks : marks (.mark :: lex 0 rest) = marks (lex 0 rest) + 1 := by simp [marks]
    cases params with
    | nil => simp [opensQuote, filled, hmarks]
    | cons lit params =>
      simp only [opensQuote, filled, hmarks, List.length_cons, ih]
      by_cases hfew : params.length < marks (lex 0 rest)
      · simp [hfew, Except.map]
      · by_cases hmany : marks (lex 0 rest) < params.length
        · simp [hfew, hmany, Except.map]
        · simp [hfew, hmany, Except.map, fill]
  | plain b rest hopens hmark ih =>
    rw [lex_plain hopens hmark, filled_byte, ← ih, substituteLoop.eq_def]
    simp [hopens, hmark]

/-- The count that the client is told, as far as it can say it. -/
theorem countLoop_eq (quote : UInt8) (sql : Bytes) (count : ℕ) (hcount : count ≤ 65535) :
    countLoop quote count sql = min (count + marks (lex quote sql)) 65535 := by
  induction quote, sql using lex_induction generalizing count with
  | nil quote => simp [countLoop, marks, hcount]
  | doubled rest ih =>
    rw [lex_doubled, countLoop.eq_def]
    simpa [marks] using ih count hcount
  | closed quote rest hquote hdoubled ih =>
    rw [lex_closed hquote hdoubled, countLoop.eq_def]
    cases rest with
    | nil => simp [hquote, marks, hcount]
    | cons c rest =>
      have hnot : ¬(quote = 39 ∧ c = 39) := fun ⟨hsingle, hc⟩ => hdoubled hsingle (by rw [hc]; rfl)
      simpa [hquote, hnot, marks] using ih count hcount
  | quoted quote b rest hquote hb ih =>
    rw [lex_quoted hquote hb, countLoop.eq_def]
    simpa [hquote, hb, marks] using ih count hcount
  | opened b rest hopens ih =>
    rw [lex_opened hopens, countLoop.eq_def]
    simpa [hopens, marks] using ih count hcount
  | marked rest ih =>
    rw [lex_mark, countLoop.eq_def]
    have hstep := ih (min (count + 1) 65535) (min_le_right _ _)
    have hmarks : marks (.mark :: lex 0 rest) = marks (lex 0 rest) + 1 := by simp [marks]
    rw [hmarks]
    simp only [opensQuote]
    simp only [ne_eq, not_true_eq_false, if_false, if_true]
    rw [if_neg (by decide), hstep]
    omega
  | plain b rest hopens hmark ih =>
    rw [lex_plain hopens hmark, countLoop.eq_def]
    simpa [hopens, hmark, marks] using ih count hcount

end Pieces

section Scan
variable {needle before before' bytes rest out : Bytes} {quote b : UInt8} {depth : ℕ}

/-- The scanner is not behind a backslash. -/
def Unescaped (before : Bytes) : Prop := before.head? ≠ some 92

theorem not_escaped (h : Unescaped before) : mysqlIsBackslashEscaped before = false := by
  cases before with
  | nil => rfl
  | cons b before =>
    have hb : b ≠ 92 := fun hb => h (by rw [hb]; rfl)
    simp [mysqlIsBackslashEscaped, hb]

theorem findLoop_doubled (h : Unescaped before) (rest : Bytes) :
    findLoop needle 39 depth before (39 :: 39 :: rest) =
      (findLoop needle 39 depth (39 :: 39 :: before) rest).map (· + 2) := by
  rw [findLoop.eq_def]
  simp [mysqlIsDoubledSingleQuote, not_escaped h]

theorem findLoop_closed (h : mysqlIsBackslashEscaped before = false) (hquote : quote ≠ 0)
    (hrest : quote = 39 → rest.head? ≠ some 39) : findLoop needle quote depth before (quote :: rest) =
      (findLoop needle 0 depth (quote :: before) rest).map (· + 1) := by
  rw [findLoop.eq_def]
  cases rest with
  | nil => simp [hquote, findLoop]
  | cons c rest =>
    have hnot : mysqlIsDoubledSingleQuote before (quote :: c :: rest) quote = false := by
      by_cases hsingle : quote = 39
      · have hc : c ≠ quote := fun hc => hrest hsingle (by rw [hc, hsingle]; rfl)
        simp [mysqlIsDoubledSingleQuote, hc]
      · simp [mysqlIsDoubledSingleQuote, hsingle]
    simp [hquote, hnot, h]

theorem findLoop_quoted (hquote : quote ≠ 0) (hb : b ≠ quote) :
    findLoop needle quote depth before (b :: rest) =
      (findLoop needle quote depth (b :: before) rest).map (· + 1) := by
  rw [findLoop.eq_def]
  simp [hquote, hb]

theorem findLoop_opened (hopens : opensQuote b = true) :
    findLoop needle 0 depth before (b :: rest) =
      (findLoop needle b depth (b :: before) rest).map (· + 1) := by
  rw [findLoop.eq_def]
  simp [hopens]

/-- The depth behind a byte. -/
def nextDepth (depth : ℕ) (b : UInt8) : ℕ :=
  if b = 40 then depth + 1 else if b = 41 then depth - 1 else depth

theorem findLoop_paren (hb : b = 40 ∨ b = 41) : findLoop needle 0 depth before (b :: rest) =
    (findLoop needle 0 (nextDepth depth b) (b :: before) rest).map (· + 1) := by
  rw [findLoop.eq_def]
  rcases hb with rfl | rfl <;> simp [opensQuote, nextDepth]

theorem findLoop_stands (hopens : opensQuote b = false) (hb : ¬(b = 40 ∨ b = 41))
    (h : depth = 0 ∧ StandsAt needle (before.head?.map lowerByte) ((b :: rest).map lowerByte)) :
    findLoop needle 0 depth before (b :: rest) = some 0 := by
  obtain ⟨hleft, hright⟩ := not_or.mp hb
  rw [findLoop.eq_def]
  simp only [hopens, hleft, hright, if_pos h]
  simp

theorem findLoop_passed (hopens : opensQuote b = false) (hb : ¬(b = 40 ∨ b = 41))
    (h : ¬(depth = 0 ∧ StandsAt needle (before.head?.map lowerByte) ((b :: rest).map lowerByte))) :
    findLoop needle 0 depth before (b :: rest) =
      (findLoop needle 0 depth (b :: before) rest).map (· + 1) := by
  obtain ⟨hleft, hright⟩ := not_or.mp hb
  rw [findLoop.eq_def]
  simp only [hopens, hleft, hright, if_neg h]
  simp

theorem map_add_add (o : Option ℕ) {m n k : ℕ} (h : m + n = k) :
    (o.map (· + m)).map (· + n) = o.map (· + k) := by
  subst h
  simp [Option.map_map, Function.comp_def, Nat.add_assoc]

/-- A passage through bytes of a quoted region. -/
theorem findLoop_passes (hquote : quote ≠ 0) (ws : Bytes) (hws : quote ∉ ws) :
    findLoop needle quote depth before (ws ++ rest) =
      (findLoop needle quote depth (ws.reverse ++ before) rest).map (· + ws.length) := by
  induction ws generalizing before with
  | nil => simp
  | cons b ws ih =>
    obtain ⟨hb, hws⟩ := not_or.mp (mt List.mem_cons.mpr hws)
    rw [List.cons_append, findLoop_quoted hquote (Ne.symm hb), ih hws,
      map_add_add _ rfl]
    simp

/-- The characters of a string literal, with the quotes among them doubled. -/
def doubleQuotes (v : List Char) : List Char := v.flatMap fun c => if c = '\'' then [c, c] else [c]

theorem quoted_toList (v : String) :
    (quoted v).toList = '\'' :: doubleQuotes v.toList ++ ['\''] := by
  simp [quoted, quotedBy, doubleQuotes]

theorem utf8_apostrophe : String.utf8EncodeChar '\'' = [39] := by decide

theorem unescaped_cons (hb : b ≠ 92) (before : Bytes) : Unescaped (b :: before) := by
  simpa [Unescaped] using hb

theorem unescaped_append {ws : Bytes} (hws : 92 ∉ ws) (h : Unescaped before) :
    Unescaped (ws.reverse ++ before) := by
  rcases List.eq_nil_or_concat ws with rfl | ⟨init, b, rfl⟩
  · exact h
  · rw [List.concat_eq_append, List.reverse_append]
    apply unescaped_cons
    rintro rfl
    exact hws (by simp)

/-- The value of a literal is passed over. -/
theorem findLoop_body (v : List Char) (hv : '\\' ∉ v) (h : Unescaped before) :
    findLoop needle 39 depth before (utf8 (doubleQuotes v) ++ rest) =
      (findLoop needle 39 depth ((utf8 (doubleQuotes v)).reverse ++ before) rest).map
        (· + (utf8 (doubleQuotes v)).length) ∧
      Unescaped ((utf8 (doubleQuotes v)).reverse ++ before) := by
  induction v generalizing before with
  | nil => exact ⟨by simp [doubleQuotes], h⟩
  | cons c v ih =>
    obtain ⟨hc, hrest⟩ := not_or.mp (mt List.mem_cons.mpr hv)
    by_cases hquote : c = '\''
    · have hbody : utf8 (doubleQuotes (c :: v)) = 39 :: 39 :: utf8 (doubleQuotes v) := by
        rw [hquote]
        simp [doubleQuotes, utf8_apostrophe]
      obtain ⟨hfind, hnext⟩ := ih hrest (unescaped_cons (by decide : (39 : UInt8) ≠ 92) (39 :: before))
      rw [hbody, List.cons_append, List.cons_append, findLoop_doubled h, hfind,
        map_add_add _ rfl]
      exact ⟨by simp, by simpa using hnext⟩
    · have hbody : utf8 (doubleQuotes (c :: v)) =
          String.utf8EncodeChar c ++ utf8 (doubleQuotes v) := by
        simp [doubleQuotes, hquote]
      have hsingle : (39 : UInt8) ∉ String.utf8EncodeChar c := fun hmem =>
        hquote (eq_of_mem_utf8EncodeChar (by decide : Ascii '\'') hmem)
      have hslash : (92 : UInt8) ∉ String.utf8EncodeChar c := fun hmem =>
        hc (eq_of_mem_utf8EncodeChar (by decide : Ascii '\\') hmem).symm
      obtain ⟨hfind, hnext⟩ := ih hrest (unescaped_append hslash h)
      rw [hbody, List.append_assoc, findLoop_passes (by decide) _ hsingle, hfind,
        map_add_add _ rfl]
      exact ⟨by simp [Nat.add_comm], by simpa using hnext⟩

theorem utf8_quoted (v : String) :
    utf8 (quoted v).toList = 39 :: utf8 (doubleQuotes v.toList) ++ [39] := by
  rw [quoted_toList]
  simp [utf8_apostrophe]

/-- A literal without a backslash is passed over and its end is found. -/
theorem findLoop_literal {v : String} (hv : '\\' ∉ v.toList) (hrest : rest.head? ≠ some 39) :
    findLoop needle 0 depth before (utf8 (quoted v).toList ++ rest) =
      (findLoop needle 0 depth ((utf8 (quoted v).toList).reverse ++ before) rest).map
        (· + (utf8 (quoted v).toList).length) := by
  obtain ⟨hfind, hnext⟩ := @findLoop_body needle (39 :: before) (39 :: rest) depth v.toList hv
    (unescaped_cons (by decide) before)
  rw [utf8_quoted, List.append_assoc, List.cons_append, findLoop_opened (by decide)]
  change (findLoop needle 39 depth (39 :: before)
    (utf8 (doubleQuotes v.toList) ++ 39 :: rest)).map _ = _
  rw [hfind, findLoop_closed (not_escaped hnext) (by decide) fun _ => hrest,
    map_add_add _ rfl, map_add_add _ rfl]
  simp [Nat.add_comm]

end Scan

section Statement
variable {render : Lit → String} {needle before before' sql rest : Bytes} {quote quote' b : UInt8}
  {depth : ℕ} {params : List Lit} {lit : Lit} {k : UInt8}

/-- A byte of the text of a number. -/
def NumberByte (b : UInt8) : Prop := (48 ≤ b ∧ b ≤ 57) ∨ b = 45 ∨ b = 46

/-- The text of the value is a string literal without a backslash, or a number. -/
def PlainLiteral (render : Lit → String) (lit : Lit) : Prop :=
  (∃ v : String, render lit = quoted v ∧ '\\' ∉ v.toList) ∨
    utf8 (render lit).toList ≠ [] ∧ ∀ b ∈ utf8 (render lit).toList, NumberByte b

/-- A byte that neither a literal nor a number in its neighbourhood changes the meaning of. -/
def clear (b : UInt8) : Bool := b != 39 && !isSqlIdentChar b

/-- Two pieces that do not run together when a literal takes the place of a placeholder. -/
def Apart : Piece → Piece → Prop
  | .mark, .mark => False
  | .mark, .byte b => clear b = true
  | .byte b, .mark => clear b = true
  | .byte _, .byte _ => True

instance : DecidableRel Apart
  | .mark, .mark => inferInstanceAs (Decidable False)
  | .mark, .byte b => inferInstanceAs (Decidable (clear b = true))
  | .byte b, .mark => inferInstanceAs (Decidable (clear b = true))
  | .byte _, .byte _ => inferInstanceAs (Decidable True)

/-- A byte of a template: an ASCII character that is no backslash. -/
def TemplateByte (b : UInt8) : Prop := b < 128 ∧ b ≠ 92

instance : DecidablePred TemplateByte := fun b => inferInstanceAs (Decidable (b < 128 ∧ b ≠ 92))

/-- Words in lower case, with blanks between them. -/
structure Keyword (needle : Bytes) : Prop where
  bytes : ∀ k ∈ needle, (97 ≤ k ∧ k ≤ 122) ∨ k = 32
  first : ∀ k ∈ needle.head?, isSqlIdentChar k = true
  last : ∀ k ∈ needle.getLast?, isSqlIdentChar k = true

theorem ident_of_letter {k : UInt8} (hk : 97 ≤ k ∧ k ≤ 122) : isSqlIdentChar k = true := by
  simp [isSqlIdentChar, hk]

theorem keyword_of_letters {needle : Bytes} (h : needle.all (fun k => 97 ≤ k && k ≤ 122) = true) :
    Keyword needle := by
  have hletter : ∀ k ∈ needle, 97 ≤ k ∧ k ≤ 122 := by
    simpa using h
  constructor
  · exact fun k hk => .inl (hletter k hk)
  · exact fun k hk => ident_of_letter (hletter k (List.mem_of_mem_head? hk))
  · exact fun k hk => ident_of_letter (hletter k (List.mem_of_mem_getLast? hk))

/-- A template and its parameters, from inside the template. -/
structure Fits (render : Lit → String) (quote : UInt8) (sql : Bytes) (params : List Lit) :
    Prop where
  bytes : ∀ b ∈ sql, TemplateByte b
  apart : (lex quote sql).IsChain Apart
  plain : ∀ lit ∈ params, PlainLiteral render lit
  arity : params.length = marks (lex quote sql)

theorem pushByte_ascii (hb : b < 128) : pushByte b = [b] := by
  have hall : ∀ n < 128, (Char.ofNat n).toNat = n := by decide
  have htoNat : (byteAsChar b).toNat = b.toNat := hall b.toNat hb
  have hascii : Ascii (byteAsChar b) := htoNat.trans_lt hb
  simp [pushByte, utf8EncodeChar_ascii hascii, htoNat]

theorem Fits.byte (h : Fits render quote (b :: rest) params)
    (hlex : lex quote (b :: rest) = .byte b :: lex quote' rest) :
    Fits render quote' rest params where
  bytes c hc := h.bytes c (List.mem_cons_of_mem b hc)
  apart := by
    have happart := h.apart
    rw [hlex] at happart
    exact happart.tail
  plain := h.plain
  arity := by
    rw [h.arity, hlex]
    simp [marks]

theorem Fits.mark (h : Fits render 0 (63 :: rest) (lit :: params)) :
    Fits render 0 rest params where
  bytes c hc := h.bytes c (List.mem_cons_of_mem 63 hc)
  apart := by
    have happart := h.apart
    rw [lex_mark] at happart
    exact happart.tail
  plain l hl := h.plain l (List.mem_cons_of_mem lit hl)
  arity := by
    have harity := h.arity
    rw [lex_mark] at harity
    simpa [marks] using harity

theorem Fits.fill_byte (h : Fits render quote (b :: rest) params)
    (hlex : lex quote (b :: rest) = .byte b :: lex quote' rest) :
    fill render (lex quote (b :: rest)) params = b :: fill render (lex quote' rest) params := by
  rw [hlex, fill, pushByte_ascii (h.bytes b List.mem_cons_self).1]
  rfl

/-- A statement has a byte or a placeholder in front. -/
theorem lex_front (quote : UInt8) (bytes : Bytes) :
    bytes = [] ∨ (∃ rest, quote = 0 ∧ bytes = 63 :: rest) ∨
      ∃ b rest pieces, bytes = b :: rest ∧ lex quote bytes = .byte b :: pieces := by
  induction quote, bytes using lex_induction with
  | nil => exact .inl rfl
  | doubled rest => exact .inr (.inr ⟨39, _, _, rfl, lex_doubled rest⟩)
  | closed quote rest hquote hdoubled =>
    exact .inr (.inr ⟨quote, rest, _, rfl, lex_closed hquote hdoubled⟩)
  | quoted quote b rest hquote hb => exact .inr (.inr ⟨b, rest, _, rfl, lex_quoted hquote hb rest⟩)
  | opened b rest hopens => exact .inr (.inr ⟨b, rest, _, rfl, lex_opened hopens rest⟩)
  | marked rest => exact .inr (.inl ⟨rest, rfl, rfl⟩)
  | plain b rest hopens hmark =>
    exact .inr (.inr ⟨b, rest, _, rfl, lex_plain hopens hmark rest⟩)

/-- What is put in for a placeholder. -/
theorem Fits.fill_mark (h : Fits render 0 (63 :: rest) params) : ∃ lit params',
    params = lit :: params' ∧ PlainLiteral render lit ∧
      fill render (lex 0 (63 :: rest)) params =
        utf8 (render lit).toList ++ fill render (lex 0 rest) params' := by
  cases params with
  | nil =>
    have harity := h.arity
    rw [lex_mark] at harity
    simp [marks] at harity
  | cons lit params' =>
    exact ⟨lit, params', rfl, h.plain lit List.mem_cons_self, by rw [lex_mark, fill]⟩

/-- What comes of the rest does not begin with an apostrophe. -/
theorem Fits.head_ne (h : Fits render 0 rest params) {piece : Piece}
    (hpiece : ¬Apart piece .mark) (hhead : Apart piece (.byte 39) → rest.head? ≠ some 39)
    (happart : (piece :: lex 0 rest).IsChain Apart) :
    (fill render (lex 0 rest) params).head? ≠ some 39 := by
  obtain rfl | ⟨rest', -, rfl⟩ | ⟨b, rest', pieces, rfl, hlex⟩ := lex_front 0 rest
  · simp [fill]
  · rw [lex_mark] at happart
    exact absurd happart.rel hpiece
  · rw [hlex] at happart ⊢
    rw [fill, pushByte_ascii (h.bytes b List.mem_cons_self).1]
    intro hb
    obtain rfl : b = 39 := by simpa using hb
    exact hhead happart.rel rfl

/-- A byte of a number is passed over. -/
theorem NumberByte.passes (h : NumberByte b) :
    opensQuote b = false ∧ b ≠ 92 ∧ b ≠ 40 ∧ b ≠ 41 ∧ lowerByte b = b ∧ b < 97 ∧ b ≠ 32 := by
  have hnat : (48 ≤ b.toNat ∧ b.toNat ≤ 57) ∨ b.toNat = 45 ∨ b.toNat = 46 := by
    rcases h with ⟨hlow, hhigh⟩ | rfl | rfl
    · exact .inl ⟨hlow, hhigh⟩
    · exact .inr (.inl rfl)
    · exact .inr (.inr rfl)
  have hb : b = .ofNat b.toNat := UInt8.ofNat_toNat.symm
  rw [hb]
  generalize b.toNat = n at hnat
  obtain ⟨hlow, hhigh⟩ | rfl | rfl := hnat
  · interval_cases n <;> decide
  · decide
  · decide

/-- A letter or a blank is none of the bytes in a number and of the quotes. -/
theorem letter_ne (hk : (97 ≤ k ∧ k ≤ 122) ∨ k = 32) (hb : b < 97 ∧ b ≠ 32) : k ≠ b := by
  rintro rfl
  rcases hk with hletter | hblank
  · exact absurd hletter.1 (UInt8.not_le.mpr hb.1)
  · exact hb.2 hblank

/-- A number is passed over. -/
theorem findLoop_number (hneedle : Keyword needle) (hne : needle ≠ []) (ws : Bytes)
    (hws : ∀ b ∈ ws, NumberByte b) : findLoop needle 0 depth before (ws ++ rest) =
      (findLoop needle 0 depth (ws.reverse ++ before) rest).map (· + ws.length) := by
  induction ws generalizing before with
  | nil => simp
  | cons b ws ih =>
    obtain ⟨hb, hrest⟩ := List.forall_mem_cons.mp hws
    obtain ⟨hopens, -, hleft, hright, hlower, hlt, hblank⟩ := hb.passes
    have hstands : ¬(depth = 0 ∧
        StandsAt needle (before.head?.map lowerByte) ((b :: (ws ++ rest)).map lowerByte)) := by
      rintro ⟨-, hfront, -⟩
      obtain ⟨k, needle, rfl⟩ := List.exists_cons_of_ne_nil hne
      rw [List.map_cons, hlower] at hfront
      exact letter_ne (hneedle.bytes k List.mem_cons_self) ⟨hlt, hblank⟩
        (List.cons_prefix_cons.mp hfront).1
    rw [List.cons_append, findLoop_passed hopens (not_or.mpr ⟨hleft, hright⟩) hstands, ih hrest,
      map_add_add _ rfl]
    simp

/-- What holds of all numbers below 256 holds of all bytes. -/
theorem forall_byte {P : UInt8 → Prop} (h : ∀ n < 256, P (.ofNat n)) (b : UInt8) : P b := by
  have hb := h b.toNat b.toNat_lt
  rwa [UInt8.ofNat_toNat] at hb

theorem clear_lower (h : clear b = true) : (some (lowerByte b)).any isSqlIdentChar = false := by
  revert h b
  apply forall_byte
  decide +kernel

theorem clear_of_lower (h : isSqlIdentChar (lowerByte b) = true) : clear b = false := by
  cases hb : clear b
  · rfl
  · rw [Option.any_some.symm.trans (clear_lower hb)] at h
    exact absurd h (by decide)

theorem letter_plain (hk : (97 ≤ lowerByte b ∧ lowerByte b ≤ 122) ∨ lowerByte b = 32) :
    opensQuote b = false ∧ b ≠ 63 ∧ b ≠ 40 ∧ b ≠ 41 := by
  revert hk b
  apply forall_byte
  decide +kernel

/-- What is put in for a placeholder does not begin as a keyword does. -/
theorem PlainLiteral.front (h : PlainLiteral render lit) : ∃ b ws,
    utf8 (render lit).toList = b :: ws ∧ lowerByte b = b ∧ b < 97 ∧ b ≠ 32 := by
  rcases h with ⟨v, hv, -⟩ | ⟨hne, hnumber⟩
  · exact ⟨39, _, by rw [hv, utf8_quoted]; rfl, by decide⟩
  · obtain ⟨b, ws, hws⟩ := List.exists_cons_of_ne_nil hne
    obtain ⟨-, -, -, -, hlower, hlt, hblank⟩ :=
      (hnumber b (by rw [hws]; exact List.mem_cons_self)).passes
    exact ⟨b, ws, hws, hlower, hlt, hblank⟩

/-- The rest of a keyword stands at a place of the template and of the statement, or at none. -/
theorem Fits.ends_iff {p : UInt8} (h : Fits render 0 sql params)
    (happart : (.byte p :: lex 0 sql).IsChain Apart)
    (hneedle : ∀ k ∈ needle, (97 ≤ k ∧ k ≤ 122) ∨ k = 32)
    (hlast : ∀ k ∈ (lowerByte p :: needle).getLast?, isSqlIdentChar k = true) :
    (needle <+: sql.map lowerByte ∧
        ((sql.map lowerByte).drop needle.length).head?.any isSqlIdentChar = false) ↔
      (needle <+: (fill render (lex 0 sql) params).map lowerByte ∧
        (((fill render (lex 0 sql) params).map lowerByte).drop needle.length).head?.any
          isSqlIdentChar = false) := by
  induction needle generalizing sql p with
  | nil =>
    obtain rfl | ⟨rest, -, rfl⟩ | ⟨b, rest, pieces, rfl, hlex⟩ := lex_front 0 sql
    · simp [fill]
    · rw [lex_mark] at happart
      have hclear : clear p = true := happart.rel
      rw [clear_of_lower (hlast _ rfl)] at hclear
      exact absurd hclear (by decide)
    · rw [hlex, fill, pushByte_ascii (h.bytes b List.mem_cons_self).1]
      simp
  | cons k needle ih =>
    obtain ⟨hk, hrest⟩ := List.forall_mem_cons.mp hneedle
    obtain rfl | ⟨rest, -, rfl⟩ | ⟨b, rest, pieces, rfl, hlex⟩ := lex_front 0 sql
    · simp [fill]
    · obtain ⟨lit, params', rfl, hplain, hfill⟩ := h.fill_mark
      obtain ⟨b, ws, hws, hlower, hb⟩ := hplain.front
      have hmark : k ≠ lowerByte 63 := letter_ne hk (by decide)
      rw [hfill, hws]
      simp [List.cons_prefix_cons, hlower, hmark, letter_ne hk hb]
    · by_cases hb : k = lowerByte b
      · subst hb
        obtain ⟨hopens, hmark, -⟩ := letter_plain hk
        have hstep := lex_plain hopens hmark rest
        have happart' := h.apart
        rw [hstep] at happart'
        rw [h.fill_byte hstep]
        simpa [List.cons_prefix_cons] using ih (h.byte hstep) happart' hrest hlast
      · rw [hlex, fill, pushByte_ascii (h.bytes b List.mem_cons_self).1]
        simp [List.cons_prefix_cons, hb]

/-- The keyword stands at a place of the template and of the statement, or at none. The bytes
before the place may differ where no keyword can begin. -/
theorem Fits.stands_iff (h : Fits render 0 (b :: rest) params) (hopens : opensQuote b = false)
    (hmark : b ≠ 63) (hneedle : Keyword needle) (hne : needle ≠ []) {prev prev' : Option UInt8}
    (hprev : prev'.any isSqlIdentChar = prev.any isSqlIdentChar ∨ clear b = true) :
    StandsAt needle prev' ((fill render (lex 0 (b :: rest)) params).map lowerByte) ↔
      StandsAt needle prev ((b :: rest).map lowerByte) := by
  have hlex := lex_plain hopens hmark rest
  obtain ⟨k, needle, rfl⟩ := List.exists_cons_of_ne_nil hne
  have hk := hneedle.first k rfl
  rw [h.fill_byte hlex]
  by_cases hb : k = lowerByte b
  · subst hb
    have hident := hprev.resolve_right (by rw [clear_of_lower hk]; decide)
    have happart := h.apart
    rw [hlex] at happart
    have hends := (h.byte hlex).ends_iff happart
      (fun k hmem => hneedle.bytes k (List.mem_cons_of_mem _ hmem)) hneedle.last
    simp only [StandsAt, List.map_cons, List.cons_prefix_cons, List.length_cons,
      List.drop_succ_cons, hident, true_and]
    constructor
    · rintro ⟨hfront, hbefore, hend⟩
      obtain ⟨hfront, hend⟩ := hends.mpr ⟨hfront, hend⟩
      exact ⟨hfront, hbefore, hend⟩
    · rintro ⟨hfront, hbefore, hend⟩
      obtain ⟨hfront, hend⟩ := hends.mp ⟨hfront, hend⟩
      exact ⟨hfront, hbefore, hend⟩
  · simp [StandsAt, List.cons_prefix_cons, hb]

theorem clear_head (h : (.mark :: lex 0 rest).IsChain Apart) : ∀ b ∈ rest.head?, clear b = true := by
  obtain rfl | ⟨rest', -, rfl⟩ | ⟨b, rest', pieces, rfl, hlex⟩ := lex_front 0 rest
  · simp
  · rw [lex_mark] at h
    exact absurd h.rel id
  · rw [hlex] at h
    rintro c ⟨⟩
    exact h.rel

/-- A position of the template, in the statement. -/
def shift (render : Lit → String) (pieces : List Piece) (params : List Lit) (i : ℕ) : ℕ :=
  (fill render (pieces.take i) params).length

theorem shift_byte (hb : b < 128) (pieces : List Piece) (i : ℕ) :
    shift render (.byte b :: pieces) params (i + 1) = shift render pieces params i + 1 := by
  simp [shift, fill, pushByte_ascii hb, Nat.add_comm]

theorem shift_mark (pieces : List Piece) (i : ℕ) :
    shift render (.mark :: pieces) (lit :: params) (i + 1) =
      shift render pieces params i + (utf8 (render lit).toList).length := by
  simp [shift, fill, Nat.add_comm]

theorem map_shift_byte (hb : b < 128) (pieces : List Piece) (o : Option ℕ) :
    (o.map (shift render pieces params)).map (· + 1) =
      (o.map (· + 1)).map (shift render (.byte b :: pieces) params) := by
  simp [Option.map_map, Function.comp_def, shift_byte hb]

/-- A value is passed over. -/
theorem findLoop_value (hplain : PlainLiteral render lit) (hneedle : Keyword needle)
    (hne : needle ≠ []) (hrest : rest.head? ≠ some 39) :
    findLoop needle 0 depth before (utf8 (render lit).toList ++ rest) =
      (findLoop needle 0 depth ((utf8 (render lit).toList).reverse ++ before) rest).map
        (· + (utf8 (render lit).toList).length) := by
  rcases hplain with ⟨v, hv, hslash⟩ | ⟨-, hnumber⟩
  · rw [hv]
    exact findLoop_literal hslash hrest
  · exact findLoop_number hneedle hne _ hnumber

theorem PlainLiteral.unescaped (hplain : PlainLiteral render lit) (before : Bytes) :
    Unescaped ((utf8 (render lit).toList).reverse ++ before) := by
  rcases hplain with ⟨v, hv, -⟩ | ⟨hne, hnumber⟩
  · rw [hv, utf8_quoted]
    simp [Unescaped]
  · obtain ⟨ws, b, hws⟩ := (List.eq_nil_or_concat _).resolve_left hne
    have hb := (hnumber b (by rw [hws]; simp)).passes
    rw [hws]
    simpa [Unescaped] using hb.2.1

/-- The scanner of keywords makes the same of the statement as of its template. -/
theorem Fits.findLoop_eq (h : Fits render quote sql params) (hneedle : Keyword needle)
    (hne : needle ≠ []) (hbefore : Unescaped before) (hbefore' : Unescaped before')
    (hprev : (before'.head?.map lowerByte).any isSqlIdentChar =
      (before.head?.map lowerByte).any isSqlIdentChar ∨ ∀ b ∈ sql.head?, clear b = true) :
    findLoop needle quote depth before' (fill render (lex quote sql) params) =
      (findLoop needle quote depth before sql).map (shift render (lex quote sql) params) := by
  induction quote, sql using lex_induction generalizing depth before before' params with
  | nil quote => simp [fill, findLoop]
  | doubled rest ih =>
    have hlex := lex_doubled rest
    have hrest : Fits render 39 rest params := {
      bytes := fun c hc => h.bytes c (by simp [hc])
      apart := by
        have happart := h.apart
        rw [hlex] at happart
        exact happart.tail.tail
      plain := h.plain
      arity := by
        rw [h.arity, hlex]
        simp [marks] }
    have hstep := @ih (39 :: 39 :: before) (39 :: 39 :: before') depth params hrest
      (unescaped_cons (by decide) _) (unescaped_cons (by decide) _) (.inl rfl)
    rw [hlex, fill, fill, pushByte_ascii (by decide)]
    simp only [List.singleton_append]
    rw [findLoop_doubled hbefore', findLoop_doubled hbefore, hstep]
    simp [Option.map_map, Function.comp_def, shift_byte]
  | closed quote rest hquote hdoubled ih =>
    have hlex := lex_closed hquote hdoubled
    have hb := h.bytes quote List.mem_cons_self
    have hhead : quote = 39 → (fill render (lex 0 rest) params).head? ≠ some 39 := by
      rintro rfl
      have happart := h.apart
      rw [hlex] at happart
      have hmark : ¬Apart (.byte 39) .mark := fun hmark => absurd hmark (by decide)
      exact (h.byte hlex).head_ne hmark (fun _ => hdoubled rfl) happart
    have hstep := @ih (quote :: before) (quote :: before') depth params (h.byte hlex)
      (unescaped_cons hb.2 _) (unescaped_cons hb.2 _) (.inl rfl)
    rw [h.fill_byte hlex, findLoop_closed (not_escaped hbefore') hquote hhead,
      findLoop_closed (not_escaped hbefore) hquote hdoubled, hlex, hstep, map_shift_byte hb.1]
  | quoted quote b rest hquote hb ih =>
    have hlex := lex_quoted hquote hb rest
    have htemplate := h.bytes b List.mem_cons_self
    have hstep := @ih (b :: before) (b :: before') depth params (h.byte hlex)
      (unescaped_cons htemplate.2 _) (unescaped_cons htemplate.2 _) (.inl rfl)
    rw [h.fill_byte hlex, findLoop_quoted hquote hb, findLoop_quoted hquote hb, hlex, hstep,
      map_shift_byte htemplate.1]
  | opened b rest hopens ih =>
    have hlex := lex_opened hopens rest
    have htemplate := h.bytes b List.mem_cons_self
    have hstep := @ih (b :: before) (b :: before') depth params (h.byte hlex)
      (unescaped_cons htemplate.2 _) (unescaped_cons htemplate.2 _) (.inl rfl)
    rw [h.fill_byte hlex, findLoop_opened hopens, findLoop_opened hopens, hlex, hstep,
      map_shift_byte htemplate.1]
  | marked rest ih =>
    obtain ⟨lit, params', rfl, hplain, hfill⟩ := h.fill_mark
    have happart := h.apart
    rw [lex_mark] at happart
    have hsingle : ¬Apart .mark (.byte 39) := fun hsingle => absurd hsingle (by decide)
    have hhead := h.mark.head_ne id (fun happart => absurd happart hsingle) happart
    have hstands : ¬StandsAt needle (before.head?.map lowerByte) ((63 :: rest).map lowerByte) := by
      rintro ⟨hfront, -⟩
      obtain ⟨k, needle, rfl⟩ := List.exists_cons_of_ne_nil hne
      exact letter_ne (hneedle.bytes k List.mem_cons_self) (by decide)
        (List.cons_prefix_cons.mp hfront).1
    have hstep := @ih (63 :: before) ((utf8 (render lit).toList).reverse ++ before') depth params'
      h.mark (unescaped_cons (by decide) _) (hplain.unescaped _) (.inr (clear_head happart))
    rw [hfill, findLoop_value hplain hneedle hne hhead, hstep,
      findLoop_passed (by decide) (by decide) (fun hdepth => hstands hdepth.2), lex_mark]
    simp [Option.map_map, Function.comp_def, shift_mark]
  | plain b rest hopens hmark ih =>
    have hlex := lex_plain hopens hmark rest
    have hb := h.bytes b List.mem_cons_self
    have hstep := fun depth => @ih (b :: before) (b :: before') depth params (h.byte hlex)
      (unescaped_cons hb.2 _) (unescaped_cons hb.2 _) (.inl rfl)
    by_cases hparen : b = 40 ∨ b = 41
    · rw [h.fill_byte hlex, findLoop_paren hparen, findLoop_paren hparen, hlex, hstep,
        map_shift_byte hb.1]
    · have hiff := h.stands_iff hopens hmark hneedle hne (hprev.imp_right fun hclear => hclear b rfl)
      rw [h.fill_byte hlex] at hiff ⊢
      by_cases hstands : depth = 0 ∧
          StandsAt needle (before.head?.map lowerByte) ((b :: rest).map lowerByte)
      · rw [findLoop_stands hopens hparen ⟨hstands.1, hiff.mpr hstands.2⟩,
          findLoop_stands hopens hparen hstands]
        simp [shift, fill]
      · have hstands' : ¬(depth = 0 ∧ StandsAt needle (before'.head?.map lowerByte)
            ((b :: fill render (lex 0 rest) params).map lowerByte)) := fun hstands' =>
          hstands ⟨hstands'.1, hiff.mp hstands'.2⟩
        rw [findLoop_passed hopens hparen hstands', findLoop_passed hopens hparen hstands, hlex,
          hstep, map_shift_byte hb.1]

end Statement

section Values
variable {X ι : Type} {x : MySql X ι} {lit : Lit} {v : String}

/-- A value that is sent as a string without a backslash, or as a whole number. -/
def PlainValue : Lit → Prop
  | .bool _ | .i64 _ | .u64 _ => True
  | .str v | .date v | .time v | .datetime v | .uuid v => '\\' ∉ v.toList
  | _ => False

theorem digit_numberByte {c : Char} (hc : c.isDigit = true) :
    ∀ b ∈ String.utf8EncodeChar c, NumberByte b := by
  have hrange : 48 ≤ c.toNat ∧ c.toNat ≤ 57 := by
    simp only [Char.isDigit, Bool.and_eq_true, decide_eq_true_eq] at hc
    exact ⟨hc.1, hc.2⟩
  have hascii : Ascii c := hrange.2.trans_lt (by decide)
  rw [utf8EncodeChar_ascii hascii]
  rintro b hb
  obtain rfl := List.mem_singleton.mp hb
  obtain ⟨hlow, hhigh⟩ := hrange
  generalize c.toNat = n at hlow hhigh
  left
  interval_cases n <;> decide

theorem digits_numberBytes (n : ℕ) :
    utf8 (Nat.toDigits 10 n) ≠ [] ∧ ∀ b ∈ utf8 (Nat.toDigits 10 n), NumberByte b := by
  constructor
  · intro hempty
    obtain ⟨c, cs, hcs⟩ := List.exists_cons_of_ne_nil (@Nat.toDigits_ne_nil n 10)
    rw [hcs, utf8_cons] at hempty
    exact String.utf8EncodeChar_ne_nil (List.append_eq_nil_iff.mp hempty).1
  · intro b hb
    obtain ⟨c, hc, hmem⟩ := List.mem_flatMap.mp hb
    exact digit_numberByte (Nat.isDigit_of_mem_toDigits (by decide) (by decide) hc) b hmem

theorem PlainValue.literal (h : PlainValue lit) : PlainLiteral (mysqlRenderDefaultLit x) lit := by
  cases lit with
  | bool v =>
    right
    have htext : (mysqlRenderDefaultLit x (.bool v)).toList = Nat.toDigits 10 v.toNat := by
      cases v
      · exact (by decide : ("0" : String).toList = Nat.toDigits 10 0)
      · exact (by decide : ("1" : String).toList = Nat.toDigits 10 1)
    rw [htext]
    exact digits_numberBytes v.toNat
  | i64 v =>
    right
    cases v with
    | ofNat n =>
      have htext : (mysqlRenderDefaultLit x (.i64 (.ofNat n))).toList = Nat.toDigits 10 n := by
        change (n.repr).toList = _
        exact Nat.toList_repr
      rw [htext]
      exact digits_numberBytes n
    | negSucc n =>
      have htext : (mysqlRenderDefaultLit x (.i64 (.negSucc n))).toList =
          '-' :: Nat.toDigits 10 (n + 1) := by
        change ("-" ++ (n + 1).repr).toList = _
        simp
      rw [htext, utf8_cons]
      refine ⟨fun hempty => String.utf8EncodeChar_ne_nil (List.append_eq_nil_iff.mp hempty).1, ?_⟩
      intro b hb
      rcases List.mem_append.mp hb with hsign | hdigit
      · have hminus : String.utf8EncodeChar '-' = [45] := by decide
        rw [hminus] at hsign
        exact .inr (.inl (List.mem_singleton.mp hsign))
      · exact (digits_numberBytes (n + 1)).2 b hdigit
  | u64 v =>
    right
    have htext : (mysqlRenderDefaultLit x (.u64 v)).toList = Nat.toDigits 10 v := by
      change (v.repr).toList = _
      exact Nat.toList_repr
    rw [htext]
    exact digits_numberBytes v
  | str v | date v | time v | datetime v | uuid v => exact .inl ⟨v, rfl, h⟩
  | _ => exact absurd h id

end Values

section Unescape
variable {c d : Char} {l u w : List Char}

theorem unescape_pair (l : List Char) :
    mysqlUnescapeStringBody '\'' ('\'' :: '\'' :: l) = '\'' :: mysqlUnescapeStringBody '\'' l := by
  rw [mysqlUnescapeStringBody.eq_def]
  simp

theorem unescape_slash (d : Char) (l : List Char) : mysqlUnescapeStringBody '\'' ('\\' :: d :: l) =
    unescapeChar d :: mysqlUnescapeStringBody '\'' l := by
  rw [mysqlUnescapeStringBody.eq_def]
  simp

theorem unescape_single (hl : l.head? ≠ some '\'') :
    mysqlUnescapeStringBody '\'' ('\'' :: l) = '\'' :: mysqlUnescapeStringBody '\'' l := by
  rw [mysqlUnescapeStringBody.eq_def]
  cases l with
  | nil => simp [mysqlUnescapeStringBody]
  | cons d l =>
    have hd : d ≠ '\'' := fun hd => hl (by rw [hd]; rfl)
    simp [hd]

theorem unescape_cons (hquote : c ≠ '\'') (hslash : c ≠ '\\') (l : List Char) :
    mysqlUnescapeStringBody '\'' (c :: l) = c :: mysqlUnescapeStringBody '\'' l := by
  rw [mysqlUnescapeStringBody.eq_def]
  cases l with
  | nil => simp [mysqlUnescapeStringBody]
  | cons d l => simp [hquote, hslash]

theorem doubleQuotes_quote (w : List Char) :
    doubleQuotes ('\'' :: w) = '\'' :: '\'' :: doubleQuotes w := rfl

theorem doubleQuotes_cons (hquote : c ≠ '\'') (w : List Char) :
    doubleQuotes (c :: w) = c :: doubleQuotes w := by
  simp [doubleQuotes, hquote]

/-- Text without a backslash is read as it is. -/
theorem unescape_plain (hu : '\\' ∉ u) (l : List Char) :
    mysqlUnescapeStringBody '\'' (doubleQuotes u ++ l) = u ++ mysqlUnescapeStringBody '\'' l := by
  induction u with
  | nil => rfl
  | cons c u ih =>
    obtain ⟨hc, hrest⟩ := not_or.mp (mt List.mem_cons.mpr hu)
    by_cases hquote : c = '\''
    · rw [hquote, doubleQuotes_quote, List.cons_append, List.cons_append, unescape_pair, ih hrest]
      rfl
    · rw [doubleQuotes_cons hquote, List.cons_append, unescape_cons hquote (Ne.symm hc), ih hrest]
      rfl

/-- What is read is no longer than what was written, also behind a quote that is left over. -/
theorem length_unescape_le (w : List Char) :
    (mysqlUnescapeStringBody '\'' (doubleQuotes w)).length ≤ w.length ∧
      (mysqlUnescapeStringBody '\'' ('\'' :: doubleQuotes w)).length ≤ w.length + 1 := by
  induction hn : w.length using Nat.strong_induction_on generalizing w with
  | _ n ih =>
    subst hn
    have hfirst : (mysqlUnescapeStringBody '\'' (doubleQuotes w)).length ≤ w.length := by
      match w with
      | [] => simp [doubleQuotes, mysqlUnescapeStringBody]
      | c :: w =>
        by_cases hquote : c = '\''
        · subst hquote
          simpa [doubleQuotes_quote, unescape_pair] using (ih w.length (by simp) w rfl).1
        · by_cases hslash : c = '\\'
          · subst hslash
            match w with
            | [] => simp [doubleQuotes, mysqlUnescapeStringBody]
            | d :: w =>
              have hw := ih w.length (by simp) w rfl
              by_cases hd : d = '\''
              · subst hd
                simpa [doubleQuotes_cons, doubleQuotes_quote, unescape_slash] using hw.2
              · simpa [doubleQuotes_cons, hd, unescape_slash] using hw.1.trans (Nat.le_succ _)
          · simpa [doubleQuotes_cons hquote, unescape_cons hquote hslash] using
              (ih w.length (by simp) w rfl).1
    refine ⟨hfirst, ?_⟩
    match w with
    | [] => simp [doubleQuotes, mysqlUnescapeStringBody]
    | c :: w =>
      by_cases hquote : c = '\''
      · subst hquote
        simpa [doubleQuotes_quote, unescape_pair] using (ih w.length (by simp) w rfl).2
      · have hhead : (doubleQuotes (c :: w)).head? ≠ some '\'' := by
          rw [doubleQuotes_cons hquote]
          simpa using hquote
        rw [unescape_single hhead]
        simpa using hfirst

/-- Text with a backslash before its end is read as something else. -/
theorem unescape_ne (hu : '\\' ∉ u) (hw : w ≠ []) :
    mysqlUnescapeStringBody '\'' (doubleQuotes (u ++ '\\' :: w)) ≠ u ++ '\\' :: w := by
  intro h
  have hsplit : doubleQuotes (u ++ '\\' :: w) = doubleQuotes u ++ '\\' :: doubleQuotes w := by
    simp [doubleQuotes]
  rw [hsplit, unescape_plain hu] at h
  have hread := List.append_cancel_left h
  match w, hw with
  | d :: w, _ =>
    by_cases hd : d = '\''
    · subst hd
      rw [doubleQuotes_quote, unescape_slash] at hread
      exact absurd (List.cons.inj hread).1 (by decide)
    · rw [doubleQuotes_cons hd, unescape_slash] at hread
      obtain ⟨hslash, hrest⟩ := List.cons.inj hread
      have hlength := (length_unescape_le w).1
      rw [hrest] at hlength
      simp at hlength

end Unescape

section Prepared
variable {X ι : Type} {needle before rest : Bytes} {depth : ℕ}

/-- The parameters of a prepared statement stay values: as many are taken as there are
placeholders, and a clause begins in the statement where it begins in the template. -/
theorem prepared_values_stay_values (x : MySql X ι) (template : Bytes) (params : List Lit)
    (hbytes : ∀ b ∈ template, TemplateByte b) (hapart : (lex 0 template).IsChain Apart)
    (hplain : ∀ lit ∈ params, PlainValue lit) :
    mysqlCountPlaceholders template = min (marks (lex 0 template)) 65535 ∧
      ((∃ out, mysqlSubstituteStmtSql (mysqlRenderDefaultLit x) template params = .ok out) ↔
        params.length = marks (lex 0 template)) ∧
      ∀ out, mysqlSubstituteStmtSql (mysqlRenderDefaultLit x) template params = .ok out →
        ∀ keyword, Keyword keyword → findKeywordTopLevel out keyword =
          (findKeywordTopLevel template keyword).map
            (shift (mysqlRenderDefaultLit x) (lex 0 template) params) := by
  have harity : ∀ out, mysqlSubstituteStmtSql (mysqlRenderDefaultLit x) template params = .ok out →
      params.length = marks (lex 0 template) ∧
        out = fill (mysqlRenderDefaultLit x) (lex 0 template) params := by
    intro out hout
    rw [mysqlSubstituteStmtSql, substituteLoop_eq, filled] at hout
    split at hout
    · cases hout
    · split at hout
      · cases hout
      · exact ⟨by omega, (Except.ok.inj hout).symm⟩
  refine ⟨?_, ⟨fun ⟨out, hout⟩ => (harity out hout).1, fun hlength => ?_⟩, ?_⟩
  · rw [mysqlCountPlaceholders, countLoop_eq 0 template 0 (Nat.zero_le _), Nat.zero_add]
  · exact ⟨_, by rw [mysqlSubstituteStmtSql, substituteLoop_eq, filled, if_neg (by omega),
      if_neg (by omega)]⟩
  · intro out hout keyword hkeyword
    obtain ⟨hlength, rfl⟩ := harity out hout
    have hfits : Fits (mysqlRenderDefaultLit x) 0 template params :=
      ⟨hbytes, hapart, fun lit hlit => (hplain lit hlit).literal, hlength⟩
    unfold findKeywordTopLevel
    by_cases hne : keyword = []
    · rw [if_pos hne, if_pos hne]
      rfl
    · rw [if_neg hne, if_neg hne]
      exact hfits.findLoop_eq hkeyword hne (by simp [Unescaped]) (by simp [Unescaped]) (.inl rfl)

def pageTemplate : Bytes := utf8 "SELECT id FROM orders WHERE note = ? LIMIT ?".toList

/-- A value that looks like another clause. -/
def pageParams : List Lit := [.str "it's a LIMIT", .i64 (-5)]

theorem prepared_page_limit : ∃ out,
    mysqlSubstituteStmtSql (mysqlRenderDefaultLit ordersSql) pageTemplate pageParams = .ok out ∧
      findKeywordTopLevel out (utf8 "limit".toList) = some 51 := by
  have hplain : ∀ lit ∈ pageParams, PlainValue lit := by
    intro lit hlit
    rcases List.mem_pair.mp hlit with rfl | rfl
    · change '\\' ∉ _
      decide
    · trivial
  obtain ⟨-, harity, hfind⟩ := prepared_values_stay_values ordersSql pageTemplate pageParams
    (by decide +kernel) (by decide +kernel) hplain
  obtain ⟨out, hout⟩ := harity.mpr (by decide +kernel)
  have hkeyword : Keyword (utf8 "limit".toList) := keyword_of_letters (by decide +kernel)
  have htemplate : findKeywordTopLevel pageTemplate (utf8 "limit".toList) = some 37 := by
    decide +kernel
  have hshift : shift (mysqlRenderDefaultLit ordersSql) (lex 0 pageTemplate) pageParams 37 = 51 := by
    decide +kernel
  have hpage := hfind out hout _ hkeyword
  rw [htemplate, Option.map_some, hshift] at hpage
  exact ⟨out, hout, hpage⟩

theorem findLoop_open (ws : Bytes) (hws : 39 ∉ ws) : findLoop needle 39 depth before ws = none := by
  have hpass := @findLoop_passes needle before [] 39 depth (by decide) ws hws
  rw [List.append_nil] at hpass
  rw [hpass]
  simp [findLoop]

/-- A quote behind an odd number of backslashes does not close. -/
theorem findLoop_escaped (h : mysqlIsBackslashEscaped before = true) (hrest : rest ≠ []) :
    findLoop needle 39 depth before (39 :: rest) =
      (findLoop needle 39 depth (39 :: before) rest).map (· + 1) := by
  obtain ⟨c, rest, rfl⟩ := List.exists_cons_of_ne_nil hrest
  rw [findLoop.eq_def]
  simp [mysqlIsDoubledSingleQuote, h]

theorem escaped_replicate (h : Unescaped before) (n : ℕ) :
    mysqlIsBackslashEscaped (List.replicate n 92 ++ before) = (n % 2 == 1) := by
  have hbefore : before.takeWhile (· == 92) = [] := by
    cases before with
    | nil => rfl
    | cons b before =>
      have hb : b ≠ 92 := fun hb => h (by rw [hb]; rfl)
      simp [hb]
  rw [mysqlIsBackslashEscaped, List.takeWhile_append_of_pos (by simp [List.mem_replicate]), hbefore]
  simp

theorem lower_letter {k : UInt8} (hk : (97 ≤ k ∧ k ≤ 122) ∨ k = 32) : lowerByte k = k := by
  unfold lowerByte
  rcases hk with ⟨hlow, -⟩ | rfl
  · have hlt : ¬k ≤ 90 := UInt8.not_le.mpr
      (UInt8.lt_of_lt_of_le (by decide : (90 : UInt8) < 97) hlow)
    simp [hlt]
  · rfl

/-- A keyword behind a blank. -/
theorem findLoop_behind (hneedle : Keyword needle) (hne : needle ≠ []) :
    findLoop needle 0 0 before (32 :: needle) = some 1 := by
  have hlower : needle.map lowerByte = needle :=
    (List.map_congr_left fun k hk => lower_letter (hneedle.bytes k hk)).trans (List.map_id _)
  obtain ⟨k, ks, rfl⟩ := List.exists_cons_of_ne_nil hne
  have hk := hneedle.bytes k List.mem_cons_self
  obtain ⟨hopens, -, hleft, hright⟩ := @letter_plain k (by rwa [lower_letter hk])
  have hblank : ¬(0 = 0 ∧ StandsAt (k :: ks) (before.head?.map lowerByte)
      ((32 :: k :: ks).map lowerByte)) := by
    rintro ⟨-, hfront, -⟩
    obtain rfl : k = 32 := (List.cons_prefix_cons.mp hfront).1
    exact absurd (hneedle.first 32 rfl) (by decide)
  have hstands : 0 = 0 ∧ StandsAt (k :: ks) (((32 :: before).head?).map lowerByte)
      ((k :: ks).map lowerByte) := by
    rw [hlower]
    exact ⟨rfl, List.prefix_rfl, by simp [lowerByte, isSqlIdentChar], by simp⟩
  rw [findLoop_passed (by decide) (by decide) hblank,
    findLoop_stands hopens (not_or.mpr ⟨hleft, hright⟩) hstands]
  rfl

/-- Backslashes at the end of a string hide the end of its text if their number is odd, and only
then. -/
theorem findLoop_slashes {u : List Char} (hu : '\\' ∉ u) (n : ℕ) (hneedle : Keyword needle)
    (hne : needle ≠ []) :
    findLoop needle 0 0 before
        (39 :: utf8 (doubleQuotes (u ++ List.replicate n '\\')) ++ [39] ++ 32 :: needle) =
      if n % 2 = 1 then none
      else some ((utf8 (doubleQuotes (u ++ List.replicate n '\\'))).length + 3) := by
  have hopen : (39 : UInt8) ∉ 32 :: needle := by
    intro hmem
    rcases List.mem_cons.mp hmem with hblank | hmem
    · exact absurd hblank (by decide)
    · exact letter_ne (hneedle.bytes 39 hmem) (by decide) rfl
  have hslash : String.utf8EncodeChar '\\' = [92] := by decide
  have hslashes : ∀ m, utf8 (doubleQuotes (List.replicate m '\\')) = List.replicate m 92 := by
    intro m
    induction m with
    | zero => rfl
    | succ m ih =>
      rw [List.replicate_succ, doubleQuotes_cons (by decide), utf8_cons, hslash, ih]
      rfl
  have htext : utf8 (doubleQuotes (u ++ List.replicate n '\\')) =
      utf8 (doubleQuotes u) ++ List.replicate n 92 := by
    rw [← hslashes n]
    simp [doubleQuotes]
  obtain ⟨hfind, hnext⟩ := @findLoop_body needle (39 :: before)
    (List.replicate n 92 ++ 39 :: 32 :: needle) 0 u hu (unescaped_cons (by decide) before)
  have hescaped := escaped_replicate hnext n
  rw [htext, List.append_assoc, List.cons_append, List.append_assoc, findLoop_opened (by decide)]
  simp only [List.cons_append, List.nil_append]
  rw [hfind, findLoop_passes (by decide) _ (by simp [List.mem_replicate]), List.reverse_replicate]
  split_ifs with hodd
  · rw [findLoop_escaped (by rw [hescaped]; simpa using hodd) (by simp), findLoop_open _ hopen]
    rfl
  · rw [findLoop_closed (by rw [hescaped]; simpa using hodd) (by decide) (by simp),
      findLoop_behind hneedle hne]
    simp only [Option.map_some, List.length_append, List.length_replicate, Option.some.injEq]
    omega

/-- The text of a string is read as the string, and the statement goes on behind it, as long as
the string has no backslash. With one before its last character it is read as another string, and
with an odd number of them, all at its end, the end of the text is not found. -/
theorem literal_faithful_iff (v : String) (needle : Bytes) (hneedle : Keyword needle)
    (hne : needle ≠ []) :
    ((parseSqlStringLiteral (quoted v).toList = some v.toList ∧
      findKeywordTopLevel (utf8 (quoted v).toList ++ 32 :: needle) needle =
        some ((utf8 (quoted v).toList).length + 1)) ↔ '\\' ∉ v.toList) ∧
    ('\\' ∈ v.toList.dropLast → parseSqlStringLiteral (quoted v).toList ≠ some v.toList) ∧
    ∀ u n, '\\' ∉ u → v.toList = u ++ List.replicate n '\\' →
      findKeywordTopLevel (utf8 (quoted v).toList ++ 32 :: needle) needle =
        if n % 2 = 1 then none else some ((utf8 (quoted v).toList).length + 1) := by
  have hparse : parseSqlStringLiteral (quoted v).toList =
      some (mysqlUnescapeStringBody '\'' (doubleQuotes v.toList)) := by
    rw [quoted_toList]
    simp [parseSqlStringLiteral]
  have hinner : ∀ u w, v.toList = u ++ '\\' :: w → '\\' ∉ u → w ≠ [] →
      parseSqlStringLiteral (quoted v).toList ≠ some v.toList := by
    intro u w hv hu hw hread
    rw [hparse, hv] at hread
    exact unescape_ne hu hw (Option.some.inj hread)
  have hends : ∀ u n, '\\' ∉ u → v.toList = u ++ List.replicate n '\\' →
      findKeywordTopLevel (utf8 (quoted v).toList ++ 32 :: needle) needle =
        if n % 2 = 1 then none else some ((utf8 (quoted v).toList).length + 1) := by
    intro u n hu hv
    rw [findKeywordTopLevel, if_neg hne, utf8_quoted, hv, findLoop_slashes hu n hneedle hne]
    simp
  refine ⟨⟨?_, ?_⟩, ?_, hends⟩
  · rintro ⟨hread, hfind⟩ hslash
    obtain ⟨u, w, hv, hu⟩ := List.eq_append_cons_of_mem hslash
    by_cases hw : w = []
    · rw [hends u 1 hu (by rw [hv, hw]; rfl), if_pos rfl] at hfind
      cases hfind
    · exact hinner u w hv hu hw hread
  · intro hslash
    constructor
    · have hread := unescape_plain hslash []
      simp only [List.append_nil, mysqlUnescapeStringBody] at hread
      rw [hparse, hread]
    · simpa using hends v.toList 0 hslash (by simp)
  · intro hslash
    rcases List.eq_nil_or_concat' v.toList with hnil | ⟨init, c, hinit⟩
    · simp [hnil] at hslash
    · rw [hinit, List.dropLast_concat] at hslash
      obtain ⟨u, w, hv, hu⟩ := List.eq_append_cons_of_mem hslash
      exact hinner u (w ++ [c]) (by rw [hinit, hv]; simp) hu (by simp)

theorem literal_faithful_quote : '\\' ∉ "it's".toList ∧
    findKeywordTopLevel (utf8 (quoted "it's").toList ++ 32 :: utf8 "where".toList)
      (utf8 "where".toList) = some 8 ∧
    findKeywordTopLevel (utf8 (quoted "C:\\").toList ++ 32 :: utf8 "where".toList)
      (utf8 "where".toList) = none := by
  have hslash : '\\' ∉ "it's".toList := by decide
  have hkeyword : Keyword (utf8 "where".toList) := keyword_of_letters (by decide +kernel)
  have hlength : (utf8 (quoted "it's").toList).length = 7 := by decide +kernel
  have hfind := ((literal_faithful_iff "it's" _ hkeyword (by decide)).1.mpr hslash).2
  have hends := (literal_faithful_iff "C:\\" _ hkeyword (by decide)).2.2
  rw [hlength] at hfind
  exact ⟨hslash, hfind, hends ['C', ':'] 1 (by decide) rfl⟩

end Prepared

end SkeinDB.Sessions
