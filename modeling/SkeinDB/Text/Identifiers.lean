import Mathlib.Data.List.Induction
import SkeinDB.Text.Utf8

/-!
# Renaming an identifier in a statement

`skeindb/src/server.rs`: the rewriting of common table expressions names the helper table in place
of an identifier. The scanner goes byte by byte through the text, keeps track of quoted regions,
and copies what it does not replace.
-/
namespace SkeinDB.Text
open SkeinDB.Codec

section Definitions

def isSqlIdentChar (b : UInt8) : Bool :=
  (48 ≤ b && b ≤ 57) || (65 ≤ b && b ≤ 90) || (97 ≤ b && b ≤ 122) || b == 95

/-- `b as char`. -/
def byteAsChar (b : UInt8) : Char := .ofNat b.toNat

/-- `needle` stands at the front of `lower`, between bytes that are no part of an identifier. -/
def StandsAt (needle : Bytes) (prev : Option UInt8) (lower : Bytes) : Prop :=
  needle <+: lower ∧ prev.any isSqlIdentChar = false ∧
    (lower.drop needle.length).head?.any isSqlIdentChar = false

instance (needle : Bytes) (prev : Option UInt8) (lower : Bytes) :
    Decidable (StandsAt needle prev lower) := inferInstanceAs (Decidable (_ ∧ _))

/-- The rest of the text and of its lowercase copy, behind the byte `prev` of the copy. The quote
is 0 outside quoted regions. -/
def replaceLoop (needle : Bytes) (newIdent : List Char) : (fuel : ℕ) → (quote : UInt8) →
    (prev : Option UInt8) → (bytes lower : Bytes) → Option (List Char)
  | 0, _, _, _, _ => none
  | _ + 1, _, _, [], _ => some []
  | fuel + 1, quote, prev, b :: rest, lower =>
    let copy := fun quote => (replaceLoop needle newIdent fuel quote lower.head? rest
      lower.tail).map (byteAsChar b :: ·)
    if quote ≠ 0 then
      if b = quote then
        if quote = 39 ∧ rest.head? = some 39 then
          (replaceLoop needle newIdent fuel quote lower.tail.head? rest.tail lower.tail.tail).map
            (byteAsChar b :: byteAsChar 39 :: ·)
        else copy 0
      else copy quote
    else if b = 39 ∨ b = 34 ∨ b = 96 then copy b
    else if StandsAt needle prev lower then
      (replaceLoop needle newIdent fuel 0 (needle.getLast?.or prev)
        ((b :: rest).drop needle.length) (lower.drop needle.length)).map
          ('\x60' :: newIdent ++ '\x60' :: ·)
    else copy 0

/-- `None` stands for a loop that does not end, as one for an empty name may. -/
def mysqlReplaceIdentInSql (sql oldIdent newIdent : String) : Option String :=
  (replaceLoop (utf8 (oldIdent.toList.map Char.toLower)) newIdent.toList
    ((utf8 sql.toList).length + 1) 0 none (utf8 sql.toList)
    (utf8 (sql.toList.map Char.toLower))).map String.ofList

end Definitions

section Pieces

/-- A part of a statement: a character, or an occurrence of the name. -/
inductive Piece
  | kept (c : Char)
  | renamed (found : List Char)
  deriving DecidableEq

def Piece.source : Piece → List Char
  | kept c => [c]
  | renamed found => found

def Piece.render (newIdent : List Char) : Piece → List Char
  | kept c => [c]
  | renamed _ => '\x60' :: newIdent ++ ['\x60']

def isIdentChar (c : Char) : Bool := c.isAlphanum || c == '_'

def IsQuote (c : Char) : Prop := c = '\'' ∨ c = '"' ∨ c = '\x60'

instance (c : Char) : Decidable (IsQuote c) := inferInstanceAs (Decidable (_ ∨ _))

/-- The name stands at the front of the text, whatever the case of its letters, and is not part of
a longer identifier. -/
def Occurs (old : List Char) (prev : Option Char) (text : List Char) : Prop :=
  old.map Char.toLower <+: text.map Char.toLower ∧ prev.any isIdentChar = false ∧
    (text.drop old.length).head?.any isIdentChar = false

instance (old : List Char) (prev : Option Char) (text : List Char) :
    Decidable (Occurs old prev text) := inferInstanceAs (Decidable (_ ∧ _))

/-- The occurrences of a name outside quoted regions, and everything else. A single quote that is
doubled does not end its region. -/
def pieces (old : List Char) : (quote : Option Char) → (prev : Option Char) → List Char →
    List Piece
  | _, _, [] => []
  | some quote, _, c :: rest =>
    if c = quote then
      if quote = '\'' ∧ rest.head? = some '\'' then
        .kept c :: .kept '\'' :: pieces old (some quote) (some '\'') rest.tail
      else .kept c :: pieces old none (some c) rest
    else .kept c :: pieces old (some quote) (some c) rest
  | none, prev, c :: rest =>
    if IsQuote c then .kept c :: pieces old (some c) (some c) rest
    else if Occurs old prev (c :: rest) then
      .renamed ((c :: rest).take old.length) ::
        pieces old none old.getLast? (rest.drop (old.length - 1))
    else .kept c :: pieces old none (some c) rest
termination_by _ _ text => text.length
decreasing_by
  all_goals
    simp only [List.length_cons, List.length_tail, List.length_drop]
    omega

/-- The text in which each occurrence is the new name in backquotes. -/
def renamed (sql oldIdent newIdent : String) : String :=
  .ofList ((pieces oldIdent.toList none none sql.toList).flatMap (Piece.render newIdent.toList))

/-- The pieces make up the text. -/
theorem pieces_source {old : List Char} (hold : old ≠ []) (quote prev : Option Char)
    (text : List Char) : (pieces old quote prev text).flatMap Piece.source = text := by
  have hpos := List.length_pos_iff.mpr hold
  fun_induction pieces old quote prev text with
  | case1 => rfl
  | case2 prev quote rest hdouble ih =>
    obtain ⟨after, rfl⟩ := List.head?_eq_some_iff.mp hdouble.2
    simpa [List.flatMap_cons, Piece.source] using ih
  | case3 prev quote rest hsingle ih => simp [List.flatMap_cons, Piece.source, ih]
  | case4 quote prev c rest hc ih => simp [List.flatMap_cons, Piece.source, ih]
  | case5 prev c rest hc ih => simp [List.flatMap_cons, Piece.source, ih]
  | case6 prev c rest hc hoccurs ih =>
    obtain ⟨n, hn⟩ : ∃ n, old.length = n + 1 := ⟨_, (Nat.succ_pred_eq_of_pos hpos).symm⟩
    rw [List.flatMap_cons, ih, Piece.source, hn, Nat.add_sub_cancel, List.take_succ_cons,
      List.cons_append, List.take_append_drop]
  | case7 prev c rest hc hoccurs ih => simp [List.flatMap_cons, Piece.source, ih]

end Pieces

section Lowercase
variable {c : Char}

theorem toLower_of_not_ascii (h : ¬ Ascii c) : c.toLower = c := by
  refine dif_neg fun hupper => h ?_
  have hle : c.toNat ≤ 90 := UInt32.le_iff_toNat_le.mp hupper.2
  exact Nat.lt_of_le_of_lt hle (by norm_num)

theorem ascii_of_isIdentChar (h : isIdentChar c = true) : Ascii c := by
  have hle : c.toNat ≤ 122 := by
    rcases (Bool.or_eq_true _ _).mp h with hword | hunderscore
    · rcases (Bool.or_eq_true _ _).mp hword with halpha | hdigit
      · rcases (Bool.or_eq_true _ _).mp halpha with hupper | hlower
        · exact (UInt32.le_iff_toNat_le.mp (of_decide_eq_true hupper).2).trans (by decide)
        · exact UInt32.le_iff_toNat_le.mp (of_decide_eq_true (Bool.and_eq_true_iff.mp hlower).2)
      · exact (UInt32.le_iff_toNat_le.mp
          (of_decide_eq_true (Bool.and_eq_true_iff.mp hdigit).2)).trans (by decide)
    · rw [beq_iff_eq.mp hunderscore]
      decide
  exact Nat.lt_of_le_of_lt hle (by norm_num)

theorem not_ident_of_le {b : UInt8} (h : 128 ≤ b.toNat) : isSqlIdentChar b = false := by
  have hall : ∀ n < 256, 128 ≤ n → isSqlIdentChar (.ofNat n) = false := by
    decide +kernel
  have hb := hall b.toNat b.toNat_lt h
  rwa [UInt8.ofNat_toNat] at hb

/-- The bytes of a character, and of its lowercase form: all but the first are in the middle of a
character. -/
theorem exists_bytes (c : Char) : ∃ b b' bytes, String.utf8EncodeChar c = b :: bytes ∧
    String.utf8EncodeChar c.toLower = b' :: bytes ∧
    (∀ x ∈ bytes, Continues x ∧ 128 ≤ x.toNat) ∧ (Ascii c → bytes = [] ∧ b = .ofNat c.toNat) ∧
    (¬ Ascii c → 128 ≤ b.toNat) ∧ ¬ Continues b' ∧ isSqlIdentChar b' = isIdentChar c ∧
    (bytes.getLast?.or (some b')).any isSqlIdentChar = isIdentChar c := by
  by_cases hc : Ascii c
  · have hall : ∀ n < 128, Ascii (Char.ofNat n).toLower ∧
        isSqlIdentChar (.ofNat (Char.ofNat n).toLower.toNat) = isIdentChar (.ofNat n) := by
      decide +kernel
    have hlower := hall c.toNat hc
    rw [Char.ofNat_toNat] at hlower
    obtain ⟨b', bytes, hbytes, hfirst, -⟩ := utf8EncodeChar_cons c.toLower
    have hb' := utf8EncodeChar_ascii hlower.1
    rw [hbytes, List.cons.injEq] at hb'
    refine ⟨_, b', [], utf8EncodeChar_ascii hc, by rw [hbytes, hb'.2], by simp,
      fun _ => ⟨rfl, rfl⟩, fun h => absurd hc h, hfirst, ?_, ?_⟩
    · rw [hb'.1, hlower.2]
    · simp [hb'.1, hlower.2]
  · obtain ⟨b, bytes, hbytes, hfirst, hrest⟩ := utf8EncodeChar_cons c
    have hhigh : ∀ x ∈ b :: bytes, 128 ≤ x.toNat := fun x hx =>
      le_of_mem_utf8EncodeChar hc (hbytes ▸ hx)
    have hident : isIdentChar c = false :=
      Bool.eq_false_iff.mpr fun h => hc (ascii_of_isIdentChar h)
    refine ⟨b, b, bytes, hbytes, by rw [toLower_of_not_ascii hc, hbytes],
      fun x hx => ⟨hrest x hx, hhigh x (List.mem_cons_of_mem b hx)⟩, fun h => absurd h hc,
      fun _ => hhigh b List.mem_cons_self, hfirst, ?_, ?_⟩
    · rw [hident, not_ident_of_le (hhigh b List.mem_cons_self)]
    · rw [hident]
      rcases hlast : bytes.getLast? with _ | x
      · exact not_ident_of_le (hhigh b List.mem_cons_self)
      · exact not_ident_of_le (hhigh x (List.mem_cons_of_mem b (List.mem_of_getLast? hlast)))

theorem length_utf8_toLower (chars : List Char) :
    (utf8 (chars.map Char.toLower)).length = (utf8 chars).length := by
  induction chars with
  | nil => rfl
  | cons c chars ih =>
    obtain ⟨b, b', bytes, hc, hlower, -⟩ := exists_bytes c
    rw [List.map_cons, utf8_cons, utf8_cons, List.length_append, List.length_append, ih, hc, hlower]
    rfl

theorem utf8_prefix_iff {chars more : List Char} : utf8 chars <+: utf8 more ↔ chars <+: more := by
  constructor
  · intro h
    induction chars generalizing more with
    | nil => exact List.nil_prefix
    | cons c chars ih =>
      obtain ⟨rest, hrest⟩ := h
      rw [utf8_cons, List.append_assoc] at hrest
      obtain ⟨after, rfl, hafter⟩ := utf8_head_eq hrest
      exact (List.prefix_cons_inj c).mpr (ih ⟨rest, hafter⟩)
  · rintro ⟨rest, rfl⟩
    rw [utf8_append]
    exact List.prefix_append _ _

theorem head_any (chars : List Char) : (utf8 (chars.map Char.toLower)).head?.any isSqlIdentChar =
    chars.head?.any isIdentChar := by
  rcases chars with _ | ⟨c, chars⟩
  · rfl
  · obtain ⟨b, b', bytes, -, hlower, -, -, -, -, hident, -⟩ := exists_bytes c
    rw [List.map_cons, utf8_cons, hlower]
    exact hident

theorem last_any {chars : List Char} (h : chars ≠ []) (prev : Option UInt8) :
    ((utf8 (chars.map Char.toLower)).getLast?.or prev).any isSqlIdentChar =
      chars.getLast?.any isIdentChar := by
  obtain ⟨init, c, rfl⟩ := (List.eq_nil_or_concat' chars).resolve_left h
  obtain ⟨b, b', bytes, -, hlower, -, -, -, -, -, hident⟩ := exists_bytes c
  rw [List.getLast?_concat, List.map_append, utf8_append, List.map_singleton, utf8_cons, utf8_nil,
    List.append_nil, hlower, Option.any_some, ← hident, List.getLast?_append, List.getLast?_cons]
  rcases bytes.getLast? with _ | x <;> rfl

/-- Behind an occurrence the text and its copy go on with the same characters. -/
theorem drop_occurrence {old text : List Char}
    (h : old.map Char.toLower <+: text.map Char.toLower) :
    (utf8 text).drop (utf8 (old.map Char.toLower)).length = utf8 (text.drop old.length) ∧
      (utf8 (text.map Char.toLower)).drop (utf8 (old.map Char.toLower)).length =
        utf8 ((text.drop old.length).map Char.toLower) := by
  have htake : (text.take old.length).map Char.toLower = old.map Char.toLower := by
    have hprefix := List.prefix_iff_eq_take.mp h
    rw [List.length_map] at hprefix
    rw [List.map_take, ← hprefix]
  have hlen := length_utf8_toLower (text.take old.length)
  rw [htake] at hlen
  have htext := (List.take_append_drop old.length text).symm
  generalize text.take old.length = found at htake hlen htext
  generalize text.drop old.length = after at htext
  subst htext
  constructor
  · rw [hlen, utf8_append, List.drop_left]
  · rw [List.map_append, htake, utf8_append, List.drop_left]

theorem standsAt_iff {old text : List Char} {prev : Option UInt8} {prevChar : Option Char}
    (hprev : prev.any isSqlIdentChar = prevChar.any isIdentChar) :
    StandsAt (utf8 (old.map Char.toLower)) prev (utf8 (text.map Char.toLower)) ↔
      Occurs old prevChar text := by
  rw [StandsAt, Occurs, utf8_prefix_iff, hprev]
  refine and_congr_right fun h => ?_
  rw [(drop_occurrence h).2, head_any]

end Lowercase

section Copying
variable {needle rest lower bytes : Bytes} {newIdent : List Char} {quote : UInt8}

/-- The bytes in the middle of a character are copied. -/
theorem replaceLoop_continues (hneedle : ∀ b, needle.head? = some b → ¬ Continues b)
    (hne : needle ≠ []) (hquote : quote.toNat < 128)
    (hbytes : ∀ b ∈ bytes, Continues b ∧ 128 ≤ b.toNat) (fuel : ℕ) (prev : Option UInt8) :
    replaceLoop needle newIdent (fuel + bytes.length) quote prev (bytes ++ rest)
      (bytes ++ lower) = (replaceLoop needle newIdent fuel quote (bytes.getLast?.or prev) rest
        lower).map (bytes.map byteAsChar ++ ·) := by
  induction bytes generalizing prev with
  | nil => simp
  | cons b bytes ih =>
    obtain ⟨⟨hb, hhigh⟩, hbytes⟩ := List.forall_mem_cons.mp hbytes
    have hplain : ∀ n < 128, b ≠ .ofNat n := by
      rintro n hn rfl
      rw [UInt8.toNat_ofNat', Nat.mod_eq_of_lt (by omega)] at hhigh
      omega
    have hbquote : b ≠ quote := by
      rintro rfl
      omega
    have hstands : ¬ StandsAt needle prev (b :: (bytes ++ lower)) := by
      rintro ⟨⟨after, hafter⟩, -⟩
      rcases needle with _ | ⟨first, needle⟩
      · exact hne rfl
      · exact hneedle first rfl ((List.cons.inj hafter).1 ▸ hb)
    have hcopy : replaceLoop needle newIdent (fuel + (b :: bytes).length) quote prev
        (b :: bytes ++ rest) (b :: bytes ++ lower) =
        (replaceLoop needle newIdent (fuel + bytes.length) quote (some b) (bytes ++ rest)
          (bytes ++ lower)).map (byteAsChar b :: ·) := by
      rw [List.length_cons, ← Nat.add_assoc, List.cons_append, List.cons_append, replaceLoop]
      by_cases hzero : quote = 0
      · rw [if_neg (not_not.mpr hzero), if_neg, if_neg hstands, hzero]
        · rfl
        · rintro (h | h | h)
          · exact hplain 39 (by norm_num) h
          · exact hplain 34 (by norm_num) h
          · exact hplain 96 (by norm_num) h
      · rw [if_pos hzero, if_neg hbquote]
        rfl
    rw [hcopy, ih hbytes, Option.map_map, List.getLast?_cons]
    rcases bytes.getLast? with _ | x <;> rfl

end Copying

section Scanning
variable {old : List Char} {newIdent : List Char} {c d : Char}

/-- What the scanner writes for a piece: for a character, one for each of its bytes. -/
def Piece.renderBytes (newIdent : List Char) : Piece → List Char
  | kept c => (String.utf8EncodeChar c).map byteAsChar
  | renamed _ => '\x60' :: newIdent ++ ['\x60']

def quoteByte (quote : Option Char) : UInt8 := (quote.map fun c => .ofNat c.toNat).getD 0

theorem byte_eq_iff {b : UInt8} {bytes : Bytes} (hd : Ascii d)
    (hc : String.utf8EncodeChar c = b :: bytes) : b = .ofNat d.toNat ↔ c = d := by
  constructor
  · rintro rfl
    have hmem : UInt8.ofNat d.toNat ∈ String.utf8EncodeChar c := hc ▸ List.mem_cons_self
    exact eq_of_mem_utf8EncodeChar hd hmem
  · rintro rfl
    rw [utf8EncodeChar_ascii hd] at hc
    exact (List.cons.inj hc).1.symm

theorem IsQuote.ascii (h : IsQuote c) : Ascii c := by
  rcases h with rfl | rfl | rfl <;> decide

theorem quoteByte_lt {quote : Option Char} (h : ∀ q ∈ quote, IsQuote q) :
    (quoteByte quote).toNat < 128 := by
  rcases quote with _ | q
  · decide
  · rcases h q rfl with rfl | rfl | rfl <;> decide

theorem byte_eq_quote {b : UInt8} {bytes : Bytes} (hd : IsQuote d)
    (hc : String.utf8EncodeChar c = b :: bytes) : b = quoteByte (some d) ↔ c = d :=
  byte_eq_iff hd.ascii hc

theorem isQuote_iff {b : UInt8} {bytes : Bytes} (hc : String.utf8EncodeChar c = b :: bytes) :
    b = 39 ∨ b = 34 ∨ b = 96 ↔ IsQuote c :=
  or_congr (byte_eq_iff (d := '\'') (by decide) hc) (or_congr
    (byte_eq_iff (d := '"') (by decide) hc) (byte_eq_iff (d := '\x60') (by decide) hc))

theorem quoteByte_eq_single (h : IsQuote c) : quoteByte (some c) = 39 ↔ c = '\'' := by
  rcases h with rfl | rfl | rfl <;> decide

theorem head_eq_single (chars : List Char) :
    (utf8 chars).head? = some 39 ↔ chars.head? = some '\'' := by
  rcases chars with _ | ⟨c, chars⟩
  · simp
  · obtain ⟨b, bytes, hc, -⟩ := utf8EncodeChar_cons c
    rw [utf8_cons, hc, List.cons_append, List.head?_cons, List.head?_cons, Option.some_inj,
      Option.some_inj]
    exact byte_eq_iff (d := '\'') (by decide) hc

theorem quoteByte_ne_zero (h : IsQuote c) : quoteByte (some c) ≠ 0 := by
  rcases h with rfl | rfl | rfl <;> decide

/-- One character is copied, and the scanner goes on behind it. -/
theorem replaceLoop_copy (hold : old ≠ []) {quote quote' : Option Char}
    (hquote' : ∀ q ∈ quote', IsQuote q) {text out : List Char} {fuel : ℕ} {prev : Option UInt8}
    (hfuel : (utf8 (c :: text)).length < fuel)
    (hgo : ∀ b bytes fuel, String.utf8EncodeChar c = b :: bytes →
      replaceLoop (utf8 (old.map Char.toLower)) newIdent (fuel + 1) (quoteByte quote) prev
        (b :: (bytes ++ utf8 text)) (utf8 ((c :: text).map Char.toLower)) =
        (replaceLoop (utf8 (old.map Char.toLower)) newIdent fuel (quoteByte quote')
          (utf8 ((c :: text).map Char.toLower)).head? (bytes ++ utf8 text)
          (utf8 ((c :: text).map Char.toLower)).tail).map (byteAsChar b :: ·))
    (hrest : ∀ fuel prev, (utf8 text).length < fuel → prev.any isSqlIdentChar = isIdentChar c →
      replaceLoop (utf8 (old.map Char.toLower)) newIdent fuel (quoteByte quote') prev (utf8 text)
        (utf8 (text.map Char.toLower)) = some out) :
    replaceLoop (utf8 (old.map Char.toLower)) newIdent fuel (quoteByte quote) prev
      (utf8 (c :: text)) (utf8 ((c :: text).map Char.toLower)) =
        some (Piece.renderBytes newIdent (.kept c) ++ out) := by
  obtain ⟨d, old', rfl⟩ := List.exists_cons_of_ne_nil hold
  obtain ⟨-, first, bytes', -, hlower, -, -, -, hfirst, -⟩ := exists_bytes d
  have hneedle : utf8 ((d :: old').map Char.toLower) =
      first :: (bytes' ++ utf8 (old'.map Char.toLower)) := by
    rw [List.map_cons, utf8_cons, hlower, List.cons_append]
  have hhead : ∀ x, (utf8 ((d :: old').map Char.toLower)).head? = some x → ¬ Continues x := by
    intro x hx
    rw [hneedle] at hx
    exact Option.some.inj hx ▸ hfirst
  have hne : utf8 ((d :: old').map Char.toLower) ≠ [] := by
    rw [hneedle]
    exact List.cons_ne_nil _ _
  obtain ⟨b, b', bytes, hc, hlowerc, hbytes, -, -, -, -, hident⟩ := exists_bytes c
  rw [utf8_cons, hc, List.length_append, List.length_cons] at hfuel
  obtain ⟨f, rfl⟩ : ∃ f, fuel = f + bytes.length + 1 := ⟨fuel - bytes.length - 1, by omega⟩
  have hlow : utf8 ((c :: text).map Char.toLower) =
      b' :: (bytes ++ utf8 (text.map Char.toLower)) := by
    rw [List.map_cons, utf8_cons, hlowerc, List.cons_append]
  rw [utf8_cons, hc, List.cons_append, hgo b bytes _ hc, hlow]
  change (replaceLoop _ _ (f + bytes.length) _ (some b') (bytes ++ _) (bytes ++ _)).map _ = _
  rw [replaceLoop_continues hhead hne (quoteByte_lt hquote') hbytes,
    hrest f _ (by omega) hident, Piece.renderBytes, hc]
  rfl

/-- The scanner finds the pieces. -/
theorem replaceLoop_pieces (newIdent : List Char) (hold : old ≠ []) (quote prevChar : Option Char)
    (text : List Char) :
    ∀ (fuel : ℕ) (prev : Option UInt8), (utf8 text).length < fuel → (∀ q ∈ quote, IsQuote q) →
      prev.any isSqlIdentChar = prevChar.any isIdentChar →
      replaceLoop (utf8 (old.map Char.toLower)) newIdent fuel (quoteByte quote) prev (utf8 text)
        (utf8 (text.map Char.toLower)) =
          some ((pieces old quote prevChar text).flatMap (Piece.renderBytes newIdent)) := by
  have hnone : ∀ q ∈ (none : Option Char), IsQuote q := fun q hq => by cases hq
  have hzero : ¬ quoteByte none ≠ 0 := not_not.mpr rfl
  fun_induction pieces old quote prevChar text with
  | case1 quote prevChar =>
    intro fuel prev hfuel hquote hprev
    obtain ⟨fuel, rfl⟩ := Nat.exists_eq_succ_of_ne_zero (Nat.ne_of_gt hfuel)
    rfl
  | case2 prevChar quote rest hdouble ih =>
    intro fuel prev hfuel hquote hprev
    obtain ⟨rfl, hhead⟩ := hdouble
    obtain ⟨after, rfl⟩ := List.head?_eq_some_iff.mp hhead
    have hlong : (utf8 after).length + 2 < fuel := hfuel
    obtain ⟨fuel, rfl⟩ : ∃ k, fuel = k + 1 := ⟨fuel - 1, by omega⟩
    have hrest := ih fuel (some 39) (by rw [List.tail_cons]; omega) hquote rfl
    rw [List.tail_cons] at hrest
    rw [List.flatMap_cons, List.flatMap_cons, List.tail_cons]
    change (replaceLoop _ _ fuel _ (some 39) (utf8 after) (utf8 (after.map Char.toLower))).map _ = _
    rw [hrest]
    rfl
  | case3 prevChar quote rest hsingle ih =>
    intro fuel prev hfuel hquote hprev
    rw [List.flatMap_cons]
    refine replaceLoop_copy hold hnone hfuel (fun b bytes fuel hc => ?_)
      (fun fuel prev hfuel hprev => ih fuel prev hfuel hnone hprev)
    have hq := hquote quote rfl
    have hbytes : bytes = [] := by
      rw [utf8EncodeChar_ascii hq.ascii] at hc
      exact (List.cons.inj hc).2.symm
    rw [replaceLoop, if_pos (quoteByte_ne_zero hq), if_pos ((byte_eq_quote hq hc).mpr rfl),
      if_neg]
    · rfl
    · rwa [hbytes, List.nil_append, quoteByte_eq_single hq, head_eq_single]
  | case4 quote prevChar c rest hc ih =>
    intro fuel prev hfuel hquote hprev
    rw [List.flatMap_cons]
    refine replaceLoop_copy hold hquote hfuel (fun b bytes fuel hbytes => ?_)
      (fun fuel prev hfuel hprev => ih fuel prev hfuel hquote hprev)
    have hq := hquote _ rfl
    rw [replaceLoop, if_pos (quoteByte_ne_zero hq), if_neg (mt (byte_eq_quote hq hbytes).mp hc)]
  | case5 prevChar c rest hc ih =>
    intro fuel prev hfuel hquote hprev
    rw [List.flatMap_cons]
    have hquote' : ∀ q ∈ some c, IsQuote q := fun q hq => Option.some.inj hq ▸ hc
    refine replaceLoop_copy hold hquote' hfuel (fun b bytes fuel hbytes => ?_)
      (fun fuel prev hfuel hprev => ih fuel prev hfuel hquote' hprev)
    have hb := (byte_eq_quote hc hbytes).mpr rfl
    rw [replaceLoop, if_neg hzero, if_pos ((isQuote_iff hbytes).mpr hc), ← hb]
  | case6 prevChar c rest hc hoccurs ih =>
    intro fuel prev hfuel hquote hprev
    obtain ⟨b, bytes, hbytes, -⟩ := utf8EncodeChar_cons c
    obtain ⟨fuel, rfl⟩ : ∃ k, fuel = k + 1 := ⟨fuel - 1, by omega⟩
    have hcons : utf8 (c :: rest) = b :: (bytes ++ utf8 rest) := by
      rw [utf8_cons, hbytes, List.cons_append]
    obtain ⟨hdrop, hlow⟩ := drop_occurrence hoccurs.1
    obtain ⟨n, hn⟩ : ∃ n, old.length = n + 1 :=
      Nat.exists_eq_succ_of_ne_zero (List.length_pos_iff.mpr hold).ne'
    rw [hn, List.drop_succ_cons] at hdrop hlow
    have hshort : (utf8 (rest.drop n)).length < fuel := by
      have hpos : old.length ≤ (utf8 (old.map Char.toLower)).length := by
        rw [length_utf8_toLower]
        exact length_le_utf8 old
      have hsome : 0 < (utf8 (c :: rest)).length := by
        rw [hcons]
        exact Nat.succ_pos _
      rw [← hdrop, List.length_drop]
      omega
    rw [hn, Nat.add_sub_cancel] at ih
    have hrest := ih fuel _ hshort hnone (last_any hold prev)
    rw [List.flatMap_cons, hn, Nat.add_sub_cancel, hcons, replaceLoop, if_neg hzero,
      if_neg (mt (isQuote_iff hbytes).mp hc), if_pos ((standsAt_iff hprev).mpr hoccurs), ← hcons,
      hdrop, hlow]
    change Option.map _ (replaceLoop _ _ fuel (quoteByte none) _ _ _) = _
    rw [hrest, Option.map_some, Piece.renderBytes, List.append_assoc]
    rfl
  | case7 prevChar c rest hc hoccurs ih =>
    intro fuel prev hfuel hquote hprev
    rw [List.flatMap_cons]
    refine replaceLoop_copy hold hnone hfuel (fun b bytes fuel hbytes => ?_)
      (fun fuel prev hfuel hprev => ih fuel prev hfuel hnone hprev)
    rw [replaceLoop, if_neg hzero, if_neg (mt (isQuote_iff hbytes).mp hc),
      if_neg (mt (standsAt_iff hprev).mp hoccurs)]
    rfl

theorem length_render_le (newIdent : List Char) (ps : List Piece) :
    (ps.flatMap (Piece.render newIdent)).length ≤ (ps.flatMap (Piece.renderBytes newIdent)).length := by
  induction ps with
  | nil => rfl
  | cons p ps ih =>
    rw [List.flatMap_cons, List.flatMap_cons, List.length_append, List.length_append]
    refine Nat.add_le_add ?_ ih
    cases p with
    | kept c =>
      rw [Piece.renderBytes, List.length_map, String.length_utf8EncodeChar]
      exact c.utf8Size_pos
    | renamed found => rfl

theorem length_render_eq_iff (ps : List Piece) :
    (ps.flatMap (Piece.renderBytes newIdent)).length =
      (ps.flatMap (Piece.render newIdent)).length ↔ ∀ c, .kept c ∈ ps → Ascii c := by
  induction ps with
  | nil => simp
  | cons p ps ih =>
    have hle := length_render_le newIdent ps
    rw [List.flatMap_cons, List.flatMap_cons, List.length_append, List.length_append]
    cases p with
    | kept c =>
      have hpos := c.utf8Size_pos
      have hcons : (∀ d, Piece.kept d ∈ Piece.kept c :: ps → Ascii d) ↔
          Ascii c ∧ ∀ d, Piece.kept d ∈ ps → Ascii d := by
        simp [or_imp, forall_and]
      rw [hcons, ← ih, ← utf8Size_eq_one, Piece.renderBytes, Piece.render, List.length_map,
        String.length_utf8EncodeChar, List.length_singleton]
      omega
    | renamed found =>
      have hcons : (∀ d, Piece.kept d ∈ Piece.renamed found :: ps → Ascii d) ↔
          ∀ d, Piece.kept d ∈ ps → Ascii d := by
        simp
      rw [hcons, ← ih, Piece.renderBytes, Piece.render, Nat.add_right_inj]

theorem render_eq_iff (ps : List Piece) : ps.flatMap (Piece.renderBytes newIdent) =
    ps.flatMap (Piece.render newIdent) ↔ ∀ c, .kept c ∈ ps → Ascii c := by
  refine ⟨fun h => (length_render_eq_iff ps).mp (congrArg List.length h), fun h => ?_⟩
  refine List.flatMap_congr fun p hp => ?_
  cases p with
  | kept c =>
    have hc := h c hp
    have hall : ∀ n < 128, byteAsChar (.ofNat n) = Char.ofNat n := by decide +kernel
    rw [Piece.renderBytes, Piece.render, utf8EncodeChar_ascii hc, List.map_singleton,
      hall c.toNat hc, Char.ofNat_toNat]
  | renamed found => rfl

/-- The text is renamed as it should be exactly if all characters that are copied are ASCII; the
loop ends for all texts. -/
theorem rename_faithful_iff (sql oldIdent newIdent : String) (hold : oldIdent ≠ "") :
    mysqlReplaceIdentInSql sql oldIdent newIdent ≠ none ∧
      (mysqlReplaceIdentInSql sql oldIdent newIdent = some (renamed sql oldIdent newIdent) ↔
        ∀ c, .kept c ∈ pieces oldIdent.toList none none sql.toList → Ascii c) := by
  have hne : oldIdent.toList ≠ [] := fun h => hold (String.toList_eq_nil_iff.mp h)
  have hloop := replaceLoop_pieces newIdent.toList hne none none sql.toList
    ((utf8 sql.toList).length + 1) none (Nat.lt_succ_self _) (fun q hq => by cases hq) rfl
  rw [mysqlReplaceIdentInSql]
  change Option.map _ (replaceLoop _ _ _ (quoteByte none) _ _ _) ≠ none ∧
    (Option.map _ (replaceLoop _ _ _ (quoteByte none) _ _ _) = _ ↔ _)
  rw [hloop, Option.map_some, renamed, Option.some_inj, String.ofList_inj, render_eq_iff]
  exact ⟨Option.some_ne_none _, Iff.rfl⟩

/-- The name in a string, with a doubled quote, and in a longer identifier is kept. -/
theorem rename_faithful_sample :
    mysqlReplaceIdentInSql "SELECT 't''s', tt FROM T" "t" "_cte_t" =
      some (renamed "SELECT 't''s', tt FROM T" "t" "_cte_t") := by
  refine (rename_faithful_iff _ "t" "_cte_t" (by decide)).2.mpr fun c hc => ?_
  have hsource := pieces_source (by decide : "t".toList ≠ []) none none
    "SELECT 't''s', tt FROM T".toList
  have hmem : c ∈ "SELECT 't''s', tt FROM T".toList := by
    rw [← hsource]
    exact List.mem_flatMap.mpr ⟨_, hc, List.mem_singleton.mpr rfl⟩
  have hascii : ("SELECT 't''s', tt FROM T".toList.all fun c => decide (Ascii c)) = true := by decide
  exact of_decide_eq_true (List.all_eq_true.mp hascii c hmem)

/-- A character of two bytes becomes two characters. -/
theorem rename_corrupts_text :
    mysqlReplaceIdentInSql "'é'" "t" "_cte_t" = some "'Ã©'" ∧ renamed "'é'" "t" "_cte_t" = "'é'" := by
  refine ⟨by decide +kernel, ?_⟩
  have hpieces : pieces ['t'] none none ['\'', 'é', '\''] =
      [.kept '\'', .kept 'é', .kept '\''] := by
    simp [pieces, IsQuote]
  change String.ofList ((pieces ['t'] none none ['\'', 'é', '\'']).flatMap _) = _
  rw [hpieces]
  rfl

end Scanning

end SkeinDB.Text
