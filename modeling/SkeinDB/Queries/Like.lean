import Mathlib.Data.List.GetD
import Mathlib.Data.List.TakeWhile
import SkeinDB.Text.Utf8
import SkeinDB.Text.Wildcards

/-!
# LIKE

`like_pattern_matches` of `skeindb/src/engine.rs`: a loop over the bytes of a subject and a pattern
that goes back to the last `%` when it gets stuck. It compares bytes, and it takes a `%` of the
pattern for a literal where the subject has one too.
-/
namespace SkeinDB.Queries
open SkeinDB.Codec SkeinDB.Text

section Matcher

/-- `_` -/
def oneByte : UInt8 := 0x5F

/-- `%` -/
def anyByte : UInt8 := 0x25

structure LikeState where
  si : ℕ
  pi : ℕ
  starPi : Option ℕ
  starSi : ℕ

/-- The loop; `none` when it still runs after the fuel is used up. -/
def likeLoop (subject pattern : Bytes) : (fuel : ℕ) → LikeState → Option Bool
  | 0, _ => none
  | fuel + 1, st =>
    if st.si < subject.length then
      if st.pi < pattern.length ∧ (pattern.getD st.pi 0 = oneByte ∨
          pattern.getD st.pi 0 = subject.getD st.si 0) then
        likeLoop subject pattern fuel { st with si := st.si + 1, pi := st.pi + 1 }
      else if st.pi < pattern.length ∧ pattern.getD st.pi 0 = anyByte then
        likeLoop subject pattern fuel
          { st with starPi := some st.pi, pi := st.pi + 1, starSi := st.si }
      else match st.starPi with
        | some savedPi =>
          likeLoop subject pattern fuel
            { st with pi := savedPi + 1, starSi := st.starSi + 1, si := st.starSi + 1 }
        | none => some false
    else
      let trailing := (pattern.drop st.pi).takeWhile (· = anyByte)
      some (st.pi + trailing.length = pattern.length)

/-- More rounds than the loop can make. -/
def likeFuel (subject pattern : Bytes) : ℕ := (subject.length + 2) * (pattern.length + 1)

def likePatternMatches (subject pattern : String) (caseInsensitive : Bool) : Option Bool :=
  let bytes (text : String) : Bytes :=
    utf8 (if caseInsensitive then text.toList.map Char.toLower else text.toList)
  likeLoop (bytes subject) (bytes pattern) (likeFuel (bytes subject) (bytes pattern))
    ⟨0, 0, none, 0⟩

end Matcher

section Loop
variable (subject pattern : Bytes)

/-- Since the last `%` the pattern faced the subject. -/
structure LikeState.Tracks (st : LikeState) : Prop where
  si_le : st.si ≤ subject.length
  pi_le : st.pi ≤ pattern.length
  starSi_le : st.starSi ≤ st.si
  faced : ∀ savedPi, st.starPi = some savedPi → savedPi < pattern.length ∧
    ∃ seg piece, pattern.drop (savedPi + 1) = seg ++ pattern.drop st.pi ∧
      subject.drop st.starSi = piece ++ subject.drop st.si ∧
      List.Forall₂ (Faces oneByte) seg piece

/-- What is left matches from here, or with a later start behind the last `%`. -/
def LikeState.Accepts (st : LikeState) : Prop :=
  NarrowLike oneByte anyByte (pattern.drop st.pi) (subject.drop st.si) ∨
    ∃ savedPi, st.starPi = some savedPi ∧ ∃ w, w <:+ subject.drop (st.starSi + 1) ∧
      NarrowLike oneByte anyByte (pattern.drop (savedPi + 1)) w

/-- It falls with every round. -/
def LikeState.measure (st : LikeState) : ℕ :=
  (subject.length + 1 - st.starSi) * (pattern.length + 1) + (pattern.length - st.pi)

variable {subject pattern} {st : LikeState}

/-- The start of the last `%` may be put off as far as the pattern has come. -/
theorem LikeState.Tracks.later (h : st.Tracks subject pattern) {savedPi : ℕ}
    (hstar : st.starPi = some savedPi) {w : Bytes} (hw : w <:+ subject.drop (st.starSi + 1))
    (hmatch : NarrowLike oneByte anyByte (pattern.drop (savedPi + 1)) w) :
    ∃ w', w' <:+ subject.drop st.si ∧
      NarrowLike oneByte anyByte (pattern.drop st.pi) w' := by
  obtain ⟨-, seg, piece, hseg, hpiece, hfaced⟩ := h.faced savedPi hstar
  rw [hseg] at hmatch
  refine hmatch.ahead hfaced (by decide) ?_
  rw [← hpiece]
  exact hw.trans (by rw [← List.drop_drop]; exact List.drop_suffix _ _)

theorem suffix_drop_cases {w : Bytes} {i : ℕ} (h : w <:+ subject.drop i) :
    w = subject.drop i ∨ w <:+ subject.drop (i + 1) := by
  rcases Nat.lt_or_ge i subject.length with hi | hi
  · rw [List.drop_eq_getElem_cons hi] at h ⊢
    exact List.suffix_cons_iff.mp h
  · left
    rw [List.drop_of_length_le hi] at h ⊢
    exact List.suffix_nil.mp h

/-- At the end of the subject only wildcards may be left of the pattern. -/
theorem LikeState.Tracks.exhausted (h : st.Tracks subject pattern)
    (hsi : ¬ st.si < subject.length) :
    (st.pi + ((pattern.drop st.pi).takeWhile (· = anyByte)).length = pattern.length) ↔
      st.Accepts subject pattern := by
  have hdrop : subject.drop st.si = [] := List.drop_of_length_le (Nat.le_of_not_lt hsi)
  have hall : (st.pi + ((pattern.drop st.pi).takeWhile (· = anyByte)).length = pattern.length) ↔
      ∀ x ∈ pattern.drop st.pi, x = anyByte := by
    have hpi := h.pi_le
    have hprefix := List.takeWhile_prefix (· = anyByte) (l := pattern.drop st.pi)
    have hself : (pattern.drop st.pi).takeWhile (· = anyByte) = pattern.drop st.pi ↔
        ∀ x ∈ pattern.drop st.pi, x = anyByte := by
      simp [List.takeWhile_eq_self_iff]
    rw [← hself]
    constructor
    · intro hlen
      exact hprefix.eq_of_length (by rw [List.length_drop]; omega)
    · intro heq
      rw [heq, List.length_drop]
      omega
  rw [hall, ← @narrowLike_nil _ oneByte, ← hdrop]
  constructor
  · exact Or.inl
  · rintro (hmatch | ⟨savedPi, hstar, w, hw, hmatch⟩)
    · exact hmatch
    · obtain ⟨w', hw', hmatch'⟩ := h.later hstar hw hmatch
      rw [hdrop, List.suffix_nil] at hw'
      rwa [hdrop, ← hw']

section Round
variable (h : st.Tracks subject pattern) (hsi : st.si < subject.length)
include h hsi

theorem LikeState.Tracks.advance (hpi : st.pi < pattern.length)
    (hface : Faces oneByte pattern[st.pi] subject[st.si]) :
    let next := { st with si := st.si + 1, pi := st.pi + 1 }
    next.Tracks subject pattern ∧ next.measure subject pattern < st.measure subject pattern ∧
      (next.Accepts subject pattern ↔ st.Accepts subject pattern) := by
  have hsubject := List.drop_eq_getElem_cons hsi
  have hpattern := List.drop_eq_getElem_cons hpi
  refine ⟨⟨hsi, hpi, h.starSi_le.trans (Nat.le_succ _), ?_⟩, ?_, ?_⟩
  · intro savedPi hstar
    obtain ⟨hsaved, seg, piece, hseg, hpiece, hfaced⟩ := h.faced savedPi hstar
    refine ⟨hsaved, seg ++ [pattern[st.pi]], piece ++ [subject[st.si]], ?_, ?_, ?_⟩
    · rw [hseg, hpattern, List.append_assoc, List.singleton_append]
    · rw [hpiece, hsubject, List.append_assoc, List.singleton_append]
    · exact List.rel_append hfaced (.cons hface .nil)
  · simp only [LikeState.measure]
    omega
  · simp only [LikeState.Accepts]
    rw [hsubject, hpattern]
    refine or_congr ⟨fun hmatch => .face hface hmatch, fun hmatch => ?_⟩ Iff.rfl
    by_cases hany : pattern[st.pi] = anyByte
    · have hsame : subject[st.si] = anyByte := by
        rcases hface with hone | heq
        · rw [hone] at hany
          exact absurd hany (by decide)
        · rw [← heq, hany]
      rw [hany, hsame] at hmatch
      exact hmatch.of_any
    · exact (hmatch.of_cons hany).2

theorem LikeState.Tracks.star (hpi : st.pi < pattern.length) (hany : pattern[st.pi] = anyByte)
    (hface : ¬ Faces oneByte pattern[st.pi] subject[st.si]) :
    let next := { st with starPi := some st.pi, pi := st.pi + 1, starSi := st.si }
    next.Tracks subject pattern ∧ next.measure subject pattern < st.measure subject pattern ∧
      (next.Accepts subject pattern ↔ st.Accepts subject pattern) := by
  have hsubject := List.drop_eq_getElem_cons hsi
  have hpattern := List.drop_eq_getElem_cons hpi
  have hhead : (subject.drop st.si).head? ≠ some anyByte := by
    rw [hsubject, List.head?_cons, ne_eq, Option.some.injEq]
    exact fun heq => hface (Or.inr (hany.trans heq.symm))
  refine ⟨⟨h.si_le, hpi, le_rfl, ?_⟩, ?_, ?_⟩
  · rintro _ ⟨⟩
    exact ⟨hpi, [], [], rfl, rfl, .nil⟩
  · have hle := Nat.mul_le_mul_right (pattern.length + 1)
      (Nat.sub_le_sub_left h.starSi_le (subject.length + 1))
    simp only [LikeState.measure]
    omega
  · constructor
    · intro hnext
      left
      rw [hpattern, hany]
      rcases hnext with hmatch | ⟨_, ⟨⟩, w, hw, hmatch⟩
      · exact hmatch.of_suffix (List.suffix_refl _) hhead
      · refine hmatch.of_suffix (hw.trans ?_) hhead
        rw [← List.drop_drop]
        exact List.drop_suffix _ _
    · intro hold
      obtain ⟨w, hw, hmatch⟩ : ∃ w, w <:+ subject.drop st.si ∧
          NarrowLike oneByte anyByte (pattern.drop st.pi) w := by
        rcases hold with hmatch | ⟨savedPi, hstar, w, hw, hmatch⟩
        · exact ⟨_, List.suffix_refl _, hmatch⟩
        · exact h.later hstar hw hmatch
      rw [hpattern, hany] at hmatch
      obtain ⟨w', hw', hmatch'⟩ := hmatch.exists_suffix
      rcases suffix_drop_cases (hw'.trans hw) with rfl | hlater
      · exact Or.inl hmatch'
      · exact Or.inr ⟨st.pi, rfl, w', hlater, hmatch'⟩

/-- Stuck at a symbol that faces nothing, the loop goes back. -/
theorem LikeState.Tracks.back {savedPi : ℕ} (hstar : st.starPi = some savedPi)
    (hstuck : ¬ NarrowLike oneByte anyByte (pattern.drop st.pi) (subject.drop st.si)) :
    let next := { st with pi := savedPi + 1, starSi := st.starSi + 1, si := st.starSi + 1 }
    next.Tracks subject pattern ∧ next.measure subject pattern < st.measure subject pattern ∧
      (next.Accepts subject pattern ↔ st.Accepts subject pattern) := by
  have hsaved := (h.faced savedPi hstar).1
  have hle := h.starSi_le
  refine ⟨⟨by dsimp only; omega, hsaved, le_rfl, ?_⟩, ?_, ?_⟩
  · intro savedPi' hstar'
    obtain rfl : savedPi = savedPi' := Option.some.inj (hstar.symm.trans hstar')
    exact ⟨hsaved, [], [], rfl, rfl, .nil⟩
  · have hsplit : (subject.length + 1 - st.starSi) * (pattern.length + 1) =
        (subject.length - st.starSi) * (pattern.length + 1) + (pattern.length + 1) := by
      rw [← Nat.succ_mul]
      congr 1
      omega
    simp only [LikeState.measure]
    rw [hsplit, Nat.add_sub_add_right]
    omega
  · constructor
    · rintro (hmatch | ⟨savedPi', hstar', w, hw, hmatch⟩)
      · exact Or.inr ⟨savedPi, hstar, _, List.suffix_refl _, hmatch⟩
      · refine Or.inr ⟨savedPi', hstar', w, hw.trans ?_, hmatch⟩
        rw [← List.drop_drop]
        exact List.drop_suffix _ _
    · rintro (hmatch | ⟨savedPi', hstar', w, hw, hmatch⟩)
      · exact absurd hmatch hstuck
      · obtain rfl : savedPi = savedPi' := Option.some.inj (hstar.symm.trans hstar')
        rcases suffix_drop_cases hw with rfl | hlater
        · exact Or.inl hmatch
        · exact Or.inr ⟨savedPi, hstar, w, hlater, hmatch⟩

end Round

/-- The loop ends, and it has found out whether what is left matches. -/
theorem LikeState.Tracks.likeLoop (h : st.Tracks subject pattern) {fuel : ℕ}
    (hfuel : st.measure subject pattern < fuel) :
    ∃ b, likeLoop subject pattern fuel st = some b ∧ (b = true ↔ st.Accepts subject pattern) := by
  induction fuel generalizing st with
  | zero => omega
  | succ fuel ih =>
    rw [Queries.likeLoop]
    by_cases hsi : st.si < subject.length
    swap
    · rw [if_neg hsi]
      exact ⟨_, rfl, by rw [decide_eq_true_eq]; exact h.exhausted hsi⟩
    rw [if_pos hsi, List.getD_eq_getElem _ _ hsi]
    by_cases hface : st.pi < pattern.length ∧ (pattern.getD st.pi 0 = oneByte ∨
        pattern.getD st.pi 0 = subject[st.si])
    · rw [if_pos hface]
      obtain ⟨hpi, hface⟩ := hface
      rw [List.getD_eq_getElem _ _ hpi] at hface
      obtain ⟨htracks, hless, haccepts⟩ := h.advance hsi hpi hface
      obtain ⟨b, hb, hiff⟩ := ih htracks (by omega)
      exact ⟨b, hb, hiff.trans haccepts⟩
    rw [if_neg hface]
    by_cases hany : st.pi < pattern.length ∧ pattern.getD st.pi 0 = anyByte
    · rw [if_pos hany]
      obtain ⟨hpi, hany⟩ := hany
      rw [List.getD_eq_getElem _ _ hpi] at hface hany
      obtain ⟨htracks, hless, haccepts⟩ := h.star hsi hpi hany fun hf => hface ⟨hpi, hf⟩
      obtain ⟨b, hb, hiff⟩ := ih htracks (by omega)
      exact ⟨b, hb, hiff.trans haccepts⟩
    rw [if_neg hany]
    have hstuck : ¬ NarrowLike oneByte anyByte (pattern.drop st.pi) (subject.drop st.si) := by
      rw [List.drop_eq_getElem_cons hsi]
      intro hmatch
      rcases Nat.lt_or_ge st.pi pattern.length with hpi | hpi
      · rw [List.getD_eq_getElem _ _ hpi] at hface hany
        rw [List.drop_eq_getElem_cons hpi] at hmatch
        exact hface ⟨hpi, (hmatch.of_cons fun heq => hany ⟨hpi, heq⟩).1⟩
      · rw [List.drop_of_length_le hpi] at hmatch
        exact not_narrowLike_nil_cons hmatch
    rcases hstar : st.starPi with _ | savedPi
    · refine ⟨false, rfl, ?_⟩
      simp only [LikeState.Accepts, hstar, hstuck, Bool.false_eq_true, reduceCtorEq, false_and,
        exists_false, or_self]
    · obtain ⟨htracks, hless, haccepts⟩ := h.back hsi hstar hstuck
      obtain ⟨b, hb, hiff⟩ := ih htracks (by omega)
      rw [hstar] at hb
      exact ⟨b, hb, hiff.trans haccepts⟩

theorem likeLoop_start (subject pattern : Bytes) :
    ∃ b, Queries.likeLoop subject pattern (likeFuel subject pattern) ⟨0, 0, none, 0⟩ = some b ∧
      (b = true ↔ NarrowLike oneByte anyByte pattern subject) := by
  have htracks : LikeState.Tracks subject pattern ⟨0, 0, none, 0⟩ :=
    ⟨Nat.zero_le _, Nat.zero_le _, le_rfl, fun _ hstar => by cases hstar⟩
  have hfuel : LikeState.measure subject pattern ⟨0, 0, none, 0⟩ < likeFuel subject pattern := by
    simp only [LikeState.measure, likeFuel, Nat.sub_zero]
    rw [Nat.succ_mul (subject.length + 1)]
    omega
  obtain ⟨b, hb, hiff⟩ := htracks.likeLoop hfuel
  refine ⟨b, hb, hiff.trans ?_⟩
  simp [LikeState.Accepts]

end Loop

section Characters
variable {s p : List Char}

theorem utf8_one : utf8 ('_' :: p) = oneByte :: utf8 p := by
  rw [utf8_cons, utf8EncodeChar_ascii (by decide)]
  rfl

theorem utf8_any : utf8 ('%' :: p) = anyByte :: utf8 p := by
  rw [utf8_cons, utf8EncodeChar_ascii (by decide)]
  rfl

theorem anyByte_mem_utf8 : anyByte ∈ utf8 s ↔ '%' ∈ s :=
  mem_utf8_ascii (d := '%') (by decide)

/-- The bytes of a character that is no wildcard are no wildcards. -/
theorem not_mem_utf8EncodeChar {c : Char} (hone : c ≠ '_') (hany : c ≠ '%') :
    oneByte ∉ String.utf8EncodeChar c ∧ anyByte ∉ String.utf8EncodeChar c :=
  ⟨fun h => hone (eq_of_mem_utf8EncodeChar (d := '_') (by decide) h),
    fun h => hany (eq_of_mem_utf8EncodeChar (d := '%') (by decide) h)⟩

/-- What matches by characters matches by bytes, if `_` meets characters of one byte only. -/
theorem like_utf8 (h : Like '_' '%' p s) (hbytes : (∀ c ∈ s, Ascii c) ∨ '_' ∉ p) :
    Like oneByte anyByte (utf8 p) (utf8 s) := by
  induction h with
  | nil => exact .nil
  | one c _ ih =>
    have hascii := hbytes.resolve_right (by simp)
    rw [utf8_one, utf8_cons, utf8EncodeChar_ascii (hascii c (by simp))]
    exact .one _ (ih (Or.inl fun d hd => hascii d (by simp [hd])))
  | any skip _ ih =>
    rw [utf8_any, utf8_append]
    refine .any _ (ih (hbytes.imp (fun hascii c hc => hascii c (by simp [hc])) fun hone => ?_))
    exact fun hmem => hone (by simp [hmem])
  | @lit x hone hany p t _ ih =>
    obtain ⟨hnone, hnany⟩ := not_mem_utf8EncodeChar hone hany
    rw [utf8_cons, utf8_cons]
    refine (like_append_iff hnone hnany).mpr ⟨_, rfl, ih (hbytes.imp (fun hascii c hc => ?_)
      fun hp hmem => hp (by simp [hmem]))⟩
    exact hascii c (by simp [hc])

/-- The bytes of one-byte characters never continue a character. -/
theorem cut_eq_nil {cut : Bytes} {more : List Char} (hascii : ∀ c ∈ s, Ascii c)
    (hcut : ∀ b ∈ cut, Continues b) (h : cut ++ utf8 more <:+ utf8 s) : cut = [] := by
  rcases cut with _ | ⟨b, cut⟩
  · rfl
  · obtain ⟨c, hc, hb⟩ := List.mem_flatMap.mp (h.subset (by simp) : b ∈ utf8 s)
    obtain ⟨b', tail, hencode, hfirst, -⟩ := utf8EncodeChar_cons c
    rw [utf8EncodeChar_ascii (hascii c hc)] at hb hencode
    obtain ⟨rfl, -⟩ := List.cons.inj hencode
    rw [List.mem_singleton.mp hb] at hcut
    exact absurd (hcut _ (by simp)) hfirst

/-- What matches by bytes matches by characters, also behind a character that is cut. -/
theorem like_of_utf8 {cut : Bytes} (hcut : ∀ b ∈ cut, Continues b)
    (hbytes : (cut = [] ∧ ∀ c ∈ s, Ascii c) ∨ '_' ∉ p)
    (h : Like oneByte anyByte (utf8 p) (cut ++ utf8 s)) : Like '_' '%' p s := by
  induction p generalizing cut s with
  | nil =>
    have hnil := (List.append_eq_nil_iff.mp h.of_nil).2
    have hlen := length_le_utf8 s
    rw [hnil, List.length_nil, Nat.le_zero, List.length_eq_zero_iff] at hlen
    rw [hlen]
    exact .nil
  | cons x p ih =>
    by_cases hany : x = '%'
    · subst hany
      rw [utf8_any] at h
      obtain ⟨w, ⟨skip, hskip⟩, hmatch⟩ := h.exists_suffix (by decide)
      have hrest : '_' ∉ '%' :: p → '_' ∉ p := fun hp hmem => hp (by simp [hmem])
      rw [List.append_eq_append_iff] at hskip
      rcases hskip with ⟨cut', rfl, rfl⟩ | ⟨skip', -, hsuffix⟩
      · refine (ih (fun b hb => hcut b (by simp [hb])) (hbytes.imp ?_ hrest) hmatch).of_suffix
          (List.suffix_refl _)
        exact fun hascii => ⟨(List.append_eq_nil_iff.mp hascii.1).2, hascii.2⟩
      · obtain ⟨cut', more, rfl, hcut', hmore⟩ := utf8_suffix ⟨skip', hsuffix.symm⟩
        refine (ih hcut' (hbytes.imp (fun hascii => ⟨?_, ?_⟩) hrest) hmatch).of_suffix hmore
        · exact cut_eq_nil hascii.2 hcut' ⟨skip', hsuffix.symm⟩
        · exact fun c hc => hascii.2 c (hmore.subset hc)
    · by_cases hone : x = '_'
      · subst hone
        obtain ⟨rfl, hascii⟩ := hbytes.resolve_right (by simp)
        rw [utf8_one, List.nil_append] at h
        obtain ⟨b, t, hs, hmatch⟩ := h.of_one (by decide)
        rcases s with _ | ⟨c, s⟩
        · cases hs
        · rw [utf8_cons, utf8EncodeChar_ascii (hascii c (by simp))] at hs
          obtain ⟨-, rfl⟩ := List.cons.inj hs
          have hascii' : ∀ d ∈ s, Ascii d := fun d hd => hascii d (by simp [hd])
          exact .one c (ih (List.forall_mem_nil _) (Or.inl ⟨rfl, hascii'⟩) hmatch)
      · obtain ⟨hnone, hnany⟩ := not_mem_utf8EncodeChar hone hany
        rw [utf8_cons] at h
        obtain ⟨t, ht, hmatch⟩ := (like_append_iff hnone hnany).mp h
        rcases cut with _ | ⟨b, cut⟩
        · obtain ⟨more, rfl, rfl⟩ := utf8_head_eq ht.symm
          refine .lit hone hany (ih (List.forall_mem_nil _) (hbytes.imp (fun hascii => ⟨rfl, ?_⟩)
            fun hp hmem => hp (by simp [hmem])) hmatch)
          exact fun c hc => hascii.2 c (by simp [hc])
        · obtain ⟨b', tail, hencode, hfirst, -⟩ := utf8EncodeChar_cons x
          rw [hencode] at ht
          obtain ⟨rfl, -⟩ := List.cons.inj ht
          exact absurd (hcut b (by simp)) hfirst

end Characters

section Agreement
variable {subject pattern : String}

/-- The matcher accepts a subject exactly if it is in the language of the pattern. -/
def MeetsLike (subject pattern : String) : Prop :=
  likePatternMatches subject pattern false = some true ↔
    Like '_' '%' pattern.toList subject.toList

/-- The bytes of a subject in the narrower language of the bytes of a pattern, where `_` takes a
byte, and `%` before a `%` of the subject just that. -/
def NarrowBytes (subject pattern : List Char) : Prop :=
  NarrowLike oneByte anyByte (utf8 pattern) (utf8 subject)

theorem likePatternMatches_spec (subject pattern : String) :
    ∃ b, likePatternMatches subject pattern false = some b ∧
      (b = true ↔ NarrowBytes subject.toList pattern.toList) :=
  likeLoop_start _ _

theorem meetsLike_iff : MeetsLike subject pattern ↔
    (Like '_' '%' pattern.toList subject.toList ↔
      NarrowBytes subject.toList pattern.toList) := by
  obtain ⟨b, hb, hiff⟩ := likePatternMatches_spec subject pattern
  rw [MeetsLike, hb, Option.some.injEq, hiff]
  exact Iff.comm

/-- Without `%` in the subject, bytes do for characters of one byte or patterns without `_`. -/
theorem meetsLike_of_plain (hany : '%' ∉ subject.toList)
    (hbytes : (∀ c ∈ subject.toList, Ascii c) ∨ '_' ∉ pattern.toList) :
    MeetsLike subject pattern := by
  rw [meetsLike_iff]
  constructor
  · intro h
    exact (like_utf8 h hbytes).narrow fun hmem => hany (anyByte_mem_utf8.mp hmem)
  · intro h
    exact like_of_utf8 (List.forall_mem_nil _) (hbytes.imp (fun hascii => ⟨rfl, hascii⟩) id) h.like

theorem utf8_ones (k : ℕ) : utf8 (List.replicate k '_') = List.replicate k oneByte := by
  induction k with
  | zero => rfl
  | succ k ih => rw [List.replicate_succ, utf8_one, ih, List.replicate_succ]

/-- The pattern is as many `_` as the subject has characters. -/
theorem ascii_of_meetsLike
    (h : MeetsLike subject (.ofList (List.replicate subject.toList.length '_'))) :
    ∀ c ∈ subject.toList, Ascii c := by
  rw [meetsLike_iff, String.toList_ofList, NarrowBytes, utf8_ones,
    narrowLike_ones (by decide)] at h
  exact utf8_length_eq_iff.mp (h.mp (like_ones _))

/-- The pattern for an ASCII subject `u%v` is `u`, a `%`, and `_` for every character from the `%`
of the subject on. The matcher takes the one `%` for the other and has nothing left for the last
`_`. -/
theorem not_mem_of_meetsLike (hascii : ∀ c ∈ subject.toList, Ascii c)
    (h : ∀ pattern, MeetsLike subject pattern) : '%' ∉ subject.toList := by
  intro hmem
  obtain ⟨u, v, hsubject, hu⟩ := List.eq_append_cons_of_mem hmem
  have hmeets := meetsLike_iff.mp
    (h (.ofList (u ++ '%' :: List.replicate ('%' :: v).length '_')))
  rw [String.toList_ofList, hsubject] at hmeets
  have hnarrow := hmeets.mp (like_self_append hu (.any [] (like_ones ('%' :: v))))
  rw [NarrowBytes, utf8_append, utf8_append, utf8_any, utf8_any, utf8_ones] at hnarrow
  have hlen := (narrowLike_ones (by decide)).mp
    (hnarrow.of_append (fun hmem' => hu (anyByte_mem_utf8.mp hmem')) rfl).of_any
  have hv : (utf8 v).length = v.length :=
    utf8_length_eq_iff.mpr fun c hc => hascii c (by simp [hsubject, hc])
  rw [hv, List.length_cons] at hlen
  omega

end Agreement

/-- The loop ends on all inputs. It is right about a subject and a pattern exactly if the language
of the pattern and the narrower language of its bytes agree on the subject. They do so if there is
no `%` in the subject, and characters of one byte only or no `_` in the pattern; they agree for
every pattern exactly if the subject has one-byte characters other than `%` only. -/
theorem like_pattern_matches_iff (subject pattern : String) (caseInsensitive : Bool) :
    likePatternMatches subject pattern caseInsensitive ≠ none ∧
      (MeetsLike subject pattern ↔ (Like '_' '%' pattern.toList subject.toList ↔
        NarrowBytes subject.toList pattern.toList)) ∧
      ('%' ∉ subject.toList → (∀ c ∈ subject.toList, Ascii c) ∨ '_' ∉ pattern.toList →
        MeetsLike subject pattern) ∧
      ((∀ every, MeetsLike subject every) ↔ ∀ c ∈ subject.toList, Ascii c ∧ c ≠ '%') := by
  refine ⟨?_, meetsLike_iff, meetsLike_of_plain, fun h => ?_, fun h every => ?_⟩
  · obtain ⟨b, hb, -⟩ := likeLoop_start
      (utf8 (if caseInsensitive then subject.toList.map Char.toLower else subject.toList))
      (utf8 (if caseInsensitive then pattern.toList.map Char.toLower else pattern.toList))
    exact ne_of_eq_of_ne hb (by simp)
  · have hascii := ascii_of_meetsLike (h _)
    have hany := not_mem_of_meetsLike hascii h
    exact fun c hc => ⟨hascii c hc, fun heq => hany (heq ▸ hc)⟩
  · exact meetsLike_of_plain (fun hmem => (h _ hmem).2 rfl) (Or.inl fun c hc => (h c hc).1)

theorem like_pattern_matches_iff_sample :
    MeetsLike "banana" "b%na" ∧ ¬ ∀ every, MeetsLike "50%" every := by
  refine ⟨(like_pattern_matches_iff "banana" "b%na" false).2.2.1 (by decide)
    (Or.inr (by decide)), fun h => ?_⟩
  exact ((like_pattern_matches_iff "50%" "" false).2.2.2.mp h '%' (by decide)).2 rfl

/-- `%` matches every text, but the matcher does not find that it matches `%x`. A letter of two
bytes is not taken by one `_`. -/
theorem percent_taken_for_a_literal : ¬ MeetsLike "%x" "%" ∧ ¬ MeetsLike "é" "_" := by
  constructor
  · intro h
    have hfalse : likePatternMatches "%x" "%" false = some false := by decide
    rw [MeetsLike, hfalse] at h
    exact absurd (h.mpr (.any ['%', 'x'] .nil)) (by decide)
  · intro h
    have hfalse : likePatternMatches "é" "_" false = some false := by decide
    rw [MeetsLike, hfalse] at h
    exact absurd (h.mpr (.one 'é' .nil)) (by decide)

end SkeinDB.Queries
