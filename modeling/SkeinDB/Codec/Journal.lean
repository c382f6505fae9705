import SkeinDB.Codec.Stream

/-!
# Snapshots and journals

A journal is a file to which records are appended and at whose end a crash may leave the first
bytes of one more. A snapshot holds the records up to some point, perhaps without the oldest, and
the journal those from that point or from earlier on: the two together are read back as one
history, in which no record stands twice.
-/
namespace SkeinDB.Codec
variable {α ε : Type*}

namespace StreamCodec

/-- The file holds the records, and behind them at most the first bytes of one more. -/
structure Journal (c : StreamCodec α ε) (file : Bytes) (records : List α) : Prop where
  valid : ∀ a ∈ records, c.Valid a
  bytes : ∃ torn, file = c.encodeAll records ++ torn ∧ (torn = [] ∨ ∃ a m, c.Valid a ∧ 0 < m ∧
    m < (c.encode a).length ∧ torn = (c.encode a).take m)

variable {c : StreamCodec α ε} {file : Bytes} {records : List α} {a : α}

theorem journal_nil : c.Journal [] [] where
  valid _ ha := absurd ha List.not_mem_nil
  bytes := ⟨[], rfl, .inl rfl⟩

theorem Journal.scan (h : c.Journal file records) : (c.scan file).records = records ∧
    ((c.scan file).stopped = none → file = c.encodeAll records) := by
  obtain ⟨torn, rfl, htorn⟩ := h.bytes
  rw [StreamCodec.scan, scanLoop_encodeAll h.valid torn _ le_rfl]
  rcases htorn with rfl | ⟨a, m, hv, hm, hlt, rfl⟩
  · simp
  · have hlen := length_le_encodeAll h.valid
    have hfuel : 0 < (c.encodeAll records ++ (c.encode a).take m).length - records.length := by
      rw [List.length_append, List.length_take]
      omega
    obtain ⟨e, he⟩ := scanLoop_torn hv hm hlt hfuel
    rw [he]
    simp

/-- A record that is written behind a whole one is in the file as soon as all its bytes are. -/
theorem Journal.append (h : c.Journal file records) (hv : c.Valid a) (written : ℕ)
    (hwhole : (c.encode a).take written ≠ [] → (c.scan file).stopped = none) :
    c.Journal (file ++ (c.encode a).take written)
      (records ++ if (c.encode a).length ≤ written then [a] else []) := by
  have hpos := c.encode_pos a hv
  rcases Nat.eq_zero_or_pos written with rfl | hwritten
  · rw [List.take_zero, List.append_nil, if_neg (by omega), List.append_nil]
    exact h
  have hne : (c.encode a).take written ≠ [] := by
    rw [Ne, List.take_eq_nil_iff]
    rintro (hzero | hnil)
    · omega
    · rw [hnil] at hpos
      exact absurd hpos (lt_irrefl 0)
  rw [h.scan.2 (hwhole hne)]
  split
  · rename_i hle
    constructor
    · intro b hb
      rcases List.mem_append.mp hb with hb | hb
      · exact h.valid b hb
      · rwa [List.mem_singleton.mp hb]
    · refine ⟨[], ?_, .inl rfl⟩
      rw [List.take_of_length_le hle, encodeAll_append, encodeAll_cons, encodeAll_nil,
        List.append_nil, List.append_nil]
  · rename_i hlt
    rw [List.append_nil]
    exact ⟨h.valid, _, rfl, .inr ⟨a, written, hv, hwritten, by omega, rfl⟩⟩

/-- What a scan finds behind the first bytes of a record: the record if they are all of it, and a
torn one if they are not. -/
theorem Journal.scan_append (h : c.Journal file records) (hv : c.Valid a) (written : ℕ)
    (hwhole : (c.encode a).take written ≠ [] → (c.scan file).stopped = none) :
    (c.scan (file ++ (c.encode a).take written)).records =
        (c.scan file).records ++ (if (c.encode a).length ≤ written then [a] else []) ∧
      (c.scan (file ++ (c.encode a).take written)).stopped.isSome =
        if written = 0 then (c.scan file).stopped.isSome
        else decide (written < (c.encode a).length) := by
  have hpos := c.encode_pos a hv
  have happend := h.append hv written hwhole
  refine ⟨by rw [happend.scan.1, h.scan.1], ?_⟩
  split_ifs with hzero
  · rw [hzero, List.take_zero, List.append_nil]
  have hne : (c.encode a).take written ≠ [] := by
    rw [← List.length_pos_iff, List.length_take]
    omega
  have hfile := h.scan.2 (hwhole hne)
  rcases Nat.lt_or_ge written (c.encode a).length with hlt | hge
  · rw [decide_eq_true hlt, Option.isSome_iff_ne_none]
    intro hnone
    have hbytes := happend.scan.2 hnone
    rw [if_neg (Nat.not_le.mpr hlt), List.append_nil, ← hfile, List.append_right_eq_self] at hbytes
    exact hne hbytes
  · rw [List.take_of_length_le hge, hfile]
    have hall : c.encodeAll records ++ c.encode a = c.encodeAll (records ++ [a]) := by
      rw [encodeAll_append, encodeAll_cons, encodeAll_nil, List.append_nil]
    have hvalid : ∀ b ∈ records ++ [a], c.Valid b := by
      intro b hb
      rcases List.mem_append.mp hb with hb | hb
      · exact h.valid b hb
      · rwa [List.mem_singleton.mp hb]
    rw [hall, scan_encodeAll hvalid, decide_eq_false (Nat.not_lt.mpr hge)]
    rfl

end StreamCodec

section Merge
variable {seq : α → ℕ} {history : List α}

/-- The snapshot, then the records of the tail that are numbered above its last. -/
def mergeTail (seq : α → ℕ) (snapshot tail : List α) : List α :=
  snapshot ++ tail.filter fun a => (snapshot.getLast?.map seq).getD 0 < seq a

theorem seq_of_numbered (hnum : history.map seq = List.range' 1 history.length) {i : ℕ}
    (hi : i < history.length) : seq (history.get ⟨i, hi⟩) = i + 1 := by
  have hmap : (history.map seq)[i]? = some (seq (history.get ⟨i, hi⟩)) := by simp [hi]
  rw [hnum, List.getElem?_range' (by simpa using hi)] at hmap
  have hseq : seq (history.get ⟨i, hi⟩) = 1 + 1 * i := (Option.some.inj hmap).symm
  omega

theorem numbered_right {first rest : List α}
    (hnum : (first ++ rest).map seq = List.range' 1 (first ++ rest).length) :
    rest.map seq = List.range' (first.length + 1) rest.length := by
  rw [List.map_append, List.length_append, ← List.range'_append_1, Nat.add_comm 1] at hnum
  exact List.append_inj_right hnum (by simp)

theorem numbered_append (hnum : history.map seq = List.range' 1 history.length) {a : α}
    (ha : seq a = history.length + 1) (added : Prop) [Decidable added] :
    (history ++ if added then [a] else []).map seq =
      List.range' 1 (history ++ if added then [a] else []).length := by
  split
  · rw [List.map_append, hnum, List.length_append, List.length_singleton, List.range'_1_concat,
      List.map_singleton, ha, Nat.add_comm 1]
  · rw [List.append_nil]
    exact hnum

theorem pairwise_of_numbered (hnum : history.map seq = List.range' 1 history.length) :
    history.Pairwise fun a b => seq a < seq b := by
  rw [← List.pairwise_map (R := (· < ·)), hnum]
  exact List.pairwise_lt_range'

/-- The snapshot of the first `m` records ends at the number `m`. -/
theorem last_of_numbered (hnum : history.map seq = List.range' 1 history.length) {m cut : ℕ}
    (hm : m ≤ history.length) (hcut : cut ≤ m - 1) :
    ((((history.take m).drop cut).getLast?).map seq).getD 0 = m := by
  rcases Nat.eq_zero_or_pos m with rfl | hpos
  · simp
  · have hlast : ((history.take m).drop cut).getLast? =
        some (history.get ⟨m - 1, by omega⟩) := by
      have hlen : cut + (m - cut - 1) = m - 1 := by omega
      rw [List.getLast?_eq_getElem?, List.length_drop, List.length_take_of_le hm,
        List.getElem?_drop, hlen, List.getElem?_take_of_lt (by omega),
        List.getElem?_eq_getElem (by omega)]
      rfl
    rw [hlast, Option.map_some, Option.getD_some, seq_of_numbered hnum]
    omega

theorem mergeTail_numbered (hnum : history.map seq = List.range' 1 history.length) {m p cut : ℕ}
    (hm : m ≤ history.length) (hp : p ≤ m) (hcut : cut ≤ m - 1) :
    mergeTail seq ((history.take m).drop cut) (history.drop p) = history.drop cut := by
  have hsplit : history.drop p = (history.take m).drop p ++ history.drop m := by
    conv_lhs => rw [← List.take_append_drop m history]
    rw [List.drop_append_of_le_length (by rw [List.length_take_of_le hm]; exact hp)]
  have hlow : ((history.take m).drop p).filter (fun a => decide (m < seq a)) = [] := by
    rw [List.filter_eq_nil_iff]
    intro a ha
    obtain ⟨i, hi, rfl⟩ := List.mem_iff_getElem.mp (List.mem_of_mem_drop ha)
    rw [List.length_take_of_le hm] at hi
    have hseq := seq_of_numbered hnum (i := i) (by omega)
    rw [List.getElem_take]
    rw [List.get_eq_getElem] at hseq
    simp only [hseq, decide_eq_true_eq]
    omega
  have hhigh : (history.drop m).filter (fun a => decide (m < seq a)) = history.drop m := by
    rw [List.filter_eq_self]
    intro a ha
    obtain ⟨i, hi, rfl⟩ := List.mem_iff_getElem.mp ha
    rw [List.length_drop] at hi
    have hseq := seq_of_numbered hnum (i := m + i) (by omega)
    rw [List.getElem_drop]
    rw [List.get_eq_getElem] at hseq
    simp only [hseq, decide_eq_true_eq]
    omega
  rw [mergeTail, last_of_numbered hnum hm hcut, hsplit, List.filter_append, hlow, hhigh,
    List.nil_append, ← List.drop_append_of_le_length (by rw [List.length_take_of_le hm]; omega),
    List.take_append_drop]

end Merge

/-- The snapshot holds the first `m` records of the history but for the oldest `cut m`, and the
journal all that follow them. -/
def Covers (c : StreamCodec α ε) (cut : ℕ → ℕ) (history snapshot : List α) (file : Bytes) : Prop :=
  ∃ m p, p ≤ m ∧ m ≤ history.length ∧ snapshot = (history.take m).drop (cut m) ∧
    c.Journal file (history.drop p)

section Covers
variable {c : StreamCodec α ε} {cut : ℕ → ℕ} {history snapshot : List α} {file : Bytes} {a : α}

theorem covers_nil (hcut : cut 0 = 0) : Covers c cut [] [] [] :=
  ⟨0, 0, le_rfl, le_rfl, by simp [hcut], StreamCodec.journal_nil⟩

theorem Covers.append (h : Covers c cut history snapshot file) (hv : c.Valid a) (written : ℕ)
    (hwhole : (c.encode a).take written ≠ [] → (c.scan file).stopped = none) :
    Covers c cut (history ++ if (c.encode a).length ≤ written then [a] else []) snapshot
      (file ++ (c.encode a).take written) := by
  obtain ⟨m, p, hp, hm, hsnapshot, hfile⟩ := h
  refine ⟨m, p, hp, hm.trans (by rw [List.length_append]; omega), ?_, ?_⟩
  · rw [List.take_append_of_le_length hm]
    exact hsnapshot
  · rw [List.drop_append_of_le_length (hp.trans hm)]
    exact hfile.append hv written hwhole

/-- A new snapshot leaves the journal as it is. -/
theorem Covers.rewrite (h : Covers c cut history snapshot file) :
    Covers c cut history (history.drop (cut history.length)) file := by
  obtain ⟨m, p, hp, hm, -, hfile⟩ := h
  exact ⟨history.length, p, hp.trans hm, le_rfl, by rw [List.take_length], hfile⟩

/-- Without its journal a snapshot of the whole history still holds it. -/
theorem covers_whole : Covers c cut history (history.drop (cut history.length)) [] :=
  ⟨history.length, history.length, le_rfl, le_rfl, by rw [List.take_length],
    by rw [List.drop_length]; exact StreamCodec.journal_nil⟩

theorem Covers.merge {seq : α → ℕ} (h : Covers c cut history snapshot file)
    (hnum : history.map seq = List.range' 1 history.length) (hcut : ∀ m, cut m ≤ m - 1) :
    ∃ m ≤ history.length,
      mergeTail seq snapshot (c.scan file).records = history.drop (cut m) := by
  obtain ⟨m, p, hp, hm, rfl, hfile⟩ := h
  exact ⟨m, hm, by rw [hfile.scan.1]; exact mergeTail_numbered hnum hm hp (hcut m)⟩

end Covers

end SkeinDB.Codec
