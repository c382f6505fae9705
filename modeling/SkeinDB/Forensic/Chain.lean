import SkeinDB.Codec.HashChain
import SkeinDB.Tables.Table

/-!
# The forensic chain

`skeindb/src/engine.rs`: every committed change appends a record that names the hash of the record
before it. The records are also appended to a sidecar file, and from time to time written to a
snapshot; the engine that opens the files reads both.
-/
namespace SkeinDB.Forensic
open SkeinDB.Codec SkeinDB.Tables

/-- What the hash of a record covers, apart from the hash of the record before it. -/
structure ForensicEvent where
  id : ℕ
  tsMs : ℕ
  db : String
  table : String
  op : String
  pk : Option (List Lit)
  changeSeq : ℕ

structure ForensicRecord (Hash : Type) extends ForensicEvent where
  prevHash : Hash
  hash : Hash

/-- The engine's chain, and the files: the snapshot with the number of the next record, and the
records that can be read of the sidecar. Behind a torn record nothing can be read. -/
structure ForensicState (Hash : Type) where
  forensicChain : List (ForensicRecord Hash) := []
  forensicNextId : ℕ := 1
  snapshot : List (ForensicRecord Hash) × ℕ := ([], 1)
  flog : List (ForensicRecord Hash) := []
  torn : Bool := false

variable {Hash : Type} (forensicRecordHash : Hash → ForensicEvent → Hash) (genesis : Hash)

namespace ForensicState

def appendForensicRecord (event : ForensicEvent) (s : ForensicState Hash) : ForensicState Hash :=
  let prevHash := headHash ForensicRecord.hash genesis s.forensicChain
  let event := { event with id := s.forensicNextId }
  let record : ForensicRecord Hash :=
    { event with prevHash, hash := forensicRecordHash prevHash event }
  { s with
    forensicNextId := saturatingSucc s.forensicNextId
    forensicChain := s.forensicChain ++ [record]
    flog := if s.torn then s.flog else s.flog ++ [record] }

def persistForensic (s : ForensicState Hash) : ForensicState Hash :=
  { s with snapshot := (s.forensicChain, s.forensicNextId) }

/-- The sidecar is removed after the snapshot was written. -/
def removeFlog (s : ForensicState Hash) : ForensicState Hash :=
  { s with
    flog := []
    torn := false }

/-- A crash within an append leaves the first bytes of a record. -/
def tearFlog (s : ForensicState Hash) : ForensicState Hash := { s with torn := true }

/-- The step of the loader for one record of the sidecar; the successor of the id wraps. -/
def replayRecord (snapshotMaxId : ℕ) (loaded : List (ForensicRecord Hash) × ℕ)
    (rec : ForensicRecord Hash) : List (ForensicRecord Hash) × ℕ :=
  if snapshotMaxId < rec.id then
    (loaded.1 ++ [rec], max loaded.2 ((rec.id + 1) % (u64Max + 1)))
  else loaded

def loadForensic (s : ForensicState Hash) : ForensicState Hash :=
  let snapshotMaxId := (s.snapshot.1.getLast?.map (·.id)).getD 0
  let loaded := s.flog.foldl (replayRecord snapshotMaxId) (s.snapshot.1, max s.snapshot.2 1)
  { s with forensicChain := loaded.1, forensicNextId := loaded.2 }

end ForensicState

/-- The chains that an engine goes through, with restarts at any point. A compaction writes the
snapshot and removes the sidecar in two steps, so that a crash may fall between them. -/
inductive Reachable : ForensicState Hash → Prop
  | fresh : Reachable {}
  | append {s} (event : ForensicEvent) (h : Reachable s) :
      Reachable (s.appendForensicRecord forensicRecordHash genesis event)
  | persist {s} (h : Reachable s) : Reachable s.persistForensic
  | compact {s} (h : Reachable s) : Reachable s.persistForensic.removeFlog
  | restart {s} (h : Reachable s) : Reachable s.loadForensic
  | crash {s} (h : Reachable s) : Reachable s.tearFlog.loadForensic

/-- The record carries the hash of its own contents. -/
def Sealed (rec : ForensicRecord Hash) : Prop :=
  rec.hash = forensicRecordHash rec.prevHash rec.toForensicEvent

/-- The ids count the records. -/
def Numbered (chain : List (ForensicRecord Hash)) : Prop :=
  ∀ i, ∀ rec ∈ chain[i]?, rec.id = min (i + 1) u64Max

structure WellFormed (chain : List (ForensicRecord Hash)) (nextId : ℕ) : Prop where
  linked : Linked ForensicRecord.prevHash ForensicRecord.hash (Sealed forensicRecordHash) genesis
    chain
  numbered : Numbered chain
  next : nextId = min (chain.length + 1) u64Max

/-- The snapshot is a part of the chain and the sidecar has the rest of it, up to a torn record, as
long as the ids have not run out. -/
structure Invariant (s : ForensicState Hash) : Prop where
  chain : WellFormed forensicRecordHash genesis s.forensicChain s.forensicNextId
  snapshot : WellFormed forensicRecordHash genesis s.snapshot.1 s.snapshot.2
  initial : s.snapshot.1 <+: s.forensicChain
  bounded : ∀ rec ∈ s.flog, rec.id ≤ u64Max
  rest : s.snapshot.1.length < u64Max →
    ∃ k ≤ s.snapshot.1.length, s.flog <+: s.forensicChain.drop k ∧
      (s.torn = false → s.flog = s.forensicChain.drop k)

section Invariant
variable {forensicRecordHash genesis} {s : ForensicState Hash} {chain : List (ForensicRecord Hash)}
  {next : ℕ}

theorem numbered_snoc {rec : ForensicRecord Hash} (h : Numbered chain)
    (hrec : rec.id = min (chain.length + 1) u64Max) : Numbered (chain ++ [rec]) := by
  intro i rec' hrec'
  rcases Nat.lt_trichotomy i chain.length with hi | rfl | hi
  · rw [List.getElem?_append_left hi] at hrec'
    exact h i rec' hrec'
  · rw [List.getElem?_concat_length] at hrec'
    cases hrec'
    exact hrec
  · rw [List.getElem?_append_right hi.le, List.getElem?_singleton, if_neg (by omega)] at hrec'
    cases hrec'

theorem invariant_fresh : Invariant forensicRecordHash genesis {} := by
  have hempty : WellFormed forensicRecordHash genesis [] 1 :=
    ⟨trivial, fun i rec hrec => (by cases hrec), rfl⟩
  exact ⟨hempty, hempty, List.prefix_rfl, fun _ hrec => absurd hrec List.not_mem_nil,
    fun _ => ⟨0, le_rfl, List.prefix_rfl, fun _ => rfl⟩⟩

theorem Invariant.append (h : Invariant forensicRecordHash genesis s) (event : ForensicEvent) :
    Invariant forensicRecordHash genesis
      (s.appendForensicRecord forensicRecordHash genesis event) where
  chain := by
    refine ⟨linked_snoc.mpr ⟨h.chain.linked, rfl, rfl⟩, numbered_snoc h.chain.numbered h.chain.next,
      ?_⟩
    change min (s.forensicNextId + 1) u64Max = min ((s.forensicChain ++ [_]).length + 1) u64Max
    rw [h.chain.next, List.length_append, List.length_singleton]
    omega
  snapshot := h.snapshot
  initial := h.initial.trans (List.prefix_append _ _)
  bounded := by
    intro rec hrec
    dsimp only [ForensicState.appendForensicRecord] at hrec
    split_ifs at hrec
    · exact h.bounded rec hrec
    rcases List.mem_append.mp hrec with hrec | hrec
    · exact h.bounded rec hrec
    · rw [List.mem_singleton.mp hrec]
      exact h.chain.next ▸ Nat.min_le_right _ _
  rest hlt := by
    obtain ⟨k, hk, hflog, hwhole⟩ := h.rest hlt
    refine ⟨k, hk, ?_⟩
    dsimp only [ForensicState.appendForensicRecord]
    rw [List.drop_append_of_le_length (hk.trans h.initial.length_le)]
    cases htorn : s.torn with
    | true => exact ⟨hflog.trans (List.prefix_append _ _), fun hfalse => (by cases hfalse)⟩
    | false =>
      rw [if_neg Bool.false_ne_true, hwhole htorn]
      exact ⟨List.prefix_rfl, fun _ => rfl⟩

theorem Invariant.persist (h : Invariant forensicRecordHash genesis s) :
    Invariant forensicRecordHash genesis s.persistForensic where
  chain := h.chain
  snapshot := h.chain
  initial := List.prefix_rfl
  bounded := h.bounded
  rest hlt := by
    have hle := h.initial.length_le
    obtain ⟨k, hk, hflog⟩ := h.rest (hle.trans_lt hlt)
    exact ⟨k, hk.trans hle, hflog⟩

theorem Invariant.compact (h : Invariant forensicRecordHash genesis s) :
    Invariant forensicRecordHash genesis s.persistForensic.removeFlog where
  chain := h.chain
  snapshot := h.chain
  initial := List.prefix_rfl
  bounded := fun _ hrec => absurd hrec List.not_mem_nil
  rest _ := ⟨s.forensicChain.length, le_rfl, List.nil_prefix, fun _ => List.drop_length.symm⟩

theorem Invariant.tear (h : Invariant forensicRecordHash genesis s) :
    Invariant forensicRecordHash genesis s.tearFlog where
  chain := h.chain
  snapshot := h.snapshot
  initial := h.initial
  bounded := h.bounded
  rest hlt := by
    obtain ⟨k, hk, hflog, -⟩ := h.rest hlt
    exact ⟨k, hk, hflog, fun hfalse => (by cases hfalse)⟩

/-- The records that the snapshot lacks are taken over, and the next id counts them. -/
theorem replay_new {n : ℕ} (hn : n < u64Max) (records : List (ForensicRecord Hash)) (next : ℕ)
    (hlength : n ≤ chain.length) (hnumbered : Numbered (chain ++ records))
    (hnext : next = min (chain.length + 1) u64Max) :
    records.foldl (ForensicState.replayRecord n) (chain, next) =
      (chain ++ records, min ((chain ++ records).length + 1) u64Max) := by
  induction records generalizing chain next with
  | nil => rw [List.foldl_nil, List.append_nil, hnext]
  | cons rec records ih =>
    have hid : rec.id = min (chain.length + 1) u64Max :=
      hnumbered chain.length rec (by rw [List.getElem?_append_right le_rfl, Nat.sub_self]; rfl)
    have hnew : n < rec.id := by omega
    have hsucc : max next ((rec.id + 1) % (u64Max + 1)) =
        min ((chain ++ [rec]).length + 1) u64Max := by
      rw [List.length_append, List.length_singleton]
      rcases Nat.lt_or_ge (chain.length + 1) u64Max with hlt | hge
      · rw [Nat.mod_eq_of_lt (by omega)]
        omega
      · rw [hid, Nat.min_eq_right hge, Nat.mod_self]
        omega
    rw [List.append_cons] at hnumbered ⊢
    rw [List.foldl_cons, ForensicState.replayRecord, if_pos hnew]
    exact ih _ (hlength.trans (by rw [List.length_append]; exact Nat.le_add_right _ _)) hnumbered
      hsucc

theorem replay_old {n : ℕ} (records : List (ForensicRecord Hash)) (hold : ∀ rec ∈ records, rec.id ≤ n)
    (loaded : List (ForensicRecord Hash) × ℕ) :
    records.foldl (ForensicState.replayRecord n) loaded = loaded := by
  induction records with
  | nil => rfl
  | cons rec records ih =>
    have hid : ¬ n < rec.id := Nat.not_lt.mpr (hold rec List.mem_cons_self)
    rw [List.foldl_cons, ForensicState.replayRecord, if_neg hid]
    exact ih fun rec hrec => hold rec (List.mem_cons_of_mem _ hrec)

theorem WellFormed.lastId (h : WellFormed forensicRecordHash genesis chain next) :
    (chain.getLast?.map (·.id)).getD 0 = min chain.length u64Max := by
  rcases chain.eq_nil_or_concat with rfl | ⟨before, rec, rfl⟩
  · rfl
  · rw [List.concat_eq_append] at h ⊢
    have hid := h.numbered before.length rec (by rw [List.getElem?_concat_length]; rfl)
    rw [List.getLast?_concat, List.length_append, List.length_singleton]
    exact hid

theorem Numbered.take (h : Numbered chain) (n : ℕ) : Numbered (chain.take n) := by
  intro i rec hrec
  rw [List.getElem?_take] at hrec
  split_ifs at hrec
  · exact h i rec hrec
  · cases hrec

/-- What the sidecar has of a chain whose first records are in the snapshot. -/
theorem flog_split {snapshot tail flog : List (ForensicRecord Hash)} {k : ℕ}
    (hk : k ≤ snapshot.length) (hflog : flog <+: (snapshot ++ tail).drop k) :
    ∃ m n, flog = (snapshot.drop k).take m ++ tail.take n ∧
      flog <+: (snapshot ++ tail.take n).drop k ∧
      (flog = (snapshot ++ tail).drop k → tail.take n = tail) := by
  rw [List.drop_append_of_le_length hk] at hflog ⊢
  have hsplit := List.prefix_iff_eq_take.mp hflog
  rw [List.take_append] at hsplit
  refine ⟨_, _, hsplit, ?_, fun hall => ?_⟩
  · rw [List.drop_append_of_le_length hk]
    rcases le_total flog.length (snapshot.drop k).length with hle | hle
    · rw [Nat.sub_eq_zero_of_le hle, List.take_zero, List.append_nil] at hsplit ⊢
      rw [hsplit]
      exact List.take_prefix _ _
    · rw [List.take_of_length_le hle] at hsplit
      exact hsplit ▸ List.prefix_rfl
  · rw [List.take_of_length_le]
    rw [hall, List.length_append]
    omega

/-- A restart loads the snapshot and what can be read of the sidecar beyond it: the chain before
the restart, unless a record is torn or the ids have run out. -/
theorem Invariant.load (h : Invariant forensicRecordHash genesis s) :
    WellFormed forensicRecordHash genesis s.loadForensic.forensicChain
        s.loadForensic.forensicNextId ∧
      s.snapshot.1 <+: s.loadForensic.forensicChain ∧
      (s.snapshot.1.length < u64Max → ∃ k ≤ s.snapshot.1.length,
        s.flog <+: s.loadForensic.forensicChain.drop k ∧
          (s.torn = false → s.flog = s.loadForensic.forensicChain.drop k)) := by
  have hnext : max s.snapshot.2 1 = s.snapshot.2 := by
    have hpos : 0 < u64Max := by decide
    rw [h.snapshot.next]
    omega
  have hload : (s.loadForensic.forensicChain, s.loadForensic.forensicNextId) =
      s.flog.foldl (ForensicState.replayRecord (min s.snapshot.1.length u64Max)) s.snapshot := by
    rw [ForensicState.loadForensic, h.snapshot.lastId, hnext]
  rcases Nat.lt_or_ge s.snapshot.1.length u64Max with hlt | hge
  · obtain ⟨k, hk, hflog, hwhole⟩ := h.rest hlt
    obtain ⟨tail, htail⟩ := h.initial
    rw [← htail] at hflog hwhole
    obtain ⟨m, n, hsplit, hrest, hall⟩ := flog_split hk hflog
    have hold : ∀ rec ∈ (s.snapshot.1.drop k).take m, rec.id ≤ s.snapshot.1.length := by
      intro rec hrec
      obtain ⟨i, hi, rfl⟩ :=
        List.getElem_of_mem (List.mem_of_mem_drop (List.mem_of_mem_take hrec))
      have hid := h.snapshot.numbered i _ (List.getElem?_eq_getElem hi)
      omega
    have htake : s.snapshot.1 ++ tail.take n = s.forensicChain.take (s.snapshot.1.length + n) := by
      rw [← htail, List.take_length_add_append]
    have hnumbered : Numbered (s.snapshot.1 ++ tail.take n) := htake ▸ h.chain.numbered.take _
    have hfold := replay_new hlt (tail.take n) s.snapshot.2 le_rfl hnumbered h.snapshot.next
    rw [Nat.min_eq_left hlt.le, hsplit, List.foldl_append, replay_old _ hold, hfold] at hload
    have hchain : s.loadForensic.forensicChain = s.snapshot.1 ++ tail.take n :=
      congrArg Prod.fst hload
    have hid : s.loadForensic.forensicNextId =
        min ((s.snapshot.1 ++ tail.take n).length + 1) u64Max := congrArg Prod.snd hload
    rw [hchain, hid]
    refine ⟨⟨htake ▸ linked_take h.chain.linked _, hnumbered, rfl⟩, List.prefix_append _ _,
      fun _ => ⟨k, hk, hrest, fun htorn => ?_⟩⟩
    rw [hall (hwhole htorn)]
    exact hwhole htorn
  · have hold : ∀ rec ∈ s.flog, rec.id ≤ min s.snapshot.1.length u64Max := by
      rw [Nat.min_eq_right hge]
      exact h.bounded
    rw [replay_old _ hold] at hload
    have hchain : s.loadForensic.forensicChain = s.snapshot.1 := congrArg Prod.fst hload
    have hid : s.loadForensic.forensicNextId = s.snapshot.2 := congrArg Prod.snd hload
    rw [hchain, hid]
    exact ⟨h.snapshot, List.prefix_rfl, fun hlt => absurd hge (Nat.not_le.mpr hlt)⟩

theorem Invariant.restart (h : Invariant forensicRecordHash genesis s) :
    Invariant forensicRecordHash genesis s.loadForensic := by
  obtain ⟨hchain, hinitial, hrest⟩ := h.load
  exact ⟨hchain, h.snapshot, hinitial, h.bounded, hrest⟩

/-- Every chain that an engine goes through is linked from its first record on, and numbered. -/
theorem invariant_of_reachable (h : Reachable forensicRecordHash genesis s) :
    Invariant forensicRecordHash genesis s := by
  induction h with
  | fresh => exact invariant_fresh
  | append event _ ih => exact ih.append event
  | persist _ ih => exact ih.persist
  | compact _ ih => exact ih.compact
  | restart _ ih => exact ih.restart
  | crash _ ih => exact ih.tear.restart

end Invariant

end SkeinDB.Forensic
