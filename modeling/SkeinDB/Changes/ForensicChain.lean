import SkeinDB.Changes.CrashMerge

/-!
# The forensic chain of a run

The forensic half of the logs is the chain of `Forensic.Chain`: every step of a run, restarts and
crashes among them, is one of its steps on what the engine holds and on what can be read of its
files.
-/
namespace SkeinDB.Changes
open SkeinDB.Codec SkeinDB.Tables SkeinDB.Transition
open SkeinDB.Forensic (ForensicState Reachable)

variable {fmt : LogFormats} {s : LogSystem} {disk : LogDisk} {logs : Logs}

/-- What an engine holds of its chain, over some files. -/
def Logs.forensicState (fmt : LogFormats) (logs : Logs) (disk : LogDisk) :
    ForensicState String where
  forensicChain := logs.forensicChain
  forensicNextId := logs.forensicNextId
  snapshot := snapshotChain disk.forensicChain
  flog := readLogRecords fmt.record disk.forensicFlog
  torn := (unread fmt.record disk.forensicFlog).isSome

/-- `load_forensic_best_effort` adds the records that the snapshot lacks one by one. -/
theorem foldl_replayRecord (snapshotMaxId : ℕ) (tail chain : List ForensicRecord) (next : ℕ) :
    tail.foldl (ForensicState.replayRecord snapshotMaxId) (chain, next) =
      (chain ++ tail.filter fun rec => snapshotMaxId < rec.id,
        (tail.filter fun rec => snapshotMaxId < rec.id).foldl
          (fun nextId rec => max nextId ((rec.id + 1) % 2 ^ 64)) next) := by
  induction tail generalizing chain next with
  | nil => rw [List.filter_nil, List.append_nil, List.foldl_nil, List.foldl_nil]
  | cons rec tail ih =>
    rw [List.foldl_cons, ForensicState.replayRecord]
    by_cases hnew : snapshotMaxId < rec.id
    · rw [if_pos hnew, ih, List.filter_cons, if_pos (decide_eq_true hnew), List.foldl_cons,
        List.append_assoc, List.singleton_append]
      rfl
    · rw [if_neg hnew, ih, List.filter_cons, if_neg (by simpa using hnew)]

theorem snapshotChain_pos (chain : Option ForensicChainDisk) : 1 ≤ (snapshotChain chain).2 := by
  cases chain with
  | none => exact le_rfl
  | some disk =>
    rw [snapshotChain]
    split
    · exact le_max_right _ _
    · exact le_rfl

/-- An engine that opens files loads what another one had on them. -/
theorem forensicState_open (logs : Logs) (retention : ℕ) (hpos : 0 < retention) :
    (openLogs fmt retention hpos disk).forensicState fmt disk =
      (logs.forensicState fmt disk).loadForensic := by
  rw [ForensicState.loadForensic, Logs.forensicState, Logs.forensicState]
  dsimp only
  rw [max_eq_left (snapshotChain_pos _), foldl_replayRecord]
  rfl

section Steps
variable {now ts written : ℕ} {c : Change}

/-- What is left of the appends of a change, by the bytes `n` of its record: nothing, a torn record,
or all of it. -/
theorem forensicState_tear (h : s.Inv fmt) (happend : s.Appendable fmt now ts c written)
    (hdisk : disk = s.disk.tearChange fmt (s.logs.changeEvent now c)
      (s.logs.changeRecord fmt now ts c) written) {n : ℕ}
    (hn : n = written - (logFrame fmt.event (s.logs.changeEvent now c)).length) :
    (n = 0 → s.logs.forensicState fmt disk = s.logs.forensicState fmt s.disk) ∧
      (0 < n → n < (logFrame fmt.record (s.logs.changeRecord fmt now ts c)).length →
        s.logs.forensicState fmt disk = (s.logs.forensicState fmt s.disk).tearFlog) ∧
      ((logFrame fmt.record (s.logs.changeRecord fmt now ts c)).length ≤ n →
        (s.logs.emitChange fmt now ts c).forensicState fmt disk =
          (s.logs.forensicState fmt s.disk).appendForensicRecord fmt.recordHash forensicGenesisHash
            (s.logs.forensicEvent ts c (s.logs.log.emitChange now c).changeSeq)) := by
  obtain ⟨_, p, -, -, -, hjournal⟩ := h.disk.forensic
  have hwhole := happend.forensicFlog
  rw [← hn] at hwhole
  obtain ⟨hrecords, hstopped⟩ := hjournal.scan_append happend.record n hwhole
  have hpos := logFrame_pos _ happend.record
  have hflog : disk.forensicFlog = s.disk.forensicFlog ++
      (logFrame fmt.record (s.logs.changeRecord fmt now ts c)).take n := by
    rw [hdisk, hn]
    rfl
  have hread : readLogRecords fmt.record disk.forensicFlog =
      readLogRecords fmt.record s.disk.forensicFlog ++
        if (logFrame fmt.record (s.logs.changeRecord fmt now ts c)).length ≤ n then
          [s.logs.changeRecord fmt now ts c] else [] := by
    rw [hflog]
    exact hrecords
  have htorn : (unread fmt.record disk.forensicFlog).isSome =
      if n = 0 then (unread fmt.record s.disk.forensicFlog).isSome
      else decide (n < (logFrame fmt.record (s.logs.changeRecord fmt now ts c)).length) := by
    rw [hflog]
    exact hstopped
  have hsnapshot : disk.forensicChain = s.disk.forensicChain := by
    rw [hdisk]
    rfl
  rw [Logs.forensicState, Logs.forensicState, Logs.forensicState, hread, htorn, hsnapshot]
  refine ⟨fun hzero => ?_, fun hsome hlt => ?_, fun hge => ?_⟩
  · rw [hzero, if_neg (Nat.not_le.mpr hpos), List.append_nil, if_pos rfl]
  · rw [if_neg (Nat.not_le.mpr hlt), List.append_nil, if_neg hsome.ne', decide_eq_true hlt]
    rfl
  · have hnone : unread fmt.record s.disk.forensicFlog = none := by
      refine hwhole ?_
      rw [← List.length_pos_iff, List.length_take]
      omega
    rw [if_pos hge, if_neg (hpos.trans_le hge).ne', decide_eq_false (Nat.not_lt.mpr hge), hnone]
    rfl

variable (fmt disk) in
/-- Wherever a compaction is cut, the snapshot of the chain is written or not, and the sidecar
removed behind it or not. -/
theorem forensicState_compact (hnext : 1 ≤ logs.forensicNextId) (done : ℕ) :
    logs.forensicState fmt (compactLogs logs done disk) = logs.forensicState fmt disk ∨
      logs.forensicState fmt (compactLogs logs done disk) =
        (logs.forensicState fmt disk).persistForensic ∨
      logs.forensicState fmt (compactLogs logs done disk) =
        (logs.forensicState fmt disk).persistForensic.removeFlog := by
  have hpersist : (logs.forensicState fmt disk).persistForensic =
      { logs.forensicState fmt disk with
        snapshot := snapshotChain
          (some ⟨forensicChainFormatVersion, logs.forensicNextId, logs.forensicChain⟩) } := by
    rw [snapshotChain, if_pos le_rfl, max_eq_left hnext]
    rfl
  rw [hpersist]
  rcases done with _ | _ | _ | _ | done
  · exact .inl rfl
  · exact .inl rfl
  · exact .inr (.inl rfl)
  · exact .inr (.inl rfl)
  · rw [compactLogs, List.take_of_length_le (Nat.le_add_left 4 done)]
    exact .inr (.inr rfl)

/-- Every step keeps the chain among those that the forensic steps reach. -/
theorem keeps_reachable : Keeps (LogSystem.step fmt) (LogSystem.Admissible fmt) fun s =>
    s.Inv fmt ∧ Reachable fmt.recordHash forensicGenesisHash (s.logs.forensicState fmt s.disk) := by
  rintro s a s' ⟨h, hreachable⟩ hsafe hstep
  have hinv := LogSystem.keeps_inv s a s' h hsafe hstep
  refine ⟨hinv, ?_⟩
  have hnext : 1 ≤ s.logs.forensicNextId := by
    rw [h.logs.nextId]
    exact Nat.le_add_left 1 _
  have hcompact : ∀ done, Reachable fmt.recordHash forensicGenesisHash
      (s.logs.forensicState fmt (compactLogs s.logs done s.disk)) := by
    intro done
    rcases forensicState_compact fmt s.disk hnext done with heq | heq | heq <;> rw [heq]
    · exact hreachable
    · exact .persist hreachable
    · exact .compact hreachable
  cases a with
  | emit now ts c =>
    cases hstep
    have happend := (forensicState_tear h hsafe (appendChange_eq _ _ _) rfl).2.2
      (Nat.le_sub_of_add_le' le_rfl)
    dsimp only
    rw [happend]
    exact .append _ hreachable
  | compact =>
    cases hstep
    exact hcompact _
  | auditVerify =>
    cases hstep
    dsimp only
    split
    · exact hcompact 2
    · exact hreachable
  | crash =>
    cases hstep
    dsimp only [LogSystem.reopen]
    rw [forensicState_open s.logs]
    exact .restart hreachable
  | crashEmitting now ts c written =>
    cases hstep
    obtain ⟨hnothing, htorn, hwhole⟩ := forensicState_tear h hsafe rfl rfl
    dsimp only [LogSystem.reopen]
    rcases Nat.eq_zero_or_pos
      (written - (logFrame fmt.event (s.logs.changeEvent now c)).length) with hzero | hsome
    · rw [forensicState_open s.logs, hnothing hzero]
      exact .restart hreachable
    · rcases Nat.lt_or_ge (written - (logFrame fmt.event (s.logs.changeEvent now c)).length)
        (logFrame fmt.record (s.logs.changeRecord fmt now ts c)).length with hlt | hge
      · rw [forensicState_open s.logs, htorn hsome hlt]
        exact .crash hreachable
      · rw [forensicState_open (s.logs.emitChange fmt now ts c), hwhole hge]
        exact .restart (.append _ hreachable)
  | crashCompacting done =>
    cases hstep
    dsimp only [LogSystem.reopen]
    rw [forensicState_open s.logs]
    exact .restart (hcompact done)

end Steps

/-- In every run in which no byte is appended behind a torn record and all records read back, the
engine goes through chains of the forensic steps. -/
theorem forensicChain_reachable (fmt : LogFormats) (retention : ℕ) (hpos : 0 < retention)
    (steps : List LogStep)
    (hsteps : Meets (LogSystem.step fmt) (LogSystem.Admissible fmt) (.fresh fmt retention hpos)
      steps) :
    Always (LogSystem.step fmt) (fun s =>
      Reachable fmt.recordHash forensicGenesisHash (s.logs.forensicState fmt s.disk))
      (.fresh fmt retention hpos) steps :=
  keeps_reachable.always ⟨LogSystem.fresh_inv hpos, .fresh⟩ hsteps fun _ h => h.2

end SkeinDB.Changes
