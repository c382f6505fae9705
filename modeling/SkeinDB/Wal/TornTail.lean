import SkeinDB.Wal.Log

/-!
# Torn tails of the WAL

A log cut at any byte behind its header scans to the records whose frames are
whole, and a writer reopened on it continues right behind the last of them with
the next LSN.
-/
namespace SkeinDB.Wal
open SkeinDB.Codec SkeinDB.Format

theorem open_header (now : UInt64) (rest : Bytes) :
    let file := (FileHeader.new .wal 0 now).encode ++ rest
    WalReader.open file = .ok ⟨file⟩ := by
  have hshort : ¬ ((FileHeader.new .wal 0 now).encode ++ rest).length < fileHeaderLen := by simp
  have htake : ((FileHeader.new .wal 0 now).encode ++ rest).take fileHeaderLen =
      (FileHeader.new .wal 0 now).encode := List.take_left' (FileHeader.encode_length _)
  have hdecode := FileHeader.decode_encode (FileHeader.new .wal 0 now) [] rfl
  rw [List.append_nil] at hdecode
  simp only [WalReader.open, if_neg hshort, htake, hdecode]
  simp [FileHeader.new]

theorem HoldsLog.drop_header {file : Bytes} {log : List WalRecord} (h : HoldsLog file log) :
    file.drop fileHeaderLen = walCodec.encodeAll log := by
  obtain ⟨now, rfl⟩ := h.header
  exact List.drop_left' (FileHeader.encode_length _)

theorem HoldsLog.length_eq {file : Bytes} {log : List WalRecord} (h : HoldsLog file log) :
    file.length = fileHeaderLen + (walCodec.encodeAll log).length := by
  obtain ⟨now, rfl⟩ := h.header
  rw [List.length_append, FileHeader.encode_length]

theorem HoldsLog.length_lt {file : Bytes} {log : List WalRecord} (h : HoldsLog file log) :
    log.length < 2 ^ 63 := by
  have hle := StreamCodec.length_le_encodeAll h.valid
  have hlen := h.length_eq
  have hsize := h.size
  omega

/-- The cut file is the header followed by the cut frames. -/
theorem HoldsLog.take_eq {file : Bytes} {log : List WalRecord} (h : HoldsLog file log) {n : ℕ}
    (hn : fileHeaderLen ≤ n) :
    ∃ now, file.take n =
      (FileHeader.new .wal 0 now).encode ++ (walCodec.encodeAll log).take (n - fileHeaderLen) := by
  obtain ⟨now, rfl⟩ := h.header
  refine ⟨now, ?_⟩
  rw [List.take_append, List.take_of_length_le (by simpa using hn), FileHeader.encode_length]

theorem scan_eq (file : Bytes) (strict : Bool) :
    (WalReader.mk file).scan strict =
      let found := walCodec.scan (file.drop fileHeaderLen)
      match found.stopped with
      | none => .ok ⟨found.records, found.validBytes, false, none⟩
      | some err =>
        if strict then .error err
        else .ok ⟨found.records, found.validBytes, true, some err⟩ := rfl

/-- The scan of a cut log, read off the torn-tail theorem of the frame stream. -/
theorem scanLenient_take {file : Bytes} {log : List WalRecord} (h : HoldsLog file log) {n : ℕ}
    (hn : fileHeaderLen ≤ n) (hcut : n ≤ file.length) :
    let kept := walCodec.contained log (n - fileHeaderLen)
    ∃ found, (WalReader.mk (file.take n)).scanLenient = .ok found ∧ found.records = kept ∧
      found.validBytes = (walCodec.encodeAll kept).length ∧
      (found.truncatedTail = false ↔ fileHeaderLen + (walCodec.encodeAll kept).length = n) := by
  obtain ⟨now, htake⟩ := h.take_eq hn
  have hlen := h.length_eq
  have hdrop : (file.take n).drop fileHeaderLen =
      (walCodec.encodeAll log).take (n - fileHeaderLen) := by
    rw [htake, List.drop_left' (FileHeader.encode_length _)]
  obtain ⟨hrecords, hbytes, hstopped⟩ := StreamCodec.scan_take h.valid (n := n - fileHeaderLen)
    (by omega)
  rw [WalReader.scanLenient, scan_eq, hdrop]
  generalize walCodec.scan ((walCodec.encodeAll log).take (n - fileHeaderLen)) = found at *
  cases hs : found.stopped with
  | none =>
    have hend := hstopped.mp hs
    refine ⟨⟨found.records, found.validBytes, false, none⟩, by simp only [hs], hrecords, hbytes, ?_⟩
    simp only [true_iff]
    omega
  | some err =>
    refine ⟨⟨found.records, found.validBytes, true, some err⟩, by simp [hs], hrecords, hbytes, ?_⟩
    simp only [hs, reduceCtorEq, false_iff] at hstopped
    simp only [Bool.true_eq_false, false_iff]
    omega

/-- Both scans of an uncut log return all of it. -/
theorem scan_holdsLog {file : Bytes} {log : List WalRecord} (h : HoldsLog file log)
    (strict : Bool) :
    (WalReader.mk file).scan strict =
      .ok ⟨log, (walCodec.encodeAll log).length, false, none⟩ := by
  rw [scan_eq, h.drop_header, StreamCodec.scan_encodeAll h.valid]

/-- What a successful append did. -/
theorem append_cases {w w' : WalWriter} {r : WalRecord} {lsn : UInt64}
    (h : w.append r = .ok (lsn, w')) :
    lsn = w.nextLsn ∧ (r.withLsn lsn).encode.length < 2 ^ 32 ∧
      (w.file ++ recordFrame (r.withLsn lsn).encode).length < 2 ^ 63 ∧
      w' = { w with
        file := w.file ++ recordFrame (r.withLsn lsn).encode, nextLsn := w.nextLsn + 1 } := by
  simp only [WalWriter.append, appendRecordFrame, fileAppend, List.nil_append] at h
  by_cases hframe : (r.withLsn w.nextLsn).encode.length < 2 ^ 32
  · rw [if_pos hframe] at h
    simp only [bind, Except.bind, Except.mapError] at h
    by_cases hsize : w.file.length + (recordFrame (r.withLsn w.nextLsn).encode).length < 2 ^ 63
    · rw [if_pos hsize] at h
      cases h
      exact ⟨rfl, hframe, by rwa [List.length_append], rfl⟩
    · rw [if_neg hsize] at h
      cases h
  · rw [if_neg hframe] at h
    cases h

theorem toNat_succ {x : UInt64} (h : x.toNat < 2 ^ 63 + 1) : (x + 1).toNat = x.toNat + 1 := by
  rw [UInt64.toNat_add]
  simp only [UInt64.toNat_one]
  omega

theorem create_inv {now : UInt64} {w : WalWriter} (h : WalWriter.open now none = .ok w) :
    WriterInv w [] := by
  have hlen := FileHeader.encode_length (FileHeader.new .wal 0 now)
  have hsize : ([] : Bytes).length + (FileHeader.new .wal 0 now).encode.length < 2 ^ 63 := by
    rw [hlen, fileHeaderLen]
    norm_num
  simp only [WalWriter.open, fileAppend, if_pos hsize] at h
  cases h
  exact ⟨⟨⟨now, by simp⟩, by simp, by simpa using hsize⟩, rfl, rfl⟩

theorem append_inv {w w' : WalWriter} {log : List WalRecord} {r : WalRecord} {lsn : UInt64}
    (hw : WriterInv w log) (hr : r.WellFormed) (h : w.append r = .ok (lsn, w')) :
    WriterInv w' (log ++ [r.withLsn lsn]) := by
  obtain ⟨rfl, hframe, hsize, rfl⟩ := append_cases h
  have hlog := hw.holds.length_lt
  have hnext := hw.nextLsn
  obtain ⟨now, hfile⟩ := hw.holds.header
  refine ⟨⟨⟨now, ?_⟩, ?_, hsize⟩, ?_, ?_⟩
  · simp only [hfile, StreamCodec.encodeAll_append, List.append_assoc]
    simp [walCodec, framed]
  · intro a ha
    rcases List.mem_append.mp ha with ha | ha
    · exact hw.holds.valid a ha
    · rw [List.mem_singleton] at ha
      subst ha
      exact ⟨hr.withLsn _, hframe⟩
  · rw [toNat_succ (by omega), hnext, List.length_append, List.length_singleton]
  · rw [List.map_append, hw.lsns, List.length_append, ← List.range'_append_1]
    simp [hnext, Nat.add_comm]

/-- An initial run of a log with consecutive LSNs has them too. -/
theorem lsns_isPrefix {kept log : List WalRecord} (h : kept <+: log)
    (hlsns : log.map (fun r => r.lsn.toNat) = List.range' 1 log.length) :
    kept.map (fun r => r.lsn.toNat) = List.range' 1 kept.length := by
  have hle := h.length_le
  rw [List.prefix_iff_eq_take.mp h, List.map_take, hlsns, List.take_range'_of_length_ge hle,
    List.length_take, Nat.min_eq_left hle]

theorem nextLsn_eq {log : List WalRecord} (hlen : log.length < 2 ^ 63)
    (hlsns : log.map (fun r => r.lsn.toNat) = List.range' 1 log.length) :
    ((log.getLast?.map (fun r : WalRecord => r.lsn + 1)).getD 1).toNat = log.length + 1 := by
  have hlast := congrArg List.getLast? hlsns
  rw [List.getLast?_map, List.getLast?_range'] at hlast
  cases hl : log.getLast? with
  | none =>
    rw [List.getLast?_eq_none_iff] at hl
    subst hl
    rfl
  | some r =>
    have hpos : log.length ≠ 0 := by
      intro h0
      rw [List.length_eq_zero_iff] at h0
      simp [h0] at hl
    simp only [hl, Option.map_some, hpos, if_false, Option.some.injEq] at hlast
    simp only [Option.map_some, Option.getD_some]
    rw [toNat_succ (by omega)]
    omega

/-- Reopening a cut log drops the torn tail and resumes after the last whole record. -/
theorem reopen_inv {file : Bytes} {log : List WalRecord} {n : ℕ} (now : UInt64)
    (h : HoldsLog file log) (hlsns : log.map (fun r => r.lsn.toNat) = List.range' 1 log.length)
    (hn : fileHeaderLen ≤ n) (hcut : n ≤ file.length) :
    ∃ w, WalWriter.open now (some (file.take n)) = .ok w ∧
      WriterInv w (walCodec.contained log (n - fileHeaderLen)) := by
  obtain ⟨found, hscan, hrecords, hbytes, htrunc⟩ := scanLenient_take h hn hcut
  obtain ⟨start, htake⟩ := h.take_eq hn
  have hinit := walCodec.contained_isPrefix log (n - fileHeaderLen)
  generalize hkept : walCodec.contained log (n - fileHeaderLen) = kept at *
  obtain ⟨tail, hframes, -⟩ := StreamCodec.take_encodeAll (c := walCodec) log (n - fileHeaderLen)
  rw [hkept] at hframes
  have hlen : (file.take n).length = n := by rw [List.length_take]; omega
  have hcontents : (file.take n).take (fileHeaderLen + found.validBytes) =
      (FileHeader.new .wal 0 start).encode ++ walCodec.encodeAll kept := by
    rw [htake, hframes, ← List.append_assoc, hbytes]
    exact List.take_left' (by simp)
  have hvalid : ∀ r ∈ kept, walCodec.Valid r := fun r hr => h.valid r (hinit.subset hr)
  have hlsns' := lsns_isPrefix hinit hlsns
  have hkeptlen : kept.length < 2 ^ 63 := lt_of_le_of_lt hinit.length_le h.length_lt
  have hopen := open_header start ((walCodec.encodeAll log).take (n - fileHeaderLen))
  simp only [← htake] at hopen
  have hnext := nextLsn_eq hkeptlen hlsns'
  have hfile := h.size
  rw [← hrecords] at hnext
  have hpos : ¬ n < fileHeaderLen := by omega
  have hne : ¬ n = 0 := by
    rw [fileHeaderLen] at hn
    omega
  cases ht : found.truncatedTail with
  | true =>
    refine ⟨⟨(file.take n).take (fileHeaderLen + found.validBytes),
      (found.records.getLast?.map (fun r => r.lsn + 1)).getD 1, true,
      (file.take n).length - (fileHeaderLen + found.validBytes)⟩, ?_, ?_, ?_, hlsns'⟩
    · simp only [WalWriter.open, Option.getD_some, hlen, if_neg hne, if_neg hpos, hopen, hscan,
        bind, Except.bind, ht, if_true]
    · refine ⟨⟨start, hcontents⟩, hvalid, ?_⟩
      rw [List.length_take]
      omega
    · rw [hnext, hrecords]
  | false =>
    have hend := htrunc.mp ht
    refine ⟨⟨file.take n, (found.records.getLast?.map (fun r => r.lsn + 1)).getD 1, false, 0⟩,
      ?_, ?_, ?_, hlsns'⟩
    · simp only [WalWriter.open, Option.getD_some, hlen, if_neg hne, if_neg hpos, hopen, hscan,
        bind, Except.bind, ht, Bool.false_eq_true, if_false]
    · refine ⟨⟨start, ?_⟩, hvalid, by simp only [hlen]; omega⟩
      rw [← hcontents, hbytes, hend, List.take_of_length_le hlen.le]
    · rw [hnext, hrecords]

/-- Every writer the log's operations can produce keeps the invariant. -/
theorem Written.inv {w : WalWriter} {log : List WalRecord} (h : Written w log) :
    WriterInv w log := by
  induction h with
  | create h => exact create_inv h
  | append _ hr h ih => exact append_inv ih hr h
  | @reopen now _ _ _ _ _ hn hcut h ih =>
    obtain ⟨w, hopen, hinv⟩ := reopen_inv now ih.holds ih.lsns hn hcut
    rw [hopen] at h
    cases h
    exact hinv

/-- A run of appends, as one step of the log's life. -/
theorem Written.appendAll {w w' : WalWriter} {log more : List WalRecord} (hw : Written w log)
    (hmore : ∀ r ∈ more, r.WellFormed) (h : w.appendAll more = .ok w') :
    Written w' (log ++ stampLsns w.nextLsn more) := by
  induction more generalizing w log with
  | nil =>
    cases h
    simpa [stampLsns] using hw
  | cons r rs ih =>
    rw [WalWriter.appendAll] at h
    cases happend : w.append r with
    | error e =>
      rw [happend] at h
      cases h
    | ok res =>
      obtain ⟨lsn, w1⟩ := res
      rw [happend] at h
      have hrest := ih (.append hw (hmore r (by simp)) happend) (fun r hr => hmore r (by simp [hr])) h
      obtain ⟨rfl, -, -, rfl⟩ := append_cases happend
      simpa [stampLsns] using hrest

/-- The writer of a run that creates a log and appends to it. -/
theorem written_of_run {now : UInt64} (records : List WalRecord)
    (hrecords : ∀ r ∈ records, r.WellFormed)
    (h : (WalWriter.open now none >>= fun w => w.appendAll records).toOption.isSome) :
    ∃ w, Written w (stampLsns 1 records) ∧
      (WalWriter.open now none >>= fun w => w.appendAll records) = .ok w := by
  cases hopen : WalWriter.open now none with
  | error e =>
    rw [hopen] at h
    cases h
  | ok w0 =>
    have hnext : w0.nextLsn = 1 := UInt64.toNat.inj (create_inv hopen).nextLsn
    cases hrun : w0.appendAll records with
    | error e =>
      simp [hopen, hrun, bind, Except.bind, Except.toOption] at h
    | ok w =>
      have hw := (Written.create hopen).appendAll hrecords hrun
      rw [hnext] at hw
      exact ⟨w, hw, hrun⟩

end SkeinDB.Wal
