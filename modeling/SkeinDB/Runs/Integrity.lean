import SkeinDB.Format.Checksum
import SkeinDB.Runs.Safety

/-!
# Changed run files

A written run carries the CRC32C of all its blocks in its footer, and a zero there stands for no
checksum. With a checksum a changed byte is an error when the run is opened; without one a changed
value is read as if it had been written.
-/
namespace SkeinDB.Runs
open SkeinDB.Codec SkeinDB.Format SkeinDB.Search Checked

section Writing
variable {w w' : RunWriter} {entries : List RunEntry}

theorem flushPendingBlock_lastKey (h : w.flushPendingBlock = .ok w') : w'.lastKey = w.lastKey := by
  rw [RunWriter.flushPendingBlock] at h
  split at h
  · cases h
    rfl
  · obtain ⟨file, _, h⟩ := bind_eq_ok h
    cases h
    rfl

theorem append_eq_ok {key value : Bytes} (h : w.append key value = .ok w') :
    Follows w.lastKey key ∧ w'.lastKey = some key := by
  have hfollows : (w.lastKey.any fun last => (compare key last).isLE) = false →
      Follows w.lastKey key := by
    intro hany last hlast
    rw [Option.mem_def.mp hlast, Option.any_some, Ordering.isLE_eq_false] at hany
    exact Std.OrientedCmp.lt_of_gt hany
  rw [RunWriter.append] at h
  split_ifs at h with _ hlast hfull
  · exact ⟨hfollows (Bool.eq_false_iff.mpr hlast), flushPendingBlock_lastKey h⟩
  · cases h
    exact ⟨hfollows (Bool.eq_false_iff.mpr hlast), rfl⟩

/-- A writer takes nothing but keys that increase. -/
theorem appendAll_eq_ok (h : w.appendAll entries = .ok w') :
    Sorted RunEntry.key entries ∧ ∀ e ∈ entries, Follows w.lastKey e.key := by
  induction entries generalizing w with
  | nil => exact ⟨List.Pairwise.nil, fun e he => absurd he List.not_mem_nil⟩
  | cons e entries ih =>
    rw [RunWriter.appendAll] at h
    obtain ⟨w₁, hw₁, h⟩ := bind_eq_ok h
    obtain ⟨hfollows, hlast⟩ := append_eq_ok hw₁
    obtain ⟨hsorted, hrest⟩ := ih h
    have habove : ∀ x ∈ entries, compare e.key x.key = .lt :=
      fun x hx => hrest x hx _ (hlast ▸ rfl)
    refine ⟨List.pairwise_cons.mpr ⟨habove, hsorted⟩, ?_⟩
    rintro x (_ | ⟨_, hx⟩)
    · exact hfollows
    · exact fun last hin => Std.TransCmp.lt_trans (hfollows last hin) (habove x hx)

theorem finish_eq_ok {info : RunMetadata} {file : Bytes} (h : w.finish = .ok (info, file)) :
    ∃ preFooter offset, file = preFooter ++ RunFooter.encode ⟨offset, crc32c preFooter⟩ ∧
      info.fileCrc32c = crc32c preFooter := by
  rw [RunWriter.finish] at h
  split_ifs at h
  obtain ⟨w₁, _, h⟩ := bind_eq_ok h
  obtain ⟨preFooter, _, h⟩ := bind_eq_ok h
  obtain ⟨file', hfile, h⟩ := bind_eq_ok h
  cases h
  rw [fileAppend] at hfile
  split_ifs at hfile
  · cases hfile
    exact ⟨preFooter, _, rfl, rfl⟩
  · cases hfile

theorem writeRun_eq_ok {targetBlockSize : ℕ} {createdUnixS : UInt64} {info : RunMetadata}
    {file : Bytes} (h : writeRun targetBlockSize createdUnixS entries = .ok (info, file)) :
    ∃ createdUnixS' blocks, file = runFile createdUnixS' blocks ∧
      info.fileCrc32c = (runFooter createdUnixS' blocks).fileCrc32c ∧
      Blocked createdUnixS' blocks entries := by
  obtain ⟨w₀, _, hrest⟩ := bind_eq_ok h
  obtain ⟨w₁, hentries, hfinish⟩ := bind_eq_ok hrest
  rcases writeRun_blocked targetBlockSize createdUnixS (appendAll_eq_ok hentries).1 with hfull |
    ⟨info', createdUnixS', blocks, hok, hblocked⟩
  · rw [h] at hfull
    cases hfull
  · rw [h] at hok
    cases hok
    refine ⟨createdUnixS', blocks, rfl, ?_, hblocked⟩
    obtain ⟨preFooter, offset, hfile, hcrc⟩ := finish_eq_ok hfinish
    have hpre : preFooter = runPreFooter createdUnixS' blocks :=
      (List.append_inj' hfile (by rw [RunFooter.encode_length, RunFooter.encode_length])).1.symm
    rw [hcrc, hpre, runFooter]

end Writing

section Changes
variable {createdUnixS : UInt64} {blocks : List (List RunEntry)} {entries : List RunEntry}
  {i : ℕ} {b v : UInt8}
open RunReader

/-- A changed byte behind the header of a run is a mismatch of the checksum, if there is one. -/
theorem open_changed (h : Blocked createdUnixS blocks entries)
    (hcrc : (runFooter createdUnixS blocks).fileCrc32c ≠ 0) (hlow : fileHeaderLen ≤ i)
    (hhigh : i < (runPreFooter createdUnixS blocks).length)
    (hb : (runFile createdUnixS blocks)[i]? ≠ some b) :
    ∃ e, openRun ((runFile createdUnixS blocks).set i b) = .error (.err e) := by
  have hbody := runBody_length createdUnixS blocks
  have hsize := h.size
  have hlen : (runFile createdUnixS blocks).length =
      (runPreFooter createdUnixS blocks).length + runFooterLen := by
    rw [runFile, List.length_append, RunFooter.encode_length]
  have hpre : (runPreFooter createdUnixS blocks).length = (runBody createdUnixS blocks).length +
      (encodeIndexBlock (indexOf fileHeaderLen blocks)).length := by
    rw [runPreFooter, List.length_append]
  have hset : (runFile createdUnixS blocks).set i b =
      (runPreFooter createdUnixS blocks).set i b ++ (runFooter createdUnixS blocks).encode :=
    List.set_append_left _ _ hhigh
  have hchanged : (runPreFooter createdUnixS blocks)[i] ≠ b := by
    intro heq
    apply hb
    rw [runFile, List.getElem?_append_left hhigh, List.getElem?_eq_getElem hhigh, heq]
  have hheader : validateRunHeader ((runFile createdUnixS blocks).set i b) = .ok () := by
    have hfront : (runFile createdUnixS blocks).set i b =
        (FileHeader.new .run 0 createdUnixS).encode ++
          (blocks.flatMap encodeDataBlock ++ (encodeIndexBlock (indexOf fileHeaderLen blocks) ++
            (runFooter createdUnixS blocks).encode)).set (i - fileHeaderLen) b := by
      rw [runFile, runPreFooter, runBody, List.append_assoc, List.append_assoc,
        List.set_append_right _ _ (by rwa [FileHeader.encode_length]), FileHeader.encode_length]
    rw [hfront]
    exact validateRunHeader_ok _ _
  have hlenSet : ((runFile createdUnixS blocks).set i b).length =
      (runPreFooter createdUnixS blocks).length + runFooterLen := by
    rw [List.length_set, hlen]
  have htake : ((runFile createdUnixS blocks).set i b).take (runPreFooter createdUnixS blocks).length =
      (runPreFooter createdUnixS blocks).set i b := by
    rw [hset, List.take_left' List.length_set]
  have hfooter : RunFooter.decode (((runFile createdUnixS blocks).set i b).drop
      (runPreFooter createdUnixS blocks).length) = .ok (runFooter createdUnixS blocks) := by
    rw [hset, List.drop_left' List.length_set]
    exact RunFooter.decode_encode (by simp only [runFooter]; omega)
  have hblock : indexBlock ((runFile createdUnixS blocks).set i b) =
      .error (.footerCrcMismatch (runFooter createdUnixS blocks).fileCrc32c
        (crc32c ((runPreFooter createdUnixS blocks).set i b))) := by
    have hmismatch : (runFooter createdUnixS blocks).fileCrc32c ≠
        crc32c ((runPreFooter createdUnixS blocks).set i b) :=
      (crc32c_set_ne hhigh hchanged).symm
    simp only [indexBlock, hheader, hlenSet, Nat.add_sub_cancel, htake, hfooter, bind, Except.bind]
    rw [if_neg (by omega), if_neg (by simp only [runFooter]; omega), if_pos ⟨hcrc, hmismatch⟩]
  rw [openRun_eq, hblock]
  exact ⟨_, rfl⟩

theorem indexOf_congr {blocks' : List (List RunEntry)} (offset : ℕ)
    (h : blocks.map (fun block => (firstKey block, (encodeDataBlock block).length)) =
      blocks'.map fun block => (firstKey block, (encodeDataBlock block).length)) :
    indexOf offset blocks = indexOf offset blocks' := by
  induction blocks generalizing blocks' offset with
  | nil => rw [List.map_eq_nil_iff.mp h.symm]
  | cons block blocks ih =>
    rcases blocks' with _ | ⟨block', blocks'⟩
    · cases h
    · rw [List.map_cons, List.map_cons, List.cons.injEq, Prod.mk.injEq] at h
      obtain ⟨⟨hkey, hlength⟩, hrest⟩ := h
      rw [indexOf, indexOf, hkey, hlength, ih _ hrest]

/-- A byte of a value stands in its block for itself. -/
theorem encodeDataBlock_value (first last : List RunEntry) (key rest : Bytes) :
    ∃ before after, ∀ v, encodeDataBlock (first ++ ⟨key, v :: rest⟩ :: last) =
      before ++ v :: after := by
  refine ⟨[dataBlockType, blockVersion] ++
    (encodeVaru (UInt64.ofNat (first.length + (last.length + 1))) ++ (first.flatMap RunEntry.encode ++
      (lenPrefixed key ++ encodeVaru (UInt64.ofNat (rest.length + 1))))),
    rest ++ last.flatMap RunEntry.encode, fun v => ?_⟩
  simp [encodeDataBlock, RunEntry.encode, lenPrefixed]

/-- Blocks around a value that starts with some byte. -/
structure Around where
  front : List (List RunEntry)
  back : List (List RunEntry)
  first : List RunEntry
  last : List RunEntry
  key : Bytes
  rest : Bytes

namespace Around
variable (a : Around)

def blockWith (v : UInt8) : List RunEntry := a.first ++ ⟨a.key, v :: a.rest⟩ :: a.last

def blocksWith (v : UInt8) : List (List RunEntry) := a.front ++ a.blockWith v :: a.back

theorem indexOf_blocks (v v' : UInt8) :
    indexOf fileHeaderLen (a.blocksWith v') = indexOf fileHeaderLen (a.blocksWith v) := by
  obtain ⟨before, after, hencode⟩ := encodeDataBlock_value a.first a.last a.key a.rest
  apply indexOf_congr
  have hkey : firstKey (a.blockWith v') = firstKey (a.blockWith v) := by
    rw [blockWith, blockWith]
    cases a.first <;> rfl
  have hlength : (encodeDataBlock (a.blockWith v')).length = (encodeDataBlock (a.blockWith v)).length := by
    rw [blockWith, blockWith, hencode, hencode, List.length_append, List.length_append, List.length_cons,
      List.length_cons]
  rw [blocksWith, blocksWith, List.map_append, List.map_append, List.map_cons, List.map_cons, hkey, hlength]

theorem runPreFooter_blocks (createdUnixS : UInt64) (v : UInt8) :
    ∃ before after, fileHeaderLen ≤ before.length ∧ ∀ v',
      runPreFooter createdUnixS (a.blocksWith v') = before ++ v' :: after ∧
        (runBody createdUnixS (a.blocksWith v')).length =
          (runBody createdUnixS (a.blocksWith v)).length := by
  obtain ⟨before, after, hencode⟩ := encodeDataBlock_value a.first a.last a.key a.rest
  refine ⟨(FileHeader.new .run 0 createdUnixS).encode ++
    (a.front.flatMap encodeDataBlock ++ before), after ++ (a.back.flatMap encodeDataBlock ++
      encodeIndexBlock (indexOf fileHeaderLen (a.blocksWith v))), by simp, fun v' => ⟨?_, ?_⟩⟩
  · rw [runPreFooter, runBody, a.indexOf_blocks v v', blocksWith, List.flatMap_append, List.flatMap_cons,
      blockWith, hencode]
    simp only [List.append_assoc, List.cons_append]
  · simp [runBody, blocksWith, blockWith, hencode]

theorem blocked (h : Blocked createdUnixS (a.blocksWith v) entries) (v' : UInt8) :
    Blocked createdUnixS (a.blocksWith v') (a.blocksWith v').flatten := by
  refine ⟨?_, ?_, rfl, ?_⟩
  · obtain ⟨before, after, _, hpre⟩ := a.runPreFooter_blocks createdUnixS v
    have hsize := h.size
    rw [runFile, List.length_append, RunFooter.encode_length, (hpre _).1] at hsize ⊢
    simpa using hsize
  · intro block hblock
    rcases List.mem_append.mp hblock with hfront | _ | ⟨_, hback⟩
    · exact h.nonempty block (List.mem_append_left _ hfront)
    · exact List.append_ne_nil_of_right_ne_nil _ (List.cons_ne_nil _ _)
    · exact h.nonempty block (List.mem_append_right _ (List.mem_cons_of_mem _ hback))
  · have hsorted := h.sorted
    rw [← h.cut, Sorted, ← List.pairwise_map (R := fun a b => compare a b = .lt)] at hsorted
    rw [Sorted, ← List.pairwise_map (R := fun a b => compare a b = .lt)]
    simpa [blocksWith, blockWith] using hsorted

theorem flatten_ne {v v' : UInt8} (h : v' ≠ v) : (a.blocksWith v').flatten ≠ (a.blocksWith v).flatten := by
  simpa [blocksWith, blockWith] using h

/-- A value of the entries is in one of their blocks. -/
theorem exists_blocks (h : Blocked createdUnixS blocks entries) (hvalue : ∃ e ∈ entries, e.value ≠ []) :
    ∃ (a : Around) (v : UInt8), blocks = a.blocksWith v := by
  obtain ⟨⟨key, value⟩, he, hne⟩ := hvalue
  obtain ⟨v, rest, rfl⟩ := List.exists_cons_of_ne_nil hne
  rw [← h.cut] at he
  obtain ⟨block, hblock, hentry⟩ := List.mem_flatten.mp he
  obtain ⟨front, back, rfl⟩ := List.append_of_mem hblock
  obtain ⟨first, last, rfl⟩ := List.append_of_mem hentry
  exact ⟨⟨front, back, first, last, key, rest⟩, v, rfl⟩

end Around

/-- Without a checksum a changed byte of a value is read. -/
theorem value_change_unnoticed (h : Blocked createdUnixS blocks entries)
    (hcrc : (runFooter createdUnixS blocks).fileCrc32c = 0)
    (hvalue : ∃ e ∈ entries, e.value ≠ []) :
    ∃ i b, fileHeaderLen ≤ i ∧ i < (runPreFooter createdUnixS blocks).length ∧
      (runFile createdUnixS blocks)[i]? ≠ some b ∧ ∃ r entries',
        RunReader.open ((runFile createdUnixS blocks).set i b) = .ok r ∧
          r.readAll = .ok entries' ∧ entries' ≠ entries := by
  obtain ⟨a, v, rfl⟩ := Around.exists_blocks h hvalue
  obtain ⟨v', hother⟩ : ∃ v', v' ≠ v := ⟨v + 1, by simp⟩
  obtain ⟨before, after, hheader, hpre⟩ := a.runPreFooter_blocks createdUnixS v
  have hfooter : runFooter createdUnixS (a.blocksWith v) =
      ⟨(runBody createdUnixS (a.blocksWith v')).length, 0⟩ := by
    rw [(hpre v').2, ← hcrc]
    rfl
  have hset : (runFile createdUnixS (a.blocksWith v)).set before.length v' =
      runFileWith createdUnixS (a.blocksWith v') 0 := by
    rw [runFile, hfooter, (hpre v).1, runFileWith, (hpre v').1, List.append_assoc,
      List.append_assoc, List.set_append_right _ _ le_rfl, Nat.sub_self]
    rfl
  have hblocked := a.blocked h v'
  refine ⟨before.length, v', hheader, ?_, ?_, _, _, hset ▸ open_runFileWith hblocked (.inl rfl),
    readAll_runReaderWith hblocked 0, ?_⟩
  · rw [(hpre v).1, List.length_append, List.length_cons]
    omega
  · rw [runFile, (hpre v).1, List.append_assoc, List.getElem?_append_right le_rfl, Nat.sub_self]
    simpa using hother.symm
  · rw [← h.cut]
    exact a.flatten_ne hother

end Changes

section Integrity
variable {entries : List RunEntry}

/-- A file is opened and read without a panic exactly when its counts and key lengths fit; and a
changed byte of a written run is an error when its footer has a checksum, and only then when it
has a value to change. -/
theorem run_file_safe (input : Bytes) (targetBlockSize : ℕ) (createdUnixS : UInt64)
    (entries : List RunEntry) :
    (FileSafe input ↔ FileFits input) ∧
    ∀ info file, writeRun targetBlockSize createdUnixS entries = .ok (info, file) →
      let Detected := ∀ i b, fileHeaderLen ≤ i → i < file.length - runFooterLen →
        file[i]? ≠ some b → ∃ e, RunReader.openRun (file.set i b) = .error (.err e)
      (info.fileCrc32c ≠ 0 → Detected) ∧
        ((∃ e ∈ entries, e.value ≠ []) → Detected → info.fileCrc32c ≠ 0) := by
  refine ⟨fileSafe_iff input, fun info file h => ?_⟩
  obtain ⟨createdUnixS', blocks, rfl, hcrc, hblocked⟩ := writeRun_eq_ok h
  have hlen := runFileWith_length createdUnixS' blocks (crc32c (runPreFooter createdUnixS' blocks))
  change (runFile createdUnixS' blocks).length = _ at hlen
  rw [hcrc, hlen, Nat.add_sub_cancel]
  refine ⟨fun hsome i b hlow hhigh hb => open_changed hblocked hsome hlow hhigh hb, ?_⟩
  intro hvalue hdetected hzero
  obtain ⟨i, b, hlow, hhigh, hb, r, _, hopen, _⟩ := value_change_unnoticed hblocked hzero hvalue
  obtain ⟨e, he⟩ := hdetected i b hlow hhigh hb
  by_cases hfits : RunReader.OpenFits ((runFile createdUnixS' blocks).set i b)
  · rw [RunReader.openRun_of_fits hfits, hopen] at he
    cases he
  · refine RunReader.not_safe_openRun hfits ?_
    rw [he]
    exact safe_lift (.error e)

/-- A run without data blocks and without a checksum, whose index names a key of 2 ^ 64 - 1
bytes. -/
def overlongKey : Bytes :=
  (FileHeader.new .run 0 0).encode ++ ([indexBlockType, blockVersion, 1] ++
    (encodeVaru (UInt64.ofNat (2 ^ 64 - 1)) ++ RunFooter.encode ⟨fileHeaderLen, 0⟩))

theorem overlong_key_panics : ¬ FileSafe overlongKey := by
  have hopen : RunReader.openRun overlongKey = .error (.fault .arithmeticOverflow) := by
    decide +kernel
  intro h
  have hsafe := h.1
  rw [hopen] at hsafe
  exact not_safe_fault _ hsafe

end Integrity

end SkeinDB.Runs
