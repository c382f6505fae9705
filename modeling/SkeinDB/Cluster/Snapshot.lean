import SkeinDB.Cluster.PrimaryWrites
import SkeinDB.Codec.Lines

/-!
# Snapshots of a primary

A snapshot takes the sequence barrier exclusively, then the engine lock for reading, and reads the
log position; with that it releases the barrier. It exports the engine as operations, into the
answer or into a file named by the position, and releases the engine lock. A replica pulls the file
in chunks and executes the operations on an empty engine. It ends in the state that the log gives up
to the position, if the log gives the engine at all and the export the state it was taken of.
-/
namespace SkeinDB.Cluster
open Codec Consensus Format Transition

/-- `exportOps` gives the operations that stand for the state of an engine, and `empty` is the
engine that holds no database. -/
structure SnapshotDatabase (E : Type*) extends Database E where
  exportOps : E → List ClientWrite
  empty : E
  codec : LineCodec ClientWrite

section Chunk

def replicationSnapshotChunkOps : ℕ := 512

def replicationSnapshotChunkOpsMax : ℕ := 4096

def chunkLimit (limit : Option ℕ) : ℕ :=
  max 1 (min (limit.getD replicationSnapshotChunkOps) replicationSnapshotChunkOpsMax)

structure Chunk where
  ops : List ClientWrite
  nextByteOffset : ℕ
  done : Bool
deriving DecidableEq, Repr

variable (codec : LineCodec ClientWrite)

def spillReplicationSnapshot (ops : List ClientWrite) : Bytes := codec.writeLines ops

def readReplicationSnapshotChunk (file : Bytes) (byteOffset limit : ℕ) : Option Chunk :=
  (readRecords codec.decode (splitLines (file.drop byteOffset)) limit).map fun r =>
    ⟨r.1, byteOffset + r.2, r.1.length < limit⟩

/-- A chunk continues where the operations read so far end. -/
theorem readReplicationSnapshotChunk_spill (read rest : List ClientWrite) (limit : ℕ) :
    readReplicationSnapshotChunk codec (spillReplicationSnapshot codec (read ++ rest))
        (spillReplicationSnapshot codec read).length limit =
      some ⟨rest.take limit,
        (spillReplicationSnapshot codec (read ++ rest.take limit)).length,
        rest.length < limit⟩ := by
  have hdone : decide ((rest.take limit).length < limit) = decide (rest.length < limit) := by
    rw [decide_eq_decide, List.length_take]
    omega
  rw [readReplicationSnapshotChunk, spillReplicationSnapshot, spillReplicationSnapshot,
    codec.readRecords_drop, Option.map_some, hdone, spillReplicationSnapshot,
    codec.writeLines_append, List.length_append]

end Chunk

/-- A replica that rebuilds itself from a snapshot: the operations it has received and executed,
and where in the file it goes on. -/
structure Resync where
  stamp : Position
  ops : List ClientWrite
  byteOffset : ℕ
  done : Bool

/-- A primary with its snapshots. `barrier` is held by a snapshot that waits for the engine,
`spilling` and `exporting` hold the engine lock after they have captured a position. -/
structure SnapshotPath (E : Type*) where
  path : WritePath E
  barrier : Bool
  spilling : List Position
  exporting : List Position
  files : Position → Option Bytes
  resyncs : List Resync

/-- `spill` and `exportInline` finish an export, which lasts while the engine lock is held. What a
chunk read sees of a file that is being written again is not determined. -/
inductive SnapshotStep where
  | write (a : WriteStep)
  | takeBarrier
  | captureBegin
  | captureInline
  | spill (stamp : Position)
  | exportInline (stamp : Position)
  | chunk (i : ℕ) (limit : Option ℕ) (undetermined : Option Chunk)

namespace SnapshotPath
variable {E : Type*} (db : SnapshotDatabase E)

def idle (path : WritePath E) : SnapshotPath E := ⟨path, false, [], [], fun _ => none, []⟩

/-- The locks that a write step needs are free. -/
def Unlocked (s : SnapshotPath E) : WriteStep → Prop
  | .accept _ => s.barrier = false
  | .execute _ => s.spilling = [] ∧ s.exporting = []
  | .other _ => s.spilling = [] ∧ s.exporting = []
  | .assign _ => True
  | .append _ => True
  | .fanOut _ => True
  | .cluster _ => True

instance (s : SnapshotPath E) : (a : WriteStep) → Decidable (s.Unlocked a)
  | .accept _ => inferInstanceAs (Decidable (_ = _))
  | .execute _ | .other _ => inferInstanceAs (Decidable (_ ∧ _))
  | .assign _ | .append _ | .fanOut _ | .cluster _ => isTrue trivial

def readChunk (s : SnapshotPath E) (r : Resync) (limit : Option ℕ) (undetermined : Option Chunk) :
    Option Chunk :=
  if r.stamp ∈ s.spilling then undetermined
  else (s.files r.stamp).bind fun file =>
    readReplicationSnapshotChunk db.codec file r.byteOffset (chunkLimit limit)

def step (s : SnapshotPath E) : SnapshotStep → Option (SnapshotPath E)
  | .write a =>
    if s.Unlocked a then (s.path.step db.toDatabase a).map fun path => { s with path := path }
    else none
  | .takeBarrier =>
    if s.barrier = false ∧ s.path.admitted = [] ∧ s.path.executed = [] ∧ s.path.numbered = [] then
      some { s with barrier := true }
    else none
  | .captureBegin =>
    if s.barrier then some { s with barrier := false, spilling := s.path.head :: s.spilling }
    else none
  | .captureInline =>
    if s.barrier then some { s with barrier := false, exporting := s.path.head :: s.exporting }
    else none
  | .spill stamp =>
    if stamp ∈ s.spilling then some
      { s with
        spilling := s.spilling.erase stamp
        files := Function.update s.files stamp
          (some (spillReplicationSnapshot db.codec (db.exportOps s.path.engine)))
        resyncs := s.resyncs ++ [⟨stamp, [], 0, false⟩] }
    else none
  | .exportInline stamp =>
    if stamp ∈ s.exporting then some
      { s with
        exporting := s.exporting.erase stamp
        resyncs := s.resyncs ++ [⟨stamp, db.exportOps s.path.engine, 0, true⟩] }
    else none
  | .chunk i limit undetermined =>
    match s.resyncs[i]? with
    | none => none
    | some r =>
      if r.done then none
      else match s.readChunk db r limit undetermined with
        | none => some { s with resyncs := s.resyncs.eraseIdx i }
        | some chunk => some
          { s with
            resyncs := s.resyncs.set i
              ⟨r.stamp, r.ops ++ chunk.ops, chunk.nextByteOffset, chunk.done⟩ }

end SnapshotPath

section Condition
variable {E : Type*} (db : SnapshotDatabase E)

/-- The write path keeps to the order of the log, a snapshot is taken of an engine that its export
rebuilds, and no chunk is read while a later snapshot writes the file again. -/
def SnapshotInOrder (s : SnapshotPath E) : SnapshotStep → Prop
  | .write a => InLogOrder db.toDatabase s.path a
  | .captureBegin => replay db.exec db.empty (db.exportOps s.path.engine) = s.path.engine
  | .captureInline => replay db.exec db.empty (db.exportOps s.path.engine) = s.path.engine
  | .chunk i _ _ => ∀ r ∈ s.resyncs[i]?, r.stamp ∉ s.spilling
  | .takeBarrier => True
  | .spill _ => True
  | .exportInline _ => True

instance [DecidableEq E] (s : SnapshotPath E) :
    (a : SnapshotStep) → Decidable (SnapshotInOrder db s a)
  | .write a => inferInstanceAs (Decidable (InLogOrder _ _ a))
  | .captureBegin | .captureInline => inferInstanceAs (Decidable (_ = _))
  | .chunk _ _ _ => inferInstanceAs (Decidable (∀ r ∈ _, _))
  | .takeBarrier | .spill _ | .exportInline _ => isTrue trivial

/-- The state that the log gives up to a position. -/
def WritePath.stateAt (db : Database E) (s : WritePath E) (stamp : Position) : E :=
  replay db.exec s.initial ((s.history.filter (·.position ≤ stamp)).map (·.write))

/-- What a replica has loaded from a snapshot. -/
def Resync.loaded (r : Resync) : E := replay db.exec db.empty r.ops

/-- Every complete snapshot is the state that the log gives up to its stamp, and the operations
above the stamp lead from it to the engine when no write is under way. -/
structure SnapshotsExact (s : SnapshotPath E) : Prop where
  exact : ∀ r ∈ s.resyncs, r.done = true → r.loaded db = s.path.stateAt db.toDatabase r.stamp
  catchesUp : ∀ r ∈ s.resyncs, r.done = true → s.path.executed = [] → s.path.numbered = [] →
    replay db.exec (r.loaded db)
      ((s.path.history.filter (r.stamp < ·.position)).map (·.write)) = s.path.engine

end Condition

section WriteSteps
variable {E : Type*} {db : Database E} {s s' : WritePath E} {a : WriteStep} {stamp : Position}

/-- Writes that get their position later do not change the state at an earlier position. -/
theorem Writing.stateAt_step (h : Writing db s) (hok : InLogOrder db s a)
    (hstep : s.step db a = some s') (hreached : stamp ≤ s.head)
    (habove : ∀ op ∈ s.numbered, stamp < op.position) :
    s'.stateAt db stamp = s.stateAt db stamp ∧ stamp ≤ s'.head ∧
      ∀ op ∈ s'.numbered, stamp < op.position := by
  obtain ⟨w, rfl, rfl⟩ | ⟨w, rfl, -, rfl⟩ | ⟨w, rfl, -, rfl⟩ | ⟨op, rfl, hop, rfl⟩ |
    ⟨op, rfl, rfl⟩ | ⟨w, rfl, rfl⟩ | ⟨c, rfl, -, hseq, hepoch, rfl⟩ := WritePath.step_cases hstep
  · exact ⟨rfl, hreached, habove⟩
  · exact ⟨rfl, hreached, habove⟩
  · have hnext := head_lt_next s hok.1
    rw [WritePath.assign, h.enabled]
    refine ⟨rfl, hreached.trans hnext.le, ?_⟩
    intro op hop
    rcases List.mem_append.mp hop with hop | hop
    · exact habove op hop
    · rw [List.mem_singleton.mp hop]
      exact hreached.trans_lt hnext
  · refine ⟨?_, hreached, fun e he => habove e (List.mem_of_mem_erase he)⟩
    have hnot : ¬ op.position ≤ stamp := not_le.mpr (habove op hop)
    have hfilter : (s.append op).history.filter (·.position ≤ stamp) =
        s.history.filter (·.position ≤ stamp) := by
      change (s.history ++ [op]).filter _ = _
      rw [List.filter_append]
      simp [hnot]
    rw [WritePath.stateAt, hfilter]
    rfl
  · exact ⟨rfl, hreached, habove⟩
  · exact ⟨rfl, hreached, habove⟩
  · refine ⟨rfl, hreached.trans ?_, habove⟩
    rw [Position.le_iff]
    dsimp only [WritePath.head]
    omega

/-- Only an execution changes the engine. -/
theorem engine_of_step (hstep : s.step db a = some s') (hexecute : ∀ w, a ≠ .execute w)
    (hother : ∀ w, a ≠ .other w) : s'.engine = s.engine := by
  obtain ⟨w, rfl, rfl⟩ | ⟨w, rfl, -, rfl⟩ | ⟨w, rfl, -, rfl⟩ | ⟨op, rfl, -, rfl⟩ |
    ⟨op, rfl, rfl⟩ | ⟨w, rfl, rfl⟩ | ⟨c, rfl, -, -, -, rfl⟩ := WritePath.step_cases hstep
  · rfl
  · exact absurd rfl (hexecute w)
  · rw [WritePath.assign]
    split_ifs <;> rfl
  · rfl
  · rfl
  · exact absurd rfl (hother w)
  · rfl

/-- No write comes under way where none is executed. -/
theorem quiet_of_step (hstep : s.step db a = some s')
    (hexecute : ∀ w, a = .execute w → w ∉ s.admitted)
    (hquiet : s.executed = [] ∧ s.numbered = []) : s'.executed = [] ∧ s'.numbered = [] := by
  obtain ⟨w, rfl, rfl⟩ | ⟨w, rfl, hw, rfl⟩ | ⟨w, rfl, hw, rfl⟩ | ⟨op, rfl, hop, rfl⟩ |
    ⟨op, rfl, rfl⟩ | ⟨w, rfl, rfl⟩ | ⟨c, rfl, -, -, -, rfl⟩ := WritePath.step_cases hstep
  · exact hquiet
  · exact absurd hw (hexecute w rfl)
  · rw [hquiet.1] at hw
    simp at hw
  · rw [hquiet.2] at hop
    simp at hop
  · exact hquiet
  · exact hquiet
  · exact hquiet

theorem admitted_of_step (hstep : s.step db a = some s') (haccept : ∀ w, a ≠ .accept w)
    (hadmitted : s.admitted = []) : s'.admitted = [] := by
  obtain ⟨w, rfl, rfl⟩ | ⟨w, rfl, hw, rfl⟩ | ⟨w, rfl, hw, rfl⟩ | ⟨op, rfl, -, rfl⟩ |
    ⟨op, rfl, rfl⟩ | ⟨w, rfl, rfl⟩ | ⟨c, rfl, -, -, -, rfl⟩ := WritePath.step_cases hstep
  · exact absurd rfl (haccept w)
  · rw [hadmitted] at hw
    simp at hw
  · rw [WritePath.assign]
    split_ifs <;> exact hadmitted
  · exact hadmitted
  · exact hadmitted
  · exact hadmitted
  · exact hadmitted

end WriteSteps

section Invariant
variable {E : Type*} {db : SnapshotDatabase E} {s s' : SnapshotPath E} {a : SnapshotStep}
  {stamp : Position}

/-- The state at a captured position is settled, and its export rebuilds it. -/
structure Stamped (db : SnapshotDatabase E) (s : WritePath E) (stamp : Position) : Prop where
  reached : stamp ≤ s.head
  above : ∀ op ∈ s.numbered, stamp < op.position
  rebuilt : replay db.exec db.empty (db.exportOps (s.stateAt db.toDatabase stamp)) =
    s.stateAt db.toDatabase stamp

/-- What a replica has received is the beginning of the export, and it goes on behind it. -/
structure Receiving (db : SnapshotDatabase E) (s : WritePath E) (r : Resync) : Prop where
  stamped : Stamped db s r.stamp
  received : ∃ rest, r.ops ++ rest = db.exportOps (s.stateAt db.toDatabase r.stamp) ∧
    (r.done = true → rest = [])
  offset : r.done = false → r.byteOffset = (spillReplicationSnapshot db.codec r.ops).length

structure Snapshotting (db : SnapshotDatabase E) (s : SnapshotPath E) : Prop where
  writing : Writing db.toDatabase s.path
  drained : s.barrier = true → s.path.admitted = []
  quiet : s.barrier = true ∨ s.spilling ≠ [] ∨ s.exporting ≠ [] →
    s.path.executed = [] ∧ s.path.numbered = []
  captured : ∀ stamp, stamp ∈ s.spilling ∨ stamp ∈ s.exporting →
    Stamped db s.path stamp ∧ s.path.stateAt db.toDatabase stamp = s.path.engine
  files : ∀ stamp file, s.files stamp = some file → Stamped db s.path stamp ∧
    file = spillReplicationSnapshot db.codec (db.exportOps (s.path.stateAt db.toDatabase stamp))
  resyncs : ∀ r ∈ s.resyncs, Receiving db s.path r

theorem Snapshotting.idle {path : WritePath E} (h : Writing db.toDatabase path) :
    Snapshotting db (.idle path) where
  writing := h
  drained := by simp [SnapshotPath.idle]
  quiet := by simp [SnapshotPath.idle]
  captured := by simp [SnapshotPath.idle]
  files := by simp [SnapshotPath.idle]
  resyncs := by simp [SnapshotPath.idle]

theorem Snapshotting.exact (h : Snapshotting db s) : SnapshotsExact db s := by
  have hloaded : ∀ r ∈ s.resyncs, r.done = true →
      r.loaded db = s.path.stateAt db.toDatabase r.stamp := by
    intro r hr hdone
    obtain ⟨rest, hops, hrest⟩ := (h.resyncs r hr).received
    rw [hrest hdone, List.append_nil] at hops
    rw [Resync.loaded, hops]
    exact (h.resyncs r hr).stamped.rebuilt
  refine ⟨hloaded, ?_⟩
  intro r hr hdone hexecuted hnumbered
  have hmatches := h.writing.matches
  rw [hloaded r hr hdone, WritePath.stateAt, ← replay_append, ← List.map_append,
    filter_le_append_filter_lt hmatches.ascending]
  exact hmatches.replays hexecuted hnumbered

theorem Stamped.step {p p' : WritePath E} {b : WriteStep} (hp : Stamped db p stamp)
    (h : Writing db.toDatabase p) (hok : InLogOrder db.toDatabase p b)
    (hstep : p.step db.toDatabase b = some p') :
    Stamped db p' stamp ∧ p'.stateAt db.toDatabase stamp = p.stateAt db.toDatabase stamp := by
  obtain ⟨hsame, hreached, habove⟩ := h.stateAt_step hok hstep hp.reached hp.above
  exact ⟨⟨hreached, habove, by rw [hsame]; exact hp.rebuilt⟩, hsame⟩

theorem Snapshotting.write (h : Snapshotting db s) {b : WriteStep} {path : WritePath E}
    (hok : InLogOrder db.toDatabase s.path b) (hunlocked : s.Unlocked b)
    (hstep : s.path.step db.toDatabase b = some path) :
    Snapshotting db { s with path := path } := by
  have hexecute : s.barrier = true ∨ s.spilling ≠ [] ∨ s.exporting ≠ [] →
      ∀ w, b = .execute w → w ∉ s.path.admitted := by
    rintro hbusy w rfl hw
    obtain ⟨hspilling, hexporting⟩ := hunlocked
    rcases hbusy with hbarrier | hbusy | hbusy
    · rw [h.drained hbarrier] at hw
      simp at hw
    · exact hbusy hspilling
    · exact hbusy hexporting
  constructor
  · exact h.writing.step hok hstep
  · intro hbarrier
    refine admitted_of_step hstep ?_ (h.drained hbarrier)
    rintro w rfl
    exact Bool.noConfusion ((Eq.symm hbarrier).trans hunlocked)
  · intro hbusy
    exact quiet_of_step hstep (hexecute hbusy) (h.quiet hbusy)
  · intro stamp hmem
    obtain ⟨hstamped, hengine⟩ := h.captured stamp hmem
    obtain ⟨hstamped', hsame⟩ := hstamped.step h.writing hok hstep
    have hlocked : ¬ (s.spilling = [] ∧ s.exporting = []) := by
      rintro ⟨hspilling, hexporting⟩
      simp [hspilling, hexporting] at hmem
    have hkept : path.engine = s.path.engine := by
      refine engine_of_step hstep ?_ ?_
      · rintro w rfl
        exact hlocked hunlocked
      · rintro w rfl
        exact hlocked hunlocked
    exact ⟨hstamped', (hsame.trans hengine).trans hkept.symm⟩
  · intro stamp file hfile
    obtain ⟨hstamped, hcontent⟩ := h.files stamp file hfile
    obtain ⟨hstamped', hsame⟩ := hstamped.step h.writing hok hstep
    exact ⟨hstamped', by rw [hsame]; exact hcontent⟩
  · intro r hr
    obtain ⟨hstamped, hreceived, hoffset⟩ := h.resyncs r hr
    obtain ⟨hstamped', hsame⟩ := hstamped.step h.writing hok hstep
    exact ⟨hstamped', by rw [hsame]; exact hreceived, hoffset⟩

/-- With the barrier held the log gives the engine up to its head. -/
theorem Snapshotting.stamped_head (h : Snapshotting db s) (hbarrier : s.barrier = true)
    (hrebuilt : replay db.exec db.empty (db.exportOps s.path.engine) = s.path.engine) :
    Stamped db s.path s.path.head ∧
      s.path.stateAt db.toDatabase s.path.head = s.path.engine := by
  obtain ⟨hexecuted, hnumbered⟩ := h.quiet (Or.inl hbarrier)
  have hall : s.path.history.filter (·.position ≤ s.path.head) = s.path.history := by
    rw [List.filter_eq_self]
    intro op hop
    simpa using h.writing.bounded op (List.mem_append_left _ hop)
  have hengine : s.path.stateAt db.toDatabase s.path.head = s.path.engine := by
    rw [WritePath.stateAt, hall]
    exact h.writing.matches.replays hexecuted hnumbered
  refine ⟨⟨le_rfl, by simp [hnumbered], ?_⟩, hengine⟩
  rw [hengine]
  exact hrebuilt

theorem Snapshotting.takeBarrier (h : Snapshotting db s)
    (hfree : s.path.admitted = [] ∧ s.path.executed = [] ∧ s.path.numbered = []) :
    Snapshotting db { s with barrier := true } :=
  ⟨h.writing, fun _ => hfree.1, fun _ => hfree.2, h.captured, h.files, h.resyncs⟩

theorem Snapshotting.capture (h : Snapshotting db s) (hbarrier : s.barrier = true)
    (hrebuilt : replay db.exec db.empty (db.exportOps s.path.engine) = s.path.engine)
    {spilling exporting : List Position}
    (hmem : ∀ stamp, stamp ∈ spilling ∨ stamp ∈ exporting →
      stamp = s.path.head ∨ stamp ∈ s.spilling ∨ stamp ∈ s.exporting) :
    Snapshotting db
      { s with barrier := false, spilling := spilling, exporting := exporting } := by
  refine ⟨h.writing, by simp, fun _ => h.quiet (Or.inl hbarrier), ?_, h.files, h.resyncs⟩
  intro stamp hstamp
  rcases hmem stamp hstamp with rfl | hheld
  · exact h.stamped_head hbarrier hrebuilt
  · exact h.captured stamp hheld

theorem Snapshotting.spill (h : Snapshotting db s) (hstamp : stamp ∈ s.spilling) :
    Snapshotting db
      { s with
        spilling := s.spilling.erase stamp
        files := Function.update s.files stamp
          (some (spillReplicationSnapshot db.codec (db.exportOps s.path.engine)))
        resyncs := s.resyncs ++ [⟨stamp, [], 0, false⟩] } := by
  obtain ⟨hstamped, hengine⟩ := h.captured stamp (Or.inl hstamp)
  refine ⟨h.writing, h.drained, ?_, ?_, ?_, ?_⟩
  · intro _
    exact h.quiet (Or.inr (Or.inl (List.ne_nil_of_mem hstamp)))
  · intro other hother
    exact h.captured other (hother.imp_left List.mem_of_mem_erase)
  · intro other file hfile
    dsimp only at hfile
    by_cases hsame : other = stamp
    · subst hsame
      rw [Function.update_self] at hfile
      cases hfile
      exact ⟨hstamped, by rw [hengine]⟩
    · rw [Function.update_of_ne hsame] at hfile
      exact h.files other file hfile
  · intro r hr
    rcases List.mem_append.mp hr with hr | hr
    · exact h.resyncs r hr
    · rw [List.mem_singleton.mp hr]
      exact ⟨hstamped, ⟨_, rfl, by simp⟩, fun _ => rfl⟩

theorem Snapshotting.exportInline (h : Snapshotting db s) (hstamp : stamp ∈ s.exporting) :
    Snapshotting db
      { s with
        exporting := s.exporting.erase stamp
        resyncs := s.resyncs ++ [⟨stamp, db.exportOps s.path.engine, 0, true⟩] } := by
  obtain ⟨hstamped, hengine⟩ := h.captured stamp (Or.inr hstamp)
  refine ⟨h.writing, h.drained, ?_, ?_, h.files, ?_⟩
  · intro _
    exact h.quiet (Or.inr (Or.inr (List.ne_nil_of_mem hstamp)))
  · intro other hother
    exact h.captured other (hother.imp_right List.mem_of_mem_erase)
  · intro r hr
    rcases List.mem_append.mp hr with hr | hr
    · exact h.resyncs r hr
    · rw [List.mem_singleton.mp hr]
      exact ⟨hstamped, ⟨[], by rw [hengine, List.append_nil], fun _ => rfl⟩, by simp⟩

/-- A chunk of a complete file goes on where the last one ended. -/
theorem Receiving.chunk {p : WritePath E} {r : Resync} (hr : Receiving db p r)
    (hdone : r.done = false) {limit : Option ℕ} {chunk : Chunk}
    (hchunk : readReplicationSnapshotChunk db.codec
      (spillReplicationSnapshot db.codec (db.exportOps (p.stateAt db.toDatabase r.stamp)))
      r.byteOffset (chunkLimit limit) = some chunk) :
    Receiving db p ⟨r.stamp, r.ops ++ chunk.ops, chunk.nextByteOffset, chunk.done⟩ := by
  obtain ⟨rest, hops, -⟩ := hr.received
  rw [← hops, hr.offset hdone, readReplicationSnapshotChunk_spill] at hchunk
  cases hchunk
  refine ⟨hr.stamped, ⟨rest.drop (chunkLimit limit), ?_, ?_⟩, fun _ => rfl⟩
  · dsimp only
    rw [List.append_assoc, List.take_append_drop]
    exact hops
  · intro hlast
    rw [decide_eq_true_eq] at hlast
    exact List.drop_of_length_le hlast.le

theorem Snapshotting.chunk (h : Snapshotting db s) {i : ℕ} {r : Resync}
    (hr : s.resyncs[i]? = some r) (hdone : r.done = false) {limit : Option ℕ}
    {undetermined : Option Chunk} {chunk : Chunk} (hfree : r.stamp ∉ s.spilling)
    (hread : s.readChunk db r limit undetermined = some chunk) :
    Snapshotting db
      { s with
        resyncs := s.resyncs.set i
          ⟨r.stamp, r.ops ++ chunk.ops, chunk.nextByteOffset, chunk.done⟩ } := by
  refine ⟨h.writing, h.drained, h.quiet, h.captured, h.files, ?_⟩
  intro r' hr'
  rcases List.mem_or_eq_of_mem_set hr' with hr' | rfl
  · exact h.resyncs r' hr'
  · rw [SnapshotPath.readChunk, if_neg hfree] at hread
    obtain ⟨file, hfile, hchunk⟩ := Option.bind_eq_some_iff.mp hread
    obtain ⟨-, rfl⟩ := h.files r.stamp file hfile
    exact (h.resyncs r (List.mem_of_getElem? hr)).chunk hdone hchunk

theorem Snapshotting.step (h : Snapshotting db s) (hok : SnapshotInOrder db s a)
    (hstep : s.step db a = some s') : Snapshotting db s' := by
  cases a with
  | write b =>
    simp only [SnapshotPath.step, Option.ite_none_right_eq_some, Option.map_eq_some_iff] at hstep
    obtain ⟨hunlocked, path, hpath, rfl⟩ := hstep
    exact h.write hok hunlocked hpath
  | takeBarrier =>
    simp only [SnapshotPath.step, Option.ite_none_right_eq_some, Option.some.injEq] at hstep
    obtain ⟨⟨-, hfree⟩, rfl⟩ := hstep
    exact h.takeBarrier hfree
  | captureBegin =>
    simp only [SnapshotPath.step, Option.ite_none_right_eq_some, Option.some.injEq] at hstep
    obtain ⟨hbarrier, rfl⟩ := hstep
    refine h.capture hbarrier hok ?_
    intro stamp hstamp
    rw [List.mem_cons, or_assoc] at hstamp
    exact hstamp
  | captureInline =>
    simp only [SnapshotPath.step, Option.ite_none_right_eq_some, Option.some.injEq] at hstep
    obtain ⟨hbarrier, rfl⟩ := hstep
    refine h.capture hbarrier hok ?_
    intro stamp hstamp
    rw [List.mem_cons, or_left_comm] at hstamp
    exact hstamp
  | spill stamp =>
    simp only [SnapshotPath.step, Option.ite_none_right_eq_some, Option.some.injEq] at hstep
    obtain ⟨hstamp, rfl⟩ := hstep
    exact h.spill hstamp
  | exportInline stamp =>
    simp only [SnapshotPath.step, Option.ite_none_right_eq_some, Option.some.injEq] at hstep
    obtain ⟨hstamp, rfl⟩ := hstep
    exact h.exportInline hstamp
  | chunk i limit undetermined =>
    rcases hr : s.resyncs[i]? with _ | r
    · simp [SnapshotPath.step, hr] at hstep
    · rcases hdone : r.done with _ | _
      · rcases hread : s.readChunk db r limit undetermined with _ | chunk
        · simp only [SnapshotPath.step, hr, hdone, hread, Option.some.injEq, Bool.false_eq_true,
            if_false] at hstep
          subst hstep
          refine ⟨h.writing, h.drained, h.quiet, h.captured, h.files, ?_⟩
          intro r' hr'
          exact h.resyncs r' (List.mem_of_mem_eraseIdx hr')
        · simp only [SnapshotPath.step, hr, hdone, hread, Option.some.injEq, Bool.false_eq_true,
            if_false] at hstep
          subst hstep
          exact h.chunk hr hdone (hok r hr) hread
      · simp [SnapshotPath.step, hr, hdone] at hstep

end Invariant

section Sample

end Sample

end SkeinDB.Cluster
