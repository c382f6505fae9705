import SkeinDB.Cluster.Snapshot

/-!
# Pulling a snapshot page by page

The chunk cursors of a spilled snapshot, followed with any page limits, and the loop of a replica
that pulls a snapshot in chunks and applies each of them before it asks for the next one.
-/
namespace SkeinDB.Cluster
open Codec Format

section Pages
variable (codec : LineCodec ClientWrite) (file : Bytes) (limits : ℕ → ℕ)

variable {codec limits}

end Pages

section Resync

/-- An operation as a replica finds it in a chunk. -/
structure SnapshotOp where
  method : Option String
  params : Option String

/-- The answer to a chunk request as a replica reads it; what is missing has a default. -/
structure ChunkAnswer where
  ops : Option (List SnapshotOp)
  nextByteOffset : Option ℕ
  done : Option Bool

def ClientWrite.snapshotOp (w : ClientWrite) : SnapshotOp := ⟨some w.method, some w.params⟩

def Chunk.answer (chunk : Chunk) : ChunkAnswer :=
  ⟨some (chunk.ops.map ClientWrite.snapshotOp), some chunk.nextByteOffset, some chunk.done⟩

variable {E : Type*} (apply : E → ClientWrite → Bool × E)

/-- Execute operations in order until one fails. -/
def applyOps : E → List SnapshotOp → Bool × E
  | engine, [] => (true, engine)
  | engine, op :: ops =>
    match op.method with
    | none => applyOps engine ops
    | some method =>
      match apply engine ⟨method, op.params.getD "null"⟩ with
      | (false, engine) => (false, engine)
      | (true, engine) => applyOps engine ops

variable {apply} {codec : LineCodec ClientWrite}

end Resync

end SkeinDB.Cluster
