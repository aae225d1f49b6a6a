import ArxDB.Impl.Go.Session

/-!
# Crashes

`Put` renames its temporary file into place without an fsync, so a crash may
cut the file short. The rename itself is kept, and so is what the database has
committed: `b.Commit(nil)` syncs. A crash in a call comes after the statement
at which the call stops.
-/

namespace ArxDB.Impl.Go

open Failing Prog

/-- What a restart finds after a crash that keeps so many bytes of each file. -/
def Storage.crash (keep : Path → Nat) (s : Storage) : Storage :=
  { s with objects := fun path => (s.objects path).map (List.take (keep path)) }

/-- A call, or a crash that keeps so many bytes of each file. -/
inductive Event where
  | put (data : Bytes) (fault : Option Nat)
  | commitEdge (kp : Keypair) (now : Int64) (premises : Hashes) (conclusion : Hash) (edgeData : ByteSlice)
      (proof : Slice) (fault : Option Nat)
  | crash (keep : Path → Nat)

namespace Event

variable (P : Prims)

/-- The data directory after the event, wherever a call fails. -/
def exec (s : Storage) : Event → Storage
  | .put data fault => ((Storage.onObjects (ObjectStore.put P data)).exec fault s).2
  | .commitEdge kp now premises conclusion edgeData proof fault =>
    ((Storage.commitEdgeTx P kp now premises conclusion edgeData proof).exec fault s).2
  | .crash keep => s.crash keep

/-- The data directory after the events, from a new one. -/
def run (events : List Event) : Storage := events.foldl (exec P) Session.start.storage

end Event

end ArxDB.Impl.Go
