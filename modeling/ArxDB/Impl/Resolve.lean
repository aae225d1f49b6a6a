import ArxDB.Impl.Schema
import ArxDB.Impl.Storage

/-!
# `resolve.py`
-/

namespace ArxDB.Impl

variable (P : Prims)

/-- A blob that cannot be decoded is no node. -/
def resolveNode (h : Hash) (storage : Storage) : Option Node :=
  match ObjectStore.get storage.objects h with
  | none => none
  | some data => (Node.fromBytes P data).toOption

/-- A blob that cannot be decoded is no edge. -/
def resolveEdge (h : Hash) (storage : Storage) : Option Edge :=
  match ObjectStore.get storage.objects h with
  | none => none
  | some data => (Edge.fromBytes P data).toOption

end ArxDB.Impl
