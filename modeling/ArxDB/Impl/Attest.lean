import ArxDB.Impl.Roster
import ArxDB.Impl.Schema
import ArxDB.Impl.Storage

/-!
# `attest.py`
-/

namespace ArxDB.Impl

open Failing Prog

/-- `AttestationResult`. -/
structure AttestationResult where
  signerAgentId : Option String
  signatureValid : Bool
  proofBound : Bool
  proofIntact : Bool
deriving DecidableEq, Repr

/-- `ok`: all three guarantees hold. -/
def AttestationResult.ok (a : AttestationResult) : Bool :=
  a.signerAgentId.isSome && a.signatureValid && a.proofBound && a.proofIntact

/-- `AnchorRecord`. -/
structure AnchorRecord where
  rootHash : Hash
  entryCount : Nat
  timestampNs : Int
  rosterHash : Hash
deriving DecidableEq

namespace AnchorRecord

/-- `to_canonical`. -/
def toCanonical (r : AnchorRecord) : Value :=
  .dict [
    (.str "version", .int 1), (.str "root_hash", .bytes r.rootHash.raw), (.str "entry_count", .int r.entryCount),
    (.str "timestamp_ns", .int r.timestampNs), (.str "roster_hash", .bytes r.rosterHash.raw)]

/-- `anchor_bytes`. -/
def anchorBytes (P : Prims) (r : AnchorRecord) : Except PyError Bytes := P.canonicalEncode r.toCanonical

/-- `anchor_hash`. -/
def anchorHash (P : Prims) (r : AnchorRecord) : Except PyError Hash := P.hashBytes <$> r.anchorBytes P

end AnchorRecord

namespace Attest

variable (P : Prims)

/-- The loop of `_find_log_entry`. -/
def findLogEntryFrom (log : Log) (edgeHash : Hash) : List Nat → Except PyError (Option LogEntry)
  | [] => .ok none
  | seq :: seqs => do
    match ← AppendLog.get log seq with
    | none => .error .attributeError
    | some entry => if entry.entryHash = edgeHash then .ok (some entry) else findLogEntryFrom log edgeHash seqs

/-- `_find_log_entry`. -/
def findLogEntry (storage : Storage) (edgeHash : Hash) : Except PyError (Option LogEntry) :=
  findLogEntryFrom storage.log edgeHash (List.range storage.log.length)

/-- Whether a blob hashes to `h`. -/
def intact (h : Hash) : Option Bytes → Bool
  | some blob => P.hashBytes blob = h
  | none => false

/-- `verify_edge_attestation`: the signature that is checked is that of the first entry
with the edge's hash. -/
def verifyEdgeAttestation (edge : Edge) (storage : Storage) (roster : Roster) :
    Except PyError AttestationResult := do
  let signerAgentId := roster.identify edge.signerPubkey
  let entry ← findLogEntry storage (← edge.edgeHash P)
  let signatureValid ← match entry with
    | some entry => AppendLog.verifyEntry P entry
    | none => .ok false
  match edge.proofHash with
  | none => return { signerAgentId, signatureValid, proofBound := true, proofIntact := true }
  | some proofHash =>
    let blob := ObjectStore.get storage.objects proofHash
    return { signerAgentId, signatureValid, proofBound := blob.isSome, proofIntact := intact P proofHash blob }

/-- The loop of `verify_history`: the hashes of the entries, if none fails its checks. -/
def verifyHistoryFrom (log : Log) : List Nat → Hash → List Hash → Except PyError (Option (List Hash))
  | [], _, entryHashes => .ok (some entryHashes)
  | seq :: seqs, prev, entryHashes => do
    match ← AppendLog.get log seq with
    | none => return none
    | some entry =>
      if !(← AppendLog.verifyEntry P entry) then return none
      if entry.prevLogHash ≠ prev then return none
      verifyHistoryFrom log seqs entry.entryHash (entryHashes ++ [entry.entryHash])

/-- `verify_history`. -/
def verifyHistory (storage : Storage) (trustedRoot : Hash) : Except PyError Bool := do
  let n := storage.log.length
  match ← verifyHistoryFrom P storage.log (List.range n) AppendLog.genesisPrevHash [] with
  | none => return false
  | some entryHashes => return decide (Merkle.rootHash P entryHashes = trustedRoot)

/-- `anchor`. -/
def anchor (storage : Storage) (roster : Roster) (now : Int) : Except PyError AnchorRecord := do
  pure {
    rootHash := ← AppendLog.rootHash P storage.log, entryCount := storage.log.length, timestampNs := now,
    rosterHash := ← roster.rosterHash P }

/-- `commit_roster`: the genesis entry of an empty log, or entry 0 if that is the roster's. -/
def commitRoster (keys : Keys) (now : Int) (roster : Roster) : Prog PyError Storage (Option LogEntry) := do
  statement .fault
  let n ← read fun s => s.log.length
  if n = 0 then
    let data ← lift (roster.rosterBytes P)
    let entry ← Storage.append P keys now data
    pure (some entry)
  else do
    statement .fault
    let entry0 ← lift (← read fun s => AppendLog.get s.log 0)
    match entry0 with
    | none => pure none
    | some entry0 =>
      let rosterHash ← lift (roster.rosterHash P)
      pure (if entry0.entryHash = rosterHash then some entry0 else none)

end Attest

end ArxDB.Impl
