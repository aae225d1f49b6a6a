import ArxDB.Framework.Failing
import ArxDB.Impl.Merkle
import ArxDB.Impl.Serialization

/-!
# `append_log.py`

The `log` table, its rows in the order of insertion. Columns are raw bytes:
`Hash(…)` raises when a row that is read holds a hash of another length.
-/

namespace ArxDB.Impl

open Failing Prog

/-- A row of the `log` table. -/
structure LogRow where
  seq : Int
  timestampNs : Int
  signerPubkey : Bytes
  entryHash : Bytes
  prevLogHash : Bytes
  signature : Bytes
  payload : Bytes
deriving DecidableEq, Repr

/-- `LogEntry`: its hashes have their size. -/
structure LogEntry where
  seq : Int
  timestampNs : Int
  signerPubkey : Bytes
  entryHash : Hash
  prevLogHash : Hash
  signature : Bytes
  payload : Bytes
deriving DecidableEq

/-- The columns of an entry. -/
def LogEntry.row (e : LogEntry) : LogRow where
  seq := e.seq
  timestampNs := e.timestampNs
  signerPubkey := e.signerPubkey
  entryHash := e.entryHash.raw
  prevLogHash := e.prevLogHash.raw
  signature := e.signature
  payload := e.payload

/-- `LogEntry(…)` of the columns of a row. -/
def LogRow.entry (r : LogRow) : Except PyError LogEntry := do
  pure {
    seq := r.seq, timestampNs := r.timestampNs, signerPubkey := r.signerPubkey,
    entryHash := ← Hash.new r.entryHash, prevLogHash := ← Hash.new r.prevLogHash,
    signature := r.signature, payload := r.payload }

/-- The table `log`. -/
abbrev Log := List LogRow

/-- The key pair a `Storage` is opened with. -/
structure Keys where
  priv : Bytes
  pub : Bytes

namespace AppendLog

/-- `GENESIS_PREV_HASH`: 34 zero bytes. -/
def genesisPrevHash : Hash := ⟨List.replicate 34 0, length_zeros⟩

/-- What `_signature_message` encodes. -/
def signatureTuple (seq timestampNs : Int) (signerPubkey : Bytes) (entryHash prevLogHash : Hash) : Value :=
  .list [.int seq, .int timestampNs, .bytes signerPubkey, .bytes entryHash.raw, .bytes prevLogHash.raw]

/-- `_signature_message`: the bytes that are signed. -/
def signatureMessage (P : Prims) (seq timestampNs : Int) (signerPubkey : Bytes)
    (entryHash prevLogHash : Hash) : Except PyError Bytes :=
  P.canonicalEncode (signatureTuple seq timestampNs signerPubkey entryHash prevLogHash)

/-- `SELECT … FROM log WHERE seq = ?`. -/
def row? (log : Log) (seq : Int) : Option LogRow := log.find? (·.seq = seq)

/-- `_prev_hash`; subscripting a missing row is a `TypeError`. -/
def prevHash (log : Log) (seq : Int) : Except PyError Hash :=
  if seq = 0 then .ok genesisPrevHash
  else match row? log (seq - 1) with
    | some row => Hash.new row.entryHash
    | none => .error .typeError

/-- `INSERT INTO log`, where `seq` is the primary key. -/
def insert (row : LogRow) : Prog PyError Log Unit := do
  if ← read fun log => (row? log row.seq).isSome then lift (.error .integrityError)
  else update fun log => log ++ [row]

/-- `append`, at the time `now`. -/
def append (P : Prims) (keys : Keys) (now : Int) (payload : Bytes) : Prog PyError Log LogEntry := do
  statement .fault
  let seq ← read fun log => (log.length : Int)
  let entryHash := P.hashBytes payload
  statement .fault
  let prevLogHash ← lift (← read (prevHash · seq))
  let message ← lift (signatureMessage P seq now keys.pub entryHash prevLogHash)
  let signature ← lift (P.sign keys.priv message)
  let entry : LogEntry := {
    seq, timestampNs := now, signerPubkey := keys.pub, entryHash, prevLogHash, signature, payload }
  statement .fault
  insert entry.row
  statement .fault
  pure entry

/-- `get`, of an index that SQLite has, one of 64 bits. -/
def get (log : Log) (seq : Int) : Except PyError (Option LogEntry) :=
  match row? log seq with
  | some row => some <$> row.entry
  | none => .ok none

/-- `SELECT entry_hash FROM log ORDER BY seq`. -/
def entryHashes (log : Log) : Except PyError (List Hash) :=
  (log.insertionSort fun a b => a.seq ≤ b.seq).mapM fun row => Hash.new row.entryHash

/-- `root_hash`. -/
def rootHash (P : Prims) (log : Log) : Except PyError Hash := Merkle.rootHash P <$> entryHashes log

/-- `get_inclusion_proof`. -/
def getInclusionProof (P : Prims) (log : Log) (seq : Int) : Except PyError Merkle.InclusionProof := do
  let hashes ← entryHashes log
  if seq < 0 ∨ hashes.length ≤ seq then .error .indexError
  else Merkle.inclusionProof P hashes seq

/-- `verify_entry`: the payload has the entry's hash, and the signature verifies under
the entry's key. -/
def verifyEntry (P : Prims) (entry : LogEntry) : Except PyError Bool :=
  if P.hashBytes entry.payload ≠ entry.entryHash then .ok false
  else do
    let message ← signatureMessage P entry.seq entry.timestampNs entry.signerPubkey entry.entryHash
      entry.prevLogHash
    P.verify entry.signerPubkey message entry.signature

end AppendLog

end ArxDB.Impl
