import ArxDB.Framework.BigEndian
import ArxDB.Impl.Go.Merkle

/-!
# `append_log.go`

The log's entries, their hashes and its length under prefixed keys, with the
sequence number in eight bytes.
-/

namespace ArxDB.Impl.Go

open Failing Prog BigEndian

/-- `keypair.bin`: the 32-byte seed and the public key. -/
structure Keypair where
  raw : Bytes
  size : raw.length = 64

namespace Keypair

/-- The seed, which stands for the private key. -/
def priv (kp : Keypair) : Bytes := kp.raw.take 32

/-- The public key. -/
def pub (kp : Keypair) : Bytes := kp.raw.drop 32

end Keypair

/-- `keys.Sign`. -/
def sign (P : Prims) (priv message : Bytes) : Except GoError Bytes :=
  if priv.length ≠ 32 then .error (.keySize priv.length) else .ok (P.ed25519Sign priv message).toList

/-- An entry. Keys and signatures are never nil; a payload can be. -/
structure LogEntry where
  seq : Int64
  timestampNs : Int64
  signerPubkey : Bytes
  entryHash : Hash
  prevLogHash : Hash
  signature : Bytes
  payload : Slice
deriving DecidableEq

/-- `cbor.Encode`. -/
def encode (P : Prims) (xs : List GoAny) : Except GoError Bytes :=
  match P.marshal xs with
  | some b => .ok b
  | none => .error .library

/-- `cbor.DecodeInto` a `[]any`. -/
def decodeInto (P : Prims) (data : Bytes) : Except GoError (List GoAny) :=
  match P.unmarshal data with
  | some xs => .ok xs
  | none => .error .library

/-- `toInt64`. -/
def toInt64 : GoAny → Except GoError Int64
  | .int64 x => .ok x
  | .uint64 x => if x.toNat > 2 ^ 63 - 1 then .error (.overflow x) else .ok x.toInt64
  | v => .error (.notInteger v)

/-- `toHash`. -/
def toHash : GoAny → Except GoError Hash
  | .bytes b => if h : b.length = 34 then .ok ⟨b, h⟩ else .error (.hashSize b.length)
  | v => .error (.notBytes v)

/-- `arr[i].([]byte)`. -/
def toBytes (i : Nat) : GoAny → Except GoError Bytes
  | .bytes b => .ok b
  | _ => .error (.fieldNotBytes i)

namespace AppendLog

/-- `entryKey`: `l`, and the index in 8 bytes. -/
def entryKey (seq : Int64) : Bytes := 'l'.toUInt8 :: be 8 seq.toUInt64.toNat

/-- `entryHashKey`: `h`, and the index in 8 bytes. -/
def entryHashKey (seq : Int64) : Bytes := 'h'.toUInt8 :: be 8 seq.toUInt64.toNat

/-- The key of the length of the log. -/
def logLenKey : Bytes := ['m', 'l', 'o', 'g', '_', 'l', 'e', 'n'].map Char.toUInt8

/-- `GenesisPrevHash`: 34 zero bytes. -/
def genesisPrevHash : Hash := ⟨List.replicate 34 0, length_zeros⟩

/-- `signatureMessage`: the bytes that are signed. -/
def signatureMessage (P : Prims) (seq ts : Int64) (pub : Bytes) (entryHash prevHash : Hash) : Except GoError Bytes :=
  encode P [.int64 seq, .int64 ts, .bytes pub, .bytes entryHash.raw, .bytes prevHash.raw]

/-- What `encodeEntry` encodes. -/
def entryFields (e : LogEntry) : List GoAny :=
  [.int64 e.seq, .int64 e.timestampNs, .bytes e.signerPubkey, .bytes e.entryHash.raw,
    .bytes e.prevLogHash.raw, .bytes e.signature, e.payload.toAny]

/-- `encodeEntry`. -/
def encodeEntry (P : Prims) (e : LogEntry) : Except GoError Bytes := encode P (entryFields e)

/-- `decodeEntry`: the seven fields in order, the first that does not fit refused. -/
def decodeEntry (P : Prims) (data : Bytes) : Except GoError LogEntry := do
  match ← decodeInto P data with
  | [seq, ts, pub, eh, ph, sig, payload] => do
    let seq ← (toInt64 seq).mapError (.field 0)
    let ts ← (toInt64 ts).mapError (.field 1)
    let pub ← toBytes 2 pub
    let eh ← toHash eh
    let ph ← toHash ph
    let sig ← toBytes 5 sig
    let payload ← toBytes 6 payload
    pure {
      seq, timestampNs := ts, signerPubkey := pub, entryHash := eh, prevLogHash := ph, signature := sig,
      payload := some payload }
  | arr => .error (.fieldCount arr.length)

/-- `int64(binary.BigEndian.Uint64(val))`. -/
def toLen (val : Bytes) : Int64 := (UInt64.ofNat (ofBe (val.take 8))).toInt64

/-- `lenInBatch`. -/
def lenInBatch (b : Batch) : Prog GoError Pebble Int64 := do
  statement .library
  match ← read (b.get · logLenKey) with
  | some val => pure (toLen val)
  | none => pure 0

/-- `prevHashInBatch`. -/
def prevHashInBatch (b : Batch) (seq : Int64) : Prog GoError Pebble Hash :=
  if seq = 0 then pure genesisPrevHash
  else do
    statement .library
    match ← read (b.get · (entryHashKey (seq - 1))) with
    | some val => pure (copyHash val)
    | none => lift (.error .notFound)

/-- `appendInBatch` after `lenInBatch`, at the time `now`. -/
def appendAt (P : Prims) (kp : Keypair) (now : Int64) (b : Batch) (entry : Slice) (seq : Int64) :
    Prog GoError Pebble (Batch × LogEntry) := do
  let entryHash := P.hashBytes entry.bytes
  let prevHash ← prevHashInBatch b seq
  let message ← lift (signatureMessage P seq now kp.pub entryHash prevHash)
  let sig ← lift (sign P kp.priv message)
  let le : LogEntry := {
    seq, timestampNs := now, signerPubkey := kp.pub, entryHash, prevLogHash := prevHash, signature := sig,
    payload := entry }
  let enc ← lift (encodeEntry P le)
  let b ← b.set (entryKey seq) enc
  let b ← b.set (entryHashKey seq) entryHash.raw
  let b ← b.set logLenKey (be 8 (seq + 1).toUInt64.toNat)
  pure (b, le)

/-- `appendInBatch`. -/
def appendInBatch (P : Prims) (kp : Keypair) (now : Int64) (b : Batch) (entry : Slice) :
    Prog GoError Pebble (Batch × LogEntry) := do
  appendAt P kp now b entry (← lenInBatch b)

/-- `Get`. -/
def get (P : Prims) (db : Pebble) (seq : Int64) : Except GoError (Option LogEntry) :=
  match db[entryKey seq]? with
  | some val => some <$> decodeEntry P val
  | none => .ok none

/-- `Len`. -/
def len (db : Pebble) : Int64 :=
  match db[logLenKey]? with
  | some val => toLen val
  | none => 0

/-- `entryHashes`. A negative capacity panics. -/
def entryHashes (db : Pebble) : Except GoError (List Hash) :=
  if len db < 0 then .error .makeslice
  else (List.range (len db).toInt.toNat).mapM fun seq =>
    match db[entryHashKey (.ofNat seq)]? with
    | some val => .ok (copyHash val)
    | none => .error .notFound

/-- `RootHash`. -/
def rootHash (P : Prims) (db : Pebble) : Except GoError Hash := Merkle.rootHash P <$> entryHashes db

/-- `GetInclusionProof`. -/
def getInclusionProof (P : Prims) (db : Pebble) (seq : Int64) : Except GoError Merkle.InclusionProof := do
  let hashes ← entryHashes db
  if seq < 0 ∨ hashes.length ≤ seq.toInt then .error (.seqRange seq hashes.length)
  else Merkle.buildInclusionProof P hashes seq.toInt

end AppendLog

end ArxDB.Impl.Go
