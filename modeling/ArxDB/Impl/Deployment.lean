import ArxDB.Impl.Http
import ArxDB.Impl.Seed

/-!
# A data directory

`seed_phaser.py` and `arxdb_serve.py` on one directory with the `sqlite`
backend: beside the storage it has the key pairs, the roster and the anchor,
which `write_bytes` writes a byte after the other. What the seed script prints
is left out, except for what it computes for it.
-/

namespace ArxDB.Impl

open Failing Prog

/-- The files beside the storage. -/
inductive RootFile where
  | seedKeypair | serverKeypair | roster | anchor
deriving DecidableEq, Repr

/-- What is under `root`: the files beside the storage, and the storage. -/
structure DataRoot where
  file : RootFile → Option Bytes
  storage : Storage

namespace DataRoot

/-- `mkdir`. -/
def empty : DataRoot := ⟨fun _ => none, .empty⟩

/-- The root with `data` in the file `f`. -/
def setFile (f : RootFile) (data : Bytes) (root : DataRoot) : DataRoot :=
  { root with file := Function.update root.file f (some data) }

/-- `path.read_bytes()` if `path.exists()`. -/
def readBytes (f : RootFile) : Prog PyError DataRoot (Option Bytes) := do
  statement .fault
  read (·.file f)

/-- `path.write_bytes(data)`: the file is truncated and written from the start. -/
def writeBytes (f : RootFile) (data : Bytes) : Prog PyError DataRoot Unit := do
  changes .fault ((List.range (data.length + 1)).map fun n => setFile f (data.take n))
  statement .fault

/-- A program of the storage, run in the root. -/
def onStorage {α : Type} (x : Prog PyError Storage α) : Prog PyError DataRoot α :=
  zoom DataRoot.storage (fun storage root => { root with storage }) x

/-- `_load_or_create_keypair` of either script; `generated` is what
`generate_keypair` returns. -/
def loadOrCreateKeypair (f : RootFile) (generated : Keys) : Prog PyError DataRoot Keys := do
  match (← readBytes f).filter (·.length = 64) with
  | some data => pure ⟨data.take 32, data.drop 32⟩
  | none => do
    writeBytes f (generated.priv ++ generated.pub)
    pure generated

end DataRoot

open DataRoot

/-- `_SERVER_AGENT`. -/
def serverAgent : String := "arxdb-server"

namespace Seed

variable (P : Prims)

/-- `verify_seed_attestation`. -/
def verifySeedAttestation (checkers : Checkers) (corpus : Corpus) (storage : Storage) (roster : Roster)
    (signerPubkey : Bytes) : Except PyError (List (String × Bool × Option String)) :=
  corpus.edges.mapM fun e => do
    match ← buildEdge P checkers (← proposal corpus signerPubkey e) with
    | none => pure (e.key, false, none)
    | some edge =>
      let res ← Attest.verifyEdgeAttestation P edge storage roster
      pure (e.key, res.ok, res.signerAgentId)

/-- The queries of `_print_exit_criteria`. -/
def exitCriteria (corpus : Corpus) (storage : Storage) :
    Except PyError (ReachabilityResult × ReachabilityResult × PathResult) := do
  let n5 ← (← node corpus "N5").nodeId P
  let n7 ← (← node corpus "N7").nodeId P
  pure (← Reachability.reachable P n5 storage .k0 [] none, ← Reachability.reachable P n7 storage .k1 [] none,
    ← PathDiscovery.pathDiscovery P n7 storage .k1)

/-- `persist_anchor`. -/
def persistAnchor (roster : Roster) (now : Int) : Prog PyError DataRoot AnchorRecord := do
  let record ← lift (← read fun root => Attest.anchor P root.storage roster now)
  writeBytes .roster (← lift (roster.rosterBytes P))
  writeBytes .anchor (← lift (record.anchorBytes P))
  pure record

/-- The roster of `main`. -/
def roster (pub serverPub : Bytes) : Except PyError Roster :=
  Roster.new [("Skye", pub), (serverAgent, serverPub)] (by simp [serverAgent])

end Seed

/-- A run of `seed_phaser.py`: the key pairs it would generate, what its
checkers answer, the times it reads, and the statement at which it stops, if it
does. -/
structure SeedMain where
  generated : Keys
  serverGenerated : Keys
  checkers : Checkers
  now : Int
  clock : Nat → Int
  anchoredAt : Int
  fault : Option Nat

/-- What a run of `seed_phaser.py` reports. -/
structure SeedReport where
  rows : List SeedRow
  attested : List (String × Bool × Option String)
  anchor : AnchorRecord

/-- `main` of `seed_phaser.py`. -/
def SeedMain.main (P : Prims) (corpus : Corpus) (m : SeedMain) : Prog PyError DataRoot SeedReport := do
  let keys ← loadOrCreateKeypair .seedKeypair m.generated
  let serverKeys ← loadOrCreateKeypair .serverKeypair m.serverGenerated
  statement .fault
  let roster ← lift (Seed.roster keys.pub serverKeys.pub)
  let _ ← onStorage (Attest.commitRoster P keys m.now roster)
  let rows ← onStorage (Seed.seed P m.checkers keys m.clock corpus keys.pub)
  let _ ← lift (← read fun root => Seed.exitCriteria P corpus root.storage)
  let attested ← lift (← read fun root => Seed.verifySeedAttestation P m.checkers corpus root.storage roster keys.pub)
  let _ ← lift (roster.rosterHash P)
  let anchor ← Seed.persistAnchor P roster m.anchoredAt
  let _ ← lift (anchor.anchorHash P)
  statement .fault
  pure { rows, attested, anchor }

namespace Serve

theorem nodup_bind {roster : Roster} {agent : String} {pub : Bytes} (h : agent ∉ roster.entries.map Prod.fst) :
    ((roster.entries ++ [(agent, pub)]).map Prod.fst).Nodup := by
  rw [List.map_append, List.map_singleton, ← List.concat_eq_append]
  exact List.Nodup.concat h roster.nodup

/-- `_load_or_create_roster`. -/
def loadOrCreateRoster (P : Prims) (pub : Bytes) : Prog PyError DataRoot Roster := do
  let roster ← lift ((← readBytes .roster).elim (Roster.new [] List.nodup_nil) (Roster.fromBytes P))
  if h : serverAgent ∈ roster.entries.map Prod.fst then pure roster
  else do
    let merged ← lift (Roster.new (roster.entries ++ [(serverAgent, pub)]) (nodup_bind h))
    writeBytes .roster (← lift (merged.rosterBytes P))
    pure merged

end Serve

/-- A run of `arxdb_serve.py`: the key pair it would generate, the statement at
which its start stops, if it does, and the requests that it answers. -/
structure ServeMain where
  generated : Keys
  fault : Option Nat
  requests : List HttpRequest

namespace ServeMain

variable (P : Prims) (L : Lib)

/-- `main` of `arxdb_serve.py` up to `serve`. -/
def start (m : ServeMain) : Prog PyError DataRoot App := do
  let keys ← loadOrCreateKeypair .serverKeypair m.generated
  let roster ← Serve.loadOrCreateRoster P keys.pub
  statement .fault
  pure ⟨keys, roster, keys.pub⟩

/-- The application, if it is started. -/
def app? (root : DataRoot) (m : ServeMain) : Option App := ((m.start P).exec m.fault root).1.toOption

/-- The directory on which the application is started. -/
def started (root : DataRoot) (m : ServeMain) : DataRoot := ((m.start P).exec m.fault root).2

/-- What the application has stored and answered when it is stopped. -/
def served (app : App) (root : DataRoot) (m : ServeMain) : Http.Served :=
  m.requests.foldl (Http.serveOne P L app) ⟨(m.started P root).storage, []⟩

/-- The directory after the run. -/
def exec (root : DataRoot) (m : ServeMain) : DataRoot :=
  match m.app? P root with
  | none => m.started P root
  | some app => { m.started P root with storage := (m.served P L app root).storage }

end ServeMain

/-- A run of either script. -/
inductive Boot where
  | seed (m : SeedMain)
  | serve (m : ServeMain)

namespace Boot

variable (P : Prims) (L : Lib) (corpus : Corpus)

/-- The directory after the run. -/
def exec (root : DataRoot) : Boot → DataRoot
  | .seed m => ((m.main P corpus).exec m.fault root).2
  | .serve m => m.exec P L root

/-- The directory after the runs, made empty. -/
def run (boots : List Boot) : DataRoot := boots.foldl (exec P L corpus) .empty

end Boot

end ArxDB.Impl
