import ArxDB.Framework.Threads
import ArxDB.Impl.Go.Client
import ArxDB.Impl.Session

/-!
# `commit_roster` among other clients

`commit_roster` reads the length and then, in another step, appends or reads
entry 0, of whichever storage it is given. The calls of the other clients are
one step each.
-/

namespace ArxDB.Impl

open Threads

/-- What `commit_roster` calls of a storage; `raise` is for its own exceptions. -/
structure LogApi (ε σ : Type) where
  len : σ → Except ε Nat
  get : σ → Int → Except ε (Option LogEntry)
  append : Bytes → σ → Except ε LogEntry × σ
  raise : PyError → ε

namespace LogApi

/-- `Storage.log`. -/
def sqlite (P : Prims) (keys : Keys) (now : Int) (fault : Option Nat) : LogApi PyError Storage where
  len s := .ok s.log.length
  get s seq := AppendLog.get s.log seq
  append data s := (Storage.append P keys now data).exec fault s
  raise := id

/-- `GrpcStorage.log`. -/
def grpc (P : Prims) (kp : Go.Keypair) (now : Int64) (fault : Option Nat) : LogApi Go.ClientError Go.Storage where
  len := Go.GrpcStorage.len
  get := Go.GrpcStorage.get P
  append := Go.GrpcStorage.append P kp now fault
  raise := .raised

end LogApi

namespace Ceremony

variable {ε σ : Type} (P : Prims) (api : LogApi ε σ) (roster : Roster)

/-- `return storage.log.append(roster.roster_bytes())`. -/
def append : Thread σ (Except ε (Option LogEntry)) :=
  match roster.rosterBytes P with
  | .ok data => .act (fun s => (api.append data s).2) fun s => .done (some <$> (api.append data s).1)
  | .error e => .done (.error (api.raise e))

/-- The comparison with `storage.log.get(0)`. -/
def compare (s : σ) : Except ε (Option LogEntry) := do
  match ← api.get s 0 with
  | some entry0 => do
    if entry0.entryHash = (← (roster.rosterHash P).mapError api.raise) then pure (some entry0) else pure none
  | none => pure none

/-- `commit_roster`. -/
def commitRoster : Thread σ (Except ε (Option LogEntry)) :=
  .act id fun s => match api.len s with
    | .error e => .done (.error e)
    | .ok 0 => append P api roster
    | .ok (_ + 1) => .act id fun s => .done (compare P api roster s)

/-- A client of the log. -/
inductive Client (ε σ : Type) where
  | commitRoster (api : LogApi ε σ) (roster : Roster)
  | other (write : σ → σ)

/-- What a client does, action by action. -/
def Client.thread : Client ε σ → Thread σ (Except ε (Option LogEntry))
  | .commitRoster api roster => Ceremony.commitRoster P api roster
  | .other write => .act write fun _ => .done (.ok none)

/-- Clients, each about to make its call. -/
def start {ι : Type} (clients : ι → Client ε σ) (s : σ) : Pool ι σ (Except ε (Option LogEntry)) :=
  ⟨s, fun i => (clients i).thread P⟩

end Ceremony

/-- A call on one directory as a client of its log. -/
def LogCall.client (P : Prims) (c : LogCall) : Ceremony.Client PyError Storage :=
  match c.op with
  | .commitRoster roster => .commitRoster (.sqlite P c.keys c.now c.fault) roster
  | _ => .other fun s => c.exec P s

/-- A client of the daemon. -/
inductive Go.LogClient where
  | commitRoster (roster : Roster) (now : Int64) (fault : Option Nat)
  | other (rpc : Go.Rpc)

/-- A client of the daemon as a client of its log. -/
def Go.LogClient.client (P : Prims) (kp : Go.Keypair) : Go.LogClient → Ceremony.Client Go.ClientError Go.Storage
  | .commitRoster roster now fault => .commitRoster (.grpc P kp now fault) roster
  | .other rpc => .other fun s => ((Go.Service.handle P kp rpc.now rpc.request).exec rpc.fault s).2

end ArxDB.Impl
