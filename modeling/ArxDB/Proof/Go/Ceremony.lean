import ArxDB.Proof.Ceremony
import ArxDB.Proof.Go.Anchor

/-!
# The genesis ceremony of the daemon

The log of a `GrpcStorage` as its clients see it, over the log keys of the
database, and with it the ceremony over both storages.
-/

namespace ArxDB.Proof.Go

open Impl (Bytes Hash LogApi Prims PyError Roster)
open Impl.Go Failing

variable {P : Prims} {kp : Keypair} {now : Int64} {s s' : Storage} {log : List LogEntry}

/-! ## The log of a `GrpcStorage` -/

/-- An entry as the client makes it. -/
def clientEntry (le : LogEntry) : Impl.LogEntry where
  seq := le.seq.toInt
  timestampNs := le.timestampNs.toInt
  signerPubkey := le.signerPubkey
  entryHash := le.entryHash
  prevLogHash := le.prevLogHash
  signature := le.signature
  payload := le.payload.bytes

theorem logEntryFromProto_eq (le : LogEntry) : GrpcStorage.logEntryFromProto le = .ok (clientEntry le) := by
  simp only [GrpcStorage.logEntryFromProto, GrpcStorage.hash, Impl.Hash.new_raw]
  rfl

/-- The log keys hold these entries, whose payloads came as fields of requests. -/
structure Serves (P : Prims) (log : List LogEntry) (db : Pebble) : Prop where
  holds : LogHolds P log db
  linked : Linked P log
  payload {le : LogEntry} (h : le ∈ log) : ∃ data, le.payload = .ofField data

theorem Serves.empty : Serves P [] ∅ := by
  refine ⟨.empty, ⟨fun h => ?_, fun h => ?_, fun h => ?_⟩, fun h => ?_⟩
  all_goals cases h

theorem Serves.handled {request : Request} {response : Response} (h : Serves P log s.db)
    (hlen : log.length < 2 ^ 63) (hd : Handled P kp now request s response s') :
    Serves P (log ++ [response.entry]) s'.db ∧ response.entry.payload = .ofField request.payload ∧
      response.entry.entryHash = P.hashBytes request.payload := by
  obtain ⟨pre, b, hpre, hn, hdb⟩ := hd
  obtain ⟨hholds, hlinked⟩ := h.holds.next h.linked hlen hpre hn
  refine ⟨⟨hdb ▸ hholds, hlinked, fun {le} hle => ?_⟩, hn.payload, ?_⟩
  · rcases List.mem_append.mp hle with hle | hle
    · exact h.payload hle
    · obtain rfl := List.mem_singleton.mp hle
      exact ⟨_, hn.payload⟩
  · have hhash := hn.entryHash
    rwa [ofField_bytes] at hhash

theorem entryAt_zero : entryAt log 0 = log[0]? := entryAt_ofNat (by decide)

theorem len_eq_zero_iff (h : LogHolds P log s.db) (hlen : log.length < 2 ^ 63) :
    AppendLog.len s.db = 0 ↔ log = [] := by
  rw [h.len, ← List.length_eq_zero_iff]
  constructor
  · exact fun h => ofNat_inj hlen (by decide) h
  · intro h
    rw [h]
    rfl

/-- Entry 0 is read back unless its payload is empty. -/
theorem client_get_zero (laws : P.GoCborLaws) (h : Serves P log s.db) (hlen : log.length < 2 ^ 63) {e : Impl.LogEntry} :
    GrpcStorage.get P s 0 = .ok (some e) ↔ (log.map clientEntry)[0]? = some e ∧ e.payload ≠ [] := by
  rw [GrpcStorage.get, if_neg (by decide), Service.getEntry, show Int64.ofInt 0 = 0 from rfl,
    h.holds.get laws hlen, entryAt_zero, List.getElem?_map]
  cases h0 : log[0]? with
  | none => simp [Except.mapError, bind, Except.bind, pure, Except.pure]
  | some le =>
    obtain ⟨data, hdata⟩ := h.payload (List.mem_of_getElem? h0)
    by_cases hd : data = []
    · have hnil : le.payload = none := by rw [hdata, hd]; rfl
      simp [hnil, Except.mapError, bind, Except.bind]
      rintro rfl
      rw [clientEntry, hnil]
      rfl
    · have hsome : le.payload ≠ none := by
        rw [hdata, Slice.ofField, if_neg hd]
        exact fun h => by cases h
      have hne : (clientEntry le).payload ≠ [] := by
        rw [clientEntry, hdata, ofField_bytes]
        exact hd
      simp only [Option.elim_some, if_neg hsome, Except.mapError, bind, Except.bind, logEntryFromProto_eq,
        Functor.map, Except.map, Except.ok.injEq, Option.some.injEq, Option.map_some]
      constructor
      · rintro rfl
        exact ⟨rfl, hne⟩
      · exact fun h => h.1

/-- The log keys of the database. -/
def grpcLog (P : Prims) : SharedLog Storage where
  holds s es := ∃ log, Serves P log s.db ∧ es = log.map clientEntry
  empty s := AppendLog.len s.db = 0
  fits n := n < 2 ^ 63
  readable data := data ≠ []
  empty_iff {s es} h hf := by
    obtain ⟨log, hs, rfl⟩ := h
    rw [List.length_map] at hf
    rw [len_eq_zero_iff hs.holds hf, List.map_eq_nil_iff]
  fits_of_le h h' := Nat.lt_of_le_of_lt h h'

theorem grpcLog_grows (kp : Keypair) (now : Int64) (request : Request) (fault : Option Nat) {es : List Impl.LogEntry}
    (h : (grpcLog P).holds s es) (hf : (grpcLog P).fits es.length) :
    ∃ es', (grpcLog P).holds ((Service.handle P kp now request).exec fault s).2 es' ∧ Grows es es' ∧
      ∀ response, ((Service.handle P kp now request).exec fault s).1 = .ok response →
        es' = es ++ [clientEntry response.entry] ∧ response.entry.payload = .ofField request.payload ∧
          response.entry.entryHash = P.hashBytes request.payload := by
  obtain ⟨log, hs, rfl⟩ := h
  have hlen : log.length < 2 ^ 63 := by
    have : (log.map clientEntry).length < 2 ^ 63 := hf
    rwa [List.length_map] at this
  have hwp : WP (Service.handle P kp now request) _ _ s := handle_wp
  rcases hx : (Service.handle P kp now request).exec fault s with ⟨x | response, s'⟩
  · have hdb : s'.db = s.db := hwp.error hx
    exact ⟨_, ⟨log, hdb ▸ hs, rfl⟩, .inl rfl, fun r hr => by cases hr⟩
  · obtain ⟨hs', hpay, hhash⟩ := hs.handled hlen (hwp.ok hx)
    refine ⟨_, ⟨_, hs', rfl⟩, .inr ⟨clientEntry response.entry, by simp⟩, ?_⟩
    rintro r hr
    cases hr
    exact ⟨by simp, hpay, hhash⟩

theorem grpc_serves (laws : P.GoCborLaws) {fault : Option Nat} : (grpcLog P).Serves P (.grpc P kp now fault) where
  len {s es n} h hf hlen := by
    obtain ⟨log, hs, rfl⟩ := h
    rw [List.length_map] at hf ⊢
    obtain ⟨-, rfl⟩ := client_len_eq_ok.mp hlen
    rw [hs.holds.len, Int64.toInt_ofNat_of_lt hf, Int.toNat_natCast]
  get {s es e} h hf := by
    obtain ⟨log, hs, rfl⟩ := h
    rw [List.length_map] at hf
    exact client_get_zero laws hs hf
  append {s es} data h hf := by
    obtain ⟨es', hh, hg, hok⟩ := grpcLog_grows kp now (.append data) fault h hf
    refine ⟨es', hh, hg, fun e he => ?_⟩
    cases hr : ((Service.handle P kp now (.append data)).exec fault s).1 with
    | error x =>
      simp only [LogApi.grpc, GrpcStorage.append, hr] at he
      cases he
    | ok response =>
      simp only [LogApi.grpc, GrpcStorage.append, hr, Except.mapError, bind, Except.bind, logEntryFromProto_eq,
        Except.ok.injEq] at he
      subst he
      obtain ⟨hes, hpay, hhash⟩ := hok response hr
      refine ⟨hes, hhash, ?_⟩
      rw [clientEntry, hpay]
      exact ofField_bytes data

theorem logClient_suits (laws : P.GoCborLaws) (hne : ∀ v, P.dumps v ≠ .ok []) (c : LogClient) :
    (grpcLog P).Suits P (c.client P kp) := by
  cases c with
  | commitRoster roster now fault =>
    refine ⟨grpc_serves laws, fun data hdata hnil => ?_⟩
    obtain ⟨c, -, hdumps⟩ := Proof.bind_eq_ok.mp (hnil ▸ hdata)
    exact hne c hdumps
  | other rpc =>
    intro s es h hf
    obtain ⟨es', hh, hg, -⟩ := grpcLog_grows kp rpc.now rpc.request rpc.fault h hf
    exact ⟨es', hh, hg⟩

/-! ## The ceremony -/

/-- The bytes of the rosters that clients commit. -/
def rosterMessages {ε σ ι : Type} (P : Prims) (clients : ι → Impl.Ceremony.Client ε σ) : Set Bytes :=
  {data | ∃ i api roster, clients i = .commitRoster api roster ∧ roster.rosterBytes P = .ok data}

/-- On either storage, in every run of clients in which no entry comes between
a length that `commit_roster` read as 0 and its append: what `commit_roster`
has returned is entry 0 with the hash of the roster, for one roster only. -/
theorem commitRoster_genesis {ι : Type} [DecidableEq ι] (P : Prims) (kp : Keypair) (hc : P.CborLaws)
    (laws : P.GoCborLaws) (hne : ∀ v, P.dumps v ≠ .ok []) (schedule : List ι) :
    (∀ calls : ι → Impl.LogCall, Set.InjOn P.hashBytes (rosterMessages P fun i => (calls i).client P) →
      StillEmpty P (sqliteLog P) (fun i => (calls i).client P) .empty schedule →
      Genesis P (fun i => (calls i).client P)
        ((Impl.Ceremony.start P (fun i => (calls i).client P) .empty).run schedule)) ∧
    ∀ calls : ι → LogClient, Set.InjOn P.hashBytes (rosterMessages P fun i => (calls i).client P kp) →
      schedule.length < 2 ^ 63 →
      StillEmpty P (grpcLog P) (fun i => (calls i).client P kp) Daemon.start schedule →
      Genesis P (fun i => (calls i).client P kp)
        ((Impl.Ceremony.start P (fun i => (calls i).client P kp) Daemon.start).run schedule) := by
  refine ⟨fun calls hM hund => ?_, fun calls hM hlen hund => ?_⟩
  · obtain ⟨es, hafter⟩ := run_after (fun i => logCall_suits (calls i)) ⟨rfl, .nil⟩ trivial hund
    exact hafter.genesis (fun i => logCall_suits (calls i)) trivial hc hM
  · obtain ⟨es, hafter⟩ := run_after (fun i => logClient_suits laws hne (calls i)) ⟨[], .empty, rfl⟩ hlen hund
    exact hafter.genesis (fun i => logClient_suits laws hne (calls i)) hlen hc hM

section Example

open Reference

theorem reference_dumps_ne_nil (v : Impl.Value) : reference.dumps v ≠ .ok [] := by
  intro h
  obtain ⟨hpos, -⟩ := Cbor.decodes_encode (reference_dumps.mp h)
  exact Nat.lt_irrefl 0 hpos

/-- A ceremony, and an append of one byte. -/
def lateRoster (i : Bool) : Impl.LogCall :=
  ⟨⟨List.replicate 32 7, List.replicate 32 7⟩, 10, none, if i then .append [1] else .commitRoster aliceRoster⟩

/-- The length is read, the byte is appended, and the ceremony goes on. -/
def lateRosterPool : Threads.Pool Bool Impl.Storage (Except PyError (Option Impl.LogEntry)) :=
  (Impl.Ceremony.start reference (fun i => (lateRoster i).client reference) .empty).run [false, true, false]

/-- Another client appends after the length was read: `commit_roster` returns entry 1. -/
theorem roster_second : ¬ ∀ (calls : Bool → Impl.LogCall) (schedule : List Bool),
    Genesis reference (fun i => (calls i).client reference)
      ((Impl.Ceremony.start reference (fun i => (calls i).client reference) .empty).run schedule) := by
  intro h
  have hret : ∃ e : Impl.LogEntry, lateRosterPool.Returned false (.ok (some e)) ∧ e.seq = 1 := ⟨_, rfl, rfl⟩
  obtain ⟨e, he, hseq⟩ := hret
  have hget : Impl.AppendLog.get lateRosterPool.shared.log 0 = .ok (some e) :=
    ((h lateRoster [false, true, false]).entry false rfl he).1
  have h0 := (mem_of_get hget).2
  rw [hseq] at h0
  cases h0

/-- A roster of one other agent. -/
def bobRoster : Impl.Roster := ⟨[("bob", List.replicate 32 9)], by decide, by decide, by decide⟩

/-- Two different rosters. -/
def rosterOf (i : Bool) : Impl.Roster := if i then bobRoster else aliceRoster

/-- Their ceremonies, on one directory. -/
def ceremonies (i : Bool) : Impl.LogCall :=
  ⟨⟨List.replicate 32 7, List.replicate 32 7⟩, 10, none, .commitRoster (rosterOf i)⟩

/-- Their ceremonies, on one daemon. -/
def grpcCeremonies (i : Bool) : LogClient := .commitRoster (rosterOf i) 10 none

theorem ceremonies_injOn {ε σ : Type} {clients : Bool → Impl.Ceremony.Client ε σ}
    (h : ∀ i api roster, clients i = .commitRoster api roster → roster = rosterOf i) :
    Set.InjOn reference.hashBytes (rosterMessages reference clients) := by
  refine injOn_of_nodup ([false, true].filterMap fun i => ((rosterOf i).rosterBytes reference).toOption)
    ?_ (by decide +kernel)
  rintro data ⟨i, api, roster, hc, hd⟩
  rw [h i api roster hc] at hd
  rw [List.mem_filterMap]
  exact ⟨i, by cases i <;> simp, by rw [hd]; rfl⟩

/-- One after the other, on either storage: the first has entry 0, the second has nothing. -/
theorem commitRoster_genesis_two :
    (∃ e, ((Impl.Ceremony.start reference (fun i => (ceremonies i).client reference) .empty).run
        [false, false, true, true]).Returned false (.ok (some e)) ∧
      ((Impl.Ceremony.start reference (fun i => (ceremonies i).client reference) .empty).run
        [false, false, true, true]).Returned true (.ok none) ∧
      Genesis reference (fun i => (ceremonies i).client reference)
        ((Impl.Ceremony.start reference (fun i => (ceremonies i).client reference) .empty).run
          [false, false, true, true])) ∧
    Genesis reference (fun i => (grpcCeremonies i).client reference exampleKeypair)
      ((Impl.Ceremony.start reference (fun i => (grpcCeremonies i).client reference exampleKeypair)
        Daemon.start).run [false, false, true, true]) := by
  have adjacent : ∀ before (i : Bool) between rest, [false, false, true, true] = before ++ i :: between ++ i :: rest →
      i ∉ before → i ∉ between → between = [] := by
    intro before i between rest hs hb hn
    rcases before with _ | ⟨b, _ | ⟨b', _ | ⟨b'', before⟩⟩⟩ <;> rcases between with _ | ⟨c, between⟩ <;> simp_all
  have first : ∃ e, ((Impl.Ceremony.start reference (fun i => (ceremonies i).client reference) .empty).run
      [false, false]).Returned false (.ok (some e)) := ⟨_, rfl⟩
  obtain ⟨e, he⟩ := first
  have second : Impl.Ceremony.compare reference (.sqlite reference ⟨List.replicate 32 7, List.replicate 32 7⟩ 10 none)
      bobRoster ((Impl.Ceremony.start reference (fun i => (ceremonies i).client reference) .empty).run
        [false, false]).shared = .ok none := by decide +kernel
  have key := commitRoster_genesis reference exampleKeypair reference_cborLaws reference_goCborLaws
    reference_dumps_ne_nil [false, false, true, true]
  refine ⟨⟨e, he.run [true, true], congrArg Threads.Thread.done second,
      key.1 ceremonies (ceremonies_injOn ?_) (stillEmpty_of_adjacent adjacent)⟩,
    key.2 grpcCeremonies (ceremonies_injOn ?_) (by decide) (stillEmpty_of_adjacent adjacent)⟩
  · rintro i api roster hc
    cases hc
    rfl
  · rintro i api roster hc
    cases hc
    rfl

end Example

end ArxDB.Proof.Go
