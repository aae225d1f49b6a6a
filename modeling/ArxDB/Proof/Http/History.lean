import ArxDB.Proof.Hashing
import ArxDB.Proof.Http.Graph
import ArxDB.Proof.Merkle
import ArxDB.Proof.Reproduce

/-!
# The anchor over HTTP

A server's requests are calls on its storage (`run_calls`), and the text of a
hash is read back as the hash (`hexToHash_h`). So the root that `/anchor`
answers can be sent to `/verify_history`, then or later: it is valid exactly
as long as the payloads logged by then have the filling of those logged when
it was asked for (`anchored_root_valid_iff`).
-/

namespace ArxDB.Proof.Http

open Impl Impl.Http HashTree

variable {P : Prims} {L : Lib} {app : App}

/-! ## Requests as calls -/

/-- The calls that requests make on the storage. -/
def calls (L : Lib) (app : App) (requests : List HttpRequest) : List StorageCall :=
  (requests.filterMap (call? L app)).map .verifyAndCommit

theorem run_calls (requests : List HttpRequest) :
    StorageCall.run P (calls L app requests) = (serve P L app requests).storage := by
  rw [serve_storage, StorageCall.run, CommitCall.run, calls, List.foldl_map]
  rfl

theorem keys_of_mem_calls {requests : List HttpRequest} {call : StorageCall} (hcall : call ∈ calls L app requests) :
    call.keys = app.keys := by
  obtain ⟨c, hc, rfl⟩ := List.mem_map.mp hcall
  obtain ⟨r, -, hr⟩ := List.mem_filterMap.mp hc
  unfold call? at hr
  split_ifs at hr
  obtain ⟨q, -, rfl⟩ := Option.map_eq_some_iff.mp hr
  rfl

theorem verifiedBlobs_calls {requests all : List HttpRequest} (hsub : ∀ r ∈ requests, r ∈ all) :
    verifiedBlobs P (calls L app requests) ⊆ storable P L app all := by
  rintro m ⟨c, hc, hm⟩
  obtain ⟨c', hc', he⟩ := List.mem_map.mp hc
  obtain rfl := StorageCall.verifyAndCommit.inj he
  obtain ⟨r, hr, hcall⟩ := List.mem_filterMap.mp hc'
  exact ⟨c', List.mem_filterMap.mpr ⟨r, hsub r hr, hcall⟩, hm⟩

/-- The log of a server whose key pair matches is a chain of verified entries. -/
theorem serve_chain (hk : P.KeyPair app.keys.priv app.keys.pub) (requests : List HttpRequest) :
    ∃ es, (serve P L app requests).storage.log = es.map LogEntry.row ∧ Chain P es ∧
      ∀ e ∈ es, AppendLog.verifyEntry P e = .ok true := by
  rw [← run_calls]
  refine (run_sound (verifiedBlobs_calls fun _ h => h) fun call hcall => ?_).log
  rw [keys_of_mem_calls hcall]
  exact hk

/-! ## Requests that ask for a hash -/

/-- A request to `target` whose body has this text in `field`. -/
def Asks (L : Lib) (r : HttpRequest) (target field : String) (t : Value) : Prop :=
  r.method = .POST ∧ path r.target = target ∧ ∃ body, readBody L r.body = .ok body ∧ body.getItem field = .ok t

theorem hexToHash_h (k : Hash) : hexToHash (h (some k)) = .ok k := by
  simp only [h, Value.ofChars, hexToHash, String.toList_ofList, fromHex_hex]

/-- A request to `/anchor`. -/
def IsAnchor (r : HttpRequest) : Prop := r.method = .GET ∧ path r.target = "/anchor"

instance (r : HttpRequest) : Decidable (IsAnchor r) := inferInstanceAs (Decidable (_ ∧ _))

theorem route_anchor {r : HttpRequest} (hr : IsAnchor r) (s : Storage) :
    route P L app s r = (answer (anchorRecord P app s r.now), s) := by
  obtain ⟨hmethod, hpath⟩ := hr
  simp only [route, endpoint, hmethod, hpath, show ("/anchor" : String) ≠ "/health" by decide, and_false, true_and,
    if_false, if_true]
  rfl

variable (P app) in
theorem route_verifyHistory {r : HttpRequest} {t : Value} (hr : Asks L r "/verify_history" "root_hash" t)
    (s : Storage) :
    ∃ body, body.getItem "root_hash" = .ok t ∧ route P L app s r = (answer (verifyHistory P s body), s) := by
  obtain ⟨hmethod, hpath, body, hbody, ht⟩ := hr
  refine ⟨body, ht, ?_⟩
  simp only [route, endpoint, hmethod, hpath, hbody, reduceCtorEq, false_and, true_and, if_false,
    show ("/verify_history" : String) ≠ "/query/reachable" by decide,
    show ("/verify_history" : String) ≠ "/query/path" by decide,
    show ("/verify_history" : String) ≠ "/reproduce" by decide, show ("/verify_history" : String) ≠ "/attest" by decide,
    if_true]
  rfl

/-! ## The root -/

theorem Chain.map_entryHash {es : List LogEntry} (hes : Chain P es) :
    es.map LogEntry.entryHash = (payloads (es.map LogEntry.row)).map P.hashBytes := by
  rw [payloads, List.map_map, List.map_map]
  exact List.map_congr_left hes.hashed

/-- The root over the hashes of the payloads that a storage logged. -/
def loggedRoot (P : Prims) (s : Storage) : Hash := Merkle.rootHash P ((payloads s.log).map P.hashBytes)

/-- What `verify_history` answers of a verified chain, for any root. -/
theorem Chain.decides {es : List LogEntry} (hes : Chain P es) (hv : ∀ e ∈ es, AppendLog.verifyEntry P e = .ok true)
    {s : Storage} (hs : s.log = es.map LogEntry.row) (root : Hash) :
    Attest.verifyHistory P s root = .ok (decide (loggedRoot P s = root)) := by
  have hself := hes.verifyHistory hv hs
  rw [Chain.map_entryHash hes, ← hs] at hself
  rw [Attest.verifyHistory] at hself ⊢
  rcases hx : Attest.verifyHistoryFrom P s.log (List.range s.log.length) AppendLog.genesisPrevHash [] with _ | _ | hs'
  · rw [hx] at hself
    cases hself
  · rw [hx] at hself
    cases hself
  · rw [hx] at hself
    have hroot : Merkle.rootHash P hs' = loggedRoot P s :=
      of_decide_eq_true (Except.ok.inj hself)
    rw [← hroot]
    rfl

/-- What `/anchor` answers of a log with this root. -/
def anchorAnswer (root : Hash) (count : Nat) (now : Int) (rosterHash : Hash) : Value :=
  .record [("root_hash", h (some root)), ("entry_count", .int count), ("timestamp_ns", .int now),
    ("roster_hash", h (some rosterHash))]

/-- What `/verify_history` answers of a root. -/
def historyAnswer (root : Hash) (valid : Bool) : Value :=
  .record [("root_hash", h (some root)), ("valid", .bool valid)]

theorem anchorRecord_eq {es : List LogEntry} (hes : Chain P es) {s : Storage} (hs : s.log = es.map LogEntry.row)
    {rosterHash : Hash} (hroster : app.roster.rosterHash P = .ok rosterHash) (now : Int) :
    anchorRecord P app s now = .ok
      (anchorAnswer (loggedRoot P s) s.log.length now rosterHash) := by
  have hroot : AppendLog.rootHash P s.log = .ok (loggedRoot P s) := by
    rw [loggedRoot, hs, rootHash_map_row hes.seq, Chain.map_entryHash hes]
  simp only [anchorRecord, Attest.anchor, hroot, hroster, bind, Except.bind, pure, Except.pure]
  rfl

theorem verifyHistory_eq {s : Storage} {root : Hash} {valid : Bool} (hs : Attest.verifyHistory P s root = .ok valid)
    {body : Value} (hbody : body.getItem "root_hash" = .ok (h (some root))) :
    verifyHistory P s body = .ok (historyAnswer root valid) := by
  simp only [verifyHistory, hbody, hexToHash_h, hs, bind, Except.bind, pure, Except.pure]
  rfl

/-- The root that `/anchor` answers after any requests is valid for
`/verify_history` after any later ones exactly when the payloads that are
logged then have the same filling as those that were logged at the time. -/
theorem anchored_root_valid_iff (hk : P.KeyPair app.keys.priv app.keys.pub) {rosterHash : Hash}
    (hroster : app.roster.rosterHash P = .ok rosterHash) (before after : List HttpRequest)
    (hM : Set.InjOn P.hashBytes {m | m ∈ hashed P (payloads (serve P L app before).storage.log) ∨
      m ∈ hashed P (payloads (serve P L app (before ++ after)).storage.log)})
    (r : HttpRequest) (hr : IsAnchor r) :
    ∃ v, (route P L app (serve P L app before).storage r).1 = ⟨200, v⟩ ∧
      v.getItem "root_hash" = .ok (h (some (loggedRoot P (serve P L app before).storage))) ∧
      v.getItem "entry_count" = .ok (.int (serve P L app before).storage.log.length) ∧
      ∀ q, Asks L q "/verify_history" "root_hash" (h (some (loggedRoot P (serve P L app before).storage))) →
        ∃ w valid, (route P L app (serve P L app (before ++ after)).storage q).1 = ⟨200, w⟩ ∧
          w.getItem "valid" = .ok (.bool valid) ∧
          (valid = true ↔ fill (payloads (serve P L app (before ++ after)).storage.log) =
            fill (payloads (serve P L app before).storage.log)) := by
  obtain ⟨es, hs, hes, -⟩ := serve_chain (L := L) hk before
  obtain ⟨es', hs', hes', hv'⟩ := serve_chain (L := L) hk (before ++ after)
  refine ⟨anchorAnswer (loggedRoot P (serve P L app before).storage)
    (serve P L app before).storage.log.length r.now rosterHash, ?_, rfl, rfl, fun q hq => ?_⟩
  · rw [route_anchor hr, anchorRecord_eq hes hs hroster]
    rfl
  · obtain ⟨body, hbody, hroute⟩ := route_verifyHistory P app hq
      (serve P L app (before ++ after)).storage
    refine ⟨historyAnswer (loggedRoot P (serve P L app before).storage)
      (decide (loggedRoot P (serve P L app (before ++ after)).storage = loggedRoot P (serve P L app before).storage)),
      _, ?_, rfl, ?_⟩
    · rw [hroute, verifyHistory_eq (Chain.decides hes' hv' hs' _) hbody]
      rfl
    · rw [decide_eq_true_eq]
      exact payloadRoot_eq_iff (hM.mono fun m hm => hm.symm)

section Example

open Reference

/-- The root of the log after one citation. -/
def citedRoot : Hash :=
  loggedRoot reference (serve reference (exampleLib exampleBodies) exampleApp [request .POST "/commit" 0]).storage

/-- The bodies of the example, and one that asks for this root. -/
def rootBodies : List Value := exampleBodies ++ [.record [("root_hash", h (some citedRoot))]]

/-- What the server has stored after these citations. -/
def cited (bodies : List UInt8) : Storage :=
  (serve reference (exampleLib rootBodies) exampleApp (bodies.map (request .POST "/commit"))).storage

theorem cited_injOn : Set.InjOn reference.hashBytes
    {m | m ∈ hashed reference (payloads (cited [0]).log) ∨ m ∈ hashed reference (payloads (cited ([0] ++ [1])).log)} :=
  injOn_of_nodup
    (hashed reference (payloads (cited [0]).log) ++
      hashed reference (payloads (cited ([0] ++ [1])).log)).dedup
    (fun m hm => by rwa [List.mem_dedup, List.mem_append]) (by decide +kernel)

theorem asks_citedRoot : Asks (exampleLib rootBodies) (request .POST "/verify_history" 3) "/verify_history" "root_hash"
    (h (some (loggedRoot reference (cited [0])))) := by
  have hroot : citedRoot = loggedRoot reference (cited [0]) := by decide +kernel
  rw [← hroot]
  exact ⟨rfl, by decide, .record [("root_hash", h (some citedRoot))], rfl, rfl⟩

/-- The root is asked for after one citation, and sent back after another. -/
theorem anchored_root_valid_iff_cited : ∃ w valid,
    (route reference (exampleLib rootBodies) exampleApp (cited ([0] ++ [1]))
      (request .POST "/verify_history" 3)).1 = ⟨200, w⟩ ∧
      w.getItem "valid" = .ok (.bool valid) ∧
      (valid = true ↔ fill (payloads (cited ([0] ++ [1])).log) = fill (payloads (cited [0]).log)) := by
  have hroster : ∃ k, exampleApp.roster.rosterHash reference = .ok k := ⟨_, rfl⟩
  obtain ⟨rosterHash, hroster⟩ := hroster
  have hM := cited_injOn
  rw [cited, cited, List.map_append] at hM ⊢
  obtain ⟨v, -, -, -, hlater⟩ := anchored_root_valid_iff (reference_keyPair rfl) hroster _ _ hM
    (request .GET "/anchor" 9) (by decide)
  exact hlater (request .POST "/verify_history" 3) asks_citedRoot

end Example

end ArxDB.Proof.Http
