import ArxDB.Impl.Http
import ArxDB.Proof.Store

/-!
# What the answers say of the log

A request changes the storage only as a `verify_and_commit` call
(`route_storage`), and its answer tells which (`route_outcome`): an accepted
edge is answered with the hash of the entry that was added, and an entry whose
edge is not reported is behind a 500. So over a run the reported hashes are
entries of the log in their order, and all of them where nothing was answered
with a 500 (`serve_accountable`).
-/

namespace ArxDB.Proof.Http

open Impl Impl.Http Failing Prog

variable {P : Prims} {L : Lib} {app : App}

/-! ## The call of a request -/

/-- A request to `/commit`. -/
def IsCommit (r : HttpRequest) : Prop := r.method = .POST ∧ path r.target = "/commit"

instance (r : HttpRequest) : Decidable (IsCommit r) := inferInstanceAs (Decidable (_ ∧ _))

/-- The call that a request makes, unless it is another request or refused. -/
def call? (L : Lib) (app : App) (r : HttpRequest) : Option CommitCall :=
  if IsCommit r then
    (readBody L r.body >>= proposal L app).toOption.map fun q => ⟨r.checkers, app.keys, r.now, r.fault, q⟩
  else none

/-- The endpoints besides `/commit` only read. -/
theorem endpoint_reads {r : HttpRequest} (hr : ¬ IsCommit r) (s : Storage) :
    ((endpoint P L app r).exec r.fault s).2 = s := by
  unfold endpoint
  split_ifs
  any_goals first | rfl | (cases readBody L r.body <;> rfl)
  rename_i hcommit
  exact absurd hcommit hr

/-- A request to `/commit` reads its body and commits. -/
theorem endpoint_commit {r : HttpRequest} (hr : IsCommit r) :
    endpoint P L app r = lift (readBody L r.body) >>= fun body => commit P L app r.checkers r.now body := by
  obtain ⟨hmethod, hpath⟩ := hr
  simp [endpoint, hmethod, hpath]

/-- A body that is refused. -/
theorem exec_refused {r : HttpRequest} (hr : IsCommit r) {e : PyError}
    (hq : readBody L r.body >>= proposal L app = .error e)
    (s : Storage) : (endpoint P L app r).exec r.fault s = (.error e, s) := by
  rw [endpoint_commit hr]
  cases hb : readBody L r.body with
  | error e' =>
    rw [hb] at hq
    cases hq
    rfl
  | ok body =>
    rw [hb] at hq
    show (commit P L app r.checkers r.now body).exec r.fault s = _
    rw [commit, show proposal L app body = .error e from hq]
    rfl

/-- A call, of which what it returns is put into the answer. -/
theorem exec_proposed {r : HttpRequest} (hr : IsCommit r) {q : Proposal}
    (hq : readBody L r.body >>= proposal L app = .ok q)
    (s : Storage) : (endpoint P L app r).exec r.fault s =
      (CommitCall.prog P ⟨r.checkers, app.keys, r.now, r.fault, q⟩ >>= fun cr => lift (commitToDict P cr)).exec
        r.fault s := by
  obtain ⟨body, hb, hq⟩ := bind_eq_ok.mp hq
  rw [endpoint_commit hr, hb]
  show (commit P L app r.checkers r.now body).exec r.fault s = _
  rw [commit, hq]
  rfl

/-- What a request stores is what its call stores. -/
theorem route_storage (s : Storage) (r : HttpRequest) :
    (route P L app s r).2 = (call? L app r).elim s (CommitCall.exec P s) := by
  show ((endpoint P L app r).exec r.fault s).2 = _
  unfold call?
  by_cases hr : IsCommit r
  · rw [if_pos hr]
    cases hq : readBody L r.body >>= proposal L app with
    | error e =>
      rw [exec_refused hr hq]
      rfl
    | ok q =>
      rw [exec_proposed hr hq]
      show ((_ >>= _ : Prog _ _ _).exec _ _).2 = (CommitCall.exec P s ⟨r.checkers, app.keys, r.now, r.fault, q⟩)
      rw [CommitCall.exec]
      simp only [exec, Bind.bind]
      rcases CommitCall.prog P ⟨r.checkers, app.keys, r.now, r.fault, q⟩ ⟨s, r.fault⟩ with ⟨_ | _, _⟩ <;> rfl
  · rw [if_neg hr]
    exact endpoint_reads hr s

/-- What requests store is what their calls store. -/
theorem serve_storage (requests : List HttpRequest) :
    (serve P L app requests).storage = CommitCall.run P (requests.filterMap (call? L app)) := by
  induction requests using List.reverseRecOn with
  | nil => rfl
  | append_singleton requests r ih =>
    have hserve : serve P L app (requests ++ [r]) = serveOne P L app (serve P L app requests) r := List.foldl_concat ..
    rw [hserve, serveOne, route_storage, ih, List.filterMap_append, CommitCall.run, CommitCall.run, List.foldl_append]
    cases hr : call? L app r with
    | none => rw [List.filterMap_cons_none hr]; rfl
    | some c => rw [List.filterMap_cons_some hr]; rfl

/-! ## Records -/

theorem getItem_record_cons (s : String) (f : String × Value) (fs : List (String × Value)) :
    (Value.record (f :: fs)).getItem s = if f.1 = s then .ok f.2 else (Value.record fs).getItem s := by
  simp only [Value.record, List.map_cons, Value.getItem, Value.isStr, List.find?_cons]
  by_cases h : f.1 = s
  · rw [if_pos h, beq_iff_eq.mpr h]
  · rw [if_neg h, beq_eq_false_iff_ne.mpr h]

/-- The record of a committed edge can be written. -/
theorem edgeToDict_ok {e : Edge} {data signer : Bytes} (hd : e.edgeBytes P = .ok data)
    (hs : e.signerPubkey = .bytes signer) :
    ∃ v, edgeToDict P e = .ok v := by
  have hhash : e.edgeHash P = .ok (P.hashBytes data) := edgeHash_eq_ok.mpr ⟨data, hd, rfl⟩
  exact ⟨_, by rw [edgeToDict, hs, hhash]; rfl⟩

/-- A proposal names a signer by its bytes. -/
theorem signer_of_proposal {body : Value} {q : Proposal} (h : proposal L app body = .ok q) :
    ∃ signer, q.signerPubkey = .bytes signer ∧
      ((body.get "signer_pubkey" .none >>= signerField app) = .ok signer) := by
  unfold proposal at h
  obtain ⟨_, -, h⟩ := bind_eq_ok.mp h
  obtain ⟨_, -, h⟩ := bind_eq_ok.mp h
  obtain ⟨_, -, h⟩ := bind_eq_ok.mp h
  obtain ⟨_, -, h⟩ := bind_eq_ok.mp h
  obtain ⟨_, -, h⟩ := bind_eq_ok.mp h
  obtain ⟨_, -, h⟩ := bind_eq_ok.mp h
  obtain ⟨_, -, h⟩ := bind_eq_ok.mp h
  obtain ⟨_, -, h⟩ := bind_eq_ok.mp h
  obtain ⟨_, -, h⟩ := bind_eq_ok.mp h
  obtain ⟨_, -, h⟩ := bind_eq_ok.mp h
  obtain ⟨v, hv, h⟩ := bind_eq_ok.mp h
  obtain ⟨signer, hsigner, h⟩ := bind_eq_ok.mp h
  obtain ⟨_, -, h⟩ := bind_eq_ok.mp h
  obtain ⟨_, -, h⟩ := bind_eq_ok.mp h
  cases h
  exact ⟨signer, rfl, bind_eq_ok.mpr ⟨v, hv, hsigner⟩⟩

/-! ## What one answer says -/

/-- The hash that an answer reports an edge as accepted under. -/
def accepted (a : HttpRequest × Response) : Option Value :=
  if IsCommit a.1 ∧ a.2.status = 200 then
    match a.2.payload.getItem "rejected" with
    | .ok (.bool false) => (a.2.payload.getItem "edge_hash").toOption
    | _ => none
  else none

/-- The hash of a logged entry, as text. -/
def entryText (row : LogRow) : Value := .ofChars (row.entryHash.flatMap hexByte)

theorem accepted_error (r : HttpRequest) (e : PyError) : accepted (r, answerError e) = none := by
  unfold accepted
  have hnone : (answerError e).payload.getItem "rejected" = .error .keyError := by
    cases e <;> rfl
  rw [hnone]
  exact ite_self _

/-- After its first write to the database a call fails only from outside. -/
theorem verifyAndCommit_raises {c : CommitCall} {s : Storage} :
    WP (c.prog P) (fun _ _ => True) (fun e s' => e = .fault ∨ s'.db = s.db) s := by
  rw [CommitCall.prog, verifyAndCommit]
  refine .bind <| .lift (fun result _ => ?_) fun _ _ => .inr rfl
  split
  · exact .pure trivial
  refine .bind <| .lift (fun hs _ => ?_) fun _ _ => .inr rfl
  refine .bind <| .lift (fun h _ => ?_) fun _ _ => .inr rfl
  refine .bind <| putNodes_wp.mono ?_ ?_
  rotate_left
  · rintro - s' ⟨bs, -, rfl⟩
    exact .inr rfl
  rintro - s₁ rfl
  refine .bind <| putNode_wp.mono ?_ ?_
  rotate_left
  · rintro - s' (rfl | rfl)
    · exact .inr rfl
    · exact .inr rfl
  rintro - s₂ rfl
  refine .bind <| .lift (fun data _ => ?_) fun _ _ => .inr rfl
  rw [commitEdgeTx_eq]
  refine .bind <| .bind <| commitEdgeStatements_wp.mono (fun r _ _ => ?_) fun _ _ h => .inr h.1
  exact .bind <| .statement (.inl rfl) <| .pure <| .pure trivial

/-- What a call returns says whether it committed; where it raises it has
committed at most what a failure from outside stopped after the commit. -/
theorem commit_wp {c : CommitCall} {signer : Bytes} (hs : c.proposal.signerPubkey = .bytes signer) {s : Storage} :
    WP (c.prog P >>= fun cr => lift (commitToDict P cr))
      (fun v s' => (v.getItem "rejected" = .ok (.bool true) ∧ s' = s) ∨
        (v.getItem "rejected" = .ok (.bool false) ∧ ∃ e data, Completes P c s e data s' ∧
          v.getItem "edge_hash" = .ok (h (some (P.hashBytes data)))))
      (fun e s' => s'.db = s.db ∨ (e = .fault ∧ ∃ e data, Completes P c s e data s')) s := by
  refine .bind <| (verifyAndCommit_wp.and verifyAndCommit_raises).mono ?_ ?_
  · rintro r s' ⟨⟨hrej, hedge, rfl⟩ | ⟨e, data, hacc, hcomp⟩, -⟩
    · simp only [commitToDict, hedge, committedEdge]
      exact .lift_ok (.inl ⟨by simp only [hrej, getItem_record_cons, if_true], rfl⟩)
    · have hsigner : e.signerPubkey = .bytes signer := by
        obtain ⟨_, -, -, _, -, _, -, rfl⟩ := edge?_eq_some.mp hcomp.1
        exact hs
      obtain ⟨dict, hdict⟩ := edgeToDict_ok hcomp.2.1 hsigner
      simp only [commitToDict, hacc.edge, committedEdge, hdict, hacc.edgeHash, hacc.rejected]
      refine .lift_ok (.inr ⟨by simp only [getItem_record_cons, if_true], e, data, hcomp, ?_⟩)
      simp only [getItem_record_cons, if_true, show ("rejected" : String) ≠ "edge_hash" by decide,
        show ("verification" : String) ≠ "edge_hash" by decide,
        show ("edge" : String) ≠ "edge_hash" by decide, if_false]
  · rintro e s' ⟨⟨bs, -, rfl⟩ | hcomp, hfault | hdb⟩
    · exact .inl rfl
    · exact .inl rfl
    · exact .inr ⟨hfault, hcomp⟩
    · exact .inl hdb

variable (P L app) in
/-- A request is answered as accepted and its call has committed; or it is not,
and the database is as it was unless the answer is a 500. -/
theorem route_outcome (s : Storage) (r : HttpRequest) :
    (accepted (r, (route P L app s r).1) = none ∧ (route P L app s r).2.db = s.db) ∨
    ∃ c e data, call? L app r = some c ∧ Completes P c s e data (route P L app s r).2 ∧
      (accepted (r, (route P L app s r).1) = some (h (some (P.hashBytes data))) ∨
        (accepted (r, (route P L app s r).1) = none ∧ (route P L app s r).1.status = 500)) := by
  by_cases hr : IsCommit r
  swap
  · refine .inl ⟨?_, by rw [route_storage, call?, if_neg hr]; rfl⟩
    rw [accepted, if_neg fun hc => hr hc.1]
  cases hq : readBody L r.body >>= proposal L app with
  | error e =>
    rw [route, exec_refused hr hq]
    exact .inl ⟨accepted_error r e, rfl⟩
  | ok q =>
    obtain ⟨body, -, hbody⟩ := bind_eq_ok.mp hq
    obtain ⟨signer, hsigner, -⟩ := signer_of_proposal hbody
    have hcall : call? L app r = some ⟨r.checkers, app.keys, r.now, r.fault, q⟩ := by
      rw [call?, if_pos hr, hq]
      rfl
    have key := commit_wp (P := P) (c := ⟨r.checkers, app.keys, r.now, r.fault, q⟩) hsigner (s := s)
    rw [route, exec_proposed hr hq]
    rcases hx : (CommitCall.prog P ⟨r.checkers, app.keys, r.now, r.fault, q⟩ >>= fun cr =>
      lift (commitToDict P cr)).exec r.fault s with ⟨e | v, s'⟩
    · rcases key.error hx with hdb | ⟨rfl, e, data, hcomp⟩
      · exact .inl ⟨accepted_error r e, hdb⟩
      · exact .inr ⟨_, e, data, hcall, hcomp, .inr ⟨accepted_error r _, rfl⟩⟩
    · by_cases hjson : v.jsonable = true
      · have hanswer : answer (.ok v) = ⟨200, v⟩ := if_pos hjson
        rcases key.ok hx with ⟨hrej, rfl⟩ | ⟨hrej, e, data, hcomp, ht⟩
        · refine .inl ⟨?_, rfl⟩
          simp only [hanswer, accepted, hr, hrej, and_self, if_true]
        · refine .inr ⟨_, e, data, hcall, hcomp, .inl ?_⟩
          simp only [hanswer, accepted, hr, hrej, ht, and_self, if_true]
          rfl
      · have hanswer : answer (.ok v) = answerError .typeError := if_neg hjson
        simp only [hanswer]
        rcases key.ok hx with ⟨-, rfl⟩ | ⟨-, e, data, hcomp, -⟩
        · exact .inl ⟨accepted_error r _, rfl⟩
        · exact .inr ⟨_, e, data, hcall, hcomp, .inr ⟨accepted_error r _, rfl⟩⟩

/-- A call that commits adds the entry of its edge. -/
theorem log_of_completes {c : CommitCall} {s s' : Storage} {e : Edge} {data : Bytes}
    (hcomp : Completes P c s e data s') :
    s'.log.map entryText = s.log.map entryText ++ [h (some (P.hashBytes data))] := by
  obtain ⟨-, -, entry, ha, rfl⟩ := hcomp
  show (s.log ++ [entry.row]).map entryText = _
  rw [List.map_append, List.map_singleton, ← ha.entryHash]
  rfl

/-! ## What the answers of a run say -/

/-- Over every run of requests, whatever they ask for and wherever they fail:
the hashes reported as accepted are entries of the log, in its order, and they
are all of them unless a request was answered with a 500. No other request
than one to `/commit` changes the storage, and one that is not reported as
accepted changes neither index nor log unless it is answered with a 500. -/
theorem serve_accountable (P : Prims) (L : Lib) (app : App) (requests : List HttpRequest) :
    ((serve P L app requests).answers.filterMap accepted).Sublist ((serve P L app requests).storage.log.map entryText) ∧
    ((∀ a ∈ (serve P L app requests).answers, a.2.status ≠ 500) →
      (serve P L app requests).answers.filterMap accepted = (serve P L app requests).storage.log.map entryText) ∧
    ∀ r, (¬ IsCommit r → (route P L app (serve P L app requests).storage r).2 = (serve P L app requests).storage) ∧
      (accepted (r, (route P L app (serve P L app requests).storage r).1) = none →
        (route P L app (serve P L app requests).storage r).1.status ≠ 500 →
        (route P L app (serve P L app requests).storage r).2.db = (serve P L app requests).storage.db) := by
  have hstep : ∀ s r, (¬ IsCommit r → (route P L app s r).2 = s) ∧ (accepted (r, (route P L app s r).1) = none →
      (route P L app s r).1.status ≠ 500 → (route P L app s r).2.db = s.db) := by
    intro s r
    refine ⟨fun hr => by rw [route_storage, call?, if_neg hr]; rfl, fun hnone hstatus => ?_⟩
    rcases route_outcome P L app s r with ⟨-, hdb⟩ | ⟨_, _, _, -, -, hsome | ⟨-, h500⟩⟩
    · exact hdb
    · rw [hnone] at hsome
      cases hsome
    · exact absurd h500 hstatus
  refine ⟨?_, ?_, fun r => hstep _ r⟩
  · induction requests using List.reverseRecOn with
    | nil => exact List.Sublist.refl _
    | append_singleton requests r ih =>
      have hserve : serve P L app (requests ++ [r]) = serveOne P L app (serve P L app requests) r :=
        List.foldl_concat ..
      rw [hserve, serveOne, List.filterMap_append]
      rcases route_outcome P L app (serve P L app requests).storage r with
        ⟨hnone, hdb⟩ | ⟨_, _, _, -, hcomp, hsome | ⟨hnone, -⟩⟩
      · rw [List.filterMap_cons_none hnone, List.filterMap_nil, List.append_nil,
          show Storage.log _ = _ from congrArg Db.log hdb]
        exact ih
      · rw [List.filterMap_cons_some hsome, List.filterMap_nil, log_of_completes hcomp]
        exact ih.append (List.Sublist.refl _)
      · rw [List.filterMap_cons_none hnone, List.filterMap_nil, log_of_completes hcomp]
        exact ih.append (List.nil_sublist _)
  · induction requests using List.reverseRecOn with
    | nil => exact fun _ => rfl
    | append_singleton requests r ih =>
      have hserve : serve P L app (requests ++ [r]) = serveOne P L app (serve P L app requests) r :=
        List.foldl_concat ..
      rw [hserve, serveOne, List.filterMap_append]
      intro hstatus
      simp only [List.forall_mem_append, List.forall_mem_singleton] at hstatus
      rw [ih hstatus.1]
      rcases route_outcome P L app (serve P L app requests).storage r with
        ⟨hnone, hdb⟩ | ⟨_, _, _, -, hcomp, hsome | ⟨-, h500⟩⟩
      · rw [List.filterMap_cons_none hnone, List.filterMap_nil, List.append_nil,
          show Storage.log _ = _ from congrArg Db.log hdb]
      · rw [List.filterMap_cons_some hsome, List.filterMap_nil, log_of_completes hcomp]
      · exact absurd h500 hstatus.2

end ArxDB.Proof.Http
