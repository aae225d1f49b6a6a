import ArxDB.Impl.Ceremony
import ArxDB.Proof.Encoding
import ArxDB.Proof.History

/-!
# The genesis ceremony among other clients

`commit_roster` is looked at over any log that only grows (`SharedLog`). Its
check and its append are two steps, and the append does not check again: what
it returns is entry 0 where the log that it found empty is still empty then
(`StillEmpty`). The invariant says of each client where it is (`Phase`), and
is kept by every step of such a run.
-/

namespace ArxDB.Proof

open Impl Failing Threads

variable {ε σ ι : Type} {P : Prims}

/-! ## The log -/

/-- A log as its clients see it: the entries in a state, the lengths that it
can count, and the payloads that `get` can read back. -/
structure SharedLog (σ : Type) where
  holds : σ → List LogEntry → Prop
  empty : σ → Prop
  fits : Nat → Prop
  readable : Bytes → Prop
  empty_iff {s : σ} {es : List LogEntry} : holds s es → fits es.length → (empty s ↔ es = [])
  fits_of_le {m n : Nat} : m ≤ n → fits n → fits m

/-- One entry more, or none. -/
def Grows (es es' : List LogEntry) : Prop := es' = es ∨ ∃ e, es' = es ++ [e]

namespace Grows

variable {es es' : List LogEntry}

theorem first (h : Grows es es') {e : LogEntry} (he : es[0]? = some e) : es'[0]? = some e := by
  rcases h with rfl | ⟨e', rfl⟩
  · exact he
  · obtain ⟨h0, -⟩ := List.getElem?_eq_some_iff.mp he
    rwa [List.getElem?_append_left h0]

theorem length_le (h : Grows es es') : es'.length ≤ es.length + 1 := by
  rcases h with rfl | ⟨e, rfl⟩
  · exact Nat.le_succ _
  · rw [List.length_append, List.length_singleton]

end Grows

namespace SharedLog

variable {L : SharedLog σ} {s : σ} {es : List LogEntry}

/-- What the log's own functions do. -/
structure Serves (L : SharedLog σ) (P : Prims) (api : LogApi ε σ) : Prop where
  len {s : σ} {es : List LogEntry} {n : Nat} : L.holds s es → L.fits es.length → api.len s = .ok n → n = es.length
  get {s : σ} {es : List LogEntry} {e : LogEntry} : L.holds s es → L.fits es.length →
    (api.get s 0 = .ok (some e) ↔ es[0]? = some e ∧ L.readable e.payload)
  append {s : σ} {es : List LogEntry} (data : Bytes) : L.holds s es → L.fits es.length →
    ∃ es', L.holds (api.append data s).2 es' ∧ Grows es es' ∧
      ∀ e, (api.append data s).1 = .ok e →
        es' = es ++ [e] ∧ e.entryHash = P.hashBytes data ∧ e.payload = data

/-- What is asked of a client. -/
def Suits (L : SharedLog σ) (P : Prims) : Ceremony.Client ε σ → Prop
  | .commitRoster api roster => L.Serves P api ∧ ∀ data, roster.rosterBytes P = .ok data → L.readable data
  | .other write => ∀ s es, L.holds s es → L.fits es.length → ∃ es', L.holds (write s) es' ∧ Grows es es'

end SharedLog

/-! ## Where a client is -/

section Pool

variable [DecidableEq ι] {L : SharedLog σ} {clients : ι → Ceremony.Client ε σ} {s₀ : σ} {schedule : List ι} {i j : ι}

/-- A log that `commit_roster` has found empty is empty when it appends: no
other client's entry has come between. -/
def StillEmpty (P : Prims) (L : SharedLog σ) (clients : ι → Ceremony.Client ε σ) (s₀ : σ) (schedule : List ι) : Prop :=
  ∀ before i between rest, schedule = before ++ i :: between ++ i :: rest →
    (∃ api roster, clients i = .commitRoster api roster) → i ∉ before → i ∉ between →
    L.empty ((Ceremony.start P clients s₀).run before).shared →
    L.empty ((Ceremony.start P clients s₀).run (before ++ i :: between)).shared

theorem StillEmpty.of_append {later : List ι} (h : StillEmpty P L clients s₀ (schedule ++ later)) :
    StillEmpty P L clients s₀ schedule := by
  intro before i between rest hs
  exact h before i between (rest ++ later) (by rw [hs]; simp)

/-- Clients that each take their first two steps in a row are never disturbed. -/
theorem stillEmpty_of_adjacent
    (h : ∀ before i between rest, schedule = before ++ i :: between ++ i :: rest → i ∉ before → i ∉ between →
      between = []) : StillEmpty P L clients s₀ schedule := by
  intro before i between rest hs hclient hb hn he
  obtain rfl := h before i between rest hs hb hn
  obtain ⟨api, roster, hc⟩ := hclient
  have ht : ((Ceremony.start P clients s₀).run before).threads i = Ceremony.commitRoster P api roster := by
    rw [Pool.run_threads_of_notMem hb]
    show (clients i).thread P = _
    rw [hc]
    rfl
  rw [Pool.run_concat, Pool.step_act_shared ht]
  exact he

/-- Where a client is after `schedule`, in a log of the entries `es`. -/
inductive Phase (P : Prims) (L : SharedLog σ) (clients : ι → Ceremony.Client ε σ) (s₀ : σ) (schedule : List ι)
    (es : List LogEntry) (i : ι) : Ceremony.Client ε σ → Thread σ (Except ε (Option LogEntry)) → Prop
  | start {c : Ceremony.Client ε σ} (h : i ∉ schedule) : Phase P L clients s₀ schedule es i c (c.thread P)
  | sawEmpty {api : LogApi ε σ} {roster : Roster} (before between : List ι) (h : schedule = before ++ i :: between)
    (hb : i ∉ before) (hn : i ∉ between) (he : L.empty ((Ceremony.start P clients s₀).run before).shared) :
    Phase P L clients s₀ schedule es i (.commitRoster api roster) (Ceremony.append P api roster)
  | sawEntries {api : LogApi ε σ} {roster : Roster} : Phase P L clients s₀ schedule es i (.commitRoster api roster)
    (.act id fun s => .done (Ceremony.compare P api roster s))
  | returned {c : Ceremony.Client ε σ} {r : Except ε (Option LogEntry)}
    (h : ∀ api roster e, c = .commitRoster api roster → r = .ok (some e) →
      es[0]? = some e ∧ L.readable e.payload ∧ roster.rosterHash P = .ok e.entryHash) :
    Phase P L clients s₀ schedule es i c (.done r)

/-- A step of another client. -/
theorem Phase.other {es es' : List LogEntry} {c : Ceremony.Client ε σ} {t : Thread σ (Except ε (Option LogEntry))}
    (h : Phase P L clients s₀ schedule es i c t) (hne : i ≠ j) (hg : Grows es es') :
    Phase P L clients s₀ (schedule ++ [j]) es' i c t := by
  have hmem : ∀ {l : List ι}, i ∉ l → i ∉ l ++ [j] := by
    intro l hl
    simp [hl, hne]
  cases h with
  | start h => exact .start (hmem h)
  | sawEmpty before between h hb hn he =>
    exact .sawEmpty before (between ++ [j]) (by simp [h]) hb (hmem hn) he
  | sawEntries => exact .sawEntries
  | returned h =>
    refine .returned fun api roster e hc hr => ?_
    obtain ⟨h0, hread, hhash⟩ := h api roster e hc hr
    exact ⟨hg.first h0, hread, hhash⟩

/-- What the comparison with entry 0 returns. -/
theorem compare_eq_some {api : LogApi ε σ} {roster : Roster} {s : σ} {e : LogEntry}
    (h : Ceremony.compare P api roster s = .ok (some e)) :
    api.get s 0 = .ok (some e) ∧ roster.rosterHash P = .ok e.entryHash := by
  rw [Ceremony.compare] at h
  cases hg : api.get s 0 with
  | error x => rw [hg] at h; cases h
  | ok r =>
    cases r with
    | none => rw [hg] at h; cases h
    | some e₀ =>
      rw [hg] at h
      cases hr : roster.rosterHash P with
      | error x => rw [hr] at h; cases h
      | ok rosterHash =>
        rw [hr] at h
        simp only [bind, Except.bind, Except.mapError] at h
        split at h
        · rename_i heq
          cases h
          exact ⟨rfl, heq ▸ rfl⟩
        · cases h

section Step

variable {es : List LogEntry} {p : Pool ι σ (Except ε (Option LogEntry))}
  (hp : p = (Ceremony.start P clients s₀).run schedule)
  (hphase : Phase P L clients s₀ schedule es i (clients i) (p.threads i))
include hp hphase

/-- A step of the client itself. -/
theorem Phase.self (hsuits : L.Suits P (clients i)) (hund : StillEmpty P L clients s₀ (schedule ++ [i]))
    (hh : L.holds p.shared es) (hf : L.fits es.length) :
    ∃ es', L.holds (p.step i).shared es' ∧ Grows es es' ∧
      Phase P L clients s₀ (schedule ++ [i]) es' i (clients i) ((p.step i).threads i) := by
  generalize hc : clients i = c at hphase hsuits ⊢
  generalize ht : p.threads i = t at hphase
  -- a thread that is done stays as it is
  have stay : ∀ {r}, p.threads i = .done r → (∀ api roster e, c = .commitRoster api roster → r = .ok (some e) →
      es[0]? = some e ∧ L.readable e.payload ∧ roster.rosterHash P = .ok e.entryHash) →
      ∃ es', L.holds (p.step i).shared es' ∧ Grows es es' ∧
        Phase P L clients s₀ (schedule ++ [i]) es' i c ((p.step i).threads i) := by
    intro r hr h
    rw [Pool.step_done hr, hr]
    exact ⟨es, hh, .inl rfl, .returned h⟩
  cases hphase with
  | start hi =>
    cases c with
    | other write =>
      obtain ⟨es', hh', hg⟩ := hsuits p.shared es hh hf
      rw [Pool.step_act_shared ht, Pool.step_act_self ht]
      exact ⟨es', hh', hg, .returned fun _ _ _ h => by cases h⟩
    | commitRoster api roster =>
      rw [Pool.step_act_shared ht, Pool.step_act_self ht]
      refine ⟨es, hh, .inl rfl, ?_⟩
      split
      · exact .returned fun _ _ _ _ h => by cases h
      · rename_i hlen
        have hes : es = [] := List.length_eq_zero_iff.mp (hsuits.1.len hh hf hlen).symm
        exact .sawEmpty schedule [] rfl hi (by simp) (hp ▸ (L.empty_iff hh hf).mpr hes)
      · exact .sawEntries
  | @sawEmpty api roster before between h hb hn he =>
    cases hbytes : roster.rosterBytes P with
    | error x =>
      refine stay (r := .error (api.raise x)) ?_ fun _ _ _ _ h => by cases h
      rw [ht, Ceremony.append, hbytes]
    | ok data =>
      have hempty := hund before i between [] (by rw [h]) ⟨api, roster, hc⟩ hb hn he
      rw [← h, ← hp] at hempty
      have hes : es = [] := (L.empty_iff hh hf).mp hempty
      obtain ⟨es', hh', hg, hok⟩ := hsuits.1.append data hh hf
      simp only [Ceremony.append, hbytes] at ht
      rw [Pool.step_act_shared ht, Pool.step_act_self ht]
      refine ⟨es', hh', hg, .returned fun api' roster' e hc' hr => ?_⟩
      cases hc'
      cases happ : (api.append data p.shared).1 with
      | error x => rw [happ] at hr; cases hr
      | ok e' =>
        rw [happ] at hr
        cases hr
        obtain ⟨hes', hhash, hpay⟩ := hok e happ
        refine ⟨by rw [hes', hes]; rfl, hpay ▸ hsuits.2 data hbytes, ?_⟩
        rw [Roster.rosterHash, hbytes, hhash]
        rfl
  | @sawEntries api roster =>
    rw [Pool.step_act_shared ht, Pool.step_act_self ht]
    refine ⟨es, hh, .inl rfl, .returned fun api' roster' e hc' hr => ?_⟩
    cases hc'
    obtain ⟨hget, hhash⟩ := compare_eq_some hr
    obtain ⟨h0, hread⟩ := (hsuits.1.get hh hf).mp hget
    exact ⟨h0, hread, hhash⟩
  | returned h => exact stay ht h

end Step

/-- The log and the clients after `schedule`. -/
structure After (P : Prims) (L : SharedLog σ) (clients : ι → Ceremony.Client ε σ) (s₀ : σ) (schedule : List ι)
    (es : List LogEntry) : Prop where
  holds : L.holds ((Ceremony.start P clients s₀).run schedule).shared es
  length_le : es.length ≤ schedule.length
  phase (i : ι) : Phase P L clients s₀ schedule es i (clients i)
    (((Ceremony.start P clients s₀).run schedule).threads i)

theorem run_after (hsuits : ∀ i, L.Suits P (clients i)) (h₀ : L.holds s₀ []) (hfits : L.fits schedule.length)
    (hund : StillEmpty P L clients s₀ schedule) : ∃ es, After P L clients s₀ schedule es := by
  induction schedule using List.reverseRecOn with
  | nil => exact ⟨[], h₀, Nat.le_refl _, fun i => .start (by simp)⟩
  | append_singleton schedule j ih =>
    rw [List.length_append, List.length_singleton] at hfits
    obtain ⟨es, hafter⟩ := ih (L.fits_of_le (Nat.le_succ _) hfits) hund.of_append
    have hf : L.fits es.length := L.fits_of_le (hafter.length_le.trans (Nat.le_succ _)) hfits
    obtain ⟨es', hh, hg, hself⟩ := Phase.self rfl (hafter.phase j) (hsuits j) hund hafter.holds hf
    refine ⟨es', ⟨?_, ?_, fun i => ?_⟩⟩
    · rw [Pool.run_concat]
      exact hh
    · have := hg.length_le
      have := hafter.length_le
      rw [List.length_append, List.length_singleton]
      omega
    · rw [Pool.run_concat]
      by_cases hij : i = j
      · subst hij
        exact hself
      · rw [Pool.step_threads_of_ne hij]
        exact (hafter.phase i).other hij hg

/-! ## The ceremony -/

/-- What `commit_roster` returns is entry 0 and has the hash of the roster, and
it is returned for one roster only. -/
structure Genesis (P : Prims) (clients : ι → Ceremony.Client ε σ)
    (p : Pool ι σ (Except ε (Option LogEntry))) : Prop where
  entry (i : ι) {api : LogApi ε σ} {roster : Roster} {e : LogEntry} : clients i = .commitRoster api roster →
    p.Returned i (.ok (some e)) → api.get p.shared 0 = .ok (some e) ∧ roster.rosterHash P = .ok e.entryHash
  one (i j : ι) {api api' : LogApi ε σ} {roster roster' : Roster} {e e' : LogEntry} :
    clients i = .commitRoster api roster → clients j = .commitRoster api' roster' →
    p.Returned i (.ok (some e)) → p.Returned j (.ok (some e')) → roster = roster'

theorem After.returned {es : List LogEntry} (h : After P L clients s₀ schedule es) {api : LogApi ε σ} {roster : Roster}
    {e : LogEntry} (hc : clients i = .commitRoster api roster)
    (hr : ((Ceremony.start P clients s₀).run schedule).Returned i (.ok (some e))) :
    es[0]? = some e ∧ L.readable e.payload ∧ roster.rosterHash P = .ok e.entryHash := by
  have hphase := h.phase i
  generalize hcl : clients i = c at hphase
  rw [hcl] at hc
  generalize ht : ((Ceremony.start P clients s₀).run schedule).threads i = t at hphase
  rw [Pool.Returned, ht] at hr
  cases hphase with
  | start _ =>
    rw [hc] at hr
    cases hr
  | sawEmpty =>
    rw [Ceremony.append] at hr
    split at hr
    · cases hr
    · cases hr
  | sawEntries => cases hr
  | returned h =>
    cases hr
    exact h api roster e hc rfl

theorem After.genesis {es : List LogEntry} (h : After P L clients s₀ schedule es)
    (hsuits : ∀ i, L.Suits P (clients i)) (hfits : L.fits schedule.length) (hc : P.CborLaws)
    (hM : Set.InjOn P.hashBytes {data | ∃ i api roster, clients i = .commitRoster api roster ∧
      roster.rosterBytes P = .ok data}) :
    Genesis P clients ((Ceremony.start P clients s₀).run schedule) where
  entry i {api roster e} hcl hr := by
    obtain ⟨h0, hread, hhash⟩ := h.returned hcl hr
    have hserves := hsuits i
    rw [hcl] at hserves
    exact ⟨(hserves.1.get h.holds (L.fits_of_le h.length_le hfits)).mpr ⟨h0, hread⟩, hhash⟩
  one i j {api api' roster roster' e e'} hcl hcl' hr hr' := by
    obtain ⟨h0, -, hhash⟩ := h.returned hcl hr
    obtain ⟨h0', -, hhash'⟩ := h.returned hcl' hr'
    rw [h0, Option.some.injEq] at h0'
    subst h0'
    obtain ⟨data, hdata, hd⟩ := map_eq_ok.mp hhash
    obtain ⟨data', hdata', hd'⟩ := map_eq_ok.mp hhash'
    have hsame := hM ⟨i, api, roster, hcl, hdata⟩ ⟨j, api', roster', hcl', hdata'⟩ (hd.trans hd'.symm)
    subst hsame
    exact rosterBytes_inj hc hdata hdata'

end Pool

/-! ## `Storage` -/

/-- The `log` table. -/
def sqliteLog (P : Prims) : SharedLog Storage where
  holds s es := s.log = es.map LogEntry.row ∧ Chain P es
  empty s := s.log = []
  fits _ := True
  readable _ := True
  empty_iff h _ := by rw [h.1, List.map_eq_nil_iff]
  fits_of_le _ h := h

theorem sqliteLog_grows {s s' : Storage} {es : List LogEntry} {keys : Keys} {now : Int}
    (h : (sqliteLog P).holds s es) (he : Extends P keys now s.log s'.log) :
    ∃ es', (sqliteLog P).holds s' es' ∧ Grows es es' := by
  obtain ⟨hs, hc⟩ := h
  rcases he with heq | ⟨payload, e, ha, heq⟩
  · exact ⟨es, ⟨heq.trans hs, hc⟩, .inl rfl⟩
  · rw [hs] at ha heq
    exact ⟨es ++ [e], ⟨by rw [heq, List.map_append]; rfl, hc.append ha⟩, .inr ⟨e, rfl⟩⟩

theorem sqlite_serves {keys : Keys} {now : Int} {fault : Option Nat} :
    (sqliteLog P).Serves P (.sqlite P keys now fault) where
  len {s es n} h _ hlen := by
    simp only [LogApi.sqlite, Except.ok.injEq] at hlen
    rw [← hlen, h.1, List.length_map]
  get {s es e} h _ := by
    obtain ⟨hs, hc⟩ := h
    simp only [LogApi.sqlite, sqliteLog, and_true, hs]
    rw [get_eq_some]
    cases es with
    | nil => simp [AppendLog.row?]
    | cons e₀ es =>
      have hrow := row?_map_row hc.seq (i := 0) (by simp)
      rw [Nat.cast_zero] at hrow
      rw [hrow]
      simp [row_inj]
  append {s es} data h _ := by
    have hwp : WP (Storage.append P keys now data) _ _ s := append_wp
    simp only [LogApi.sqlite]
    rcases hx : (Storage.append P keys now data).exec fault s with ⟨x | e, s'⟩
    · obtain ⟨es', hh, hg⟩ := sqliteLog_grows h (append_extends.error hx)
      exact ⟨es', hh, hg, fun e he => by cases he⟩
    · obtain ⟨ha, rfl⟩ := hwp.ok hx
      obtain ⟨hs, hc⟩ := h
      rw [hs] at ha
      refine ⟨es ++ [e], ⟨?_, hc.append ha⟩, .inr ⟨e, rfl⟩, ?_⟩
      · simp [Storage.log, hs]
      · intro e' he
        cases he
        exact ⟨rfl, ha.entryHash, ha.payload⟩

theorem logCall_suits (c : LogCall) : (sqliteLog P).Suits P (c.client P) := by
  have other : (sqliteLog P).Suits P (.other fun s => c.exec P s : Ceremony.Client PyError Storage) :=
    fun s _ h _ => sqliteLog_grows h (exec_extends c s)
  rw [LogCall.client]
  split
  · exact ⟨sqlite_serves, fun _ _ => trivial⟩
  · exact other

end ArxDB.Proof
