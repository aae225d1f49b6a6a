import ArxDB.Proof.Deployment.Files

/-!
# Who signs, and who is named

Whatever is run on a directory, and wherever it is stopped: the roster is
written only once the key pairs that it binds are (`Consistent`), and a key
pair that is there stays (`Later`). So each application that is started has
the key pair of those before it and finds it in its roster, and the roster
names everyone that an earlier one named (`identities_kept`).
-/

namespace ArxDB.Proof.Deployment

open Impl Impl.DataRoot Failing Prog

variable {P : Prims} {L : Lib} {corpus : Corpus}

/-! ## The bindings that are written -/

/-- The bindings of a roster that one of the scripts writes on this directory. -/
inductive Bindings (P : Prims) (root : DataRoot) : List (String × Bytes) → Prop
  | served {keys : Keys} : Holds P root .serverKeypair keys → Bindings P root [(serverAgent, keys.pub)]
  | seeded {signer keys : Keys} : Holds P root .seedKeypair signer → Holds P root .serverKeypair keys →
      Bindings P root [("Skye", signer.pub), (serverAgent, keys.pub)]

namespace Bindings

variable {root root' : DataRoot} {bs : List (String × Bytes)} (h : Bindings P root bs)
include h

theorem binds : Binds bs := by
  cases h with
  | served hkeys =>
    refine ⟨fun b hb => ?_, fun b hb => ?_⟩ <;> obtain rfl := List.mem_singleton.mp hb
    · simp [serverAgent]
    · exact hkeys.pair.pub_size
  | seeded hsigner hkeys =>
    refine ⟨fun b hb => ?_, fun b hb => ?_⟩ <;> obtain rfl | hb := List.mem_cons.mp hb
    · simp
    · obtain rfl := List.mem_singleton.mp hb
      simp [serverAgent]
    · exact hsigner.pair.pub_size
    · obtain rfl := List.mem_singleton.mp hb
      exact hkeys.pair.pub_size

theorem nodup : (bs.map Prod.fst).Nodup := by
  cases h with
  | served => simp
  | seeded => simp [serverAgent]

theorem server {keys : Keys} (hkeys : Holds P root .serverKeypair keys) : (serverAgent, keys.pub) ∈ bs := by
  cases h with
  | served hkeys' =>
    rw [hkeys.unique hkeys']
    exact List.mem_cons_self
  | seeded _ hkeys' =>
    rw [hkeys.unique hkeys']
    exact List.mem_cons_of_mem _ List.mem_cons_self

end Bindings

/-- The files are what the scripts leave: whole key pairs match, and the roster
binds key pairs that are there. -/
structure Consistent (P : Prims) (root : DataRoot) : Prop where
  seedFile : KeyFile P root .seedKeypair
  serverFile : KeyFile P root .serverKeypair
  roster : root.file .roster ≠ none → ∃ bs, Bindings P root bs ∧ Written P root bs

theorem Consistent.empty : Consistent P .empty := ⟨nofun, nofun, fun h => absurd rfl h⟩

/-- The roster of both key pairs is written, or begun. -/
def Seeded (P : Prims) (root : DataRoot) : Prop :=
  ∃ signer keys, Holds P root .seedKeypair signer ∧ Holds P root .serverKeypair keys ∧
    Written P root [("Skye", signer.pub), (serverAgent, keys.pub)]

/-- What is there stays. -/
structure Later (P : Prims) (root root' : DataRoot) : Prop where
  seed {keys : Keys} : Holds P root .seedKeypair keys → Holds P root' .seedKeypair keys
  server {keys : Keys} : Holds P root .serverKeypair keys → Holds P root' .serverKeypair keys
  seeded : Seeded P root → Seeded P root'

theorem Later.refl {root : DataRoot} : Later P root root := ⟨id, id, id⟩

theorem Later.trans {root root' root'' : DataRoot} (h : Later P root root') (h' : Later P root' root'') :
    Later P root root'' :=
  ⟨fun hk => h'.seed (h.seed hk), fun hk => h'.server (h.server hk), fun hs => h'.seeded (h.seeded hs)⟩

theorem Bindings.later {root root' : DataRoot} {bs : List (String × Bytes)} (h : Bindings P root bs)
    (hl : Later P root root') : Bindings P root' bs := by
  cases h with
  | served hkeys => exact .served (hl.server hkeys)
  | seeded hsigner hkeys => exact .seeded (hl.seed hsigner) (hl.server hkeys)

/-- A run of a script, or of a part of one. -/
structure Steps (P : Prims) (root root' : DataRoot) : Prop where
  consistent : Consistent P root'
  later : Later P root root'

theorem Steps.refl {root : DataRoot} (h : Consistent P root) : Steps P root root := ⟨h, .refl⟩

theorem Steps.trans {root root' root'' : DataRoot} (h : Steps P root root') (h' : Steps P root' root'') :
    Steps P root root'' := ⟨h'.consistent, h.later.trans h'.later⟩

/-! ## The parts of the scripts -/

theorem written_of_eq {root root' : DataRoot} (h : root'.file .roster = root.file .roster) {bs : List (String × Bytes)}
    (hw : Written P root bs) : Written P root' bs := by
  obtain ⟨bytes, data, hbytes, hfile, hprefix⟩ := hw
  exact ⟨bytes, data, hbytes, h.trans hfile, hprefix⟩

theorem holds_of_eq {root root' : DataRoot} {f : RootFile} (h : root'.file f = root.file f) {keys : Keys}
    (hk : Holds P root f keys) : Holds P root' f keys := ⟨h.trans hk.file, hk.pair⟩

/-- A part that leaves these files alone. -/
theorem Steps.of_eq {root root' : DataRoot} (h : Consistent P root)
    (hseed : root'.file .seedKeypair = root.file .seedKeypair)
    (hserver : root'.file .serverKeypair = root.file .serverKeypair)
    (hroster : root'.file .roster = root.file .roster) :
    Steps P root root' := by
  have hlater : Later P root root' := by
    refine ⟨holds_of_eq hseed, holds_of_eq hserver, ?_⟩
    rintro ⟨signer, keys, hsigner, hkeys, hw⟩
    exact ⟨signer, keys, holds_of_eq hseed hsigner, holds_of_eq hserver hkeys, written_of_eq hroster hw⟩
  refine ⟨⟨fun data hdata hlen => ?_, fun data hdata hlen => ?_, fun hr => ?_⟩, hlater⟩
  · obtain ⟨keys, hkeys⟩ := h.seedFile data (hseed.symm.trans hdata) hlen
    exact ⟨keys, holds_of_eq hseed hkeys⟩
  · obtain ⟨keys, hkeys⟩ := h.serverFile data (hserver.symm.trans hdata) hlen
    exact ⟨keys, holds_of_eq hserver hkeys⟩
  · obtain ⟨bs, hbs, hw⟩ := h.roster (hroster ▸ hr)
    exact ⟨bs, hbs.later hlater, written_of_eq hroster hw⟩

/-- A part that works on one of the key pairs. -/
theorem KeyStep.steps {f : RootFile} {root root' : DataRoot} (h : Consistent P root)
    (hf : f = .seedKeypair ∨ f = .serverKeypair)
    (hstep : KeyStep P f root root') : Steps P root root' := by
  have hroster : root'.file .roster = root.file .roster :=
    hstep.file .roster (by obtain rfl | rfl := hf <;> decide)
  have hheld : ∀ g keys, Holds P root g keys → Holds P root' g keys := by
    intro g keys hkeys
    by_cases hg : g = f
    · obtain rfl := hg
      exact hstep.held keys hkeys
    · exact holds_of_eq (hstep.file g hg) hkeys
  have hkeyFile : ∀ g, KeyFile P root g → KeyFile P root' g := by
    intro g hkf
    by_cases hg : g = f
    · obtain rfl := hg
      exact hstep.keyFile
    · intro data hdata hlen
      obtain ⟨keys, hkeys⟩ := hkf data ((hstep.file g hg).symm.trans hdata) hlen
      exact ⟨keys, hheld g keys hkeys⟩
  have hlater : Later P root root' := by
    refine ⟨hheld _ _, hheld _ _, ?_⟩
    rintro ⟨signer, keys, hsigner, hkeys, hw⟩
    exact ⟨signer, keys, hheld _ _ hsigner, hheld _ _ hkeys, written_of_eq hroster hw⟩
  refine ⟨⟨hkeyFile _ h.seedFile, hkeyFile _ h.serverFile, fun hr => ?_⟩, hlater⟩
  obtain ⟨bs, hbs, hw⟩ := h.roster (hroster ▸ hr)
  exact ⟨bs, hbs.later hlater, written_of_eq hroster hw⟩

/-- A part that writes the roster, to its end or not. -/
theorem Steps.writeRoster {root : DataRoot} (h : Consistent P root) {bs : List (String × Bytes)}
    (hbs : Bindings P root bs)
    (hseeded : Seeded P root → ∃ signer keys, Holds P root .seedKeypair signer ∧ Holds P root .serverKeypair keys ∧
      bs = [("Skye", signer.pub), (serverAgent, keys.pub)])
    {bytes : Bytes} (hbytes : P.canonicalEncode (rosterFormat bs) = .ok bytes) (n : Nat) :
    Steps P root (setFile .roster (bytes.take n) root) := by
  have hseed : (setFile .roster (bytes.take n) root).file .seedKeypair = root.file .seedKeypair :=
    setFile_file_of_ne (by decide)
  have hserver : (setFile .roster (bytes.take n) root).file .serverKeypair = root.file .serverKeypair :=
    setFile_file_of_ne (by decide)
  have hw : Written P (setFile .roster (bytes.take n) root) bs :=
    ⟨bytes, bytes.take n, hbytes, setFile_file_self, List.take_prefix n bytes⟩
  have hlater : Later P root (setFile .roster (bytes.take n) root) := by
    refine ⟨holds_of_eq hseed, holds_of_eq hserver, fun hs => ?_⟩
    obtain ⟨signer, keys, hsigner, hkeys, rfl⟩ := hseeded hs
    exact ⟨signer, keys, holds_of_eq hseed hsigner, holds_of_eq hserver hkeys, hw⟩
  refine ⟨⟨fun data hdata hlen => ?_, fun data hdata hlen => ?_, fun _ => ⟨bs, hbs.later hlater, hw⟩⟩, hlater⟩
  · obtain ⟨keys, hkeys⟩ := h.seedFile data (hseed.symm.trans hdata) hlen
    exact ⟨keys, holds_of_eq hseed hkeys⟩
  · obtain ⟨keys, hkeys⟩ := h.serverFile data (hserver.symm.trans hdata) hlen
    exact ⟨keys, holds_of_eq hserver hkeys⟩

theorem entries_new {bs : List (String × Bytes)} {hn : (bs.map Prod.fst).Nodup} {r : Roster}
    (h : Roster.new bs hn = .ok r) :
    r.entries = bs := by
  unfold Roster.new at h
  split at h
  · obtain rfl := Except.ok.inj h
    rfl
  · cases h

/-- The roster that a server starts with. -/
structure Loaded (P : Prims) (root : DataRoot) (r : Roster) : Prop where
  bindings : Bindings P root r.entries
  complete : Complete P root r.entries

section Cbor

variable (hc : P.CborLaws) (ht : P.CborTruncated)
include hc ht

theorem loadOrCreateRoster_wp {root : DataRoot} (h : Consistent P root) {keys : Keys}
    (hkeys : Holds P root .serverKeypair keys) :
    WP (Serve.loadOrCreateRoster P keys.pub)
      (fun r root' => Loaded P root' r ∧ Steps P root root' ∧ root'.storage = root.storage)
      (fun _ root' => Steps P root root' ∧ root'.storage = root.storage) root := by
  refine .bind <| readBytes_wp.mono ?_ ?_
  swap
  · rintro - root' rfl
    exact ⟨.refl h, rfl⟩
  rintro - root' ⟨rfl, rfl⟩
  refine .bind <| .lift (fun r hr => ?_) fun _ _ => ⟨.refl h, rfl⟩
  cases hfile : root'.file .roster with
  | some data =>
    rw [hfile] at hr
    obtain ⟨bs, hbs, hw⟩ := h.roster (by rw [hfile]; exact Option.some_ne_none _)
    obtain ⟨hcomplete, rfl⟩ := hw.read hc ht hbs.binds hbs.nodup hfile hr
    rw [dif_pos (List.mem_map_of_mem (hbs.server hkeys))]
    exact .pure ⟨⟨hbs, hcomplete⟩, .refl h, rfl⟩
  | none =>
    rw [hfile] at hr
    have hempty : r.entries = [] := entries_new hr
    have hno : ¬ Seeded P root' := by
      rintro ⟨_, _, -, -, _, _, -, hsome, -⟩
      rw [hfile] at hsome
      cases hsome
    rw [dif_neg (by rw [hempty]; exact List.not_mem_nil)]
    refine .bind <| .lift (fun merged hmerged => ?_) fun _ _ => ⟨.refl h, rfl⟩
    have hentries : merged.entries = [(serverAgent, keys.pub)] := by
      rw [entries_new hmerged, hempty, List.nil_append]
    refine .bind <| .lift (fun bytes hbytes => ?_) fun _ _ => ⟨.refl h, rfl⟩
    replace hbytes : P.canonicalEncode (rosterFormat merged.entries) = .ok bytes := hbytes
    have hsteps : ∀ n, Steps P root' (setFile .roster (bytes.take n) root') := by
      rw [hentries] at hbytes
      exact .writeRoster h (.served hkeys) (fun hs => absurd hs hno) hbytes
    refine .bind <| writeBytes_wp.mono ?_ ?_
    · rintro - root'' rfl
      have hstep := hsteps bytes.length
      rw [List.take_length] at hstep
      refine .pure ⟨⟨?_, bytes, hbytes, setFile_file_self⟩, hstep, rfl⟩
      rw [hentries]
      exact .served (hstep.later.server hkeys)
    · rintro - root'' (rfl | ⟨n, rfl⟩)
      · exact ⟨.refl h, rfl⟩
      · exact ⟨hsteps n, rfl⟩

/-- An application as it is started on a directory. -/
structure Starts (P : Prims) (root : DataRoot) (app : App) : Prop where
  keys : Holds P root .serverKeypair app.keys
  signer : app.signerPubkey = app.keys.pub
  roster : Loaded P root app.roster

theorem start_wp {root : DataRoot} (h : Consistent P root) {m : ServeMain}
    (hg : P.KeyPair m.generated.priv m.generated.pub) :
    WP (m.start P) (fun app root' => Starts P root' app ∧ Steps P root root' ∧ root'.storage = root.storage)
      (fun _ root' => Steps P root root' ∧ root'.storage = root.storage) root := by
  refine .bind <| (loadOrCreateKeypair_wp h.serverFile hg).mono ?_ ?_
  · rintro keys root' ⟨hkeys, hstep⟩
    have hsteps := hstep.steps h (.inr rfl)
    refine .bind <| (loadOrCreateRoster_wp hc ht hsteps.consistent hkeys).mono ?_ ?_
    · rintro r root'' ⟨hloaded, hsteps', hs⟩
      have hall := hsteps.trans hsteps'
      have hstorage := hs.trans hstep.storage
      exact .bind <| .statement ⟨hall, hstorage⟩ <| .pure ⟨⟨hsteps'.later.server hkeys, rfl, hloaded⟩, hall, hstorage⟩
    · rintro - root'' ⟨hsteps', hs⟩
      exact ⟨hsteps.trans hsteps', hs.trans hstep.storage⟩
  · rintro - root' hstep
    exact ⟨hstep.steps h (.inr rfl), hstep.storage⟩

end Cbor

/-! ## The seed script -/

theorem onStorage_wp {α : Type} {x : Prog PyError Storage α} {Q : α → Storage → Prop} {E : PyError → Storage → Prop}
    {root : DataRoot} (h : WP x Q E root.storage) :
    WP (onStorage x) (fun a root' => root'.file = root.file ∧ Q a root'.storage)
      (fun e root' => root'.file = root.file ∧ E e root'.storage) root :=
  .zoom (h.mono (fun _ _ h => ⟨rfl, h⟩) fun _ _ h => ⟨rfl, h⟩)

/-- A part that works on the storage. -/
theorem Steps.of_file {root root' : DataRoot} (h : Consistent P root) (hfile : root'.file = root.file) :
    Steps P root root' :=
  .of_eq h (congrFun hfile _) (congrFun hfile _) (congrFun hfile _)

/-- What `persist_anchor` leaves. -/
structure Persisted (P : Prims) (signer keys : Keys) (roster : Roster) (now : Int) (record : AnchorRecord)
    (root : DataRoot) :
    Prop where
  holdsSigner : Holds P root .seedKeypair signer
  holdsServer : Holds P root .serverKeypair keys
  entries : roster.entries = [("Skye", signer.pub), (serverAgent, keys.pub)]
  rosterFile : ∃ bytes, roster.rosterBytes P = .ok bytes ∧ root.file .roster = some bytes
  anchorFile : ∃ bytes, record.anchorBytes P = .ok bytes ∧ root.file .anchor = some bytes
  anchored : Attest.anchor P root.storage roster now = .ok record

theorem persistAnchor_wp {root : DataRoot} (h : Consistent P root) {signer keys : Keys}
    (hsigner : Holds P root .seedKeypair signer) (hkeys : Holds P root .serverKeypair keys) {roster : Roster}
    (hr : roster.entries = [("Skye", signer.pub), (serverAgent, keys.pub)]) {now : Int} :
    WP (Seed.persistAnchor P roster now)
      (fun record root' => Persisted P signer keys roster now record root' ∧ Steps P root root' ∧
        root'.storage = root.storage)
      (fun _ root' => Steps P root root' ∧ root'.storage = root.storage) root := by
  refine .bind <| .read <| .bind <| .lift (fun record hrecord => ?_) fun _ _ => ⟨.refl h, rfl⟩
  refine .bind <| .lift (fun bytes hbytes => ?_) fun _ _ => ⟨.refl h, rfl⟩
  have hsteps : ∀ n, Steps P root (setFile .roster (bytes.take n) root) :=
    .writeRoster h (hr ▸ .seeded hsigner hkeys) (fun _ => ⟨signer, keys, hsigner, hkeys, hr⟩) hbytes
  refine .bind <| writeBytes_wp.mono ?_ ?_
  swap
  · rintro - root' (rfl | ⟨n, rfl⟩)
    · exact ⟨.refl h, rfl⟩
    · exact ⟨hsteps n, rfl⟩
  rintro - root' rfl
  have hstep := hsteps bytes.length
  rw [List.take_length] at hstep
  refine .bind <| .lift (fun anchorBytes hanchor => ?_) fun _ _ => ⟨hstep, rfl⟩
  have hsteps' : ∀ data, Steps P root (setFile .anchor data (setFile .roster bytes root)) := fun data =>
    hstep.trans (.of_eq hstep.consistent (setFile_file_of_ne (by decide)) (setFile_file_of_ne (by decide))
      (setFile_file_of_ne (by decide)))
  refine .bind <| writeBytes_wp.mono ?_ ?_
  · rintro - root' rfl
    have hlater := (hsteps' anchorBytes).later
    refine .pure ⟨⟨hlater.seed hsigner, hlater.server hkeys, hr, ⟨bytes, hbytes, ?_⟩, ⟨anchorBytes, hanchor, ?_⟩,
      hrecord⟩, hsteps' anchorBytes, rfl⟩
    · rw [setFile_file_of_ne (by decide), setFile_file_self]
    · exact setFile_file_self
  · rintro - root' (rfl | ⟨n, rfl⟩)
    · exact ⟨hstep, rfl⟩
    · exact ⟨hsteps' _, rfl⟩

end ArxDB.Proof.Deployment
