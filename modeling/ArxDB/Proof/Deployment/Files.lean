import ArxDB.Impl.Deployment
import ArxDB.Proof.Rotation
import ArxDB.Proof.Store

/-!
# The files of a data directory

`write_bytes` that is stopped leaves a beginning of what it writes
(`writeBytes_wp`). A key pair is 64 bytes, so a beginning of one is written
anew and a whole one is kept by everything: `Keeps` relates the directory
before and after.
-/

namespace ArxDB.Proof.Deployment

open Impl Impl.DataRoot Failing Prog

variable {P : Prims}

/-! ## Reading and writing -/

@[simp] theorem setFile_file_self {f : RootFile} {data : Bytes} {root : DataRoot} :
    (setFile f data root).file f = some data := Function.update_self ..

theorem setFile_file_of_ne {f g : RootFile} (h : g ≠ f) {data : Bytes} {root : DataRoot} :
    (setFile f data root).file g = root.file g := Function.update_of_ne h ..

@[simp] theorem setFile_setFile {f : RootFile} {data data' : Bytes} {root : DataRoot} :
    setFile f data' (setFile f data root) = setFile f data' root := by
  simp only [setFile, Function.update_idem]

/-- The file is not touched, or begins with what was written so far. -/
theorem foldl_setFile (f : RootFile) (data : Bytes) (root : DataRoot) (k : Nat) :
    ((List.range k).map fun n => setFile f (data.take n)).foldl (fun s u => u s) root =
      if k = 0 then root else setFile f (data.take (k - 1)) root := by
  induction k with
  | zero => rfl
  | succ k ih =>
    rw [List.range_succ, List.map_append, List.foldl_append, ih, if_neg (Nat.succ_ne_zero k), Nat.add_sub_cancel]
    show setFile f (data.take k) _ = _
    split
    · rfl
    · exact setFile_setFile

theorem readBytes_wp {f : RootFile} {root : DataRoot} :
    WP (readBytes f) (fun data root' => data = root.file f ∧ root' = root) (fun _ root' => root' = root) root :=
  .bind <| .statement rfl <| .read ⟨rfl, rfl⟩

/-- What is left when `write_bytes` is stopped. -/
def Torn (f : RootFile) (data : Bytes) (root root' : DataRoot) : Prop :=
  root' = root ∨ ∃ n, root' = setFile f (data.take n) root

theorem writeBytes_wp {f : RootFile} {data : Bytes} {root : DataRoot} :
    WP (writeBytes f data) (fun _ root' => root' = setFile f data root)
      (fun _ root' => Torn f data root root') root := by
  have hall : ((List.range (data.length + 1)).map fun n => setFile f (data.take n)).foldl (fun s u => u s) root =
      setFile f data root := by
    rw [foldl_setFile, if_neg (Nat.succ_ne_zero _), Nat.add_sub_cancel, List.take_length]
  refine .bind <| WP.changes.mono ?_ ?_
  · rintro - root' rfl
    rw [hall]
    exact .statement (.inr ⟨data.length, by rw [List.take_length]⟩) rfl
  · rintro - root' ⟨k, hk, rfl⟩
    rw [List.length_map, List.length_range] at hk
    rw [← List.map_take, List.take_range, Nat.min_eq_left hk.le, foldl_setFile]
    split
    · exact .inl rfl
    · exact .inr ⟨_, rfl⟩

/-! ## Key pairs -/

/-- The file holds this key pair. -/
structure Holds (P : Prims) (root : DataRoot) (f : RootFile) (keys : Keys) : Prop where
  file : root.file f = some (keys.priv ++ keys.pub)
  pair : P.KeyPair keys.priv keys.pub

theorem Holds.length {root : DataRoot} {f : RootFile} {keys : Keys} (h : Holds P root f keys) :
    (keys.priv ++ keys.pub).length = 64 := by
  rw [List.length_append, h.pair.priv_size, h.pair.pub_size]

/-- A key pair is read from its file as it is. -/
theorem Holds.split {root : DataRoot} {f : RootFile} {keys : Keys} (h : Holds P root f keys) :
    (⟨(keys.priv ++ keys.pub).take 32, (keys.priv ++ keys.pub).drop 32⟩ : Keys) = keys := by
  rw [← h.pair.priv_size, List.take_left, List.drop_left]

theorem Holds.unique {root : DataRoot} {f : RootFile} {keys keys' : Keys} (h : Holds P root f keys)
    (h' : Holds P root f keys') : keys = keys' := by
  have heq : keys.priv ++ keys.pub = keys'.priv ++ keys'.pub := Option.some.inj (h.file.symm.trans h'.file)
  rw [← h.split, ← h'.split, heq]

/-- Every file of the size of a key pair holds one. -/
def KeyFile (P : Prims) (root : DataRoot) (f : RootFile) : Prop :=
  ∀ data, root.file f = some data → data.length = 64 → ∃ keys, Holds P root f keys

/-- What a script does to a file of a key pair: a key pair that is there stays. -/
structure KeyStep (P : Prims) (f : RootFile) (root root' : DataRoot) : Prop where
  keyFile : KeyFile P root' f
  held (keys : Keys) : Holds P root f keys → Holds P root' f keys
  file (g : RootFile) : g ≠ f → root'.file g = root.file g
  storage : root'.storage = root.storage

theorem KeyStep.refl {f : RootFile} {root : DataRoot} (h : KeyFile P root f) : KeyStep P f root root :=
  ⟨h, fun _ h => h, fun _ _ => rfl, rfl⟩

/-- A key pair that is being written. -/
theorem KeyStep.write {f : RootFile} {root : DataRoot} (hno : ∀ keys, ¬ Holds P root f keys) {keys : Keys}
    (hk : P.KeyPair keys.priv keys.pub) (n : Nat) :
    KeyStep P f root (setFile f ((keys.priv ++ keys.pub).take n) root) where
  keyFile data hdata hlen := by
    rw [setFile_file_self, Option.some.injEq] at hdata
    have hwhole : (keys.priv ++ keys.pub).take n = keys.priv ++ keys.pub := by
      apply List.take_of_length_le
      rw [← hdata, List.length_take, List.length_append, hk.priv_size, hk.pub_size] at hlen
      rw [List.length_append, hk.priv_size, hk.pub_size]
      omega
    exact ⟨keys, by rw [setFile_file_self, hwhole], hk⟩
  held keys h := absurd h (hno keys)
  file _ hg := setFile_file_of_ne hg
  storage := rfl

theorem loadOrCreateKeypair_wp {f : RootFile} {root : DataRoot} (hf : KeyFile P root f) {generated : Keys}
    (hg : P.KeyPair generated.priv generated.pub) :
    WP (loadOrCreateKeypair f generated) (fun keys root' => Holds P root' f keys ∧ KeyStep P f root root')
      (fun _ root' => KeyStep P f root root') root := by
  refine .bind <| readBytes_wp.mono ?_ ?_
  · rintro - root' ⟨rfl, rfl⟩
    cases hdata : (root'.file f).filter (·.length = 64) with
    | some data =>
      obtain ⟨hdata, hlen⟩ := Option.filter_eq_some_iff.mp hdata
      obtain ⟨keys, hkeys⟩ := hf data hdata (of_decide_eq_true hlen)
      obtain rfl : data = keys.priv ++ keys.pub := Option.some.inj (hdata.symm.trans hkeys.file)
      refine .pure ?_
      rw [hkeys.split]
      exact ⟨hkeys, .refl hf⟩
    | none =>
      have hno : ∀ keys, ¬ Holds P root' f keys := by
        intro keys hkeys
        have := Option.filter_eq_none_iff.mp hdata _ hkeys.file
        exact this (decide_eq_true hkeys.length)
      refine .bind <| writeBytes_wp.mono ?_ ?_
      · rintro - root' rfl
        have hstep := KeyStep.write hno hg (generated.priv ++ generated.pub).length
        rw [List.take_length] at hstep
        exact .pure ⟨⟨setFile_file_self, hg⟩, hstep⟩
      · rintro - root' (rfl | ⟨n, rfl⟩)
        · exact .refl hf
        · exact .write hno hg n
  · rintro - root' rfl
    exact .refl hf

/-! ## The roster -/

/-- The file of the roster begins to be, or is, that of these bindings. -/
def Written (P : Prims) (root : DataRoot) (bs : List (String × Bytes)) : Prop :=
  ∃ bytes data, P.canonicalEncode (rosterFormat bs) = .ok bytes ∧ root.file .roster = some data ∧ data <+: bytes

/-- It is the file of these bindings. -/
def Complete (P : Prims) (root : DataRoot) (bs : List (String × Bytes)) : Prop :=
  ∃ bytes, P.canonicalEncode (rosterFormat bs) = .ok bytes ∧ root.file .roster = some bytes

theorem Complete.written {root : DataRoot} {bs : List (String × Bytes)} (h : Complete P root bs) :
    Written P root bs := by
  obtain ⟨bytes, hbytes, hfile⟩ := h
  exact ⟨bytes, bytes, hbytes, hfile, List.prefix_rfl⟩

/-- A roster is read as what was written, to its end. -/
theorem Written.read (hc : P.CborLaws) (ht : P.CborTruncated) {root : DataRoot} {bs : List (String × Bytes)}
    (h : Written P root bs) (hb : Binds bs) (hn : (bs.map Prod.fst).Nodup) {data : Bytes}
    (hdata : root.file .roster = some data)
    {r : Roster} (hr : Roster.fromBytes P data = .ok r) : Complete P root bs ∧ r.entries = bs := by
  obtain ⟨bytes, data', hbytes, hfile, hprefix⟩ := h
  obtain rfl : data = data' := Option.some.inj (hdata.symm.trans hfile)
  by_cases hlen : data.length < bytes.length
  · obtain ⟨_, -, hdumps⟩ := bind_eq_ok.mp hbytes
    obtain ⟨e, he⟩ := ht.loads_take hdumps hlen
    rw [← List.prefix_iff_eq_take.mp hprefix] at he
    rw [Roster.fromBytes, Prims.canonicalDecode, he] at hr
    cases hr
  · obtain rfl := hprefix.eq_of_length (Nat.le_antisymm hprefix.length_le (Nat.le_of_not_lt hlen))
    obtain ⟨r', hr', hentries⟩ := fromBytes_rosterFormat hc hb hbytes
    obtain rfl : r = r' := Except.ok.inj (hr.symm.trans hr')
    exact ⟨⟨data, hbytes, hfile⟩, hentries.trans (Dict.ofList_eq_iff.mpr hn)⟩

end ArxDB.Proof.Deployment
