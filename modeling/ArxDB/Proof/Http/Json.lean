import ArxDB.Proof.Http.Answers

/-!
# What can be written as JSON

What `json.loads` makes of a body can be written again, and so can what is
made of it: the nodes and edges proposed (`proposal_json`), as they are read
back from the store, where dicts can be filled in another order
(`jsonable_same`), and the records that answers show of them.
-/

namespace ArxDB.Proof.Http

open Impl Impl.Http

variable {P : Prims} {L : Lib} {app : App}

/-- An object in it that a `Value` does not take apart cannot be iterated over. -/
def Loaded (v : Value) : Prop := ∀ o, .other o ∈ v.parts → ∃ err, o.iter = .error err

/-- What `json.loads` returns can be written as JSON, and besides the objects that
a `Value` takes apart it holds floats. -/
structure LoadsJson (L : Lib) : Prop where
  loads {raw : Bytes} {v : Value} : L.loads raw = .ok v → v.jsonable = true
  loaded {raw : Bytes} {v : Value} : L.loads raw = .ok v → Loaded v

/-! ## Values -/

theorem jsonableAll_eq (xs : List Value) : Value.jsonableAll xs = xs.all Value.jsonable := by
  induction xs with
  | nil => rfl
  | cons x xs ih => rw [Value.jsonableAll, ih, List.all_cons]

theorem jsonableItems_eq (kvs : List (Value × Value)) :
    Value.jsonableItems kvs = kvs.all fun kv => kv.1.jsonKey && kv.2.jsonable := by
  induction kvs with
  | nil => rfl
  | cons kv kvs ih => rw [Value.jsonableItems, ih, List.all_cons]

theorem jsonable_list {xs : List Value} : (Value.list xs).jsonable = true ↔ ∀ x ∈ xs, x.jsonable = true := by
  rw [Value.jsonable, jsonableAll_eq, List.all_eq_true]

theorem jsonable_dict {kvs : List (Value × Value)} : (Value.dict kvs).jsonable = true ↔
    ∀ kv ∈ kvs, kv.1.jsonKey = true ∧ kv.2.jsonable = true := by
  simp only [Value.jsonable, jsonableItems_eq, List.all_eq_true, Bool.and_eq_true]

theorem jsonable_record {fs : List (String × Value)} (h : ∀ f ∈ fs, f.2.jsonable = true) :
    (Value.record fs).jsonable = true := by
  rw [Value.record, jsonable_dict]
  intro kv hkv
  obtain ⟨f, hf, rfl⟩ := List.mem_map.mp hkv
  exact ⟨rfl, h f hf⟩

theorem jsonable_h (k : Option Hash) : (h k).jsonable = true := by cases k <;> rfl

theorem jsonable_hashes (hs : List Hash) : (Value.list (hs.map fun k => h (some k))).jsonable = true := by
  rw [jsonable_list]
  intro x hx
  obtain ⟨k, -, rfl⟩ := List.mem_map.mp hx
  exact jsonable_h _

theorem jsonKey_scalar {k : Value} (hk : k.jsonKey = true) : k.scalar = true := by
  cases k <;> first | rfl | cases hk

/-- The canonical form of what can be written can be. -/
theorem jsonable_canonicalize {n : Nat} {v c : Value} (hc : Serialization.canonicalize P n v = .ok c)
    (hv : v.jsonable = true) : c.jsonable = true := by
  induction n generalizing v c with
  | zero => cases hc
  | succ n ih =>
    obtain hscalar | ⟨xs, hseq⟩ | ⟨xs, hset⟩ | ⟨kvs, rfl⟩ := kinds v
    · obtain rfl := (Flat.scalar hscalar).canonicalize_eq hc
      exact hv
    · have hxs : ∀ x ∈ xs, x.jsonable = true := by obtain rfl | rfl := hseq <;> exact jsonable_list.mp hv
      obtain ⟨cs, hcs, rfl⟩ := hseq.canonicalize_eq_ok.mp hc
      refine jsonable_list.mpr fun c hmem => ?_
      obtain ⟨x, hx, hxc⟩ := exists_of_forall₂ hcs hmem
      exact ih hxc (hxs x hx)
    · obtain rfl | rfl := hset <;> cases hv
    · obtain ⟨d, hd, e⟩ := bind_eq_ok.mp hc
      obtain rfl := Except.ok.inj e
      refine jsonable_dict.mpr (forall_foldlM (Q := fun k => k.jsonKey = true) (R := fun v => v.jsonable = true) hd
        (by simp) fun kv hkv c hitem _ => ?_)
      obtain ⟨hkey, hval⟩ := jsonable_dict.mp hv kv hkv
      have e := (Flat.scalar (jsonKey_scalar hkey)).canonicalize_eq hitem.1
      exact ⟨e ▸ hkey, ih hitem.2 hval⟩

/-- The order in which dicts were filled does not matter. -/
theorem jsonable_same {v w : Value} (hs : Value.Same v w) (hv : v.jsonable = true) : w.jsonable = true := by
  induction v using Reference.Cbor.Value.induct generalizing w with
  | leaf v hl hd =>
    cases hs with
    | refl => exact hv
    | list => exact absurd rfl (hl _)
    | dict => exact absurd rfl (hd _)
  | list xs ih =>
    cases hs with
    | refl => exact hv
    | list hs =>
      rw [jsonable_list] at hv ⊢
      intro y hy
      obtain ⟨x, hx, hxy⟩ := exists_of_forall₂ hs hy
      exact ih x hx hxy (hv x hx)
  | dict kvs ih =>
    cases hs with
    | refl => exact hv
    | @dict _ kvs' kvs'' hp hk hvals =>
      rw [jsonable_dict] at hv ⊢
      intro kv hkv
      have hkey : kv.1 ∈ kvs'.map Prod.fst := hk ▸ List.mem_map_of_mem hkv
      obtain ⟨kv₁, hkv₁, hfst⟩ := List.mem_map.mp hkey
      obtain ⟨x, hx, hxy⟩ := exists_of_forall₂ hvals (List.mem_map_of_mem hkv)
      obtain ⟨kv₂, hkv₂, rfl⟩ := List.mem_map.mp hx
      exact ⟨hfst ▸ (hv kv₁ (hp.mem_iff.mpr hkv₁)).1,
        ih kv₂ (hp.mem_iff.mpr hkv₂) hxy (hv kv₂ (hp.mem_iff.mpr hkv₂)).2⟩

theorem jsonable_restored {v w : Value} (hr : Restored P v w) (hv : v.jsonable = true) : w.jsonable = true := by
  obtain ⟨n, c, hc, hs⟩ := hr
  exact jsonable_same hs (jsonable_canonicalize hc hv)

/-! ## Fields of a body -/

theorem getOr_json {kvs : List (Value × Value)} (hb : (Value.dict kvs).jsonable = true) {s : String} {default : Value}
    (hd : default.jsonable = true) : (getOr kvs s default).jsonable = true := by
  unfold getOr
  split
  · rename_i kv hkv
    exact (jsonable_dict.mp hb kv (List.mem_of_find?_eq_some hkv)).2
  · exact hd

theorem mem_parts_of_getOr {kvs : List (Value × Value)} {s : String} {default v : Value}
    (hv : getOr kvs s default = v) (hne : default ≠ v) : v ∈ (Value.dict kvs).parts := by
  unfold getOr at hv
  split at hv
  · rename_i kv hkv
    subst hv
    exact List.mem_append_right _ (List.mem_map_of_mem (List.mem_of_find?_eq_some hkv))
  · exact absurd hv hne

theorem get_json {body : Value} (hb : body.jsonable = true) {s : String} {default v : Value}
    (hd : default.jsonable = true) (hv : body.get s default = .ok v) : v.jsonable = true := by
  unfold Value.get at hv
  split at hv
  · cases hv
    exact getOr_json hb hd
  · cases hv

theorem getItem_json {kvs : List (Value × Value)} (hb : (Value.dict kvs).jsonable = true) {s : String} {v : Value}
    (hv : (Value.dict kvs).getItem s = .ok v) : v.jsonable = true := by
  simp only [Value.getItem] at hv
  split at hv
  · rename_i kv hkv
    cases hv
    exact (jsonable_dict.mp hb kv (List.mem_of_find?_eq_some hkv)).2
  · cases hv

/-- A node whose fields can be written. -/
structure JsonNode (n : Node) : Prop where
  claim : n.claim.jsonable = true
  domain : n.domain.jsonable = true
  polarity : n.polarity.jsonable = true

theorem NodeSame.json {n n' : Node} (hs : NodeSame P n n') (hn : JsonNode n) : JsonNode n' :=
  ⟨jsonable_restored hs.claim hn.claim, jsonable_restored hs.domain hn.domain,
    jsonable_restored hs.polarity hn.polarity⟩

theorem parseNode_json {d : Value} (hd : d.jsonable = true) {n : Node} (hn : Server.parseNode d = .ok n) :
    JsonNode n := by
  unfold Server.parseNode at hn
  split at hn
  · split at hn
    · split_ifs at hn
      cases hn
      exact ⟨rfl, getOr_json hd rfl, rfl⟩
    · cases hn
  · cases hn

/-- The elements of what is written can be parsed only to nodes that can be written. -/
theorem iter_json {v : Value} (hv : v.jsonable = true)
    (ho : ∀ o, v = .other o → ∃ err, o.iter = .error err) {xs : List Value} (hx : v.iter = .ok xs) {ns : List Node}
    (hn : xs.mapM Server.parseNode = .ok ns) : ∀ n ∈ ns, JsonNode n := by
  intro n hmem
  obtain ⟨d, hd, hparse⟩ := exists_of_forall₂ (mapM_eq_ok_iff.mp hn) hmem
  cases v with
  | list ys | tuple ys =>
    cases hx
    exact parseNode_json (jsonable_list.mp hv d hd) hparse
  | dict kvs =>
    cases hx
    obtain ⟨kv, hkv, rfl⟩ := List.mem_map.mp hd
    have hkey := (jsonable_dict.mp hv kv hkv).1
    cases hk : kv.1 <;> rw [hk] at hkey hparse <;> first | cases hparse | cases hkey
  | str s =>
    cases hx
    obtain ⟨c, -, rfl⟩ := List.mem_map.mp hd
    cases hparse
  | other o =>
    obtain ⟨err, herr⟩ := ho o rfl
    rw [Value.iter, herr] at hx
    cases hx
  | bytes | set | frozenset => cases hv
  | none | bool | int => cases hx

/-- A proposal whose nodes and rule can be written. -/
structure JsonProposal (q : Proposal) : Prop where
  nodes : ∀ n ∈ q.premises ++ [q.conclusion], JsonNode n
  rule : q.rule.jsonable = true
  signer : ∃ signer, q.signerPubkey = .bytes signer

theorem proposal_json {body : Value} (hb : body.jsonable = true) (hl : Loaded body) {q : Proposal}
    (hq : proposal L app body = .ok q) :
    JsonProposal q := by
  unfold proposal at hq
  obtain ⟨v, hv, hq⟩ := bind_eq_ok.mp hq
  obtain ⟨xs, hxs, hq⟩ := bind_eq_ok.mp hq
  obtain ⟨ns, hns, hq⟩ := bind_eq_ok.mp hq
  obtain ⟨d, hd, hq⟩ := bind_eq_ok.mp hq
  obtain ⟨n, hn, hq⟩ := bind_eq_ok.mp hq
  obtain ⟨rule, hrule, hq⟩ := bind_eq_ok.mp hq
  obtain ⟨_, -, hq⟩ := bind_eq_ok.mp hq
  obtain ⟨_, -, hq⟩ := bind_eq_ok.mp hq
  obtain ⟨_, -, hq⟩ := bind_eq_ok.mp hq
  obtain ⟨_, -, hq⟩ := bind_eq_ok.mp hq
  obtain ⟨_, -, hq⟩ := bind_eq_ok.mp hq
  obtain ⟨signer, -, hq⟩ := bind_eq_ok.mp hq
  obtain ⟨_, -, hq⟩ := bind_eq_ok.mp hq
  obtain ⟨_, -, hq⟩ := bind_eq_ok.mp hq
  cases hq
  refine ⟨?_, get_json hb rfl hrule, signer, rfl⟩
  simp only [List.forall_mem_append, List.forall_mem_singleton]
  cases body with
  | dict kvs =>
    refine ⟨iter_json (get_json hb rfl hv) (fun o ho => hl o ?_) hxs hns, parseNode_json (getItem_json hb hd) hn⟩
    subst ho
    exact mem_parts_of_getOr (Except.ok.inj hv) (by simp)
  | _ => cases hv

theorem readBody_json (hL : LoadsJson L) {body : Except PyError Bytes} {v : Value} (hv : readBody L body = .ok v) :
    v.jsonable = true ∧ Loaded v := by
  obtain ⟨raw, -, hv⟩ := bind_eq_ok.mp hv
  split_ifs at hv
  · cases hv
    exact ⟨rfl, by simp [Loaded, Value.parts]⟩
  · split at hv
    · cases hv
    · exact ⟨hL.loads hv, hL.loaded hv⟩

/-- The calls that requests make. -/
theorem call?_json (hL : LoadsJson L) {r : HttpRequest} {c : CommitCall} (hc : call? L app r = some c) :
    JsonProposal c.proposal := by
  unfold call? at hc
  split_ifs at hc
  obtain ⟨q, hq, rfl⟩ := Option.map_eq_some_iff.mp hc
  obtain ⟨body, hb, hq⟩ := bind_eq_ok.mp (toOption_eq_some.mp hq)
  have hjson := readBody_json hL hb
  exact proposal_json hjson.1 hjson.2 hq

/-! ## Records of nodes and edges -/

/-- A node under its hash, as an answer shows it. -/
theorem nodeToDict_eq {n : Node} {k : Hash} (hk : n.nodeId P = .ok k) : nodeToDict P n = .ok (.record [
    ("claim", n.claim), ("domain", n.domain), ("polarity", n.polarity), ("node_id", h (some k))]) := by
  rw [nodeToDict, hk]
  rfl

theorem jsonable_node {n : Node} (hn : JsonNode n) (k : Hash) : (Value.record [
    ("claim", n.claim), ("domain", n.domain), ("polarity", n.polarity), ("node_id", h (some k))]).jsonable = true := by
  apply jsonable_record
  simp only [List.forall_mem_cons, List.not_mem_nil, false_implies, implies_true, and_true]
  exact ⟨hn.claim, hn.domain, hn.polarity, jsonable_h _⟩

/-- An edge under its hash, as an answer shows it. -/
def edgeRecord (e : Edge) (signer : Bytes) (k : Hash) : Value := .record [
  ("type", .str e.type.value), ("premises", .list (e.premises.map fun p => h (some p))),
  ("conclusion", h (some e.conclusion)), ("rule", e.rule), ("proof_hash", h e.proofHash),
  ("verdict", .str e.verdict.value), ("kappa", .str e.kappa.value),
  ("signer_pubkey", .ofChars (signer.flatMap hexByte)), ("edge_hash", h (some k))]

theorem edgeToDict_eq {e : Edge} {signer : Bytes} {k : Hash} (hs : e.signerPubkey = .bytes signer)
    (hk : e.edgeHash P = .ok k) : edgeToDict P e = .ok (edgeRecord e signer k) := by
  rw [edgeToDict, hs, hk]
  rfl

theorem jsonable_edge {e : Edge} (he : e.rule.jsonable = true) (signer : Bytes) (k : Hash) :
    (edgeRecord e signer k).jsonable = true := by
  apply jsonable_record
  simp only [List.forall_mem_cons, List.not_mem_nil, false_implies, implies_true, and_true]
  exact ⟨rfl, jsonable_hashes _, jsonable_h _, he, jsonable_h _, rfl, rfl, rfl, jsonable_h _⟩

section Example

open Reference

/-- A library whose bodies are single bytes, each the place of its value in a list. -/
def exampleLib (bodies : List Value) : Lib where
  loads raw := match bodies[(raw.headD 0).toNat]? with
    | some v => .ok v
    | none => .error (.other "JSONDecodeError")
  float _ := .ok (.finite 5)

/-- Whether the value is one that a `Value` does not take apart. -/
def isOther : Value → Bool
  | .other _ => true
  | _ => false

theorem exampleLib_json {bodies : List Value}
    (hb : (bodies.all fun v => v.jsonable && v.parts.all fun x => !isOther x) = true) :
    LoadsJson (exampleLib bodies) := by
  have hloads : ∀ {raw v}, (exampleLib bodies).loads raw = .ok v →
      v.jsonable = true ∧ ∀ x ∈ v.parts, isOther x = false := by
    intro raw v hv
    simp only [exampleLib] at hv
    split at hv
    · rename_i w hw
      cases hv
      simpa using List.all_eq_true.mp hb _ (List.mem_of_getElem? hw)
    · cases hv
  refine ⟨fun hv => (hloads hv).1, fun hv o ho => ?_⟩
  have hother := (hloads hv).2 _ ho
  cases hother

/-- A request with the body of this number. -/
def request (method : Method) (target : String) (body : UInt8) : HttpRequest :=
  ⟨method, target.toList, .ok [body], lenient, 10, none⟩

/-- The body of a citation of `claim` from `premises`. -/
def citing (premises : List String) (claim : String) (proof : String) : Value := .record [
  ("premises", .list (premises.map fun p => .record [("claim", .str p)])),
  ("conclusion", .record [("claim", .str claim)]),
  ("edge_type", .str "citation"), ("proof", .str proof)]

/-- Two citations, of which the second is from the conclusion of the first, and a body without a conclusion. -/
def exampleBodies : List Value := [citing [] "a" "", citing ["a"] "b" "cHJvb2Y=", .record [("rule", .str "r")]]

/-- The two citations, with a read and a refused request between them. -/
def exampleRequests : List HttpRequest :=
  [request .POST "/commit" 0, request .GET "/health" 9, request .POST "/commit" 2, request .POST "/commit" 1]

theorem exampleBodies_json : LoadsJson (exampleLib exampleBodies) := exampleLib_json (by decide +kernel)

end Example

end ArxDB.Proof.Http
