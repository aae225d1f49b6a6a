import Mathlib.Data.List.Induction
import Mathlib.Data.List.Infix
import Mathlib.Tactic.Common

/-!
# Requests in two steps over a shared store

A server handles every request in two steps: `prepare` reads the store and
stages what the request will write, `apply` writes it. Steps of different
requests interleave, and nothing checks at a commit that the store is still
the one the request was prepared from. `Undisturbed` says of a schedule that
no request commits between the two steps of another; `Rule.run` is the
invariant rule for such schedules, in which a commit may assume that what it
writes is what its request would stage now, and `StaleRule.run` the one for
every schedule.
-/

namespace Staged

variable {σ ρ δ : Type}

/-- A request `ρ` stages a `δ`, or nothing when it is rejected; what it wrote
to the store while it was prepared stays. -/
structure Protocol (σ ρ δ : Type) where
  prepare : ρ → σ → Option δ × σ
  apply : δ → σ → σ

/-- What the server does next. Requests are numbered in the order in which
they are prepared. -/
inductive Step (ρ : Type) where
  | prepare (r : ρ)
  | commit (i : Nat)
  | abandon (i : Nat)

/-- A request is prepared. -/
def Step.isPrepare : Step ρ → Bool
  | .prepare _ => true
  | _ => false

/-- A request commits. -/
def Step.isCommit : Step ρ → Bool
  | .commit _ => true
  | _ => false

/-- The state, and the requests by what became of them. -/
structure Server (σ ρ δ : Type) where
  shared : σ
  /-- By number, what a request that is in flight has staged. -/
  requests : List (Option (ρ × δ))
  /-- The requests that were answered with success, in the order of their commits. -/
  acked : List (ρ × δ)

namespace Protocol

variable (p : Protocol σ ρ δ)

/-- One step, when it is possible: a request in flight commits or fails. -/
def step (s : Server σ ρ δ) : Step ρ → Option (Server σ ρ δ)
  | .prepare r => some {
      shared := (p.prepare r s.shared).2
      requests := s.requests ++ [(p.prepare r s.shared).1.map (r, ·)]
      acked := s.acked }
  | .commit i => match s.requests[i]? with
    | some (some (r, d)) => some {
        shared := p.apply d s.shared
        requests := s.requests.set i none
        acked := s.acked ++ [(r, d)] }
    | _ => none
  | .abandon i => match s.requests[i]? with
    | some (some _) => some { s with requests := s.requests.set i none }
    | _ => none

/-- The server after the steps, if each of them was possible. -/
def run (s₀ : σ) (steps : List (Step ρ)) : Option (Server σ ρ δ) :=
  steps.foldlM p.step ⟨s₀, [], []⟩

end Protocol

/-- How many requests the steps prepare. -/
def prepares (steps : List (Step ρ)) : Nat := steps.countP Step.isPrepare

/-- How many requests the steps commit. -/
def commits (steps : List (Step ρ)) : Nat := steps.countP Step.isCommit

/-- `r` is prepared after `before`, then come the steps `between`, and then it commits. -/
def CommitsAfter (steps before : List (Step ρ)) (r : ρ) (between : List (Step ρ)) : Prop :=
  before ++ .prepare r :: between ++ [.commit (prepares before)] <+: steps

/-- No request commits between the two steps of another. -/
def Undisturbed (steps : List (Step ρ)) : Prop :=
  ∀ before r between, CommitsAfter steps before r between → ∀ j, .commit j ∉ between

section Lists

variable {steps before between : List (Step ρ)} {t : Step ρ} {r : ρ}

@[simp] theorem prepares_append (xs ys : List (Step ρ)) : prepares (xs ++ ys) = prepares xs + prepares ys :=
  List.countP_append

@[simp] theorem commits_append (xs ys : List (Step ρ)) : commits (xs ++ ys) = commits xs + commits ys :=
  List.countP_append

theorem CommitsAfter.mono {steps' : List (Step ρ)} (h : CommitsAfter steps before r between)
    (hp : steps <+: steps') : CommitsAfter steps' before r between :=
  h.trans hp

theorem Undisturbed.mono {steps' : List (Step ρ)} (h : Undisturbed steps') (hp : steps <+: steps') :
    Undisturbed steps :=
  fun before r between hc => h before r between (hc.mono hp)

/-- Where a list that ends in `t` splits: at its end, or before it. -/
theorem snoc_eq_split (h : steps ++ [t] = before ++ .prepare r :: between) :
    (between = [] ∧ before = steps ∧ t = .prepare r) ∨
      ∃ between', between = between' ++ [t] ∧ steps = before ++ .prepare r :: between' := by
  rcases List.eq_nil_or_concat between with rfl | ⟨between', u, rfl⟩
  · obtain ⟨rfl, h⟩ := List.append_inj' h rfl
    exact .inl ⟨rfl, rfl, by simpa using h⟩
  · right
    rw [List.concat_eq_append, ← List.cons_append, ← List.append_assoc] at h
    obtain ⟨rfl, h⟩ := List.append_inj' h rfl
    obtain rfl : t = u := by simpa using h
    exact ⟨between', by simp, rfl⟩

/-- A request's number tells where it was prepared. -/
theorem split_unique {before' between' : List (Step ρ)} {r' : ρ}
    (h : before ++ .prepare r :: between = before' ++ .prepare r' :: between')
    (hn : prepares before = prepares before') :
    before = before' ∧ r = r' ∧ between = between' := by
  rcases List.append_eq_append_iff.mp h with ⟨as, rfl, h'⟩ | ⟨as, rfl, h'⟩
  all_goals
    cases as with
    | nil =>
      simp only [List.nil_append, List.cons.injEq, Step.prepare.injEq] at h'
      simp [h']
    | cons a as =>
      simp only [List.cons_append, List.cons.injEq] at h'
      obtain ⟨rfl, -⟩ := h'
      simp [prepares, Step.isPrepare] at hn

theorem CommitsAfter.mem (h : CommitsAfter steps before r between) : .prepare r ∈ steps :=
  h.subset (by simp)

end Lists

/-- One request after the other. -/
def serial (rs : List ρ) : List (Step ρ) := rs.zipIdx.flatMap fun r => [.prepare r.1, .commit r.2]

theorem serial_snoc (rs : List ρ) (r : ρ) : serial (rs ++ [r]) = serial rs ++ [.prepare r, .commit rs.length] := by
  simp [serial, List.zipIdx_append]

theorem prepares_serial (rs : List ρ) : prepares (serial rs) = rs.length := by
  induction rs using List.reverseRecOn with
  | nil => rfl
  | append_singleton rs r ih =>
    rw [serial_snoc, prepares_append, ih, List.length_append]
    rfl

theorem mem_of_prepare_mem_serial {rs : List ρ} {r : ρ} (h : .prepare r ∈ serial rs) : r ∈ rs := by
  simp only [serial, List.mem_flatMap, List.mem_cons, Step.prepare.injEq, reduceCtorEq, List.not_mem_nil,
    or_false] at h
  obtain ⟨x, hx, rfl⟩ := h
  exact (List.mem_zipIdx' hx).2 ▸ List.getElem_mem _

theorem undisturbed_serial (rs : List ρ) : Undisturbed (serial rs) := by
  induction rs using List.reverseRecOn with
  | nil =>
    intro before r between h
    have := h.mem
    simp [serial] at this
  | append_singleton rs r ih =>
    intro before r' between h
    rw [serial_snoc, show [Step.prepare r, .commit rs.length] = [.prepare r] ++ [.commit rs.length] from rfl,
      ← List.append_assoc] at h
    rcases List.prefix_concat_iff.mp h with h | h
    · obtain ⟨h, hc⟩ := List.append_inj' h rfl
      have hn : prepares before = prepares (serial rs) := by simpa [prepares_serial] using hc
      rw [(split_unique h hn).2.2]
      simp
    · rcases List.prefix_concat_iff.mp h with h | h
      · have := (List.append_inj' h rfl).2
        simp at this
      · exact ih before r' between h

namespace Protocol

variable {p : Protocol σ ρ δ} {s₀ : σ} {s s' : Server σ ρ δ} {steps : List (Step ρ)} {t : Step ρ}

@[simp] theorem run_nil : p.run s₀ [] = some ⟨s₀, [], []⟩ := rfl

theorem run_append (xs ys : List (Step ρ)) :
    p.run s₀ (xs ++ ys) = (p.run s₀ xs).bind fun s => ys.foldlM p.step s := by
  simp [run, List.foldlM_append]

theorem run_snoc : p.run s₀ (steps ++ [t]) = some s' ↔ ∃ s, p.run s₀ steps = some s ∧ p.step s t = some s' := by
  rw [run_append, Option.bind_eq_some_iff]
  simp

theorem run_prefix {pre : List (Step ρ)} (hp : pre <+: steps) (h : p.run s₀ steps = some s) :
    ∃ s', p.run s₀ pre = some s' := by
  obtain ⟨rest, rfl⟩ := hp
  rw [run_append, Option.bind_eq_some_iff] at h
  obtain ⟨s', hs, -⟩ := h
  exact ⟨s', hs⟩

/-- Everything a step can do. -/
theorem step_eq_some (h : p.step s t = some s') :
    (∃ r, t = .prepare r ∧ s' = ⟨(p.prepare r s.shared).2,
      s.requests ++ [(p.prepare r s.shared).1.map (r, ·)], s.acked⟩) ∨
    (∃ i r d, t = .commit i ∧ s.requests[i]? = some (some (r, d)) ∧
      s' = ⟨p.apply d s.shared, s.requests.set i none, s.acked ++ [(r, d)]⟩) ∨
    (∃ i, t = .abandon i ∧ s' = { s with requests := s.requests.set i none }) := by
  cases t with
  | prepare r =>
    simp only [step, Option.some.injEq] at h
    exact .inl ⟨r, rfl, h.symm⟩
  | commit i =>
    simp only [step] at h
    split at h
    · rename_i r d hi
      exact .inr (.inl ⟨i, r, d, rfl, hi, (Option.some.inj h).symm⟩)
    · cases h
  | abandon i =>
    simp only [step] at h
    split at h
    · exact .inr (.inr ⟨i, rfl, (Option.some.inj h).symm⟩)
    · cases h

theorem length_run (h : p.run s₀ steps = some s) :
    s.requests.length = prepares steps ∧ s.acked.length = commits steps := by
  induction steps using List.reverseRecOn generalizing s with
  | nil =>
    obtain rfl := Option.some.inj h
    exact ⟨rfl, rfl⟩
  | append_singleton steps t ih =>
    obtain ⟨s', hs, ht⟩ := run_snoc.mp h
    obtain ⟨h₁, h₂⟩ := ih hs
    rcases step_eq_some ht with ⟨r, rfl, rfl⟩ | ⟨i, r, d, rfl, -, rfl⟩ | ⟨i, rfl, rfl⟩
    · exact ⟨by simp [h₁, prepares, Step.isPrepare], by simp [h₂, commits, Step.isCommit]⟩
    · exact ⟨by simp [h₁, prepares, Step.isPrepare], by simp [h₂, commits, Step.isCommit]⟩
    · exact ⟨by simp [h₁, prepares, Step.isPrepare], by simp [h₂, commits, Step.isCommit]⟩

/-- What is in flight was staged at its prepare, from the store of that time. -/
theorem run_requests (h : p.run s₀ steps = some s) {i : Nat} {r : ρ} {d : δ}
    (hi : s.requests[i]? = some (some (r, d))) :
    ∃ before between s₁, steps = before ++ .prepare r :: between ∧ prepares before = i ∧
      p.run s₀ before = some s₁ ∧ (p.prepare r s₁.shared).1 = some d := by
  induction steps using List.reverseRecOn generalizing s with
  | nil =>
    obtain rfl := Option.some.inj h
    simp at hi
  | append_singleton steps t ih =>
    obtain ⟨s', hs, ht⟩ := run_snoc.mp h
    have later : s'.requests[i]? = some (some (r, d)) → ∃ before between s₁,
        steps ++ [t] = before ++ .prepare r :: between ∧ prepares before = i ∧
          p.run s₀ before = some s₁ ∧ (p.prepare r s₁.shared).1 = some d := by
      intro hi
      obtain ⟨before, between, s₁, rfl, h₁, h₂, h₃⟩ := ih hs hi
      exact ⟨before, between ++ [t], s₁, by simp, h₁, h₂, h₃⟩
    have hset : ∀ j, (s'.requests.set j none)[i]? = some (some (r, d)) → s'.requests[i]? = some (some (r, d)) := by
      intro j hj
      rw [List.getElem?_set] at hj
      split at hj
      · split at hj <;> simp at hj
      · exact hj
    rcases step_eq_some ht with ⟨r', rfl, rfl⟩ | ⟨j, r', d', rfl, -, rfl⟩ | ⟨j, rfl, rfl⟩
    · by_cases hlt : i < s'.requests.length
      · rw [List.getElem?_append_left hlt] at hi
        exact later hi
      · rw [List.getElem?_append_right (by omega)] at hi
        obtain ⟨hk, hi⟩ := List.getElem?_eq_some_iff.mp hi
        simp only [List.length_singleton] at hk
        have hlen := (length_run hs).1
        simp only [List.getElem_singleton, Option.map_eq_some_iff, Prod.mk.injEq] at hi
        obtain ⟨d', hd, rfl, rfl⟩ := hi
        exact ⟨steps, [], s', rfl, by omega, hs, hd⟩
    · exact later (hset j hi)
    · exact later (hset j hi)

/-- A commit that is possible answers a request that was prepared before it. -/
theorem run_commit {i : Nat} (h : p.run s₀ (steps ++ [.commit i]) = some s') :
    ∃ s before r between s₁ d, p.run s₀ steps = some s ∧ steps = before ++ .prepare r :: between ∧
      prepares before = i ∧ p.run s₀ before = some s₁ ∧ (p.prepare r s₁.shared).1 = some d ∧
      s' = ⟨p.apply d s.shared, s.requests.set i none, s.acked ++ [(r, d)]⟩ := by
  obtain ⟨s, hs, ht⟩ := run_snoc.mp h
  rcases step_eq_some ht with ⟨r, hi, -⟩ | ⟨j, r, d, hi, hj, rfl⟩ | ⟨j, hi, -⟩
  · cases hi
  · obtain rfl : i = j := by simpa using hi
    obtain ⟨before, between, s₁, rfl, h₁, h₂, h₃⟩ := run_requests hs hj
    exact ⟨s, before, r, between, s₁, d, hs, rfl, h₁, h₂, h₃, rfl⟩
  · cases hi

theorem run_acked (h : p.run s₀ steps = some s) {a : ρ × δ} (ha : a ∈ s.acked) :
    ∃ before between, CommitsAfter steps before a.1 between := by
  induction steps using List.reverseRecOn generalizing s with
  | nil =>
    obtain rfl := Option.some.inj h
    cases ha
  | append_singleton steps t ih =>
    obtain ⟨s', hs, ht⟩ := run_snoc.mp h
    have earlier : a ∈ s'.acked → ∃ before between, CommitsAfter (steps ++ [t]) before a.1 between := by
      intro ha
      obtain ⟨before, between, hc⟩ := ih hs ha
      exact ⟨before, between, hc.mono (List.prefix_append _ _)⟩
    rcases step_eq_some ht with ⟨r, rfl, rfl⟩ | ⟨i, r, d, rfl, hi, rfl⟩ | ⟨i, rfl, rfl⟩
    · exact earlier ha
    · rcases List.mem_append.mp ha with ha | ha
      · exact earlier ha
      · obtain rfl := List.mem_singleton.mp ha
        obtain ⟨before, between, -, rfl, rfl, -, -⟩ := run_requests hs hi
        exact ⟨before, between, List.prefix_refl _⟩
    · exact earlier ha

end Protocol

/-! ## Invariants of every schedule -/

/-- `I` of the answered requests and the store holds along every schedule: what
commits was staged when `I` held as well, of a store that had answered fewer
requests. -/
structure StaleRule (p : Protocol σ ρ δ) (s₀ : σ) (I : List (ρ × δ) → σ → Prop) : Prop where
  init : I [] s₀
  prepare : ∀ {a s} r, I a s → I a (p.prepare r s).2
  commit : ∀ {a₁ a s₁ s r d}, a₁ <+: a → I a₁ s₁ → I a s → (p.prepare r s₁).1 = some d →
    I (a ++ [(r, d)]) (p.apply d s)

theorem Protocol.acked_prefix {p : Protocol σ ρ δ} {s₀ : σ} {before rest : List (Step ρ)} {s₁ s : Server σ ρ δ}
    (h₁ : p.run s₀ before = some s₁) (h : p.run s₀ (before ++ rest) = some s) : s₁.acked <+: s.acked := by
  induction rest using List.reverseRecOn generalizing s with
  | nil =>
    rw [List.append_nil, h₁] at h
    rw [Option.some.inj h]
  | append_singleton rest t ih =>
    rw [← List.append_assoc] at h
    obtain ⟨s', hs, ht⟩ := run_snoc.mp h
    have hpre : s₁.acked <+: s'.acked := ih hs
    rcases step_eq_some ht with ⟨r, -, rfl⟩ | ⟨i, r, d, -, -, rfl⟩ | ⟨i, -, rfl⟩
    · exact hpre
    · exact hpre.trans (List.prefix_append _ _)
    · exact hpre

theorem StaleRule.run {p : Protocol σ ρ δ} {s₀ : σ} {I : List (ρ × δ) → σ → Prop} (R : StaleRule p s₀ I)
    {steps : List (Step ρ)} {s : Server σ ρ δ} (h : p.run s₀ steps = some s) : I s.acked s.shared := by
  -- at a commit, the store that its request was prepared from is one of an earlier prefix
  have key : ∀ (steps pre : List (Step ρ)) (s : Server σ ρ δ), pre <+: steps → p.run s₀ pre = some s →
      I s.acked s.shared := by
    intro steps
    induction steps using List.reverseRecOn with
    | nil =>
      intro pre s hpre h
      obtain rfl := List.prefix_nil.mp hpre
      obtain rfl := Option.some.inj h
      exact R.init
    | append_singleton steps t ih =>
      intro pre s' hpre h
      rcases List.prefix_concat_iff.mp hpre with rfl | hpre
      · obtain ⟨s, hs, ht⟩ := Protocol.run_snoc.mp h
        have hI := ih steps s (List.prefix_refl _) hs
        rcases Protocol.step_eq_some ht with ⟨r, -, rfl⟩ | ⟨i, r, d, -, hi, rfl⟩ | ⟨i, -, rfl⟩
        · exact R.prepare r hI
        · obtain ⟨before, between, s₁, rfl, -, h₁, hd⟩ := Protocol.run_requests hs hi
          have hbefore := ih before s₁ (List.prefix_append _ _) h₁
          exact R.commit (Protocol.acked_prefix h₁ hs) hbefore hI hd
        · exact hI
      · exact ih pre s' hpre h
  exact key steps steps s (List.prefix_refl _) h

/-! ## Invariants of undisturbed schedules -/

/-- `I` of the answered requests and the store holds along undisturbed
schedules. `Fresh r d s` says that in `s`, `d` is what `r` stages. -/
structure Rule (p : Protocol σ ρ δ) (s₀ : σ) (I : List (ρ × δ) → σ → Prop) (Fresh : ρ → δ → σ → Prop) : Prop where
  init : I [] s₀
  prepare : ∀ {a s} r, I a s → I a (p.prepare r s).2
  fresh : ∀ {r d s}, (p.prepare r s).1 = some d → Fresh r d (p.prepare r s).2
  still : ∀ {r d s} r', Fresh r d s → Fresh r d (p.prepare r' s).2
  commit : ∀ {a r d s}, I a s → Fresh r d s → I (a ++ [(r, d)]) (p.apply d s)

/-- The store is prepared by one request after the other, and nothing that
commits is stale. -/
theorem Rule.run {p : Protocol σ ρ δ} {s₀ : σ} {I : List (ρ × δ) → σ → Prop} {Fresh : ρ → δ → σ → Prop}
    (R : Rule p s₀ I Fresh) {steps : List (Step ρ)} (hu : Undisturbed steps) {s : Server σ ρ δ}
    (h : p.run s₀ steps = some s) : I s.acked s.shared := by
  -- what was prepared since the last commit is fresh
  have key : ∀ (steps : List (Step ρ)) (s : Server σ ρ δ), Undisturbed steps → p.run s₀ steps = some s →
      I s.acked s.shared ∧ ∀ before r between d, steps = before ++ .prepare r :: between →
        (∀ j, .commit j ∉ between) → s.requests[prepares before]? = some (some (r, d)) → Fresh r d s.shared := by
    intro steps
    induction steps using List.reverseRecOn with
    | nil =>
      intro s _ h
      obtain rfl := Option.some.inj h
      exact ⟨R.init, by simp⟩
    | append_singleton steps t ih =>
      intro s' hu h
      obtain ⟨s, hs, ht⟩ := Protocol.run_snoc.mp h
      obtain ⟨hI, hF⟩ := ih s (hu.mono (List.prefix_append _ _)) hs
      rcases Protocol.step_eq_some ht with ⟨r, rfl, rfl⟩ | ⟨i, r, d, rfl, hi, rfl⟩ | ⟨i, rfl, rfl⟩
      · refine ⟨R.prepare r hI, fun before r' between d hsplit hb hd => ?_⟩
        have hlen := (Protocol.length_run hs).1
        rcases snoc_eq_split hsplit with ⟨rfl, rfl, hr⟩ | ⟨between', rfl, rfl⟩
        · obtain rfl : r = r' := by simpa using hr
          rw [List.getElem?_append_right (by omega)] at hd
          simp only [hlen, Nat.sub_self, List.getElem?_cons_zero, Option.some.injEq, Option.map_eq_some_iff,
            Prod.mk.injEq] at hd
          obtain ⟨d', hd', -, rfl⟩ := hd
          exact R.fresh hd'
        · refine R.still r (hF before r' between' d rfl (fun j hj => hb j (by simp [hj])) ?_)
          rwa [List.getElem?_append_left] at hd
          rw [hlen]
          simp [prepares, Step.isPrepare]
      · obtain ⟨before, between, -, rfl, rfl, -, -⟩ := Protocol.run_requests hs hi
        have hb := hu before r between (List.prefix_refl _)
        refine ⟨R.commit hI (hF before r between d rfl hb hi), fun before' r' between' d' hsplit hb' _ => ?_⟩
        rcases snoc_eq_split hsplit with ⟨-, -, h⟩ | ⟨between'', rfl, -⟩
        · cases h
        · exact absurd (List.mem_append_right _ List.mem_cons_self) (hb' _)
      · refine ⟨hI, fun before r between d hsplit hb hd => ?_⟩
        rcases snoc_eq_split hsplit with ⟨-, -, h⟩ | ⟨between', rfl, rfl⟩
        · cases h
        · refine hF before r between' d rfl (fun j hj => hb j (by simp [hj])) ?_
          rw [List.getElem?_set] at hd
          split at hd
          · split at hd <;> simp at hd
          · exact hd
  exact (key steps s hu h).1

end Staged
