import ArxDB.Framework.Failing
import Mathlib.Data.List.Induction
import Mathlib.Logic.Function.Basic

/-!
# Threads over a shared state

A `Thread` is a tree of atomic actions on a shared state: an action writes the
state, and what the thread does next depends on the state it found. A `Pool`
holds any number of threads; a schedule says which one acts next.

`Keeps R News Q t s` is the rule for one thread among others: as long as the
others keep to the rely `R` (an invariant, and how the state may change), so
does `t`; what it returns is `News` in the state that its last action found,
and `Q` from then on. The rule for the pool is `run_keeps`; two results are
told apart by `run_distinct`, as the later one was news when the earlier one
was there already. Threads are put together by `bind`, and `andThen` where they
can fail; their rules (`KeepsTo`) are for threads of which no news is asked.
-/

namespace Threads

open Failing

variable {ι σ α β ε : Type}

/-- A program that acts on the state in steps, between which others may act. -/
inductive Thread (σ α : Type) where
  | done (a : α)
  | act (write : σ → σ) (next : σ → Thread σ α)

namespace Thread

/-- The thread with nobody else: its result and the state it leaves. -/
def alone : Thread σ α → σ → α × σ
  | done a, s => (a, s)
  | act write next, s => (next s).alone (write s)

/-- A thread over a part of the state. -/
def zoom {τ : Type} (get : σ → τ) (set : τ → σ → σ) : Thread τ α → Thread σ α
  | done a => done a
  | act write next => act (fun s => set (write (get s)) s) fun s => zoom get set (next (get s))

/-- The result, if the thread is done. -/
def result? : Thread σ α → Option α
  | done a => some a
  | act _ _ => none

/-- One thread, then another that depends on its result. -/
def bind : Thread σ α → (α → Thread σ β) → Thread σ β
  | done a, k => k a
  | act write next, k => act write fun s => (next s).bind k

/-- One thread, then another unless it failed. -/
def andThen (t : Thread σ (Except ε α)) (k : α → Thread σ (Except ε β)) : Thread σ (Except ε β) :=
  t.bind fun r => match r with
    | .ok a => k a
    | .error e => done (.error e)

/-- A thread whose failures are wrapped. -/
def mapError {ε' : Type} (f : ε → ε') (t : Thread σ (Except ε α)) : Thread σ (Except ε' α) :=
  t.bind fun r => done (r.mapError f)

/-- One action that runs a program, which fails at statement `fault`. -/
def ofProg (x : Prog ε σ α) (fault : Option Nat) : Thread σ (Except ε α) :=
  act (fun s => (x.exec fault s).2) fun s => done (x.exec fault s).1

theorem result?_eq_some {t : Thread σ α} {a : α} : t.result? = some a ↔ t = .done a := by
  cases t <;> simp [result?]

theorem alone_zoom {τ : Type} {get : σ → τ} {set : τ → σ → σ} (hget : ∀ t s, get (set t s) = t)
    (hset : ∀ s, set (get s) s = s) (hset' : ∀ t t' s, set t (set t' s) = set t s) (t : Thread τ α) (s : σ) :
    (t.zoom get set).alone s = ((t.alone (get s)).1, set (t.alone (get s)).2 s) := by
  induction t generalizing s with
  | done a => simp only [zoom, alone, hset]
  | act write next ih => simp only [zoom, alone, ih, hget, hset']

end Thread

/-- The state, and what is left of every thread. -/
structure Pool (ι σ α : Type) where
  shared : σ
  threads : ι → Thread σ α

namespace Pool

variable [DecidableEq ι] {p : Pool ι σ α} {i j : ι} {schedule : List ι}

/-- The thread `i` acts, if it is not done. -/
def step (p : Pool ι σ α) (i : ι) : Pool ι σ α :=
  match p.threads i with
  | .done _ => p
  | .act write next => ⟨write p.shared, Function.update p.threads i (next p.shared)⟩

/-- The threads act in the order of the schedule. -/
def run (p : Pool ι σ α) (schedule : List ι) : Pool ι σ α := schedule.foldl step p

/-- The thread `i` has returned `a`. -/
def Returned (p : Pool ι σ α) (i : ι) (a : α) : Prop := p.threads i = .done a

@[simp] theorem run_nil : p.run [] = p := rfl

theorem run_append (schedule' : List ι) : p.run (schedule ++ schedule') = (p.run schedule).run schedule' :=
  List.foldl_append

theorem run_concat : p.run (schedule ++ [i]) = (p.run schedule).step i := run_append [i]

theorem step_done {a : α} (h : p.threads i = .done a) : p.step i = p := by
  simp only [step, h]

section Act

variable {write : σ → σ} {next : σ → Thread σ α}

theorem step_act_shared (h : p.threads i = .act write next) : (p.step i).shared = write p.shared := by
  simp only [step, h]

theorem step_act_self (h : p.threads i = .act write next) : (p.step i).threads i = next p.shared := by
  simp only [step, h, Function.update_self]

end Act

theorem step_threads_of_ne (h : j ≠ i) : (p.step i).threads j = p.threads j := by
  cases ht : p.threads i with
  | done a => rw [step_done ht]
  | act write next => simp only [step, ht, Function.update_of_ne h]

/-- A thread that does not act stays as it is. -/
theorem run_threads_of_notMem (h : j ∉ schedule) : (p.run schedule).threads j = p.threads j := by
  induction schedule using List.reverseRecOn with
  | nil => rfl
  | append_singleton schedule i ih =>
    rw [List.mem_append, List.mem_singleton, not_or] at h
    rw [run_concat, step_threads_of_ne h.2, ih h.1]

/-- A thread that has returned stays as it is. -/
theorem Returned.step {a : α} (h : p.Returned i a) (j : ι) : (p.step j).Returned i a := by
  by_cases hj : i = j
  · subst hj
    rw [step_done h]
    exact h
  · rw [Returned, step_threads_of_ne hj]
    exact h

theorem Returned.run {a : α} (h : p.Returned i a) (schedule : List ι) : (p.run schedule).Returned i a := by
  induction schedule using List.reverseRecOn with
  | nil => exact h
  | append_singleton schedule j ih =>
    rw [run_concat]
    exact ih.step j

end Pool

/-- What threads rely on and guarantee: an invariant of the shared state, and
how it may change. -/
structure Rely (σ : Type) where
  inv : σ → Prop
  rel : σ → σ → Prop
  refl (s : σ) : rel s s
  trans {s s' s'' : σ} : rel s s' → rel s' s'' → rel s s''

/-- A rely on a part of the state. -/
def Rely.comap {τ : Type} (get : σ → τ) (R : Rely τ) : Rely σ where
  inv s := R.inv (get s)
  rel s s' := R.rel (get s) (get s')
  refl s := R.refl (get s)
  trans h h' := R.trans h h'

/-- Whatever the others do within `R`, the thread keeps to `R` too; its result
is `News` in the state that its last action found, and `Q` from then on. -/
def Keeps (R : Rely σ) (News Q : α → σ → Prop) : Thread σ α → σ → Prop
  | .done a, s => ∀ s', R.rel s s' → R.inv s' → Q a s'
  | .act write next, s => ∀ s', R.rel s s' → R.inv s' →
    R.inv (write s') ∧ R.rel s' (write s') ∧ (∀ a, next s' = .done a → News a s') ∧
      Keeps R News Q (next s') (write s')

section Keeps

variable {R : Rely σ} {News Q : α → σ → Prop} {t : Thread σ α} {s s' : σ}

/-- What the others do within `R` does not matter. -/
theorem Keeps.rely (h : Keeps R News Q t s) (hr : R.rel s s') : Keeps R News Q t s' := by
  cases t with
  | done a => exact fun s'' hr' hi => h s'' (R.trans hr hr') hi
  | act write next => exact fun s'' hr' hi => h s'' (R.trans hr hr') hi

theorem Keeps.result {a : α} (h : Keeps R News Q (.done a) s) (hi : R.inv s) : Q a s := h s (R.refl s) hi

theorem Thread.zoom_eq_done {τ : Type} {get : σ → τ} {set : τ → σ → σ} {t : Thread τ α} {a : α} :
    t.zoom get set = .done a ↔ t = .done a := by
  cases t <;> simp [Thread.zoom]

/-- A thread over a part of the state keeps to a rely on that part. -/
theorem Keeps.zoom {τ : Type} {get : σ → τ} {set : τ → σ → σ} (hset : ∀ t s, get (set t s) = t) {R : Rely τ}
    {News Q : α → τ → Prop} {t : Thread τ α} {s : σ} (h : Keeps R News Q t (get s)) :
    Keeps (R.comap get) (fun a s => News a (get s)) (fun a s => Q a (get s)) (t.zoom get set) s := by
  induction t generalizing s with
  | done a => exact fun s' hr hi => h (get s') hr hi
  | act write next ih =>
    intro s' hr hi
    obtain ⟨hinv, hrel, hnews, hnext⟩ := h (get s') hr hi
    have hs := hset (write (get s')) s'
    refine ⟨?_, ?_, fun a ha => hnews a (Thread.zoom_eq_done.mp ha), ih (get s') ?_⟩
    · show R.inv (get (set (write (get s')) s'))
      rw [hs]
      exact hinv
    · show R.rel (get s') (get (set (write (get s')) s'))
      rw [hs]
      exact hrel
    · rw [hs]
      exact hnext

/-- A thread of which no news is asked. -/
abbrev KeepsTo (R : Rely σ) (Q : α → σ → Prop) (t : Thread σ α) (s : σ) : Prop := Keeps R (fun _ _ => True) Q t s

theorem KeepsTo.mono {R : Rely σ} {Q Q' : α → σ → Prop} {t : Thread σ α} {s : σ} (h : KeepsTo R Q t s)
    (hq : ∀ a s', R.rel s s' → R.inv s' → Q a s' → Q' a s') : KeepsTo R Q' t s := by
  induction t generalizing s with
  | done a => exact fun s' hr hi => hq a s' hr hi (h s' hr hi)
  | act write next ih =>
    intro s' hr hi
    obtain ⟨hinv, hrel, -, hnext⟩ := h s' hr hi
    exact ⟨hinv, hrel, fun _ _ => trivial, ih s' hnext fun a s'' hr' => hq a s'' (R.trans (R.trans hr hrel) hr')⟩

theorem KeepsTo.bind {R : Rely σ} {Q : α → σ → Prop} {Q' : β → σ → Prop} {t : Thread σ α} {k : α → Thread σ β} {s : σ}
    (h : KeepsTo R Q t s) (hi : R.inv s)
    (hk : ∀ a s', R.rel s s' → R.inv s' → (∀ s'', R.rel s' s'' → R.inv s'' → Q a s'') → KeepsTo R Q' (k a) s') :
    KeepsTo R Q' (t.bind k) s := by
  induction t generalizing s with
  | done a => exact hk a s (R.refl s) hi h
  | act write next ih =>
    intro s' hr hi'
    obtain ⟨hinv, hrel, -, hnext⟩ := h s' hr hi'
    exact ⟨hinv, hrel, fun _ _ => trivial, ih s' hnext hinv fun a s'' hr' => hk a s'' (R.trans (R.trans hr hrel) hr')⟩

/-- A thread over a part of the state that may write to it what the rely allows. -/
theorem KeepsTo.zoom {τ : Type} {get : σ → τ} {set : τ → σ → σ} (hset : ∀ t s, get (set t s) = t) {R : Rely σ}
    {R' : Rely τ} (hinv : ∀ s, R.inv s → R'.inv (get s)) (hrel : ∀ s s', R.rel s s' → R'.rel (get s) (get s'))
    (hwrite : ∀ s t, R.inv s → R'.inv t → R'.rel (get s) t → R.inv (set t s) ∧ R.rel s (set t s))
    {Q : α → τ → Prop} {t : Thread τ α} {s : σ} (h : KeepsTo R' Q t (get s)) :
    KeepsTo R (fun a s => Q a (get s)) (t.zoom get set) s := by
  induction t generalizing s with
  | done a => exact fun s' hr hi => h (get s') (hrel s s' hr) (hinv s' hi)
  | act write next ih =>
    intro s' hr hi
    obtain ⟨hi', hr', -, hnext⟩ := h (get s') (hrel s s' hr) (hinv s' hi)
    obtain ⟨hkept, hgrown⟩ := hwrite s' (write (get s')) hi hi' hr'
    refine ⟨hkept, hgrown, fun _ _ => trivial, ih (get s') ?_⟩
    rw [hset]
    exact hnext

/-- What is asked of a thread that may fail, where it does not. -/
def OnOk (Q : α → σ → Prop) (r : Except ε α) (s : σ) : Prop := ∀ a, r = .ok a → Q a s

section OnOk

variable {R : Rely σ} {Q : α → σ → Prop} {Q' : β → σ → Prop} {t : Thread σ (Except ε α)} {s : σ}

theorem KeepsTo.ok {a : α} (h : ∀ s', R.rel s s' → R.inv s' → Q a s') :
    KeepsTo R (OnOk Q) (.done (.ok a : Except ε α)) s := fun s' hr hi _ ha => Except.ok.inj ha ▸ h s' hr hi

theorem KeepsTo.error {e : ε} : KeepsTo R (OnOk Q) (.done (.error e)) s := nofun

/-- A thread is followed by another, which has what was asked of the first for as long as it runs. -/
theorem KeepsTo.andThen {k : α → Thread σ (Except ε β)} (h : KeepsTo R (OnOk Q) t s) (hi : R.inv s)
    (hk : ∀ a s', R.rel s s' → R.inv s' → (∀ s'', R.rel s' s'' → R.inv s'' → Q a s'') →
      KeepsTo R (OnOk Q') (k a) s') : KeepsTo R (OnOk Q') (t.andThen k) s := by
  refine h.bind hi fun r s' hr hi' hq => ?_
  cases r with
  | ok a => exact hk a s' hr hi' fun s'' hr' hi'' => hq s'' hr' hi'' a rfl
  | error e => exact .error

theorem KeepsTo.mapError {ε' : Type} {f : ε → ε'} (h : KeepsTo R (OnOk Q) t s) (hi : R.inv s) :
    KeepsTo R (OnOk Q) (t.mapError f) s := by
  refine h.bind hi fun r s' _ _ hq => ?_
  cases r with
  | ok a => exact .ok fun s'' hr hi' => hq s'' hr hi' a rfl
  | error e => exact .error

/-- A program that is one action. -/
theorem KeepsTo.ofProg {x : Prog ε σ α} {fault : Option Nat}
    (h : ∀ s', R.rel s s' → R.inv s' → WP x
      (fun a s'' => R.inv s'' ∧ R.rel s' s'' ∧ ∀ s₃, R.rel s'' s₃ → R.inv s₃ → Q a s₃)
      (fun _ s'' => R.inv s'' ∧ R.rel s' s'') s') :
    KeepsTo R (OnOk Q) (Thread.ofProg x fault) s := by
  intro s' hr hi
  rcases hx : x.exec fault s' with ⟨e | a, s''⟩
  · obtain ⟨hinv, hrel⟩ := (h s' hr hi).error hx
    simp only [hx]
    exact ⟨hinv, hrel, fun _ _ => trivial, KeepsTo.error⟩
  · obtain ⟨hinv, hrel, hq⟩ := (h s' hr hi).ok hx
    simp only [hx]
    exact ⟨hinv, hrel, fun _ _ => trivial, KeepsTo.ok hq⟩

/-- A program that changes nothing. -/
theorem KeepsTo.ofReads {x : Prog ε σ α} {fault : Option Nat} {Q : α → Prop}
    (h : ∀ s', WP x (fun a s'' => Q a ∧ s'' = s') (fun _ s'' => s'' = s') s') :
    KeepsTo R (OnOk fun a _ => Q a) (Thread.ofProg x fault) s := by
  refine KeepsTo.ofProg fun s' _ hi => (h s').mono (fun a s'' hq => ?_) fun _ s'' hs => ?_
  · obtain ⟨hq, rfl⟩ := hq
    exact ⟨hi, R.refl _, fun _ _ _ => hq⟩
  · rw [hs]
    exact ⟨hi, R.refl _⟩

end OnOk

end Keeps

section Pool

variable [DecidableEq ι] {R : Rely σ} {News Q : ι → α → σ → Prop} {p : Pool ι σ α}

/-- The invariant of a pool whose threads keep to `R`. -/
structure PoolKeeps (R : Rely σ) (News Q : ι → α → σ → Prop) (p : Pool ι σ α) : Prop where
  inv : R.inv p.shared
  threads (i : ι) : Keeps R (News i) (Q i) (p.threads i) p.shared

theorem PoolKeeps.step (h : PoolKeeps R News Q p) (i : ι) :
    PoolKeeps R News Q (p.step i) ∧ R.rel p.shared (p.step i).shared := by
  cases ht : p.threads i with
  | done a =>
    rw [Pool.step_done ht]
    exact ⟨h, R.refl _⟩
  | act write next =>
    have hk := h.threads i
    rw [ht] at hk
    obtain ⟨hinv, hrel, -, hnext⟩ := hk p.shared (R.refl _) h.inv
    rw [← Pool.step_act_shared ht] at hinv hrel hnext
    refine ⟨⟨hinv, fun j => ?_⟩, hrel⟩
    by_cases hj : j = i
    · subst hj
      rw [Pool.step_act_self ht]
      exact hnext
    · rw [Pool.step_threads_of_ne hj]
      exact (h.threads j).rely hrel

theorem run_keeps (h : PoolKeeps R News Q p) (schedule : List ι) :
    PoolKeeps R News Q (p.run schedule) ∧ R.rel p.shared (p.run schedule).shared := by
  induction schedule using List.reverseRecOn with
  | nil => exact ⟨h, R.refl _⟩
  | append_singleton schedule i ih =>
    obtain ⟨hs, hrel⟩ := ih.1.step i
    rw [Pool.run_concat]
    exact ⟨hs, R.trans ih.2 hrel⟩

omit [DecidableEq ι] in
theorem PoolKeeps.returned (h : PoolKeeps R News Q p) {i : ι} {a : α} (hr : p.Returned i a) : Q i a p.shared := by
  have hk := h.threads i
  rw [hr] at hk
  exact hk.result h.inv

/-- Two threads' results are distinct if one that is news and one that is there already are. -/
theorem run_distinct (Distinct : α → α → Prop) (h : PoolKeeps R News Q p) (hstart : ∀ i a, ¬ p.Returned i a)
    (hsymm : ∀ a b, Distinct a b → Distinct b a)
    (hd : ∀ i j a b s, R.inv s → Q i a s → News j b s → Distinct a b) (schedule : List ι) {i j : ι} {a b : α}
    (hij : i ≠ j) (hi : (p.run schedule).Returned i a) (hj : (p.run schedule).Returned j b) : Distinct a b := by
  induction schedule using List.reverseRecOn with
  | nil => exact absurd hi (hstart i a)
  | append_singleton schedule k ih =>
    have hpool := (run_keeps h schedule).1
    rw [Pool.run_concat] at hi hj
    -- what `k` returns now is news where the other one has returned
    have news : ∀ {i j a b}, i ≠ j → ¬ (p.run schedule).Returned j b → (p.run schedule).Returned i a →
        ((p.run schedule).step k).Returned j b → Distinct a b := by
      intro i j a b hij hnot h₁ h₂
      have hjk : j = k := by
        by_contra hjk
        rw [Pool.Returned, Pool.step_threads_of_ne hjk] at h₂
        exact hnot h₂
      rw [← hjk] at h₂
      refine hd i j a b _ hpool.inv (hpool.returned h₁) ?_
      cases ht : (p.run schedule).threads j with
      | done c =>
        rw [Pool.step_done ht] at h₂
        exact absurd h₂ hnot
      | act write next =>
        rw [Pool.Returned, Pool.step_act_self ht] at h₂
        have hk := hpool.threads j
        rw [ht] at hk
        exact (hk _ (R.refl _) hpool.inv).2.2.1 b h₂
    have other : ∀ {i j a b}, i ≠ j → ((p.run schedule).step k).Returned i a → ((p.run schedule).step k).Returned j b →
        ¬ (p.run schedule).Returned j b → (p.run schedule).Returned i a := by
      intro i j a b hij hi hj hnot
      by_cases hik : i = k
      · subst hik
        rw [Pool.Returned, Pool.step_threads_of_ne hij.symm] at hj
        exact absurd hj hnot
      · rwa [Pool.Returned, Pool.step_threads_of_ne hik] at hi
    by_cases hi' : (p.run schedule).Returned i a
    · by_cases hj' : (p.run schedule).Returned j b
      · exact ih hi' hj'
      · exact news hij hj' hi' hj
    · have hj' := other hij.symm hj hi hi'
      exact hsymm _ _ (news hij.symm hi' hj' hi)

end Pool

end Threads
