import Mathlib.Tactic.Common

/-!
# Programs that can fail at any statement

`Prog ε σ α` is a program over a state `σ` that returns an `α` or raises an
`ε`; what it wrote before it raised stays written. A `statement` is a point
where an exception can come from outside (an I/O error, an interrupt): a run
is given the number of statements that still succeed, and the next one
raises. `transaction` undoes what its body wrote when the body raises; where
every statement makes one change, those before the failure are what is left
(`exec_changes`).

`WP x Q E s` says that `x` started in `s` ends in `Q` when it returns and in
`E` when it raises, at whichever statement the failure comes. `Returns x s`
says that `x` returns where no statement fails.
-/

namespace Failing

variable {ε σ τ α β : Type}

/-- A state, and how many statements still succeed (`none`: all of them). -/
structure Run (σ : Type) where
  state : σ
  left : Option Nat

/-- A program whose statements may fail. -/
def Prog (ε σ α : Type) := Run σ → Except ε α × Run σ

namespace Prog

instance : Monad (Prog ε σ) where
  pure a := fun r => (.ok a, r)
  bind x f := fun r => match x r with
    | (.ok a, r') => f a r'
    | (.error e, r') => (.error e, r')

/-- A point where the exception `e` can come from outside. -/
def statement (e : ε) : Prog ε σ Unit := fun r =>
  match r.left with
  | none => (.ok (), r)
  | some 0 => (.error e, { r with left := none })
  | some (n + 1) => (.ok (), { r with left := some n })

/-- What the state says. -/
def read (f : σ → α) : Prog ε σ α := fun r => (.ok (f r.state), r)

/-- A change of the state. -/
def update (f : σ → σ) : Prog ε σ Unit := fun r => (.ok (), { r with state := f r.state })

/-- A computation that can raise and does not touch the state. -/
def lift (x : Except ε α) : Prog ε σ α := fun r => (x, r)

/-- `BEGIN … COMMIT`, with a rollback when `x` or the commit raises; what
comes after the commit can only raise. -/
def transaction (e : ε) (x : Prog ε σ α) : Prog ε σ α := do
  statement e
  let a ← fun r => match (do let a ← x; statement e; pure a : Prog ε σ α) r with
    | (.ok a, r') => (.ok a, r')
    | (.error e, r') => (.error e, { r' with state := r.state })
  statement e
  pure a

/-- A `transaction` in which nothing comes after the commit. -/
def transactionOnly (e : ε) (x : Prog ε σ α) : Prog ε σ α := do
  statement e
  fun r => match (do let a ← x; statement e; pure a : Prog ε σ α) r with
    | (.ok a, r') => (.ok a, r')
    | (.error e, r') => (.error e, { r' with state := r.state })

/-- A program over a part of the state. -/
def zoom (get : σ → τ) (set : τ → σ → σ) (x : Prog ε τ α) : Prog ε σ α := fun r =>
  ((x ⟨get r.state, r.left⟩).1,
    ⟨set (x ⟨get r.state, r.left⟩).2.state r.state, (x ⟨get r.state, r.left⟩).2.left⟩)

/-- A program whose exceptions are wrapped. -/
def mapError {ε' : Type} (f : ε → ε') (x : Prog ε σ α) : Prog ε' σ α := fun r =>
  ((x r).1.mapError f, (x r).2)

/-- Changes, one statement each. -/
def changes (e : ε) (us : List (σ → σ)) : Prog ε σ Unit := us.forM fun u => do
  statement e
  update u

/-- The outcome and the final state of a run that fails at statement `n`. -/
def exec (x : Prog ε σ α) (n : Option Nat) (s : σ) : Except ε α × σ :=
  ((x ⟨s, n⟩).1, (x ⟨s, n⟩).2.state)

/-! ### Equations -/

theorem bind_assoc {γ : Type} (x : Prog ε σ α) (f : α → Prog ε σ β) (g : β → Prog ε σ γ) :
    x >>= f >>= g = x >>= fun a => f a >>= g := by
  funext r
  simp only [Bind.bind]
  rcases x r with ⟨_ | a, r'⟩
  · rfl
  · rfl

theorem lawfulMonad : LawfulMonad (Prog ε σ) := by
  refine LawfulMonad.mk' _ (fun x => ?_) (fun _ _ => rfl) fun x f g => bind_assoc x f g
  funext r
  simp only [Functor.map]
  rcases x r with ⟨_ | _, _⟩ <;> rfl

theorem transaction_eq (e : ε) (x : Prog ε σ α) :
    transaction e x = transactionOnly e x >>= fun a => statement e >>= fun _ => pure a := by
  unfold transaction transactionOnly
  exact (bind_assoc _ _ _).symm

theorem zoom_bind_statement {get : σ → τ} {set : τ → σ → σ} (e : ε) (x : Prog ε τ α) :
    zoom get set (x >>= fun a => statement e >>= fun _ => pure a) =
      zoom get set x >>= fun a => statement e >>= fun _ => pure a := by
  funext r
  simp only [zoom, Bind.bind, Pure.pure, statement]
  rcases x ⟨get r.state, r.left⟩ with ⟨_ | a, s, left⟩
  · rfl
  · rcases left with _ | _ | n
    · rfl
    · rfl
    · rfl

theorem exec_read_bind (g : σ → α) (f : α → Prog ε σ β) (n : Option Nat) (s : σ) :
    (read g >>= f).exec n s = (f (g s)).exec n s := rfl

theorem exec_eq_ok {x : Prog ε σ α} {n : Option Nat} {s : σ} {a : α} (h : (x.exec n s).1 = .ok a) :
    x.exec n s = (.ok a, (x.exec n s).2) := Prod.ext h rfl

theorem exec_bind_ok {x : Prog ε σ α} {f : α → Prog ε σ β} {n n' : Option Nat} {s s' : σ} {a : α}
    (h : x ⟨s, n⟩ = (.ok a, ⟨s', n'⟩)) : (x >>= f).exec n s = (f a).exec n' s' := by
  simp only [exec, Bind.bind, h]

theorem exec_bind_error {x : Prog ε σ α} {f : α → Prog ε σ β} {n n' : Option Nat} {s s' : σ} {e : ε}
    (h : x ⟨s, n⟩ = (.error e, ⟨s', n'⟩)) : (x >>= f).exec n s = (.error e, s') := by
  simp only [exec, Bind.bind, h]

/-- Changes of which the failure comes after the last. -/
theorem changes_done (e : ε) (us : List (σ → σ)) {n : Option Nat} (s : σ) (h : ∀ k ∈ n, us.length ≤ k) :
    changes e us ⟨s, n⟩ = (.ok (), ⟨us.foldl (fun s u => u s) s, n.map (· - us.length)⟩) := by
  induction us generalizing n s with
  | nil => cases n <;> rfl
  | cons u us ih =>
    rcases n with _ | _ | n
    · exact ih (n := none) (u s) nofun
    · exact absurd (h 0 rfl) (by simp)
    · have hn : ∀ k ∈ some n, us.length ≤ k := by
        intro k hk
        obtain rfl := Option.mem_some.mp hk
        exact Nat.le_of_succ_le_succ (h (n + 1) rfl)
      show changes e us ⟨u s, some n⟩ = _
      rw [ih (u s) hn, Option.map_some, Option.map_some, List.length_cons, Nat.add_sub_add_right]
      rfl

/-- Changes that are stopped before the change `k`. -/
theorem changes_stopped (e : ε) (us : List (σ → σ)) {k : Nat} (s : σ) (h : k < us.length) :
    changes e us ⟨s, some k⟩ = (.error e, ⟨(us.take k).foldl (fun s u => u s) s, none⟩) := by
  induction us generalizing k s with
  | nil => exact absurd h (Nat.not_lt_zero k)
  | cons u us ih =>
    rcases k with _ | k
    · rfl
    · exact ih (u s) (Nat.lt_of_succ_lt_succ h)

/-- The changes before the statement that fails. -/
theorem exec_changes (e : ε) (us : List (σ → σ)) (n : Option Nat) (s : σ) :
    ((changes e us).exec n s).2 = (n.elim us us.take).foldl (fun s u => u s) s := by
  rw [exec]
  by_cases h : ∀ k ∈ n, us.length ≤ k
  · rw [changes_done e us s h]
    cases n with
    | none => rfl
    | some k => rw [Option.elim_some, List.take_of_length_le (h k rfl)]
  · obtain ⟨k, hk, hlt⟩ : ∃ k, n = some k ∧ k < us.length := by simpa using h
    rw [hk, changes_stopped e us s hlt, Option.elim_some]

end Prog

open Prog

/-- Started in `s`, wherever the failure comes: `Q` if `x` returns, `E` if it raises. -/
def WP (x : Prog ε σ α) (Q : α → σ → Prop) (E : ε → σ → Prop) (s : σ) : Prop :=
  ∀ n, match x ⟨s, n⟩ with
    | (.ok a, r) => Q a r.state
    | (.error e, r) => E e r.state

namespace WP

variable {x : Prog ε σ α} {f : α → Prog ε σ β} {Q Q' : α → σ → Prop} {R : β → σ → Prop}
  {E E' : ε → σ → Prop} {s : σ}

theorem ok (h : WP x Q E s) {n : Option Nat} {a : α} {s' : σ} (hx : x.exec n s = (.ok a, s')) :
    Q a s' := by
  have := h n
  simp only [exec, Prod.mk.injEq] at hx
  generalize x ⟨s, n⟩ = y at this hx
  obtain ⟨y, r⟩ := y
  obtain ⟨rfl, rfl⟩ := hx
  exact this

theorem error (h : WP x Q E s) {n : Option Nat} {e : ε} {s' : σ}
    (hx : x.exec n s = (.error e, s')) : E e s' := by
  have := h n
  simp only [exec, Prod.mk.injEq] at hx
  generalize x ⟨s, n⟩ = y at this hx
  obtain ⟨y, r⟩ := y
  obtain ⟨rfl, rfl⟩ := hx
  exact this

/-- However the run ends, it is the run that fails at one of the statements, or at none. -/
theorem run : WP x (fun a s' => ∃ n, x.exec n s = (.ok a, s')) (fun e s' => ∃ n, x.exec n s = (.error e, s')) s := by
  intro n
  rcases hx : x ⟨s, n⟩ with ⟨_ | _, r⟩
  · exact ⟨n, by rw [exec, hx]⟩
  · exact ⟨n, by rw [exec, hx]⟩

/-- What holds however the run ends holds of the state it ends in. -/
theorem state {I : σ → Prop} (h : WP x (fun _ => I) (fun _ => I) s) (n : Option Nat) :
    I (x.exec n s).2 := by
  rcases hx : x.exec n s with ⟨_ | _, s'⟩
  · exact h.error hx
  · exact h.ok hx

theorem mono (h : WP x Q E s) (hQ : ∀ a s, Q a s → Q' a s) (hE : ∀ e s, E e s → E' e s) :
    WP x Q' E' s := by
  intro n
  have := h n
  split at this
  · exact hQ _ _ this
  · exact hE _ _ this

theorem and (h : WP x Q E s) (h' : WP x Q' E' s) :
    WP x (fun a s => Q a s ∧ Q' a s) (fun e s => E e s ∧ E' e s) s := by
  intro n
  have h₁ := h n
  have h₂ := h' n
  split at h₁ <;> exact ⟨h₁, by simp_all⟩

theorem triv : WP x (fun _ _ => True) (fun _ _ => True) s := by
  intro n
  split <;> exact trivial

theorem pure {a : α} (h : Q a s) : WP (Pure.pure a) Q E s := fun _ => h

theorem bind (h : WP x (fun a => WP (f a) R E) E s) : WP (x >>= f) R E s := by
  intro n
  have := h n
  simp only [Bind.bind]
  generalize x ⟨s, n⟩ = y at this ⊢
  obtain ⟨_ | a, r⟩ := y
  · exact this
  · exact this r.left

theorem statement {e : ε} {Q : Unit → σ → Prop} (hE : E e s) (hQ : Q () s) :
    WP (statement e) Q E s := by
  intro n
  rcases n with _ | _ | n
  exacts [hQ, hE, hQ]

theorem read {g : σ → α} (h : Q (g s) s) : WP (read g) Q E s := fun _ => h

theorem update {g : σ → σ} {Q : Unit → σ → Prop} (h : Q () (g s)) : WP (update g) Q E s := fun _ => h

theorem lift {y : Except ε α} (hQ : ∀ a, y = .ok a → Q a s) (hE : ∀ e, y = .error e → E e s) :
    WP (lift y) Q E s := by
  intro n
  rcases y with e | a
  exacts [hE e rfl, hQ a rfl]

theorem lift_ok {a : α} (h : Q a s) : WP (Prog.lift (.ok a)) Q E s := fun _ => h

/-- A transaction that raises leaves the state as it was. -/
theorem transactionOnly {e : ε} (hs : ∀ e, E e s) (hx : WP x Q (fun _ _ => True) s) :
    WP (transactionOnly e x) Q E s := by
  refine bind (.statement (hs e) ?_)
  intro n
  have hx' : WP (do let a ← x; Prog.statement e; Pure.pure a) Q (fun _ _ => True) s :=
    bind (hx.mono (fun a s h => bind (.statement trivial (.pure h))) fun _ _ h => h)
  have := hx' n
  dsimp only
  generalize (do let a ← x; Prog.statement e; Pure.pure a : Prog ε σ α) ⟨s, n⟩ = y at this ⊢
  obtain ⟨_ | a, r⟩ := y
  · exact hs _
  · exact this

/-- One that raises after its commit has left it committed. -/
theorem transaction {e : ε} (hs : ∀ e, E e s)
    (hx : WP x (fun a s => Q a s ∧ E e s) (fun _ _ => True) s) : WP (transaction e x) Q E s := by
  rw [transaction_eq]
  exact bind ((transactionOnly hs hx).mono (fun _ _ h => bind (.statement h.2 (.pure h.1))) fun _ _ h => h)

theorem zoom {get : σ → τ} {set : τ → σ → σ} {x : Prog ε τ α}
    (h : WP x (fun a t => Q a (set t s)) (fun e t => E e (set t s)) (get s)) :
    WP (zoom get set x) Q E s := by
  intro n
  have := h n
  simp only [Prog.zoom]
  generalize x ⟨get s, n⟩ = y at this ⊢
  obtain ⟨_ | a, r⟩ := y
  · exact this
  · exact this

theorem mapError {ε' : Type} {f : ε → ε'} {E : ε' → σ → Prop} (h : WP x Q (fun e s => E (f e) s) s) :
    WP (mapError f x) Q E s := by
  intro n
  have := h n
  simp only [Prog.mapError]
  generalize x ⟨s, n⟩ = y at this ⊢
  obtain ⟨_ | a, r⟩ := y
  · exact this
  · exact this

/-- Changes are made in their order, up to one that is not made. -/
theorem changes {e : ε} {us : List (σ → σ)} :
    WP (changes e us) (fun _ s' => s' = us.foldl (fun s u => u s) s)
      (fun _ s' => ∃ k < us.length, s' = (us.take k).foldl (fun s u => u s) s) s := by
  intro n
  by_cases h : ∀ k ∈ n, us.length ≤ k
  · rw [changes_done e us s h]
  · obtain ⟨k, rfl, hk⟩ : ∃ k, n = some k ∧ k < us.length := by simpa using h
    rw [changes_stopped e us s hk]
    exact ⟨k, hk, rfl⟩

/-- A loop that carries a value: `I` of the rounds done so far and the value. -/
theorem foldlM {γ : Type} {g : α → γ → Prog ε σ α} {I : List γ → α → σ → Prop} {l : List γ} {a : α}
    (step : ∀ done c rest a s, l = done ++ c :: rest → I done a s → WP (g a c) (I (done ++ [c])) E s)
    (h : I [] a s) : WP (l.foldlM g a) (I l) E s := by
  have key : ∀ rest done a s, l = done ++ rest → I done a s → WP (rest.foldlM g a) (I l) E s := by
    intro rest
    induction rest with
    | nil =>
      intro done a s hl h
      rw [List.append_nil] at hl
      exact .pure (hl ▸ h)
    | cons c rest ih =>
      intro done a s hl h
      rw [List.foldlM_cons]
      refine bind ((step done c rest a s hl h).mono (fun a s h => ?_) fun _ _ h => h)
      exact ih _ a s (by simpa using hl) h
  exact key l [] a s rfl h

/-- A loop whose every round keeps `I`, along the rounds done so far. -/
theorem forM {γ : Type} {g : γ → Prog ε σ PUnit} {I : List γ → σ → Prop} {l : List γ}
    (step : ∀ done c rest, l = done ++ c :: rest → ∀ s, I done s → WP (g c) (fun _ => I (done ++ [c])) E s)
    (h : I [] s) : WP (l.forM g) (fun _ => I l) E s := by
  have key : ∀ rest done s, l = done ++ rest → I done s → WP (rest.forM g) (fun _ => I l) E s := by
    intro rest
    induction rest with
    | nil =>
      intro done s hl h
      rw [List.append_nil] at hl
      exact .pure (hl ▸ h)
    | cons c rest ih =>
      intro done s hl h
      refine bind (f := fun _ => rest.forM g) ((step done c rest hl s h).mono (fun _ s h => ?_) fun _ _ h => h)
      exact ih _ s (by simpa using hl) h
  exact key l [] s rfl h

end WP

/-- Where no statement fails, `x` returns. -/
def Returns (x : Prog ε σ α) (s : σ) : Prop := ∃ a r, x ⟨s, none⟩ = (.ok a, r) ∧ r.left = none

namespace Returns

variable {x : Prog ε σ α} {f : α → Prog ε σ β} {s : σ}

theorem exec (h : Returns x s) : ∃ a s', x.exec none s = (.ok a, s') := by
  obtain ⟨a, r, h, -⟩ := h
  exact ⟨a, r.state, by rw [Prog.exec, h]⟩

theorem pure (a : α) : Returns (Pure.pure a : Prog ε σ α) s := ⟨a, _, rfl, rfl⟩

/-- What comes next is looked at in the state that `x` leaves. -/
theorem bind (hx : Returns x s) (h : ∀ a s', x.exec none s = (.ok a, s') → Returns (f a) s') : Returns (x >>= f) s := by
  obtain ⟨a, r, hx, hr⟩ := hx
  obtain ⟨b, r', hf, hr'⟩ := h a r.state (by rw [Prog.exec, hx])
  refine ⟨b, r', ?_, hr'⟩
  obtain ⟨s', left⟩ := r
  subst hr
  simp only [Bind.bind, hx]
  exact hf

theorem statement (e : ε) : Returns (statement e) s := ⟨(), _, rfl, rfl⟩

theorem update (g : σ → σ) : Returns (update g : Prog ε σ Unit) s := ⟨(), _, rfl, rfl⟩

theorem statement_bind {e : ε} {f : Unit → Prog ε σ β} (h : Returns (f ()) s) : Returns (Prog.statement e >>= f) s := h

theorem read_bind {g : σ → α} (h : Returns (f (g s)) s) : Returns (read g >>= f) s := h

theorem update_bind {g : σ → σ} {f : Unit → Prog ε σ β} (h : Returns (f ()) (g s)) :
    Returns (Prog.update g >>= f) s := h

theorem lift_bind {y : Except ε α} {a : α} (hy : y = .ok a) (h : Returns (f a) s) : Returns (lift y >>= f) s := hy ▸ h

theorem zoom {get : σ → τ} {set : τ → σ → σ} {x : Prog ε τ α} (h : Returns x (get s)) :
    Returns (zoom get set x) s := by
  obtain ⟨a, r, hx, hr⟩ := h
  exact ⟨a, _, by rw [Prog.zoom, hx], hr⟩

theorem mapError {ε' : Type} {f : ε → ε'} (h : Returns x s) : Returns (mapError f x) s := by
  obtain ⟨a, r, hx, hr⟩ := h
  exact ⟨a, r, by simp only [Prog.mapError, hx, Except.mapError], hr⟩

theorem transactionOnly {e : ε} (h : Returns x s) : Returns (transactionOnly e x) s := by
  obtain ⟨a, r, hx, hr⟩ := h
  obtain ⟨s', left⟩ := r
  subst hr
  refine ⟨a, ⟨s', none⟩, ?_, rfl⟩
  simp only [Prog.transactionOnly, Prog.statement, Bind.bind, hx]
  rfl

/-- A loop whose every round returns, in whichever state. -/
theorem foldlM {γ : Type} {g : α → γ → Prog ε σ α} (step : ∀ a c s, Returns (g a c) s) (l : List γ) (a : α) (s : σ) :
    Returns (l.foldlM g a) s := by
  induction l generalizing a s with
  | nil => exact .pure a
  | cons c l ih => exact bind (step a c s) fun a s' _ => ih a s'

theorem forM {γ : Type} {g : γ → Prog ε σ PUnit} (step : ∀ c s, Returns (g c) s) (l : List γ) (s : σ) :
    Returns (l.forM g) s := by
  induction l generalizing s with
  | nil => exact .pure PUnit.unit
  | cons c l ih => exact bind (step c s) fun _ s' _ => ih s'

end Returns

end Failing
