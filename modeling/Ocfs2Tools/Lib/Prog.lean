import Mathlib

/-!
# Programs with state, error codes and assertions

`Prog σ ε α` is what a C function with an error return is here: it runs on a
state, and either an assertion fails (`none`) or it ends with a value or an error
code *and* the state it leaves behind. An error does not undo anything.

The run lemmas step through a `do` block from left to right. `Keeps` is the
invariant rule: a program keeps a predicate of the state if every end of it does,
whatever it returns.
-/

namespace Ocfs2Tools

/-- A program over states `σ` with error codes `ε`. -/
def Prog (σ ε α : Type) : Type := σ → Option (Except ε α × σ)

namespace Prog

variable {σ ε α β γ : Type} {b : Bool} {n n' : Nat}

protected def pure (a : α) : Prog σ ε α := fun s => some (.ok a, s)

protected def bind (m : Prog σ ε α) (f : α → Prog σ ε β) : Prog σ ε β := fun s =>
  match m s with
  | none => none
  | some (.error e, t) => some (.error e, t)
  | some (.ok a, t) => f a t

instance : Monad (Prog σ ε) where
  pure := Prog.pure
  bind := Prog.bind

/-- `return e`, with `e` an error code. -/
def fail (e : ε) : Prog σ ε α := fun s => some (.error e, s)

/-- The program never returns. -/
def abort : Prog σ ε α := fun _ => none

/-- `assert(b)`. -/
def check (b : Bool) : Prog σ ε Unit := fun s => if b then some (.ok (), s) else none

def get : Prog σ ε σ := fun s => some (.ok s, s)

def modify (f : σ → σ) : Prog σ ε Unit := fun s => some (.ok (), f s)

/-- Run `m` and hand its error code to the caller as a value. -/
def attempt (m : Prog σ ε α) : Prog σ ε (Except ε α) := fun s =>
  match m s with
  | none => none
  | some (r, t) => some (.ok r, t)

/-- Return a result that was taken apart by `attempt`. -/
def ofExcept : Except ε α → Prog σ ε α
  | .ok a => Prog.pure a
  | .error e => fail e

/-! ### Running -/

@[simp] theorem pure_run (a : α) (s : σ) : (pure a : Prog σ ε α) s = some (.ok a, s) := rfl

@[simp] theorem fail_run (e : ε) (s : σ) : (fail e : Prog σ ε α) s = some (.error e, s) := rfl

@[simp] theorem abort_run (s : σ) : (abort : Prog σ ε α) s = none := rfl

@[simp] theorem get_run (s : σ) : (get : Prog σ ε σ) s = some (.ok s, s) := rfl

@[simp] theorem modify_run (f : σ → σ) (s : σ) :
    (modify f : Prog σ ε Unit) s = some (.ok (), f s) := rfl

@[simp] theorem check_run_true (s : σ) : (check true : Prog σ ε Unit) s = some (.ok (), s) := rfl

@[simp] theorem check_run_false (s : σ) : (check false : Prog σ ε Unit) s = none := rfl

theorem bind_run (m : Prog σ ε α) (f : α → Prog σ ε β) (s : σ) : (m >>= f) s = match m s with
      | none => none
      | some (.error e, t) => some (.error e, t)
      | some (.ok a, t) => f a t := rfl

variable {m : Prog σ ε α} {s t : σ}

theorem bind_ok {a : α} (h : m s = some (.ok a, t)) (f : α → Prog σ ε β) : (m >>= f) s = f a t := by
  rw [bind_run, h]

theorem bind_error {e : ε} (h : m s = some (.error e, t)) (f : α → Prog σ ε β) :
    (m >>= f) s = some (.error e, t) := by
  rw [bind_run, h]

theorem bind_abort (h : m s = none) (f : α → Prog σ ε β) : (m >>= f) s = none := by
  rw [bind_run, h]

theorem bind_bind (m : Prog σ ε α) (f : α → Prog σ ε β) (g : β → Prog σ ε γ) :
    (m >>= f) >>= g = m >>= fun a => f a >>= g := by
  funext s
  rw [bind_run, bind_run, bind_run]
  cases m s with
  | none => rfl
  | some p =>
    obtain ⟨r, t⟩ := p
    cases r with
    | error e => rfl
    | ok a => exact (bind_run (f a) g t).symm

theorem check_ok (h : b = true) (s : σ) : (check b : Prog σ ε Unit) s = some (.ok (), s) := by
  rw [h, check_run_true]

theorem attempt_run {r : Except ε α} (h : m s = some (r, t)) : attempt m s = some (.ok r, t) := by
  simp only [attempt, h]

/-! ### Taking a run apart -/

variable {f : α → Prog σ ε β}

theorem bind_cases {r : Except ε β} (h : (m >>= f) s = some (r, t)) :
    (∃ e, m s = some (.error e, t) ∧ r = .error e) ∨
      ∃ a u, m s = some (.ok a, u) ∧ f a u = some (r, t) := by
  rw [bind_run] at h
  split at h
  · cases h
  · next e u hu =>
    cases h
    exact .inl ⟨e, hu, rfl⟩
  · next a u hu => exact .inr ⟨a, u, hu, h⟩

theorem bind_eq_ok {b : β} (h : (m >>= f) s = some (.ok b, t)) :
    ∃ a u, m s = some (.ok a, u) ∧ f a u = some (.ok b, t) := by
  rcases bind_cases h with ⟨e, -, he⟩ | h
  · cases he
  · exact h

theorem check_inv {r : Except ε Unit} (h : (check b : Prog σ ε Unit) s = some (r, t)) :
    b = true ∧ t = s := by
  cases b with
  | true =>
    simp only [check_run_true, Option.some.injEq, Prod.mk.injEq] at h
    exact ⟨rfl, h.2.symm⟩
  | false => simp at h

theorem attempt_eq {r : Except ε (Except ε α)} (h : attempt m s = some (r, t)) :
    ∃ r', r = .ok r' ∧ m s = some (r', t) := by
  simp only [attempt] at h
  split at h
  · cases h
  · rename_i r' u hu
    simp only [Option.some.injEq, Prod.mk.injEq] at h
    exact ⟨r', h.1.symm, h.2 ▸ hu⟩

/-- The run from `s` returns without an error. -/
def returns (m : Prog σ ε α) (s : σ) : Bool :=
  match m s with
  | some (.ok _, _) => true
  | _ => false

theorem returns_true (h : returns m s = true) : ∃ a t, m s = some (.ok a, t) := by
  unfold returns at h
  split at h
  · rename_i a t ht
    exact ⟨a, t, ht⟩
  · cases h

/-! ### Keeping an invariant -/

/-- Every way `m` ends in from a state with `I` leads to a state with `I`. -/
def Keeps (I : σ → Prop) (m : Prog σ ε α) : Prop :=
  ∀ s r t, I s → m s = some (r, t) → I t

variable {I : σ → Prop}

theorem keeps_pure (a : α) : Keeps I (pure a : Prog σ ε α) := by
  intro s r t hs h
  simp only [pure_run, Option.some.injEq, Prod.mk.injEq] at h
  exact h.2 ▸ hs

theorem keeps_fail (e : ε) : Keeps I (fail e : Prog σ ε α) := by
  intro s r t hs h
  simp only [fail_run, Option.some.injEq, Prod.mk.injEq] at h
  exact h.2 ▸ hs

theorem keeps_abort : Keeps I (abort : Prog σ ε α) := by
  intro s r t _ h
  cases h

theorem keeps_ite {c : Prop} [Decidable c] (h : Keeps I m) (h' : Keeps I m') :
    Keeps I (if c then m else m') := by
  split
  · exact h
  · exact h'

theorem keeps_check (b : Bool) : Keeps I (check b : Prog σ ε Unit) := by
  intro s r t hs h
  cases b with
  | true =>
    simp only [check_run_true, Option.some.injEq, Prod.mk.injEq] at h
    exact h.2 ▸ hs
  | false => simp at h

theorem keeps_bind (hm : Keeps I m) (hf : ∀ a, Keeps I (f a)) : Keeps I (m >>= f) := by
  intro s r t hs h
  rcases bind_cases h with ⟨e, hu, -⟩ | ⟨a, u, hu, h⟩
  · exact hm s _ t hs hu
  · exact hf a u r t (hm s _ u hs hu) h

end Prog

end Ocfs2Tools
