import Mathlib

/-!
# Programs that call a shared store

A program is a tree of calls: it is done with a result, it has failed with an
error, or it makes one call and goes on with the answer. The calls are the
points at which a program can be observed, interrupted or interleaved with
another one; what happens between two calls is pure.
-/

/-- A program that makes calls `op`, gets answers of `Res op`, and ends with an `α` or an error. -/
inductive Program (Op : Type) (Res : Op → Type) (ε α : Type) where
  | done (a : α)
  | fail (e : ε)
  | call (op : Op) (next : Res op → Program Op Res ε α)

namespace Program

variable {Op : Type} {Res : Op → Type} {ε α β γ σ : Type}

/-- Run a program, and then another one on its result. -/
protected def bind : Program Op Res ε α → (α → Program Op Res ε β) → Program Op Res ε β
  | done a, f => f a
  | fail e, _ => fail e
  | call op next, f => call op fun r => (next r).bind f

instance : Monad (Program Op Res ε) where
  pure := done
  bind := Program.bind

/-- The program of a result that is already known. -/
def ofExcept : Except ε α → Program Op Res ε α
  | .ok a => done a
  | .error e => fail e

/-- Run a program and return how it ended. -/
def attempt : Program Op Res ε α → Program Op Res ε (Except ε α)
  | done a => done (.ok a)
  | fail e => done (.error e)
  | call op next => call op fun r => (next r).attempt

/-- Make one call and return its answer. -/
def perform (op : Op) : Program Op Res ε (Res op) := call op done

variable (act : (op : Op) → σ → Res op × σ)

/-- Run a program by itself, on a store that answers the calls by `act`. -/
def run : Program Op Res ε α → σ → Except ε α × σ
  | done a, s => (.ok a, s)
  | fail e, s => (.error e, s)
  | call op next, s => run (next (act op s).1) (act op s).2

/-- What is left of a program, and the store, after `n` calls. -/
def advance : Nat → Program Op Res ε α → σ → Program Op Res ε α × σ
  | n + 1, call op next, s => advance n (next (act op s).1) (act op s).2
  | _, p, s => (p, s)

/-! ## Running by itself -/

variable {act}

variable (a : α) (r : Except ε α) {p : Program Op Res ε α}

@[simp] theorem run_pure (s : σ) : run act (pure a : Program Op Res ε α) s = (.ok a, s) := rfl

@[simp] theorem run_done (s : σ) : run act (done a : Program Op Res ε α) s = (.ok a, s) := rfl

@[simp] theorem run_fail (e : ε) (s : σ) :
    run act (fail e : Program Op Res ε α) s = (.error e, s) := rfl

@[simp] theorem run_perform (op : Op) (s : σ) :
    run act (perform op : Program Op Res ε (Res op)) s = (.ok (act op s).1, (act op s).2) := rfl

@[simp] theorem run_ofExcept (s : σ) : run act (ofExcept r : Program Op Res ε α) s = (r, s) := by
  cases r <;> rfl

theorem bind_bind (p : Program Op Res ε α) (f : α → Program Op Res ε β)
    (g : β → Program Op Res ε γ) : (p >>= f) >>= g = p >>= fun a => f a >>= g := by
  induction p with
  | done a => rfl
  | fail e => rfl
  | call op next ih => exact congrArg (call op) (funext ih)

theorem run_bind (p : Program Op Res ε α) (f : α → Program Op Res ε β) (s : σ) :
    run act (p >>= f) s =
      match run act p s with
      | (.ok a, s') => run act (f a) s'
      | (.error e, s') => (.error e, s') := by
  induction p generalizing s with
  | done a => rfl
  | fail e => rfl
  | call op next ih => exact ih _ _

theorem run_bind_ok {s s' : σ} {a : α} (h : run act p s = (.ok a, s')) (f : α → Program Op Res ε β)
    : run act (p >>= f) s = run act (f a) s' := by
  rw [run_bind, h]

/-- A program that fails takes the rest with it. -/
theorem run_bind_error {s s' : σ} {e : ε} (h : run act p s = (.error e, s'))
    (f : α → Program Op Res ε β) : run act (p >>= f) s = (.error e, s') := by
  rw [run_bind, h]

@[simp] theorem run_perform_bind (op : Op) (f : Res op → Program Op Res ε β) (s : σ) :
    run act (perform op >>= f) s = run act (f (act op s).1) (act op s).2 := rfl

@[simp] theorem run_ofExcept_bind (f : α → Program Op Res ε β) (s : σ) :
    run act (ofExcept r >>= f) s =
      match r with
      | .ok a => run act (f a) s
      | .error e => (.error e, s) := by
  cases r <;> rfl

@[simp] theorem run_attempt (p : Program Op Res ε α) (s : σ) :
    run act p.attempt s = (.ok (run act p s).1, (run act p s).2) := by
  induction p generalizing s with
  | done a => rfl
  | fail e => rfl
  | call op next ih => exact ih _ _

/-! ## Interrupted runs -/

theorem advance_zero (p : Program Op Res ε α) (s : σ) : advance act 0 p s = (p, s) := by
  cases p <;> rfl

/-! ## The calls of a program -/

/-- With answers of `A`, a program makes calls of `P` only, and its result, if any, is one of
    `Q`. -/
def Meets (A : (op : Op) → Res op → Prop) (P : Op → Prop) (Q : α → Prop) :
    Program Op Res ε α → Prop
  | done a => Q a
  | fail _ => True
  | call op next => P op ∧ ∀ r, A op r → (next r).Meets A P Q

/-- Every call that a program can make is one of `P`. -/
abbrev Calls (P : Op → Prop) (p : Program Op Res ε α) : Prop :=
  p.Meets (fun _ _ => True) P fun _ => True

section Meets

variable {A : (op : Op) → Res op → Prop} {P : Op → Prop} {Q : α → Prop} {R : β → Prop}

theorem meets_ofExcept (h : ∀ a, r = .ok a → Q a) :
    (ofExcept r : Program Op Res ε α).Meets A P Q := by
  cases r with
  | ok a => exact h a rfl
  | error e => trivial

theorem meets_perform {op : Op} {Q : Res op → Prop} (hop : P op) (h : ∀ r, A op r → Q r) :
    (perform op : Program Op Res ε (Res op)).Meets A P Q := ⟨hop, h⟩

theorem Meets.calls {P' : Op → Prop} (hp : p.Meets A P Q) (hA : ∀ op r, A op r)
    (hP : ∀ op, P op → P' op) : p.Calls P' := by
  induction p with
  | done a | fail e => trivial
  | call op next ih => exact ⟨hP op hp.1, fun r _ => ih r (hp.2 r (hA op r))⟩

theorem Meets.bind {f : α → Program Op Res ε β} (hp : p.Meets A P Q)
    (hf : ∀ a, Q a → (f a).Meets A P R) : (p >>= f).Meets A P R := by
  induction p with
  | done a => exact hf a hp
  | fail e => trivial
  | call op next ih => exact ⟨hp.1, fun r hr => ih r (hp.2 r hr)⟩

theorem Meets.attempt (hp : p.Meets A P Q) :
    p.attempt.Meets A P fun r => ∀ a, r = .ok a → Q a := by
  induction p with
  | done a => exact fun _ h => Except.ok.inj h ▸ hp
  | fail e => exact nofun
  | call op next ih => exact ⟨hp.1, fun r hr => ih r (hp.2 r hr)⟩

/-- A run keeps what the calls of `P` keep, and its result is one of `Q`. -/
theorem Meets.run {I : σ → Prop} (hA : ∀ op s, I s → A op (act op s).1)
    (hI : ∀ op s, P op → I s → I (act op s).2) (hp : p.Meets A P Q) {s : σ} (hs : I s) :
    I (run act p s).2 ∧ ∀ a, (run act p s).1 = .ok a → Q a := by
  induction p generalizing s with
  | done a => exact ⟨hs, fun _ h => Except.ok.inj h ▸ hp⟩
  | fail e => exact ⟨hs, nofun⟩
  | call op next ih => exact ih _ (hp.2 _ (hA op s hs)) (hI op s hp.1 hs)

end Meets

section Along

variable {P : Op → Prop} {R : σ → σ → Prop} (hrefl : ∀ s, R s s)
  (htrans : ∀ {a b c}, R a b → R b c → R a c) (hact : ∀ op s, P op → R s (act op s).2)
include hrefl htrans hact

theorem Calls.run_rel {p : Program Op Res ε α} (hp : p.Calls P) (s : σ) : R s (run act p s).2 := by
  induction p generalizing s with
  | done a | fail e => exact hrefl s
  | call op next ih => exact htrans (hact op s hp.1) (ih _ (hp.2 _ trivial) _)

/-- An interrupted run has done what its calls do, and the rest of it still has it to do. -/
theorem Calls.advance_rel {p : Program Op Res ε α} (hp : p.Calls P) (n : Nat) (s : σ) :
    R s (Program.advance act n p s).2 ∧ R (Program.advance act n p s).2 (run act p s).2 := by
  induction n generalizing p s with
  | zero =>
    rw [advance_zero]
    exact ⟨hrefl s, hp.run_rel hrefl htrans hact s⟩
  | succ n ih =>
    cases p with
    | done a | fail e => exact ⟨hrefl s, hrefl s⟩
    | call op next => exact (ih (hp.2 _ trivial) _).imp_left (htrans (hact op s hp.1))

end Along

section Agree

variable {act' : (op : Op) → σ → Res op × σ} {P : Op → Prop} {I : σ → Prop}
  (hback : ∀ op s, P op → I (act op s).2 → I s)
  (hagree : ∀ op s, P op → I (act op s).2 → act' op s = act op s)
include hback hagree

/-- Stores that answer alike while `I` holds run a program alike, if `I` holds at its end. -/
theorem Calls.run_congr {p : Program Op Res ε α} (hp : p.Calls P) {s : σ}
    (h : I (run act p s).2) : run act' p s = run act p s := by
  induction p generalizing s with
  | done a | fail e => rfl
  | call op next ih =>
    have hnext : (next (act op s).1).Calls P := hp.2 _ trivial
    have hafter : I (act op s).2 := hnext.run_rel (R := fun s s' => I s' → I s) (fun _ => id)
      (fun hab hbc => hab ∘ hbc) hback _ h
    rw [run, hagree op s hp.1 hafter]
    exact ih _ hnext h

theorem Calls.advance_congr {p : Program Op Res ε α} (hp : p.Calls P) (n : Nat) {s : σ}
    (h : I (Program.advance act n p s).2) :
    Program.advance act' n p s = Program.advance act n p s := by
  induction n generalizing p s with
  | zero => rw [advance_zero, advance_zero]
  | succ n ih =>
    cases p with
    | done a | fail e => rfl
    | call op next =>
      have hnext : (next (act op s).1).Calls P := hp.2 _ trivial
      have hafter : I (act op s).2 := (hnext.advance_rel (R := fun s s' => I s' → I s)
        (fun _ => id) (fun hab hbc => hab ∘ hbc) hback n _).1 h
      rw [advance, hagree op s hp.1 hafter]
      exact ih hnext h

end Agree

/-! ## What holds throughout a run -/

section Always

/-- `I` holds throughout a run, and `Q` of its result and the store at its end. -/
def Always (act : (op : Op) → σ → Res op × σ) (I : σ → Prop) (Q : Except ε α → σ → Prop) :
    Program Op Res ε α → σ → Prop
  | done a, s => I s ∧ Q (.ok a) s
  | fail e, s => I s ∧ Q (.error e) s
  | call op next, s => I s ∧ Always act I Q (next (act op s).1) (act op s).2

variable {I : σ → Prop} {Q Q' : Except ε α → σ → Prop} {p : Program Op Res ε α} {s : σ}

section

variable (h : Always act I Q p s)
include h

theorem Always.start : I s := by
  cases p with
  | done a | fail e | call op next => exact h.1

theorem Always.run : Q (run act p s).1 (run act p s).2 := by
  induction p generalizing s with
  | done a | fail e => exact h.2
  | call op next ih => exact ih _ h.2

theorem Always.advance (n : Nat) : I (Program.advance act n p s).2 := by
  induction n generalizing p s with
  | zero =>
    rw [advance_zero]
    exact h.start
  | succ n ih =>
    cases p with
    | done a | fail e => exact h.1
    | call op next => exact ih h.2

theorem Always.mono (hQ : ∀ r s, I s → Q r s → Q' r s) : Always act I Q' p s := by
  induction p generalizing s with
  | done a | fail e => exact ⟨h.1, hQ _ _ h.1 h.2⟩
  | call op next ih => exact ⟨h.1, ih _ h.2⟩

theorem Always.bind {R : Except ε β → σ → Prop} {f : α → Program Op Res ε β}
    (hok : ∀ a s, I s → Q (.ok a) s → Always act I R (f a) s)
    (herror : ∀ e s, I s → Q (.error e) s → R (.error e) s) : Always act I R (p >>= f) s := by
  induction p generalizing s with
  | done a => exact hok a s h.1 h.2
  | fail e => exact ⟨h.1, herror e s h.1 h.2⟩
  | call op next ih => exact ⟨h.1, ih _ h.2⟩

theorem Always.attempt {R : Except ε (Except ε α) → σ → Prop} (hR : ∀ r s, Q r s → R (.ok r) s) :
    Always act I R p.attempt s := by
  induction p generalizing s with
  | done a | fail e => exact ⟨h.1, hR _ _ h.2⟩
  | call op next ih => exact ⟨h.1, ih _ h.2⟩

end

theorem always_ofExcept {r : Except ε α} (hI : I s) (hQ : Q r s) :
    Always act I Q (ofExcept r) s := by
  cases r <;> exact ⟨hI, hQ⟩

theorem Calls.always {P : Op → Prop} (hp : p.Calls P) (hact : ∀ op, P op → (act op s).2 = s)
    (hI : I s) : Always act I (fun _ s' => s' = s) p s := by
  induction p with
  | done a | fail e => exact ⟨hI, rfl⟩
  | call op next ih =>
    refine ⟨hI, ?_⟩
    rw [hact op hp.1]
    exact ih _ (hp.2 _ trivial)

end Always

end Program
