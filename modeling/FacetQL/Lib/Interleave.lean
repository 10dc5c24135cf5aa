import FacetQL.Lib.Program

/-!
# Programs that run at the same time

A pool of threads over one store. Each thread is a program; a step is the next call of one of them,
so that a program is interleaved with the others between any two of its calls. What a call makes of
the store may depend on a choice that nobody controls, such as the time.
-/

/-- Threads and their store. -/
structure Pool (ι Op : Type) (Res : Op → Type) (ε α σ : Type) where
  threads : ι → Program Op Res ε α
  store : σ

namespace Pool

variable {ι Op : Type} {Res : Op → Type} {ε α σ κ : Type} [DecidableEq ι]
  (act : κ → (op : Op) → σ → Res op × σ)

/-- The pool after a call of a thread: the thread goes on with the answer. -/
def after (p : Pool ι Op Res ε α σ) (i : ι) (op : Op) (next : Res op → Program Op Res ε α)
    (choice : κ) : Pool ι Op Res ε α σ :=
  ⟨Function.update p.threads i (next (act choice op p.store).1), (act choice op p.store).2⟩

/-- A thread makes its next call. -/
inductive Step (i : ι) (p : Pool ι Op Res ε α σ) : Pool ι Op Res ε α σ → Prop
  | call {op : Op} {next : Res op → Program Op Res ε α} (hcall : p.threads i = .call op next)
      (choice : κ) : Step i p (p.after act i op next choice)

/-- Steps of any threads, each of which meets a condition. -/
def Steps (C : ι → Pool ι Op Res ε α σ → Pool ι Op Res ε α σ → Prop) :
    Pool ι Op Res ε α σ → Pool ι Op Res ε α σ → Prop :=
  Relation.ReflTransGen fun p q => ∃ i, Step act i p q ∧ C i p q

variable {act} {i : ι} {p q : Pool ι Op Res ε α σ}
  {C : ι → Pool ι Op Res ε α σ → Pool ι Op Res ε α σ → Prop}

/-- A step is a call of its own thread. -/
theorem Step.threads_of_ne (h : Step act i p q) {j : ι} (hj : j ≠ i) :
    q.threads j = p.threads j := by
  cases h with
  | call _ choice => exact Function.update_of_ne hj _ _

theorem Step.exists_after (h : Step act i p q) {op : Op} {next : Res op → Program Op Res ε α}
    (hcall : p.threads i = .call op next) : ∃ choice, q = p.after act i op next choice := by
  cases h with
  | call hcall' choice =>
    obtain ⟨rfl, hnext⟩ := Program.call.inj (hcall.symm.trans hcall')
    exact ⟨choice, by rw [eq_of_heq hnext]⟩

/-- A thread that has ended makes no step. -/
theorem Step.ne_done (h : Step act i p q) (a : α) : p.threads i ≠ .done a := by
  cases h with
  | call hcall choice =>
    rw [hcall]
    simp

@[simp] theorem threads_after (p : Pool ι Op Res ε α σ) (i : ι) (op : Op)
    (next : Res op → Program Op Res ε α) (choice : κ) :
    (p.after act i op next choice).threads i = next (act choice op p.store).1 :=
  Function.update_self ..

@[simp] theorem store_after (p : Pool ι Op Res ε α σ) (i : ι) (op : Op)
    (next : Res op → Program Op Res ε α) (choice : κ) :
    (p.after act i op next choice).store = (act choice op p.store).2 := rfl

/-- What every step keeps holds of every run. -/
theorem Steps.invariant {I : Pool ι Op Res ε α σ → Prop} (h : Steps act C p q) (hp : I p)
    (hstep : ∀ i p q, I p → Step act i p q → C i p q → I q) : I q := by
  induction h with
  | refl => exact hp
  | tail _ hlast ih =>
    obtain ⟨i, hcall, hC⟩ := hlast
    exact hstep i _ _ ih hcall hC

/-- What a thread's calls establish and others' calls keep holds of every thread in every run. -/
theorem Steps.assertions {A : ι → Program Op Res ε α → σ → Prop} (h : Steps act C p q)
    (hp : ∀ j, A j (p.threads j) p.store)
    (hown : ∀ i p q, (∀ j, A j (p.threads j) p.store) → Step act i p q → C i p q →
      A i (q.threads i) q.store)
    (hother : ∀ i j p q, j ≠ i → (∀ j, A j (p.threads j) p.store) → Step act i p q → C i p q →
      A j (p.threads j) q.store) : ∀ j, A j (q.threads j) q.store := by
  refine h.invariant (I := fun p => ∀ j, A j (p.threads j) p.store) hp ?_
  intro i p q hA hstep hC j
  by_cases hj : j = i
  · exact hj ▸ hown i p q hA hstep hC
  · rw [hstep.threads_of_ne hj]
    exact hother i j p q hj hA hstep hC

/-! ## Threads that exclude each other -/

/-- Of the threads of a group, at most one has come to such an end. -/
def AtMostOne (K : ι → Prop) (E : Program Op Res ε α → Prop) (p : Pool ι Op Res ε α σ) : Prop :=
  ∀ i j, K i → K j → E (p.threads i) → E (p.threads j) → i = j

/-- It stays at most one, if a thread comes to the end only where no other one has. -/
theorem AtMostOne.step {K : ι → Prop} {E : Program Op Res ε α → Prop} (h : p.AtMostOne K E)
    (hstep : Step act i p q)
    (hfirst : K i → E (q.threads i) → ∀ j, j ≠ i → K j → ¬ E (p.threads j)) :
    q.AtMostOne K E := by
  intro j k hj hk hej hek
  by_cases hji : j = i
  · by_contra hne
    have hki : k ≠ i := fun hki => hne (hji.trans hki.symm)
    rw [hstep.threads_of_ne hki] at hek
    exact hfirst (hji ▸ hj) (hji ▸ hej) k hki hk hek
  rw [hstep.threads_of_ne hji] at hej
  by_cases hki : k = i
  · exact absurd hej (hfirst (hki ▸ hk) (hki ▸ hek) j hji hj)
  · rw [hstep.threads_of_ne hki] at hek
    exact h j k hj hk hej hek

/-! ## Schedules -/

variable (act) in
/-- Let threads make their next calls in this order. A thread that has ended makes none. -/
def play : List (ι × κ) → Pool ι Op Res ε α σ → Pool ι Op Res ε α σ
  | [], p => p
  | (i, choice) :: schedule, p =>
    match p.threads i with
    | .call op next => play schedule (p.after act i op next choice)
    | _ => play schedule p

variable (act C) in
/-- Each step of a schedule meets a condition. -/
def Meets : List (ι × κ) → Pool ι Op Res ε α σ → Prop
  | [], _ => True
  | (i, choice) :: schedule, p =>
    match p.threads i with
    | .call op next =>
      C i p (p.after act i op next choice) ∧ Meets schedule (p.after act i op next choice)
    | _ => Meets schedule p

instance decidableMeets [∀ i p q, Decidable (C i p q)] :
    (schedule : List (ι × κ)) → (p : Pool ι Op Res ε α σ) → Decidable (Meets act C schedule p)
  | [], _ => .isTrue trivial
  | (i, choice) :: schedule, p =>
    match hthread : p.threads i with
    | .call op next =>
      have := decidableMeets schedule (p.after act i op next choice)
      decidable_of_iff
        (C i p (p.after act i op next choice) ∧ Meets act C schedule (p.after act i op next choice))
        (by rw [Meets, hthread])
    | .done _ => @decidable_of_iff _ _ (by rw [Meets, hthread]) (decidableMeets schedule p)
    | .fail _ => @decidable_of_iff _ _ (by rw [Meets, hthread]) (decidableMeets schedule p)

/-- A schedule that is played out is a run. -/
theorem steps_play {schedule : List (ι × κ)} (h : Meets act C schedule p) :
    Steps act C p (play act schedule p) := by
  induction schedule generalizing p with
  | nil => exact .refl
  | cons first schedule ih =>
    obtain ⟨i, choice⟩ := first
    rw [Meets] at h
    rw [play]
    split at h
    · rename_i op next hcall
      exact .head ⟨i, .call hcall choice, h.1⟩ (ih h.2)
    · exact ih h

/-- Steps meet a condition because of what they keep. -/
theorem meets_of_invariant {I : Pool ι Op Res ε α σ → Prop} {schedule : List (ι × κ)} (hp : I p)
    (hC : ∀ entry ∈ schedule, ∀ p q, I p → Step act entry.1 p q → C entry.1 p q ∧ I q) :
    Meets act C schedule p := by
  induction schedule generalizing p with
  | nil => trivial
  | cons first schedule ih =>
    obtain ⟨i, choice⟩ := first
    have hrest := fun entry hentry => hC entry (List.mem_cons_of_mem _ hentry)
    rw [Meets]
    split
    · rename_i op next hcall
      obtain ⟨hmeets, hnext⟩ := hC _ List.mem_cons_self _ _ hp (.call hcall choice)
      exact ⟨hmeets, ih hnext hrest⟩
    · exact ih hp hrest

end Pool
