import Mathlib

/-!
# Computations that may fail

What is known of a computation in `Except` that has ended well: each of its parts has, and a loop
that ends well has kept whatever each of its rounds keeps.
-/

variable {ε ε' α β : Type}

variable {b : β} {l : List α} {γ : Type} {f : List γ → α → Except ε (List γ)}

/-- Two steps end well when each of them does. -/
theorem Except.bind_eq_ok {x : Except ε α} {f : α → Except ε β} :
    (x >>= f) = .ok b ↔ ∃ a, x = .ok a ∧ f a = .ok b := by
  rcases x with e | a
  · constructor
    · rintro ⟨⟩
    · rintro ⟨_, ⟨⟩, _⟩
  · exact ⟨fun h => ⟨a, rfl, h⟩, fun ⟨_, ha, h⟩ => Except.ok.inj ha ▸ h⟩

theorem Except.map_eq_ok {x : Except ε α} {f : α → β} :
    x.map f = .ok b ↔ ∃ a, x = .ok a ∧ f a = b := by
  cases x <;> simp [Except.map]

theorem Except.mapError_eq_ok {x : Except ε α} {f : ε → ε'} {a : α} :
    x.mapError f = .ok a ↔ x = .ok a := by
  rcases x with e | b
  · simp [Except.mapError]
  · simp [Except.mapError]

theorem Except.mapError_bind_eq_ok {x : Except ε α} {g : ε → ε'} {f : α → Except ε' β} :
    (x.mapError g >>= f) = .ok b ↔ ∃ a, x = .ok a ∧ f a = .ok b := by
  simp only [Except.bind_eq_ok, Except.mapError_eq_ok]

/-- The invariant rule for a loop with an accumulator. -/
theorem List.foldlM_ok {P : β → Prop} {f : β → α → Except ε β} :
    ∀ {l : List α} {b b' : β}, P b → (∀ a ∈ l, ∀ c c', P c → f c a = .ok c' → P c') →
      l.foldlM f b = .ok b' → P b'
  | [], _, _, hb, _, h => Except.ok.inj h ▸ hb
  | a :: l, b, _, hb, hstep, h => by
    rw [List.foldlM_cons] at h
    obtain ⟨c, hc, h⟩ := Except.bind_eq_ok.1 h
    have hP : P c := hstep a List.mem_cons_self b c hb hc
    exact foldlM_ok hP (fun a ha => hstep a (List.mem_cons_of_mem _ ha)) h

/-- A loop that ends well has established what each round establishes and the others keep. -/
theorem List.foldlM_ok_all {P : β → Prop} {Q : α → β → Prop} {f : β → α → Except ε β} {b' : β}
    (hb : P b)
    (hstep : ∀ a ∈ l, ∀ c c', P c → f c a = .ok c' → P c' ∧ Q a c' ∧ ∀ a', Q a' c → Q a' c')
    (h : l.foldlM f b = .ok b') : P b' ∧ ∀ a ∈ l, Q a b' := by
  induction l generalizing b with
  | nil => exact ⟨Except.ok.inj h ▸ hb, nofun⟩
  | cons a l ih =>
    rw [List.foldlM_cons] at h
    obtain ⟨c, hc, h⟩ := Except.bind_eq_ok.1 h
    obtain ⟨hP, hQ, -⟩ := hstep a List.mem_cons_self b c hb hc
    have hrest := fun a ha => hstep a (List.mem_cons_of_mem _ ha)
    obtain ⟨hend, hall⟩ := ih hP hrest h
    refine ⟨hend, List.forall_mem_cons.2 ⟨?_, hall⟩⟩
    refine (List.foldlM_ok (P := fun c => P c ∧ Q a c) ⟨hP, hQ⟩ (fun a' ha' c c' hc hf => ?_) h).2
    obtain ⟨hP', -, hkeep⟩ := hrest a' ha' c c' hc.1 hf
    exact ⟨hP', hkeep a hc.2⟩

/-- A loop that only gathers. -/
theorem List.foldlM_gather (take : α → List γ)
    (h : ∀ a ∈ l, ∀ found, f found a = .ok (found ++ take a)) (found : List γ) :
    l.foldlM f found = .ok (found ++ l.flatMap take) := by
  induction l generalizing found with
  | nil => rw [List.flatMap_nil, List.append_nil]; rfl
  | cons a l ih =>
    rw [List.foldlM_cons, h a List.mem_cons_self, List.flatMap_cons, ← List.append_assoc]
    exact ih (fun a ha => h a (List.mem_cons_of_mem _ ha)) _

theorem List.foldlM_gather_ok (take : α → List γ)
    (h : ∀ a ∈ l, ∀ found found', f found a = .ok found' → found' = found ++ take a)
    {found found' : List γ} (hfold : l.foldlM f found = .ok found') :
    found' = found ++ l.flatMap take := by
  induction l generalizing found with
  | nil => rw [← Except.ok.inj hfold, List.flatMap_nil, List.append_nil]
  | cons a l ih =>
    rw [List.foldlM_cons] at hfold
    obtain ⟨next, hnext, hfold⟩ := Except.bind_eq_ok.1 hfold
    rw [ih (fun a ha => h a (List.mem_cons_of_mem _ ha)) hfold, h a List.mem_cons_self found next hnext,
      List.flatMap_cons, List.append_assoc]

theorem List.foldlM_flatMap {f : β → γ → Except ε β} {g : α → List γ} :
    (l.flatMap g).foldlM f b = l.foldlM (fun b a => (g a).foldlM f b) b := by
  induction l generalizing b with
  | nil => rfl
  | cons a l ih =>
    rw [List.flatMap_cons, List.foldlM_append, List.foldlM_cons]
    congr 1
    funext b'
    exact ih

/-- A loop that gathers an entry for each element that neither it nor an earlier one refuses. -/
theorem List.foldlM_claim {entry : α → γ} {R : γ → α → Prop} {P : α → Prop}
    (hf : ∀ found a found', f found a = .ok found' ↔
      found' = found ++ [entry a] ∧ (∀ c ∈ found, R c a) ∧ P a) {found : List γ} :
    (∃ found', l.foldlM f found = .ok found') ↔
      (∀ c ∈ found, ∀ a ∈ l, R c a) ∧ l.Pairwise (fun a b => R (entry a) b) ∧ ∀ a ∈ l, P a := by
  induction l generalizing found with
  | nil => exact iff_of_true ⟨found, rfl⟩ ⟨nofun, .nil, nofun⟩
  | cons a l ih =>
    simp only [List.foldlM_cons, Except.bind_eq_ok, hf, List.pairwise_cons, List.forall_mem_cons]
    constructor
    · rintro ⟨found', next, ⟨rfl, hR, hP⟩, hrest⟩
      obtain ⟨hbefore, hpairs, hall⟩ := ih.1 ⟨found', hrest⟩
      rw [List.forall_mem_append, List.forall_mem_singleton] at hbefore
      exact ⟨fun c hc => ⟨hR c hc, hbefore.1 c hc⟩, ⟨hbefore.2, hpairs⟩, hP, hall⟩
    · rintro ⟨hbefore, ⟨hfirst, hpairs⟩, hP, hall⟩
      obtain ⟨found', hrest⟩ := ih.2 ⟨List.forall_mem_append.2 ⟨fun c hc => (hbefore c hc).2,
        List.forall_mem_singleton.2 hfirst⟩, hpairs, hall⟩
      exact ⟨found', _, ⟨rfl, fun c hc => (hbefore c hc).1, hP⟩, hrest⟩

/-- A loop over checks has passed each of them. -/
theorem List.forM_ok {f : α → Except ε PUnit} : l.forM f = .ok () ↔ ∀ a ∈ l, f a = .ok () := by
  induction l with
  | nil => exact ⟨nofun, fun _ => rfl⟩
  | cons a l ih =>
    rw [List.forM, Except.bind_eq_ok, List.forall_mem_cons, ← ih]
    exact ⟨fun ⟨_, ha, hl⟩ => ⟨ha, hl⟩, fun ⟨ha, hl⟩ => ⟨(), ha, hl⟩⟩
