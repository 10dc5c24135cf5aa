import Mathlib

/-!
# Infinite runs

Rules for what happens at some time of an infinite run `σ : ℕ → α`.
-/

namespace InfiniteRun

variable {α : Type*}

theorem exists_change (σ : ℕ → α) {n m : ℕ} (hnm : n ≤ m) (h : σ m ≠ σ n) :
    ∃ k ≥ n, σ k = σ n ∧ σ (k + 1) ≠ σ n := by
  induction m, hnm using Nat.le_induction with
  | base => exact absurd rfl h
  | succ m hnm ih =>
    by_cases hm : σ m = σ n
    · exact ⟨m, hnm, hm, h⟩
    · exact ih hm

/-- What holds with a rank that can always become smaller comes to `Q`. -/
theorem eventually_of_rank {P : ℕ → ℕ → Prop} {Q : ℕ → Prop}
    (h : ∀ r n, P r n → ∃ m ≥ n, Q m ∨ ∃ r' < r, P r' m) {r n : ℕ} (hP : P r n) :
    ∃ m ≥ n, Q m := by
  induction r using Nat.strong_induction_on generalizing n with
  | _ r ih =>
    obtain ⟨m, hm, hQ | ⟨r', hr', hP'⟩⟩ := h r n hP
    · exact ⟨m, hm, hQ⟩
    · obtain ⟨k, hk, hQ⟩ := ih r' hr' hP'
      exact ⟨k, hm.trans hk, hQ⟩

/-- A number that no step makes greater does not change from some time on. -/
theorem exists_settled {f : ℕ → ℕ} (h : Antitone f) : ∃ N, ∀ m ≥ N, f m = f N :=
  ⟨Function.argmin f, fun m hm => (h hm).antisymm (Function.argmin_le f m)⟩

end InfiniteRun
