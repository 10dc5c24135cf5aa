import FacetQL.Storage.Fences

/-!
# Operation ids across processes

Operation ids number the records of the log, and also what is not in the log: the
versions of the history (`core/history.rs`) and the live events (`database.rs`). In
one process they only grow. The next process continues from what it finds: the
durable checkpoint, which is a sequence number, and the records that are left of the
log.
-/

namespace FacetQL

variable {μ : Type}

/-- Which operation ids recovery moves the counter past. -/
theorem lt_recoveredCounters_iff {checkpoint p : Nat} {log : List (WalRecord μ)} :
    p < (recoveredCounters checkpoint (some log)).operationId ↔
      p ≤ checkpoint ∨ ∃ r ∈ log, p ≤ r.operationId := by
  have hmax : p ≤ (log.map WalRecord.operationId).foldl max 0 ↔
      p ≤ 0 ∨ ∃ r ∈ log, p ≤ r.operationId := by
    rw [le_foldl_max_iff]
    simp
  simp only [recoveredCounters, Counters.initializeCounters, Counters.advanceCounter, Counters.new,
    lt_max_iff, Nat.lt_succ_iff, hmax]
  constructor
  · rintro ((h | h) | h | h)
    · exact .inl (h.trans (Nat.zero_le _))
    · exact .inl h
    · exact .inl (h.trans (Nat.zero_le _))
    · exact .inr h
  · rintro (h | h)
    · exact .inl (.inr h)
    · exact .inr (.inr h)

namespace Writer

variable {w w' : Writer μ} {p : Nat}

theorem ProcessStep.operationId_le (h : ProcessStep w w') :
    w.counters.operationId ≤ w'.counters.operationId := by
  cases h with
  | standalone _ _ succeeds => cases succeeds <;> exact Nat.le_succ _
  | openFrame | stage | commit => exact Nat.le_succ _
  | settle => exact le_rfl
  | @drop f _ aborts =>
    rw [Writer.drop]
    rcases f.commitSequence with _ | _
    · cases aborts with
      | false => exact le_rfl
      | true => exact Nat.le_succ _
    · exact le_rfl
  | advance => rw [advance_eq]
  | rotate => exact le_rfl
  | burn _ _ _ hoperation => exact hoperation

/-- The first `keep` records, or the checkpoint, show that the operation id has been handed out. -/
def Covers (w : Writer μ) (keep p : Nat) : Prop :=
  p ≤ w.checkpoint ∨ ∃ r ∈ w.log.take keep, p ≤ r.operationId

instance (w : Writer μ) (keep p : Nat) : Decidable (w.Covers keep p) :=
  inferInstanceAs (Decidable (_ ∨ _))

/-- What is covered is exactly what the next process does not hand out again. -/
theorem lt_restart_iff {keep : Nat} : p < (w.restart keep).counters.operationId ↔ w.Covers keep p :=
  lt_recoveredCounters_iff

end Writer

end FacetQL
