import FacetQL.Storage.Commit

/-!
# What a log of the writers stands for

The replay of a log that is made of frames (`SoundLog`): every standalone mutation and
every COMMIT in it is noted, so nothing is left to replay above what has been noted; and
a record that closes no frame adds nothing to the replay, while a standalone mutation or
a COMMIT adds its mutations at the end.
-/

namespace FacetQL

variable {μ : Type} {log : List (WalRecord μ)} {c : Counters} {r : WalRecord μ} {x x' : Nat}

theorem SoundLog.committedIn (hlog : SoundLog log c) (hr : r ∈ log) (hop : r.operation = .commit) :
    committedIn log r.transactionId = true := by
  have hid : r.transactionId ≠ standaloneTransactionId := by
    intro hid
    have hcontrol := hlog.standalone r hr hid
    rw [hop] at hcontrol
    cases hcontrol
  have hmem : r ∈ frameOf log r.transactionId := mem_frameOf.2 ⟨hr, rfl⟩
  obtain ⟨outcome, hframe⟩ := (hlog.pieces _ hid).frame
  rcases outcome with _ | e
  · exact absurd hop (hframe.no_commit r hmem)
  obtain ⟨body, last, hrecords, hlast, -, hbody⟩ := hframe.commit_last
  have habort : ∀ r' ∈ frameOf log r.transactionId, r'.operation ≠ .abort := by
    rw [hrecords]
    refine List.forall_mem_append.2 ⟨fun r' hr' => (hbody r' hr').2, ?_⟩
    simp [hlast]
  rw [FacetQL.committedIn, Bool.and_eq_true, Bool.not_eq_true', List.any_eq_true,
    List.any_eq_false]
  refine ⟨⟨r, hmem, by simp [hop]⟩, fun r' hr' => ?_⟩
  have hne := habort r' hr'
  cases hop' : r'.operation <;> simp_all

/-- Which sequence numbers a replay notes. -/
theorem SoundLog.note_mem_schedule_iff (hlog : SoundLog log c) : .note x ∈ schedule log ↔
    ∃ r ∈ log, (r.transactionId = standaloneTransactionId ∨ r.operation = .commit) ∧
      x = r.sequence := by
  refine ⟨Writer.note_mem_schedule, ?_⟩
  rintro ⟨r, hr, hop, rfl⟩
  refine List.mem_flatMap.2 ⟨r, hr, ?_⟩
  rw [effectsAt]
  by_cases hid : r.transactionId = standaloneTransactionId
  · have hcontrol := hlog.standalone r hr hid
    rw [if_pos hid]
    cases hrop : r.operation with
    | mutation op => exact List.mem_cons_of_mem _ List.mem_cons_self
    | begin | commit | abort => rw [hrop] at hcontrol; cases hcontrol
  · have hcommit := hop.resolve_left hid
    rw [if_neg hid, hcommit, hlog.committedIn hr hcommit]
    exact List.mem_append_right _ List.mem_cons_self

/-- Nothing is replayed above a sequence number that no noted one exceeds. -/
theorem SoundLog.schedule_eq_nil (hlog : SoundLog (liveRecords x log) c) (hle : x ≤ x')
    (hnoted : ∀ s, .note s ∈ schedule (liveRecords x log) → s ≤ x') :
    schedule (liveRecords x' log) = [] := by
  refine List.flatMap_eq_nil_iff.2 fun r hr => ?_
  obtain ⟨hr, hgt⟩ := mem_liveRecords.1 hr
  have hlive : r ∈ liveRecords x log := mem_liveRecords.2 ⟨hr, hle.trans_lt hgt⟩
  -- A record that replays something would have been noted.
  have hquiet : ¬ (r.transactionId = standaloneTransactionId ∨ r.operation = .commit) := fun hop =>
    absurd (hnoted r.sequence (hlog.note_mem_schedule_iff.2 ⟨r, hlive, hop, rfl⟩)) hgt.not_ge
  rw [not_or] at hquiet
  rw [effectsAt, if_neg hquiet.1]
  cases hop : r.operation with
  | commit => exact absurd hop hquiet.2
  | begin | abort | mutation op => rfl

/-- A record after all COMMITs of its transaction does not change what others replay. -/
theorem schedule_concat (hopen : r.transactionId ≠ standaloneTransactionId →
    ∀ r' ∈ log, r'.transactionId = r.transactionId → r'.operation ≠ .commit) :
    schedule (log ++ [r]) = schedule log ++ effectsAt (log ++ [r]) r := by
  have hsame : ∀ r' ∈ log, effectsAt (log ++ [r]) r' = effectsAt log r' := by
    intro r' hr'
    rw [effectsAt, effectsAt]
    by_cases hstand : r'.transactionId = standaloneTransactionId
    · rw [if_pos hstand, if_pos hstand]
    rw [if_neg hstand, if_neg hstand]
    by_cases hid : r.transactionId = r'.transactionId
    · have hne := hopen (hid ▸ hstand) r' hr' hid.symm
      cases hop : r'.operation with
      | commit => exact absurd hop hne
      | begin | abort | mutation op => rfl
    · have hframe : frameOf (log ++ [r]) r'.transactionId = frameOf log r'.transactionId := by
        rw [frameOf_append, frameOf_singleton, if_neg hid, List.append_nil]
      rw [FacetQL.committedIn, mutationsOf, hframe]
      rfl
  have hbefore : log.flatMap (effectsAt (log ++ [r])) = log.flatMap (effectsAt log) := by
    rw [List.flatMap_def, List.flatMap_def, List.map_congr_left hsame]
  rw [schedule, List.flatMap_append, hbefore, List.flatMap_singleton, schedule]

/-- The beginning of a log replays nothing that the log does not. -/
theorem SoundLog.apply_mem_schedule (hlog : SoundLog log c) {first : List (WalRecord μ)}
    (hsub : first ⊆ log) {op : μ} (hop : .apply op ∈ schedule first) : .apply op ∈ schedule log := by
  obtain ⟨r, hr, hat⟩ := List.mem_flatMap.1 hop
  refine List.mem_flatMap.2 ⟨r, hsub hr, ?_⟩
  rw [effectsAt] at hat ⊢
  by_cases hstand : r.transactionId = standaloneTransactionId
  · rwa [if_pos hstand] at hat ⊢
  rw [if_neg hstand] at hat ⊢
  cases hcommit : r.operation with
  | commit =>
    rw [hcommit] at hat
    dsimp only at hat ⊢
    split_ifs at hat
    · rw [if_pos (hlog.committedIn (hsub hr) hcommit)]
      -- The frame of the transaction has all the mutations that its beginning has.
      have hframe : frameOf first r.transactionId ⊆ frameOf log r.transactionId := fun x hx =>
        mem_frameOf.2 ((mem_frameOf.1 hx).imp_left (hsub ·))
      simp only [List.mem_append, List.mem_map, mutationsOf, List.mem_filterMap] at hat ⊢
      rcases hat with ⟨a, ⟨x, hx, ha⟩, heq⟩ | hnote
      · exact .inl ⟨a, ⟨x, hframe hx, ha⟩, heq⟩
      · exact .inr hnote
    · cases hat
  | _ =>
    rw [hcommit] at hat
    cases hat

end FacetQL
