import FacetQL.Storage.Commit

/-!
# Mutations that could not be applied

A mutation that is in the log and could not be applied has to be replayed by the
next recovery, so the checkpoint must stay below it for as long as the process
lives. A frame sees to that with its fence, which it keeps when it is dropped after
its COMMIT. A standalone mutation has no fence of its own.

* `failure_never_passed_iff`: when the checkpoint never passes such a mutation.
-/

namespace FacetQL.Writer

variable {μ : Type}

/-- The steps of the writers in one process. -/
inductive ProcessStep : Writer μ → Writer μ → Prop
  | standalone {w : Writer μ} (hframe : w.frame = none) (op : μ) (succeeds : Bool) :
      ProcessStep w (w.standalone op succeeds)
  | openFrame {w : Writer μ} (hframe : w.frame = none) : ProcessStep w w.openFrame
  | stage {w : Writer μ} {f : StagedCommit} (hframe : w.frame = some f)
      (hopen : f.commitSequence = none) (op : μ) : ProcessStep w (w.stage f op)
  | commit {w : Writer μ} {f : StagedCommit} (hframe : w.frame = some f)
      (hopen : f.commitSequence = none) : ProcessStep w (w.commit f)
  | settle {w : Writer μ} {f : StagedCommit} {c : Nat} (hframe : w.frame = some f)
      (hcommit : f.commitSequence = some c) : ProcessStep w (w.settle f c)
  | drop {w : Writer μ} {f : StagedCommit} (hframe : w.frame = some f) (aborts : Bool) :
      ProcessStep w (w.drop f aborts)
  | advance {w : Writer μ} : ProcessStep w w.advance
  | rotate {w : Writer μ} : ProcessStep w { w with log := FacetQL.rotate w.checkpoint w.log }
  | burn {w : Writer μ} (c : Counters) (hsequence : w.counters.sequence ≤ c.sequence)
      (htransaction : w.counters.transactionId ≤ c.transactionId)
      (hoperation : w.counters.operationId ≤ c.operationId) : ProcessStep w { w with counters := c }

/-- A run of one process. -/
abbrev ProcessSteps : Writer μ → Writer μ → Prop := Relation.ReflTransGen ProcessStep

theorem ProcessStep.step {w w' : Writer μ} (h : ProcessStep w w') : Step w w' := by
  cases h with
  | standalone hframe op succeeds => exact .standalone hframe op succeeds
  | openFrame hframe => exact .openFrame hframe
  | stage hframe hopen op => exact .stage hframe hopen op
  | commit hframe hopen => exact .commit hframe hopen
  | settle hframe hcommit => exact .settle hframe hcommit
  | drop hframe aborts => exact .drop hframe aborts
  | advance => exact .advance
  | rotate => exact .rotate
  | burn c hsequence htransaction hoperation => exact .burn c hsequence htransaction hoperation

/-- A mutation or a frame in the log that was not applied; recovery needs it from `sequence` on. -/
inductive Failure : Writer μ → Writer μ → (sequence : Nat) → Prop
  | standalone {w : Writer μ} (hframe : w.frame = none) (op : μ) :
      Failure w (w.standalone op false) w.counters.sequence
  | frame {w : Writer μ} {f : StagedCommit} {c : Nat} (hframe : w.frame = some f)
      (hcommit : f.commitSequence = some c) (aborts : Bool) :
      Failure w (w.drop f aborts) f.beginSequence

/-- The checkpoint is below every fence, and the open frame has a fence. -/
structure Fenced (w : Writer μ) : Prop where
  fences : ∀ b ∈ w.fences, w.checkpoint < b ∧ b < w.counters.sequence
  frame : ∀ f, w.frame = some f → f.beginSequence ∈ w.fences

/-- A fence of this process that no frame will release. -/
structure Pinned (w : Writer μ) (b : Nat) : Prop where
  mem : b ∈ w.fences
  frame : ∀ f, w.frame = some f → f.beginSequence ≠ b
  below : w.checkpoint < b
  next : b < w.counters.sequence

section Fences

variable {w w' : Writer μ} {f : StagedCommit} {b sequence : Nat}

theorem advance_lt (hb : b ∈ w.fences) (hbelow : w.checkpoint < b) : w.advance.checkpoint < b := by
  have hceiling : w.ceiling = some (w.fences.min' ⟨b, hb⟩ - 1) := dif_pos ⟨b, hb⟩
  have hmin : w.fences.min' ⟨b, hb⟩ ≤ b := Finset.min'_le _ _ hb
  rw [advance, hceiling]
  dsimp only
  split_ifs
  · exact hbelow
  · calc min w.applied (w.fences.min' ⟨b, hb⟩ - 1) ≤ w.fences.min' ⟨b, hb⟩ - 1 := min_le_right _ _
      _ ≤ b - 1 := Nat.sub_le_sub_right hmin 1
      _ < b := Nat.sub_one_lt (Nat.ne_zero_of_lt hbelow)

theorem fenced_empty : Fenced (empty : Writer μ) where
  fences b hb := by cases hb
  frame f hf := by cases hf

/-- Steps that neither add fences, nor move the checkpoint, nor give a number back. -/
theorem Fenced.mono (h : w.Fenced) (hfences : w'.fences ⊆ w.fences)
    (hcheckpoint : w'.checkpoint = w.checkpoint) (hsequence : w.counters.sequence ≤ w'.counters.sequence)
    (hframe : ∀ f, w'.frame = some f → f.beginSequence ∈ w'.fences) : w'.Fenced where
  fences b hb := by
    obtain ⟨hbelow, hnext⟩ := h.fences b (hfences hb)
    exact ⟨hcheckpoint ▸ hbelow, hnext.trans_le hsequence⟩
  frame := hframe

/-- Every step keeps the checkpoint below the fences. -/
theorem Fenced.step (hinv : w.Inv) (h : w.Fenced) (hstep : Step w w') : w'.Fenced := by
  cases hstep with
  | standalone hframe op succeeds =>
    refine h.mono ?_ ?_ ?_ ?_ <;> cases succeeds <;>
      simp [Writer.standalone, Writer.append, Writer.noteApplied, hframe]
  | openFrame hframe =>
    refine ⟨fun b hb => ?_, fun f hf => ?_⟩
    · rcases Finset.mem_insert.1 hb with rfl | hb
      · exact ⟨(hinv.marks _ (.inl rfl)).2, Nat.lt_succ_self _⟩
      · exact ⟨(h.fences b hb).1, (h.fences b hb).2.trans (Nat.lt_succ_self _)⟩
    · cases hf
      exact Finset.mem_insert_self _ _
  | stage hframe hopen op =>
    exact h.mono subset_rfl rfl (Nat.le_succ _) h.frame
  | @commit f hframe hopen =>
    refine h.mono subset_rfl rfl (Nat.le_succ _) fun f' hf' => ?_
    cases hf'
    exact h.frame f hframe
  | settle hframe hcommit =>
    exact h.mono (Finset.erase_subset _ _) rfl le_rfl fun f' hf' => by cases hf'
  | @drop f hframe aborts =>
    rw [Writer.drop]
    rcases f.commitSequence with _ | c
    · cases aborts with
      | false => exact h.mono (Finset.erase_subset _ _) rfl le_rfl fun f' hf' => by cases hf'
      | true => exact h.mono (Finset.erase_subset _ _) rfl (Nat.le_succ _) fun f' hf' => by cases hf'
    · exact h.mono subset_rfl rfl le_rfl fun f' hf' => by cases hf'
  | advance =>
    refine ⟨fun b hb => ?_, fun f hf => ?_⟩
    · rw [advance_eq] at hb ⊢
      exact ⟨advance_lt hb (h.fences b hb).1, (h.fences b hb).2⟩
    · rw [advance_eq] at hf ⊢
      exact h.frame f hf
  | rotate => exact h.mono subset_rfl rfl le_rfl h.frame
  | burn c hsequence => exact h.mono subset_rfl rfl hsequence h.frame
  | restart keep =>
    refine ⟨fun b hb => ?_, fun f hf => ?_⟩
    · cases hb
    · cases hf

theorem fenced_steps (h : Steps (empty : Writer μ) w) : w.Fenced := by
  induction h with
  | refl => exact fenced_empty
  | tail hsteps hstep ih => exact ih.step (inv_empty.steps hsteps) hstep

theorem Pinned.mono (h : w.Pinned b) (hmem : b ∈ w'.fences) (hcheckpoint : w'.checkpoint = w.checkpoint)
    (hsequence : w.counters.sequence ≤ w'.counters.sequence)
    (hframe : ∀ f, w'.frame = some f → f.beginSequence ≠ b) : w'.Pinned b :=
  ⟨hmem, hframe, hcheckpoint ▸ h.below, h.next.trans_le hsequence⟩

theorem Pinned.step (h : w.Pinned b) (hstep : ProcessStep w w') : w'.Pinned b := by
  cases hstep with
  | standalone hframe op succeeds =>
    refine h.mono ?_ ?_ ?_ ?_ <;> cases succeeds <;>
      simp [Writer.standalone, Writer.append, Writer.noteApplied, hframe, h.mem]
  | openFrame hframe =>
    refine h.mono (Finset.mem_insert_of_mem h.mem) rfl (Nat.le_succ _) fun f hf => ?_
    -- The new frame starts above every fence.
    cases hf
    exact h.next.ne'
  | stage hframe hopen op => exact h.mono h.mem rfl (Nat.le_succ _) h.frame
  | @commit f hframe hopen =>
    refine h.mono h.mem rfl (Nat.le_succ _) fun f' hf' => ?_
    cases hf'
    exact h.frame f hframe
  | @settle f c hframe hcommit =>
    exact h.mono (Finset.mem_erase.2 ⟨(h.frame f hframe).symm, h.mem⟩) rfl le_rfl
      fun f' hf' => by cases hf'
  | @drop f hframe aborts =>
    have hmem : b ∈ w.fences.erase f.beginSequence :=
      Finset.mem_erase.2 ⟨(h.frame f hframe).symm, h.mem⟩
    rw [Writer.drop]
    rcases f.commitSequence with _ | c
    · cases aborts with
      | false => exact h.mono hmem rfl le_rfl fun f' hf' => by cases hf'
      | true => exact h.mono hmem rfl (Nat.le_succ _) fun f' hf' => by cases hf'
    · exact h.mono h.mem rfl le_rfl fun f' hf' => by cases hf'
  | advance =>
    have hbelow := advance_lt h.mem h.below
    rw [advance_eq] at hbelow ⊢
    exact ⟨h.mem, h.frame, hbelow, h.next⟩
  | rotate => exact h.mono h.mem rfl le_rfl h.frame
  | burn c hsequence => exact h.mono h.mem rfl hsequence h.frame

theorem Pinned.steps (h : w.Pinned b) (hsteps : ProcessSteps w w') : w'.Pinned b := by
  induction hsteps with
  | refl => exact h
  | tail _ hstep ih => exact ih.step hstep

/-- A failure while there is a fence leaves a fence at or below it that is never released. -/
theorem Failure.pinned (hfenced : w.Fenced) (hfailure : Failure w w' sequence)
    (hfences : w.fences.Nonempty) : ∃ b ≤ sequence, w'.Pinned b := by
  cases hfailure with
  | standalone hframe op =>
    obtain ⟨b, hb⟩ := hfences
    obtain ⟨hbelow, hnext⟩ := hfenced.fences b hb
    have hpinned : w.Pinned b := ⟨hb, fun f hf => (by rw [hframe] at hf; cases hf), hbelow, hnext⟩
    exact ⟨b, hnext.le, hpinned.step (.standalone hframe op false)⟩
  | @frame f c hframe hcommit aborts =>
    -- The frame keeps its own fence.
    have hmem := hfenced.frame f hframe
    obtain ⟨hbelow, hnext⟩ := hfenced.fences _ hmem
    refine ⟨f.beginSequence, le_rfl, ?_⟩
    rw [Writer.drop, hcommit]
    refine ⟨hmem, fun f' hf' => ?_, hbelow, hnext⟩
    cases hf'

/-- Without a fence, the next success takes the checkpoint past a standalone failure. -/
theorem standalone_passed (hfences : w.fences = ∅) (op : μ)
    (hcheckpoint : w.checkpoint < w.counters.sequence) :
    w.counters.sequence < ((w.standalone op false).standalone op true).advance.checkpoint := by
  have hceiling : ((w.standalone op false).standalone op true).ceiling = none := by
    refine dif_neg ?_
    simp [Writer.standalone, Writer.append, Writer.noteApplied, hfences]
  have happlied : w.counters.sequence + 1 ≤ ((w.standalone op false).standalone op true).applied :=
    le_max_right _ _
  have hsame : ((w.standalone op false).standalone op true).checkpoint = w.checkpoint := rfl
  rw [advance, hceiling]
  dsimp only
  rw [if_neg (by omega)]
  exact Nat.lt_of_succ_le happlied

end Fences

end FacetQL.Writer

namespace FacetQL

variable {μ : Type}

/-- The checkpoint never passes, in the process, a logged mutation that could not be
    applied, exactly when there is a fence at the time it fails: the one of its own frame,
    or one that an earlier frame has left. -/
theorem failure_never_passed_iff {w w' : Writer μ} {sequence : Nat} (hrun : Writer.Steps .empty w)
    (hfailure : Writer.Failure w w' sequence) :
    (∀ w'', Writer.ProcessSteps w' w'' → w''.checkpoint < sequence) ↔ w.fences.Nonempty := by
  have hfenced := Writer.fenced_steps hrun
  constructor
  · intro hbelow
    cases hfailure with
    | standalone hframe op =>
      by_contra hfences
      have hpassed := Writer.standalone_passed (Finset.not_nonempty_iff_eq_empty.1 hfences) op
        ((Writer.inv_empty.steps hrun).marks _ (.inl rfl)).2
      have hframe' : (w.standalone op false).frame = none := hframe
      refine hpassed.not_gt (hbelow _ ?_)
      exact (Relation.ReflTransGen.single (.standalone hframe' op true)).tail .advance
    | @frame f c hframe _ _ => exact ⟨f.beginSequence, hfenced.frame f hframe⟩
  · intro hfences w'' hsteps
    obtain ⟨b, hb, hpinned⟩ := hfailure.pinned hfenced hfences
    exact (hpinned.steps hsteps).below.trans_le hb

/-- A frame that has its COMMIT, and could not be applied. -/
theorem failure_never_passed_iff_frame :
    (∀ w'', Writer.ProcessSteps
      ((((Writer.empty : Writer Nat).openFrame.stage ⟨1, 1, none⟩ 7).commit ⟨1, 1, none⟩).drop
        ⟨1, 1, some 3⟩ false) w'' → w''.checkpoint < 1) ↔
      ((((Writer.empty : Writer Nat).openFrame.stage ⟨1, 1, none⟩ 7).commit ⟨1, 1, none⟩).fences).Nonempty := by
  have hrun : Writer.Steps (.empty : Writer Nat)
      (((Writer.empty : Writer Nat).openFrame.stage ⟨1, 1, none⟩ 7).commit ⟨1, 1, none⟩) :=
    ((Relation.ReflTransGen.single (.openFrame rfl)).tail (.stage rfl rfl 7)).tail (.commit rfl rfl)
  exact failure_never_passed_iff hrun (.frame rfl rfl false)

/-- A standalone mutation that could not be applied, one that could, and a checkpoint: the
    checkpoint has passed the first one, and no recovery replays it. -/
theorem standalone_failure_passed :
    ∃ w'', Writer.Failure (.empty : Writer Nat) (Writer.empty.standalone 10 false) 1 ∧
      Writer.ProcessSteps ((Writer.empty : Writer Nat).standalone 10 false) w'' ∧ w''.checkpoint = 2 ∧
      liveRecords w''.checkpoint w''.log = [] := by
  refine ⟨((Writer.empty.standalone 10 false).standalone 20 true).advance, .standalone rfl 10, ?_, ?_, ?_⟩
  · exact (Relation.ReflTransGen.single (.standalone rfl 20 true)).tail .advance
  · decide
  · decide

end FacetQL
