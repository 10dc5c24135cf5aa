import FacetQL.Storage.Engine
import FacetQL.Storage.Schedule

/-!
# What recovery would get to

At every moment a crash that loses nothing of the log would be followed by a recovery
that gets to the records the engine has in memory, up to what it has logged and still
has to apply. The trees on disk are those of the last checkpoint, and the log holds
what has happened since; while a checkpoint commits the trees one after the other, some
of them already hold what the log says, which the replay then writes once more.
-/

namespace FacetQL

/-- The writes of a replay. -/
def effectWrites (effects : List (Effect Operation)) : List (LiveKey × Option HeapRecord) :=
  effects.filterMap fun
    | .apply op => some op.toWrite
    | .note _ => none

theorem effectWrites_append (x y : List (Effect Operation)) :
    effectWrites (x ++ y) = effectWrites x ++ effectWrites y :=
  List.filterMap_append

theorem effectWrites_applies (ops : List Operation) (sequence : Nat) :
    effectWrites (ops.map .apply ++ [.note sequence]) = ops.map Operation.toWrite := by
  induction ops with
  | nil => rfl
  | cons op ops ih => exact congrArg (op.toWrite :: ·) ih

namespace Engine

/-- The records above the checkpoint. -/
def live (e : Engine) : List (WalRecord Operation) := liveRecords e.writer.checkpoint e.writer.log

/-- What recovery from the disk gets to. -/
def recovered (e : Engine) : LiveKey → Option HeapRecord :=
  writes e.disk.view (effectWrites (schedule e.live))

/-- What is in memory, with what is logged and still to be applied. -/
def current (e : Engine) : LiveKey → Option HeapRecord :=
  match e.phase with
  | .applying ops _ => writes e.mem.view (ops.map Operation.toWrite)
  | .replaying effects => writes e.mem.view (effectWrites effects)
  | _ => e.mem.view

/-- No frame is open, and what a replay notes has been noted, or is about to be. -/
structure Settled (e : Engine) (effects : List (Effect Operation)) : Prop where
  frame : e.writer.frame = none
  fences : e.writer.fences = ∅
  noted : ∀ sequence, .note sequence ∈ schedule e.live →
    .note sequence ∈ effects ∨ sequence ≤ e.writer.applied

/-- A frame is open, and these are the operations it has logged. -/
structure Staged (e : Engine) (ops : List Operation) (f : StagedCommit) : Prop where
  frame : e.writer.frame = some f
  uncommitted : f.commitSequence = none
  fences : ∀ b ∈ e.writer.fences, b = f.beginSequence
  ops : mutationsOf e.live f.transactionId = ops
  noted : ∀ sequence, .note sequence ∈ schedule e.live → sequence ≤ e.writer.applied

/-- What is logged up to a sequence number is applied. -/
structure Applying (e : Engine) (sequence : Nat) : Prop where
  fences : ∀ b ∈ e.writer.fences, ∃ f, e.writer.frame = some f ∧ b = f.beginSequence
  noted : ∀ s, .note s ∈ schedule e.live → s = sequence ∨ s ≤ e.writer.applied

/-- What holds at each point of the writer. -/
def PhaseRecoverable (e : Engine) : Prop :=
  match e.phase with
  | .ready => e.Settled []
  | .staging ops => ∃ f, e.Staged ops f
  | .applying _ sequence => e.Applying sequence
  | .replaying effects => e.Settled effects
  | .compacting _ => e.Settled []
  | .committing _ _ => e.Settled []
  | .advanced _ => e.Settled []

/-- Recovery gets to what is in memory. -/
structure Recoverable (e : Engine) : Prop where
  sound : e.Sound
  recovered : e.recovered = e.current
  phase : e.PhaseRecoverable

variable {e e' : Engine}

theorem Settled.congr {effects : List (Effect Operation)} (h : e.Settled effects)
    (hframe : e'.writer.frame = e.writer.frame) (hfences : e'.writer.fences = e.writer.fences)
    (happlied : e'.writer.applied = e.writer.applied) (hlive : e'.live = e.live) :
    e'.Settled effects :=
  ⟨hframe.trans h.frame, hfences.trans h.fences, fun s hs => happlied ▸ h.noted s (hlive ▸ hs)⟩

/-- Operation ids and flushes of the log do not matter. -/
theorem PhaseRecoverable.congr (h : e.PhaseRecoverable) (hphase : e'.phase = e.phase)
    (hframe : e'.writer.frame = e.writer.frame) (hfences : e'.writer.fences = e.writer.fences)
    (happlied : e'.writer.applied = e.writer.applied) (hlive : e'.live = e.live) :
    e'.PhaseRecoverable := by
  rw [PhaseRecoverable] at h ⊢
  rw [hphase]
  cases hnow : e.phase with
  | staging ops =>
    rw [hnow] at h
    obtain ⟨f, hstaged⟩ := h
    exact ⟨f, hframe.trans hstaged.frame, hstaged.uncommitted, hfences ▸ hstaged.fences,
      hlive ▸ hstaged.ops, fun s hs => happlied ▸ hstaged.noted s (hlive ▸ hs)⟩
  | applying ops sequence =>
    rw [hnow] at h
    exact ⟨fun b hb => hframe ▸ h.fences b (hfences ▸ hb),
      fun s hs => happlied ▸ h.noted s (hlive ▸ hs)⟩
  | _ =>
    rw [hnow] at h
    exact h.congr hframe hfences happlied hlive

theorem recoverable_empty : empty.Recoverable where
  sound := sound_empty
  recovered := rfl
  phase := ⟨rfl, rfl, nofun⟩

/-! ## Writing to the log -/

variable {w : Writer Operation} {drained : List Nat}

theorem liveRecords_writerAppend (h : w.Inv) (id : Nat) (op : WalOperation Operation) :
    liveRecords w.checkpoint (w.append id op).log =
      liveRecords w.checkpoint w.log ++
        [⟨walFormatVersion, w.counters.sequence, id, w.counters.operationId, op⟩] := by
  have habove := (h.marks _ (.inl rfl)).2
  rw [Writer.append, liveRecords_append]
  exact congrArg (_ ++ ·) (List.filter_cons_of_pos (by simpa using habove))

theorem Sound.live (h : e.Sound) : SoundLog e.live e.writer.counters :=
  h.writer.log.live (h.writer.marks _ (.inl rfl)).1

theorem schedule_standalone (h : w.Inv) (op : Operation) :
    schedule (liveRecords w.checkpoint (w.standalone op false).log) =
      schedule (liveRecords w.checkpoint w.log) ++ [.apply op, .note w.counters.sequence] := by
  rw [show (w.standalone op false).log = (w.append standaloneTransactionId (.mutation op)).log from rfl,
    liveRecords_writerAppend h, schedule_concat fun hne => absurd rfl hne]
  rfl

/-- The frame that is open has no COMMIT. -/
theorem not_commit_of_open (h : w.Inv) {f : StagedCommit} (hframe : w.frame = some f)
    (hopen : f.commitSequence = none) :
    ∀ r ∈ liveRecords w.checkpoint w.log, r.transactionId = f.transactionId →
      r.operation ≠ .commit := by
  intro r hr hid hcommit
  obtain ⟨b, muts, hrecords, hb, -, hmuts⟩ := (h.frame f hframe hopen).records
  have hmem : r ∈ frameOf w.log f.transactionId := mem_frameOf.2 ⟨(mem_liveRecords.1 hr).1, hid⟩
  rw [hrecords] at hmem
  rcases List.mem_cons.1 hmem with rfl | hmem
  · rw [hcommit] at hb
    cases hb
  · have hcontrol := hmuts r hmem
    rw [hcommit] at hcontrol
    cases hcontrol

/-- BEGIN replays nothing. -/
theorem schedule_openFrame (h : w.Inv) :
    schedule (liveRecords w.checkpoint w.openFrame.log) = schedule (liveRecords w.checkpoint w.log) ∧
      mutationsOf (liveRecords w.checkpoint w.openFrame.log) w.counters.transactionId = [] := by
  have hlog : liveRecords w.checkpoint w.openFrame.log = liveRecords w.checkpoint w.log ++
      [⟨walFormatVersion, w.counters.sequence, w.counters.transactionId, w.counters.operationId,
        .begin⟩] := liveRecords_writerAppend h w.counters.transactionId .begin
  have hnew : ∀ r ∈ liveRecords w.checkpoint w.log, r.transactionId ≠ w.counters.transactionId :=
    fun r hr => (h.log.below r (mem_liveRecords.1 hr).1).2.ne
  have hid : w.counters.transactionId ≠ standaloneTransactionId := h.log.positive.2.1.ne'
  constructor
  · rw [hlog, schedule_concat fun _ r hr hr' => absurd hr' (hnew r hr), effectsAt, if_neg hid,
      List.append_nil]
  have hnil : frameOf (liveRecords w.checkpoint w.log) w.counters.transactionId = [] := by
    refine List.eq_nil_iff_forall_not_mem.2 fun r hr => ?_
    exact hnew r (mem_frameOf.1 hr).1 (mem_frameOf.1 hr).2
  rw [hlog, mutationsOf_append, mutationsOf, hnil]
  simp [mutationsOf, frameOf, WalOperation.mutation?]

section Frame

variable {w : Writer Operation} (h : w.Inv) {f : StagedCommit} (hframe : w.frame = some f)
  (hopen : f.commitSequence = none)
include h hframe hopen

/-- A mutation in a frame is not replayed yet. -/
theorem schedule_stage (op : Operation) :
    schedule (liveRecords w.checkpoint (w.stage f op).log) =
        schedule (liveRecords w.checkpoint w.log) ∧
      mutationsOf (liveRecords w.checkpoint (w.stage f op).log) f.transactionId =
        mutationsOf (liveRecords w.checkpoint w.log) f.transactionId ++ [op] := by
  have hlog : liveRecords w.checkpoint (w.stage f op).log = liveRecords w.checkpoint w.log ++
      [⟨walFormatVersion, w.counters.sequence, f.transactionId, w.counters.operationId,
        .mutation op⟩] := liveRecords_writerAppend h f.transactionId (.mutation op)
  constructor
  · rw [hlog, schedule_concat fun _ r hr hr' => not_commit_of_open h hframe hopen r hr hr', effectsAt,
      if_neg (h.frame f hframe hopen).id_ne, List.append_nil]
  · rw [hlog, mutationsOf_append]
    simp [mutationsOf, frameOf, WalOperation.mutation?]

theorem schedule_commit :
    schedule (liveRecords w.checkpoint (w.commit f).log) = schedule (liveRecords w.checkpoint w.log) ++
      ((mutationsOf (liveRecords w.checkpoint w.log) f.transactionId).map .apply ++
        [.note w.counters.sequence]) := by
  have hlog : liveRecords w.checkpoint (w.commit f).log = liveRecords w.checkpoint w.log ++
      [⟨walFormatVersion, w.counters.sequence, f.transactionId, w.counters.operationId, .commit⟩] :=
    liveRecords_writerAppend h f.transactionId .commit
  have hinv := h.commit hframe hopen
  have hsound := hinv.log.live (hinv.marks _ (.inl rfl)).1
  rw [show (w.commit f).checkpoint = w.checkpoint from rfl, hlog] at hsound
  have hcommitted := hsound.committedIn (List.mem_append_right _ List.mem_cons_self) rfl
  rw [hlog, schedule_concat fun _ r hr hr' => not_commit_of_open h hframe hopen r hr hr', effectsAt,
    if_neg (h.frame f hframe hopen).id_ne]
  simp only [hcommitted, if_true]
  rw [mutationsOf_append]
  simp [mutationsOf, frameOf, WalOperation.mutation?]

end Frame

/-! ## Mutations -/

section

variable (h : e.Recoverable)
include h

theorem Recoverable.ready (hphase : e.phase = .ready) :
    e.recovered = e.mem.view ∧ e.Settled [] := by
  have ⟨_, hcurrent, hnow⟩ := h
  simp only [current, PhaseRecoverable, hphase] at hcurrent hnow
  exact ⟨hcurrent, hnow⟩

/-- A mutation is logged on its own. -/
theorem Recoverable.standalone (hphase : e.phase = .ready) (hframe : e.writer.frame = none)
    (op : Operation) : Recoverable { e with
      writer := e.writer.standalone op false
      phase := .applying [op] e.writer.counters.sequence } := by
  obtain ⟨hrecovered, hsettled⟩ := h.ready hphase
  have hschedule := schedule_standalone h.sound.writer op
  refine ⟨h.sound.write (.standalone hphase hframe op), ?_, fun b hb => ?_, fun s hs => ?_⟩
  · change writes e.disk.view (effectWrites (schedule (liveRecords e.writer.checkpoint _))) =
      writes e.mem.view [op.toWrite]
    rw [hschedule, effectWrites_append, writes_append]
    exact congrArg (writes · [op.toWrite]) hrecovered
  · replace hb : b ∈ e.writer.fences := hb
    rw [hsettled.fences] at hb
    cases hb
  · replace hs : .note s ∈ schedule e.live ++ [.apply op, .note e.writer.counters.sequence] :=
      hschedule ▸ hs
    rcases List.mem_append.1 hs with hs | hs
    · exact .inr ((hsettled.noted s hs).resolve_left List.not_mem_nil)
    · simp only [List.mem_cons, reduceCtorEq, Effect.note.injEq, List.not_mem_nil, or_false,
        false_or] at hs
      exact .inl hs

theorem Recoverable.openFrame (hphase : e.phase = .ready) (hframe : e.writer.frame = none) :
    Recoverable { e with writer := e.writer.openFrame, phase := .staging [] } := by
  obtain ⟨hrecovered, hsettled⟩ := h.ready hphase
  obtain ⟨hschedule, hops⟩ := schedule_openFrame h.sound.writer
  refine ⟨h.sound.write (.openFrame hphase hframe), ?_, _, rfl, rfl, fun b hb => ?_, hops, fun s hs => ?_⟩
  · exact (congrArg (fun es => writes e.disk.view (effectWrites es)) hschedule).trans hrecovered
  · replace hb : b ∈ insert e.writer.counters.sequence e.writer.fences := hb
    rw [hsettled.fences] at hb
    exact Finset.mem_singleton.1 hb
  · exact (hsettled.noted s (hschedule ▸ hs)).resolve_left List.not_mem_nil

theorem Recoverable.staging {ops : List Operation} (hphase : e.phase = .staging ops)
    {f : StagedCommit} (hframe : e.writer.frame = some f) :
    e.recovered = e.mem.view ∧ e.Staged ops f := by
  have ⟨_, hcurrent, hnow⟩ := h
  simp only [current, PhaseRecoverable, hphase] at hcurrent hnow
  obtain ⟨g, hstaged⟩ := hnow
  obtain rfl : g = f := Option.some.inj (hstaged.frame.symm.trans hframe)
  exact ⟨hcurrent, hstaged⟩

theorem Recoverable.stage {ops : List Operation} (hphase : e.phase = .staging ops)
    {f : StagedCommit} (hframe : e.writer.frame = some f) (hopen : f.commitSequence = none)
    (op : Operation) :
    Recoverable { e with writer := e.writer.stage f op, phase := .staging (ops ++ [op]) } := by
  obtain ⟨hrecovered, hstaged⟩ := h.staging hphase hframe
  obtain ⟨hschedule, hops⟩ := schedule_stage h.sound.writer hframe hopen op
  refine ⟨h.sound.write (.stage hphase hframe hopen op), ?_, f, hframe, hopen, hstaged.fences,
    hops.trans (congrArg (· ++ [op]) hstaged.ops), fun s hs => hstaged.noted s (hschedule ▸ hs)⟩
  exact (congrArg (fun es => writes e.disk.view (effectWrites es)) hschedule).trans hrecovered

/-- The COMMIT of a frame is logged: from here on recovery has its operations. -/
theorem Recoverable.commit {ops : List Operation} (hphase : e.phase = .staging ops)
    {f : StagedCommit} (hframe : e.writer.frame = some f) (hopen : f.commitSequence = none) :
    Recoverable { e with
      writer := e.writer.commit f
      phase := .applying ops e.writer.counters.sequence } := by
  obtain ⟨hrecovered, hstaged⟩ := h.staging hphase hframe
  have hschedule := schedule_commit h.sound.writer hframe hopen
  rw [show mutationsOf (liveRecords e.writer.checkpoint e.writer.log) f.transactionId = ops from
    hstaged.ops] at hschedule
  refine ⟨h.sound.write (.commit hphase hframe hopen), ?_, fun b hb => ?_, fun s hs => ?_⟩
  · change writes e.disk.view (effectWrites (schedule (liveRecords e.writer.checkpoint _))) =
      writes e.mem.view (ops.map Operation.toWrite)
    rw [hschedule, effectWrites_append, effectWrites_applies, writes_append]
    exact congrArg (writes · (ops.map Operation.toWrite)) hrecovered
  · exact ⟨_, rfl, hstaged.fences b hb⟩
  · replace hs : .note s ∈ schedule e.live ++ (ops.map Effect.apply ++
        [.note e.writer.counters.sequence]) := hschedule ▸ hs
    rcases List.mem_append.1 hs with hs | hs
    · exact .inr (hstaged.noted s hs)
    · simp only [List.mem_append, List.mem_map, reduceCtorEq, and_false, exists_false, false_or,
        List.mem_singleton, Effect.note.injEq] at hs
      exact .inl hs

/-- What has been applied is noted. -/
theorem Recoverable.settle {sequence : Nat} (hphase : e.phase = .applying [] sequence) :
    (e.settle sequence).Recoverable := by
  have ⟨_, hcurrent, hnow⟩ := h
  simp only [current, PhaseRecoverable, hphase] at hcurrent hnow
  have hwriter : (e.settle sequence).writer.frame = none ∧ (e.settle sequence).writer.fences = ∅ ∧
      (e.settle sequence).writer.applied = max e.writer.applied sequence ∧
      (e.settle sequence).live = e.live := by
    rw [live, live, Engine.settle]
    rcases hframe : e.writer.frame with _ | f
    · refine ⟨hframe, Finset.eq_empty_of_forall_notMem fun b hb => ?_, rfl, rfl⟩
      obtain ⟨f, hf, -⟩ := hnow.fences b hb
      rw [hframe] at hf
      cases hf
    refine ⟨rfl, Finset.eq_empty_of_forall_notMem fun b hb => ?_, rfl, rfl⟩
    obtain ⟨hne, hb⟩ := Finset.mem_erase.1 hb
    obtain ⟨g, hg, rfl⟩ := hnow.fences b hb
    rw [hframe] at hg
    exact hne (congrArg StagedCommit.beginSequence (Option.some.inj hg)).symm
  obtain ⟨hframe, hfences, happlied, hlive⟩ := hwriter
  refine ⟨h.sound.write (.settle hphase), ?_, hframe, hfences, fun s hs => .inr ?_⟩
  · rw [Engine.recovered, hlive]
    exact hcurrent
  · rw [happlied]
    rcases hnow.noted s (hlive ▸ hs) with rfl | hle
    · exact le_max_right _ _
    · exact hle.trans (le_max_left _ _)

end

theorem view_apply (h : e.Sound) {op : Operation} {fresh : RecordLocation} {mem : Storage}
    (hfresh : e.mem.heap fresh = none) (happly : Storage.applyOperation fresh e.mem op = .ok mem)
    (ws : List (LiveKey × Option HeapRecord)) :
    writes mem.view ws = writes e.mem.view (op.toWrite :: ws) := by
  obtain ⟨mem', hok, -, hview, -⟩ := Storage.applyOperation_spec h.mem hfresh op
  obtain rfl : mem' = mem := Except.ok.inj (hok.symm.trans happly)
  rw [hview, writes_cons]

theorem Recoverable.write (h : e.Recoverable) (hstep : WriteStep e e') : e'.Recoverable := by
  have hsound := h.sound.write hstep
  cases hstep with
  | standalone hphase hframe op => exact h.standalone hphase hframe op
  | openFrame hphase hframe => exact h.openFrame hphase hframe
  | stage hphase hframe hopen op => exact h.stage hphase hframe hopen op
  | commit hphase hframe hopen => exact h.commit hphase hframe hopen
  | apply hphase hfresh happly =>
    have ⟨_, hcurrent, hnow⟩ := h
    simp only [current, PhaseRecoverable, hphase] at hcurrent hnow
    exact ⟨hsound, hcurrent.trans (view_apply h.sound hfresh happly _).symm, hnow.fences, hnow.noted⟩
  | settle hphase => exact h.settle hphase
  | sync sequence hdurable hlogged =>
    exact ⟨hsound, h.recovered, h.phase.congr rfl rfl rfl rfl rfl⟩
  | burn operationId hle => exact ⟨hsound, h.recovered, h.phase.congr rfl rfl rfl rfl rfl⟩
  | checkpoint hphase hframe =>
    obtain ⟨hrecovered, hsettled⟩ := h.ready hphase
    exact ⟨hsound, hrecovered, hsettled.congr rfl rfl rfl rfl⟩

/-! ## Checkpoints -/

/-- Trees on disk that hold what recovery gets to, wherever they differ from before. -/
theorem writes_of_mixed {disk disk' target : LiveKey → Option HeapRecord}
    {ws : List (LiveKey × Option HeapRecord)} (hdisk : writes disk ws = target)
    (hmixed : ∀ key, disk' key = disk key ∨ disk' key = target key) : writes disk' ws = target := by
  funext key
  by_cases hkey : key ∈ ws.map Prod.fst
  · exact (writes_congr hkey).trans (congrFun hdisk key)
  · have hsame : disk key = target key := by rw [← hdisk, writes_of_notMem hkey]
    rw [writes_of_notMem hkey]
    exact (hmixed key).elim (fun h => h.trans hsame) id

theorem Recoverable.committing (h : e.Recoverable) {trees : List Tree}
    (hphase : e.phase = .committing drained trees) : e.recovered = e.mem.view ∧ e.Settled [] := by
  have ⟨_, hcurrent, hnow⟩ := h
  simp only [current, PhaseRecoverable, hphase] at hcurrent hnow
  exact ⟨hcurrent, hnow⟩

theorem Recoverable.recovered_commitTree (h : e.Recoverable) {tree : Tree} {trees : List Tree}
    (hphase : e.phase = .committing drained (tree :: trees)) :
    Engine.recovered { e with
      disk := { e.disk with indexes := e.disk.indexes.commitTree e.mem.indexes tree }
      phase := .committing drained trees } = e.recovered := by
  have hheap : e.disk.heap = e.mem.heap := by
    have hcommit := h.sound.phase
    rw [PhaseSound, hphase] at hcommit
    exact hcommit.2.1
  refine writes_of_mixed rfl fun key => ?_
  rw [Storage.view, currentLocation_commitTree]
  split
  · right
    rw [(h.committing hphase).1, Storage.view, ← hheap]
  · exact .inl rfl

/-- The checkpoint is written: everything is on disk, and nothing is left to replay. -/
theorem Recoverable.live_advance (h : e.Recoverable) (hphase : e.phase = .committing drained []) :
    schedule (live { e with writer := e.writer.advance, phase := .advanced drained }) = [] ∧
      e.disk.view = e.mem.view := by
  obtain ⟨-, hsettled⟩ := h.committing hphase
  have hcommit := h.sound.phase
  rw [PhaseSound, hphase] at hcommit
  obtain ⟨-, hheap, hsame⟩ := hcommit
  constructor
  · have hlive : live { e with writer := e.writer.advance, phase := .advanced drained } =
        liveRecords e.writer.advance.checkpoint e.writer.log := by
      rw [live]
      rw [Writer.advance_eq]
    rw [hlive]
    refine (h.sound.writer.log.live (h.sound.writer.marks _ (.inl rfl)).1).schedule_eq_nil
      Writer.checkpoint_le_advance fun s hs => ?_
    exact ((hsettled.noted s hs).resolve_left List.not_mem_nil).trans
      (Writer.applied_le_advance hsettled.fences)
  · funext key
    rw [Storage.view, Storage.view, hheap, hsame key List.not_mem_nil]

theorem Recoverable.advance (h : e.Recoverable) (hphase : e.phase = .committing drained []) :
    Recoverable { e with writer := e.writer.advance, phase := .advanced drained } ∧
    Engine.recovered { e with writer := e.writer.advance, phase := .advanced drained } =
      e.recovered := by
  obtain ⟨hrecovered, hsettled⟩ := h.committing hphase
  obtain ⟨hnil, hview⟩ := h.live_advance hphase
  have hdisk : Engine.recovered { e with writer := e.writer.advance, phase := .advanced drained } =
      e.mem.view := by
    rw [Engine.recovered, hnil]
    exact hview
  refine ⟨⟨h.sound.checkpointStep (.advance hphase), hdisk, ?_, ?_, fun s hs => ?_⟩,
    hdisk.trans hrecovered.symm⟩
  · rw [Writer.advance_eq]
    exact hsettled.frame
  · rw [Writer.advance_eq]
    exact hsettled.fences
  · rw [hnil] at hs
    cases hs

theorem Recoverable.checkpointStep (h : e.Recoverable) (hstep : CheckpointStep e e') :
    e'.Recoverable ∧ e'.recovered = e.recovered := by
  have hsound := h.sound.checkpointStep hstep
  have ⟨_, hcurrent, hnow⟩ := h
  cases hstep with
  | relocate hphase hfresh hsegment hrecord hlive =>
    simp only [current, PhaseRecoverable, hphase] at hcurrent hnow
    obtain ⟨-, hview, -⟩ := Storage.relocate_spec h.sound.mem hfresh hrecord hlive
    refine ⟨⟨hsound, ?_, ?_⟩, rfl⟩
    · simp only [current, hphase]
      exact hcurrent.trans hview.symm
    · simp only [PhaseRecoverable, hphase]
      exact hnow.congr rfl rfl rfl rfl
  | drain hphase | finish hphase =>
    simp only [current, PhaseRecoverable, hphase] at hcurrent hnow
    exact ⟨⟨hsound, hcurrent, hnow.congr rfl rfl rfl rfl⟩, rfl⟩
  | sync hphase =>
    simp only [current, PhaseRecoverable, hphase] at hcurrent hnow
    have hview := (h.sound.disk.view_mono ⟨e.mem.heap, e.disk.indexes⟩ rfl h.sound.heap).2
    have hsame := congrArg (writes · (effectWrites (schedule e.live))) hview
    exact ⟨⟨hsound, hsame.trans hcurrent, hnow.congr rfl rfl rfl rfl⟩, hsame⟩
  | commitTree hphase =>
    obtain ⟨hrecovered, hsettled⟩ := h.committing hphase
    have hsame := h.recovered_commitTree hphase
    exact ⟨⟨hsound, hsame.trans hrecovered, hsettled.congr rfl rfl rfl rfl⟩, hsame⟩
  | advance hphase => exact h.advance hphase
  | rotate hphase =>
    simp only [current, PhaseRecoverable, hphase] at hcurrent hnow
    have hlive : liveRecords e.writer.checkpoint (rotate e.writer.checkpoint e.writer.log) = e.live :=
      liveRecords_liveRecords _ _
    have hsame := congrArg (fun l => writes e.disk.view (effectWrites (schedule l))) hlive
    refine ⟨⟨hsound, ?_, ?_⟩, hsame⟩
    · simp only [current, hphase]
      exact hsame.trans hcurrent
    · simp only [PhaseRecoverable, hphase]
      exact hnow.congr rfl rfl rfl hlive
  | dropSegment hphase hsegment =>
    simp only [current, PhaseRecoverable, hphase] at hcurrent hnow
    obtain ⟨⟨-, hmem⟩, -, hdisk⟩ := h.sound.dropSegment hphase hsegment
    have hsame := congrArg (writes · (effectWrites (schedule e.live))) hdisk
    refine ⟨⟨hsound, ?_, ?_⟩, hsame⟩
    · rw [current, show (e.dropSegment _).phase = e.phase from rfl, hphase]
      exact (hsame.trans hcurrent).trans hmem.symm
    · rw [PhaseRecoverable, show (e.dropSegment _).phase = e.phase from rfl, hphase]
      exact hnow.congr rfl rfl rfl rfl

theorem Recoverable.recovery (h : e.Recoverable) (hstep : RecoveryStep e e') :
    e'.Recoverable ∧ e'.recovered = e.recovered := by
  have hsound := h.sound.recovery hstep
  have ⟨_, hcurrent, hnow⟩ := h
  cases hstep with
  | apply hphase hfresh happly =>
    simp only [current, PhaseRecoverable, hphase] at hcurrent hnow
    refine ⟨⟨hsound, hcurrent.trans (view_apply h.sound hfresh happly _).symm, hnow.frame, hnow.fences,
      fun s hs => (hnow.noted s hs).imp_left fun hmem => ?_⟩, rfl⟩
    exact (List.mem_cons.1 hmem).resolve_left (by simp)
  | note hphase =>
    simp only [current, PhaseRecoverable, hphase] at hcurrent hnow
    refine ⟨⟨hsound, hcurrent, hnow.frame, hnow.fences, fun s hs => ?_⟩, rfl⟩
    rcases hnow.noted s hs with hmem | hle
    · rcases List.mem_cons.1 hmem with heq | hmem
      · exact .inr (Effect.note.inj heq ▸ le_max_right _ _)
      · exact .inl hmem
    · exact .inr (hle.trans (le_max_left _ _))
  | checkpoint hphase =>
    simp only [current, PhaseRecoverable, hphase] at hcurrent hnow
    exact ⟨⟨hsound, hcurrent, hnow.congr rfl rfl rfl rfl⟩, rfl⟩
  | step hstep => exact h.checkpointStep hstep

theorem Recoverable.recoverySteps (h : e.Recoverable)
    (hsteps : Relation.ReflTransGen RecoveryStep e e') :
    e'.Recoverable ∧ e'.recovered = e.recovered := by
  induction hsteps with
  | refl => exact ⟨h, rfl⟩
  | tail _ hstep ih => exact (ih.1.recovery hstep).imp_right fun heq => heq.trans ih.2

/-! ## Crashes -/

theorem crash_view (h : e.Sound) (keep : Nat) {heap : Heap} (hheap : e.HeapSurvives heap) :
    (e.crash keep heap).disk.view = e.disk.view :=
  (h.disk.view_mono ⟨heap, e.disk.indexes⟩ rfl hheap.1).2

theorem recoverable_crash (h : e.Sound) (keep : Nat) {heap : Heap} (hheap : e.HeapSurvives heap) :
    (e.crash keep heap).Recoverable where
  sound := h.crash keep hheap
  recovered := rfl
  phase := ⟨rfl, rfl, fun _ hs => .inl hs⟩

/-- A crash that loses nothing of the log does not change where recovery gets to. -/
theorem recovered_crash (h : e.Sound) {keep : Nat} (hkeep : e.writer.log.take keep = e.writer.log)
    {heap : Heap} (hheap : e.HeapSurvives heap) : (e.crash keep heap).recovered = e.recovered := by
  have hlive : (e.crash keep heap).live = e.live := congrArg (liveRecords _) hkeep
  rw [recovered, hlive, crash_view h keep hheap]
  rfl

theorem Recoverable.step (h : e.Recoverable) (hstep : Step e e') : e'.Recoverable := by
  cases hstep with
  | write hstep => exact h.write hstep
  | recovery hstep => exact (h.recovery hstep).1
  | crash keep hkeep heap hheap => exact recoverable_crash h.sound keep hheap

theorem recoverable_steps (hsteps : Steps .empty e) : e.Recoverable := by
  induction hsteps with
  | refl => exact recoverable_empty
  | tail _ hstep ih => exact ih.step hstep

end Engine

end FacetQL
