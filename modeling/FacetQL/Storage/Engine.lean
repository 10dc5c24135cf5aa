import FacetQL.Storage.OperationId
import FacetQL.Storage.Segments

/-!
# The storage engine

The mutations, the checkpoint and the recovery of `storage/engine.rs`, step by step. A
checkpoint moves the live records out of some segments, flushes the heap, commits the
trees one after the other, writes the checkpoint, rotates the log, and removes the
segments it has emptied. A crash leaves the committed trees, what has been flushed of
the heap and perhaps more of it, and a beginning of the log.
-/

namespace FacetQL

/-- The trees of the base indexes. -/
inductive Tree
  | primary
  | kind
  | owner
  | edgeOut
  | edgeIn
  | history
  deriving DecidableEq, Repr

/-- Publish what is in memory of one tree. -/
def Indexes.commitTree (disk mem : Indexes) : Tree → Indexes
  | .primary => { disk with primary := mem.primary }
  | .kind => { disk with kind := mem.kind }
  | .owner => { disk with owner := mem.owner }
  | .edgeOut => { disk with edgeOut := mem.edgeOut }
  | .edgeIn => { disk with edgeIn := mem.edgeIn }
  | .history => { disk with history := mem.history }

/-- The tree that a record is found by. -/
def LiveKey.tree : LiveKey → Tree
  | .node _ => .primary
  | .edge _ => .edgeOut
  | .history _ _ => .history

theorem currentLocation_commitTree (disk mem : Indexes) (tree : Tree) (key : LiveKey) :
    key.currentLocation (disk.commitTree mem tree) =
      if key.tree = tree then key.currentLocation mem else key.currentLocation disk := by
  cases tree <;> cases key <;> rfl

/-- The order in which `Indexes::commit` publishes the trees. -/
def commitOrder : List Tree := [.primary, .kind, .owner, .edgeOut, .edgeIn, .history]

/-- Where the thread that holds the writer lock has got to. -/
inductive Phase
  /-- Between two mutations. -/
  | ready
  /-- A frame is open, with the operations it has logged. -/
  | staging (ops : List Operation)
  /-- What is logged up to `sequence` is applied; these operations are left. -/
  | applying (ops : List Operation) (sequence : Nat)
  /-- Recovery; these steps of the replay are left. -/
  | replaying (effects : List (Effect Operation))
  /-- A checkpoint; the live records of these segments have been moved. -/
  | compacting (drained : List Nat)
  /-- The heap is flushed; these trees are left to commit. -/
  | committing (drained : List Nat) (trees : List Tree)
  /-- The checkpoint is written. -/
  | advanced (drained : List Nat)

/-- The engine: what is in memory, what is on disk, and the log between them. -/
structure Engine where
  writer : Writer Operation
  /-- The last sequence number that a completed flush of the log covers. -/
  durable : Nat
  mem : Storage
  disk : Storage
  phase : Phase

namespace Engine

/-- A new database. -/
def empty : Engine :=
  let storage : Storage := ⟨fun _ => none, ⟨fun _ => none, fun _ => none, fun _ => none, fun _ => none,
    fun _ => none, fun _ => none⟩⟩
  ⟨.empty, 0, storage, storage, .ready⟩

/-- What has been applied is noted, and its frame settled if there is one. -/
def settle (e : Engine) (sequence : Nat) : Engine :=
  { e with
    writer := match e.writer.frame with
      | some f => e.writer.settle f sequence
      | none => e.writer.noteApplied sequence
    phase := .ready }

/-- Remove a segment from the heap, in memory and on disk. -/
def dropSegment (e : Engine) (segment : Nat) : Engine :=
  { e with
    mem := { e.mem with heap := e.mem.heap.dropSegments [segment] }
    disk := { e.disk with heap := e.disk.heap.dropSegments [segment] } }

/-- The steps of a mutation. -/
inductive WriteStep : Engine → Engine → Prop
  | standalone {e : Engine} (hphase : e.phase = .ready) (hframe : e.writer.frame = none)
      (op : Operation) :
      WriteStep e { e with
        writer := e.writer.standalone op false
        phase := .applying [op] e.writer.counters.sequence }
  | openFrame {e : Engine} (hphase : e.phase = .ready) (hframe : e.writer.frame = none) :
      WriteStep e { e with writer := e.writer.openFrame, phase := .staging [] }
  | stage {e : Engine} {ops : List Operation} {f : StagedCommit} (hphase : e.phase = .staging ops)
      (hframe : e.writer.frame = some f) (hopen : f.commitSequence = none) (op : Operation) :
      WriteStep e { e with writer := e.writer.stage f op, phase := .staging (ops ++ [op]) }
  | commit {e : Engine} {ops : List Operation} {f : StagedCommit} (hphase : e.phase = .staging ops)
      (hframe : e.writer.frame = some f) (hopen : f.commitSequence = none) :
      WriteStep e { e with
        writer := e.writer.commit f
        phase := .applying ops e.writer.counters.sequence }
  | apply {e : Engine} {op : Operation} {ops : List Operation} {sequence : Nat}
      (hphase : e.phase = .applying (op :: ops) sequence) {fresh : RecordLocation}
      (hfresh : e.mem.heap fresh = none) {mem : Storage}
      (happly : Storage.applyOperation fresh e.mem op = .ok mem) :
      WriteStep e { e with mem := mem, phase := .applying ops sequence }
  | settle {e : Engine} {sequence : Nat} (hphase : e.phase = .applying [] sequence) :
      WriteStep e (e.settle sequence)
  /-- A flush of the log that began when `sequence` was the last one in it. -/
  | sync {e : Engine} (sequence : Nat) (hdurable : e.durable ≤ sequence)
      (hlogged : sequence < e.writer.counters.sequence) : WriteStep e { e with durable := sequence }
  /-- Operation ids that are taken for versions and events. -/
  | burn {e : Engine} (operationId : Nat) (hle : e.writer.counters.operationId ≤ operationId) :
      WriteStep e { e with writer := { e.writer with
        counters := { e.writer.counters with operationId := operationId } } }
  | checkpoint {e : Engine} (hphase : e.phase = .ready) (hframe : e.writer.frame = none) :
      WriteStep e { e with phase := .compacting [] }

/-- The steps of a checkpoint. -/
inductive CheckpointStep : Engine → Engine → Prop
  /-- A live record is moved out of a segment. -/
  | relocate {e : Engine} {drained : List Nat} (hphase : e.phase = .compacting drained)
      {fresh location : RecordLocation} {record : HeapRecord} (hfresh : e.mem.heap fresh = none)
      (hsegment : fresh.segment ∉ drained) (hrecord : e.mem.heap location = some record)
      (hlive : (LiveKey.of record).currentLocation e.mem.indexes = some location) :
      CheckpointStep e { e with mem := e.mem.relocate fresh record }
  /-- No record in the segment is live any more. -/
  | drain {e : Engine} {drained : List Nat} (hphase : e.phase = .compacting drained) {segment : Nat}
      (hdead : e.mem.Dead segment) : CheckpointStep e { e with phase := .compacting (segment :: drained) }
  | sync {e : Engine} {drained : List Nat} (hphase : e.phase = .compacting drained) :
      CheckpointStep e { e with
        disk := { e.disk with heap := e.mem.heap }
        phase := .committing drained commitOrder }
  | commitTree {e : Engine} {drained : List Nat} {tree : Tree} {trees : List Tree}
      (hphase : e.phase = .committing drained (tree :: trees)) :
      CheckpointStep e { e with
        disk := { e.disk with indexes := e.disk.indexes.commitTree e.mem.indexes tree }
        phase := .committing drained trees }
  | advance {e : Engine} {drained : List Nat} (hphase : e.phase = .committing drained []) :
      CheckpointStep e { e with writer := e.writer.advance, phase := .advanced drained }
  | rotate {e : Engine} {drained : List Nat} (hphase : e.phase = .advanced drained) :
      CheckpointStep e { e with
        writer := { e.writer with log := rotate e.writer.checkpoint e.writer.log }
        durable := e.writer.counters.sequence - 1 }
  | dropSegment {e : Engine} {drained : List Nat} (hphase : e.phase = .advanced drained)
      {segment : Nat} (hsegment : segment ∈ drained) : CheckpointStep e (e.dropSegment segment)
  | finish {e : Engine} {drained : List Nat} (hphase : e.phase = .advanced drained) :
      CheckpointStep e { e with phase := .ready }

/-- The steps of recovery. -/
inductive RecoveryStep : Engine → Engine → Prop
  | apply {e : Engine} {op : Operation} {effects : List (Effect Operation)}
      (hphase : e.phase = .replaying (.apply op :: effects)) {fresh : RecordLocation}
      (hfresh : e.mem.heap fresh = none) {mem : Storage}
      (happly : Storage.applyOperation fresh e.mem op = .ok mem) :
      RecoveryStep e { e with mem := mem, phase := .replaying effects }
  | note {e : Engine} {sequence : Nat} {effects : List (Effect Operation)}
      (hphase : e.phase = .replaying (.note sequence :: effects)) :
      RecoveryStep e { e with
        writer := e.writer.noteApplied sequence
        phase := .replaying effects }
  | checkpoint {e : Engine} (hphase : e.phase = .replaying []) :
      RecoveryStep e { e with phase := .compacting [] }
  | step {e e' : Engine} (h : CheckpointStep e e') : RecoveryStep e e'

/-- What a crash can leave of the log: what the last flush covers, and any more of it. -/
def LogSurvives (e : Engine) (keep : Nat) : Prop :=
  ∀ r ∈ e.writer.log, r.sequence ≤ e.durable → r ∈ e.writer.log.take keep

/-- What a crash can leave of the heap: what the last flush covers, and any more of it. -/
def HeapSurvives (e : Engine) (heap : Heap) : Prop :=
  Storage.HeapLe e.disk.heap heap ∧ Storage.HeapLe heap e.mem.heap

/-- The next process, on the first `keep` records, flushed no further than before, and this heap. -/
def crash (e : Engine) (keep : Nat) (heap : Heap) : Engine :=
  let writer := { e.writer.restart keep with applied := 0 }
  let storage : Storage := ⟨heap, e.disk.indexes⟩
  { writer := writer
    durable := min e.durable (writer.counters.sequence - 1)
    mem := storage
    disk := storage
    phase := .replaying (schedule (liveRecords e.writer.checkpoint (e.writer.log.take keep))) }

/-- The steps of the engine. -/
inductive Step : Engine → Engine → Prop
  | write {e e' : Engine} (h : WriteStep e e') : Step e e'
  | recovery {e e' : Engine} (h : RecoveryStep e e') : Step e e'
  | crash {e : Engine} (keep : Nat) (hkeep : e.LogSurvives keep) (heap : Heap)
      (hheap : e.HeapSurvives heap) : Step e (e.crash keep heap)

/-- A run of the engine. -/
abbrev Steps : Engine → Engine → Prop := Relation.ReflTransGen Step

/-! ## The indexes lead to records -/

/-- A record whose application is to be noted. -/
def Noted (e : Engine) (sequence : Nat) : Prop :=
  ∃ r ∈ e.writer.log, (r.transactionId = standaloneTransactionId ∨ r.operation = .commit) ∧
    sequence = r.sequence

/-- What holds at each point of the writer. -/
def PhaseSound (e : Engine) : Prop :=
  match e.phase with
  | .ready => True
  | .staging _ => True
  | .applying _ sequence => e.Noted sequence ∧
      ∀ f, e.writer.frame = some f → f.commitSequence = some sequence
  | .replaying effects => ∀ sequence, .note sequence ∈ effects → e.Noted sequence
  | .compacting drained => ∀ segment ∈ drained, e.mem.indexes.Unreferenced segment
  | .committing drained trees => (∀ segment ∈ drained, e.mem.indexes.Unreferenced segment) ∧
      e.disk.heap = e.mem.heap ∧ ∀ key : LiveKey, key.tree ∉ trees →
        key.currentLocation e.disk.indexes = key.currentLocation e.mem.indexes
  | .advanced drained => (∀ segment ∈ drained, e.mem.indexes.Unreferenced segment) ∧
      e.disk.heap = e.mem.heap ∧
      ∀ key : LiveKey, key.currentLocation e.disk.indexes = key.currentLocation e.mem.indexes

/-- What holds of the engine between two of its steps. -/
structure Sound (e : Engine) : Prop where
  writer : e.writer.Inv
  mem : e.mem.WellPointed
  disk : e.disk.WellPointed
  heap : Storage.HeapLe e.disk.heap e.mem.heap
  bounded : ∃ n, ∀ location, n ≤ location.segment → e.mem.heap location = none
  phase : e.PhaseSound

variable {e e' : Engine}

theorem sound_empty : empty.Sound where
  writer := Writer.inv_empty
  mem key location h := by cases key <;> cases h
  disk key location h := by cases key <;> cases h
  heap := Storage.HeapLe.refl _
  bounded := ⟨0, fun _ _ => rfl⟩
  phase := trivial

theorem Noted.mark {sequence : Nat} (h : e.Noted sequence) : e.writer.Mark sequence := by
  obtain ⟨r, hr, hop, rfl⟩ := h
  exact .inr (.inr (.inr (.inl ⟨r, hr, hop, rfl⟩)))

/-- An operation is applied in memory. -/
theorem Sound.apply (h : e.Sound) {op : Operation} {fresh : RecordLocation} {mem : Storage}
    (hfresh : e.mem.heap fresh = none) (happly : Storage.applyOperation fresh e.mem op = .ok mem)
    {phase : Phase} (hphase : PhaseSound { e with mem := mem, phase := phase }) :
    Sound { e with mem := mem, phase := phase } := by
  obtain ⟨mem', hok, hwell, -, hle, hnew⟩ := Storage.applyOperation_spec h.mem hfresh op
  obtain rfl : mem' = mem := Except.ok.inj (hok.symm.trans happly)
  exact ⟨h.writer, hwell, h.disk, h.heap.trans hle, Storage.bounded_of_new h.bounded hnew, hphase⟩

theorem Sound.write (h : e.Sound) (hstep : WriteStep e e') : e'.Sound := by
  cases hstep with
  | standalone hphase hframe op =>
    refine { h with writer := h.writer.standalone hframe op false, phase := ⟨?_, fun f hf => ?_⟩ }
    · exact ⟨_, List.mem_append_right _ List.mem_cons_self, .inl rfl, rfl⟩
    · exact absurd (hframe.symm.trans hf) (Option.some_ne_none f).symm
  | openFrame hphase hframe => exact { h with writer := h.writer.openFrame, phase := trivial }
  | stage hphase hframe hopen op =>
    exact { h with writer := h.writer.stage hframe hopen op, phase := trivial }
  | commit hphase hframe hopen =>
    refine { h with writer := h.writer.commit hframe hopen, phase := ⟨?_, fun f hf => ?_⟩ }
    · exact ⟨_, List.mem_append_right _ List.mem_cons_self, .inr rfl, rfl⟩
    · rw [← Option.some.inj hf]
  | apply hphase hfresh happly =>
    have hnoted := h.phase
    rw [PhaseSound, hphase] at hnoted
    exact h.apply hfresh happly hnoted
  | settle hphase =>
    have hnoted := h.phase
    rw [PhaseSound, hphase] at hnoted
    refine { h with writer := ?_, phase := trivial }
    unfold Engine.settle
    dsimp only
    split
    · exact h.writer.settle ‹_› (hnoted.2 _ ‹_›)
    · exact h.writer.noteApplied hnoted.1.mark
  | sync sequence hdurable hlogged => exact { h with phase := h.phase }
  | burn operationId hle => exact { h with writer := h.writer.burn _ le_rfl le_rfl hle, phase := h.phase }
  | checkpoint hphase hframe =>
    exact { h with phase := nofun }

theorem Sound.relocate (h : e.Sound) {drained : List Nat} (hphase : e.phase = .compacting drained)
    {fresh location : RecordLocation} {record : HeapRecord} (hfresh : e.mem.heap fresh = none)
    (hsegment : fresh.segment ∉ drained) (hrecord : e.mem.heap location = some record)
    (hlive : (LiveKey.of record).currentLocation e.mem.indexes = some location) :
    Sound { e with mem := e.mem.relocate fresh record } := by
  obtain ⟨hwell, -, hle⟩ := Storage.relocate_spec h.mem hfresh hrecord hlive
  have hdrained := h.phase
  rw [PhaseSound, hphase] at hdrained
  refine ⟨h.writer, hwell, h.disk, h.heap.trans hle, Storage.bounded_update h.bounded, ?_⟩
  rw [PhaseSound]
  simp only [hphase]
  exact fun segment hmem => (Storage.written_repoint ..).unreferenced (hdrained segment hmem)
    fun heq => hsegment (heq ▸ hmem)

theorem Sound.commitTree (h : e.Sound) {drained : List Nat} {tree : Tree} {trees : List Tree}
    (hphase : e.phase = .committing drained (tree :: trees)) :
    Sound { e with
      disk := { e.disk with indexes := e.disk.indexes.commitTree e.mem.indexes tree }
      phase := .committing drained trees } := by
  have hcommit := h.phase
  rw [PhaseSound, hphase] at hcommit
  obtain ⟨hdrained, hheap, hsame⟩ := hcommit
  refine { h with disk := fun key location hkey => ?_, phase := ⟨hdrained, hheap, fun key hkey => ?_⟩ }
  · rw [currentLocation_commitTree] at hkey
    split at hkey
    · rw [show Storage.heap _ = e.disk.heap from rfl, hheap]
      exact h.mem key location hkey
    · exact h.disk key location hkey
  · change key.currentLocation (e.disk.indexes.commitTree e.mem.indexes tree) = _
    rw [currentLocation_commitTree]
    split
    · rfl
    · rename_i hne
      exact hsame key fun hmem => (List.mem_cons.1 hmem).elim hne hkey

theorem mem_commitOrder (key : LiveKey) : key.tree ∈ commitOrder := by
  cases key <;> simp [LiveKey.tree, commitOrder]

/-- After the checkpoint no tree, in memory or on disk, leads into a drained segment. -/
theorem Sound.dropSegment (h : e.Sound) {drained : List Nat} (hphase : e.phase = .advanced drained)
    {segment : Nat} (hsegment : segment ∈ drained) :
    ((e.dropSegment segment).mem.WellPointed ∧ (e.dropSegment segment).mem.view = e.mem.view) ∧
      (e.dropSegment segment).disk.WellPointed ∧
      (e.dropSegment segment).disk.view = e.disk.view := by
  have hnow := h.phase
  rw [PhaseSound, hphase] at hnow
  obtain ⟨hmem, -, hsame⟩ := hnow
  refine ⟨h.mem.dropSegments (List.forall_mem_singleton.2 (hmem segment hsegment)),
    h.disk.dropSegments (List.forall_mem_singleton.2 fun key location hkey => ?_)⟩
  exact hmem segment hsegment key location ((hsame key).symm.trans hkey)

theorem Sound.checkpointStep (h : e.Sound) (hstep : CheckpointStep e e') : e'.Sound := by
  have hnow := h.phase
  rw [PhaseSound] at hnow
  cases hstep with
  | relocate hphase hfresh hsegment hrecord hlive =>
    exact h.relocate hphase hfresh hsegment hrecord hlive
  | drain hphase hdead =>
    rw [hphase] at hnow
    exact { h with phase := List.forall_mem_cons.2 ⟨h.mem.unreferenced hdead, hnow⟩ }
  | sync hphase =>
    rw [hphase] at hnow
    obtain ⟨hwell, -⟩ := h.disk.view_mono ⟨e.mem.heap, e.disk.indexes⟩ rfl h.heap
    refine { h with disk := hwell, heap := Storage.HeapLe.refl _, phase := ⟨hnow, rfl, fun key hkey => ?_⟩ }
    exact absurd (mem_commitOrder key) hkey
  | commitTree hphase => exact h.commitTree hphase
  | advance hphase =>
    rw [hphase] at hnow
    exact { h with
      writer := h.writer.advance
      phase := ⟨hnow.1, hnow.2.1, fun key => hnow.2.2 key List.not_mem_nil⟩ }
  | rotate hphase =>
    refine { h with writer := h.writer.rotate, phase := ?_ }
    rw [PhaseSound]
    simp only [hphase] at hnow ⊢
    exact hnow
  | @dropSegment drained hphase segment hsegment =>
    obtain ⟨⟨hmem, -⟩, hdisk, -⟩ := h.dropSegment hphase hsegment
    refine ⟨h.writer, hmem, hdisk, h.heap.dropSegments _, Storage.bounded_dropSegments _ h.bounded, ?_⟩
    rw [PhaseSound]
    simp only [Engine.dropSegment, hphase] at hnow ⊢
    exact ⟨hnow.1, by rw [hnow.2.1], hnow.2.2⟩
  | finish hphase => exact { h with phase := trivial }

theorem Sound.recovery (h : e.Sound) (hstep : RecoveryStep e e') : e'.Sound := by
  have hnow := h.phase
  rw [PhaseSound] at hnow
  cases hstep with
  | apply hphase hfresh happly =>
    rw [hphase] at hnow
    exact h.apply hfresh happly fun sequence hmem => hnow sequence (List.mem_cons_of_mem _ hmem)
  | note hphase =>
    rw [hphase] at hnow
    exact { h with
      writer := h.writer.noteApplied (hnow _ List.mem_cons_self).mark
      phase := fun sequence hmem => hnow sequence (List.mem_cons_of_mem _ hmem) }
  | checkpoint hphase => exact { h with phase := nofun }
  | step hstep => exact h.checkpointStep hstep

/-- What the next process starts with. -/
theorem Sound.crash (h : e.Sound) (keep : Nat) {heap : Heap} (hheap : e.HeapSurvives heap) :
    (e.crash keep heap).Sound := by
  obtain ⟨hwell, -⟩ := h.disk.view_mono ⟨heap, e.disk.indexes⟩ rfl hheap.1
  obtain ⟨n, hn⟩ := h.bounded
  have hempty : ∀ location, n ≤ location.segment → heap location = none := by
    intro location hge
    rcases hget : heap location with _ | record
    · rfl
    have hmem := hheap.2 location record hget
    rw [hn location hge] at hmem
    cases hmem
  refine ⟨?_, hwell, hwell, Storage.HeapLe.refl _, ⟨n, hempty⟩, fun sequence hmem => ?_⟩
  · exact h.writer.restart_unapplied keep
  · obtain ⟨r, hr, hop, hseq⟩ := Writer.note_mem_schedule hmem
    exact ⟨r, (mem_liveRecords.1 hr).1, hop, hseq⟩

theorem Sound.step (h : e.Sound) (hstep : Step e e') : e'.Sound := by
  cases hstep with
  | write hstep => exact h.write hstep
  | recovery hstep => exact h.recovery hstep
  | crash keep _ heap hheap => exact h.crash keep hheap

/-- In every state that the engine can get to, the indexes lead to records. -/
theorem sound_steps (h : Steps empty e) : e.Sound := by
  induction h with
  | refl => exact sound_empty
  | tail _ hstep ih => exact ih.step hstep

end Engine

end FacetQL
