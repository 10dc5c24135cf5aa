import FacetQL.Storage.Recoverable

/-!
# A crash during recovery

Recovery replays the log over trees that may already hold some of its effects. Since the
last write to a record decides, what it gets to depends only on the log and on the records
the log does not speak of, and the log stays until all trees are committed. So recovery can
crash at any step, any number of times.

* `recovery_crash_harmless`: the result is that of a recovery that is not interrupted;
* `restart_restores`: and what was in memory, if the crash leaves the log.
-/

namespace FacetQL

open Relation

namespace Engine

/-- A step of recovery, or a crash in it that leaves the log. -/
inductive InterruptedStep : Engine → Engine → Prop
  | step {e e' : Engine} (h : RecoveryStep e e') : InterruptedStep e e'
  | crash {e : Engine} (keep : Nat) (hkeep : e.writer.log.take keep = e.writer.log) (heap : Heap)
      (hheap : e.HeapSurvives heap) : InterruptedStep e (e.crash keep heap)

/-- A recovery that gets to the records `target`. -/
structure Recovering (e : Engine) (target : LiveKey → Option HeapRecord) : Prop where
  recoverable : e.Recoverable
  target : e.recovered = target

variable {e e' : Engine} {target : LiveKey → Option HeapRecord}

/-- The process after a crash is in a recovery. -/
theorem recovering_crash (h : e.Sound) (keep : Nat) {heap : Heap} (hheap : e.HeapSurvives heap) :
    (e.crash keep heap).Recovering (e.crash keep heap).recovered :=
  ⟨recoverable_crash h keep hheap, rfl⟩

theorem Recovering.crash (h : e.Recovering target) {keep : Nat}
    (hkeep : e.writer.log.take keep = e.writer.log) {heap : Heap} (hheap : e.HeapSurvives heap) :
    (e.crash keep heap).Recovering target :=
  ⟨recoverable_crash h.recoverable.sound keep hheap,
    (recovered_crash h.recoverable.sound hkeep hheap).trans h.target⟩

theorem Recovering.step (h : e.Recovering target) (hstep : RecoveryStep e e') :
    e'.Recovering target := by
  obtain ⟨hrecoverable, hsame⟩ := h.recoverable.recovery hstep
  exact ⟨hrecoverable, hsame.trans h.target⟩

theorem Recovering.interrupted (h : e.Recovering target)
    (hsteps : ReflTransGen InterruptedStep e e') : e'.Recovering target := by
  induction hsteps with
  | refl => exact h
  | tail _ hstep ih =>
    cases hstep with
    | step hstep => exact ih.step hstep
    | crash keep hkeep heap hheap => exact ih.crash hkeep hheap

theorem Recovering.view (h : e.Recovering target)
    (hsteps : ReflTransGen RecoveryStep e e') (hready : e'.phase = .ready) :
    e'.Sound ∧ e'.mem.view = target := by
  obtain ⟨hrecoverable, hsame⟩ := h.recoverable.recoverySteps hsteps
  exact ⟨hrecoverable.sound, (hrecoverable.ready hready).1.symm.trans (hsame.trans h.target)⟩

/-! ## Recovery gets to its end -/

/-- Recovery as the engine sees it; `alloc` is where the heap puts the next record. -/
def replayer (alloc : Heap → RecordLocation) : Replayer Operation Engine where
  apply op e := match Storage.applyOperation (alloc e.mem.heap) e.mem op with
    | .ok mem => (.ok (), { e with mem := mem })
    | .error err => (.error err, e)
  noteRecovered sequence e := { e with writer := e.writer.noteApplied sequence }

/-- The heap puts a record where there is none, as long as there is room. -/
def Allocates (alloc : Heap → RecordLocation) : Prop :=
  ∀ heap : Heap, (∃ n, ∀ location, n ≤ location.segment → heap location = none) →
    heap (alloc heap) = none

/-- A new segment after the last one is a place for a record. -/
theorem exists_next : ∃ alloc : Heap → RecordLocation, ∀ heap : Heap,
    (∃ n, ∀ location, n ≤ location.segment → heap location = none) → heap (alloc heap) = none ∧
      ∀ other, heap other ≠ none → other.segment ≤ (alloc heap).segment := by
  classical
  refine ⟨fun heap => if h : ∃ n, ∀ location, n ≤ location.segment → heap location = none then
    ⟨h.choose, 0, 0⟩ else ⟨0, 0, 0⟩, fun heap hbound => ?_⟩
  simp only [dif_pos hbound]
  refine ⟨hbound.choose_spec _ le_rfl, fun other hother => ?_⟩
  exact (not_le.1 fun hle => hother (hbound.choose_spec _ hle)).le

theorem exists_allocates : ∃ alloc, Allocates alloc :=
  exists_next.imp fun _ h heap hbound => (h heap hbound).1

/-- A replay takes the steps of recovery, and succeeds. -/
theorem run_steps {alloc : Heap → RecordLocation} (halloc : Allocates alloc) (e : Engine)
    {effects : List (Effect Operation)} (h : Sound { e with phase := .replaying effects }) :
    ((replayer alloc).run effects e).1 = .ok () ∧
    ReflTransGen RecoveryStep { e with phase := .replaying effects }
      { ((replayer alloc).run effects e).2 with phase := .replaying [] } := by
  induction effects generalizing e with
  | nil => exact ⟨rfl, .refl⟩
  | cons effect effects ih =>
    cases effect with
    | apply op =>
      have hfresh : e.mem.heap (alloc e.mem.heap) = none := halloc _ h.bounded
      obtain ⟨mem, hok, -⟩ := Storage.applyOperation_spec h.mem hfresh op
      have hstep : RecoveryStep { e with phase := .replaying (.apply op :: effects) }
          { e with mem := mem, phase := .replaying effects } :=
        @RecoveryStep.apply { e with phase := .replaying (.apply op :: effects) } op effects rfl _
          hfresh _ hok
      have hnext := ih { e with mem := mem } (h.recovery hstep)
      have hrun : (replayer alloc).run (.apply op :: effects) e =
          (replayer alloc).run effects { e with mem := mem } := by
        simp only [Replayer.run, replayer, hok]
      rw [hrun]
      exact ⟨hnext.1, .head hstep hnext.2⟩
    | note sequence =>
      have hstep : RecoveryStep { e with phase := .replaying (.note sequence :: effects) }
          { e with writer := e.writer.noteApplied sequence, phase := .replaying effects } := .note rfl
      have hnext := ih { e with writer := e.writer.noteApplied sequence } (h.recovery hstep)
      exact ⟨hnext.1, .head hstep hnext.2⟩

/-- What `recover` does to an engine that has just been loaded is a run of these steps. -/
theorem recover_steps {alloc : Heap → RecordLocation} (halloc : Allocates alloc) (h : e.Sound)
    (hphase : e.phase = .replaying (schedule e.live)) :
    (recover (replayer alloc) e.writer.checkpoint (some e.writer.log) e).1 = .ok () ∧
    ReflTransGen RecoveryStep e
      { (recover (replayer alloc) e.writer.checkpoint (some e.writer.log) e).2 with
        phase := .replaying [] } := by
  have hlog := h.writer.log
  obtain ⟨committed, hc, -⟩ := (hlog.live (h.writer.marks _ (.inl rfl)).1).accepted
  rw [recover_eq_run (replayer alloc) (validateRecords_eq_ok.2 hlog.valid) hlog.asc hc e]
  have heq : { e with phase := .replaying (schedule e.live) } = e := by rw [← hphase]
  have hrun := run_steps halloc e (heq.symm ▸ h)
  rw [heq] at hrun
  exact hrun

/-- The trees are committed one after the other. -/
theorem exists_commit {drained : List Nat} {trees : List Tree}
    (hphase : e.phase = .committing drained trees) :
    ∃ e', ReflTransGen RecoveryStep e e' ∧ e'.phase = .committing drained [] := by
  induction trees generalizing e with
  | nil => exact ⟨e, .refl, hphase⟩
  | cons tree trees ih =>
    obtain ⟨e', hsteps, hend⟩ := ih (e := { e with
      disk := { e.disk with indexes := e.disk.indexes.commitTree e.mem.indexes tree }
      phase := .committing drained trees }) rfl
    exact ⟨e', .head (.step (.commitTree hphase)) hsteps, hend⟩

/-- Recovery gets to its end. -/
theorem exists_recovery (h : e.Sound) (hphase : e.phase = .replaying (schedule e.live)) :
    ∃ e', ReflTransGen RecoveryStep e e' ∧ e'.phase = .ready := by
  obtain ⟨alloc, halloc⟩ := exists_allocates
  obtain ⟨replayed, hreplay, hreplayed⟩ : ∃ replayed, ReflTransGen RecoveryStep e replayed ∧
      replayed.phase = .replaying [] := ⟨_, (recover_steps halloc h hphase).2, rfl⟩
  obtain ⟨committed, hcommit, hcommitted⟩ := exists_commit (e := { replayed with
    disk := { replayed.disk with heap := replayed.mem.heap }
    phase := .committing [] commitOrder }) rfl
  have hsync := (hreplay.tail (.checkpoint hreplayed)).tail (.step (.sync rfl))
  exact ⟨_, ((hsync.trans hcommit).tail (.step (.advance hcommitted))).tail (.step (.finish rfl)), rfl⟩

end Engine

open Engine in
/-- Recovery starts from what a crash has left of any run, is interrupted by crashes that leave the
    log it has read, any number of times and wherever they fall, and starts again. It then gets to
    its end, and the nodes, the outgoing edges and the archived states are found as after a
    recovery that has not been interrupted. -/
theorem recovery_crash_harmless {e : Engine} (hrun : Engine.Steps .empty e) {keep : Nat}
    {heap : Heap} (hheap : e.HeapSurvives heap) {interrupted : Engine}
    (hinterrupted : ReflTransGen InterruptedStep (e.crash keep heap) interrupted) {keep' : Nat}
    (hkeep' : interrupted.writer.log.take keep' = interrupted.writer.log) {heap' : Heap}
    (hheap' : interrupted.HeapSurvives heap') :
    (∃ again, ReflTransGen RecoveryStep (interrupted.crash keep' heap') again ∧
      again.phase = .ready) ∧
    ∀ uninterrupted again,
      ReflTransGen RecoveryStep (e.crash keep heap) uninterrupted →
      uninterrupted.phase = .ready →
      ReflTransGen RecoveryStep (interrupted.crash keep' heap') again →
      again.phase = .ready →
      (∀ address, again.mem.findNode address = uninterrupted.mem.findNode address) ∧
      (∀ id, again.mem.findEdge id = uninterrupted.mem.findEdge id) ∧
      ∀ address version, again.mem.findHistory address version =
        uninterrupted.mem.findHistory address version := by
  have hstart := recovering_crash (sound_steps hrun) keep hheap
  have hcrash := (hstart.interrupted hinterrupted).crash hkeep' hheap'
  refine ⟨exists_recovery hcrash.recoverable.sound rfl,
    fun uninterrupted again hfirst hready hsecond hready' => ?_⟩
  obtain ⟨hsound, hview⟩ := hstart.view hfirst hready
  obtain ⟨hsound', hview'⟩ := hcrash.view hsecond hready'
  have hsame := hview'.trans hview.symm
  exact ⟨Storage.findNode_congr hsound'.mem hsound.mem hsame,
    Storage.findEdge_congr hsound'.mem hsound.mem hsame,
    Storage.findHistory_congr hsound'.mem hsound.mem hsame⟩

open Engine in
/-- Whenever the process ends and leaves its log, recovery gets to its end; and however often it is
    interrupted, it then finds what was in memory, with what was logged and still to be applied. -/
theorem restart_restores {e : Engine} (hrun : Engine.Steps .empty e) {keep : Nat}
    (hkeep : e.writer.log.take keep = e.writer.log) {heap : Heap} (hheap : e.HeapSurvives heap) :
    (∃ again, ReflTransGen RecoveryStep (e.crash keep heap) again ∧ again.phase = .ready) ∧
    ∀ again, ReflTransGen InterruptedStep (e.crash keep heap) again → again.phase = .ready →
      ∀ key, again.mem.findRecord key = .ok (e.current key) := by
  have hrecoverable := recoverable_steps hrun
  have hstart := recovering_crash hrecoverable.sound keep hheap
  refine ⟨exists_recovery hstart.recoverable.sound rfl, fun again hsteps hready key => ?_⟩
  obtain ⟨hsound, hview⟩ := (hstart.interrupted hsteps).view .refl hready
  rw [hsound.mem.findRecord_eq, hview, recovered_crash hrecoverable.sound hkeep hheap,
    hrecoverable.recovered]

section Samples

open Engine

def sampleNode : Node := ⟨"n", ⟨0, 0, 0, 0⟩, 1, "Person", "", "alice", none, .priv⟩

/-- An insert that has been logged and not applied. -/
def loggedEngine : Engine := { Engine.empty with
  writer := Writer.empty.standalone (.insert sampleNode) false
  phase := .applying [.insert sampleNode] 1 }

def loadedEngine : Engine := loggedEngine.crash 1 fun _ => none

/-- It has replayed the insert and flushed the heap, and has committed the first tree. -/
theorem recovery_crash_harmless_after_primary :
    ∃ interrupted, ReflTransGen InterruptedStep loadedEngine interrupted ∧
      interrupted.phase = .committing [] commitOrder.tail ∧
      ∀ uninterrupted again,
        ReflTransGen RecoveryStep loadedEngine uninterrupted →
        uninterrupted.phase = .ready →
        ReflTransGen RecoveryStep (interrupted.crash 1 interrupted.mem.heap) again →
        again.phase = .ready →
        ∀ address, again.mem.findNode address = uninterrupted.mem.findNode address := by
  have hrun : Engine.Steps .empty loggedEngine :=
    .single (.write (.standalone rfl rfl (.insert sampleNode)))
  have hheap : loggedEngine.HeapSurvives fun _ => none :=
    ⟨Storage.HeapLe.refl _, Storage.HeapLe.refl _⟩
  have hsound := (sound_steps hrun).crash 1 hheap
  have hfresh : loadedEngine.mem.heap ⟨0, 0, 0⟩ = none := rfl
  obtain ⟨mem, happly, -⟩ := Storage.applyOperation_spec hsound.mem hfresh (.insert sampleNode)
  have hreplay : ReflTransGen RecoveryStep loadedEngine _ :=
    ((((ReflTransGen.refl.tail (.apply rfl hfresh happly)).tail (.note rfl)).tail
      (.checkpoint rfl)).tail (.step (.sync rfl))).tail (.step (.commitTree rfl))
  have hinterrupted := hreplay.lift id fun _ _ h => InterruptedStep.step h
  obtain ⟨-, hsame⟩ := recovery_crash_harmless hrun hheap hinterrupted rfl
    ⟨Storage.HeapLe.refl _, Storage.HeapLe.refl _⟩
  exact ⟨_, hinterrupted, rfl, fun uninterrupted again hfirst hready hsecond hready' =>
    (hsame uninterrupted again hfirst hready hsecond hready').1⟩

def sampleEdge : Edge := ⟨"n", "n", "knows", "alice"⟩

/-- A node with an edge, logged in one frame and not applied. -/
def framedEngine : Engine := { Engine.empty with
  writer := ((Writer.empty.openFrame.stage ⟨1, 1, none⟩ (.insert sampleNode)).stage ⟨1, 1, none⟩
    (.insertEdge sampleEdge)).commit ⟨1, 1, none⟩
  phase := .applying [.insert sampleNode, .insertEdge sampleEdge] 4 }

/-- The log that recovery reads need not be flushed. When the node of a replayed frame has been
    committed, and a crash loses the frame before its edge has, the node is there without it. -/
theorem recovery_crash_harmful : ¬ ∀ {e : Engine}, Engine.Steps .empty e → ∀ {keep : Nat}
    {heap : Heap}, e.LogSurvives keep → e.HeapSurvives heap → ∀ {interrupted : Engine},
    ReflTransGen RecoveryStep (e.crash keep heap) interrupted → ∀ {keep' : Nat} {heap' : Heap},
    interrupted.LogSurvives keep' → interrupted.HeapSurvives heap' → ∀ uninterrupted again,
      ReflTransGen RecoveryStep (e.crash keep heap) uninterrupted → uninterrupted.phase = .ready →
      ReflTransGen RecoveryStep (interrupted.crash keep' heap') again → again.phase = .ready →
      (∀ address, again.mem.findNode address = uninterrupted.mem.findNode address) ∧
      (∀ id, again.mem.findEdge id = uninterrupted.mem.findEdge id) ∧
      ∀ address version, again.mem.findHistory address version =
        uninterrupted.mem.findHistory address version := by
  intro hall
  have hrun : Engine.Steps .empty framedEngine :=
    (((ReflTransGen.refl.tail (.write (.openFrame rfl rfl))).tail
      (.write (.stage rfl rfl rfl (.insert sampleNode)))).tail
      (.write (.stage rfl rfl rfl (.insertEdge sampleEdge)))).tail (.write (.commit rfl rfl rfl))
  have hheap : framedEngine.HeapSurvives fun _ => none :=
    ⟨Storage.HeapLe.refl _, Storage.HeapLe.refl _⟩
  have hstart := recovering_crash (sound_steps hrun) 4 hheap
  obtain ⟨interrupted, hreplay, hlog, hdurable, hdisk⟩ : ∃ interrupted,
      ReflTransGen RecoveryStep (framedEngine.crash 4 fun _ => none) interrupted ∧
      interrupted.writer.log = framedEngine.writer.log ∧ interrupted.durable = 0 ∧
      (interrupted.crash 0 interrupted.mem.heap).recovered (.edge sampleEdge.id) = none := by
    have hnode := ReflTransGen.refl.tail
      (@RecoveryStep.apply (framedEngine.crash 4 fun _ => none) _ _ rfl ⟨0, 0, 0⟩ rfl _ rfl)
    have hedge := hnode.tail (@RecoveryStep.apply _ _ _ rfl ⟨0, 0, 1⟩ rfl _ rfl)
    exact ⟨_, (((hedge.tail (.note rfl)).tail (.checkpoint rfl)).tail (.step (.sync rfl))).tail
      (.step (.commitTree rfl)), rfl, rfl, rfl⟩
  have hsound := (hstart.recoverable.recoverySteps hreplay).1.sound
  have hlost : interrupted.LogSurvives 0 := by
    intro r hr hle
    have hpositive : ∀ r ∈ framedEngine.writer.log, 0 < r.sequence := by decide
    rw [hdurable] at hle
    exact absurd hle (not_le.2 (hpositive r (hlog ▸ hr)))
  have hkept : interrupted.HeapSurvives interrupted.mem.heap := ⟨hsound.heap, Storage.HeapLe.refl _⟩
  have hcrash := recovering_crash hsound 0 hkept
  obtain ⟨uninterrupted, hsteps, hready⟩ := exists_recovery hstart.recoverable.sound rfl
  obtain ⟨again, hsteps', hready'⟩ := exists_recovery hcrash.recoverable.sound rfl
  have hread : framedEngine.LogSurvives 4 := fun r hr _ => hr
  obtain ⟨-, hedges, -⟩ := hall hrun hread hheap hreplay hlost hkept uninterrupted again
    hsteps hready hsteps' hready'
  obtain ⟨hmem, hview⟩ := hstart.view hsteps hready
  obtain ⟨hmem', hview'⟩ := hcrash.view hsteps' hready'
  have hfound : again.mem.findRecord (.edge sampleEdge.id) =
      uninterrupted.mem.findRecord (.edge sampleEdge.id) :=
    congrArg (Except.map (Option.map HeapRecord.edge)) (hedges sampleEdge.id)
  rw [hmem.mem.findRecord_eq, hmem'.mem.findRecord_eq, hview, hview', hdisk] at hfound
  cases hfound

theorem restart_restores_logged :
    ∃ again, ReflTransGen RecoveryStep loadedEngine again ∧ again.phase = .ready ∧
      again.mem.findRecord (.node "n") = .ok (some (.node sampleNode)) := by
  have hkeep : loggedEngine.writer.log.take 1 = loggedEngine.writer.log := rfl
  obtain ⟨⟨again, hsteps, hready⟩, hfound⟩ := restart_restores
    (.single (.write (.standalone rfl rfl (.insert sampleNode)))) hkeep
    ⟨Storage.HeapLe.refl _, Storage.HeapLe.refl _⟩
  have hinterrupted := hsteps.lift id fun _ _ h => InterruptedStep.step h
  exact ⟨again, hsteps, hready, hfound again hinterrupted hready _⟩

end Samples

end FacetQL
