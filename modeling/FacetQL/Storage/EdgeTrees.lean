import FacetQL.Storage.Reclamation
import FacetQL.Storage.Recoverable

/-!
# The two trees of edges

An edge is found from both of its ends: `edge_out` and `edge_in` hold the location of the
same record. Compaction asks `edge_out` which records of a segment are live, points both
trees at the copies, and the segment is removed once the trees are committed. They are
committed one after the other, and a copy is not logged, so that a crash between the two
commits can leave `edge_in` at an old location, where no later compaction sees it.

* `dropped_unreferenced`: when no tree leads into a segment that is removed;
* `dropped_edge_in`: one may after a crash.
-/

namespace FacetQL

open Relation

namespace Engine

/-- Where `edge_in` leads, `edge_out` leads to the same record, for edges the replay does not
    write. -/
def EdgesAgree (indexes : Indexes) (effects : List (Effect Operation)) : Prop :=
  ∀ id location, .edge id ∉ (effectWrites effects).map Prod.fst →
    indexes.edgeIn id = some location → indexes.edgeOut id = some location

/-- A step of the engine; a crash leaves trees that agree on what is not replayed. -/
inductive AgreeingStep : Engine → Engine → Prop
  | write {e e' : Engine} (h : WriteStep e e') : AgreeingStep e e'
  | recovery {e e' : Engine} (h : RecoveryStep e e') : AgreeingStep e e'
  | crash {e : Engine} (keep : Nat) (hkeep : e.LogSurvives keep) (heap : Heap)
      (hheap : e.HeapSurvives heap)
      (hagree : EdgesAgree e.disk.indexes
        (schedule (liveRecords e.writer.checkpoint (e.writer.log.take keep)))) :
      AgreeingStep e (e.crash keep heap)

theorem AgreeingStep.step {e e' : Engine} (h : AgreeingStep e e') : Step e e' := by
  cases h with
  | write h => exact .write h
  | recovery h => exact .recovery h
  | crash keep hkeep heap hheap _ => exact .crash keep hkeep heap hheap

/-- The two trees agree, in memory and then on disk. -/
def PhaseMirrored (e : Engine) : Prop :=
  match e.phase with
  | .replaying effects => EdgesAgree e.mem.indexes effects
  | .committing _ trees => EdgesAgree e.mem.indexes [] ∧
      (.edgeIn ∉ trees → e.disk.indexes.edgeIn = e.mem.indexes.edgeIn)
  | .advanced _ => EdgesAgree e.mem.indexes [] ∧ e.disk.indexes.edgeIn = e.mem.indexes.edgeIn
  | _ => EdgesAgree e.mem.indexes []

variable {e e' : Engine}

/-- An operation that is replayed makes the trees agree on the edge it writes. -/
theorem EdgesAgree.apply {s s' : Storage} {op : Operation} {effects : List (Effect Operation)}
    (h : EdgesAgree s.indexes (.apply op :: effects)) {fresh : RecordLocation}
    (happly : Storage.applyOperation fresh s op = .ok s') : EdgesAgree s'.indexes effects := by
  intro id location hid
  refine (Storage.applyOperation_written happly).edgeOut_of_edgeIn ?_
  by_cases hop : op.toWrite.1 = .edge id
  · exact .inl hop
  · refine .inr (h id location fun hmem => ?_)
    rcases List.mem_cons.1 hmem with heq | hmem
    · exact hop heq.symm
    · exact hid hmem

theorem EdgesAgree.mutate {s s' : Storage} {op : Operation} (h : EdgesAgree s.indexes [])
    {fresh : RecordLocation} (happly : Storage.applyOperation fresh s op = .ok s') :
    EdgesAgree s'.indexes [] :=
  fun id location hid =>
    (Storage.applyOperation_written happly).edgeOut_of_edgeIn (.inr (h id location hid))

theorem PhaseMirrored.write (h : e.PhaseMirrored) (hstep : WriteStep e e') : e'.PhaseMirrored := by
  rw [PhaseMirrored] at h
  cases hstep with
  | apply hphase hfresh happly =>
    rw [hphase] at h
    exact h.mutate happly
  | sync sequence _ _ | burn operationId _ => exact h
  | _ hphase =>
    rw [hphase] at h
    exact h

theorem PhaseMirrored.checkpointStep (h : e.PhaseMirrored) (hstep : CheckpointStep e e') :
    e'.PhaseMirrored := by
  rw [PhaseMirrored] at h
  cases hstep with
  | relocate hphase hfresh hsegment hrecord hlive =>
    rw [hphase] at h
    rw [PhaseMirrored]
    simp only [hphase]
    exact fun id location hid =>
      (Storage.written_repoint ..).edgeOut_of_edgeIn (.inr (h id location hid))
  | drain hphase hdead =>
    rw [hphase] at h
    exact h
  | sync hphase =>
    rw [hphase] at h
    exact ⟨h, fun hnot => absurd (by decide) hnot⟩
  | @commitTree drained tree trees hphase =>
    rw [hphase] at h
    refine ⟨h.1, fun hnot => ?_⟩
    by_cases htree : tree = .edgeIn
    · subst htree
      rfl
    · have hold := h.2 fun hmem => (List.mem_cons.1 hmem).elim (htree ·.symm) hnot
      cases tree with
      | edgeIn => exact absurd rfl htree
      | _ => exact hold
  | advance hphase =>
    rw [hphase] at h
    exact ⟨h.1, h.2 List.not_mem_nil⟩
  | rotate hphase =>
    rw [PhaseMirrored]
    simp only [hphase] at h ⊢
    exact h
  | dropSegment hphase hsegment =>
    rw [PhaseMirrored]
    simp only [dropSegment, hphase] at h ⊢
    exact h
  | finish hphase =>
    rw [hphase] at h
    exact h.1

theorem PhaseMirrored.recovery (h : e.PhaseMirrored) (hstep : RecoveryStep e e') :
    e'.PhaseMirrored := by
  cases hstep with
  | apply hphase hfresh happly =>
    rw [PhaseMirrored, hphase] at h
    exact EdgesAgree.apply h happly
  | note hphase | checkpoint hphase =>
    rw [PhaseMirrored, hphase] at h
    exact h
  | step hstep => exact h.checkpointStep hstep

theorem PhaseMirrored.step (h : e.PhaseMirrored) (hstep : AgreeingStep e e') :
    e'.PhaseMirrored := by
  cases hstep with
  | write hstep => exact h.write hstep
  | recovery hstep => exact h.recovery hstep
  | crash keep _ heap _ hagree => exact hagree

theorem mirrored_steps (h : ReflTransGen AgreeingStep empty e) : e.PhaseMirrored := by
  induction h with
  | refl => exact fun _ _ _ hin => hin
  | tail _ hstep ih => exact ih.step hstep

end Engine

open Engine in
/-- In a run with crashes only while every committed entry of `edge_in` that is not replayed is one
    of `edge_out`, no index entry leads into a segment that is removed. -/
theorem dropped_unreferenced {e : Engine} (hsteps : ReflTransGen AgreeingStep .empty e)
    {drained : List Nat} (hphase : e.phase = .advanced drained) {segment : Nat}
    (hsegment : segment ∈ drained) {key : LiveKey} {location : RecordLocation}
    (hentry : e.mem.indexes.Resolves key location ∨ e.disk.indexes.Resolves key location) :
    location.segment ≠ segment := by
  have hmirrored := mirrored_steps hsteps
  have hrun : Engine.Steps .empty e := hsteps.lift id fun _ _ h => h.step
  have hsound := (sound_steps hrun).phase
  rw [PhaseMirrored, hphase] at hmirrored
  rw [PhaseSound, hphase] at hsound
  obtain ⟨hagree, hin⟩ := hmirrored
  obtain ⟨hunreferenced, -, hsame⟩ := hsound
  have hlive (h : key.currentLocation e.mem.indexes = some location) : location.segment ≠ segment :=
    hunreferenced segment hsegment key location h
  -- An entry of `edge_in` is one of `edge_out`, which compaction has asked.
  have hback (id : EdgeId) (hkey : key = .edge id) (h : e.mem.indexes.edgeIn id = some location) :
      location.segment ≠ segment := by
    refine hlive ?_
    rw [hkey, LiveKey.currentLocation]
    exact hagree id location List.not_mem_nil h
  rcases hentry with (h | ⟨id, hkey, h⟩) | h | ⟨id, hkey, h⟩
  · exact hlive h
  · exact hback id hkey h
  · exact hlive ((hsame key).symm.trans h)
  · exact hback id hkey (hin ▸ h)

section Samples

open Engine

theorem steps_publish {e : Engine} {drained : List Nat} (hphase : e.phase = .compacting drained) :
    ReflTransGen AgreeingStep e
      { e with disk := e.mem, writer := e.writer.advance, phase := .advanced drained } := by
  have hsync : ReflTransGen CheckpointStep e _ := .single (.sync hphase)
  have hcommits : ReflTransGen CheckpointStep e _ :=
    .tail (.tail (.tail (.tail (.tail (.tail hsync (.commitTree rfl)) (.commitTree rfl))
      (.commitTree rfl)) (.commitTree rfl)) (.commitTree rfl)) (.commitTree rfl)
  exact (hcommits.tail (.advance rfl)).lift id fun _ _ h => .recovery (.step h)

def knows : Edge := ⟨"a", "b", "knows", "alice"⟩

def oldLocation : RecordLocation := ⟨0, 0, 0⟩

def newLocation : RecordLocation := ⟨1, 0, 0⟩

/-- The edge is in segment 0, and found there from both ends. -/
def insertedStorage : Storage :=
  { Engine.empty.mem.append oldLocation (.edge knows) with
    indexes := (LiveKey.edge knows.id).repoint Engine.empty.mem.indexes oldLocation }

/-- The edge has been inserted, and a checkpoint has been taken. -/
def checkpointedEngine : Engine := { Engine.empty with
  writer := ((Writer.empty.standalone (.insertEdge knows) false).noteApplied 1).advance
  mem := insertedStorage
  disk := insertedStorage }

theorem checkpointedEngine_reachable :
    ReflTransGen AgreeingStep Engine.empty checkpointedEngine := by
  have hlog : AgreeingStep Engine.empty { Engine.empty with
      writer := Writer.empty.standalone (.insertEdge knows) false
      phase := .applying [.insertEdge knows] 1 } := .write (.standalone rfl rfl _)
  have happly : AgreeingStep { Engine.empty with
      writer := Writer.empty.standalone (.insertEdge knows) false
      phase := .applying [.insertEdge knows] 1 } { Engine.empty with
      writer := Writer.empty.standalone (.insertEdge knows) false
      mem := insertedStorage
      phase := .applying [] 1 } := .write (@WriteStep.apply _ _ _ _ rfl oldLocation rfl _ rfl)
  have hsettle := ((ReflTransGen.single hlog).tail happly).tail (.write (.settle rfl))
  have hpublish := steps_publish (e := { Engine.empty with
    writer := (Writer.empty.standalone (.insertEdge knows) false).noteApplied 1
    mem := insertedStorage
    phase := .compacting [] }) rfl
  exact ((hsettle.tail (.write (.checkpoint rfl rfl))).trans hpublish).tail
    (.recovery (.step (.finish rfl)))

/-- The next checkpoint has moved the edge out of segment 0. -/
def drainedEngine : Engine := { checkpointedEngine with
  mem := insertedStorage.relocate newLocation (.edge knows)
  phase := .compacting [0] }

/-- No record that is left in segment 0 is live, if there is only the edge. -/
theorem dead_first {s : Storage} {location : RecordLocation}
    (hlive : s.indexes.edgeOut knows.id = some location) (hsegment : location.segment ≠ 0)
    (hheap : ∀ location record, s.heap location = some record → record = .edge knows) :
    s.Dead 0 := by
  rintro left record hleft hrecord hcurrent
  rw [hheap left record hrecord] at hcurrent
  have heq := Option.some.inj (hlive.symm.trans hcurrent)
  exact hsegment (heq ▸ hleft)

theorem only_append {heap : Heap} (h : ∀ location record, heap location = some record →
    record = .edge knows) (fresh location : RecordLocation) (record : HeapRecord)
    (hrecord : Function.update heap fresh (some (.edge knows)) location = some record) :
    record = .edge knows := by
  rw [Function.update_apply] at hrecord
  split at hrecord
  · exact (Option.some.inj hrecord).symm
  · exact h location record hrecord

theorem only_drained : ∀ location record, drainedEngine.mem.heap location = some record →
    record = .edge knows :=
  only_append (only_append (fun _ _ h => nomatch (h : none = some _)) oldLocation) newLocation

theorem drainedEngine_reachable :
    ReflTransGen AgreeingStep Engine.empty drainedEngine := by
  have hmove : CheckpointStep { checkpointedEngine with phase := .compacting [] }
      { drainedEngine with phase := .compacting [] } :=
    .relocate rfl rfl List.not_mem_nil (rfl : insertedStorage.heap oldLocation = _) rfl
  have hdrain : CheckpointStep { drainedEngine with phase := .compacting [] } drainedEngine :=
    .drain rfl (dead_first rfl Nat.one_ne_zero only_drained)
  exact ((checkpointedEngine_reachable.tail (.write (.checkpoint rfl rfl))).tail
    (.recovery (.step hmove))).tail (.recovery (.step hdrain))

/-- The same checkpoint when it has committed the trees up to `edge_out`. -/
def halfCommitted : Engine := { drainedEngine with
  disk := ⟨drainedEngine.mem.heap,
    { insertedStorage.indexes with edgeOut := drainedEngine.mem.indexes.edgeOut }⟩
  phase := .committing [0] [.edgeIn, .history] }

/-- A crash then leaves `edge_in` at the old location. The next checkpoint finds no live record in
    segment 0, and removes it. -/
theorem dropped_edge_in :
    ∃ e : Engine, Engine.Steps .empty e ∧ e.phase = .advanced [0] ∧
      e.disk.indexes.edgeOut knows.id = some newLocation ∧
      e.disk.indexes.edgeIn knows.id = some oldLocation ∧ oldLocation.segment = 0 := by
  have hdrained : Engine.Steps .empty drainedEngine :=
    drainedEngine_reachable.lift id fun _ _ h => h.step
  have hsync : ReflTransGen CheckpointStep drainedEngine _ := .single (.sync rfl)
  have hcommits : ReflTransGen CheckpointStep drainedEngine _ :=
    .tail (.tail (.tail (.tail hsync (.commitTree rfl)) (.commitTree rfl)) (.commitTree rfl))
      (.commitTree rfl)
  have hhalf : Engine.Steps .empty halfCommitted :=
    hdrained.trans (hcommits.lift id fun _ _ h => .recovery (.step h))
  have hcrash : Engine.Step halfCommitted (halfCommitted.crash 1 drainedEngine.mem.heap) :=
    .crash 1 (fun _ hr _ => hr) _ ⟨Storage.HeapLe.refl _, Storage.HeapLe.refl _⟩
  have hopened : RecoveryStep (halfCommitted.crash 1 drainedEngine.mem.heap)
      { halfCommitted.crash 1 drainedEngine.mem.heap with phase := .compacting [] } :=
    .checkpoint rfl
  have hdrain : RecoveryStep
      { halfCommitted.crash 1 drainedEngine.mem.heap with phase := .compacting [] }
      { halfCommitted.crash 1 drainedEngine.mem.heap with phase := .compacting [0] } :=
    .step (.drain rfl (dead_first rfl Nat.one_ne_zero only_drained))
  have hpublish := (steps_publish (e :=
    { halfCommitted.crash 1 drainedEngine.mem.heap with phase := .compacting [0] }) rfl).lift id
      fun _ _ h => h.step
  exact ⟨_, (((hhalf.tail hcrash).tail (.recovery hopened)).tail (.recovery hdrain)).trans hpublish,
    rfl, rfl, rfl, rfl⟩

/-- The place of the edge when recovery moves it once more. -/
def lastLocation : RecordLocation := ⟨1, 0, 1⟩

/-- The checkpoint is interrupted before it has committed a tree. -/
def reopenedEngine : Engine := drainedEngine.crash 1 drainedEngine.mem.heap

theorem dropped_unreferenced_reopened :
    ∃ e : Engine, ReflTransGen AgreeingStep .empty e ∧ e.phase = .advanced [0] ∧
      e.disk.indexes.edgeIn knows.id = some lastLocation ∧ lastLocation.segment ≠ 0 := by
  have hheap : drainedEngine.HeapSurvives drainedEngine.mem.heap :=
    ⟨Storage.heapLe_append rfl, Storage.HeapLe.refl _⟩
  have hcrash : AgreeingStep drainedEngine reopenedEngine :=
    .crash 1 (fun _ hr _ => hr) _ hheap fun _ _ _ hin => hin
  have hopened : AgreeingStep reopenedEngine { reopenedEngine with phase := .compacting [] } :=
    .recovery (.checkpoint rfl)
  have hmove : AgreeingStep { reopenedEngine with phase := .compacting [] } { reopenedEngine with
      mem := reopenedEngine.mem.relocate lastLocation (.edge knows), phase := .compacting [] } :=
    .recovery (.step (.relocate rfl rfl List.not_mem_nil
      (rfl : reopenedEngine.mem.heap oldLocation = _) rfl))
  have hdrain : AgreeingStep { reopenedEngine with
      mem := reopenedEngine.mem.relocate lastLocation (.edge knows), phase := .compacting [] }
      { reopenedEngine with
        mem := reopenedEngine.mem.relocate lastLocation (.edge knows), phase := .compacting [0] } :=
    .recovery (.step (.drain rfl (dead_first rfl Nat.one_ne_zero
      (only_append only_drained lastLocation))))
  have hsteps := ((((drainedEngine_reachable.tail hcrash).tail hopened).tail hmove).tail
    hdrain).trans (steps_publish rfl)
  refine ⟨_, hsteps, rfl, rfl, ?_⟩
  exact dropped_unreferenced hsteps rfl List.mem_cons_self (.inr (.inr ⟨knows.id, rfl, rfl⟩))

end Samples

end FacetQL
