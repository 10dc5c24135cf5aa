import FacetQL.Lib.Tally
import FacetQL.Storage.Segments

/-!
# Reclaiming the segments of the heap

A checkpoint moves the live records out of a segment of the heap. Reads take no lock, and may have
resolved an index entry to the old location, so that the segment is only retired, and removed when
no reader is pinned below its epoch (`pin_read`, `drop_unreferenced_segments`). The handlers of
mutations run through `with_engine_mut`, which takes no pin: what they read before they call a
mutation, they read outside of the writer lock and without one.

* `pinned_reader_safe`: a reader reads what it has resolved under its pin;
* `calm_read_safe`: when every task does.
-/

namespace FacetQL

open Relation

/-- How a task reads. -/
inductive Access
  /-- A reader, with the epoch it has pinned. -/
  | pinned (epoch : Nat)
  /-- The handler of a mutation, outside of the writer lock. -/
  | outside
  /-- The handler of a mutation that holds the writer lock. -/
  | inside
  deriving DecidableEq

/-- An index entry that has been resolved, and the epoch at that moment. -/
structure Resolved where
  key : LiveKey
  location : RecordLocation
  epoch : Nat
  deriving DecidableEq

/-- A task, with what it has resolved in the call it is in. -/
structure Task where
  access : Access
  resolved : List Resolved
  deriving DecidableEq

/-- The epoch that a task has pinned. -/
def Task.pin? (t : Task) : Option Nat :=
  match t.access with
  | .pinned epoch => some epoch
  | _ => none

/-- Where the thread that holds the writer lock has got to. -/
inductive WriterPhase
  /-- The lock is free. -/
  | free
  | writing
  /-- In a checkpoint: the live records of these segments have been moved. -/
  | compacting (drained : List Nat)
  /-- The trees are committed. -/
  | committed (drained : List Nat)
  /-- The epoch has been advanced to this one. -/
  | advanced (drained : List Nat) (epoch : Nat)
  /-- The segments are retired. -/
  | retired
  deriving DecidableEq

/-- A checkpoint is under way. -/
def WriterPhase.Busy : WriterPhase → Prop
  | .free => False
  | .writing => False
  | _ => True

/-- An entry of one of the trees that lead to records. -/
def Indexes.Resolves (indexes : Indexes) (key : LiveKey) (location : RecordLocation) : Prop :=
  key.currentLocation indexes = some location ∨
    ∃ id, key = .edge id ∧ indexes.edgeIn id = some location

/-- The storage, and who reads and writes it. -/
structure Reclamation where
  storage : Storage
  /-- The segment that records are appended to. -/
  active : Nat
  /-- The number of the next segment. -/
  next : Nat
  epoch : Nat
  /-- How many readers have pinned each epoch. -/
  readers : List (Nat × Nat)
  /-- Segments that are to be removed, with the epoch at which they were retired. -/
  retired : List (Nat × Nat)
  tasks : List Task
  phase : WriterPhase

namespace Reclamation

/-- A new database. -/
def empty : Reclamation where
  storage := ⟨fun _ => none, ⟨fun _ => none, fun _ => none, fun _ => none, fun _ => none,
    fun _ => none, fun _ => none⟩⟩
  active := 0
  next := 1
  epoch := 0
  readers := []
  retired := []
  tasks := []
  phase := .free

/-- A reader pins the current epoch. -/
def pinRead (r : Reclamation) : Reclamation :=
  { r with readers := Tally.add r.epoch r.readers, tasks := ⟨.pinned r.epoch, []⟩ :: r.tasks }

/-- The oldest epoch that a reader is pinned to. -/
def oldestReader (r : Reclamation) : Option Nat := Tally.least? r.readers

/-- No reader is pinned below the epoch. -/
def Unpinned (r : Reclamation) (epoch : Nat) : Prop := ∀ pinned ∈ r.oldestReader, epoch ≤ pinned

instance (r : Reclamation) (epoch : Nat) : Decidable (r.Unpinned epoch) :=
  match h : r.oldestReader with
  | none => isTrue fun pinned hmem => by rw [h] at hmem; cases hmem
  | some pinned => decidable_of_iff (epoch ≤ pinned) (by simp [Unpinned, h])

/-- Remove every retired segment that no reader can reach any more. -/
def dropUnreferencedSegments (r : Reclamation) : Reclamation :=
  let ready := (r.retired.filter fun c => r.Unpinned c.2).map Prod.fst
  { r with
    storage := { r.storage with heap := r.storage.heap.dropSegments ready }
    retired := r.retired.filter fun c => ¬ r.Unpinned c.2
    phase := .writing }

/-- Appends go to a new segment from now on. -/
def roll (r : Reclamation) : Reclamation := { r with active := r.next, next := r.next + 1 }

/-- While a segment is drained, a live record is copied and the indexes pointed at the copy. -/
inductive Move (segment : Nat) : Reclamation → Reclamation → Prop
  | roll (r : Reclamation) : Move segment r r.roll
  | relocate {r : Reclamation} {fresh location : RecordLocation} {record : HeapRecord}
      (hactive : fresh.segment = r.active) (hfresh : r.storage.heap fresh = none)
      (hsegment : location.segment = segment) (hrecord : r.storage.heap location = some record)
      (hlive : (LiveKey.of record).currentLocation r.storage.indexes = some location) :
      Move segment r { r with storage := r.storage.relocate fresh record }

/-- What the tasks do. -/
inductive TaskStep : Reclamation → Reclamation → Prop
  | pin (r : Reclamation) : TaskStep r r.pinRead
  | release {r : Reclamation} {xs ys : List Task} {epoch : Nat} {resolved : List Resolved}
      (htasks : r.tasks = xs ++ ⟨.pinned epoch, resolved⟩ :: ys) :
      TaskStep r { r with readers := Tally.remove epoch r.readers, tasks := xs ++ ys }
  /-- A request for a mutation comes in. -/
  | begin (r : Reclamation) : TaskStep r { r with tasks := ⟨.outside, []⟩ :: r.tasks }
  /-- The handler has its answer. -/
  | finish {r : Reclamation} {xs ys : List Task} {resolved : List Resolved}
      (htasks : r.tasks = xs ++ ⟨.outside, resolved⟩ :: ys) :
      TaskStep r { r with tasks := xs ++ ys }
  /-- An index entry is resolved; with the writer lock held this is not during a checkpoint. -/
  | resolve {r : Reclamation} {xs ys : List Task} {t : Task} (htasks : r.tasks = xs ++ t :: ys)
      (hlock : t.access = .inside → r.phase = .writing) {key : LiveKey} {location : RecordLocation}
      (hentry : r.storage.indexes.Resolves key location) :
      TaskStep r { r with
        tasks := xs ++ { t with resolved := ⟨key, location, r.epoch⟩ :: t.resolved } :: ys }
  /-- The call that a handler has made returns: it has read what it has resolved. -/
  | answer {r : Reclamation} {xs ys : List Task} {t : Task} (htasks : r.tasks = xs ++ t :: ys)
      (hpin : t.pin? = none) : TaskStep r { r with tasks := xs ++ { t with resolved := [] } :: ys }
  | lock {r : Reclamation} {xs ys : List Task} (htasks : r.tasks = xs ++ ⟨.outside, []⟩ :: ys)
      (hphase : r.phase = .free) :
      TaskStep r { r with tasks := xs ++ ⟨.inside, []⟩ :: ys, phase := .writing }
  | unlock {r : Reclamation} {xs ys : List Task} (htasks : r.tasks = xs ++ ⟨.inside, []⟩ :: ys)
      (hphase : r.phase = .writing) :
      TaskStep r { r with tasks := xs ++ ⟨.outside, []⟩ :: ys, phase := .free }

/-- What the thread with the writer lock does. -/
inductive WriterStep : Reclamation → Reclamation → Prop
  | roll {r : Reclamation} (hphase : r.phase = .writing) : WriterStep r r.roll
  | mutate {r : Reclamation} (hphase : r.phase = .writing) {fresh : RecordLocation} {op : Operation}
      {storage : Storage} (hactive : fresh.segment = r.active) (hfresh : r.storage.heap fresh = none)
      (happly : Storage.applyOperation fresh r.storage op = .ok storage) :
      WriterStep r { r with storage := storage }
  /-- The mutation is applied, its reads are done, and a checkpoint is due. -/
  | checkpoint {r : Reclamation} (hphase : r.phase = .writing)
      (hreads : ∀ t ∈ r.tasks, t.access = .inside → t.resolved = []) :
      WriterStep r { r with phase := .compacting [] }
  | drain {r r' : Reclamation} {drained : List Nat} (hphase : r.phase = .compacting drained)
      {segment : Nat} (hactive : segment ≠ r.active) (hnext : segment < r.next)
      (hmoves : ReflTransGen (Move segment) r r') (hdead : r'.storage.Dead segment) :
      WriterStep r { r' with phase := .compacting (segment :: drained) }
  | commit {r : Reclamation} {drained : List Nat} (hphase : r.phase = .compacting drained) :
      WriterStep r { r with phase := .committed drained }
  | advance {r : Reclamation} {drained : List Nat} (hphase : r.phase = .committed drained) :
      WriterStep r { r with epoch := r.epoch + 1, phase := .advanced drained (r.epoch + 1) }
  | retire {r : Reclamation} {drained : List Nat} {epoch : Nat}
      (hphase : r.phase = .advanced drained epoch) :
      WriterStep r { r with
        retired := r.retired ++ drained.map (·, epoch)
        phase := .retired }
  | drop {r : Reclamation} (hphase : r.phase = .retired) :
      WriterStep r r.dropUnreferencedSegments

/-- The steps of all of them, in any order. -/
inductive Step : Reclamation → Reclamation → Prop
  | task {r r' : Reclamation} (h : TaskStep r r') : Step r r'
  | writer {r r' : Reclamation} (h : WriterStep r r') : Step r r'

/-- A run. -/
abbrev Steps : Reclamation → Reclamation → Prop := ReflTransGen Step

/-! ## The invariant -/

/-- The segments that are retired, or about to be, with the epoch for that. -/
def condemned (r : Reclamation) : List (Nat × Nat) :=
  r.retired ++ match r.phase with
    | .compacting drained => drained.map (·, r.epoch + 1)
    | .committed drained => drained.map (·, r.epoch + 1)
    | .advanced drained epoch => drained.map (·, epoch)
    | _ => []

/-- The record can be read. -/
def Readable (s : Storage) (x : Resolved) : Prop :=
  ∃ record, s.heap x.location = some record ∧ LiveKey.of record = x.key

/-- What holds of the heap, the trees and the segments. -/
structure StorageInv (r : Reclamation) : Prop where
  well : r.storage.WellPointed
  mirrored : ∀ id location, r.storage.indexes.edgeIn id = some location →
    r.storage.indexes.edgeOut id = some location
  active : r.active < r.next
  segments : ∀ location, r.storage.heap location ≠ none → location.segment < r.next

/-- A segment that nothing is appended to any more. -/
def Closed (r : Reclamation) (segment : Nat) : Prop := segment < r.next ∧ segment ≠ r.active

/-- The segments, with the entries that say which records are live. -/
def heapSegments : Segments Reclamation where
  heap r := r.storage.heap
  Closed := Closed
  Leads r location := ∃ key : LiveKey, key.currentLocation r.storage.indexes = some location

/-- A task has pinned no later epoch than those at which it has resolved entries, and those in a
    condemned segment before its epoch. -/
structure TaskInv (r : Reclamation) (t : Task) : Prop where
  pin : ∀ epoch ∈ t.pin?, epoch ≤ r.epoch ∧ ∀ x ∈ t.resolved, epoch ≤ x.epoch
  stamp : ∀ x ∈ t.resolved, x.epoch ≤ r.epoch ∧
    ∀ c ∈ r.condemned, x.location.segment = c.1 → x.epoch < c.2
  inside : r.phase.Busy → t.access = .inside → t.resolved = []
  readable : t.access ≠ .outside → ∀ x ∈ t.resolved, Readable r.storage x

/-- What holds of the storage, the tasks and the retired segments. -/
structure Inv (r : Reclamation) : Prop where
  storage : r.StorageInv
  condemned : ∀ c ∈ r.condemned, heapSegments.Dead r c.1
  retired : ∀ c ∈ r.retired, c.2 ≤ r.epoch
  advanced : ∀ drained epoch, r.phase = .advanced drained epoch → epoch = r.epoch
  counts : Tally.Counts r.readers (r.tasks.filterMap Task.pin?)
  tasks : ∀ t ∈ r.tasks, r.TaskInv t

variable {r r' : Reclamation} {x : Resolved} {s s' : Storage}

theorem Readable.mono (h : Readable s x) (hle : Storage.HeapLe s.heap s'.heap) : Readable s' x := by
  obtain ⟨record, hrecord, hof⟩ := h
  exact ⟨record, hle _ _ hrecord, hof⟩

variable {key : LiveKey} {location : RecordLocation} {segment : Nat} {fresh : RecordLocation}
  {t : Task} {xs ys : List Task} {epoch : Nat} {c : Nat × Nat}

/-- An entry of either edge tree leads to where the outgoing edges say the edge is. -/
theorem StorageInv.resolves (h : r.StorageInv) (hentry : r.storage.indexes.Resolves key location) :
    key.currentLocation r.storage.indexes = some location := by
  rcases hentry with hentry | ⟨id, rfl, hentry⟩
  · exact hentry
  · exact h.mirrored id location hentry

theorem StorageInv.readable (h : r.StorageInv) (hentry : r.storage.indexes.Resolves key location)
    (epoch : Nat) : Readable r.storage ⟨key, location, epoch⟩ :=
  h.well key location (h.resolves hentry)

/-! ### The writer -/

/-- What one step of the writer may do to the storage. -/
structure Grows (r r' : Reclamation) : Prop extends heapSegments.Grows r r' where
  inv : r'.StorageInv

theorem Closed.roll (h : r.Closed segment) : r.roll.Closed segment :=
  ⟨h.1.trans (Nat.lt_succ_self _), h.1.ne⟩

theorem StorageInv.roll (h : r.StorageInv) : r.Grows r.roll where
  heap := Storage.HeapLe.refl _
  closed _ hclosed := hclosed.roll
  appended _ _ hne := hne
  entries _ _ hleads := hleads
  inv := ⟨h.well, h.mirrored, Nat.lt_succ_self _,
    fun location hne => (h.segments location hne).trans (Nat.lt_succ_self _)⟩

/-- Records are appended to the active segment, and entries are pointed at them. -/
theorem StorageInv.grows (h : r.StorageInv) (hactive : fresh.segment = r.active)
    (hfresh : r.storage.heap fresh = none) (hwell : s.WellPointed)
    {w : LiveKey × Option HeapRecord} (hw : Storage.Written fresh r.storage s w) :
    r.Grows { r with storage := s } where
  heap := hw.heapLe hfresh
  closed _ hclosed := hclosed
  appended location hclosed hne := by
    rcases hw.mem_heap hne with hold | rfl
    · exact hold
    · exact absurd hactive hclosed.2
  entries location hclosed hleads := by
    obtain ⟨key, hkey⟩ := hleads
    rcases hw.entries hkey with hold | rfl
    · exact ⟨key, hold⟩
    · exact absurd hactive hclosed.2
  inv := by
    refine ⟨hwell, fun id location => hw.edgeOut_of_edgeIn (.inr (h.mirrored id location)),
      h.active, fun location hne => ?_⟩
    rcases hw.mem_heap hne with hold | rfl
    · exact h.segments location hold
    · exact hactive ▸ h.active

theorem StorageInv.mutate (h : r.StorageInv) {op : Operation} (hactive : fresh.segment = r.active)
    (hfresh : r.storage.heap fresh = none)
    (happly : Storage.applyOperation fresh r.storage op = .ok s) :
    r.Grows { r with storage := s } := by
  obtain ⟨s', hok, hwell, -⟩ := Storage.applyOperation_spec h.well hfresh op
  obtain rfl : s' = s := Except.ok.inj (hok.symm.trans happly)
  exact h.grows hactive hfresh hwell (Storage.applyOperation_written happly)

theorem StorageInv.move (h : r.StorageInv) (hmove : Move segment r r') : r.Grows r' := by
  cases hmove with
  | roll => exact h.roll
  | @relocate fresh location record hactive hfresh hsegment hrecord hlive =>
    exact h.grows hactive hfresh (Storage.relocate_spec h.well hfresh hrecord hlive).1
      (Storage.written_repoint ..)

theorem StorageInv.moves (h : r.StorageInv) (hmoves : ReflTransGen (Move segment) r r') :
    r.Grows r' := by
  induction hmoves with
  | refl => exact ⟨.refl _ _, h⟩
  | tail _ hmove ih =>
    have hgrows := ih.inv.move hmove
    exact ⟨ih.toGrows.trans hgrows.toGrows, hgrows.inv⟩

/-- Moving records touches nothing else. -/
theorem Move.frame {segment : Nat} (hmoves : ReflTransGen (Move segment) r r') :
    ∃ storage active next, r' = { r with storage, active, next } := by
  induction hmoves with
  | refl => exact ⟨_, _, _, rfl⟩
  | tail _ hmove ih =>
    obtain ⟨storage, active, next, rfl⟩ := ih
    cases hmove <;> exact ⟨_, _, _, rfl⟩

theorem StorageInv.dead (h : r.StorageInv) (hclosed : r.Closed segment)
    (hdead : r.storage.Dead segment) : heapSegments.Dead r segment :=
  ⟨hclosed, fun location ⟨key, hkey⟩ => h.well.unreferenced hdead key location hkey⟩

/-! ### The tasks -/

theorem TaskInv.congr (h : r.TaskInv t) (hepoch : r'.epoch = r.epoch)
    (hcondemned : r'.condemned = r.condemned) (hbusy : r'.phase.Busy → r.phase.Busy)
    (hheap : Storage.HeapLe r.storage.heap r'.storage.heap) : r'.TaskInv t where
  pin epoch hmem := hepoch ▸ h.pin epoch hmem
  stamp x hx := hepoch ▸ hcondemned ▸ h.stamp x hx
  inside hphase := h.inside (hbusy hphase)
  readable hout x hx := (h.readable hout x hx).mono hheap

theorem TaskInv.nil (access : Access) (hpin : access = .pinned r.epoch ∨ ∀ e, access ≠ .pinned e) :
    r.TaskInv ⟨access, []⟩ where
  pin epoch hmem := by
    rcases hpin with rfl | hno
    · rw [← Option.some.inj hmem]
      exact ⟨le_rfl, nofun⟩
    · cases access with
      | pinned e => exact absurd rfl (hno e)
      | outside | inside => cases hmem
  stamp := nofun
  inside _ _ := rfl
  readable := nofun

theorem Inv.empty : Reclamation.empty.Inv where
  storage := by
    refine ⟨fun key location hkey => ?_, fun _ _ hin => hin, Nat.zero_lt_one,
      fun _ hne => absurd rfl hne⟩
    cases key <;> cases hkey
  condemned := nofun
  retired := nofun
  advanced := nofun
  counts := Tally.counts_nil
  tasks := nofun

/-- Only the tasks change, and the lock is taken or given back. -/
theorem Inv.retask (h : r.Inv) {readers : List (Nat × Nat)} {tasks : List Task} {phase : WriterPhase}
    (hphase : phase = r.phase ∨ ¬ phase.Busy ∧ ¬ r.phase.Busy)
    (hcounts : Tally.Counts readers (tasks.filterMap Task.pin?))
    (htasks : ∀ t ∈ tasks, r.TaskInv t) :
    Inv { r with readers := readers, tasks := tasks, phase := phase } := by
  have hcondemned : Reclamation.condemned { r with readers := readers, tasks := tasks, phase := phase } =
      r.condemned := by
    rcases hphase with rfl | ⟨hfree, hfree'⟩
    · rfl
    · cases hnow : r.phase <;> cases phase <;> simp_all [Reclamation.condemned, WriterPhase.Busy]
  refine ⟨{ h.storage with },
    fun c hc => { h.condemned c (hcondemned ▸ hc) with }, h.retired,
    fun drained epoch hadvanced => ?_, hcounts,
    fun t ht => (htasks t ht).congr rfl hcondemned (fun hbusy => ?_) (Storage.HeapLe.refl _)⟩
  · rcases hphase with rfl | ⟨hfree, -⟩
    · exact h.advanced drained epoch hadvanced
    · obtain rfl : phase = .advanced drained epoch := hadvanced
      exact absurd trivial hfree
  · rcases hphase with rfl | ⟨hfree, -⟩
    · exact hbusy
    · exact absurd hbusy hfree

/-- Splitting off one of the tasks. -/
theorem forall_tasks {P : Task → Prop} (h : ∀ t ∈ r.tasks, P t) (htasks : r.tasks = xs ++ t :: ys) :
    P t ∧ ∀ u ∈ xs ++ ys, P u := by
  rw [htasks, List.forall_mem_append, List.forall_mem_cons] at h
  exact ⟨h.2.1, List.forall_mem_append.2 ⟨h.1, h.2.2⟩⟩

theorem forall_replace {P : Task → Prop} (ht : P t) (h : ∀ u ∈ xs ++ ys, P u) :
    ∀ u ∈ xs ++ t :: ys, P u := by
  rw [List.forall_mem_append] at h
  exact List.forall_mem_append.2 ⟨h.1, List.forall_mem_cons.2 ⟨ht, h.2⟩⟩

theorem Inv.counts_replace (h : r.Inv) (htasks : r.tasks = xs ++ t :: ys) (u : Task)
    (hpin : u.pin? = t.pin?) : Tally.Counts r.readers ((xs ++ u :: ys).filterMap Task.pin?) := by
  have hcounts := h.counts
  rw [htasks] at hcounts
  simpa only [List.filterMap_append, List.filterMap_cons, hpin] using hcounts

theorem Inv.resolved (h : r.Inv) (hentry : r.storage.indexes.Resolves key location) (c : Nat × Nat)
    (hc : c ∈ r.condemned) : location.segment ≠ c.1 :=
  (h.condemned c hc).unreferenced location ⟨key, h.storage.resolves hentry⟩

theorem Inv.taskStep (h : r.Inv) (hstep : TaskStep r r') : r'.Inv := by
  cases hstep with
  | pin =>
    exact h.retask (.inl rfl) (h.counts.add r.epoch)
      (List.forall_mem_cons.2 ⟨.nil _ (.inl rfl), h.tasks⟩)
  | @release xs ys epoch resolved htasks =>
    obtain ⟨-, hothers⟩ := forall_tasks h.tasks htasks
    refine h.retask (.inl rfl) ?_ hothers
    have hperm : (r.tasks.filterMap Task.pin?).Perm (epoch :: (xs ++ ys).filterMap Task.pin?) := by
      rw [htasks]
      exact List.Perm.filterMap Task.pin? List.perm_middle
    exact (h.counts.perm hperm).remove
  | begin =>
    exact h.retask (.inl rfl) h.counts (List.forall_mem_cons.2 ⟨.nil _ (.inr nofun), h.tasks⟩)
  | @finish xs ys resolved htasks =>
    obtain ⟨-, hothers⟩ := forall_tasks h.tasks htasks
    have hcounts := h.counts
    rw [htasks] at hcounts
    refine h.retask (.inl rfl) ?_ hothers
    simpa only [List.filterMap_append, List.filterMap_cons, Task.pin?] using hcounts
  | @resolve xs ys t htasks hlock key location hentry =>
    obtain ⟨ht, hothers⟩ := forall_tasks h.tasks htasks
    refine h.retask (.inl rfl) (h.counts_replace htasks _ rfl) (forall_replace ?_ hothers)
    refine ⟨fun epoch hpin => ?_, List.forall_mem_cons.2 ⟨⟨le_rfl, fun c hc hsegment => ?_⟩, ht.stamp⟩,
      fun hbusy hin => ?_, fun hout => ?_⟩
    · obtain ⟨hle, hold⟩ := ht.pin epoch hpin
      exact ⟨hle, List.forall_mem_cons.2 ⟨hle, hold⟩⟩
    · exact absurd hsegment (h.resolved hentry c hc)
    · rw [hlock hin] at hbusy
      exact hbusy.elim
    · exact List.forall_mem_cons.2 ⟨h.storage.readable hentry r.epoch, ht.readable hout⟩
  | @answer xs ys t htasks hpin =>
    obtain ⟨ht, hothers⟩ := forall_tasks h.tasks htasks
    refine h.retask (.inl rfl) (h.counts_replace htasks _ rfl) (forall_replace ?_ hothers)
    refine .nil _ (.inr fun epoch haccess => ?_)
    rw [Task.pin?, haccess] at hpin
    cases hpin
  | @lock xs ys htasks hphase | @unlock xs ys htasks hphase =>
    obtain ⟨-, hothers⟩ := forall_tasks h.tasks htasks
    exact h.retask (.inr ⟨id, hphase ▸ id⟩) (h.counts_replace htasks _ rfl)
      (forall_replace (.nil _ (.inr nofun)) hothers)

/-! ### The steps of the writer -/

variable {storage : Storage} {active next : Nat}

theorem Inv.grows (h : r.Inv) (hgrows : r.Grows { r with storage, active, next }) :
    Inv { r with storage, active, next } where
  storage := hgrows.inv
  condemned c hc := (h.condemned c hc).grows hgrows.toGrows
  retired := h.retired
  advanced := h.advanced
  counts := h.counts
  tasks t ht := (h.tasks t ht).congr rfl rfl id hgrows.heap

theorem Inv.rephase (h : r.Inv) {retired : List (Nat × Nat)} {phase : WriterPhase}
    (hepoch : r.epoch ≤ epoch)
    (hcondemned : Reclamation.condemned { r with epoch := epoch, retired := retired, phase := phase } =
      r.condemned) (hretired : ∀ c ∈ retired, c.2 ≤ epoch)
    (hadvanced : ∀ drained e, phase = .advanced drained e → e = epoch)
    (hinside : ∀ t ∈ r.tasks, t.access = .inside → t.resolved = []) :
    Inv { r with epoch := epoch, retired := retired, phase := phase } where
  storage := { h.storage with }
  condemned c hc := { h.condemned c (hcondemned ▸ hc) with }
  retired := hretired
  advanced := hadvanced
  counts := h.counts
  tasks t ht := by
    have htask := h.tasks t ht
    refine ⟨fun e hpin => ?_, fun x hx => ?_, fun _ => hinside t ht, htask.readable⟩
    · exact ⟨(htask.pin e hpin).1.trans hepoch, (htask.pin e hpin).2⟩
    · exact ⟨(htask.stamp x hx).1.trans hepoch, hcondemned ▸ (htask.stamp x hx).2⟩

theorem Inv.inside (h : r.Inv) (hbusy : r.phase.Busy) :
    ∀ t ∈ r.tasks, t.access = .inside → t.resolved = [] :=
  fun t ht => (h.tasks t ht).inside hbusy

/-- A segment is drained: nothing was resolved at a later epoch than this. -/
theorem Inv.drain (h : r.Inv) {drained : List Nat} (hphase : r.phase = .compacting drained)
    (hclosed : r.Closed segment) (hmoves : ReflTransGen (Move segment) r r')
    (hdead : r'.storage.Dead segment) :
    Inv { r' with phase := .compacting (segment :: drained) } := by
  obtain ⟨storage, active, next, rfl⟩ := Move.frame hmoves
  have hgrows := h.storage.moves hmoves
  have hinv := h.grows hgrows
  have hcases : ∀ c ∈ Reclamation.condemned
      { r with storage, active, next, phase := .compacting (segment :: drained) },
      c = (segment, r.epoch + 1) ∨ c ∈ r.condemned := by
    intro c hc
    rw [Reclamation.condemned, hphase, List.mem_append]
    rcases List.mem_append.1 hc with hc | hc
    · exact .inr (.inl hc)
    · exact (List.mem_cons.1 hc).imp_right .inr
  refine ⟨{ hinv.storage with }, fun c hc => ?_, hinv.retired, nofun, hinv.counts, fun t ht => ?_⟩
  · rcases hcases c hc with rfl | hc
    · exact { hinv.storage.dead (hgrows.closed segment hclosed) hdead with }
    · exact { hinv.condemned c hc with }
  have htask := hinv.tasks t ht
  refine ⟨htask.pin, fun x hx => ⟨(htask.stamp x hx).1, fun c hc hsegment => ?_⟩,
    fun _ => htask.inside (hphase ▸ trivial), htask.readable⟩
  rcases hcases c hc with rfl | hc
  · exact Nat.lt_succ_of_le (htask.stamp x hx).1
  · exact (htask.stamp x hx).2 c hc hsegment

/-- The segments that are removed now. -/
def ready (r : Reclamation) : List Nat := (r.retired.filter fun c => r.Unpinned c.2).map Prod.fst

theorem mem_ready : segment ∈ r.ready ↔ ∃ c ∈ r.retired, r.Unpinned c.2 ∧ c.1 = segment := by
  simp only [ready, List.mem_map, List.mem_filter, decide_eq_true_eq, and_assoc]

theorem heap_dropUnreferencedSegments (location : RecordLocation) :
    r.dropUnreferencedSegments.storage.heap location =
      if location.segment ∈ r.ready then none else r.storage.heap location := rfl

/-- An epoch that no reader is pinned below. -/
theorem Inv.unpinned_iff (h : r.Inv) (epoch : Nat) :
    r.Unpinned epoch ↔ ∀ t ∈ r.tasks, ∀ pinned ∈ t.pin?, epoch ≤ pinned := by
  constructor
  · intro hfree t ht pinned hpin
    have hmem : pinned ∈ r.tasks.filterMap Task.pin? := List.mem_filterMap.2 ⟨t, ht, hpin⟩
    rcases hleast : r.oldestReader with _ | least
    · rw [h.counts.eq_nil hleast] at hmem
      cases hmem
    · exact (hfree least hleast).trans (h.counts.least_le hleast hmem)
  · intro hall pinned hleast
    obtain ⟨t, ht, hpin⟩ := List.mem_filterMap.1 (h.counts.least_mem hleast)
    exact hall t ht pinned hpin

theorem Inv.not_ready (h : r.Inv) (ht : t ∈ r.tasks) (hpin : epoch ∈ t.pin?) {x : Resolved}
    (hx : x ∈ t.resolved) : x.location.segment ∉ r.ready := by
  intro hready
  obtain ⟨c, hc, hfree, hsegment⟩ := mem_ready.1 hready
  have hlt := ((h.tasks t ht).stamp x hx).2 c (List.mem_append_left _ hc) hsegment.symm
  have hle := (h.unpinned_iff c.2).1 hfree t ht epoch hpin
  exact absurd (hle.trans (((h.tasks t ht).pin epoch hpin).2 x hx)) hlt.not_ge

theorem Readable.drop (h : Readable r.storage x) (hsegment : x.location.segment ∉ r.ready) :
    Readable r.dropUnreferencedSegments.storage x := by
  obtain ⟨record, hrecord, hof⟩ := h
  refine ⟨record, ?_, hof⟩
  rw [heap_dropUnreferencedSegments, if_neg hsegment, hrecord]

theorem Inv.drop (h : r.Inv) (hphase : r.phase = .retired) : r.dropUnreferencedSegments.Inv := by
  have hfree : ∀ segment ∈ r.ready, r.storage.indexes.Unreferenced segment := by
    intro segment hready key location hkey
    obtain ⟨c, hc, -, rfl⟩ := mem_ready.1 hready
    exact (h.condemned c (List.mem_append_left _ hc)).unreferenced location ⟨key, hkey⟩
  have hsub : ∀ c ∈ r.dropUnreferencedSegments.condemned, c ∈ r.retired := by
    intro c hc
    rw [Reclamation.condemned] at hc
    exact List.mem_of_mem_filter ((List.mem_append.1 hc).resolve_right List.not_mem_nil)
  refine ⟨⟨(h.storage.well.dropSegments hfree).1, h.storage.mirrored, h.storage.active,
      fun location hne => ?_⟩,
    fun c hc => ?_, fun c hc => h.retired c (List.mem_of_mem_filter hc), nofun, h.counts,
    fun t ht => ?_⟩
  · rw [heap_dropUnreferencedSegments] at hne
    split_ifs at hne with hready
    · exact absurd rfl hne
    · exact h.storage.segments location hne
  · exact { h.condemned c (List.mem_append_left _ (hsub c hc)) with }
  · have htask := h.tasks t ht
    refine ⟨htask.pin, fun x hx => ⟨(htask.stamp x hx).1, fun c hc => ?_⟩, fun hbusy => hbusy.elim,
      fun hout x hx => ?_⟩
    · exact (htask.stamp x hx).2 c (List.mem_append_left _ (hsub c hc))
    cases haccess : t.access with
    | pinned epoch =>
      have hpin : epoch ∈ t.pin? := by
        rw [Task.pin?, haccess]
        rfl
      exact (htask.readable hout x hx).drop (h.not_ready ht hpin hx)
    | outside => exact absurd haccess hout
    | inside =>
      rw [htask.inside (hphase ▸ trivial) haccess] at hx
      cases hx

theorem Inv.writerStep (h : r.Inv) (hstep : WriterStep r r') : r'.Inv := by
  cases hstep with
  | roll hphase => exact h.grows h.storage.roll
  | mutate hphase hactive hfresh happly => exact h.grows (h.storage.mutate hactive hfresh happly)
  | checkpoint hphase hreads =>
    refine h.rephase le_rfl ?_ h.retired nofun hreads
    rw [Reclamation.condemned, Reclamation.condemned, hphase]
    rfl
  | drain hphase hactive hnext hmoves hdead => exact h.drain hphase ⟨hnext, hactive⟩ hmoves hdead
  | commit hphase =>
    refine h.rephase le_rfl ?_ h.retired nofun (h.inside (hphase ▸ trivial))
    rw [Reclamation.condemned, Reclamation.condemned, hphase]
  | advance hphase =>
    refine h.rephase (Nat.le_succ _) ?_ (fun c hc => (h.retired c hc).trans (Nat.le_succ _)) ?_
      (h.inside (hphase ▸ trivial))
    · rw [Reclamation.condemned, Reclamation.condemned, hphase]
    · intro drained epoch heq
      cases heq
      rfl
  | @retire drained epoch hphase =>
    refine h.rephase le_rfl ?_ (fun c hc => ?_) nofun (h.inside (hphase ▸ trivial))
    · rw [Reclamation.condemned, Reclamation.condemned, hphase]
      exact List.append_nil _
    · rcases List.mem_append.1 hc with hc | hc
      · exact h.retired c hc
      · obtain ⟨segment, -, rfl⟩ := List.mem_map.1 hc
        exact (h.advanced drained epoch hphase).le
  | drop hphase => exact h.drop hphase

theorem Inv.step (h : r.Inv) (hstep : Step r r') : r'.Inv := by
  cases hstep with
  | task hstep => exact h.taskStep hstep
  | writer hstep => exact h.writerStep hstep

theorem Inv.steps (h : r.Inv) (hsteps : Steps r r') : r'.Inv := by
  induction hsteps with
  | refl => exact h
  | tail _ hstep ih => exact ih.step hstep

/-! ## Readers under a pin -/

theorem TaskStep.frame (hstep : TaskStep r r') : r'.storage = r.storage ∧ r'.active = r.active ∧
    r'.next = r.next ∧ r'.epoch = r.epoch ∧ r'.retired = r.retired := by
  cases hstep <;> exact ⟨rfl, rfl, rfl, rfl, rfl⟩

/-- A reader that comes in pins the epoch of now. -/
theorem Step.pins {P : Nat → Prop} (h : ∀ t ∈ r.tasks, ∀ epoch ∈ t.pin?, P epoch) (hnow : P r.epoch)
    (hstep : Step r r') : ∀ t ∈ r'.tasks, ∀ epoch ∈ t.pin?, P epoch := by
  cases hstep with
  | task hstep =>
    cases hstep with
    | pin => exact List.forall_mem_cons.2 ⟨fun epoch hpin => Option.some.inj hpin ▸ hnow, h⟩
    | begin => exact List.forall_mem_cons.2 ⟨nofun, h⟩
    | release htasks | finish htasks => exact (forall_tasks h htasks).2
    | resolve htasks hlock hentry | answer htasks _ | lock htasks _ | unlock htasks _ =>
      obtain ⟨ht, hothers⟩ := forall_tasks h htasks
      exact forall_replace ht hothers
  | writer hstep =>
    cases hstep with
    | drain hphase hactive hnext hmoves hdead =>
      obtain ⟨storage, active, next, rfl⟩ := Move.frame hmoves
      exact h
    | _ => exact h

/-- A closed segment that will be removed when the older pins are gone, or has been. -/
structure Leaving (r : Reclamation) (c : Nat × Nat) : Prop where
  closed : r.Closed c.1
  epoch : c.2 ≤ r.epoch
  pins : ∀ t ∈ r.tasks, ∀ epoch ∈ t.pin?, c.2 ≤ epoch
  left : c ∈ r.retired ∨ ∀ location, location.segment = c.1 → r.storage.heap location = none

theorem Leaving.grows (h : r.Leaving c) (hgrows : r.Grows { r with storage, active, next }) :
    Leaving { r with storage, active, next } c := by
  refine ⟨hgrows.closed _ h.closed, h.epoch, h.pins, h.left.imp_right fun hgone location hsegment => ?_⟩
  by_contra hne
  exact hgrows.appended location (hsegment ▸ h.closed) hne (hgone location hsegment)

/-- Removing segments removes this one. -/
theorem Leaving.dropped (h : r.Leaving c) (hinv : r.Inv) :
    c ∉ r.dropUnreferencedSegments.retired ∧
      ∀ location, location.segment = c.1 → r.dropUnreferencedSegments.storage.heap location = none := by
  have hfree : r.Unpinned c.2 := (hinv.unpinned_iff c.2).2 h.pins
  constructor
  · intro hmem
    exact of_decide_eq_true (List.mem_filter.1 hmem).2 hfree
  intro location hsegment
  rw [heap_dropUnreferencedSegments]
  split_ifs with hready
  · rfl
  · rcases h.left with hretired | hgone
    · exact absurd (mem_ready.2 ⟨c, hretired, hfree, hsegment.symm⟩) hready
    · exact hgone location hsegment

theorem Leaving.step (h : r.Leaving c) (hinv : r.Inv) (hstep : Step r r') : r'.Leaving c := by
  have hpins := hstep.pins h.pins h.epoch
  cases hstep with
  | task hstep =>
    obtain ⟨hstorage, hactive, hnext, hepoch, hretired⟩ := hstep.frame
    refine ⟨?_, hepoch ▸ h.epoch, hpins, hretired ▸ hstorage ▸ h.left⟩
    rw [Closed, hactive, hnext]
    exact h.closed
  | writer hstep =>
    cases hstep with
    | roll hphase => exact h.grows hinv.storage.roll
    | mutate hphase hactive hfresh happly => exact h.grows (hinv.storage.mutate hactive hfresh happly)
    | checkpoint hphase hreads | commit hphase => exact ⟨h.closed, h.epoch, hpins, h.left⟩
    | drain hphase hactive hnext hmoves hdead =>
      obtain ⟨storage, active, next, rfl⟩ := Move.frame hmoves
      exact { h.grows (hinv.storage.moves hmoves) with }
    | advance hphase => exact ⟨h.closed, h.epoch.trans (Nat.le_succ _), hpins, h.left⟩
    | retire hphase => exact ⟨h.closed, h.epoch, hpins, h.left.imp_left (List.mem_append_left _)⟩
    | drop hphase => exact ⟨h.closed, h.epoch, hpins, .inr (h.dropped hinv).2⟩

theorem Leaving.steps (h : r.Leaving c) (hinv : r.Inv) (hsteps : Steps r r') : r'.Leaving c := by
  induction hsteps with
  | refl => exact h
  | tail hsteps hstep ih => exact ih.step (hinv.steps hsteps) hstep

theorem Readable.read (h : Readable s x) :
    ∃ record, s.read x.location = .ok record ∧ LiveKey.of record = x.key := by
  obtain ⟨record, hrecord, hof⟩ := h
  exact ⟨record, by rw [Storage.read, hrecord], hof⟩

/-! ## Handlers without a pin -/

/-- No handler is, outside of the lock, in the middle of a read in a segment that can be removed
    now, which it has begun before the epoch of the segment. -/
def Calm (r : Reclamation) : Prop :=
  ∀ t ∈ r.tasks, t.access = .outside → ∀ x ∈ t.resolved, ∀ c ∈ r.retired, r.Unpinned c.2 →
    x.location.segment = c.1 → c.2 ≤ x.epoch

instance (r : Reclamation) : Decidable r.Calm := by
  unfold Calm
  infer_instance

/-- A step that removes segments only when this is so. -/
def CalmStep (r r' : Reclamation) : Prop :=
  Step r r' ∧ (r.phase = .retired → r'.phase = .writing → r.Calm)

/-- What has been resolved can be read, also without a pin. -/
def AllReadable (r : Reclamation) : Prop := ∀ t ∈ r.tasks, ∀ x ∈ t.resolved, Readable r.storage x

theorem AllReadable.taskStep (h : r.AllReadable) (hinv : r.Inv) (hstep : TaskStep r r') :
    r'.AllReadable := by
  cases hstep with
  | pin | begin => exact List.forall_mem_cons.2 ⟨nofun, h⟩
  | release htasks | finish htasks => exact (forall_tasks h htasks).2
  | resolve htasks hlock hentry =>
    obtain ⟨ht, hothers⟩ := forall_tasks h htasks
    exact forall_replace (List.forall_mem_cons.2 ⟨hinv.storage.readable hentry r.epoch, ht⟩) hothers
  | answer htasks _ | lock htasks _ | unlock htasks _ =>
    exact forall_replace nofun (forall_tasks h htasks).2

theorem AllReadable.drop (h : r.AllReadable) (hinv : r.Inv) (hphase : r.phase = .retired)
    (hcalm : r.Calm) : r.dropUnreferencedSegments.AllReadable := by
  intro t ht x hx
  cases haccess : t.access with
  | outside =>
    refine (h t ht x hx).drop fun hready => ?_
    obtain ⟨c, hc, hfree, hsegment⟩ := mem_ready.1 hready
    have hlt := ((hinv.tasks t ht).stamp x hx).2 c (List.mem_append_left _ hc) hsegment.symm
    exact absurd (hcalm t ht haccess x hx c hc hfree hsegment.symm) hlt.not_ge
  | _ =>
    refine ((hinv.drop hphase).tasks t ht).readable ?_ x hx
    rw [haccess]
    exact nofun

theorem AllReadable.step (h : r.AllReadable) (hinv : r.Inv) (hstep : CalmStep r r') :
    r'.AllReadable := by
  obtain ⟨hstep, hcalm⟩ := hstep
  have hmono (hheap : Storage.HeapLe r.storage.heap r'.storage.heap) (htasks : r'.tasks = r.tasks) :
      r'.AllReadable := fun t ht x hx => (h t (htasks ▸ ht) x hx).mono hheap
  cases hstep with
  | task hstep => exact h.taskStep hinv hstep
  | writer hstep =>
    cases hstep with
    | roll hphase => exact hmono hinv.storage.roll.heap rfl
    | mutate hphase hactive hfresh happly =>
      exact hmono (hinv.storage.mutate hactive hfresh happly).heap rfl
    | drain hphase hactive hnext hmoves hdead =>
      obtain ⟨storage, active, next, rfl⟩ := Move.frame hmoves
      exact hmono (hinv.storage.moves hmoves).heap rfl
    | drop hphase => exact h.drop hinv hphase (hcalm hphase rfl)
    | _ => exact hmono (Storage.HeapLe.refl _) rfl

/-! ## A segment that is drained -/

theorem CalmStep.task (hstep : TaskStep r r') (hphase : r.phase ≠ .retired) : CalmStep r r' :=
  ⟨.task hstep, fun h => absurd h hphase⟩

theorem CalmStep.writer (hstep : WriterStep r r') (hphase : r.phase ≠ .retired) : CalmStep r r' :=
  ⟨.writer hstep, fun h => absurd h hphase⟩

def firstLocation : RecordLocation := ⟨0, 0, 0⟩

def movedLocation : RecordLocation := ⟨1, 0, 0⟩

def firstNode : Node := ⟨"n", ⟨0, 0, 0, 0⟩, 0, "k", "", "o", none, .pub⟩

/-- A database with one node, in a segment that is full. -/
def written : Reclamation where
  storage := { empty.storage.append firstLocation (.node firstNode) with
    indexes := Storage.reindex
      ((LiveKey.node "n").repoint empty.storage.indexes firstLocation) none firstNode }
  active := 1
  next := 2
  epoch := 0
  readers := []
  retired := []
  tasks := [⟨.outside, []⟩]
  phase := .free

theorem insert_first : Storage.applyOperation firstLocation empty.storage (.insert firstNode) =
    .ok written.storage := rfl

theorem written_reachable : ReflTransGen CalmStep empty written := by
  have hbegin : CalmStep empty { empty with tasks := [⟨.outside, []⟩] } := .task (.begin _) nofun
  have hlock := @TaskStep.lock { empty with tasks := [⟨.outside, []⟩] } [] [] rfl rfl
  have hwrite : CalmStep { empty with tasks := [⟨.inside, []⟩], phase := .writing }
      { written with active := 0, next := 1, tasks := [⟨.inside, []⟩], phase := .writing } :=
    .writer (.mutate rfl (rfl : firstLocation.segment = 0) rfl insert_first) nofun
  have hroll : CalmStep
      { written with active := 0, next := 1, tasks := [⟨.inside, []⟩], phase := .writing }
      { written with tasks := [⟨.inside, []⟩], phase := .writing } := .writer (.roll rfl) nofun
  have hunlock := @TaskStep.unlock { written with tasks := [⟨.inside, []⟩], phase := .writing }
    [] [] rfl rfl
  exact .tail (.tail (.tail (.tail (.single hbegin) (.task hlock nofun)) hwrite) hroll)
    (.task hunlock nofun)

theorem dead_moved :
    (written.storage.relocate movedLocation (.node firstNode)).Dead 0 := by
  rintro location record hsegment hrecord hlive
  have hkey : LiveKey.of record = .node "n" := by
    simp only [Storage.relocate, Storage.append, written, Function.update_apply] at hrecord
    split_ifs at hrecord
    · cases hrecord
      rfl
    · cases hrecord
      rfl
    · cases hrecord
  rw [hkey] at hlive
  cases hlive
  cases hsegment

/-- What a checkpoint does up to the new epoch, when it finds the node's segment worth draining. -/
theorem steps_advance {tasks : List Task} {readers : List (Nat × Nat)}
    (hreads : ∀ t ∈ tasks, t.access = .inside → t.resolved = []) :
    ReflTransGen CalmStep
      { written with readers := readers, tasks := tasks, phase := .writing }
      { written with
        storage := written.storage.relocate movedLocation (.node firstNode)
        epoch := 1, readers := readers, tasks := tasks, phase := .advanced [0] 1 } := by
  have hcheckpoint := WriterStep.checkpoint
    (r := { written with readers := readers, tasks := tasks, phase := .writing }) rfl hreads
  have hmove : Move 0 { written with readers := readers, tasks := tasks, phase := .compacting [] }
      { written with
        storage := written.storage.relocate movedLocation (.node firstNode)
        readers := readers, tasks := tasks, phase := .compacting [] } :=
    .relocate (rfl : movedLocation.segment = 1) rfl (rfl : firstLocation.segment = 0) rfl rfl
  have hdrain := WriterStep.drain
    (r := { written with readers := readers, tasks := tasks, phase := .compacting [] })
    rfl Nat.zero_ne_one Nat.zero_lt_two (.single hmove) dead_moved
  exact .tail (.tail (.tail (.single (.writer hcheckpoint nofun)) (.writer hdrain nofun))
    (.writer (.commit rfl) nofun)) (.writer (.advance rfl) nofun)

/-- The same checkpoint when it has retired the segment. -/
def drained (readers : List (Nat × Nat)) (tasks : List Task) : Reclamation :=
  { written with
    storage := written.storage.relocate movedLocation (.node firstNode)
    epoch := 1, readers := readers, retired := [(0, 1)], tasks := tasks, phase := .retired }

theorem steps_drained {tasks : List Task} {readers : List (Nat × Nat)}
    (hreads : ∀ t ∈ tasks, t.access = .inside → t.resolved = []) :
    ReflTransGen CalmStep
      { written with readers := readers, tasks := tasks, phase := .writing }
      (drained readers tasks) :=
  (steps_advance hreads).tail (.writer (@WriterStep.retire _ [0] 1 rfl) nofun)

theorem steps_of_calm (h : ReflTransGen CalmStep r r') : Steps r r' :=
  ReflTransGen.mono (fun _ _ (hstep : CalmStep _ _) => hstep.1) _ _ h

/-- The entry of the node, as it is before the checkpoint. -/
def early : Resolved := ⟨.node "n", firstLocation, 0⟩

/-- The entry as it is after the checkpoint. -/
def late : Resolved := ⟨.node "n", movedLocation, 1⟩

/-- Whatever the other tasks and the checkpoints do, a reader can read what it has resolved for
    as long as it holds its pin. And once no reader is pinned below the epoch at which a segment
    was retired, the next checkpoint that completes removes the segment, if it is still there. -/
theorem pinned_reader_safe (hsteps : Steps empty r) :
    (∀ t ∈ r.tasks, ∀ epoch, t.access = .pinned epoch → ∀ x ∈ t.resolved,
      ∃ record, r.storage.read x.location = .ok record ∧ LiveKey.of record = x.key) ∧
    ∀ c ∈ r.retired, (∀ t ∈ r.tasks, ∀ epoch, t.access = .pinned epoch → c.2 ≤ epoch) →
      ∀ r', Steps r r' → r'.phase = .retired →
        c ∉ r'.dropUnreferencedSegments.retired ∧ ∀ location, location.segment = c.1 →
          r'.dropUnreferencedSegments.storage.heap location = none := by
  have hinv := Inv.empty.steps hsteps
  constructor
  · intro t ht epoch haccess x hx
    refine ((hinv.tasks t ht).readable ?_ x hx).read
    rw [haccess]
    exact nofun
  intro c hc hpins r' hlater hphase
  have hleaving : r.Leaving c := by
    refine ⟨(hinv.condemned c (List.mem_append_left _ hc)).1, hinv.retired c hc, ?_, .inl hc⟩
    intro t ht epoch hpin
    refine hpins t ht epoch ?_
    rw [Task.pin?] at hpin
    split at hpin
    · rename_i haccess
      rw [haccess, Option.some.inj hpin]
    · cases hpin
  exact (hleaving.steps hinv hlater).dropped (hinv.steps hlater)

theorem pinned_reader_drained :
    ∃ r, Steps empty r ∧ r.storage.indexes.primary "n" = some movedLocation ∧
      ∃ record, r.storage.read firstLocation = .ok record := by
  have hpin : TaskStep written
      { written with readers := [(0, 1)], tasks := [⟨.pinned 0, []⟩, ⟨.outside, []⟩] } := .pin _
  have hresolve := @TaskStep.resolve
    { written with readers := [(0, 1)], tasks := [⟨.pinned 0, []⟩, ⟨.outside, []⟩] }
    [] [⟨.outside, []⟩] ⟨.pinned 0, []⟩ rfl nofun (.node "n") firstLocation (.inl rfl)
  have hlock := @TaskStep.lock
    { written with readers := [(0, 1)], tasks := [⟨.pinned 0, [early]⟩, ⟨.outside, []⟩] }
    [⟨.pinned 0, [early]⟩] [] rfl rfl
  have hdrained := @steps_drained [⟨.pinned 0, [early]⟩, ⟨.inside, []⟩] [(0, 1)] (by decide)
  have hsteps : Steps empty
      (drained [(0, 1)] [⟨.pinned 0, [early]⟩, ⟨.inside, []⟩]).dropUnreferencedSegments :=
    .tail ((((steps_of_calm written_reachable).tail (.task hpin)).tail (.task hresolve)).tail
      (.task hlock) |>.trans (steps_of_calm hdrained)) (.writer (.drop rfl))
  obtain ⟨record, hread, -⟩ := (pinned_reader_safe hsteps).1 ⟨.pinned 0, [early]⟩
    List.mem_cons_self 0 rfl early List.mem_cons_self
  exact ⟨_, hsteps, rfl, record, hread⟩

/-- In a run in which a segment is removed only while no handler is, outside of the lock, in the
    middle of a read in it that has begun before the segment was retired, every task can read what
    it has resolved. -/
theorem calm_read_safe (hsteps : ReflTransGen CalmStep empty r) :
    ∀ t ∈ r.tasks, ∀ x ∈ t.resolved,
      ∃ record, r.storage.read x.location = .ok record ∧ LiveKey.of record = x.key := by
  have hall : r.Inv ∧ r.AllReadable := by
    induction hsteps with
    | refl => exact ⟨Inv.empty, nofun⟩
    | tail _ hstep ih => exact ⟨ih.1.step hstep.1, ih.2.step ih.1 hstep⟩
  exact fun t ht x hx => (hall.2 t ht x hx).read

/-- A handler has found the node's entry, and has not read the record when a checkpoint drains
    the segment and removes it: there is no pin to keep it. -/
theorem handler_read_fails :
    ∃ r, Steps empty r ∧ ⟨.outside, [early]⟩ ∈ r.tasks ∧
      ∀ record, r.storage.read early.location ≠ .ok record := by
  have hresolve := @TaskStep.resolve written [] [] ⟨.outside, []⟩ rfl nofun (.node "n")
    firstLocation (.inl rfl)
  have hbegin : TaskStep { written with tasks := [⟨.outside, [early]⟩] }
      { written with tasks := [⟨.outside, []⟩, ⟨.outside, [early]⟩] } := .begin _
  have hlock := @TaskStep.lock { written with tasks := [⟨.outside, []⟩, ⟨.outside, [early]⟩] }
    [] [⟨.outside, [early]⟩] rfl rfl
  have hdrained := @steps_drained [⟨.inside, []⟩, ⟨.outside, [early]⟩] [] (by decide)
  have hsteps : Steps empty
      (drained [] [⟨.inside, []⟩, ⟨.outside, [early]⟩]).dropUnreferencedSegments :=
    .tail ((((steps_of_calm written_reachable).tail (.task hresolve)).tail (.task hbegin)).tail
      (.task hlock) |>.trans (steps_of_calm hdrained)) (.writer (.drop rfl))
  refine ⟨_, hsteps, List.mem_cons_of_mem _ List.mem_cons_self, fun record hread => ?_⟩
  cases hread

theorem calm_read_late :
    ∃ r, ReflTransGen CalmStep empty r ∧ ⟨.outside, [late]⟩ ∈ r.tasks ∧
      ∃ record, r.storage.read late.location = .ok record := by
  have hbegin : TaskStep written
      { written with tasks := [⟨.outside, []⟩, ⟨.outside, []⟩] } := .begin _
  have hlock := @TaskStep.lock { written with tasks := [⟨.outside, []⟩, ⟨.outside, []⟩] }
    [] [⟨.outside, []⟩] rfl rfl
  have hadvance := @steps_advance [⟨.inside, []⟩, ⟨.outside, []⟩] [] (by decide)
  have hresolve := @TaskStep.resolve
    { drained [] [⟨.inside, []⟩, ⟨.outside, []⟩] with retired := [], phase := .advanced [0] 1 }
    [⟨.inside, []⟩] [] ⟨.outside, []⟩ rfl nofun (.node "n") movedLocation (.inl rfl)
  have hretire := @WriterStep.retire
    { drained [] [⟨.inside, []⟩, ⟨.outside, [late]⟩] with retired := [], phase := .advanced [0] 1 }
    [0] 1 rfl
  have hcalm : Calm (drained [] [⟨.inside, []⟩, ⟨.outside, [late]⟩]) := by decide
  have hsteps : ReflTransGen CalmStep empty
      (drained [] [⟨.inside, []⟩, ⟨.outside, [late]⟩]).dropUnreferencedSegments :=
    .tail (((((written_reachable.tail (.task hbegin nofun)).tail (.task hlock nofun)).trans
      hadvance).tail (.task hresolve nofun)).tail (.writer hretire nofun))
      ⟨.writer (.drop rfl), fun _ _ => hcalm⟩
  obtain ⟨record, hread, -⟩ := calm_read_safe hsteps ⟨.outside, [late]⟩
    (List.mem_cons_of_mem _ List.mem_cons_self) late List.mem_cons_self
  exact ⟨_, hsteps, List.mem_cons_of_mem _ List.mem_cons_self, record, hread⟩

end Reclamation

end FacetQL
