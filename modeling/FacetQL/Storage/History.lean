import FacetQL.Storage.Mutations
import FacetQL.Storage.Query

/-!
# The history of a node

Every state of a node that a later one takes the place of is archived, under its address
and a version. Versions are operation ids (`core/history.rs`), which no log record need
carry: when the log has been rotated, the next process can hand out a version again, and
the state it archives then takes the place of another one.

* `history_complete`: when a history comes back whole and in order;
* `history_incomplete`: otherwise it need not.
-/

namespace FacetQL

open Relation Function

namespace Storage

/-- The entries of the history tree under an address, in the order of their keys. -/
structure HistoryRange (s : Storage) (address : String) (range : List (Nat × RecordLocation)) :
    Prop where
  asc : range.Pairwise (·.1 < ·.1)
  mem : ∀ version location, (version, location) ∈ range ↔
    s.indexes.history (address, version) = some location

/-- The history of a node, when the tree holds this range under its address. -/
def historyFor (st : Settings) (s : Storage) (address : String) (range : List (Nat × RecordLocation)) :
    Except IoError (List HistoryEntry) :=
  View.historyFor st { (Trees.empty : View) with
    history := range.map fun p => (Keys.historyKey address p.1, s.historyAt p.2) } address

end Storage

open Engine

/-- An engine, and what the calls it has served lead to by themselves. -/
structure HistoryRun where
  engine : Engine
  /-- The nodes. -/
  nodes : String → Option Node
  /-- The states that have been overwritten or deleted, in that order. -/
  superseded : List Node
  /-- The entries that have been made for them. -/
  archived : List HistoryEntry

namespace HistoryRun

/-- A new database. -/
def empty : HistoryRun := ⟨.empty, fun _ => none, [], []⟩

/-- The entries among operations. -/
def archivedIn (ops : List Operation) : List HistoryEntry :=
  ops.filterMap fun
    | .archive entry => some entry
    | _ => none

/-- The entries that a call makes. -/
def made (now : Nat) (e : Engine) (address : String) (op : Operation) : List HistoryEntry :=
  match lower now e address op with
  | .ok (ops, _) => archivedIn ops
  | .error _ => []

/-- The node at an address changes; what is there is superseded. -/
def change (r : HistoryRun) (alloc : Alloc) (now : Nat) (address : String) (op : Operation)
    (node : Option Node) : HistoryRun where
  engine := (mutate alloc now r.engine address op).2
  nodes := update r.nodes address node
  superseded := r.superseded ++ (r.nodes address).toList
  archived := r.archived ++ made now r.engine address op

variable {now : Nat} {e e' : Engine}

/-- Calls and checkpoints. A refused call changes no node, but may use up a version. -/
inductive ProcessStep (alloc : Alloc) : HistoryRun → HistoryRun → Prop
  | insert {r : HistoryRun} (now : Nat) (node : Node)
      (hok : (insertLocked alloc now r.engine node).1 = .ok ()) :
      ProcessStep alloc r (r.change alloc now node.address (.insert node) (some node))
  | insertRefused {r : HistoryRun} (now : Nat) (node : Node) {message : String}
      (herror : (insertLocked alloc now r.engine node).1 = .error message) :
      ProcessStep alloc r { r with engine := (insertLocked alloc now r.engine node).2 }
  | delete {r : HistoryRun} (now : Nat) (address : String)
      (hok : (Engine.delete alloc now r.engine address).1 = .ok ()) :
      ProcessStep alloc r (r.change alloc now address (.delete address) none)
  | deleteRefused {r : HistoryRun} (now : Nat) (address : String) {message : String}
      (herror : (Engine.delete alloc now r.engine address).1 = .error message) :
      ProcessStep alloc r { r with engine := (Engine.delete alloc now r.engine address).2 }
  | checkpoint {r : HistoryRun} {e : Engine}
      (hsteps : ReflTransGen CheckpointStep { r.engine with phase := .compacting [] } e)
      (hready : e.phase = .ready) : ProcessStep alloc r { r with engine := e }

/-- The process ends with all of its log, and the next one recovers. -/
def Restarted (e e' : Engine) : Prop :=
  ∃ heap, e.HeapSurvives heap ∧
    ReflTransGen RecoveryStep (e.crash e.writer.log.length heap) e' ∧ e'.phase = .ready

/-- The steps of a database over any number of processes. -/
inductive Step (alloc : Alloc) : HistoryRun → HistoryRun → Prop
  | process {r r' : HistoryRun} (h : ProcessStep alloc r r') : Step alloc r r'
  | restart {r : HistoryRun} {e : Engine} (h : Restarted r.engine e) :
      Step alloc r { r with engine := e }

/-- The checkpoint or a record of the log shows that each version has been handed out. -/
def Covered (r : HistoryRun) : Prop :=
  ∀ entry ∈ r.archived, r.engine.writer.Covers r.engine.writer.log.length entry.version

/-- The steps, with the versions covered at every restart. -/
inductive CoveredStep (alloc : Alloc) : HistoryRun → HistoryRun → Prop
  | process {r r' : HistoryRun} (h : ProcessStep alloc r r') : CoveredStep alloc r r'
  | restart {r : HistoryRun} {e : Engine} (hcovered : r.Covered) (h : Restarted r.engine e) :
      CoveredStep alloc r { r with engine := e }

/-- The engine is between two calls, and holds the nodes that they have left. -/
structure Tracked (r : HistoryRun) : Prop where
  recoverable : r.engine.Recoverable
  ready : r.engine.phase = .ready
  nodes : ∀ address, r.engine.mem.view (.node address) = (r.nodes address).map .node

/-- The history tree holds one entry for each superseded state. -/
structure Complete (r : HistoryRun) : Prop extends Tracked r where
  history : ∀ address version record, r.engine.mem.view (.history address version) = some record ↔
    ∃ entry ∈ r.archived, entry.address = address ∧ entry.version = version ∧
      record = .history entry
  superseded : r.archived.map HistoryEntry.node = r.superseded
  address : ∀ entry ∈ r.archived, entry.address = entry.node.address
  asc : r.archived.Pairwise (·.version < ·.version)
  below : ∀ entry ∈ r.archived, entry.version < r.engine.writer.counters.operationId

variable {alloc : Alloc} {r r' : HistoryRun}

theorem complete_empty : empty.Complete where
  recoverable := recoverable_empty
  ready := rfl
  nodes _ := rfl
  history _ _ _ := by
    constructor
    · intro h
      cases h
    · rintro ⟨entry, hentry, -⟩
      cases hentry
  superseded := rfl
  address _ h := by cases h
  asc := .nil
  below _ h := by cases h

theorem Complete.keep (h : r.Complete) (hrecoverable : e.Recoverable) (hready : e.phase = .ready)
    (hview : e.mem.view = r.engine.mem.view)
    (hbelow : ∀ entry ∈ r.archived, entry.version < e.writer.counters.operationId) :
    Complete { r with engine := e } :=
  { h with
    recoverable := hrecoverable
    ready := hready
    nodes := hview ▸ h.nodes
    history := hview ▸ h.history
    below := hbelow }

/-! ## Checkpoints and restarts -/

theorem checkpoint_operationId (hsteps : ReflTransGen CheckpointStep e e') :
    e'.writer.counters = e.writer.counters := by
  induction hsteps with
  | refl => rfl
  | tail _ hstep ih =>
    refine Eq.trans ?_ ih
    cases hstep with
    | advance => rw [Writer.advance_eq]
    | _ => rfl

theorem recovery_counters (hsteps : ReflTransGen RecoveryStep e e') :
    e'.writer.counters = e.writer.counters := by
  induction hsteps with
  | refl => rfl
  | tail _ hstep ih =>
    refine Eq.trans ?_ ih
    cases hstep with
    | step hstep => exact checkpoint_operationId (.single hstep)
    | _ => rfl

theorem Complete.checkpoint (h : r.Complete)
    (hsteps : ReflTransGen CheckpointStep { r.engine with phase := .compacting [] } e)
    (hready : e.phase = .ready) : Complete { r with engine := e } := by
  obtain ⟨hview, hsettled⟩ := h.recoverable.ready h.ready
  have hstart := h.recoverable.write (.checkpoint h.ready hsettled.frame)
  obtain ⟨hrecoverable, hsame⟩ := hstart.recoverySteps (hsteps.lift id fun _ _ hs => .step hs)
  refine h.keep hrecoverable hready ?_ ?_
  · exact (hrecoverable.ready hready).1.symm.trans (hsame.trans hview)
  · rw [checkpoint_operationId hsteps]
    exact h.below

/-- Recovery gets back what was in memory. -/
theorem Tracked.restart (h : r.Tracked) (hrestart : Restarted r.engine e) :
    e.Recoverable ∧ e.phase = .ready ∧ e.mem.view = r.engine.mem.view := by
  obtain ⟨heap, hheap, hsteps, hready⟩ := hrestart
  have hsound := h.recoverable.sound
  have hstart := recoverable_crash hsound r.engine.writer.log.length hheap
  obtain ⟨hrecoverable, hsame⟩ := hstart.recoverySteps hsteps
  rw [recovered_crash hsound List.take_length hheap, (h.recoverable.ready h.ready).1] at hsame
  exact ⟨hrecoverable, hready, (hrecoverable.ready hready).1.symm.trans hsame⟩

theorem restarted_operationId (hrestart : Restarted e e') {p : Nat} :
    p < e'.writer.counters.operationId ↔ e.writer.Covers e.writer.log.length p := by
  obtain ⟨heap, -, hsteps, -⟩ := hrestart
  rw [recovery_counters hsteps]
  exact Writer.lt_restart_iff

theorem Complete.restart (h : r.Complete) (hcovered : r.Covered) (hrestart : Restarted r.engine e) :
    Complete { r with engine := e } := by
  obtain ⟨hrecoverable, hready, hview⟩ := h.toTracked.restart hrestart
  exact h.keep hrecoverable hready hview fun entry hentry =>
    (restarted_operationId hrestart).2 (hcovered entry hentry)

/-! ## Calls -/

theorem writeSteps_operationId (hsteps : WriteSteps e e') :
    e.writer.counters.operationId ≤ e'.writer.counters.operationId := by
  induction hsteps with
  | refl => exact le_rfl
  | @tail e₁ e₂ _ hstep ih =>
    refine ih.trans ?_
    cases hstep with
    | settle hphase =>
      rw [Engine.settle]
      cases e₁.writer.frame <;> exact le_rfl
    | burn operationId hle => exact hle
    | apply | sync | checkpoint => exact le_rfl
    | _ => exact Nat.le_succ _

theorem Tracked.findNode (h : r.Tracked) (address : String) :
    r.engine.mem.findNode address = .ok (r.nodes address) := by
  refine Storage.map_injective (Option.map_injective fun _ _ => HeapRecord.node.inj) ?_
  rw [h.recoverable.sound.mem.findNode_eq, h.nodes]
  rfl

/-- The entry that a call makes of what is at its address. -/
def entryOf (now : Nat) (e : Engine) (node : Node) : HistoryEntry := (e.archive now node).1

/-- The entry that a call makes, if there is something at its address. -/
def superseded? (r : HistoryRun) (now : Nat) (address : String) : Option HistoryEntry :=
  (r.nodes address).map (entryOf now r.engine)

/-- The engine once that entry has its version. -/
def versioned (r : HistoryRun) (now : Nat) (address : String) : Engine :=
  (r.nodes address).elim r.engine fun node => (r.engine.archive now node).2

theorem Tracked.mutate_eq (h : r.Tracked) (alloc : Alloc) (now : Nat) (address : String)
    (op : Operation) :
    mutate alloc now r.engine address op = applyAtomic alloc (r.versioned now address)
      ((r.superseded? now address).toList.map .archive ++ [op]) ∧
    made now r.engine address op = (r.superseded? now address).toList ++ archivedIn [op] := by
  rw [mutate, made, lower, h.findNode, superseded?, versioned]
  cases r.nodes address <;> exact ⟨rfl, rfl⟩

theorem Tracked.versioned_spec (h : r.Tracked) (now : Nat) (address : String) :
    (r.versioned now address).Recoverable ∧ (r.versioned now address).phase = .ready ∧
      (r.versioned now address).mem = r.engine.mem ∧
      r.engine.writer.counters.operationId ≤ (r.versioned now address).writer.counters.operationId ∧
      ∀ x ∈ r.superseded? now address, x.address = x.node.address ∧
        x.version = r.engine.writer.counters.operationId ∧
        x.version < (r.versioned now address).writer.counters.operationId := by
  rw [versioned, superseded?]
  cases r.nodes address with
  | none => exact ⟨h.recoverable, h.ready, rfl, le_rfl, nofun⟩
  | some node =>
    refine ⟨h.recoverable.write (.burn _ (Nat.le_succ _)), h.ready, rfl, Nat.le_succ _, ?_⟩
    rintro _ ⟨⟩
    exact ⟨rfl, rfl, Nat.lt_succ_self _⟩

/-- The writes that archive entries. -/
def archiveWrites (entries : List HistoryEntry) : List (LiveKey × Option HeapRecord) :=
  entries.map fun entry => (.history entry.address entry.version, some (.history entry))

/-- Entries with different versions are all found. -/
theorem writes_archive {view : LiveKey → Option HeapRecord} (entry : Option HistoryEntry)
    (address : String) (version : Nat) (record : HeapRecord) :
    writes view (archiveWrites entry.toList) (.history address version) = some record ↔
      (∃ x ∈ entry, x.address = address ∧ x.version = version ∧ record = .history x) ∨
      (view (.history address version) = some record ∧
        ∀ x ∈ entry, ¬(x.address = address ∧ x.version = version)) := by
  cases entry with
  | none => simp [archiveWrites]
  | some x =>
    change Function.update view (.history x.address x.version) _ _ = _ ↔ _
    by_cases hkey : x.address = address ∧ x.version = version
    · obtain ⟨rfl, rfl⟩ := hkey
      simp [eq_comm]
    · have hne : LiveKey.history address version ≠ .history x.address x.version := by
        rintro ⟨⟩
        exact hkey ⟨rfl, rfl⟩
      rw [update_of_ne hne]
      grind

/-- What a call writes: the entry it makes, and the node at its address. -/
theorem Complete.written (h : r.Complete) {entry : Option HistoryEntry} {address : String}
    {node : Option Node} (hrecoverable : e.Recoverable) (hready : e.phase = .ready)
    (hview : e.mem.view = write (writes r.engine.mem.view (archiveWrites entry.toList))
      (.node address, node.map .node))
    (hentry : entry.map HistoryEntry.node = r.nodes address)
    (haddress : ∀ x ∈ entry, x.address = x.node.address)
    (hasc : ∀ x ∈ entry, ∀ old ∈ r.archived, old.version < x.version)
    (hbelow : ∀ x ∈ r.archived ++ entry.toList, x.version < e.writer.counters.operationId) :
    Complete ⟨e, update r.nodes address node,
      r.superseded ++ (r.nodes address).toList, r.archived ++ entry.toList⟩ := by
  refine ⟨⟨hrecoverable, hready, fun a => ?_⟩, fun a v record => ?_, ?_, ?_, ?_, hbelow⟩
  · change e.mem.view (.node a) = (update r.nodes address node a).map .node
    rw [hview, write]
    by_cases ha : a = address
    · rw [ha, update_self, update_self]
    · have hkey : LiveKey.node a ≠ .node address := fun heq => ha (LiveKey.node.inj heq)
      rw [update_of_ne hkey, update_of_ne ha, writes_of_notMem, h.nodes]
      simp [archiveWrites]
  · change e.mem.view (.history a v) = some record ↔ _
    have hkey : LiveKey.history a v ≠ .node address := LiveKey.noConfusion
    rw [hview, write, update_of_ne hkey, writes_archive, h.history]
    simp only [List.mem_append, Option.mem_toList]
    constructor
    · rintro (⟨x, hx, heq⟩ | ⟨⟨x, hx, heq⟩, -⟩)
      · exact ⟨x, .inr hx, heq⟩
      · exact ⟨x, .inl hx, heq⟩
    · rintro ⟨x, hx | hx, ha, hv, hrecord⟩
      · refine .inr ⟨⟨x, hx, ha, hv, hrecord⟩, fun new hnew heq => ?_⟩
        exact (hasc new hnew x hx).ne (hv.trans heq.2.symm)
      · exact .inl ⟨x, hx, ha, hv, hrecord⟩
  · rw [List.map_append, h.superseded, ← hentry]
    cases entry <;> rfl
  · exact List.forall_mem_append.2 ⟨h.address, fun x hx => haddress x (Option.mem_toList.1 hx)⟩
  · exact List.pairwise_append.2 ⟨h.asc, by cases entry <;> simp, fun old hold x hx =>
      hasc x (Option.mem_toList.1 hx) old hold⟩

/-- An operation that writes the node at an address, or removes it. -/
structure Sets (op : Operation) (address : String) (node : Option Node) : Prop where
  write : op.toWrite = (.node address, node.map .node)
  archivedIn : archivedIn [op] = []

theorem sets_insert (node : Node) : Sets (.insert node) node.address (some node) := ⟨rfl, rfl⟩

theorem sets_delete (address : String) : Sets (.delete address) address none := ⟨rfl, rfl⟩

variable {address : String} {op : Operation} {node : Option Node}

/-- A call is refused, and changes no record, or what it has superseded is archived. -/
theorem Complete.mutate (halloc : Allocates alloc) (h : r.Complete) (hop : Sets op address node)
    (now : Nat) :
    ((mutate alloc now r.engine address op).1 = .ok () ∧
      (r.change alloc now address op node).Complete) ∨
    ∃ message, (mutate alloc now r.engine address op).1 = .error message ∧
      Complete { r with engine := (mutate alloc now r.engine address op).2 } := by
  obtain ⟨hmutate, hmade⟩ := h.mutate_eq alloc now address op
  obtain ⟨hrecoverable, hready, hmem, hle, hentry⟩ := h.versioned_spec now address
  rcases applyAtomic_spec halloc hrecoverable hready
      ((r.superseded? now address).toList.map .archive ++ [op]) with
    ⟨-, e, happly, hcarried⟩ | ⟨message, -, happly⟩
  · refine .inl ⟨by rw [hmutate, happly], ?_⟩
    have hle' := writeSteps_operationId hcarried.steps
    rw [change, hmutate, happly, hmade, hop.archivedIn, List.append_nil]
    refine h.written (hrecoverable.writeSteps hcarried.steps) hcarried.ready ?_ ?_
      (fun x hx => (hentry x hx).1) (fun x hx old hold => ?_) (List.forall_mem_append.2 ⟨?_, ?_⟩)
    · rw [hcarried.view, hmem, List.map_append, writes_append, List.map_map, List.map_singleton,
        hop.write]
      rfl
    · rw [superseded?, Option.map_map]
      exact Option.map_id'
    · exact (hentry x hx).2.1 ▸ h.below old hold
    · exact fun x hx => (h.below x hx).trans_le (hle.trans hle')
    · exact fun x hx => (hentry x (Option.mem_toList.1 hx)).2.2.trans_le hle'
  · refine .inr ⟨message, by rw [hmutate, happly], ?_⟩
    rw [hmutate, happly]
    exact h.keep hrecoverable hready (by rw [hmem]) fun x hx => (h.below x hx).trans_le hle

/-! ## Runs -/

section

variable (halloc : Allocates alloc)
include halloc

theorem Complete.change (h : r.Complete) (hop : Sets op address node)
    (hok : (Engine.mutate alloc now r.engine address op).1 = .ok ()) :
    (r.change alloc now address op node).Complete := by
  rcases h.mutate halloc hop now with ⟨-, hcomplete⟩ | ⟨message, herror, -⟩
  · exact hcomplete
  · exact absurd (herror.symm.trans hok) (by simp)

theorem Complete.refused (h : r.Complete) (hop : Sets op address node) {message : String}
    (herror : (Engine.mutate alloc now r.engine address op).1 = .error message) :
    Complete { r with engine := (Engine.mutate alloc now r.engine address op).2 } := by
  rcases h.mutate halloc hop now with ⟨hok, -⟩ | ⟨_, -, hcomplete⟩
  · exact absurd (herror.symm.trans hok) (by simp)
  · exact hcomplete

theorem Complete.process (h : r.Complete) (hstep : ProcessStep alloc r r') : r'.Complete := by
  cases hstep with
  | insert now node hok => exact h.change halloc (sets_insert node) hok
  | insertRefused now node herror => exact h.refused halloc (sets_insert node) herror
  | delete now address hok => exact h.change halloc (sets_delete address) hok
  | deleteRefused now address herror => exact h.refused halloc (sets_delete address) herror
  | checkpoint hsteps hready => exact h.checkpoint hsteps hready

theorem Complete.step (h : r.Complete) (hstep : CoveredStep alloc r r') : r'.Complete := by
  cases hstep with
  | process hstep => exact h.process halloc hstep
  | restart hcovered hrestart => exact h.restart hcovered hrestart

theorem complete_run (hrun : ReflTransGen (CoveredStep alloc) empty r) : r.Complete := by
  induction hrun with
  | refl => exact complete_empty
  | tail _ hstep ih => exact ih.step halloc hstep

end

/-! ## Reading a history -/

/-- The entries of one address. -/
def entriesOf (r : HistoryRun) (address : String) : List HistoryEntry :=
  r.archived.filter fun entry => entry.address = address

theorem mem_entriesOf {entry : HistoryEntry} :
    entry ∈ r.entriesOf address ↔ entry ∈ r.archived ∧ entry.address = address := by
  simp [entriesOf]

/-- The scan meets a location that holds an entry. -/
theorem Complete.historyAt (h : r.Complete) {version : Nat} {location : RecordLocation}
    (hlocation : r.engine.mem.indexes.history (address, version) = some location) :
    ∃ entry ∈ r.entriesOf address, entry.version = version ∧
      r.engine.mem.historyAt location = .ok entry := by
  obtain ⟨record, hrecord, -⟩ := h.recoverable.sound.mem (.history address version) location hlocation
  have hview : r.engine.mem.view (.history address version) = some record := by
    rw [Storage.view, LiveKey.currentLocation, hlocation]
    exact hrecord
  obtain ⟨entry, hentry, ha, hv, rfl⟩ := (h.history address version record).1 hview
  refine ⟨entry, mem_entriesOf.2 ⟨hentry, ha⟩, hv, ?_⟩
  rw [Storage.historyAt, Storage.read, hrecord]

/-- An entry is in the tree. -/
theorem Complete.indexed (h : r.Complete) {entry : HistoryEntry} (hentry : entry ∈ r.entriesOf address) :
    ∃ location, r.engine.mem.indexes.history (address, entry.version) = some location ∧
      r.engine.mem.historyAt location = .ok entry := by
  obtain ⟨hmem, ha⟩ := mem_entriesOf.1 hentry
  have hview := (h.history address entry.version _).2 ⟨entry, hmem, ha, rfl, rfl⟩
  obtain ⟨location, hlocation, hrecord⟩ := Option.bind_eq_some_iff.1 hview
  refine ⟨location, hlocation, ?_⟩
  rw [Storage.historyAt, Storage.read, hrecord]

/-- The scan meets the entries of the address, in order. -/
theorem Complete.range (h : r.Complete) {range : List (Nat × RecordLocation)}
    (hrange : r.engine.mem.HistoryRange address range) :
    List.Forall₂ (fun p entry => r.engine.mem.historyAt p.2 = .ok entry) range
      (r.entriesOf address) := by
  have hversions : range.map Prod.fst = (r.entriesOf address).map HistoryEntry.version := by
    refine List.Pairwise.eq_of_mem_iff (r := (· < ·)) (List.pairwise_map.2 hrange.asc)
      (List.pairwise_map.2 (h.asc.sublist List.filter_sublist)) fun version => ?_
    simp only [List.mem_map, Prod.exists, exists_and_right, exists_eq_right]
    constructor
    · rintro ⟨location, hmem⟩
      obtain ⟨entry, hentry, hv, -⟩ := h.historyAt ((hrange.mem _ _).1 hmem)
      exact ⟨entry, hentry, hv⟩
    · rintro ⟨entry, hentry, rfl⟩
      obtain ⟨location, hlocation, -⟩ := h.indexed hentry
      exact ⟨location, (hrange.mem _ _).2 hlocation⟩
  have hpaired : List.Forall₂ (fun p (entry : HistoryEntry) => p.1 = entry.version) range
      (r.entriesOf address) := by
    rw [← List.forall₂_map_right_iff (R := fun (p : Nat × RecordLocation) v => p.1 = v),
      ← List.forall₂_map_left_iff (R := fun (n v : Nat) => n = v), List.forall₂_eq_eq_eq]
    exact hversions
  rw [List.forall₂_iff_zip] at hpaired ⊢
  refine ⟨hpaired.1, fun {p entry} hmem => ?_⟩
  obtain ⟨hp, hentry⟩ := List.of_mem_zip hmem
  obtain ⟨location, hlocation, hread⟩ := h.indexed hentry
  rw [← hpaired.2 hmem, (hrange.mem p.1 p.2).1 hp] at hlocation
  exact Option.some.inj hlocation ▸ hread

/-- There is a range to scan. -/
theorem Complete.exists_range (h : r.Complete) (address : String) :
    ∃ range, r.engine.mem.HistoryRange address range := by
  refine ⟨(r.entriesOf address).map fun entry =>
    (entry.version, (r.engine.mem.indexes.history (address, entry.version)).getD ⟨0, 0, 0⟩),
    List.pairwise_map.2 (h.asc.sublist List.filter_sublist), fun version location => ?_⟩
  constructor
  · intro hmem
    obtain ⟨entry, hentry, heq⟩ := List.mem_map.1 hmem
    obtain ⟨rfl, rfl⟩ := Prod.mk.inj heq
    obtain ⟨location, hlocation, -⟩ := h.indexed hentry
    rw [hlocation, Option.getD_some]
  · intro hlocation
    obtain ⟨entry, hentry, rfl, -⟩ := h.historyAt hlocation
    refine List.mem_map.2 ⟨entry, hentry, ?_⟩
    rw [hlocation, Option.getD_some]

end HistoryRun

section Ranges

variable {α : Type} {st : Settings} {what : String} {entries : Entries (Except IoError α)}
  {records : List α}

/-- A scan that can read every record collects them, if they are not too many. -/
theorem visitAll_collect (hread : List.Forall₂ (fun e record => e.2 = .ok record) entries records)
    (found : List α) (hfound : found.length ≤ st.maxScanRows) :
    entries.visitAll (fun _ entry found =>
      if st.maxScanRows ≤ found.length then .error (st.scanLimitExceeded what)
      else entry.map fun record => (true, found ++ [record])) found =
      if found.length + records.length ≤ st.maxScanRows then .ok (found ++ records)
      else .error (st.scanLimitExceeded what) := by
  induction hread generalizing found with
  | nil => rw [Entries.visitAll, List.length_nil, Nat.add_zero, if_pos hfound, List.append_nil]
  | @cons e record entries records he _ ih =>
    rw [Entries.visitAll, List.length_cons]
    by_cases hfull : st.maxScanRows ≤ found.length
    · simp only [if_pos hfull]
      rw [if_neg (by omega)]
    · simp only [if_neg hfull, he, Except.map]
      have hnext := ih (found ++ [record]) (by simpa using Nat.lt_of_not_le hfull)
      rw [List.length_append, List.length_singleton, List.append_assoc, Nat.add_right_comm] at hnext
      exact hnext

theorem View.collectRange_eq {pre : Bytes} (hpre : ∀ e ∈ entries, pre.isPrefixOf e.1)
    (hread : List.Forall₂ (fun e record => e.2 = .ok record) entries records) :
    View.collectRange st what pre entries =
      if records.length ≤ st.maxScanRows then .ok records
      else .error (st.scanLimitExceeded what) := by
  have hrange : entries.inRange pre none false = entries := List.filter_eq_self.2 hpre
  rw [View.collectRange, Entries.forEachRange, hrange, visitAll_collect hread [] (Nat.zero_le _),
    List.length_nil, Nat.zero_add, List.nil_append]

end Ranges

namespace HistoryRun

variable {alloc : Alloc} {r : HistoryRun} {address : String}

theorem Complete.historyFor (h : r.Complete) (st : Settings) {range : List (Nat × RecordLocation)}
    (hrange : r.engine.mem.HistoryRange address range) :
    r.engine.mem.historyFor st address range =
      if (r.entriesOf address).length ≤ st.maxScanRows then .ok (r.entriesOf address)
      else .error (st.scanLimitExceeded "this node's history") := by
  refine View.collectRange_eq (fun e he => ?_) (List.forall₂_map_left_iff.2 (h.range hrange))
  obtain ⟨p, -, rfl⟩ := List.mem_map.1 he
  exact List.isPrefixOf_iff_prefix.2 (List.prefix_append _ _)

theorem Complete.entriesOf_node (h : r.Complete) (address : String) :
    (r.entriesOf address).map HistoryEntry.node =
      r.superseded.filter fun node => node.address = address := by
  rw [← h.superseded, List.filter_map, entriesOf]
  congr 1
  refine List.filter_congr fun entry hentry => ?_
  rw [Function.comp, h.address entry hentry]

/-- Two entries with one version are the same. -/
theorem Complete.eq_of_version (h : r.Complete) {x y : HistoryEntry} (hx : x ∈ r.archived)
    (hy : y ∈ r.archived) (hversion : x.version = y.version) : x = y := by
  have hnodup : (r.archived.map HistoryEntry.version).Nodup :=
    (List.pairwise_map.2 h.asc).imp fun {_ _} hlt => hlt.ne
  exact List.inj_on_of_nodup_map hnodup hx hy hversion

theorem Complete.findHistory (h : r.Complete) (address : String) (version : Nat) :
    r.engine.mem.findHistory address version =
      .ok (r.archived.find? fun entry => entry.address = address ∧ entry.version = version) := by
  refine Storage.map_injective (Option.map_injective fun _ _ => HeapRecord.history.inj) ?_
  refine (h.recoverable.sound.mem.findRecord_eq (.history address version)).trans
    (congrArg Except.ok (Option.ext fun record => ?_))
  rw [h.history, Option.map_eq_some_iff]
  constructor
  · rintro ⟨entry, hentry, ha, hv, rfl⟩
    have hsome : (r.archived.find? fun entry => entry.address = address ∧ entry.version = version).isSome :=
      List.find?_isSome.2 ⟨entry, hentry, by simp [ha, hv]⟩
    obtain ⟨found, hfound⟩ := Option.isSome_iff_exists.1 hsome
    have hkey := List.find?_some hfound
    simp only [decide_eq_true_eq] at hkey
    exact ⟨found, hfound, congrArg _ (h.eq_of_version (List.mem_of_find?_eq_some hfound) hentry
      (hkey.2.trans hv.symm))⟩
  · rintro ⟨entry, hfound, rfl⟩
    have hkey := List.find?_some hfound
    simp only [decide_eq_true_eq] at hkey
    exact ⟨entry, List.mem_of_find?_eq_some hfound, hkey.1, hkey.2, rfl⟩

end HistoryRun

open HistoryRun

/-- In a run whose restarts all find the versions covered, no two entries of an address
    have one version, the history tree keeps an entry for every superseded state and no
    other, and the history of an address, unless it is too long for one request, comes
    back whole and in the order in which its states were superseded. -/
theorem history_complete {alloc : Engine.Alloc} (halloc : Engine.Allocates alloc) {r : HistoryRun}
    (hrun : ReflTransGen (CoveredStep alloc) .empty r) :
    (r.archived.Pairwise fun x y => x.address = y.address → x.version ≠ y.version) ∧
    r.archived.map HistoryEntry.node = r.superseded ∧
    (∀ address version, r.engine.mem.findHistory address version =
      .ok (r.archived.find? fun entry => entry.address = address ∧ entry.version = version)) ∧
    ∀ address, (r.entriesOf address).map HistoryEntry.node =
        (r.superseded.filter fun node => node.address = address) ∧
      (∃ range, r.engine.mem.HistoryRange address range) ∧
      ∀ range, r.engine.mem.HistoryRange address range → ∀ st : Settings,
        r.engine.mem.historyFor st address range =
          if (r.entriesOf address).length ≤ st.maxScanRows then .ok (r.entriesOf address)
          else .error (st.scanLimitExceeded "this node's history") := by
  have h := complete_run halloc hrun
  refine ⟨h.asc.imp fun {_ _} hlt _ => hlt.ne, h.superseded, h.findHistory, fun address => ?_⟩
  exact ⟨h.entriesOf_node address, h.exists_range address, fun range hrange st =>
    h.historyFor st hrange⟩

section Samples

open Engine

variable {alloc : Alloc} {r : HistoryRun}

/-- The log and the counters, when the sample node has been overwritten by itself. -/
def overwritten (w : Writer Operation) : Writer Operation :=
  logged { w with counters := { w.counters with operationId := w.counters.operationId + 1 } }
    [.archive ⟨"n", 0, sampleNode, w.counters.operationId⟩, .insert sampleNode]

/-- The entry that is made when it is overwritten. -/
def sampleEntry (w : Writer Operation) : HistoryEntry := ⟨"n", 0, sampleNode, w.counters.operationId⟩

theorem exists_insert (halloc : Allocates alloc) (h : r.Tracked)
    (hnode : ∀ node ∈ r.nodes "n", node = sampleNode) :
    ∃ r', ProcessStep alloc r r' ∧ r'.nodes "n" = some sampleNode ∧
      r'.engine.writer = logged (r.versioned 0 "n").writer
        ((r.superseded? 0 "n").toList.map .archive ++ [.insert sampleNode]) ∧
      r'.archived = r.archived ++ (r.superseded? 0 "n").toList := by
  obtain ⟨hmutate, hmade⟩ := h.mutate_eq alloc 0 "n" (.insert sampleNode)
  obtain ⟨hrecoverable, hready, -⟩ := h.versioned_spec 0 "n"
  rcases applyAtomic_spec halloc hrecoverable hready _ with
    ⟨-, e, happly, hcarried⟩ | ⟨message, hinvalid, -⟩
  · have heq := hmutate.trans happly
    have hstep : ProcessStep alloc r _ := .insert 0 sampleNode (congrArg Prod.fst heq)
    exact ⟨_, hstep, update_self "n" _ r.nodes, (congrArg (fun p => p.2.writer) heq).trans hcarried.writer,
      congrArg (r.archived ++ ·) (hmade.trans (List.append_nil _))⟩
  · rw [superseded?] at hinvalid
    cases hprevious : r.nodes "n" with
    | none =>
      rw [hprevious] at hinvalid
      cases hinvalid
    | some node =>
      rw [hprevious, hnode node hprevious] at hinvalid
      cases hinvalid

/-- It is overwritten by itself. -/
theorem exists_overwrite (halloc : Allocates alloc) (h : r.Tracked)
    (hnode : r.nodes "n" = some sampleNode) :
    ∃ r', ProcessStep alloc r r' ∧ r'.nodes "n" = some sampleNode ∧
      r'.engine.writer = overwritten r.engine.writer ∧
      r'.archived = r.archived ++ [sampleEntry r.engine.writer] := by
  have hinsert := exists_insert halloc h (by simp [hnode])
  rwa [versioned, superseded?, hnode] at hinsert

/-- The log and the counters after a number of overwrites. -/
def overwrites (n : Nat) : Writer Operation := overwritten^[n] (logged .empty [.insert sampleNode])

theorem exists_overwrites (halloc : Allocates alloc) (n : Nat) :
    ∃ r, ReflTransGen (ProcessStep alloc) .empty r ∧ r.Complete ∧
      r.nodes "n" = some sampleNode ∧ r.engine.writer = overwrites n ∧
      r.archived = (List.range n).map fun m => sampleEntry (overwrites m) := by
  induction n with
  | zero =>
    obtain ⟨r, hstep, hnode⟩ := exists_insert halloc complete_empty.toTracked nofun
    exact ⟨r, .single hstep, complete_empty.process halloc hstep, hnode⟩
  | succ n ih =>
    obtain ⟨r, hrun, hcomplete, hnode, hwriter, harchived⟩ := ih
    obtain ⟨r', hstep, hnode', hwriter', harchived'⟩ :=
      exists_overwrite halloc hcomplete.toTracked hnode
    refine ⟨r', hrun.tail hstep, hcomplete.process halloc hstep, hnode', ?_, ?_⟩
    · rw [hwriter', hwriter, overwrites, overwrites, Function.iterate_succ_apply']
    · rw [harchived', harchived, hwriter, List.range_succ, List.map_append, List.map_singleton]

/-- A checkpoint, with the log rotated. -/
def rotated (w : Writer Operation) : Writer Operation :=
  { w.advance with log := rotate w.advance.checkpoint w.advance.log }

theorem exists_checkpoint (e : Engine) :
    ∃ e', ReflTransGen CheckpointStep { e with phase := .compacting [] } e' ∧
      e'.phase = .ready ∧ e'.writer = rotated e.writer := by
  have hcommit : ReflTransGen CheckpointStep { e with phase := .compacting [] } _ :=
    ((((((ReflTransGen.single (.sync rfl)).tail (.commitTree rfl)).tail
      (.commitTree rfl)).tail (.commitTree rfl)).tail (.commitTree rfl)).tail
      (.commitTree rfl)).tail (.commitTree rfl)
  exact ⟨_, ((hcommit.tail (.advance rfl)).tail (.rotate rfl)).tail (.finish rfl), rfl, rfl⟩

theorem exists_restarted {e : Engine} (h : e.Sound) :
    ∃ e', Restarted e e' ∧
      e'.writer.counters = (e.writer.restart e.writer.log.length).counters := by
  have hheap : e.HeapSurvives e.mem.heap := ⟨h.heap, Storage.HeapLe.refl _⟩
  obtain ⟨e', hsteps, hready⟩ := exists_recovery (h.crash e.writer.log.length hheap) rfl
  exact ⟨e', ⟨e.mem.heap, hheap, hsteps, hready⟩, recovery_counters hsteps⟩

end Samples

open Engine

/-- A node is overwritten, the database restarted, and the history then read. -/
theorem history_complete_after_restart :
    ∃ alloc r, Allocates alloc ∧ ReflTransGen (CoveredStep alloc) .empty r ∧
      r.superseded = [sampleNode] ∧ ∃ range, r.engine.mem.HistoryRange "n" range ∧
        ∃ entries, r.engine.mem.historyFor .plain "n" range = .ok entries ∧
          entries.map HistoryEntry.node = [sampleNode] := by
  obtain ⟨alloc, halloc⟩ := exists_allocates
  obtain ⟨r, hsteps, hcomplete, -, hwriter, harchived⟩ := exists_overwrites halloc 1
  obtain ⟨e, hrestart, -⟩ := exists_restarted hcomplete.recoverable.sound
  have hcovered : r.Covered := by
    rw [Covered, harchived, hwriter]
    decide +kernel
  have hrun : ReflTransGen (CoveredStep alloc) .empty { r with engine := e } :=
    (hsteps.lift id fun _ _ h => CoveredStep.process h).tail (.restart hcovered hrestart)
  obtain ⟨-, hsuperseded, -, hhistory⟩ := history_complete halloc hrun
  obtain ⟨hentries, ⟨range, hrange⟩, hread⟩ := hhistory "n"
  have hone : r.superseded = [sampleNode] := by
    rw [← hcomplete.superseded, harchived]
    rfl
  have hnodes : (entriesOf { r with engine := e } "n").map HistoryEntry.node = [sampleNode] := by
    rw [hentries]
    exact (congrArg (List.filter _) hone).trans rfl
  refine ⟨alloc, _, halloc, hrun, hone, range, hrange, _, ?_, hnodes⟩
  rw [hread range hrange, if_pos]
  rw [← List.length_map HistoryEntry.node, hnodes]
  decide

/-- Five overwrites, a checkpoint that rotates the log, and a restart: the next overwrite
    gets the version of the last one. -/
theorem history_incomplete :
    ∃ alloc r, Allocates alloc ∧ ReflTransGen (Step alloc) .empty r ∧
      ¬ r.archived.Pairwise fun x y => x.address = y.address → x.version ≠ y.version := by
  obtain ⟨alloc, halloc⟩ := exists_allocates
  obtain ⟨r, hsteps, hcomplete, hnode, hwriter, harchived⟩ := exists_overwrites halloc 5
  obtain ⟨checkpointed, hcheckpoint, hready, hrotated⟩ := exists_checkpoint r.engine
  have hstep : ProcessStep alloc r _ := .checkpoint hcheckpoint hready
  have hcomplete' := hcomplete.process halloc hstep
  obtain ⟨e, hrestart, hcounters⟩ := exists_restarted hcomplete'.recoverable.sound
  obtain ⟨hrecoverable, hready', hview⟩ := hcomplete'.toTracked.restart hrestart
  have htracked : Tracked { r with engine := e } :=
    ⟨hrecoverable, hready', hview ▸ hcomplete'.nodes⟩
  obtain ⟨last, hlast, -, -, hentry⟩ := exists_overwrite halloc htracked hnode
  have hrun := (((hsteps.tail hstep).lift id fun _ _ h => Step.process h).tail
    (.restart hrestart)).tail (.process hlast)
  refine ⟨alloc, last, halloc, hrun, fun hdistinct => ?_⟩
  -- The counter is back at the version of the fifth overwrite.
  have hagain : sampleEntry e.writer = sampleEntry (overwrites 4) := by
    rw [sampleEntry, hcounters, show Writer.log _ = (rotated (overwrites 5)).log from
      congrArg Writer.log (hrotated.trans (congrArg rotated hwriter)), hrotated, hwriter]
    decide +kernel
  rw [hentry, List.pairwise_append] at hdistinct
  refine hdistinct.2.2 (sampleEntry (overwrites 4)) ?_ _ List.mem_cons_self ?_ ?_
  · rw [harchived]
    exact List.mem_map_of_mem (List.mem_range.2 (by decide))
  · rfl
  · rw [hagain]

end FacetQL
