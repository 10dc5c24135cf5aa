import FacetQL.Storage.RecoveryCrash
import FacetQL.Storage.BTree

/-!
# Mutations

`insert` and `delete` of `storage/engine.rs`, between taking the writer lock and giving
it back. A mutation is lowered to operations: what it overwrites or removes is archived
first, under a version that is the next operation id. The operations are then checked,
logged, alone or in a frame, and applied.

No data index, text index or reference is declared here, so that the checks are those of
`storage/index.rs` on the keys of the base indexes.
-/

namespace FacetQL

/-! ## Admissible keys -/

/-- The longest that a component of a key can be. -/
def maxComponentLen : Nat := 65535

/-- Refuse a component of a key that is too long. -/
def checkComponent (name value : String) : Except String Unit :=
  if maxComponentLen < value.utf8ByteSize then
    .error (name ++ " is " ++ toString value.utf8ByteSize ++ " bytes; the maximum is " ++
      toString maxComponentLen)
  else .ok ()

/-- A key, of which only the length matters, against the limit of the tree. -/
def checkKeyAdmissible (index : String) (length : Nat) : Except String Unit :=
  if length = 0 then .error ("the " ++ index ++ " index key would be empty")
  else if BTree.maxKeyLen < length then
    .error ("the " ++ index ++ " index key would be " ++ toString length ++ " bytes; the maximum is " ++
      toString BTree.maxKeyLen)
  else .ok ()

/-- The length of a component with its length field. -/
def componentLen (value : String) : Nat := 2 + value.utf8ByteSize

/-- The length of a key of the history: the version takes eight bytes. -/
def historyKeyLen (address : String) : Nat := componentLen address + 8

/-- Every key that a node has in the base indexes. -/
def checkNodeKeys (address kind owner : String) : Except String Unit := do
  checkComponent "node address" address
  checkComponent "node kind" kind
  checkComponent "node owner" owner
  checkKeyAdmissible "primary" address.utf8ByteSize
  checkKeyAdmissible "kind" (componentLen kind + address.utf8ByteSize)
  checkKeyAdmissible "owner" (componentLen owner + address.utf8ByteSize)
  checkKeyAdmissible "history" (historyKeyLen address)

/-- Refuse an archived state whose keys are too long. -/
def checkHistoryKeys (address nodeAddress nodeKind nodeOwner : String) : Except String Unit := do
  checkComponent "history address" address
  checkKeyAdmissible "history" (historyKeyLen address)
  checkNodeKeys nodeAddress nodeKind nodeOwner

/-- Refuse an edge whose keys are too long. -/
def checkEdgeKeys (source target kind : String) : Except String Unit := do
  checkComponent "edge 'from'" source
  checkComponent "edge 'to'" target
  checkComponent "edge 'kind'" kind
  checkKeyAdmissible "outgoing-edge" (componentLen source + componentLen kind + target.utf8ByteSize)
  checkKeyAdmissible "incoming-edge" (componentLen target + componentLen kind + source.utf8ByteSize)

/-- Refuse a mutation that the indexes could not take, before it is logged. -/
def Operation.validate : Operation → Except String Unit
  | .archive entry =>
    checkHistoryKeys entry.address entry.node.address entry.node.kind entry.node.owner
  | .insert node => checkNodeKeys node.address node.kind node.owner
  | .delete address => checkKeyAdmissible "primary" address.utf8ByteSize
  | .insertEdge edge => checkEdgeKeys edge.source edge.target edge.kind
  | .deleteEdge id => checkEdgeKeys id.source id.target id.kind

/-- The first refusal among operations. -/
def validateAll : List Operation → Except String Unit
  | [] => .ok ()
  | op :: ops =>
    match op.validate with
    | .error message => .error message
    | .ok () => validateAll ops

/-! ## Logging and applying -/

/-- Log the frame of a transaction: BEGIN, its operations, COMMIT. -/
def Writer.logFrame (w : Writer Operation) (ops : List Operation) : Writer Operation :=
  let f : StagedCommit := ⟨w.counters.transactionId, w.counters.sequence, none⟩
  (ops.foldl (fun w op => w.stage f op) w.openFrame).commit f

namespace Engine

/-- Where the heap puts the next record. -/
abbrev Alloc := Heap → RecordLocation

/-- Apply operations to what is in memory, until one fails. -/
def applyAll (alloc : Alloc) (mem : Storage) : List Operation → Except IoError Unit × Storage
  | [] => (.ok (), mem)
  | op :: ops =>
    match Storage.applyOperation (alloc mem.heap) mem op with
    | .ok mem => applyAll alloc mem ops
    | .error err => (.error err, mem)

/-- Log operations, more than one in a frame, and apply them. A frame that fails keeps its fence. -/
def applyAtomic (alloc : Alloc) (e : Engine) (ops : List Operation) : Except String Unit × Engine :=
  match ops with
  | [] => (.ok (), e)
  | [op] =>
    match op.validate with
    | .error message => (.error message, e)
    | .ok () =>
      let logged := { e with writer := e.writer.standalone op false }
      match applyAll alloc e.mem [op] with
      | (.error err, mem) => (.error err.message, { logged with mem := mem })
      | (.ok (), mem) => (.ok (), { logged with mem := mem }.settle e.writer.counters.sequence)
  | ops =>
    match validateAll ops with
    | .error message => (.error message, e)
    | .ok () =>
      let logged := { e with writer := e.writer.logFrame ops }
      match applyAll alloc e.mem ops, logged.writer.frame with
      | (.ok (), mem), _ =>
        (.ok (), { logged with mem := mem }.settle (logged.writer.counters.sequence - 1))
      | (.error err, mem), some f =>
        (.error err.message, { logged with mem := mem, writer := logged.writer.drop f false })
      | (.error err, mem), none => (.error err.message, { logged with mem := mem })

/-- `HistoryEntry::now`: archive a node, with the next operation id for a version. -/
def archive (e : Engine) (archivedAtUnix : Nat) (node : Node) : HistoryEntry × Engine :=
  (⟨node.address, archivedAtUnix, node, e.writer.counters.operationId⟩,
    { e with writer := { e.writer with
      counters := { e.writer.counters with operationId := e.writer.counters.operationId + 1 } } })

/-- Lower a mutation of one address: what is there is archived first. -/
def lower (now : Nat) (e : Engine) (address : String) (op : Operation) :
    Except IoError (List Operation × Engine) :=
  match e.mem.findNode address with
  | .error err => .error err
  | .ok none => .ok ([op], e)
  | .ok (some previous) =>
    let (entry, e') := e.archive now previous
    .ok ([.archive entry, op], e')

/-- Lower a mutation, and apply what it is lowered to. -/
def mutate (alloc : Alloc) (now : Nat) (e : Engine) (address : String) (op : Operation) :
    Except String Unit × Engine :=
  match lower now e address op with
  | .error err => (.error err.message, e)
  | .ok (ops, e') => applyAtomic alloc e' ops

/-- Insert or replace a node. -/
def insertLocked (alloc : Alloc) (now : Nat) (e : Engine) (node : Node) : Except String Unit × Engine :=
  mutate alloc now e node.address (.insert node)

/-- Remove a node. -/
def delete (alloc : Alloc) (now : Nat) (e : Engine) (address : String) : Except String Unit × Engine :=
  mutate alloc now e address (.delete address)

/-! ## What a mutation does -/

/-- A run of one mutation. -/
abbrev WriteSteps : Engine → Engine → Prop := Relation.ReflTransGen WriteStep

variable {e e' : Engine} {alloc : Alloc}

theorem Recoverable.writeSteps (h : e.Recoverable) (hsteps : WriteSteps e e') : e'.Recoverable := by
  induction hsteps with
  | refl => exact h
  | tail _ hstep ih => exact ih.write hstep

/-- The operations of a frame are logged one after the other. -/
theorem stage_steps {w : Writer Operation} {f : StagedCommit} (hframe : w.frame = some f)
    (hopen : f.commitSequence = none) (staged ops : List Operation) :
    WriteSteps { e with writer := w, phase := .staging staged }
      { e with
        writer := ops.foldl (fun w op => w.stage f op) w
        phase := .staging (staged ++ ops) } ∧
    (ops.foldl (fun w op => w.stage f op) w).frame = some f := by
  induction ops generalizing w staged with
  | nil =>
    rw [List.append_nil]
    exact ⟨.refl, hframe⟩
  | cons op ops ih =>
    have hstep : WriteStep { e with writer := w, phase := .staging staged }
        { e with writer := w.stage f op, phase := .staging (staged ++ [op]) } :=
      @WriteStep.stage { e with writer := w, phase := .staging staged } staged f rfl hframe hopen op
    obtain ⟨hsteps, hlast⟩ := ih (w := w.stage f op) hframe (staged ++ [op])
    rw [List.append_assoc] at hsteps
    exact ⟨.head hstep hsteps, hlast⟩

/-- The operations are applied one after the other, and all of them can be. -/
theorem apply_steps (halloc : Allocates alloc) {mem : Storage} {ops : List Operation} {sequence : Nat}
    (h : Sound { e with mem := mem, phase := .applying ops sequence }) :
    ∃ mem', applyAll alloc mem ops = (.ok (), mem') ∧
      WriteSteps { e with mem := mem, phase := .applying ops sequence }
        { e with mem := mem', phase := .applying [] sequence } ∧
      mem'.view = writes mem.view (ops.map Operation.toWrite) := by
  induction ops generalizing mem with
  | nil => exact ⟨mem, rfl, .refl, rfl⟩
  | cons op ops ih =>
    have hfresh : mem.heap (alloc mem.heap) = none := halloc _ h.bounded
    obtain ⟨next, hok, -, hview, -⟩ := Storage.applyOperation_spec h.mem hfresh op
    have hstep : WriteStep { e with mem := mem, phase := .applying (op :: ops) sequence }
        { e with mem := next, phase := .applying ops sequence } :=
      @WriteStep.apply { e with mem := mem, phase := .applying (op :: ops) sequence } op ops sequence
        rfl _ hfresh _ hok
    obtain ⟨mem', hall, hsteps, hlast⟩ := ih (h.write hstep)
    refine ⟨mem', ?_, .head hstep hsteps, ?_⟩
    · rw [applyAll, hok]
      exact hall
    · rw [hlast, hview, List.map_cons, writes_cons]

/-- What the log and the counters look like when operations have been applied. -/
def logged (w : Writer Operation) (ops : List Operation) : Writer Operation :=
  match ops with
  | [] => w
  | [op] => (w.standalone op false).noteApplied w.counters.sequence
  | ops =>
    let w' := w.logFrame ops
    match w'.frame with
    | some f => w'.settle f (w'.counters.sequence - 1)
    | none => w'.noteApplied (w'.counters.sequence - 1)

theorem settle_writer_of_none {sequence : Nat} (hframe : e.writer.frame = none) :
    (e.settle sequence).writer = e.writer.noteApplied sequence := by
  rw [settle, hframe]

/-- A mutation has been carried out, with these operations as its writes. -/
structure Carried (e : Engine) (ops : List Operation) (e' : Engine) : Prop where
  steps : WriteSteps e e'
  ready : e'.phase = .ready
  writer : e'.writer = logged e.writer ops
  view : e'.mem.view = writes e.mem.view (ops.map Operation.toWrite)

theorem applyAtomic_standalone (halloc : Allocates alloc) (h : e.Recoverable)
    (hready : e.phase = .ready) {op : Operation} (hvalid : op.validate = .ok ()) :
    ∃ e', applyAtomic alloc e [op] = (.ok (), e') ∧ e.Carried [op] e' := by
  obtain ⟨-, hsettled⟩ := h.ready hready
  have hstart := WriteStep.standalone hready hsettled.frame op
  obtain ⟨mem, hall, hsteps, hview⟩ := apply_steps
    (e := { e with writer := e.writer.standalone op false }) halloc (h.sound.write hstart)
  have hend := WriteStep.settle (e := { e with
    writer := e.writer.standalone op false
    mem := mem
    phase := .applying [] e.writer.counters.sequence }) rfl
  refine ⟨_, ?_, (Relation.ReflTransGen.head hstart hsteps).tail hend, rfl, ?_, hview⟩
  · rw [applyAtomic, hvalid]
    simp only [hall]
    rfl
  · exact settle_writer_of_none hsettled.frame

theorem applyAtomic_frame (halloc : Allocates alloc) (h : e.Recoverable) (hready : e.phase = .ready)
    {op op' : Operation} {ops : List Operation} (hvalid : validateAll (op :: op' :: ops) = .ok ()) :
    ∃ e', applyAtomic alloc e (op :: op' :: ops) = (.ok (), e') ∧
      e.Carried (op :: op' :: ops) e' := by
  obtain ⟨-, hsettled⟩ := h.ready hready
  have hstart := WriteStep.openFrame hready hsettled.frame
  obtain ⟨hstage, hframe⟩ := stage_steps (e := e) (w := e.writer.openFrame) rfl rfl []
    (op :: op' :: ops)
  have hlog := (Relation.ReflTransGen.head hstart hstage).tail (.commit rfl hframe rfl)
  obtain ⟨mem, hall, hsteps, hview⟩ := apply_steps
    (e := { e with writer := e.writer.logFrame (op :: op' :: ops) }) halloc (h.writeSteps hlog).sound
  have hend := WriteStep.settle (e := { e with
    writer := e.writer.logFrame (op :: op' :: ops)
    mem := mem
    phase := .applying [] ((e.writer.logFrame (op :: op' :: ops)).counters.sequence - 1) }) rfl
  refine ⟨_, ?_, (hlog.trans hsteps).tail hend, rfl, rfl, hview⟩
  replace hall : applyAll alloc e.mem (op :: op' :: ops) = (.ok (), mem) := hall
  rw [applyAtomic, hvalid]
  simp only [hall]
  · rfl
  · exact List.cons_ne_nil _ _
  · simp

theorem validateAll_singleton (op : Operation) : validateAll [op] = op.validate := by
  rw [validateAll]
  cases op.validate <;> rfl

/-- Operations that are valid are carried out, and nothing happens otherwise. -/
theorem applyAtomic_spec (halloc : Allocates alloc) (h : e.Recoverable) (hready : e.phase = .ready)
    (ops : List Operation) :
    (validateAll ops = .ok () ∧ ∃ e', applyAtomic alloc e ops = (.ok (), e') ∧ e.Carried ops e') ∨
    ∃ message, validateAll ops = .error message ∧ applyAtomic alloc e ops = (.error message, e) := by
  rcases hvalid : validateAll ops with message | _
  · refine .inr ⟨message, rfl, ?_⟩
    match ops, hvalid with
    | [op], hvalid =>
      rw [validateAll_singleton] at hvalid
      rw [applyAtomic, hvalid]
    | _ :: _ :: _, hvalid =>
      rw [applyAtomic, hvalid]
      · exact List.cons_ne_nil _ _
      · simp
  refine .inl ⟨rfl, ?_⟩
  match ops, hvalid with
  | [], _ => exact ⟨e, rfl, .refl, hready, rfl, rfl⟩
  | [op], hvalid => exact applyAtomic_standalone halloc h hready (validateAll_singleton op ▸ hvalid)
  | _ :: _ :: _, hvalid => exact applyAtomic_frame halloc h hready hvalid

end Engine

end FacetQL
