import FacetQL.Storage.References

/-!
# Lowering

How `storage/engine.rs` turns a request into the operations that are logged and applied. A batch is
judged against an overlay of what is stored: what it has written and removed so far comes first, and
an address or an edge it has not touched is read from the indexes. What a batch overwrites or removes
is archived first, under a version that is the next operation id.
-/

namespace FacetQL

/-- Why a batch is refused: malformed, a condition does not hold, or the storage failed. -/
inductive TransactionError
  | invalid (message : String)
  | precondition (message : String)
  | storage (message : String)
  deriving DecidableEq, Repr

/-- The clock and the counter of operation ids, as a call finds them. -/
structure Stamp where
  archivedAtUnix : Nat
  operationId : Nat
  deriving DecidableEq, Repr

/-- What a field must be for a conditional write to happen. -/
inductive Expectation (J : SerdeJson)
  | atMost (bound : J.F64)
  | equals (value : J.Value)
  | absent

/-- Only who created an edge may retract it. -/
def Edge.canWrite (edge : Edge) (requester : String) : Bool := edge.owner == requester

/-- An operation of a transaction. -/
inductive TxOperation (J : SerdeJson)
  | insertNode (node : Node)
  | deleteNode (address : String)
  | insertEdge (edge : Edge)
  | deleteEdge (id : EdgeId) (owner : String) (isAdmin : Bool)
  | clearKind (kind owner : String) (isAdmin : Bool)
  | deleteWhere (kind : String) (predicate : Option (Expr J.Number)) (owner : String)
      (isAdmin : Bool)
  | setIf (address field : String) (expect : Expectation J) (set : List (String × J.Value))
      (owner : String) (isAdmin : Bool)

/-! ## Batches -/

/-- A batch in progress. -/
structure Batch where
  operations : List Operation
  /-- The nodes that the batch has written, and the addresses it has removed. -/
  staged : List (String × Option Node)
  stagedEdges : EdgeId → Option (Option Edge)
  /-- The clock, and the next operation id. -/
  stamp : Stamp

namespace Batch

/-- The batch before its first operation. -/
def start (stamp : Stamp) : Batch := ⟨[], [], fun _ => none, stamp⟩

/-- Stage one more operation. -/
def push (b : Batch) (op : Operation) : Batch := { b with operations := b.operations ++ [op] }

/-- `HistoryEntry::now`: archive a node, with the next operation id for a version. -/
def archive (b : Batch) (node : Node) : Batch :=
  { b.push (.archive ⟨node.address, b.stamp.archivedAtUnix, node, b.stamp.operationId⟩) with
    stamp := { b.stamp with operationId := b.stamp.operationId + 1 } }

/-- The batch writes a node. -/
def put (b : Batch) (address : String) (node : Node) : Batch :=
  { b.push (.insert node) with staged := SortedMap.insert address (some node) b.staged }

/-- The batch removes what an address names. -/
def drop (b : Batch) (address : String) : Batch :=
  { b.push (.delete address) with staged := SortedMap.insert address none b.staged }

/-- Archive a node and remove it. -/
def remove (b : Batch) (node : Node) : Batch := (b.archive node).drop node.address

/-- Archive a node and write another one in its place. -/
def replace (b : Batch) (old : Node) (address : String) (new : Node) : Batch :=
  (b.archive old).put address new

/-- The batch writes an edge. -/
def putEdge (b : Batch) (edge : Edge) : Batch :=
  { b.push (.insertEdge edge) with
    stagedEdges := Function.update b.stagedEdges edge.id (some (some edge)) }

/-- The batch removes an edge. -/
def dropEdge (b : Batch) (id : EdgeId) : Batch :=
  { b.push (.deleteEdge id) with stagedEdges := Function.update b.stagedEdges id (some none) }

end Batch

/-! ## Conditional writes -/

section Lower

variable (st : Settings)

/-- The fields of a node's data. Data that was never written has none. -/
def setIfFields (node : Node) : Except TransactionError (List (String × st.json.Value)) :=
  if (trim node.data.toList).isEmpty then .ok []
  else
    match st.json.parse node.data with
    | some (.object fields) => .ok fields
    | some .null => .ok []
    | some _ => .error (.invalid ("set_if target " ++ node.address ++
        " does not hold a JSON object in \x60data\x60"))
    | none => .error (.invalid ("set_if target " ++ node.address ++
        " has undecodable \x60data\x60: " ++ st.json.parseError node.data))

/-- Does the value of a field meet an expectation? A value that is no number is at most nothing. -/
def Expectation.holds (current : Option st.json.Value) : Expectation st.json → Bool
  | .atMost bound => (current.bind st.json.valueAsF64).any fun value => st.json.fle value bound
  | .equals expected => current.any fun value => value.eq st.json.numberEq expected
  | .absent => current.all Json.isNull

/-- The node that a conditional write makes: the given fields are merged into its data. -/
def setIfNext (node : Node) (field : String) (expect : Expectation st.json)
    (set : List (String × st.json.Value)) : Except TransactionError Node := do
  let fields ← setIfFields st node
  if expect.holds st (fields.lookup field) then
    let merged := set.foldl (fun fields (key, value) => SortedMap.insert key value fields) fields
    return { node with data := st.json.print (.object merged) }
  else
    .error (.precondition ("set_if precondition failed on " ++ node.address ++ "." ++ field))

/-- Does a node fall inside a bulk delete? -/
def selectionMatches (node : Node) (kind : String) (predicate : Option (Expr st.json.Number))
    (owner : String) (isAdmin : Bool) : Except String Bool :=
  if node.kind != kind then .ok false
  else if !(isAdmin || node.canWrite owner) then .ok false
  else
    match predicate with
    | none => .ok true
    | some expr =>
      let data := (st.json.parse node.data).getD .null
      match Predicate.eval st.json st.lowerTable expr "item" data with
      | .ok (.bool true) => .ok true
      | .ok _ => .ok false
      | .error e => .error ("predicate evaluation failed: " ++ e)

/-- An I/O error of a lowering. -/
def storageError {α : Type} (x : Except IoError α) : Except TransactionError α :=
  x.mapError fun e => .storage e.message

namespace View

variable (v : View)

/-! ## The overlays -/

/-- The live edge with this identity. -/
def findEdge (id : EdgeId) : Except IoError (Option Edge) :=
  match SortedMap.find id.outKey v.edgeOut with
  | some edge => edge.map some
  | none => .ok none

/-- Does the address name a node? -/
def containsNode (address : String) : Bool := (SortedMap.find (utf8 address) v.primary).isSome

/-- What an address names, in the state that a batch has reached. -/
def stagedNode (b : Batch) (address : String) : Except IoError (Option Node) :=
  match SortedMap.find address b.staged with
  | some slot => .ok slot
  | none => v.readNode address

/-- An edge as the batch has left it. -/
def stagedEdge (b : Batch) (id : EdgeId) : Except IoError (Option Edge) :=
  match b.stagedEdges id with
  | some slot => .ok slot
  | none => v.findEdge id

/-! ## Deletes -/

/-- A set of addresses, in their order. -/
def addressSet (addresses : List String) : List String :=
  (addresses.foldl (fun set address => SortedMap.insert address () set) []).map Prod.fst

/-- The nodes that reference a value now, among those the index and the batch's writes propose. -/
def referencingNodes (decl : ReferenceDef) (key : st.json.Value) (b : Batch)
    (written : List Node) : Except String (List Node) := do
  match v.dataFind decl.kind decl.field with
  | none => .error ("reference " ++ st.json.debugStr decl.name ++
      " cannot be enforced: the index over " ++ decl.kind ++ "." ++ decl.field ++
      " it finds referencing nodes through is gone")
  | some index =>
    let found ← ioMessage (index.tree.forEachRange (Keys.encodeOrderValue st.json (some key)) none
      false (fun entry _ found =>
        match Keys.addressFromDataKey entry with
        | some raw => .ok (true, found ++ [st.fromUtf8Lossy raw])
        | none => .ok (true, found)) [])
    let proposed := (written.filter fun node => node.kind == decl.kind).map Node.address
    (addressSet (found ++ proposed)).foldlM (fun nodes address => do
      match ← ioMessage (v.stagedNode b address) with
      | none => .ok nodes
      | some node =>
        if node.kind == decl.kind &&
            (decl.referencingKey st.json node).any (fun value => value.eq st.json.numberEq key) then
          .ok (nodes ++ [node])
        else .ok nodes) []

/-- A closure in progress: the nodes to remove next, and the addresses removed so far. -/
structure Closure where
  batch : Batch
  queue : List Node
  removed : List String

/-- A referencing node that is kept loses its reference. -/
def clearField (field : String) (b : Batch) (child : Node) : Except TransactionError Batch := do
  let cleared ← (withFieldNull st.json child field).mapError .invalid
  return b.replace child cleared.address cleared

/-- What one reference makes of the removal of a node. -/
def actOnReference (written : List Node) (node : Node) (c : Closure) (decl : ReferenceDef) :
    Except TransactionError Closure := do
  match decl.referencedKey st.json node with
  | none => return c
  | some key =>
    let nodes ← (v.referencingNodes st decl key c.batch written).mapError .storage
    match nodes.filter fun child => !c.removed.contains child.address, decl.onDelete with
    | [], _ => return c
    | children, .cascade => return { c with queue := c.queue ++ children }
    | first :: rest, .restrict =>
      .error (.precondition ("delete refused, nothing applied: " ++ node.address ++
        " is still referenced by " ++ first.address ++ " through " ++ st.json.debugStr decl.name ++
        " (" ++ toString (rest.length + 1) ++ " in total), and that reference is declared restrict"))
    | children, .setNull =>
      let batch ← children.foldlM (clearField st decl.field) c.batch
      return { c with batch := batch }

/-- Remove the queue and what that entails. The bound on operations also bounds the rounds. -/
def closeDeletes (references : References) (written : List Node) :
    (rounds : Nat) → Closure → Except TransactionError Batch
  | 0, c => .ok c.batch
  | rounds + 1, c => do
    -- Nodes that have been removed since they were queued are passed over.
    match c.queue.dropWhile fun node => c.removed.contains node.address with
    | [] => return c.batch
    | node :: queue =>
      let c ← (references.forParent node.kind).foldlM (v.actOnReference st written node)
        ⟨c.batch.remove node, queue, node.address :: c.removed⟩
      if st.maxTransactionOps < c.batch.operations.length then
        .error (.invalid ("delete refused, nothing applied: deleting " ++ node.address ++
          " cascades to more than the " ++ toString st.maxTransactionOps ++
          " mutations this engine will stage in one frame. A cascade is atomic or it is not a " ++
          "cascade, so it is refused rather than split. Delete the referencing nodes in batches " ++
          "first, or raise FACETQL_MAX_TRANSACTION_OPS."))
      else closeDeletes references written rounds c

/-- Lower a delete into every mutation that the declared references make it entail. -/
def lowerDeleteClosure (references : References) (seeds : List Node) (b : Batch) :
    Except TransactionError Batch :=
  if references.isEmpty then .ok (seeds.foldl Batch.remove b)
  else v.closeDeletes st references (b.staged.filterMap Prod.snd) (st.maxTransactionOps + 2)
    ⟨b, seeds, []⟩

/-- The addresses that a bulk delete selects within a batch. -/
def stagedSelection (b : Batch) (kind : String) (predicate : Option (Expr st.json.Number))
    (owner : String) (isAdmin : Bool) : Except String (List String) := do
  let found ← ioMessage (v.kind.forEachRange (Keys.kindPrefix kind) none false
    (fun key _ found => .ok (true, found ++ [addressFromKey st key (Keys.kindPrefix kind)])) [])
  (addressSet (found ++ b.staged.map Prod.fst)).foldlM (fun targets address => do
    match ← ioMessage (v.stagedNode b address) with
    | none => .ok targets
    | some node =>
      if ← selectionMatches st node kind predicate owner isAdmin then .ok (targets ++ [address])
      else .ok targets) []

/-- What a selected address comes to: a node to remove, or nothing at all. -/
def selectSeed (c : Batch × List Node) (address : String) :
    Except TransactionError (Batch × List Node) := do
  match ← storageError (v.stagedNode c.1 address) with
  | some node => return (c.1, c.2 ++ [node])
  | none => return (c.1.drop address, c.2)

/-- Lower a bulk delete. -/
def lowerSelection (references : References) (b : Batch) (kind : String)
    (predicate : Option (Expr st.json.Number)) (owner : String) (isAdmin : Bool) :
    Except TransactionError Batch := do
  let targets ← (v.stagedSelection st b kind predicate owner isAdmin).mapError .invalid
  let (b, seeds) ← targets.foldlM v.selectSeed (b, [])
  v.lowerDeleteClosure st references seeds b

/-! ## Transactions -/

/-- An end of an edge must be there, in the state that the batch has reached. -/
def requireEndpoint (b : Batch) (endpoint label : String) : Except TransactionError Unit := do
  match ← storageError (v.stagedNode b endpoint) with
  | some _ => return ()
  | none =>
    .error (.invalid ("transaction failed, nothing applied: edge '" ++ label ++
      "' address not found: " ++ endpoint))

/-- Lower one operation of a transaction. -/
def lowerOperation (references : References) (b : Batch) :
    TxOperation st.json → Except TransactionError Batch
  | .insertNode node => do
    match ← storageError (v.stagedNode b node.address) with
    | none => return b.put node.address node
    | some existing =>
      if existing.owner != node.owner then
        .error (.invalid ("transaction failed, nothing applied: address " ++ node.address ++
          " is owned by " ++ existing.owner))
      else return b.replace existing node.address node
  | .deleteNode address => do
    -- An address that the batch has removed is not there to be removed again.
    if SortedMap.find address b.staged = some none then return b
    match ← storageError (v.stagedNode b address) with
    | some node => v.lowerDeleteClosure st references [node] b
    | none =>
      .error (.invalid ("transaction failed, nothing applied: delete target not found: " ++ address))
  | .clearKind kind owner isAdmin => v.lowerSelection st references b kind none owner isAdmin
  | .deleteWhere kind predicate owner isAdmin =>
    v.lowerSelection st references b kind predicate owner isAdmin
  | .setIf address field expect set owner isAdmin => do
    match ← storageError (v.stagedNode b address) with
    | none => .error (.precondition ("set_if target not found: " ++ address))
    | some node =>
      if !(isAdmin || node.canWrite owner) then
        .error (.invalid ("transaction failed, nothing applied: not authorized to set_if " ++
          address))
      else
        let next ← setIfNext st node field expect set
        return b.replace node address next
  | .insertEdge edge => do
    v.requireEndpoint b edge.source "from"
    v.requireEndpoint b edge.target "to"
    return b.putEdge edge
  | .deleteEdge id owner isAdmin => do
    if b.stagedEdges id = some none then return b
    match ← storageError (v.stagedEdge b id) with
    | none =>
      .error (.invalid ("transaction failed, nothing applied: delete target not found: edge " ++
        id.source ++ " -[" ++ id.kind ++ "]-> " ++ id.target))
    | some edge =>
      if !(isAdmin || edge.canWrite owner) then
        .error (.invalid ("transaction failed, nothing applied: not authorized to delete edge " ++
          id.source ++ " -[" ++ id.kind ++ "]-> " ++ id.target))
      else return b.dropEdge id

/-- Lower a transaction into the operations it comes to, without writing anything. -/
def lowerTransaction (references : References) (stamp : Stamp) (ops : List (TxOperation st.json)) :
    Except TransactionError (List Operation) := do
  let b ← ops.foldlM (v.lowerOperation st references) (.start stamp)
  return b.operations

end View

end Lower

end FacetQL
