import FacetQL.Storage.Lowering

/-!
# Calls of the engine

The calls by which the handlers reach `storage/engine.rs`, each of them atomic: a call that writes
holds the writer lock from its first read to its last write, and gives it back before it returns. A
call lowers a mutation to operations, checks them, and applies them.
-/

namespace FacetQL

/-- The indexes with their records, and the declared references. -/
structure GraphStore where
  view : View
  references : References

/-- Why a claim is refused. -/
inductive ClaimError
  | notFound
  | alreadyClaimed (worker : String)
  | storageError (message : String)
  deriving DecidableEq, Repr

section Calls

variable (st : Settings)

/-- Apply operations until one fails. -/
def View.applyAll (v : View) : List Operation → Except IoError Unit × View
  | [] => (.ok (), v)
  | op :: ops =>
    match v.apply st (.write op) with
    | .error e => (.error e, v)
    | .ok v => View.applyAll v ops

namespace GraphStore

variable (db : GraphStore)

/-- `Transaction::commit`: nothing is logged unless every operation is valid. -/
def commit (ops : List Operation) : Except String Unit × GraphStore :=
  match ops.forM (db.view.validate st) with
  | .error message => (.error message, db)
  | .ok () =>
    let (result, v) := db.view.applyAll st ops
    (result.mapError IoError.message, { db with view := v })

/-- The rules that are about a whole batch. -/
def checkBatch (ops : List Operation) : Except String Unit := do
  db.view.checkUnique st ops
  db.view.checkReferences st db.references ops

/-- Log operations and apply them: one on its own, more of them in a frame. -/
def applyAtomic (ops : List Operation) : Except String Unit × GraphStore :=
  match ops with
  | [] => (.ok (), db)
  | [op] =>
    -- Alone, an operation is validated before the rules of the batch.
    match (do db.view.validate st op; db.checkBatch st [op]) with
    | .error message => (.error message, db)
    | .ok () => db.commit st [op]
  | ops =>
    match db.checkBatch st ops with
    | .error message => (.error message, db)
    | .ok () => db.commit st ops

/-! ## Nodes -/

/-- A node is written; what it replaces is archived first. -/
def lowerInsert (stamp : Stamp) (previous : Option Node) (node : Node) : Batch :=
  match previous with
  | some old => (Batch.start stamp).replace old node.address node
  | none => (Batch.start stamp).put node.address node

/-- Insert or replace a node, and archive what it replaces. -/
def insert (stamp : Stamp) (node : Node) : Except String Unit × GraphStore :=
  match db.view.readNode node.address with
  | .error e => (.error e.message, db)
  | .ok previous => db.applyAtomic st (lowerInsert stamp previous node).operations

/-- Claim a node that nobody has claimed. -/
def claim (stamp : Stamp) (address worker : String) : Except ClaimError Unit × GraphStore :=
  match db.view.readNode address with
  | .error e => (.error (.storageError e.message), db)
  | .ok none => (.error .notFound, db)
  | .ok (some node) =>
    match node.claimedBy with
    | some existing => (.error (.alreadyClaimed existing), db)
    | none =>
      let (result, db) := db.insert st stamp { node with claimedBy := some worker }
      (result.mapError .storageError, db)

/-- Remove a node, and what its removal entails. -/
def delete (stamp : Stamp) (address : String) : Except TransactionError Unit × GraphStore :=
  match db.view.readNode address with
  | .error e => (.error (.storage e.message), db)
  | .ok none =>
    let (result, db) := db.applyAtomic st [.delete address]
    (result.mapError .storage, db)
  | .ok (some node) =>
    match db.view.lowerDeleteClosure st db.references [node] (.start stamp) with
    | .error e => (.error e, db)
    | .ok b =>
      let (result, db) := db.applyAtomic st b.operations
      (result.mapError .storage, db)

/-- The addresses that a bulk delete would remove. -/
def deleteWhereTargets (kind : String) (predicate : Option (Expr st.json.Number)) (owner : String)
    (isAdmin : Bool) : Except String (List String) :=
  -- A predicate that cannot be evaluated ends the walk.
  let walked := db.view.kind.forEachRange (Keys.kindPrefix kind) none false
    (fun key _ (targets, failure) =>
      let address := View.addressFromKey st key (Keys.kindPrefix kind)
      match db.view.readNode address with
      | .error e => .error e
      | .ok none => .ok (true, targets, failure)
      | .ok (some node) =>
        match selectionMatches st node kind predicate owner isAdmin with
        | .error e => .ok (false, targets, some e)
        | .ok false => .ok (true, targets, failure)
        | .ok true =>
          if st.maxScanRows ≤ targets.length then .error (st.scanLimitExceeded "this bulk delete")
          else .ok (true, targets ++ [address], failure)) (([] : List String), (none : Option String))
  match walked with
  | .error e => .error e.message
  | .ok (_, some failure) => .error failure
  | .ok (targets, none) => .ok targets

/-! ## Edges -/

/-- Create or replace an edge. -/
def insertEdge (edge : Edge) : Except String Unit × GraphStore :=
  if !db.view.containsNode edge.source then
    (.error ("edge 'from' address not found: " ++ edge.source), db)
  else if !db.view.containsNode edge.target then
    (.error ("edge 'to' address not found: " ++ edge.target), db)
  else
    match db.view.findEdge edge.id with
    | .error e => (.error e.message, db)
    | .ok existing =>
      if existing.any fun existing => existing.owner != edge.owner then
        (.error ("edge " ++ edge.source ++ " -[" ++ edge.kind ++ "]-> " ++ edge.target ++
          " is owned by " ++ (existing.map Edge.owner).getD ""), db)
      else db.applyAtomic st [.insertEdge edge]

/-- The edges of a node that is being written. What else they end at must be there. -/
def linkTargets (address owner : String) :
    List (String × String) → Except String (List Edge)
  | [] => .ok []
  | (target, kind) :: targets =>
    if target != address && !db.view.containsNode target then
      .error ("edge 'to' address not found: " ++ target)
    else (linkTargets address owner targets).map (⟨address, target, kind, owner⟩ :: ·)

/-- Lower a node with its edges. A node is overwritten only by its owner, or by an admin. -/
def lowerWithEdges (stamp : Stamp) (node : Node) (targets : List (String × String))
    (isAdmin : Bool) : Except String (Batch × List Edge) :=
  match db.view.readNode node.address with
  | .error e => .error e.message
  | .ok previous =>
    if previous.any fun previous => !(isAdmin || previous.canWrite node.owner) then
      .error ("not authorized to overwrite node '" ++ node.address ++
        "':                              it belongs to another owner")
    else
      (db.linkTargets node.address node.owner targets).map fun edges =>
        (edges.foldl Batch.putEdge (lowerInsert stamp previous node), edges)

/-- Write a node and edges from it. The list that comes with an error is always empty. -/
def insertWithEdges (stamp : Stamp) (node : Node) (targets : List (String × String))
    (isAdmin : Bool) : Except (String × List Edge) (List Edge) × GraphStore :=
  match db.lowerWithEdges stamp node targets isAdmin with
  | .error message => (.error (message, []), db)
  | .ok (b, edges) =>
    let (result, db) := db.applyAtomic st b.operations
    ((result.map fun _ => edges).mapError fun message => (message, []), db)

/-! ## Transactions -/

/-- What is refused of a lowered transaction. -/
def checkTransaction (lowered : List Operation) : Except TransactionError Unit :=
  if st.maxTransactionOps < lowered.length then
    .error (.invalid ("transaction failed, nothing applied: it resolves to " ++
      toString lowered.length ++ " mutations, over the " ++ toString st.maxTransactionOps ++
      " this engine will stage in one frame. Split the batch, or raise " ++
      "FACETQL_MAX_TRANSACTION_OPS."))
  else (db.checkBatch st lowered).mapError .invalid

/-- Lower a transaction, and commit what it comes to. -/
def executeTransaction (stamp : Stamp) (ops : List (TxOperation st.json)) :
    Except TransactionError Unit × GraphStore :=
  match (do
      let lowered ← db.view.lowerTransaction st db.references stamp ops
      db.checkTransaction st lowered
      return lowered) with
  | .error e => (.error e, db)
  | .ok lowered =>
    let (result, db) := db.commit st lowered
    (result.mapError .storage, db)

end GraphStore

/-! ## The calls -/

/-- A call of the engine. -/
inductive Call
  | get (address : String)
  | findEdge (id : EdgeId)
  | deleteWhereTargets (kind : String) (predicate : Option (Expr st.json.Number)) (owner : String)
      (isAdmin : Bool)
  | insert (node : Node)
  | claim (address worker : String)
  | delete (address : String)
  | insertEdge (edge : Edge)
  | insertWithEdges (node : Node) (targets : List (String × String)) (isAdmin : Bool)
  | executeTransaction (ops : List (TxOperation st.json))

/-- What a call answers. -/
def Call.Result : Call st → Type
  | get _ => Except IoError (Option Node)
  | findEdge _ => Except IoError (Option Edge)
  | deleteWhereTargets .. => Except String (List String)
  | insert _ => Except String Unit
  | claim .. => Except ClaimError Unit
  | delete _ => Except TransactionError Unit
  | insertEdge _ => Except String Unit
  | insertWithEdges .. => Except (String × List Edge) (List Edge)
  | executeTransaction _ => Except TransactionError Unit

/-- Make a call. -/
def GraphStore.act (stamp : Stamp) : (call : Call st) → GraphStore → call.Result × GraphStore
  | .get address, db => (db.view.get address, db)
  | .findEdge id, db => (db.view.findEdge id, db)
  | .deleteWhereTargets kind predicate owner isAdmin, db =>
    (db.deleteWhereTargets st kind predicate owner isAdmin, db)
  | .insert node, db => db.insert st stamp node
  | .claim address worker, db => db.claim st stamp address worker
  | .delete address, db => db.delete st stamp address
  | .insertEdge edge, db => db.insertEdge st edge
  | .insertWithEdges node targets isAdmin, db => db.insertWithEdges st stamp node targets isAdmin
  | .executeTransaction ops, db => db.executeTransaction st stamp ops

end Calls

end FacetQL
