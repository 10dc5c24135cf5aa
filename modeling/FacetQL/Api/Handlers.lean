import FacetQL.Lib.Interleave
import FacetQL.Storage.Users
import FacetQL.Storage.Atomicity

/-!
# The handlers

The handlers of `api/routes.rs` that write nodes and edges, as programs over the calls of the
engine. `with_engine_mut` of `database.rs` takes no lock of its own, so that between two calls of a
handler the calls of any other one may come.
-/

namespace FacetQL

/-- Who makes a request. -/
structure Identity where
  owner : String
  role : Role
  deriving DecidableEq, Repr

/-- Administrators pass every check of ownership. -/
def Identity.isAdmin (identity : Identity) : Bool := identity.role == .admin

/-- The HTTP status codes that the handlers answer with. -/
inductive StatusCode
  | ok
  | created
  | noContent
  | badRequest
  | forbidden
  | notFound
  | conflict
  | preconditionFailed
  | internalServerError
  deriving DecidableEq, Repr

/-- The bodies that the handlers answer with. -/
inductive Body
  | text (text : String)
  | created (address : String) (edges : List Edge)
  | createError (error : String) (edges : List Edge)
  deriving DecidableEq, Repr

/-- What a handler answers. -/
structure Response where
  status : StatusCode
  body : Body
  deriving DecidableEq, Repr

/-- An answer with a plain text. -/
def Response.text (status : StatusCode) (message : String) : Response := ⟨status, .text message⟩

/-- What the engine will not do is the fault of the request, anything else that of the server. -/
def storageFailure (e : IoError) : Response :=
  if e.kind = .invalidInput then .text .badRequest e.message
  else .text .internalServerError ("storage error: " ++ e.message)

theorem storageFailure_status (e : IoError) {status : StatusCode} (hbad : status ≠ .badRequest)
    (hserver : status ≠ .internalServerError) : (storageFailure e).status ≠ status := by
  rw [storageFailure]
  split
  · exact hbad.symm
  · exact hserver.symm

section Handlers

variable (st : Settings)

/-- A computation over the calls of the engine. -/
abbrev Calls (α : Type) := Program (Call st) (Call.Result st) Empty α

/-- A handler ends with a response. -/
abbrev Handler := Calls st Response

/-- The response to a request that has been answered. -/
def Handler.response? {st : Settings} : Handler st → Option Response
  | .done response => some response
  | _ => none

theorem Handler.eq_done {st : Settings} {handler : Handler st} {response : Response}
    (h : handler.response? = some response) : handler = .done response := by
  cases handler with
  | done answer => exact congrArg Program.done (Option.some.inj h)
  | fail e => exact e.elim
  | call op next => cases h

/-! ## Nodes -/

/-- The body of a request to create a node. -/
structure CreateNodeRequest where
  address : String
  kind : String
  coordinate : Coordinate
  data : String
  isPublic : Option Bool
  /-- Targets of edges, and their kinds. -/
  edges : List (String × String)
  /-- Fail instead of overwriting. -/
  ifAbsent : Bool
  deriving DecidableEq, Repr

/-- The node that a request describes. It belongs to who makes the request. -/
def CreateNodeRequest.node (payload : CreateNodeRequest) (owner : String) : Node where
  address := payload.address
  coordinate := payload.coordinate
  value := 0
  kind := payload.kind
  data := payload.data
  owner := owner
  claimedBy := none
  visibility := if payload.isPublic.getD false then .pub else .priv

/-- The answer to a node that has been written with its edges, or has not. -/
def createNode.answer (address : String) : Except (String × List Edge) (List Edge) → Response
  | .ok edges => ⟨.created, .created address edges⟩
  | .error (message, edges) =>
    if message.startsWith "not authorized" then .text .forbidden message
    else ⟨.badRequest, .createError message edges⟩

theorem createNode.answer_status {address : String} {e : String × List Edge} :
    (createNode.answer address (.error e)).status ≠ .created := by
  simp only [createNode.answer]
  split <;> simp [Response.text]

/-- Write a node with its edges; when the request says so, only if there is no node yet. -/
def createNode (identity : Identity) (payload : CreateNodeRequest) : Handler st :=
  .call (.get payload.address) fun
    | .error e => .done (storageFailure e)
    | .ok existing =>
      if payload.ifAbsent && existing.isSome then
        .done (.text .conflict ("node already exists: " ++ payload.address))
      else
        .call (.insertWithEdges (payload.node identity.owner) payload.edges identity.isAdmin)
          fun result => .done (createNode.answer payload.address result)

/-- The body of a request to update a node. -/
structure UpdateNodeRequest where
  data : String
  isPublic : Option Bool
  deriving DecidableEq, Repr

/-- The node that an update writes: all of what it has read but for the data and the visibility. -/
def UpdateNodeRequest.updated (payload : UpdateNodeRequest) (existing : Node) : Node :=
  { existing with
    data := payload.data
    visibility := match payload.isPublic with
      | some isPublic => if isPublic then .pub else .priv
      | none => existing.visibility }

/-- The answer to the call that writes the node. -/
def updateNode.answer : Except String Unit → Response
  | .ok () => .text .ok "Node updated"
  | .error message => .text .internalServerError message

/-- Replace the data of a node that the caller owns. -/
def updateNode (identity : Identity) (address : String) (payload : UpdateNodeRequest) :
    Handler st :=
  .call (.get address) fun
    | .error e => .done (storageFailure e)
    | .ok none => .done (.text .notFound "node not found")
    | .ok (some existing) =>
      if !identity.isAdmin && !existing.canWrite identity.owner then
        .done (.text .forbidden "not authorized to modify this node")
      else
        .call (.insert (payload.updated existing)) fun result => .done (updateNode.answer result)

/-- The answer to the call that removes the node. -/
def deleteNode.answer : Except TransactionError Unit → Response
  | .ok () => .text .noContent ""
  | .error (.precondition message) => .text .conflict message
  | .error (.invalid message) => .text .badRequest message
  | .error (.storage message) => .text .internalServerError message

/-- Remove a node that the caller owns. -/
def deleteNode (identity : Identity) (address : String) : Handler st :=
  .call (.get address) fun
    | .error e => .done (storageFailure e)
    | .ok none => .done (.text .notFound "node not found")
    | .ok (some existing) =>
      if !identity.isAdmin && !existing.canWrite identity.owner then
        .done (.text .forbidden "not authorized to delete this node")
      else .call (.delete address) fun result => .done (deleteNode.answer result)

/-- The answer to the call that takes the lease. -/
def claimNode.answer : Except ClaimError Unit → Response
  | .ok () => .text .ok "claimed"
  | .error .notFound => .text .notFound "node not found"
  | .error (.alreadyClaimed worker) => .text .conflict ("already claimed by " ++ worker)
  | .error (.storageError message) => .text .internalServerError message

/-- A node that the requester cannot read is reported as one that is not there. -/
def claimNode.refusal (existing : Node) (requester : String) : Response :=
  if existing.canRead requester then .text .forbidden "not authorized to claim this node"
  else .text .notFound "node not found"

/-- Claim a node that the caller owns. -/
def claimNode (identity : Identity) (address : String) : Handler st :=
  .call (.get address) fun
    | .error e => .done (storageFailure e)
    | .ok existing =>
      match existing.filter fun node => !identity.isAdmin && !node.canWrite identity.owner with
      | some node => .done (claimNode.refusal node identity.owner)
      | none =>
        .call (.claim address identity.owner) fun result => .done (claimNode.answer result)

/-! ## Edges -/

/-- Refuse an edge unless its source may be written and its target read, as far as they exist. -/
def authorizeEdge (identity : Identity) (source target : String) : Calls st (Option Response) :=
  if identity.isAdmin then .done none
  else
    .call (.get source) fun
      | .error e => .done (some (storageFailure e))
      | .ok existing =>
        if existing.any fun node => !node.canRead identity.owner then
          .done (some (.text .badRequest ("edge 'from' address not found: " ++ source)))
        else if existing.any fun node => !node.canWrite identity.owner then
          .done (some (.text .forbidden ("not authorized to create an edge from " ++ source ++
            ": an edge out of a node is a write to that node")))
        else
          .call (.get target) fun
            | .error e => .done (some (storageFailure e))
            | .ok existing =>
              if existing.any fun node => !node.canRead identity.owner then
                .done (some (.text .badRequest ("edge 'to' address not found: " ++ target)))
              else .done none

/-- Are both ends of an edge public? The second one is looked at only if the first one is. -/
def publicEndpoints (source target : String) : Calls st (Except IoError Bool) :=
  .call (.get source) fun
    | .error e => .done (.error e)
    | .ok existing =>
      if existing.any fun node => node.visibility == .pub then
        .call (.get target) fun
          | .error e => .done (.error e)
          | .ok existing => .done (.ok (existing.any fun node => node.visibility == .pub))
      else .done (.ok false)

/-- The answer to the call that writes the edge. -/
def createEdge.answer : Except String Unit → Response
  | .ok () => .text .created "Edge created"
  | .error message => .text .badRequest message

/-- Write an edge, between nodes that the caller may join. -/
def createEdge (identity : Identity) (id : EdgeId) : Handler st := do
  match ← authorizeEdge st identity id.source id.target with
  | some refusal => return refusal
  | none =>
    match ← publicEndpoints st id.source id.target with
    | .error e => return storageFailure e
    | .ok _ =>
      .call (.insertEdge ⟨id.source, id.target, id.kind, identity.owner⟩) fun result =>
        .done (createEdge.answer result)

/-! ## Transactions -/

/-- An operation of a transaction, as it is requested. -/
inductive TxOpRequest
  | insertNode (node : CreateNodeRequest) (owner claimedBy : Option String)
  | insertEdge (id : EdgeId)
  | deleteEdge (id : EdgeId)
  | deleteNode (address : String)
  | clearKind (kind : String)
  | deleteWhere (kind : String) (predicate : Option (Expr st.json.Number))
  | setIf (address field : String) (expectLe : Option st.json.F64) (expectEq : Option st.json.Value)
      (expectAbsent : Option Bool) (set : List (String × st.json.Value))

/-- The one expectation that is stated; `expectAbsent` of `false` states none. -/
def statedExpectation (expectLe : Option st.json.F64) (expectEq : Option st.json.Value)
    (expectAbsent : Option Bool) : Option (Expectation st.json) :=
  match expectLe.map Expectation.atMost, expectEq.map Expectation.equals,
      (expectAbsent.filter id).map fun _ => Expectation.absent with
  | some expect, none, none => some expect
  | none, some expect, none => some expect
  | none, none, some expect => some expect
  | _, _, _ => none

/-- The operation that a request comes to, or the response that refuses it. -/
def resolveOperation (identity : Identity) :
    TxOpRequest st → Calls st (Except Response (TxOperation st.json))
  | .insertNode payload owner claimedBy =>
    if !identity.isAdmin && (owner.isSome || claimedBy.isSome) then
      .done (.error (.text .forbidden ("not authorized to set owner or claimed_by on " ++
        payload.address ++ ": those fields are admin-only, because they create a node owned by " ++
        "or leased to somebody other than the writer. Omit them and the node is owned by you.")))
    else
      .done (.ok (.insertNode
        { payload.node (owner.getD identity.owner) with claimedBy := claimedBy }))
  | .insertEdge id => do
    match ← authorizeEdge st identity id.source id.target with
    | some refusal => return .error refusal
    | none => return .ok (.insertEdge ⟨id.source, id.target, id.kind, identity.owner⟩)
  | .deleteEdge id =>
    let op : TxOperation st.json := .deleteEdge id identity.owner identity.isAdmin
    if identity.isAdmin then .done (.ok op)
    else
      .call (.findEdge id) fun
        | .error e => .done (.error (storageFailure e))
        | .ok none => .done (.error (.text .notFound ("delete target not found: edge " ++
            id.source ++ " -" ++ id.kind ++ "-> " ++ id.target)))
        | .ok (some edge) =>
          if !edge.canWrite identity.owner then
            .done (.error (.text .forbidden ("not authorized to delete edge " ++ id.source ++ " -" ++
              id.kind ++ "-> " ++ id.target)))
          else .done (.ok op)
  | .deleteNode address =>
    if identity.isAdmin then .done (.ok (.deleteNode address))
    else
      .call (.get address) fun
        | .error e => .done (.error (storageFailure e))
        | .ok none => .done (.error (.text .notFound ("delete target not found: " ++ address)))
        | .ok (some node) =>
          if !node.canWrite identity.owner then
            .done (.error (.text .forbidden ("not authorized to delete " ++ address)))
          else .done (.ok (.deleteNode address))
  | .clearKind kind =>
    .call (.deleteWhereTargets kind none identity.owner identity.isAdmin) fun
      | .error message => .done (.error (.text .badRequest message))
      | .ok _ => .done (.ok (.clearKind kind identity.owner identity.isAdmin))
  | .deleteWhere kind predicate =>
    match predicate.elim (.ok ()) Predicate.validate with
    | .error message => .done (.error (.text .badRequest message))
    | .ok () =>
      .call (.deleteWhereTargets kind predicate identity.owner identity.isAdmin) fun
        | .error message => .done (.error (.text .badRequest message))
        | .ok _ => .done (.ok (.deleteWhere kind predicate identity.owner identity.isAdmin))
  | .setIf address field expectLe expectEq expectAbsent set =>
    match statedExpectation st expectLe expectEq expectAbsent with
    | none => .done (.error (.text .badRequest
        "set_if requires exactly one of expect_le, expect_eq, expect_absent"))
    | some expect =>
      .done (.ok (.setIf address field expect set identity.owner identity.isAdmin))

/-- The answer to the call that commits the batch. -/
def executeTransaction.answer : Except TransactionError Unit → Response
  | .ok () => .text .ok "transaction committed"
  | .error (.precondition message) => .text .preconditionFailed message
  | .error (.storage message) => .text .internalServerError message
  | .error (.invalid message) => .text .badRequest message

/-- Resolve the operations that are left, and execute all of them. -/
def executeTransaction.resolve (identity : Identity) :
    List (TxOpRequest st) → List (TxOperation st.json) → Handler st
  | [], ops =>
    .call (.executeTransaction ops) fun result => .done (executeTransaction.answer result)
  | request :: requests, ops => do
    match ← resolveOperation st identity request with
    | .error refusal => return refusal
    | .ok op => executeTransaction.resolve identity requests (ops ++ [op])

/-- Resolve the operations one after the other, and commit them as one batch. -/
def executeTransaction (identity : Identity) (operations : List (TxOpRequest st)) : Handler st :=
  executeTransaction.resolve st identity operations []

/-! ## Requests -/

/-- A request to one of the handlers. -/
inductive Request
  | createNode (identity : Identity) (payload : CreateNodeRequest)
  | updateNode (identity : Identity) (address : String) (payload : UpdateNodeRequest)
  | deleteNode (identity : Identity) (address : String)
  | claimNode (identity : Identity) (address : String)
  | createEdge (identity : Identity) (id : EdgeId)
  | executeTransaction (identity : Identity) (operations : List (TxOpRequest st))

variable {st}

namespace Request

/-- Who makes the request. -/
def identity : Request st → Identity
  | createNode identity _ => identity
  | updateNode identity _ _ => identity
  | deleteNode identity _ => identity
  | claimNode identity _ => identity
  | createEdge identity _ => identity
  | executeTransaction identity _ => identity

/-- The program that answers a request. -/
def handler : Request st → Handler st
  | createNode identity payload => FacetQL.createNode st identity payload
  | updateNode identity address payload => FacetQL.updateNode st identity address payload
  | deleteNode identity address => FacetQL.deleteNode st identity address
  | claimNode identity address => FacetQL.claimNode st identity address
  | createEdge identity id => FacetQL.createEdge st identity id
  | executeTransaction identity operations => FacetQL.executeTransaction st identity operations

end Request

/-- Requests under way, and the database. -/
abbrev Server (st : Settings) (ι : Type) :=
  Pool ι (Call st) (Call.Result st) Empty Response GraphStore

/-- Requests that have arrived and have done nothing yet. -/
def Server.start {ι : Type} (requests : ι → Request st) (db : GraphStore) : Server st ι :=
  ⟨fun i => (requests i).handler, db⟩

theorem Server.wellFormed {ι : Type} [DecidableEq ι] {p q : Server st ι} {i : ι}
    (hdb : p.store.WellFormed) (hstep : Pool.Step (GraphStore.act st) i p q) : q.store.WellFormed := by
  obtain ⟨-, stamp⟩ := hstep
  exact GraphStore.act_wellFormed hdb stamp _

/-- A request that has not been answered makes its next call. -/
theorem Handler.step_play {ι : Type} [DecidableEq ι] {p : Server st ι} {i : ι} {stamp : Stamp}
    (h : Handler.response? (p.threads i) = none) :
    Pool.Step (GraphStore.act st) i p (Pool.play (GraphStore.act st) [(i, stamp)] p) := by
  simp only [Pool.play]
  split
  · rename_i op next hcall
    exact .call hcall stamp
  rename_i hcall
  cases hthread : p.threads i with
  | done response =>
    rw [hthread] at h
    cases h
  | fail e => exact e.elim
  | call op next => exact absurd hthread (hcall op next)

end Handlers

end FacetQL
