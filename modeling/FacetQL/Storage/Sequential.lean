import FacetQL.Storage.Overlay
import FacetQL.Storage.Uniqueness

/-!
# A transaction is its operations one by one

Lowering a transaction applies nothing: the state that the operations would have reached is looked up in
what has been staged so far. Without references, what comes of it is what the operations do one after the
other, each to the nodes and edges that its predecessors have left.

* `transaction_sequential`: a transaction has the effect of its operations, or none.
-/

namespace FacetQL

open Function

variable {st : Settings}

/-! ## One operation after the other -/

/-- A database in the middle of a transaction that is performed one operation after the other. -/
structure Stepwise where
  nodes : String → Option Node
  edges : EdgeId → Option Edge
  /-- The states that have been superseded so far, in this order. -/
  archived : List HistoryEntry
  /-- The addresses and edges that have been removed so far. -/
  removed : Set String
  removedEdges : Set EdgeId
  /-- The clock, and the version of the next archived state. -/
  stamp : Stamp

namespace Stepwise

variable (g : Stepwise)

/-- Before the first operation. -/
def start (nodes : String → Option Node) (edges : EdgeId → Option Edge) (stamp : Stamp) : Stepwise :=
  ⟨nodes, edges, [], ∅, ∅, stamp⟩

/-- A state is archived. -/
def archive (node : Node) : Stepwise :=
  { g with
    archived := g.archived ++ [⟨node.address, g.stamp.archivedAtUnix, node, g.stamp.operationId⟩]
    stamp := { g.stamp with operationId := g.stamp.operationId + 1 } }

/-- A node is written. -/
def put (node : Node) : Stepwise :=
  { g with nodes := update g.nodes node.address (some node) }

/-- A node is gone. -/
def drop (address : String) : Stepwise :=
  { g with nodes := update g.nodes address none, removed := insert address g.removed }

/-- A node is archived and removed. -/
def remove (node : Node) : Stepwise := (g.archive node).drop node.address

/-- An edge is written. -/
def putEdge (edge : Edge) : Stepwise :=
  { g with edges := update g.edges edge.id (some edge) }

/-- An edge is gone. -/
def dropEdge (id : EdgeId) : Stepwise :=
  { g with edges := update g.edges id none, removedEdges := insert id g.removedEdges }

/-- The nodes that a bulk delete matches, in the order of their addresses. -/
structure Selects (st : Settings) (kind : String) (predicate : Option (Expr st.json.Number))
    (owner : String) (isAdmin : Bool) (targets : List Node) : Prop where
  sorted : (targets.map Node.address).Pairwise (· < ·)
  mem (node : Node) : node ∈ targets ↔ g.nodes node.address = some node ∧
    selectionMatches st node kind predicate owner isAdmin = .ok true

/-- What an operation does to the nodes and edges that it finds. -/
inductive Performs (st : Settings) : Stepwise → TxOperation st.json → Stepwise → Prop
  | insert {g : Stepwise} {node : Node} : g.nodes node.address = none →
    Performs st g (.insertNode node) (g.put node)
  | overwrite {g : Stepwise} {node old : Node} : g.nodes node.address = some old →
    old.owner = node.owner → Performs st g (.insertNode node) ((g.archive old).put node)
  | delete {g : Stepwise} {address : String} {node : Node} : g.nodes address = some node →
    Performs st g (.deleteNode address) (g.remove node)
  | deleteRemoved {g : Stepwise} {address : String} : g.nodes address = none → address ∈ g.removed →
    Performs st g (.deleteNode address) g
  | clearKind {g : Stepwise} {kind owner : String} {isAdmin : Bool} {targets : List Node} :
    g.Selects st kind none owner isAdmin targets →
    Performs st g (.clearKind kind owner isAdmin) (targets.foldl remove g)
  | deleteWhere {g : Stepwise} {kind owner : String} {isAdmin : Bool}
    {predicate : Option (Expr st.json.Number)} {targets : List Node} :
    g.Selects st kind predicate owner isAdmin targets →
    Performs st g (.deleteWhere kind predicate owner isAdmin) (targets.foldl remove g)
  | setIf {g : Stepwise} {address field owner : String} {isAdmin : Bool} {expect : Expectation st.json}
    {fields : List (String × st.json.Value)} {node next : Node} : g.nodes address = some node →
    (isAdmin || node.canWrite owner) = true → setIfNext st node field expect fields = .ok next →
    Performs st g (.setIf address field expect fields owner isAdmin) ((g.archive node).put next)
  | insertEdge {g : Stepwise} {edge : Edge} : (g.nodes edge.source).isSome →
    (g.nodes edge.target).isSome → Performs st g (.insertEdge edge) (g.putEdge edge)
  | deleteEdge {g : Stepwise} {id : EdgeId} {owner : String} {isAdmin : Bool} {edge : Edge} :
    g.edges id = some edge → (isAdmin || edge.canWrite owner) = true →
    Performs st g (.deleteEdge id owner isAdmin) (g.dropEdge id)
  | deleteRemovedEdge {g : Stepwise} {id : EdgeId} {owner : String} {isAdmin : Bool} :
    g.edges id = none → id ∈ g.removedEdges → Performs st g (.deleteEdge id owner isAdmin) g

/-- The operations of a transaction, each on what its predecessors have left. -/
inductive PerformsAll (st : Settings) : Stepwise → List (TxOperation st.json) → Stepwise → Prop
  | nil {g : Stepwise} : PerformsAll st g [] g
  | cons {g g' g'' : Stepwise} {op : TxOperation st.json} {ops : List (TxOperation st.json)} :
    Performs st g op g' → PerformsAll st g' ops g'' → PerformsAll st g (op :: ops) g''

end Stepwise

/-- A history tree with further entries. -/
def archiveInto (entries : List HistoryEntry) (tree : Entries (Except IoError HistoryEntry)) :
    Entries (Except IoError HistoryEntry) :=
  entries.foldl (fun tree entry =>
    SortedMap.insert (Keys.historyKey entry.address entry.version) (.ok entry) tree) tree

/-! ## What is applied -/

theorem EdgeId.eq_of_outKey {id other : EdgeId} (hvalid : checkEdgeKeys id.source id.target id.kind = .ok ())
    (hkey : other.outKey = id.outKey) : other = id := by
  obtain ⟨_, -, hvalid⟩ := Except.bind_eq_ok.1 hvalid
  obtain ⟨_, -, hvalid⟩ := Except.bind_eq_ok.1 hvalid
  obtain ⟨_, -, hvalid⟩ := Except.bind_eq_ok.1 hvalid
  obtain ⟨_, hout, -⟩ := Except.bind_eq_ok.1 hvalid
  have hlength : id.outKey.length ≤ BTree.maxKeyLen := by
    rw [checkKeyAdmissible] at hout
    split_ifs at hout with hempty hlong
    rw [EdgeId.outKey, Keys.edgeOutKey, Keys.edgeKey, Keys.component, Keys.component]
    simp only [List.length_append, length_beBytes, length_utf8]
    rw [componentLen, componentLen] at hlong
    omega
  -- Keys that can be stored are too short for components that do not fit.
  have hfits {key : EdgeId} (hlength : key.outKey.length ≤ BTree.maxKeyLen) :
      Keys.FitsComponent key.source ∧ Keys.FitsComponent key.kind := by
    rw [EdgeId.outKey, Keys.edgeOutKey, Keys.edgeKey, Keys.component, Keys.component, BTree.maxKeyLen] at hlength
    simp only [List.length_append] at hlength
    rw [Keys.FitsComponent, Keys.FitsComponent]
    omega
  obtain ⟨hsource, hkind⟩ := hfits hlength
  obtain ⟨hsource', hkind'⟩ := hfits (hkey ▸ hlength)
  obtain ⟨hs, hk, ht⟩ := Keys.edgeKey_inj hsource' hsource hkind' hkind hkey
  exact EdgeId.mk.injEq .. ▸ ⟨hs, ht, hk⟩

namespace View

variable {v v' : View} {op : Operation}

theorem findEdge_apply_of_validate (h : v.WellFormed) (hvalid : op.validate = .ok ())
    (happly : v.apply st (.write op) = .ok v') (id : EdgeId) :
    v'.findEdge id = match op.edgeWrite with
      | some (touched, slot) => if id = touched then .ok slot else v.findEdge id
      | none => v.findEdge id := by
  rw [findEdge_apply h happly]
  cases op with
  | insertEdge edge =>
    have hkey : id.outKey = edge.id.outKey ↔ id = edge.id :=
      ⟨EdgeId.eq_of_outKey hvalid, congrArg EdgeId.outKey⟩
    simp only [Operation.edgeWrite, hkey]
  | deleteEdge touched =>
    have hkey : id.outKey = touched.outKey ↔ id = touched :=
      ⟨EdgeId.eq_of_outKey hvalid, congrArg EdgeId.outKey⟩
    simp only [Operation.edgeWrite, hkey]
  | archive entry | insert node | delete address => rfl

theorem history_apply (happly : v.apply st (.write op) = .ok v') :
    v'.history = match op with
      | .archive entry => archiveInto [entry] v.history
      | _ => v.history := by
  cases op with
  | archive entry | insertEdge edge | deleteEdge id => exact Except.ok.inj happly ▸ rfl
  | insert node =>
    obtain ⟨previous, -, rfl⟩ := apply_insert_ok happly
    obtain ⟨-, -, -, hhistory⟩ := Trees.insertNode_frame st previous node (.ok node) v
    exact hhistory
  | delete address =>
    rcases apply_delete_ok happly with ⟨-, rfl⟩ | ⟨node, -, rfl⟩
    · rfl
    · rfl

end View

/-! ## Batches -/

/-- A batch stands for what has been done so far: its overlays show it, and its operations lead to it. -/
structure Simulates (st : Settings) (v : View) (b : Batch) (v' : View) (g : Stepwise) : Prop
    extends Reached st v b v' where
  overlay (address : String) : v.overlay b address = g.nodes address
  edges (id : EdgeId) : v.stagedEdge b id = .ok (g.edges id)
  removed (address : String) : SortedMap.find address b.staged = some none ↔
    g.nodes address = none ∧ address ∈ g.removed
  removedEdges (id : EdgeId) : b.stagedEdges id = some none ↔ g.edges id = none ∧ id ∈ g.removedEdges
  stored : (∀ op ∈ b.operations, op.validate = .ok ()) → ∀ id, v'.findEdge id = .ok (g.edges id)
  history : v'.history = archiveInto g.archived v.history
  stamp : b.stamp = g.stamp

namespace Simulates

variable {v v' : View} {b : Batch} {g : Stepwise}

theorem start {nodes : String → Option Node} {edges : EdgeId → Option Edge}
    (hnodes : ∀ address, v.readNode address = .ok (nodes address))
    (hedges : ∀ id, v.findEdge id = .ok (edges id)) (stamp : Stamp) :
    Simulates st v (.start stamp) v (.start nodes edges stamp) where
  toReached := .start stamp
  overlay address := by
    rw [View.overlay]
    change (v.readNode address).toOption.join = nodes address
    rw [hnodes]
    rfl
  edges := hedges
  removed address := by simp [Batch.start, Stepwise.start, SortedMap.find]
  removedEdges id := by simp [Batch.start, Stepwise.start]
  stored _ := hedges
  history := rfl
  stamp := rfl

variable (h : Simulates st v b v' g) (hv : v.Consistent st)

include h hv

theorem keyed : b.Keyed := by
  refine ⟨h.staged, fun {address node} hmem => h.address_eq hv.toWellFormed ?_⟩
  rw [View.stagedNode, h.staged.find_eq_some.2 hmem]

/-- What an operation does to the edges and the history, once it is applied. -/
theorem after {op : Operation} {next : View} (happly : v'.apply st (.write op) = .ok next) :
    ((∀ done ∈ b.operations ++ [op], done.validate = .ok ()) → ∀ id, next.findEdge id = match op.edgeWrite with
      | some (touched, slot) => if id = touched then .ok slot else .ok (g.edges id)
      | none => .ok (g.edges id)) ∧
    next.history = match op with
      | .archive entry => archiveInto (g.archived ++ [entry]) v.history
      | _ => archiveInto g.archived v.history := by
  refine ⟨fun hvalid id => ?_, ?_⟩
  · have hop : op.validate = .ok () := hvalid op (by simp)
    rw [View.findEdge_apply_of_validate (h.wellFormed hv.toWellFormed) hop happly,
      h.stored fun op hmem => hvalid op (List.mem_append_left _ hmem)]
  · rw [View.history_apply happly, h.history]
    cases op with
    | archive entry => exact (List.foldl_append ..).symm
    | _ => rfl

theorem archive (node : Node) : ∃ next, Simulates st v (b.archive node) next (g.archive node) := by
  obtain ⟨next, happly, hnext⟩ := h.push hv.toWellFormed _ (b.archive node) rfl rfl
    (fun _ _ heq => (nomatch heq))
  obtain ⟨hstored, hhistory⟩ := h.after hv happly
  refine ⟨next, { hnext with
    overlay := h.overlay, edges := h.edges, removed := h.removed, removedEdges := h.removedEdges
    stored := hstored, history := ?_, stamp := ?_ }⟩
  · rw [Stepwise.archive, ← h.stamp]
    exact hhistory
  · rw [Batch.archive, Stepwise.archive, h.stamp]

/-- An operation on a node: its address names what is staged, and is removed if that is nothing. -/
theorem setNode (op : Operation) {address : String} {slot : Option Node} {removed : Set String}
    (hwrite : op.nodeWrite = some (address, slot)) (hgone : slot = none → address ∈ removed)
    (hkept : ∀ other ≠ address, (other ∈ removed ↔ other ∈ g.removed)) :
    ∃ next, Simulates st v { b.push op with staged := SortedMap.insert address slot b.staged } next
      { g with nodes := update g.nodes address slot, removed := removed } := by
  obtain ⟨next, happly, hnext⟩ := h.push hv.toWellFormed op
    { b.push op with staged := SortedMap.insert address slot b.staged } rfl (by rw [hwrite])
    fun address _ _ => hv.exists_read address
  obtain ⟨hstored, hhistory⟩ := h.after hv happly
  refine ⟨next, { hnext with
    overlay := fun other => ?_, edges := h.edges, removed := fun other => ?_
    removedEdges := h.removedEdges, stored := ?_, history := ?_, stamp := h.stamp }⟩
  · rw [View.overlay_stage (h.keyed hv) rfl, h.overlay]
    exact (update_apply ..).symm
  · simp only [update_apply]
    split_ifs with haddress
    · rw [haddress, h.staged.find_insert_self, Option.some.injEq]
      exact ⟨fun hnone => ⟨hnone, hgone hnone⟩, And.left⟩
    · rw [h.staged.find_insert_of_ne haddress, h.removed]
      exact and_congr_right' (hkept other haddress).symm
  · cases op with
    | insert | delete => exact hstored
    | _ => cases hwrite
  · cases op with
    | insert | delete => exact hhistory
    | _ => cases hwrite

theorem put (node : Node) : ∃ next, Simulates st v (b.put node.address node) next (g.put node) :=
  h.setNode hv (.insert node) rfl nofun fun _ _ => Iff.rfl

theorem drop (address : String) : ∃ next, Simulates st v (b.drop address) next (g.drop address) :=
  h.setNode hv (.delete address) rfl (fun _ => Set.mem_insert ..) fun _ hne => or_iff_right hne

/-- An operation on an edge. -/
theorem setEdge (op : Operation) {id : EdgeId} {slot : Option Edge} {removed : Set EdgeId}
    (hwrite : op.edgeWrite = some (id, slot)) (hgone : slot = none → id ∈ removed)
    (hkept : ∀ other ≠ id, (other ∈ removed ↔ other ∈ g.removedEdges)) :
    ∃ next, Simulates st v { b.push op with stagedEdges := update b.stagedEdges id (some slot) } next
      { g with edges := update g.edges id slot, removedEdges := removed } := by
  have hnode : op.nodeWrite = none := by
    cases op with
    | insertEdge | deleteEdge => rfl
    | _ => cases hwrite
  obtain ⟨next, happly, hnext⟩ := h.push hv.toWellFormed op
    { b.push op with stagedEdges := update b.stagedEdges id (some slot) } rfl (by rw [hnode]; rfl)
    fun _ _ heq => (nomatch hnode.symm.trans heq)
  obtain ⟨hstored, hhistory⟩ := h.after hv happly
  refine ⟨next, { hnext with
    overlay := h.overlay, edges := fun other => ?_, removed := h.removed, removedEdges := fun other => ?_
    stored := fun hvalid other => ?_, history := ?_, stamp := h.stamp }⟩
  · simp only [View.stagedEdge, update_apply]
    split_ifs with hid
    · rfl
    · exact h.edges other
  · simp only [update_apply]
    split_ifs with hid
    · rw [hid, Option.some.injEq]
      exact ⟨fun hnone => ⟨hnone, hgone hnone⟩, And.left⟩
    · rw [h.removedEdges]
      exact and_congr_right' (hkept other hid).symm
  · simp only [hstored hvalid, hwrite, update_apply]
    exact (apply_ite Except.ok _ _ _).symm
  · cases op with
    | insertEdge | deleteEdge => exact hhistory
    | _ => cases hwrite

theorem putEdge (edge : Edge) : ∃ next, Simulates st v (b.putEdge edge) next (g.putEdge edge) :=
  h.setEdge hv (.insertEdge edge) rfl nofun fun _ _ => Iff.rfl

theorem dropEdge (id : EdgeId) : ∃ next, Simulates st v (b.dropEdge id) next (g.dropEdge id) :=
  h.setEdge hv (.deleteEdge id) rfl (fun _ => Set.mem_insert ..) fun _ hne => or_iff_right hne

theorem remove (node : Node) : ∃ next, Simulates st v (b.remove node) next (g.remove node) := by
  obtain ⟨mid, hmid⟩ := h.archive hv node
  exact hmid.drop hv node.address

theorem replace (old node : Node) :
    ∃ next, Simulates st v (b.replace old node.address node) next ((g.archive old).put node) := by
  obtain ⟨mid, hmid⟩ := h.archive hv old
  exact hmid.put hv node

theorem removeAll (targets : List Node) :
    ∃ next, Simulates st v (targets.foldl Batch.remove b) next (targets.foldl Stepwise.remove g) := by
  induction targets generalizing b v' g with
  | nil => exact ⟨v', h⟩
  | cons node targets ih =>
    obtain ⟨mid, hmid⟩ := h.remove hv node
    exact ih hmid

theorem nodes_of_staged {address : String} {slot : Option Node}
    (hslot : v.stagedNode b address = .ok slot) : g.nodes address = slot := by
  rw [hv.stagedNode_eq, h.overlay] at hslot
  exact Except.ok.inj hslot

/-- A bulk delete selects over what is there. -/
theorem lowerSelection {kind owner : String} {isAdmin : Bool}
    {predicate : Option (Expr st.json.Number)} {b' : Batch}
    (hlower : v.lowerSelection st [] b kind predicate owner isAdmin = .ok b') :
    ∃ targets next, g.Selects st kind predicate owner isAdmin targets ∧
      Simulates st v b' next (targets.foldl Stepwise.remove g) := by
  obtain ⟨hlower, hsorted, hmem⟩ := hv.lowerSelection_ok (h.keyed hv) hlower
  obtain ⟨next, hnext⟩ := h.removeAll hv (v.selectedNodes st b kind predicate owner isAdmin)
  refine ⟨_, next, ⟨hsorted, fun node => ?_⟩, Except.ok.inj hlower ▸ hnext⟩
  rw [hmem, h.overlay]

theorem lowerOperation {op : TxOperation st.json} {b' : Batch}
    (hlower : v.lowerOperation st [] b op = .ok b') :
    ∃ g' next, g.Performs st op g' ∧ Simulates st v b' next g' := by
  have hlowers := View.lowers_of_lowerOperation hlower
  cases op with
  | insertNode node =>
    rcases hlowers with ⟨hslot, rfl⟩ | ⟨existing, hslot, howner, rfl⟩
    · obtain ⟨next, hnext⟩ := h.put hv node
      exact ⟨_, next, .insert (h.nodes_of_staged hv hslot), hnext⟩
    · obtain ⟨next, hnext⟩ := h.replace hv existing node
      exact ⟨_, next, .overwrite (h.nodes_of_staged hv hslot) howner, hnext⟩
  | deleteNode address =>
    rcases hlowers with ⟨hgone, rfl⟩ | ⟨node, hslot, hclosure⟩
    · obtain ⟨hnone, hremoved⟩ := (h.removed address).1 hgone
      exact ⟨g, v', .deleteRemoved hnone hremoved, h⟩
    · obtain ⟨next, hnext⟩ := h.remove hv node
      exact ⟨_, next, .delete (h.nodes_of_staged hv hslot), Except.ok.inj hclosure ▸ hnext⟩
  | clearKind kind owner isAdmin =>
    obtain ⟨targets, next, hselects, hnext⟩ := h.lowerSelection hv hlowers
    exact ⟨_, next, .clearKind hselects, hnext⟩
  | deleteWhere kind predicate owner isAdmin =>
    obtain ⟨targets, next, hselects, hnext⟩ := h.lowerSelection hv hlowers
    exact ⟨_, next, .deleteWhere hselects, hnext⟩
  | setIf address field expect fields owner isAdmin =>
    obtain ⟨node, written, hslot, hallowed, hwritten, rfl⟩ := hlowers
    have hnode := h.nodes_of_staged hv hslot
    -- A conditional write keeps the address.
    have hold : node.address = address :=
      View.overlay_address hv.toWellFormed (h.keyed hv) ((h.overlay address).trans hnode)
    have haddress : written.address = address := by
      obtain ⟨data, rfl⟩ := setIfNext_ok hwritten
      exact hold
    obtain ⟨next, hnext⟩ := h.replace hv node written
    rw [haddress] at hnext
    exact ⟨_, next, .setIf hnode hallowed hwritten, hnext⟩
  | insertEdge edge =>
    obtain ⟨source, target, hsource, htarget, rfl⟩ := hlowers
    obtain ⟨next, hnext⟩ := h.putEdge hv edge
    exact ⟨_, next, .insertEdge (by rw [h.nodes_of_staged hv hsource]; rfl)
      (by rw [h.nodes_of_staged hv htarget]; rfl), hnext⟩
  | deleteEdge id owner isAdmin =>
    rcases hlowers with ⟨hgone, rfl⟩ | ⟨edge, hslot, hallowed, rfl⟩
    · obtain ⟨hnone, hremoved⟩ := (h.removedEdges id).1 hgone
      exact ⟨g, v', .deleteRemovedEdge hnone hremoved, h⟩
    · rw [h.edges] at hslot
      obtain ⟨next, hnext⟩ := h.dropEdge hv id
      exact ⟨_, next, .deleteEdge (Except.ok.inj hslot) hallowed, hnext⟩

theorem lowerOperations {ops : List (TxOperation st.json)} {b' : Batch}
    (hlower : ops.foldlM (v.lowerOperation st []) b = .ok b') :
    ∃ g' next, g.PerformsAll st ops g' ∧ Simulates st v b' next g' := by
  induction ops generalizing b v' g with
  | nil => exact ⟨g, v', .nil, Except.ok.inj hlower ▸ h⟩
  | cons op ops ih =>
    rw [List.foldlM_cons] at hlower
    obtain ⟨b₁, hstep, hlower⟩ := Except.bind_eq_ok.1 hlower
    obtain ⟨g₁, v₁, hperforms, hmid⟩ := h.lowerOperation hv hstep
    obtain ⟨g', next, hall, hnext⟩ := ih hmid hlower
    exact ⟨g', next, .cons hperforms hall, hnext⟩

end Simulates

/-- Without references, a transaction that is carried out leaves the nodes, the edges and the history that
    its operations lead to one after the other; and one that is refused leaves everything as it was. -/
theorem transaction_sequential {db : GraphStore} (hv : db.view.Consistent st)
    (hreferences : db.references = []) {nodes : String → Option Node} {edges : EdgeId → Option Edge}
    (hnodes : ∀ address, db.view.readNode address = .ok (nodes address))
    (hedges : ∀ id, db.view.findEdge id = .ok (edges id)) (stamp : Stamp)
    (ops : List (TxOperation st.json)) :
    ((db.executeTransaction st stamp ops).1 = .ok () →
      ∃ g, (Stepwise.start nodes edges stamp).PerformsAll st ops g ∧
        (∀ address, (db.executeTransaction st stamp ops).2.view.readNode address = .ok (g.nodes address)) ∧
        (∀ id, (db.executeTransaction st stamp ops).2.view.findEdge id = .ok (g.edges id)) ∧
        (db.executeTransaction st stamp ops).2.view.history =
          archiveInto g.archived db.view.history) ∧
    (∀ e, (db.executeTransaction st stamp ops).1 = .error e →
      (db.executeTransaction st stamp ops).2 = db) := by
  rw [GraphStore.executeTransaction, hreferences]
  cases hprepared : (do
      let lowered ← db.view.lowerTransaction st [] stamp ops
      db.checkTransaction st lowered
      return lowered : Except TransactionError (List Operation)) with
  | error e => exact ⟨by simp, fun _ _ => rfl⟩
  | ok lowered =>
    obtain ⟨_, hlower, hchecked⟩ := Except.bind_eq_ok.1 hprepared
    obtain ⟨_, -, hsame⟩ := Except.bind_eq_ok.1 hchecked
    obtain rfl := Except.ok.inj hsame
    obtain ⟨b, hfold, hops⟩ := Except.bind_eq_ok.1 hlower
    obtain rfl := Except.ok.inj hops
    obtain ⟨g, v', hperforms, hsim⟩ := (Simulates.start hnodes hedges stamp).lowerOperations hv hfold
    rcases hvalid : b.operations.forM (db.view.validate st) with message | _
    · have hcommit : db.commit st b.operations = (.error message, db) := by
        rw [GraphStore.commit, hvalid]
      simp only [hcommit]
      exact ⟨fun h => (by cases h), fun _ _ => trivial⟩
    -- What has been validated can be applied, to the state that the batch stands for.
    have hcommit : db.commit st b.operations = (.ok (), { db with view := v' }) := by
      rw [GraphStore.commit, hvalid, hsim.applied]
      rfl
    simp only [hcommit]
    refine ⟨fun _ => ⟨g, hperforms, fun address => ?_, hsim.stored fun op hop => ?_, hsim.history⟩,
      fun e h => by cases h⟩
    · rw [← hsim.nodes, hv.stagedNode_eq, hsim.overlay]
    · obtain ⟨⟨⟩, hop, -⟩ := Except.bind_eq_ok.1 (List.forM_ok.1 hvalid op hop)
      exact hop

/-- Two users exchange their mail, and one of them is deleted twice. -/
def Stepwise.exchangeAndDelete : List (TxOperation Settings.textual.json) :=
  [.insertNode (Uniqueness.valued "a" Uniqueness.two), .insertNode (Uniqueness.valued "b" Uniqueness.one),
    .deleteNode "a", .deleteNode "a"]

open Uniqueness Stepwise in
theorem transaction_sequential_exchange :
    (twoUsers.executeTransaction .textual ⟨0, 0⟩ exchangeAndDelete).1 = .ok () ∧
    ∃ g, (Stepwise.start (twoUsers.view.overlay (.start ⟨0, 0⟩)) (fun _ => none) ⟨0, 0⟩).PerformsAll
      .textual exchangeAndDelete g := by
  have hv : twoUsers.view.Consistent .textual := twoUsers_run.sound.consistent
  have hreferences : twoUsers.references = [] := by decide +kernel
  have hnone : twoUsers.view.edgeOut = [] := by decide +kernel
  have hedges : ∀ id, twoUsers.view.findEdge id = .ok none := by
    intro id
    rw [View.findEdge, hnone, SortedMap.find, List.find?_nil, Option.map_none]
  have hok : (twoUsers.executeTransaction .textual ⟨0, 0⟩ exchangeAndDelete).1 = .ok () := by
    decide +kernel
  obtain ⟨g, hg, -⟩ := (transaction_sequential hv hreferences (hv.readNode_eq ⟨0, 0⟩) hedges ⟨0, 0⟩
    exchangeAndDelete).1 hok
  exact ⟨hok, g, hg⟩

end FacetQL
