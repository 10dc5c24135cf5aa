import FacetQL.Storage.Page

/-!
# Nodes, edges and archived states

The records of `core/`: nodes, the edges between them, and the states of a node that
later ones have superseded. `LiveKey` is the identity of a record, by which the indexes
find it.
-/

namespace FacetQL

/-- A place in the coordinate space of the graph. -/
structure Coordinate where
  x : UInt8
  y : UInt8
  z : UInt8
  q : UInt8
  deriving DecidableEq, Repr

/-- Who may read a node: its owner, or everyone. -/
inductive Visibility
  | priv
  | pub
  deriving DecidableEq, Repr

/-- A node of the graph. -/
structure Node where
  address : String
  coordinate : Coordinate
  value : Nat
  kind : String
  data : String
  owner : String
  claimedBy : Option String
  visibility : Visibility
  deriving DecidableEq, Repr

/-- The identity of an edge. Its owner is no part of it. -/
structure EdgeId where
  source : String
  target : String
  kind : String
  deriving DecidableEq, Repr

/-- An edge of the graph. -/
structure Edge where
  source : String
  target : String
  kind : String
  owner : String
  deriving DecidableEq, Repr

/-- The identity of an edge: its two ends and its kind. -/
def Edge.id (edge : Edge) : EdgeId := ⟨edge.source, edge.target, edge.kind⟩

/-- A superseded state of a node, kept by its address and version. -/
structure HistoryEntry where
  address : String
  archivedAtUnix : Nat
  node : Node
  version : Nat
  deriving DecidableEq, Repr

/-- A record as it is stored. -/
inductive HeapRecord
  | node (node : Node)
  | edge (edge : Edge)
  | history (entry : HistoryEntry)
  deriving DecidableEq, Repr

/-- The identity of a record. -/
inductive LiveKey
  | node (address : String)
  | edge (id : EdgeId)
  | history (address : String) (version : Nat)
  deriving DecidableEq, Repr

/-- The identity of a stored record. -/
def LiveKey.of : HeapRecord → LiveKey
  | .node n => .node n.address
  | .edge e => .edge e.id
  | .history entry => .history entry.address entry.version

/-- A mutation of nodes, edges and archived states, as it is logged and applied. -/
inductive Operation
  | archive (entry : HistoryEntry)
  | insert (node : Node)
  | delete (address : String)
  | insertEdge (edge : Edge)
  | deleteEdge (id : EdgeId)
  deriving DecidableEq, Repr

/-- What an operation does to the records: it writes one of them, or removes it. -/
def Operation.toWrite : Operation → LiveKey × Option HeapRecord
  | .archive entry => (.history entry.address entry.version, some (.history entry))
  | .insert node => (.node node.address, some (.node node))
  | .delete address => (.node address, none)
  | .insertEdge edge => (.edge edge.id, some (.edge edge))
  | .deleteEdge id => (.edge id, none)

end FacetQL
