import FacetQL.Core
import FacetQL.Storage.IndexKeys

/-!
# The trees of the indexes, entry by entry

The base indexes and the declared ones with their entries in the order of their keys, as
`apply_operation` of `storage/engine.rs` maintains them and as the reads walk them. What an
entry of the primary index, of the edges or of the history holds is left open: in the engine it
is the location of a record, and for a read it is the record.
-/

namespace FacetQL

open SortedMap (above below erase erase_mapValues find insert_mapValues mapValues)

/-- The settings that the engine reads from its environment, and the code of others it calls. -/
structure Settings where
  json : SerdeJson
  lowerTable : Predicate.LowerTable
  /-- How many rows one request may hold in memory. -/
  maxScanRows : Nat
  maxQueryOffset : Nat
  /-- How many operations one transaction may come to. -/
  maxTransactionOps : Nat
  /-- What `from_utf8_lossy` makes of bytes that are no text. -/
  replaceInvalid : Bytes → String

/-- `String::from_utf8_lossy`. -/
def Settings.fromUtf8Lossy (st : Settings) (bytes : Bytes) : String :=
  match fromUtf8 bytes with
  | some text => String.ofList text
  | none => st.replaceInvalid bytes

@[simp]
theorem Settings.fromUtf8Lossy_utf8 (st : Settings) (s : String) :
    st.fromUtf8Lossy (utf8 s) = s := by
  rw [fromUtf8Lossy, utf8, fromUtf8_asBytes]
  exact String.ofList_toList

/-- The default bounds, over integers. -/
def Settings.plain : Settings where
  json := .integers
  lowerTable _ := none
  maxScanRows := 100000
  maxQueryOffset := 100000
  maxTransactionOps := 10000
  replaceInvalid _ := ""

/-! ## Entries in the order of their keys -/

/-- The entries of a tree. -/
abbrev Entries (V : Type) := List (Bytes × V)

namespace Entries

variable {V β : Type}

/-- The entries past a cursor, in the direction of a scan. -/
def past (reverse : Bool) (cursor : Option Bytes) (entries : Entries V) : Entries V :=
  match reverse, cursor with
  | _, none => entries
  | false, some c => above c entries
  | true, some c => below c entries

/-- The entries that a scan visits, in the order in which it does. -/
def inRange (pre : Bytes) (cursor : Option Bytes) (reverse : Bool) (entries : Entries V) : Entries V :=
  let found := (past reverse cursor entries).filter fun e => pre.isPrefixOf e.1
  if reverse then found.reverse else found

/-- Visit entries one after the other, until the visitor declines or fails. -/
def visitAll (visit : Bytes → V → β → Except IoError (Bool × β)) : Entries V → β → Except IoError β
  | [], b => .ok b
  | (key, value) :: entries, b =>
    match visit key value b with
    | .error e => .error e
    | .ok (true, b) => visitAll visit entries b
    | .ok (false, b) => .ok b

/-- `BTree::for_each_range`. -/
def forEachRange (pre : Bytes) (cursor : Option Bytes) (reverse : Bool)
    (visit : Bytes → V → β → Except IoError (Bool × β)) (entries : Entries V) (b : β) :
    Except IoError β :=
  visitAll visit (inRange pre cursor reverse entries) b

end Entries

/-! ## The trees -/

/-- The declaration of an index over a field. -/
structure IndexDef where
  name : String
  kind : String
  field : String
  unique : Bool
  deriving DecidableEq, Repr

/-- The declaration of an inverted index over the text of a field, or its text in lower case. -/
structure TextIndexDef where
  name : String
  kind : String
  field : String
  folded : Bool
  deriving DecidableEq, Repr

/-- An index over a field, with its tree. -/
structure DataIndex where
  decl : IndexDef
  tree : Entries Unit
  deriving DecidableEq

/-- An index over the grams of a field, with its tree. -/
structure TextIndex where
  decl : TextIndexDef
  tree : Entries Unit
  deriving DecidableEq

/-- The trees of the base indexes and of the declared ones, over entries `N`, `E` and `H`. -/
structure Trees (N E H : Type) where
  primary : Entries N
  kind : Entries Unit
  owner : Entries Unit
  edgeOut : Entries E
  edgeIn : Entries E
  history : Entries H
  data : Entries DataIndex
  text : Entries TextIndex

/-- The key of a node in an index over a field. -/
def IndexDef.keyOf (st : Settings) (decl : IndexDef) (node : Node) : Bytes :=
  Keys.dataKey st.json (st.json.dataField node.data decl.field) node.address

/-- The text that an inverted index stores postings for. -/
def TextIndexDef.indexedForm (st : Settings) (decl : TextIndexDef) (text : String) : String :=
  if decl.folded then Predicate.goLower st.lowerTable text else text

/-- The trigrams of a value in an inverted index. -/
def TextIndexDef.postings (st : Settings) (decl : TextIndexDef) (text : String) : List Bytes :=
  Keys.grams (decl.indexedForm st text)

/-- The keys of a node in an inverted index: none if the field holds no text. -/
def TextIndexDef.keysOf (st : Settings) (decl : TextIndexDef) (node : Node) : List Bytes :=
  match (st.json.dataField node.data decl.field).bind Json.asStr with
  | some text => (decl.postings st text).map fun gram => Keys.textKey gram node.address
  | none => []

/-- The key of an edge in the tree of the edges that leave a node. -/
def EdgeId.outKey (id : EdgeId) : Bytes := Keys.edgeOutKey id.source id.kind id.target

/-- The key of an edge in the tree of the edges that arrive at a node. -/
def EdgeId.inKey (id : EdgeId) : Bytes := Keys.edgeInKey id.target id.kind id.source

namespace Trees

variable {N E H : Type} (st : Settings)

/-- Trees without entries. -/
def empty : Trees N E H := ⟨[], [], [], [], [], [], [], []⟩

/-- Change the indexes that are declared over a kind. -/
def mapData (kind : String) (f : DataIndex → Entries Unit) (t : Trees N E H) : Trees N E H :=
  { t with data := mapValues (fun index =>
      if index.decl.kind = kind then { index with tree := f index } else index) t.data }

/-- Change the trees of the text indexes over a kind. -/
def mapText (kind : String) (f : TextIndex → Entries Unit) (t : Trees N E H) : Trees N E H :=
  { t with text := mapValues (fun index =>
      if index.decl.kind = kind then { index with tree := f index } else index) t.text }

/-- Put a node into the indexes over its fields. -/
def assertDataKeys (node : Node) (t : Trees N E H) : Trees N E H :=
  t.mapData node.kind fun index => SortedMap.insert (index.decl.keyOf st node) () index.tree

/-- Take a node out of the indexes over its fields. -/
def retractDataKeys (node : Node) (t : Trees N E H) : Trees N E H :=
  t.mapData node.kind fun index => erase (index.decl.keyOf st node) index.tree

/-- Put a node into the text indexes. -/
def assertTextKeys (node : Node) (t : Trees N E H) : Trees N E H :=
  t.mapText node.kind fun index =>
    (index.decl.keysOf st node).foldl (fun tree key => SortedMap.insert key () tree) index.tree

/-- Take a node out of the text indexes. -/
def retractTextKeys (node : Node) (t : Trees N E H) : Trees N E H :=
  t.mapText node.kind fun index =>
    (index.decl.keysOf st node).foldl (fun tree key => erase key tree) index.tree

/-- The address names this from now on. -/
def pointNode (address : String) (entry : N) (t : Trees N E H) : Trees N E H :=
  { t with primary := SortedMap.insert (utf8 address) entry t.primary }

/-- A node is written in place of the one at its address, whose stale entries go first. -/
def insertNode (previous : Option Node) (node : Node) (entry : N) (t : Trees N E H) : Trees N E H :=
  let t := t.pointNode node.address entry
  let t := match previous with
    | some old =>
      let t := if old.kind ≠ node.kind then
        { t with kind := erase (Keys.kindKey old.kind node.address) t.kind } else t
      if old.owner ≠ node.owner then
        { t with owner := erase (Keys.ownerKey old.owner node.address) t.owner } else t
    | none => t
  let t := { t with
    kind := SortedMap.insert (Keys.kindKey node.kind node.address) () t.kind
    owner := SortedMap.insert (Keys.ownerKey node.owner node.address) () t.owner }
  let t := match previous with
    | some old => (t.retractDataKeys st old).retractTextKeys st old
    | none => t
  (t.assertDataKeys st node).assertTextKeys st node

/-- The node that the address names is removed. -/
def deleteNode (address : String) (node : Node) (t : Trees N E H) : Trees N E H :=
  let t := { t with
    primary := erase (utf8 address) t.primary
    kind := erase (Keys.kindKey node.kind address) t.kind
    owner := erase (Keys.ownerKey node.owner address) t.owner }
  (t.retractDataKeys st node).retractTextKeys st node

/-- Put an edge into both edge trees. -/
def insertEdge (id : EdgeId) (entry : E) (t : Trees N E H) : Trees N E H :=
  { t with
    edgeOut := SortedMap.insert id.outKey entry t.edgeOut
    edgeIn := SortedMap.insert id.inKey entry t.edgeIn }

/-- Take an edge out of both edge trees. -/
def deleteEdge (id : EdgeId) (t : Trees N E H) : Trees N E H :=
  { t with
    edgeOut := erase id.outKey t.edgeOut
    edgeIn := erase id.inKey t.edgeIn }

/-- Put a state into the history. -/
def archive (address : String) (version : Nat) (entry : H) (t : Trees N E H) : Trees N E H :=
  { t with history := SortedMap.insert (Keys.historyKey address version) entry t.history }

/-- The tree of a declaration, with these nodes. One declared as it was keeps its tree. -/
def openData (decl : IndexDef) (nodes : List Node) (t : Trees N E H) : Trees N E H :=
  let tree := match find (utf8 decl.name) t.data with
    | some index => if index.decl = decl then index.tree else []
    | none => []
  let tree := nodes.foldl (fun tree node => SortedMap.insert (decl.keyOf st node) () tree) tree
  { t with data := SortedMap.insert (utf8 decl.name) ⟨decl, tree⟩ t.data }

/-- Drop the index over a field. -/
def dropData (name : String) (t : Trees N E H) : Trees N E H :=
  { t with data := erase (utf8 name) t.data }

/-- Open a text index, over the nodes that are there. -/
def openText (decl : TextIndexDef) (nodes : List Node) (t : Trees N E H) : Trees N E H :=
  let tree := match find (utf8 decl.name) t.text with
    | some index => if index.decl = decl then index.tree else []
    | none => []
  let tree := (nodes.flatMap (decl.keysOf st)).foldl
    (fun tree key => SortedMap.insert key () tree) tree
  { t with text := SortedMap.insert (utf8 decl.name) ⟨decl, tree⟩ t.text }

/-- Drop a text index. -/
def dropText (name : String) (t : Trees N E H) : Trees N E H :=
  { t with text := erase (utf8 name) t.text }

theorem insertNode_frame (previous : Option Node) (node : Node) (entry : N) (t : Trees N E H) :
    (t.insertNode st previous node entry).primary =
        SortedMap.insert (utf8 node.address) entry t.primary ∧
      (t.insertNode st previous node entry).edgeOut = t.edgeOut ∧
      (t.insertNode st previous node entry).edgeIn = t.edgeIn ∧
      (t.insertNode st previous node entry).history = t.history := by
  rcases previous with _ | old
  · exact ⟨rfl, rfl, rfl, rfl⟩
  simp only [insertNode, pointNode, assertDataKeys, assertTextKeys, retractDataKeys,
    retractTextKeys, mapData, mapText]
  split_ifs <;> exact ⟨rfl, rfl, rfl, rfl⟩

/-- Other values in the entries. -/
def map {N' E' H' : Type} (f : N → N') (g : E → E') (h : H → H') (t : Trees N E H) :
    Trees N' E' H' where
  primary := mapValues f t.primary
  kind := t.kind
  owner := t.owner
  edgeOut := mapValues g t.edgeOut
  edgeIn := mapValues g t.edgeIn
  history := mapValues h t.history
  data := t.data
  text := t.text

section Map

variable {N' E' H' : Type} {f : N → N'} {g : E → E'} {h : H → H'} {t : Trees N E H}

theorem map_pointNode (address : String) (entry : N) :
    (t.pointNode address entry).map f g h = (t.map f g h).pointNode address (f entry) := by
  simp [pointNode, map, insert_mapValues]

theorem map_insertNode (previous : Option Node) (node : Node) (entry : N) :
    (t.insertNode st previous node entry).map f g h =
      (t.map f g h).insertNode st previous node (f entry) := by
  rcases previous with _ | old
  · simp [insertNode, pointNode, map, assertDataKeys, assertTextKeys, mapData, mapText,
      insert_mapValues]
  simp only [insertNode, pointNode, map, assertDataKeys, assertTextKeys, retractDataKeys,
    retractTextKeys, mapData, mapText, insert_mapValues]
  split_ifs <;> rfl

theorem map_deleteNode (address : String) (node : Node) :
    (t.deleteNode st address node).map f g h = (t.map f g h).deleteNode st address node := by
  simp [deleteNode, map, retractDataKeys, retractTextKeys, mapData, mapText,
    erase_mapValues]

theorem map_insertEdge (id : EdgeId) (entry : E) :
    (t.insertEdge id entry).map f g h = (t.map f g h).insertEdge id (g entry) := by
  simp [insertEdge, map, insert_mapValues]

theorem map_deleteEdge (id : EdgeId) :
    (t.deleteEdge id).map f g h = (t.map f g h).deleteEdge id := by
  simp [deleteEdge, map, erase_mapValues]

theorem map_archive (address : String) (version : Nat) (entry : H) :
    (t.archive address version entry).map f g h = (t.map f g h).archive address version (h entry) := by
  simp [archive, map, insert_mapValues]

end Map

end Trees

/-! ## What reads see -/

/-- The trees as reads see them: each entry holds its record, or the error of reading it. -/
abbrev View := Trees (Except IoError Node) (Except IoError Edge) (Except IoError HistoryEntry)

/-- A mutation of records, or the declaration of an index. -/
inductive Change
  | write (op : Operation)
  | createIndex (decl : IndexDef)
  | dropIndex (name : String)
  | createTextIndex (decl : TextIndexDef)
  | dropTextIndex (name : String)
  deriving DecidableEq

namespace View

variable (st : Settings) {β : Type}

/-- The node that an address names. -/
def readNode (v : View) (address : String) : Except IoError (Option Node) :=
  match find (utf8 address) v.primary with
  | some node => node.map some
  | none => .ok none

/-- The address in the key of a kind or an owner. -/
def addressFromKey (key pre : Bytes) : String := st.fromUtf8Lossy (key.drop pre.length)

/-- Visit the nodes that are members of a value, in the order of their addresses. -/
def scanMembers (v : View) (tree : Entries Unit) (pre : Bytes) (startAfter : Option String)
    (reverse : Bool) (visit : Node → β → Except IoError (Bool × β)) (b : β) : Except IoError β :=
  tree.forEachRange pre (startAfter.map fun address => pre ++ utf8 address) reverse
    (fun key _ b =>
      match v.readNode (addressFromKey st key pre) with
      | .error e => .error e
      | .ok (some node) => visit node b
      | .ok none => .ok (true, b)) b

/-- Visit candidates by address, through the narrowest index that the filters allow. -/
def scanCandidates (v : View) (kind owner startAfter : Option String) (reverse : Bool)
    (visit : Node → β → Except IoError (Bool × β)) (b : β) : Except IoError β :=
  match kind, owner with
  | some k, _ => v.scanMembers st v.kind (Keys.kindPrefix k) startAfter reverse visit b
  | none, some o => v.scanMembers st v.owner (Keys.ownerPrefix o) startAfter reverse visit b
  | none, none =>
    v.primary.forEachRange [] (startAfter.map utf8) reverse
      (fun _ node b =>
        match node with
        | .error e => .error e
        | .ok node => visit node b) b

/-- The nodes of a kind, as a backfill visits them. -/
def nodesOfKind (v : View) (kind : String) : Except IoError (List Node) :=
  v.scanCandidates st (some kind) none none false (fun node found => .ok (true, found ++ [node])) []

/-- A change, as far as reads can tell. -/
def apply (v : View) : Change → Except IoError View
  | .write (.archive entry) => .ok (v.archive entry.address entry.version (.ok entry))
  | .write (.insert node) =>
    match v.readNode node.address with
    | .error e => .error e
    | .ok previous => .ok (v.insertNode st previous node (.ok node))
  | .write (.delete address) =>
    match v.readNode address with
    | .error e => .error e
    | .ok none => .ok v
    | .ok (some node) => .ok (v.deleteNode st address node)
  | .write (.insertEdge edge) => .ok (v.insertEdge edge.id (.ok edge))
  | .write (.deleteEdge id) => .ok (v.deleteEdge id)
  | .createIndex decl => (v.nodesOfKind st decl.kind).map fun nodes => v.openData st decl nodes
  | .dropIndex name => .ok (v.dropData name)
  | .createTextIndex decl => (v.nodesOfKind st decl.kind).map fun nodes => v.openText st decl nodes
  | .dropTextIndex name => .ok (v.dropText name)

end View

end FacetQL
