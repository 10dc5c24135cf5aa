import FacetQL.Storage.Mutations
import FacetQL.Storage.Query

/-!
# Compaction and reads

The heap with the trees that lead into it, entry by entry. A checkpoint copies the live records
of some segments to other locations and repoints the trees (`compact`, `drain_segment` and
`LiveKey::repoint` of `storage/engine.rs`), and the segments it has drained are removed. Reads
resolve the entries that they walk, so what they see is the view of the trees: the records in the
place of their locations. Compaction keeps it, and what a mutation does to it depends on it alone.

* `compaction_invisible`: a checkpoint changes no answer, now or after mutations.
-/

namespace FacetQL

open Function
open SortedMap (Sorted erase find find_mapValues mapValues mapValues_congr mem_erase mem_insert)
open Engine (Alloc Allocates)

/-- The heap, and the trees that lead into it. -/
structure TreeStorage where
  heap : Heap
  trees : Trees RecordLocation RecordLocation RecordLocation

namespace TreeStorage

variable (st : Settings)

/-- A new database. -/
def empty : TreeStorage := ⟨fun _ => none, Trees.empty⟩

/-- The trees as maps. -/
def indexes (s : TreeStorage) : Indexes where
  primary address := find (utf8 address) s.trees.primary
  kind member := find (Keys.kindKey member.1 member.2) s.trees.kind
  owner member := find (Keys.ownerKey member.1 member.2) s.trees.owner
  edgeOut id := find id.outKey s.trees.edgeOut
  edgeIn id := find id.inKey s.trees.edgeIn
  history version := find (Keys.historyKey version.1 version.2) s.trees.history

/-- The storage with its trees as maps. -/
def toStorage (s : TreeStorage) : Storage := ⟨s.heap, s.indexes⟩

/-- What reads see. -/
def view (s : TreeStorage) : View :=
  s.trees.map s.toStorage.nodeAt s.toStorage.edgeAt s.toStorage.historyAt

/-- Apply a change; a record it writes goes to `fresh`. -/
def apply (fresh : RecordLocation) (s : TreeStorage) : Change → Except IoError TreeStorage
  | .write (.archive entry) =>
    .ok ⟨update s.heap fresh (some (.history entry)),
      s.trees.archive entry.address entry.version fresh⟩
  | .write (.insert node) =>
    match s.toStorage.findNode node.address with
    | .error e => .error e
    | .ok previous =>
      .ok ⟨update s.heap fresh (some (.node node)),
        s.trees.insertNode st previous node fresh⟩
  | .write (.delete address) =>
    match s.toStorage.findNode address with
    | .error e => .error e
    | .ok none => .ok s
    | .ok (some node) => .ok ⟨s.heap, s.trees.deleteNode st address node⟩
  | .write (.insertEdge edge) =>
    .ok ⟨update s.heap fresh (some (.edge edge)), s.trees.insertEdge edge.id fresh⟩
  | .write (.deleteEdge id) => .ok ⟨s.heap, s.trees.deleteEdge id⟩
  | .createIndex decl =>
    (s.view.nodesOfKind st decl.kind).map fun nodes => ⟨s.heap, s.trees.openData st decl nodes⟩
  | .dropIndex name => .ok ⟨s.heap, s.trees.dropData name⟩
  | .createTextIndex decl =>
    (s.view.nodesOfKind st decl.kind).map fun nodes => ⟨s.heap, s.trees.openText st decl nodes⟩
  | .dropTextIndex name => .ok ⟨s.heap, s.trees.dropText name⟩

/-- Point every tree that holds a record's location at its new home. -/
def repoint (key : LiveKey) (location : RecordLocation)
    (trees : Trees RecordLocation RecordLocation RecordLocation) :
    Trees RecordLocation RecordLocation RecordLocation :=
  match key with
  | .node address => trees.pointNode address location
  | .edge id => trees.insertEdge id location
  | .history address version => trees.archive address version location

/-- Append a record, and point the trees at the copy. -/
def relocate (fresh : RecordLocation) (key : LiveKey) (record : HeapRecord) (s : TreeStorage) :
    TreeStorage :=
  ⟨update s.heap fresh (some record), repoint key fresh s.trees⟩

/-- What `scan_segment` visits: the records of a segment, each once. -/
def IsScan (heap : Heap) (segment : Nat) (scan : List (RecordLocation × HeapRecord)) : Prop :=
  (scan.map Prod.fst).Nodup ∧
    ∀ location record, (location, record) ∈ scan ↔
      location.segment = segment ∧ heap location = some record

/-- The records of a scan that the trees lead to, by their identities. -/
def liveRecords (s : TreeStorage) (scan : List (RecordLocation × HeapRecord)) :
    List (RecordLocation × LiveKey) :=
  (scan.filter fun r => (LiveKey.of r.2).currentLocation s.indexes = some r.1).map fun r =>
    (r.1, LiveKey.of r.2)

/-- Move records one after the other. -/
def moveAll (alloc : Alloc) (s : TreeStorage) :
    List (RecordLocation × LiveKey) → Except IoError TreeStorage
  | [] => .ok s
  | (old, key) :: rest =>
    match s.toStorage.read old with
    | .error e => .error e
    | .ok record => moveAll alloc (s.relocate (alloc s.heap) key record) rest

/-- Copy the live records of a segment elsewhere. -/
def drainSegment (alloc : Alloc) (scan : List (RecordLocation × HeapRecord))
    (s : TreeStorage) : Except IoError TreeStorage :=
  s.moveAll alloc (s.liveRecords scan)

/-- A segment that appends have left behind: a later one has records. -/
def Closed (s : TreeStorage) (segment : Nat) : Prop :=
  ∃ location, s.heap location ≠ none ∧ segment < location.segment

/-- Remove segments. -/
def dropSegments (segments : List Nat) (s : TreeStorage) : TreeStorage :=
  { s with heap := s.heap.dropSegments segments }

variable {st} {s s' : TreeStorage} {fresh location : RecordLocation} {record : HeapRecord}

/-! ## What the view depends on -/

theorem readNode_view (s : TreeStorage) (address : String) :
    s.view.readNode address = s.toStorage.findNode address := by
  rw [View.readNode, view, Trees.map, find_mapValues, Storage.findNode]
  simp only [toStorage, indexes]
  cases find (utf8 address) s.trees.primary <;> rfl

variable {a : Storage} {edge : Edge} {entries : Entries RecordLocation} {key : Bytes}
  {alloc : Alloc} {segment : Nat}

theorem read_congr {b : Storage} (h : a.heap location = b.heap location) :
    a.nodeAt location = b.nodeAt location ∧ a.edgeAt location = b.edgeAt location ∧
      a.historyAt location = b.historyAt location := by
  have hread : a.read location = b.read location := by rw [Storage.read, Storage.read, h]
  refine ⟨?_, ?_, ?_⟩
  · rw [Storage.nodeAt, Storage.nodeAt, hread]
  · rw [Storage.edgeAt, Storage.edgeAt, hread]
  · rw [Storage.historyAt, Storage.historyAt, hread]

theorem nodeAt_of {node : Node} (h : a.heap location = some (.node node)) :
    a.nodeAt location = .ok node := by
  rw [Storage.nodeAt, Storage.read, h]

theorem edgeAt_of (h : a.heap location = some (.edge edge)) : a.edgeAt location = .ok edge := by
  rw [Storage.edgeAt, Storage.read, h]

theorem historyAt_of {entry : HistoryEntry} (h : a.heap location = some (.history entry)) :
    a.historyAt location = .ok entry := by
  rw [Storage.historyAt, Storage.read, h]

/-- The locations that the trees hold. -/
def Referenced (s : TreeStorage) (location : RecordLocation) : Prop :=
  location ∈ s.trees.primary.map Prod.snd ∨ location ∈ s.trees.edgeOut.map Prod.snd ∨
    location ∈ s.trees.edgeIn.map Prod.snd ∨ location ∈ s.trees.history.map Prod.snd

/-- The view of trees depends on the records they lead to. -/
theorem map_congr {b : Storage} {trees : Trees RecordLocation RecordLocation RecordLocation}
    (h : ∀ location, Referenced ⟨a.heap, trees⟩ location → a.heap location = b.heap location) :
    trees.map a.nodeAt a.edgeAt a.historyAt = trees.map b.nodeAt b.edgeAt b.historyAt := by
  have hprimary : mapValues a.nodeAt trees.primary =
      mapValues b.nodeAt trees.primary := mapValues_congr fun e he =>
    (read_congr (h e.2 (.inl (List.mem_map_of_mem he)))).1
  have hout : mapValues a.edgeAt trees.edgeOut =
      mapValues b.edgeAt trees.edgeOut := mapValues_congr fun e he =>
    (read_congr (h e.2 (.inr (.inl (List.mem_map_of_mem he))))).2.1
  have hin : mapValues a.edgeAt trees.edgeIn =
      mapValues b.edgeAt trees.edgeIn := mapValues_congr fun e he =>
    (read_congr (h e.2 (.inr (.inr (.inl (List.mem_map_of_mem he)))))).2.1
  have hhistory : mapValues a.historyAt trees.history =
      mapValues b.historyAt trees.history := mapValues_congr fun e he =>
    (read_congr (h e.2 (.inr (.inr (.inr (List.mem_map_of_mem he)))))).2.2
  rw [Trees.map, Trees.map, hprimary, hout, hin, hhistory]

/-! ## The invariant -/

/-- The components of an edge's keys fit their lengths. -/
def FitsEdge (id : EdgeId) : Prop :=
  Keys.FitsComponent id.source ∧ Keys.FitsComponent id.target ∧ Keys.FitsComponent id.kind

theorem outKey_inj {a b : EdgeId} (ha : FitsEdge a) (hb : FitsEdge b) (h : a.outKey = b.outKey) :
    a = b := by
  obtain ⟨hsource, hkind, htarget⟩ := Keys.edgeKey_inj ha.1 hb.1 ha.2.2 hb.2.2 h
  cases a
  cases b
  simp_all

theorem inKey_inj {a b : EdgeId} (ha : FitsEdge a) (hb : FitsEdge b) (h : a.inKey = b.inKey) :
    a = b := by
  obtain ⟨htarget, hkind, hsource⟩ := Keys.edgeKey_inj ha.2.1 hb.2.1 ha.2.2 hb.2.2 h
  cases a
  cases b
  simp_all

/-- One tree of edges leads to edges of its keys, and the other to the same records. -/
def Mirrors (heap : Heap) (key other : EdgeId → Bytes) (tree mirror : Entries RecordLocation) :
    Prop :=
  ∀ e ∈ tree, ∃ edge, heap e.2 = some (.edge edge) ∧ FitsEdge edge.id ∧ e.1 = key edge.id ∧
    (other edge.id, e.2) ∈ mirror

/-- The keys of edges determine the edges. -/
def EdgeKey (key : EdgeId → Bytes) : Prop :=
  ∀ a b, FitsEdge a → FitsEdge b → key a = key b → a = b

section Mirrors

variable {heap : Heap} {key other : EdgeId → Bytes} {tree mirror : Entries RecordLocation}

theorem Mirrors.insert (h : Mirrors heap key other tree mirror) (hother : EdgeKey other)
    {edge : Edge} (hedge : heap fresh = some (.edge edge)) (hfits : FitsEdge edge.id) :
    Mirrors heap key other (SortedMap.insert (key edge.id) fresh tree)
      (SortedMap.insert (other edge.id) fresh mirror) := by
  intro e he
  rcases mem_insert.1 he with rfl | ⟨he, hne⟩
  · exact ⟨edge, hedge, hfits, rfl, mem_insert.2 (.inl rfl)⟩
  · obtain ⟨old, hold, hfitsOld, hkey, hmirror⟩ := h e he
    refine ⟨old, hold, hfitsOld, hkey, mem_insert.2 (.inr ⟨hmirror, fun heq => hne ?_⟩)⟩
    rw [hkey, hother _ _ hfitsOld hfits heq]

theorem Mirrors.erase (h : Mirrors heap key other tree mirror) (hother : EdgeKey other)
    {id : EdgeId} (hfits : FitsEdge id) :
    Mirrors heap key other (erase (key id) tree) (erase (other id) mirror) := by
  intro e he
  obtain ⟨he, hne⟩ := mem_erase.1 he
  obtain ⟨old, hold, hfitsOld, hkey, hmirror⟩ := h e he
  refine ⟨old, hold, hfitsOld, hkey, mem_erase.2 ⟨hmirror, fun heq => hne ?_⟩⟩
  rw [hkey, hother _ _ hfitsOld hfits heq]

end Mirrors

/-- The entries of the trees lead to records of their keys. -/
structure Inv (s : TreeStorage) : Prop where
  sortedPrimary : Sorted s.trees.primary
  sortedOut : Sorted s.trees.edgeOut
  sortedIn : Sorted s.trees.edgeIn
  sortedHistory : Sorted s.trees.history
  primary : ∀ e ∈ s.trees.primary, ∃ node, s.heap e.2 = some (.node node) ∧ e.1 = utf8 node.address
  edgeOut : Mirrors s.heap EdgeId.outKey EdgeId.inKey s.trees.edgeOut s.trees.edgeIn
  edgeIn : Mirrors s.heap EdgeId.inKey EdgeId.outKey s.trees.edgeIn s.trees.edgeOut
  history : ∀ e ∈ s.trees.history, ∃ entry, s.heap e.2 = some (.history entry) ∧
    e.1 = Keys.historyKey entry.address entry.version
  bounded : ∃ n, ∀ location, n ≤ location.segment → s.heap location = none

theorem Inv.empty : TreeStorage.empty.Inv where
  sortedPrimary := .nil
  sortedOut := .nil
  sortedIn := .nil
  sortedHistory := .nil
  primary := nofun
  edgeOut := nofun
  edgeIn := nofun
  history := nofun
  bounded := ⟨0, fun _ _ => rfl⟩

/-- The trees lead to records that are live. -/
theorem Inv.live (h : s.Inv) (hlocation : s.Referenced location) :
    ∃ record, s.heap location = some record ∧
      (LiveKey.of record).currentLocation s.indexes = some location := by
  rcases hlocation with hmem | hmem | hmem | hmem <;>
    obtain ⟨⟨key, location⟩, he, rfl⟩ := List.mem_map.1 hmem
  · obtain ⟨node, hnode, rfl⟩ := h.primary _ he
    exact ⟨_, hnode, h.sortedPrimary.find_eq_some.2 he⟩
  · obtain ⟨edge, hedge, -, rfl, -⟩ := h.edgeOut _ he
    exact ⟨_, hedge, h.sortedOut.find_eq_some.2 he⟩
  · -- An edge that is found from its end is found from its start, at the same place.
    obtain ⟨edge, hedge, -, -, hmirror⟩ := h.edgeIn _ he
    exact ⟨_, hedge, h.sortedOut.find_eq_some.2 hmirror⟩
  · obtain ⟨entry, hentry, rfl⟩ := h.history _ he
    exact ⟨_, hentry, h.sortedHistory.find_eq_some.2 he⟩

/-- Another heap that holds the records that the trees lead to. -/
theorem Inv.reheap (h : s.Inv) {heap : Heap}
    (hsame : ∀ location, s.Referenced location → heap location = s.heap location)
    (hbounded : ∃ n, ∀ location, n ≤ location.segment → heap location = none) :
    Inv ⟨heap, s.trees⟩ := by
  refine ⟨h.sortedPrimary, h.sortedOut, h.sortedIn, h.sortedHistory, fun e he => ?_,
    fun e he => ?_, fun e he => ?_, fun e he => ?_, hbounded⟩
  · obtain ⟨node, hnode, hkey⟩ := h.primary e he
    exact ⟨node, (hsame e.2 (.inl (List.mem_map_of_mem he))).trans hnode, hkey⟩
  · obtain ⟨edge, hedge, hrest⟩ := h.edgeOut e he
    exact ⟨edge, (hsame e.2 (.inr (.inl (List.mem_map_of_mem he)))).trans hedge, hrest⟩
  · obtain ⟨edge, hedge, hrest⟩ := h.edgeIn e he
    exact ⟨edge, (hsame e.2 (.inr (.inr (.inl (List.mem_map_of_mem he))))).trans hedge, hrest⟩
  · obtain ⟨entry, hentry, hkey⟩ := h.history e he
    exact ⟨entry, (hsame e.2 (.inr (.inr (.inr (List.mem_map_of_mem he))))).trans hentry, hkey⟩

/-- A free location is not referenced. -/
theorem Inv.ne_fresh (h : s.Inv) (hfresh : s.heap fresh = none)
    (hlocation : s.Referenced location) :
    location ≠ fresh := by
  rintro rfl
  obtain ⟨record, hrecord, -⟩ := h.live hlocation
  rw [hfresh] at hrecord
  cases hrecord

/-- A record at a free location is not seen. -/
theorem Inv.map_append (h : s.Inv) (hfresh : s.heap fresh = none)
    (ha : a.heap = update s.heap fresh (some record)) :
    s.trees.map a.nodeAt a.edgeAt a.historyAt = s.view := by
  refine map_congr fun location hlocation => ?_
  rw [ha]
  exact update_of_ne (h.ne_fresh hfresh hlocation) _ _

/-- A record at a free location. -/
theorem Inv.append (h : s.Inv) (hfresh : s.heap fresh = none) (record : HeapRecord) :
    Inv ⟨update s.heap fresh (some record), s.trees⟩ := by
  exact h.reheap (fun _ hlocation => update_of_ne (h.ne_fresh hfresh hlocation) _ _)
    (Storage.bounded_update h.bounded)

/-- States whose heaps and entries are the same; members and declared indexes may differ. -/
structure Alike (s s' : TreeStorage) : Prop where
  heap : s'.heap = s.heap
  primary : s'.trees.primary = s.trees.primary
  edgeOut : s'.trees.edgeOut = s.trees.edgeOut
  edgeIn : s'.trees.edgeIn = s.trees.edgeIn
  history : s'.trees.history = s.trees.history

theorem Alike.refl (s : TreeStorage) : Alike s s := ⟨rfl, rfl, rfl, rfl, rfl⟩

theorem Inv.congr (h : s.Inv) (halike : Alike s s') : s'.Inv := by
  obtain ⟨heap, primary, kind, owner, edgeOut, edgeIn, history, data, text⟩ := s'
  obtain ⟨hheap, hprimary, hout, hin, hhistory⟩ := halike
  dsimp only at hheap hprimary hout hin hhistory
  subst hheap hprimary hout hin hhistory
  exact ⟨h.sortedPrimary, h.sortedOut, h.sortedIn, h.sortedHistory, h.primary, h.edgeOut, h.edgeIn,
    h.history, h.bounded⟩

theorem Alike.referenced (h : Alike s s') : s'.Referenced location ↔ s.Referenced location := by
  rw [Referenced, Referenced, h.primary, h.edgeOut, h.edgeIn, h.history]

/-- The primary index leads to a node. -/
theorem Inv.putNode (h : s.Inv) {node : Node} (hnode : s.heap fresh = some (.node node)) :
    Inv ⟨s.heap, s.trees.pointNode node.address fresh⟩ := by
  refine { h with sortedPrimary := h.sortedPrimary.insert, primary := fun e he => ?_ }
  rcases mem_insert.1 he with rfl | ⟨he, -⟩
  · exact ⟨node, hnode, rfl⟩
  · exact h.primary e he

theorem Inv.removeNode (h : s.Inv) (address : String) :
    Inv ⟨s.heap, { s.trees with primary := erase (utf8 address) s.trees.primary }⟩ :=
  { h with
    sortedPrimary := h.sortedPrimary.erase
    primary := fun e he => h.primary e (mem_erase.1 he).1 }

theorem Inv.putEdge (h : s.Inv) (hedge : s.heap fresh = some (.edge edge))
    (hfits : FitsEdge edge.id) : Inv ⟨s.heap, s.trees.insertEdge edge.id fresh⟩ :=
  { h with
    sortedOut := h.sortedOut.insert
    sortedIn := h.sortedIn.insert
    edgeOut := h.edgeOut.insert (fun _ _ => inKey_inj) hedge hfits
    edgeIn := h.edgeIn.insert (fun _ _ => outKey_inj) hedge hfits }

theorem Inv.removeEdge (h : s.Inv) {id : EdgeId} (hfits : FitsEdge id) :
    Inv ⟨s.heap, s.trees.deleteEdge id⟩ :=
  { h with
    sortedOut := h.sortedOut.erase
    sortedIn := h.sortedIn.erase
    edgeOut := h.edgeOut.erase (fun _ _ => inKey_inj) hfits
    edgeIn := h.edgeIn.erase (fun _ _ => outKey_inj) hfits }

theorem Inv.putHistory (h : s.Inv) {entry : HistoryEntry}
    (hentry : s.heap fresh = some (.history entry)) :
    Inv ⟨s.heap, s.trees.archive entry.address entry.version fresh⟩ := by
  refine { h with sortedHistory := h.sortedHistory.insert, history := fun e he => ?_ }
  rcases mem_insert.1 he with rfl | ⟨he, -⟩
  · exact ⟨entry, hentry, rfl⟩
  · exact h.history e he

/-! ## Mutations -/

theorem exists_of_map_eq_ok {ε α β : Type} {f : α → β} {x : Except ε α} {b : β}
    (h : x.map f = .ok b) : ∃ a, x = .ok a ∧ f a = b := by
  rcases x with e | a
  · cases h
  · exact ⟨a, rfl, Except.ok.inj h⟩

theorem checkComponent_bind {name value : String} {rest : Except String Unit}
    (h : (checkComponent name value >>= fun _ => rest) = .ok ()) :
    Keys.FitsComponent value ∧ rest = .ok () := by
  rw [checkComponent] at h
  split at h
  · cases h
  · refine ⟨?_, h⟩
    rw [Keys.FitsComponent, length_utf8]
    exact Nat.lt_succ_of_le (not_lt.1 ‹_›)

theorem fitsEdge_of_check {id : EdgeId} (h : checkEdgeKeys id.source id.target id.kind = .ok ()) :
    FitsEdge id := by
  obtain ⟨hsource, h⟩ := checkComponent_bind h
  obtain ⟨htarget, h⟩ := checkComponent_bind h
  exact ⟨hsource, htarget, (checkComponent_bind h).1⟩

/-- What is checked of a change before it is logged. -/
def validate : Change → Except String Unit
  | .write op => op.validate
  | _ => .ok ()

variable (st) in
/-- Apply changes until one fails; `alloc` is where the heap puts the next record. -/
def applyAll (alloc : Alloc) (s : TreeStorage) :
    List Change → Except IoError Unit × TreeStorage
  | [] => (.ok (), s)
  | c :: cs =>
    match s.apply st (alloc s.heap) c with
    | .ok s => applyAll alloc s cs
    | .error e => (.error e, s)

/-- A mutation: what it reads under the writer lock decides what it changes and what it answers. -/
abbrev Mutation (α : Type) := View → Except String (List Change × α)

variable (st) in
/-- Run a mutation. Nothing is changed unless every change passes its check. -/
def mutate {α : Type} (alloc : Alloc) (s : TreeStorage) (m : Mutation α) :
    Except String α × TreeStorage :=
  match m s.view with
  | .error message => (.error message, s)
  | .ok (changes, answer) =>
    match changes.forM validate with
    | .error message => (.error message, s)
    | .ok () =>
      match applyAll st alloc s changes with
      | (.ok (), s) => (.ok answer, s)
      | (.error e, s) => (.error e.message, s)

variable (st) in
/-- Run mutations one after the other. -/
def mutateAll {α : Type} (alloc : Alloc) (s : TreeStorage) :
    List (Mutation α) → List (Except String α) × TreeStorage
  | [] => ([], s)
  | m :: ms =>
    let (answer, s) := mutate st alloc s m
    let (answers, s) := mutateAll alloc s ms
    (answer :: answers, s)

/-- A change appends a record that the trees lead to, removes entries, or leaves them alone. -/
theorem apply_cases {c : Change} (happly : s.apply st fresh c = .ok s') :
    (∃ record, (∀ edge, record = .edge edge → c = .write (.insertEdge edge)) ∧
      Alike (s.relocate fresh (LiveKey.of record) record) s') ∨
    (∃ address, Alike ⟨s.heap,
      { s.trees with primary := erase (utf8 address) s.trees.primary }⟩ s') ∨
    (∃ id, c = .write (.deleteEdge id) ∧ Alike ⟨s.heap, s.trees.deleteEdge id⟩ s') ∨
    Alike s s' := by
  cases c with
  | write op =>
    cases op with
    | archive entry =>
      cases happly
      exact .inl ⟨.history entry, nofun, .refl _⟩
    | insert node =>
      rw [TreeStorage.apply] at happly
      split at happly <;> cases happly
      obtain ⟨hprimary, hout, hin, hhistory⟩ := s.trees.insertNode_frame st _ node fresh
      exact .inl ⟨.node node, nofun, rfl, hprimary, hout, hin, hhistory⟩
    | delete address =>
      rw [TreeStorage.apply] at happly
      split at happly <;> cases happly
      · exact .inr (.inr (.inr (.refl _)))
      · exact .inr (.inl ⟨address, rfl, rfl, rfl, rfl, rfl⟩)
    | insertEdge edge =>
      cases happly
      exact .inl ⟨.edge edge, fun _ h => by rw [HeapRecord.edge.inj h], .refl _⟩
    | deleteEdge id =>
      cases happly
      exact .inr (.inr (.inl ⟨id, rfl, .refl _⟩))
  | createIndex decl | createTextIndex decl =>
    obtain ⟨nodes, -, rfl⟩ := exists_of_map_eq_ok happly
    exact .inr (.inr (.inr ⟨rfl, rfl, rfl, rfl, rfl⟩))
  | dropIndex name | dropTextIndex name =>
    cases happly
    exact .inr (.inr (.inr ⟨rfl, rfl, rfl, rfl, rfl⟩))

theorem Inv.apply (h : s.Inv) (hfresh : s.heap fresh = none) {c : Change}
    (hvalid : validate c = .ok ()) (happly : s.apply st fresh c = .ok s') : s'.Inv := by
  rcases apply_cases happly with ⟨record, hedge, halike⟩ | ⟨address, halike⟩ | ⟨id, rfl, halike⟩ |
    halike
  · refine Inv.congr ?_ halike
    have hinv := h.append hfresh record
    cases record with
    | node node => exact hinv.putNode (update_self ..)
    | history entry => exact hinv.putHistory (update_self ..)
    | edge edge =>
      obtain rfl := hedge edge rfl
      exact hinv.putEdge (update_self ..) (@fitsEdge_of_check edge.id hvalid)
  · exact (h.removeNode address).congr halike
  · exact (h.removeEdge (fitsEdge_of_check hvalid)).congr halike
  · exact h.congr halike

variable (st) in
/-- A mutation, as far as reads can tell, is the same mutation of the view. -/
theorem view_apply (h : s.Inv) (hfresh : s.heap fresh = none) (c : Change) :
    (s.apply st fresh c).map view = s.view.apply st c := by
  cases c with
  | write op =>
    cases op with
    | archive entry =>
      refine congrArg Except.ok ?_
      rw [view, Trees.map_archive, h.map_append hfresh rfl, historyAt_of (update_self ..)]
    | insert node =>
      rw [TreeStorage.apply, View.apply, readNode_view]
      rcases hprevious : s.toStorage.findNode node.address with e | previous
      · rfl
      refine congrArg Except.ok ?_
      rw [view, Trees.map_insertNode, h.map_append hfresh rfl, nodeAt_of (update_self ..)]
    | delete address =>
      rw [TreeStorage.apply, View.apply, readNode_view]
      rcases hprevious : s.toStorage.findNode address with e | previous
      · rfl
      rcases previous with _ | node
      · rfl
      · exact congrArg Except.ok (Trees.map_deleteNode st address node)
    | insertEdge edge =>
      refine congrArg Except.ok ?_
      rw [view, Trees.map_insertEdge, h.map_append hfresh rfl, edgeAt_of (update_self ..)]
    | deleteEdge id => exact congrArg Except.ok (Trees.map_deleteEdge id)
  | createIndex decl | createTextIndex decl =>
    rw [TreeStorage.apply, View.apply]
    cases s.view.nodesOfKind st decl.kind <;> rfl
  | dropIndex name => rfl
  | dropTextIndex name => rfl

/-! ## Compaction -/

/-- The view already holds, under the key of a record that is live, what the record is read as. -/
theorem insert_view {V : Type} {f : RecordLocation → V} (hsorted : Sorted entries)
    (hfind : find key entries = some location) :
    SortedMap.insert key (f location) (mapValues f entries) =
      mapValues f entries :=
  hsorted.mapValues.insert_eq_self (by rw [find_mapValues, hfind, Option.map_some])

theorem Inv.find_inKey (h : s.Inv) (hedge : s.heap location = some (.edge edge))
    (hlive : find edge.id.outKey s.trees.edgeOut = some location) :
    FitsEdge edge.id ∧ find edge.id.inKey s.trees.edgeIn = some location := by
  obtain ⟨found, hfound, hfits, -, hmirror⟩ := h.edgeOut _ (h.sortedOut.find_eq_some.1 hlive)
  obtain rfl : found = edge := by simpa [hedge] using hfound.symm
  exact ⟨hfits, h.sortedIn.find_eq_some.2 hmirror⟩

/-- A live record can be moved, and nobody sees it. -/
theorem Inv.relocate (h : s.Inv) (hfresh : s.heap fresh = none)
    (hrecord : s.heap location = some record)
    (hlive : (LiveKey.of record).currentLocation s.indexes = some location) :
    (s.relocate fresh (LiveKey.of record) record).Inv ∧
      (s.relocate fresh (LiveKey.of record) record).view = s.view := by
  have hself : update s.heap fresh (some record) fresh = some record :=
    update_self _ _ _
  have hinv := h.append hfresh record
  have hmap (a : Storage) (ha : a.heap = update s.heap fresh (some record)) :=
    h.map_append hfresh ha
  cases record with
  | node node =>
    refine ⟨hinv.putNode hself, ?_⟩
    have hat : s.toStorage.nodeAt location = .ok node := nodeAt_of hrecord
    change (s.trees.pointNode node.address fresh).map _ _ _ = s.view
    rw [Trees.map_pointNode, hmap _ rfl, nodeAt_of hself, ← hat]
    exact congrArg (fun primary => { s.view with primary }) (insert_view h.sortedPrimary hlive)
  | edge edge =>
    obtain ⟨hfits, hin⟩ := h.find_inKey hrecord hlive
    refine ⟨hinv.putEdge hself hfits, ?_⟩
    have hat : s.toStorage.edgeAt location = .ok edge := edgeAt_of hrecord
    change (s.trees.insertEdge edge.id fresh).map _ _ _ = s.view
    rw [Trees.map_insertEdge, hmap _ rfl, edgeAt_of hself, ← hat]
    exact congrArg₂ (fun edgeOut edgeIn => { s.view with edgeOut, edgeIn })
      (insert_view h.sortedOut hlive) (insert_view h.sortedIn hin)
  | history entry =>
    refine ⟨hinv.putHistory hself, ?_⟩
    have hat : s.toStorage.historyAt location = .ok entry := historyAt_of hrecord
    change (s.trees.archive entry.address entry.version fresh).map _ _ _ = s.view
    rw [Trees.map_archive, hmap _ rfl, historyAt_of hself, ← hat]
    exact congrArg (fun history => { s.view with history }) (insert_view h.sortedHistory hlive)

/-- A free location in the last segment, or in a new one. -/
def IsNext (s : TreeStorage) (location : RecordLocation) : Prop :=
  s.heap location = none ∧ ∀ other, s.heap other ≠ none → other.segment ≤ location.segment

/-- The heap appends to its last segment or a new one, as long as there is room. -/
def Appends (alloc : Alloc) : Prop :=
  ∀ s : TreeStorage, (∃ n, ∀ location, n ≤ location.segment → s.heap location = none) →
    s.IsNext (alloc s.heap)

theorem Appends.allocates (h : Appends alloc) : Allocates alloc :=
  fun heap hbounded => (h ⟨heap, Trees.empty⟩ hbounded).1

theorem exists_appends : ∃ alloc, Appends alloc := Engine.exists_next.imp fun _ h s => h s.heap

/-- The segments, with every location that a tree holds. -/
def heapSegments : Segments TreeStorage where
  heap := heap
  Closed := Closed
  Leads := Referenced

/-- What moves records and writes new ones only adds to the last segment. -/
abbrev Grows (s s' : TreeStorage) : Prop := heapSegments.Grows s s'

theorem Closed.ne_next (h : s.Closed segment) (hnext : s.IsNext location) :
    location.segment ≠ segment := by
  obtain ⟨other, hother, hlt⟩ := h
  exact (hlt.trans_le (hnext.2 other hother)).ne'

/-- The trees lead to no more than they did, and the heap stays. -/
theorem Grows.of_heap (hheap : s'.heap = s.heap)
    (hentries : ∀ location, s'.Referenced location → s.Referenced location) : Grows s s' where
  heap location _ hget := (congrFun hheap location).trans hget
  closed _ := Exists.imp fun _ => .imp_left (hheap ▸ ·)
  appended location _ hne hnone := hne ((congrFun hheap location).trans hnone)
  entries location _ hleads := hentries location hleads

/-- Trees that lead to no more than they did, or to the record just appended as well. -/
theorem Grows.append (hnext : s.IsNext fresh) (hheap : s'.heap = update s.heap fresh (some record))
    (htrees : ∀ location, s'.Referenced location → location = fresh ∨ s.Referenced location) :
    Grows s s' where
  heap location old hget :=
    (congrFun hheap location).trans (Storage.heapLe_append (s := s.toStorage) hnext.1 location old hget)
  closed segment := by
    rintro ⟨location, hlocation, hlt⟩
    refine ⟨location, ?_, hlt⟩
    rw [hheap, update_apply]
    split_ifs
    · exact nofun
    · exact hlocation
  appended location hclosed hne := by
    have hother : location ≠ fresh := fun heq => Closed.ne_next hclosed hnext (heq ▸ rfl)
    exact fun hnone => hne ((congrFun hheap location).trans ((update_of_ne hother ..).trans hnone))
  entries location hclosed hleads :=
    (htrees location hleads).resolve_left fun heq => Closed.ne_next hclosed hnext (heq ▸ rfl)

theorem mem_values_insert (h : location ∈ (SortedMap.insert key fresh entries).map Prod.snd) :
    location = fresh ∨ location ∈ entries.map Prod.snd := by
  obtain ⟨e, he, rfl⟩ := List.mem_map.1 h
  rcases mem_insert.1 he with rfl | ⟨he, -⟩
  · exact .inl rfl
  · exact .inr (List.mem_map_of_mem he)

theorem mem_values_erase (h : location ∈ (erase key entries).map Prod.snd) :
    location ∈ entries.map Prod.snd := by
  obtain ⟨e, he, rfl⟩ := List.mem_map.1 h
  exact List.mem_map_of_mem (mem_erase.1 he).1

theorem referenced_repoint {key : LiveKey}
    (h : Referenced ⟨s.heap, repoint key fresh s.trees⟩ location) :
    location = fresh ∨ s.Referenced location := by
  simp only [Referenced] at h ⊢
  cases key <;> grind [repoint, Trees.pointNode, Trees.insertEdge, Trees.archive, mem_values_insert]

/-- The trees lead to the new home of a record. -/
theorem Inv.currentLocation_relocate (h : s.Inv) (key : LiveKey) (record : HeapRecord) :
    key.currentLocation (s.relocate fresh key record).indexes = some fresh := by
  cases key with
  | node address => exact h.sortedPrimary.find_insert_self
  | edge id => exact h.sortedOut.find_insert_self
  | history address version => exact h.sortedHistory.find_insert_self

/-- A record that is live somewhere else stays live there. -/
theorem Inv.live_relocate (h : s.Inv) {key other : LiveKey} {old : RecordLocation}
    (hkey : key.currentLocation s.indexes = some old)
    (hother : other.currentLocation s.indexes = some location) (hne : location ≠ old) :
    other.currentLocation (s.relocate fresh key record).indexes = some location := by
  -- Two keys that lead to two places are two keys in their tree.
  have hkeys {k k' : Bytes} {entries : Entries RecordLocation}
      (hk : find k entries = some old) (hk' : find k' entries = some location) :
      k' ≠ k := fun heq => hne (Option.some.inj (hk'.symm.trans (heq ▸ hk)))
  cases key with
  | node address =>
    cases other with
    | node address' => exact (h.sortedPrimary.find_insert_of_ne (hkeys hkey hother)).trans hother
    | _ => exact hother
  | edge id =>
    cases other with
    | edge id' => exact (h.sortedOut.find_insert_of_ne (hkeys hkey hother)).trans hother
    | _ => exact hother
  | history address version =>
    cases other with
    | history address' version' =>
      exact (h.sortedHistory.find_insert_of_ne (hkeys hkey hother)).trans hother
    | _ => exact hother

theorem Inv.not_referenced_relocate (h : s.Inv) (hfresh : s.heap fresh = none)
    {old : RecordLocation} (hrecord : s.heap old = some record)
    (hlive : (LiveKey.of record).currentLocation s.indexes = some old) :
    ¬(s.relocate fresh (LiveKey.of record) record).Referenced old := by
  intro hold
  have hne : old ≠ fresh := by
    rintro rfl
    exact nomatch hrecord.symm.trans hfresh
  obtain ⟨found, hfound, hcurrent⟩ := (h.relocate hfresh hrecord hlive).1.live hold
  have hsame : found = record :=
    Option.some.inj (hfound.symm.trans ((update_of_ne hne _ _).trans hrecord))
  rw [hsame, h.currentLocation_relocate] at hcurrent
  exact hne (Option.some.inj hcurrent).symm

/-- What moving records out of some locations comes to. -/
structure Moved (olds : List RecordLocation) (s s' : TreeStorage) : Prop where
  inv : s'.Inv
  view : s'.view = s.view
  grows : Grows s s'
  left : ∀ location ∈ olds, s.Closed location.segment → ¬s'.Referenced location

/-- Records that are live can be moved, all of them. -/
theorem Inv.moveAll (happends : Appends alloc) {live : List (RecordLocation × LiveKey)} (h : s.Inv)
    (hnodup : (live.map Prod.fst).Nodup)
    (hlive : ∀ r ∈ live, ∃ record, s.heap r.1 = some record ∧ LiveKey.of record = r.2 ∧
      r.2.currentLocation s.indexes = some r.1) :
    ∃ s', s.moveAll alloc live = .ok s' ∧ Moved (live.map Prod.fst) s s' := by
  induction live generalizing s with
  | nil => exact ⟨s, rfl, h, rfl, .refl _ s, nofun⟩
  | cons r live ih =>
    obtain ⟨old, key⟩ := r
    obtain ⟨hnew, hdistinct⟩ := List.nodup_cons.1 hnodup
    obtain ⟨record, hrecord, rfl, hcurrent⟩ := hlive _ List.mem_cons_self
    have hnext := happends s h.bounded
    have hfresh := hnext.1
    obtain ⟨hinv, hview⟩ := h.relocate hfresh hrecord hcurrent
    have hgrows : Grows s (s.relocate (alloc s.heap) (LiveKey.of record) record) :=
      .append hnext rfl fun _ => referenced_repoint
    have hgone := h.not_referenced_relocate hfresh hrecord hcurrent
    obtain ⟨s', hmoved, hrest⟩ := ih hinv hdistinct fun r hr => by
      obtain ⟨found, hfound, hof, hfoundCurrent⟩ := hlive r (List.mem_cons_of_mem _ hr)
      have hne : r.1 ≠ old := by
        intro heq
        have hmem : r.1 ∈ live.map Prod.fst := List.mem_map_of_mem hr
        exact hnew (heq ▸ hmem)
      have hneFresh : r.1 ≠ alloc s.heap := by
        intro heq
        rw [heq, hfresh] at hfound
        cases hfound
      exact ⟨found, (update_of_ne hneFresh _ _).trans hfound, hof,
        h.live_relocate hcurrent hfoundCurrent hne⟩
    refine ⟨s', ?_, hrest.inv, hrest.view.trans hview, hgrows.trans hrest.grows, ?_⟩
    · rw [TreeStorage.moveAll, Storage.read, show s.toStorage.heap old = some record from hrecord]
      exact hmoved
    intro location hlocation hclosed
    have hlater := hgrows.closed _ hclosed
    rcases List.mem_cons.1 hlocation with rfl | hlocation
    · -- Later moves lead to other segments only.
      exact fun hreferenced => hgone (hrest.grows.entries location hlater hreferenced)
    · exact hrest.left location hlocation hlater

theorem fst_liveRecords {scan : List (RecordLocation × HeapRecord)} :
    (s.liveRecords scan).map Prod.fst = (scan.filter fun r =>
      (LiveKey.of r.2).currentLocation s.indexes = some r.1).map Prod.fst := by
  rw [liveRecords, List.map_map]
  rfl

/-- Draining a segment is not seen, and leaves nothing that leads into it. -/
theorem Inv.drainSegment (happends : Appends alloc) (h : s.Inv) (hclosed : s.Closed segment)
    {scan : List (RecordLocation × HeapRecord)} (hscan : IsScan s.heap segment scan) :
    ∃ s', s.drainSegment alloc scan = .ok s' ∧ s'.Inv ∧ s'.view = s.view ∧ Grows s s' ∧
      heapSegments.Dead s' segment := by
  obtain ⟨hnodup, hmem⟩ := hscan
  have hdistinct : ((s.liveRecords scan).map Prod.fst).Nodup := by
    rw [fst_liveRecords]
    exact hnodup.sublist (List.filter_sublist.map _)
  obtain ⟨s', hdrain, hmoved⟩ := h.moveAll happends hdistinct fun r hr => by
    obtain ⟨⟨location, record⟩, hfound, rfl⟩ := List.mem_map.1 hr
    obtain ⟨hvisited, hlive⟩ := List.mem_filter.1 hfound
    exact ⟨record, ((hmem location record).1 hvisited).2, rfl, of_decide_eq_true hlive⟩
  refine ⟨s', hdrain, hmoved.inv, hmoved.view, hmoved.grows, hmoved.grows.closed _ hclosed,
    fun location hlocation hsegment => ?_⟩
  -- What was referenced there was live, so the scan has found it.
  have hhere : s.Closed location.segment := hsegment ▸ hclosed
  obtain ⟨record, hrecord, hlive⟩ := h.live (hmoved.grows.entries location hhere hlocation)
  refine hmoved.left location ?_ hhere hlocation
  rw [fst_liveRecords]
  exact List.mem_map.2 ⟨(location, record), List.mem_filter.2
    ⟨(hmem location record).2 ⟨hsegment, hrecord⟩, decide_eq_true hlive⟩, rfl⟩

/-- The last segment that has records. -/
theorem Inv.exists_last (h : s.Inv) (hne : ∃ location, s.heap location ≠ none) :
    ∃ last, s.heap last ≠ none ∧ ∀ other, s.heap other ≠ none → other.segment ≤ last.segment := by
  obtain ⟨n, hn⟩ := h.bounded
  let used : Set Nat := {segment | ∃ location, s.heap location ≠ none ∧ location.segment = segment}
  have hbdd : BddAbove used := ⟨n, by
    rintro _ ⟨location, hlocation, rfl⟩
    exact (not_le.1 fun hle => hlocation (hn location hle)).le⟩
  obtain ⟨location, hlocation⟩ := hne
  obtain ⟨last, hlast, hsegment⟩ := Nat.sSup_mem (s := used) ⟨_, location, hlocation, rfl⟩ hbdd
  exact ⟨last, hlast, fun other hother => hsegment ▸ le_csSup hbdd ⟨other, hother, rfl⟩⟩

/-- Segments that nothing leads into can be removed, and nobody sees it. Others stay dead. -/
theorem Inv.dropSegments (h : s.Inv) {segments : List Nat}
    (hdead : ∀ segment ∈ segments, heapSegments.Dead s segment) :
    (s.dropSegments segments).Inv ∧ (s.dropSegments segments).view = s.view ∧
      ∀ segment, heapSegments.Dead s segment → heapSegments.Dead (s.dropSegments segments) segment := by
  have hkept (location : RecordLocation) (hlocation : s.Referenced location) :
      s.heap.dropSegments segments location = s.heap location :=
    Storage.dropSegments_of_notMem _ fun hmem => (hdead _ hmem).unreferenced location hlocation rfl
  refine ⟨h.reheap hkept (Storage.bounded_dropSegments segments h.bounded), map_congr hkept,
    fun segment hsegment => ?_⟩
  -- The last segment is none of those removed.
  obtain ⟨location, hlocation, hlt⟩ := hsegment.closed
  obtain ⟨last, hlast, hmax⟩ := h.exists_last ⟨location, hlocation⟩
  refine ⟨⟨last, ?_, hlt.trans_le (hmax location hlocation)⟩, hsegment.unreferenced⟩
  have hnot : last.segment ∉ segments := fun hmem => by
    obtain ⟨later, hlater, hlt⟩ := (hdead _ hmem).closed
    exact absurd (hmax later hlater) (not_le.2 hlt)
  exact fun hnone => hlast ((Storage.dropSegments_of_notMem s.heap hnot).symm.trans hnone)

/-- Segments drained one after the other, each scanned as it is when its turn comes. -/
inductive Drains (alloc : Alloc) : List Nat → TreeStorage → TreeStorage → Prop
  | nil {s : TreeStorage} : Drains alloc [] s s
  | cons {segment : Nat} {segments : List Nat} {scan : List (RecordLocation × HeapRecord)}
      {s mid s' : TreeStorage} (hscan : IsScan s.heap segment scan)
      (hdrain : s.drainSegment alloc scan = .ok mid) (hrest : Drains alloc segments mid s') :
      Drains alloc (segment :: segments) s s'

theorem Inv.drains (happends : Appends alloc) {segments : List Nat} (h : s.Inv)
    (hclosed : ∀ segment ∈ segments, s.Closed segment) (hdrains : Drains alloc segments s s') :
    s'.Inv ∧ s'.view = s.view ∧ Grows s s' ∧ ∀ segment ∈ segments, heapSegments.Dead s' segment := by
  induction hdrains with
  | @nil s => exact ⟨h, rfl, .refl _ s, nofun⟩
  | @cons segment segments scan s mid s' hscan hdrain hrest ih =>
    obtain ⟨found, hfound, hinv, hview, hgrows, hdead⟩ :=
      h.drainSegment happends (hclosed _ List.mem_cons_self) hscan
    obtain rfl : found = mid := Except.ok.inj (hfound.symm.trans hdrain)
    obtain ⟨hinv', hview', hgrows', hdead'⟩ := ih hinv fun other hother =>
      hgrows.closed other (hclosed other (List.mem_cons_of_mem _ hother))
    refine ⟨hinv', hview'.trans hview, hgrows.trans hgrows', fun other hother => ?_⟩
    rcases List.mem_cons.1 hother with rfl | hother
    · exact hdead.grows hgrows'
    · exact hdead' other hother

/-! ## Mutations after a checkpoint -/

theorem forM_validate_cons {c : Change} {cs : List Change} (h : (c :: cs).forM validate = .ok ()) :
    validate c = .ok () ∧ cs.forM validate = .ok () := by
  rw [List.forM] at h
  rcases hc : validate c with e | u
  · rw [hc] at h
    cases h
  rw [hc] at h
  exact ⟨rfl, h⟩

theorem Grows.apply (hnext : s.IsNext fresh) {c : Change} (happly : s.apply st fresh c = .ok s') :
    Grows s s' := by
  rcases apply_cases happly with ⟨record, -, halike⟩ | ⟨address, halike⟩ | ⟨id, -, halike⟩ | halike
  · exact .append hnext halike.heap fun location h => referenced_repoint (halike.referenced.1 h)
  · refine .of_heap halike.heap fun location h => ?_
    exact (halike.referenced.1 h).imp_left mem_values_erase
  · refine .of_heap halike.heap fun location h => ?_
    exact (halike.referenced.1 h).imp_right
      (.imp mem_values_erase (.imp_left mem_values_erase))
  · exact .of_heap halike.heap fun location h => halike.referenced.1 h

variable (st) in
theorem Grows.applyAll (happends : Appends alloc) (h : s.Inv) {cs : List Change}
    (hvalid : cs.forM validate = .ok ()) : Grows s (TreeStorage.applyAll st alloc s cs).2 := by
  induction cs generalizing s with
  | nil => exact .refl _ s
  | cons c cs ih =>
    obtain ⟨hc, hcs⟩ := forM_validate_cons hvalid
    have hnext := happends s h.bounded
    rw [TreeStorage.applyAll]
    rcases hs : s.apply st (alloc s.heap) c with e | t
    · exact .refl _ s
    · exact (Grows.apply hnext hs).trans (ih (h.apply hnext.1 hc hs) hcs)

theorem Grows.mutate (happends : Appends alloc) (h : s.Inv) {α : Type} (m : Mutation α) :
    Grows s (s.mutate st alloc m).2 := by
  rw [TreeStorage.mutate]
  split
  · exact .refl _ s
  · split
    · exact .refl _ s
    · have hgrows := Grows.applyAll st happends h ‹_›
      split <;> simp_all

section Alike

variable {alloc : Alloc} (halloc : Allocates alloc)

include halloc

variable (st) in
/-- Changes do the same to states that reads cannot tell apart. -/
theorem Inv.applyAll_congr (h : s.Inv) (h' : s'.Inv) (hview : s'.view = s.view) {cs : List Change}
    (hvalid : cs.forM validate = .ok ()) :
    (applyAll st alloc s' cs).1 = (applyAll st alloc s cs).1 ∧
      (applyAll st alloc s cs).2.Inv ∧ (applyAll st alloc s' cs).2.Inv ∧
      (applyAll st alloc s' cs).2.view = (applyAll st alloc s cs).2.view := by
  induction cs generalizing s s' with
  | nil => exact ⟨rfl, h, h', hview⟩
  | cons c cs ih =>
    obtain ⟨hc, hcs⟩ := forM_validate_cons hvalid
    have hfresh := halloc s.heap h.bounded
    have hfresh' := halloc s'.heap h'.bounded
    have happly := view_apply st h hfresh c
    have happly' := view_apply st h' hfresh' c
    rw [hview, ← happly] at happly'
    rw [applyAll, applyAll]
    rcases hs : s.apply st (alloc s.heap) c with e | t <;>
      rcases hs' : s'.apply st (alloc s'.heap) c with e' | t' <;> rw [hs, hs'] at happly'
    · cases happly'
      exact ⟨rfl, h, h', hview⟩
    · cases happly'
    · cases happly'
    · exact ih (h.apply hfresh hc hs) (h'.apply hfresh' hc hs') (Except.ok.inj happly') hcs

variable (st) in
/-- A mutation answers the same in states that reads cannot tell apart, and leaves them alike. -/
theorem Inv.mutate_congr (h : s.Inv) (h' : s'.Inv) (hview : s'.view = s.view) {α : Type}
    (m : Mutation α) :
    (s'.mutate st alloc m).1 = (s.mutate st alloc m).1 ∧ (s.mutate st alloc m).2.Inv ∧
      (s'.mutate st alloc m).2.Inv ∧
      (s'.mutate st alloc m).2.view = (s.mutate st alloc m).2.view := by
  rw [TreeStorage.mutate, TreeStorage.mutate, hview]
  rcases m s.view with message | planned
  · exact ⟨rfl, h, h', hview⟩
  obtain ⟨changes, answer⟩ := planned
  dsimp only
  rcases hvalid : changes.forM validate with message | u
  · exact ⟨rfl, h, h', hview⟩
  obtain ⟨hanswer, hinv, hinv', hviews⟩ := h.applyAll_congr st halloc h' hview hvalid
  dsimp only
  generalize applyAll st alloc s changes = done at hanswer hinv hviews ⊢
  generalize applyAll st alloc s' changes = done' at hanswer hinv' hviews ⊢
  obtain ⟨result, t⟩ := done
  obtain ⟨result', t'⟩ := done'
  obtain rfl : result' = result := hanswer
  cases result' <;> exact ⟨rfl, hinv, hinv', hviews⟩

theorem Inv.mutateAll_congr (h : s.Inv) (h' : s'.Inv) (hview : s'.view = s.view) {α : Type}
    (ms : List (Mutation α)) :
    (s'.mutateAll st alloc ms).1 = (s.mutateAll st alloc ms).1 ∧
      (s'.mutateAll st alloc ms).2.view = (s.mutateAll st alloc ms).2.view := by
  induction ms generalizing s s' with
  | nil => exact ⟨rfl, hview⟩
  | cons m ms ih =>
    obtain ⟨hanswer, hinv, hinv', hviews⟩ := h.mutate_congr st halloc h' hview m
    obtain ⟨hanswers, hend⟩ := ih hinv hinv' hviews
    exact ⟨congrArg₂ List.cons hanswer hanswers, hend⟩

end Alike

end TreeStorage

/-- The storage, and the drained segments that wait for readers. -/
structure RetiringStorage extends TreeStorage where
  retired : List Nat

namespace RetiringStorage

open TreeStorage

/-- A checkpoint drains segments left behind, and removes retired ones no reader waits for. -/
inductive Checkpoint (alloc : Alloc) : RetiringStorage → RetiringStorage → Prop
  | mk {s : RetiringStorage} {mid : TreeStorage} {candidates ready waiting : List Nat}
      (hcandidates : ∀ segment ∈ candidates, s.Closed segment)
      (hdrains : Drains alloc candidates s.toTreeStorage mid)
      (hready : (ready ++ waiting).Perm (s.retired ++ candidates)) :
      Checkpoint alloc s ⟨mid.dropSegments ready, waiting⟩

/-- The states that mutations and checkpoints lead to, with no crash and no I/O error. -/
inductive Reachable (st : Settings) : RetiringStorage → Prop
  | empty : Reachable st ⟨.empty, []⟩
  | mutate {s : RetiringStorage} (h : Reachable st s) {alloc : Alloc}
      (happends : Appends alloc) {α : Type} (m : Mutation α) :
      Reachable st ⟨(s.mutate st alloc m).2, s.retired⟩
  | checkpoint {s s' : RetiringStorage} (h : Reachable st s) {alloc : Alloc}
      (happends : Appends alloc) (hcheckpoint : Checkpoint alloc s s') : Reachable st s'

variable {st : Settings} {s s' : RetiringStorage} {alloc : Alloc}

/-- Nothing leads into a segment that is retired. -/
structure Sound (s : RetiringStorage) : Prop where
  inv : s.Inv
  dead : ∀ segment ∈ s.retired, heapSegments.Dead s.toTreeStorage segment

/-- A checkpoint leaves nothing that leads into the segments that it removes. -/
theorem Sound.checkpoint (happends : Appends alloc) (h : s.Sound)
    (hcheckpoint : Checkpoint alloc s s') : s'.Sound ∧ s'.view = s.view := by
  obtain @⟨mid, candidates, ready, waiting, hcandidates, hdrains, hready⟩ := hcheckpoint
  obtain ⟨hinv, hview, hgrows, hdrained⟩ := h.inv.drains happends hcandidates hdrains
  have hdead (segment : Nat) (hsegment : segment ∈ ready ++ waiting) :
      heapSegments.Dead mid segment := by
    rcases List.mem_append.1 (hready.mem_iff.1 hsegment) with hold | hnew
    · exact (h.dead segment hold).grows hgrows
    · exact hdrained segment hnew
  obtain ⟨hinv', hview', hkeeps⟩ :=
    hinv.dropSegments fun segment h => hdead segment (List.mem_append_left _ h)
  exact ⟨⟨hinv', fun segment h => hkeeps segment (hdead segment (List.mem_append_right _ h))⟩,
    hview'.trans hview⟩

theorem Reachable.sound (h : Reachable st s) : s.Sound := by
  induction h with
  | empty => exact ⟨.empty, nofun⟩
  | mutate _ happends m ih =>
    exact ⟨(ih.inv.mutate_congr st happends.allocates ih.inv rfl m).2.1, fun segment hsegment =>
      (ih.dead segment hsegment).grows (Grows.mutate happends ih.inv m)⟩
  | checkpoint _ happends hcheckpoint ih => exact (ih.checkpoint happends hcheckpoint).1

end RetiringStorage

open TreeStorage RetiringStorage in
/-- Whatever segments a checkpoint drains, every read answers after it as it did before, and so
    does every sequence of mutations, which leaves what reads see the same as well. -/
theorem compaction_invisible (st : Settings) {s s' : RetiringStorage} (hreach : Reachable st s)
    {alloc : Alloc} (happends : Appends alloc) (hcheckpoint : Checkpoint alloc s s') :
    (∀ address, s'.view.get address = s.view.get address) ∧
    (∀ address, s'.view.historyFor st address = s.view.historyFor st address) ∧
    (∀ address, s'.view.edgesFrom st address = s.view.edgesFrom st address) ∧
    (∀ address, s'.view.edgesTo st address = s.view.edgesTo st address) ∧
    (∀ kind owner requester limit offset, s'.view.query st kind owner requester limit offset =
      s.view.query st kind owner requester limit offset) ∧
    (∀ kind owner requester predicate itemVar order desc after limit offset,
      s'.view.queryWhere st kind owner requester predicate itemVar order desc after limit offset =
        s.view.queryWhere st kind owner requester predicate itemVar order desc after limit offset) ∧
    ∀ alloc, Appends alloc → ∀ (α : Type) (ms : List (Mutation α)),
      (s'.mutateAll st alloc ms).1 = (s.mutateAll st alloc ms).1 ∧
      (s'.mutateAll st alloc ms).2.view = (s.mutateAll st alloc ms).2.view := by
  obtain ⟨hsound, hview⟩ := hreach.sound.checkpoint happends hcheckpoint
  refine ⟨?_, ?_, ?_, ?_, ?_, ?_, fun alloc happends α ms => ?_⟩
  iterate 6 rw [hview]; intros; rfl
  exact hreach.sound.inv.mutateAll_congr happends.allocates hsound.inv hview ms

/-- An append that starts a new segment. -/
def rolled (alloc : Alloc) : Alloc := fun heap => ⟨(alloc heap).segment + 1, 0, 0⟩

theorem rolled_appends {alloc : Alloc} (h : TreeStorage.Appends alloc) :
    TreeStorage.Appends (rolled alloc) := by
  intro s hbounded
  obtain ⟨-, hlast⟩ := h s hbounded
  refine ⟨not_not.1 fun hne => ?_, fun other hother => (hlast other hother).trans (Nat.le_succ _)⟩
  exact Nat.not_succ_le_self _ (hlast _ hne)

def knowsEdge : Edge := ⟨"a", "b", "knows", "alice"⟩

def likesEdge : Edge := ⟨"b", "c", "likes", "alice"⟩

open TreeStorage in
/-- An edge is inserted, and another one in the next segment. A checkpoint then moves the first
    edge, and removes the segment it was in. -/
theorem compaction_invisible_drained : ∃ (s s' : RetiringStorage) (alloc : Alloc),
    s.Reachable .plain ∧ Appends alloc ∧ s.Checkpoint alloc s' ∧ s'.heap ≠ s.heap ∧
      s.view.edgesTo .plain "b" = .ok [knowsEdge] ∧
      s'.view.edgesTo .plain "b" = .ok [knowsEdge] := by
  obtain ⟨alloc, happends⟩ := exists_appends
  have hrolled := rolled_appends happends
  let first := alloc TreeStorage.empty.heap
  let one : TreeStorage := ⟨update TreeStorage.empty.heap first (some (.edge knowsEdge)),
    Trees.empty.insertEdge knowsEdge.id first⟩
  let second := rolled alloc one.heap
  let two : TreeStorage := ⟨update one.heap second (some (.edge likesEdge)),
    one.trees.insertEdge likesEdge.id second⟩
  have hone : RetiringStorage.Reachable .plain ⟨one, []⟩ := RetiringStorage.Reachable.empty.mutate
    happends fun _ => .ok ([.write (.insertEdge knowsEdge)], ())
  have htwo : RetiringStorage.Reachable .plain ⟨two, []⟩ :=
    hone.mutate hrolled fun _ => .ok ([.write (.insertEdge likesEdge)], ())
  have hlater : first.segment < second.segment := by
    refine Nat.lt_succ_of_le ((happends one hone.sound.inv.bounded).2 first ?_)
    rw [show one.heap first = some _ from update_self ..]
    exact nofun
  have hne : first ≠ second := fun h => hlater.ne (congrArg _ h)
  have hfirst : two.heap first = some (.edge knowsEdge) :=
    (update_of_ne hne ..).trans (update_self ..)
  have hsecond : two.heap second = some (.edge likesEdge) := update_self ..
  have hclosed : two.Closed first.segment := ⟨second, by rw [hsecond]; exact nofun, hlater⟩
  have hscan : IsScan two.heap first.segment [(first, .edge knowsEdge)] := by
    refine ⟨List.nodup_singleton _, fun location record => ?_⟩
    rw [List.mem_singleton, Prod.mk.injEq]
    constructor
    · rintro ⟨rfl, rfl⟩
      exact ⟨rfl, hfirst⟩
    rintro ⟨hsegment, hrecord⟩
    have hother : location ≠ second := fun h => hlater.ne' (h ▸ hsegment)
    replace hrecord : one.heap location = some record :=
      (update_of_ne hother ..).symm.trans hrecord
    change update _ _ _ location = _ at hrecord
    rw [update_apply] at hrecord
    split_ifs at hrecord with h
    · exact ⟨h, (Option.some.inj hrecord).symm⟩
    · cases hrecord
  obtain ⟨mid, hdrain, -⟩ := htwo.sound.inv.drainSegment hrolled hclosed hscan
  have hcheckpoint : RetiringStorage.Checkpoint (rolled alloc) ⟨two, []⟩
      ⟨mid.dropSegments [first.segment], []⟩ :=
    .mk (fun segment h => List.mem_singleton.1 h ▸ hclosed) (.cons hscan hdrain .nil) (.refl _)
  have hedges : two.view.edgesTo .plain "b" = .ok [knowsEdge] := by
    have hat : two.toStorage.edgeAt first = .ok knowsEdge := edgeAt_of hfirst
    have hat' : two.toStorage.edgeAt second = .ok likesEdge := edgeAt_of hsecond
    change View.collectRange .plain _ _ [(knowsEdge.id.inKey, two.toStorage.edgeAt first),
      (likesEdge.id.inKey, two.toStorage.edgeAt second)] = _
    rw [hat, hat']
    decide +kernel
  refine ⟨_, _, _, htwo, hrolled, hcheckpoint, fun heq => ?_, hedges, ?_⟩
  · have hgone : (none : Option HeapRecord) = two.heap first :=
      (if_pos (List.mem_singleton.2 rfl)).symm.trans (congrFun heq first)
    exact nomatch hgone.trans hfirst
  · rw [(compaction_invisible .plain htwo hrolled hcheckpoint).2.2.2.1, hedges]

end FacetQL
