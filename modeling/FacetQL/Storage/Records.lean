import FacetQL.Core
import FacetQL.Lib.LastWrite

/-!
# The record heap and the indexes into it

What `apply_operation` and `drain_segment` of `storage/engine.rs` do to the heap and the
base indexes. Records are only ever appended to the heap, at a location that the heap
chooses; the primary index, the outgoing edges and the history say which of them are
live. The trees are maps here: that they are is `BTree.refines_of_puts_lt`.
-/

namespace FacetQL

open Function

/-- Where a record is. -/
structure RecordLocation where
  segment : Nat
  page : Nat
  slot : Nat
  deriving DecidableEq, Repr

/-- The stored records, by their location. -/
abbrev Heap := RecordLocation → Option HeapRecord

/-- The base indexes, without the data and text indexes that can be declared. -/
structure Indexes where
  primary : String → Option RecordLocation
  kind : String × String → Option Unit
  owner : String × String → Option Unit
  edgeOut : EdgeId → Option RecordLocation
  edgeIn : EdgeId → Option RecordLocation
  history : String × Nat → Option RecordLocation

/-- Where the indexes say that a record is. -/
def LiveKey.currentLocation (indexes : Indexes) : LiveKey → Option RecordLocation
  | .node address => indexes.primary address
  | .edge id => indexes.edgeOut id
  | .history address version => indexes.history (address, version)

/-- Point every index that addresses a record at its new location. -/
def LiveKey.repoint (indexes : Indexes) (location : RecordLocation) : LiveKey → Indexes
  | .node address => { indexes with primary := update indexes.primary address (some location) }
  | .edge id => { indexes with
      edgeOut := update indexes.edgeOut id (some location)
      edgeIn := update indexes.edgeIn id (some location) }
  | .history address version => { indexes with
      history := update indexes.history (address, version) (some location) }

theorem LiveKey.currentLocation_repoint (indexes : Indexes) (location : RecordLocation)
    (key k : LiveKey) : k.currentLocation (key.repoint indexes location) =
      if k = key then some location else k.currentLocation indexes := by
  cases key <;> cases k <;> simp [repoint, currentLocation, update_apply]

/-- The records and the indexes over them. -/
structure Storage where
  heap : Heap
  indexes : Indexes

namespace Storage

/-- The index and the heap disagree about what is stored where. -/
def mismatchedRecord (expected : String) (found : HeapRecord) : IoError :=
  let actual := match found with
    | .node _ => "node"
    | .edge _ => "edge"
    | .history _ => "history entry"
  ⟨.invalidData, "an index entry for a " ++ expected ++ " resolved to a " ++ actual ++ " record — " ++
    "the index and the heap disagree about what is stored where"⟩

/-- The record at a location. -/
def read (s : Storage) (location : RecordLocation) : Except IoError HeapRecord :=
  match s.heap location with
  | some record => .ok record
  | none => .error ⟨.invalidData, "no record at segment " ++ toString location.segment ++ " page " ++
      toString location.page ++ " slot " ++ toString location.slot⟩

/-- The node at a location. -/
def nodeAt (s : Storage) (location : RecordLocation) : Except IoError Node :=
  match s.read location with
  | .ok (.node node) => .ok node
  | .ok other => .error (mismatchedRecord "node" other)
  | .error e => .error e

/-- The edge at a location. -/
def edgeAt (s : Storage) (location : RecordLocation) : Except IoError Edge :=
  match s.read location with
  | .ok (.edge edge) => .ok edge
  | .ok other => .error (mismatchedRecord "edge" other)
  | .error e => .error e

/-- The archived state at a location. -/
def historyAt (s : Storage) (location : RecordLocation) : Except IoError HistoryEntry :=
  match s.read location with
  | .ok (.history entry) => .ok entry
  | .ok other => .error (mismatchedRecord "history entry" other)
  | .error e => .error e

/-- The node that an address names. -/
def findNode (s : Storage) (address : String) : Except IoError (Option Node) :=
  match s.indexes.primary address with
  | some location => (s.nodeAt location).map some
  | none => .ok none

/-- An edge, as it is found from where it starts. -/
def findEdge (s : Storage) (id : EdgeId) : Except IoError (Option Edge) :=
  match s.indexes.edgeOut id with
  | some location => (s.edgeAt location).map some
  | none => .ok none

/-- An archived state of a node. -/
def findHistory (s : Storage) (address : String) (version : Nat) :
    Except IoError (Option HistoryEntry) :=
  match s.indexes.history (address, version) with
  | some location => (s.historyAt location).map some
  | none => .ok none

/-- A record, by its identity. -/
def findRecord (s : Storage) : LiveKey → Except IoError (Option HeapRecord)
  | .node address => (s.findNode address).map (Option.map .node)
  | .edge id => (s.findEdge id).map (Option.map .edge)
  | .history address version => (s.findHistory address version).map (Option.map .history)

/-- Append a record to the heap, at a fresh location. -/
def append (s : Storage) (fresh : RecordLocation) (record : HeapRecord) : Storage :=
  { s with heap := update s.heap fresh (some record) }

/-- The kind and owner entries of a node in place of another one: stale ones go first. -/
def reindex (indexes : Indexes) (previous : Option Node) (node : Node) : Indexes :=
  let stale (field : Node → String) (tree : String × String → Option Unit) :=
    match previous with
    | some old =>
      if field old ≠ field node then update tree (field old, node.address) none else tree
    | none => tree
  { indexes with
    kind := update (stale Node.kind indexes.kind) (node.kind, node.address) (some ())
    owner := update (stale Node.owner indexes.owner) (node.owner, node.address) (some ()) }

/-- Apply an operation; a record it writes goes to `fresh`. -/
def applyOperation (fresh : RecordLocation) (s : Storage) : Operation → Except IoError Storage
  | .archive entry =>
    let s := s.append fresh (.history entry)
    .ok { s with indexes := (LiveKey.history entry.address entry.version).repoint s.indexes fresh }
  | .insert node =>
    match s.findNode node.address with
    | .error e => .error e
    | .ok previous =>
      let s := s.append fresh (.node node)
      .ok { s with
        indexes := reindex ((LiveKey.node node.address).repoint s.indexes fresh) previous node }
  | .delete address =>
    match s.findNode address with
    | .error e => .error e
    | .ok none => .ok s
    | .ok (some node) => .ok { s with indexes := { s.indexes with
        primary := update s.indexes.primary address none
        kind := update s.indexes.kind (node.kind, address) none
        owner := update s.indexes.owner (node.owner, address) none } }
  | .insertEdge edge =>
    let s := s.append fresh (.edge edge)
    .ok { s with indexes := (LiveKey.edge edge.id).repoint s.indexes fresh }
  | .deleteEdge id => .ok { s with indexes := { s.indexes with
      edgeOut := update s.indexes.edgeOut id none
      edgeIn := update s.indexes.edgeIn id none } }

/-- Move a live record to a fresh location. -/
def relocate (s : Storage) (fresh : RecordLocation) (record : HeapRecord) : Storage :=
  let s := s.append fresh record
  { s with indexes := (LiveKey.of record).repoint s.indexes fresh }

/-- The live record of each identity. -/
def view (s : Storage) (key : LiveKey) : Option HeapRecord :=
  (key.currentLocation s.indexes).bind s.heap

/-- An index entry leads to a record of that identity. -/
def WellPointed (s : Storage) : Prop :=
  ∀ key location, key.currentLocation s.indexes = some location →
    ∃ record, s.heap location = some record ∧ LiveKey.of record = key

variable {s s' : Storage} {key : LiveKey} {fresh location : RecordLocation} {record : HeapRecord}
  {op : Operation}

/-! ## Writing and removing a record -/

theorem bounded_of_new {heap heap' : Heap}
    (h : ∃ n, ∀ location, n ≤ location.segment → heap location = none)
    (hnew : ∀ location, heap' location ≠ none → heap location ≠ none ∨ location = fresh) :
    ∃ n, ∀ location, n ≤ location.segment → heap' location = none := by
  obtain ⟨n, hn⟩ := h
  refine ⟨max n (fresh.segment + 1), fun location hge => ?_⟩
  by_contra hne
  rcases hnew location hne with hold | rfl
  · exact hold (hn location ((le_max_left _ _).trans hge))
  · exact absurd ((le_max_right _ _).trans hge) (Nat.lt_irrefl _)

theorem bounded_update {heap : Heap} {slot : Option HeapRecord}
    (h : ∃ n, ∀ location, n ≤ location.segment → heap location = none) :
    ∃ n, ∀ location, n ≤ location.segment → update heap fresh slot location = none :=
  bounded_of_new h fun _ hne => or_iff_not_imp_right.2 fun hother =>
    update_of_ne hother slot heap ▸ hne

/-- Everything in one heap is in another one, at the same location. -/
def HeapLe (h h' : Heap) : Prop := ∀ location record, h location = some record →
  h' location = some record

theorem HeapLe.refl (h : Heap) : HeapLe h h := fun _ _ hget => hget

theorem HeapLe.trans {h h' h'' : Heap} (hle : HeapLe h h') (hle' : HeapLe h' h'') : HeapLe h h'' :=
  fun location record hget => hle' location record (hle location record hget)

@[simp] theorem append_heap (s : Storage) (fresh : RecordLocation) (record : HeapRecord) :
    (s.append fresh record).heap = update s.heap fresh (some record) := rfl

theorem heapLe_append (hfresh : s.heap fresh = none) : HeapLe s.heap (s.append fresh record).heap := by
  intro location old hget
  have hne : location ≠ fresh := by
    rintro rfl
    rw [hfresh] at hget
    cases hget
  rw [append_heap, update_of_ne hne, hget]

theorem WellPointed.view_mono (h : s.WellPointed) (s' : Storage) (hindexes : s'.indexes = s.indexes)
    (hle : HeapLe s.heap s'.heap) : s'.WellPointed ∧ s'.view = s.view := by
  have hget : ∀ (k : LiveKey) location, k.currentLocation s.indexes = some location →
      s'.heap location = s.heap location := by
    intro k location hk
    obtain ⟨record, hrecord, -⟩ := h k location hk
    rw [hrecord, hle location record hrecord]
  constructor
  · intro k location hk
    rw [hindexes] at hk
    rw [hget k location hk]
    exact h k location hk
  funext k
  rw [view, view, hindexes]
  rcases hk : k.currentLocation s.indexes with _ | location
  · rfl
  · exact hget k location hk

/-- What is stored under a key has been written, to `fresh`, or has been removed. -/
structure Written (fresh : RecordLocation) (s s' : Storage) (w : LiveKey × Option HeapRecord) : Prop
    where
  heap : s'.heap = w.2.elim s.heap fun record => update s.heap fresh (some record)
  location : ∀ k : LiveKey, k.currentLocation s'.indexes =
    if k = w.1 then w.2.map fun _ => fresh else k.currentLocation s.indexes
  edgeIn : ∀ id, s'.indexes.edgeIn id =
    if .edge id = w.1 then w.2.map fun _ => fresh else s.indexes.edgeIn id

section Written

variable {w : LiveKey × Option HeapRecord} (hw : Written fresh s s' w)

theorem written_repoint (s : Storage) (fresh : RecordLocation) (key : LiveKey)
    (record : HeapRecord) :
    Written fresh s ⟨(s.append fresh record).heap, key.repoint s.indexes fresh⟩
      (key, some record) where
  heap := rfl
  location := LiveKey.currentLocation_repoint s.indexes fresh key
  edgeIn id := by cases key <;> simp [LiveKey.repoint, update_apply]

include hw

theorem Written.mem_heap (hne : s'.heap location ≠ none) :
    s.heap location ≠ none ∨ location = fresh := by
  rw [hw.heap] at hne
  rcases w with ⟨key, _ | record⟩
  · exact .inl hne
  · exact or_iff_not_imp_right.2 fun hother => update_of_ne hother _ s.heap ▸ hne

/-- An entry leads where it led, or to what has been written. -/
theorem Written.entries (hkey : key.currentLocation s'.indexes = some location) :
    key.currentLocation s.indexes = some location ∨ location = fresh := by
  rw [hw.location] at hkey
  split_ifs at hkey
  · obtain ⟨-, -, rfl⟩ := Option.map_eq_some_iff.1 hkey
    exact .inr rfl
  · exact .inl hkey

/-- A written edge is found at one place in both directions, the others where they were. -/
theorem Written.edgeOut_of_edgeIn {id : EdgeId}
    (h : w.1 = .edge id ∨ (s.indexes.edgeIn id = some location →
      s.indexes.edgeOut id = some location))
    (hin : s'.indexes.edgeIn id = some location) : s'.indexes.edgeOut id = some location := by
  have hout : s'.indexes.edgeOut id = _ := hw.location (.edge id)
  rw [hw.edgeIn] at hin
  rw [hout]
  split_ifs at hin ⊢ with heq
  · exact hin
  · exact h.resolve_left (Ne.symm heq) hin

theorem Written.heapLe (hfresh : s.heap fresh = none) : HeapLe s.heap s'.heap := by
  rw [hw.heap]
  rcases w with ⟨key, _ | record⟩
  · exact .refl _
  · exact heapLe_append hfresh

theorem Written.spec (h : s.WellPointed) (hfresh : s.heap fresh = none)
    (hof : ∀ record ∈ w.2, LiveKey.of record = w.1) :
    s'.WellPointed ∧ s'.view = write s.view w := by
  have hself : ∀ record ∈ w.2, s'.heap fresh = some record := by
    rintro record hrecord
    rw [hw.heap, Option.mem_def.1 hrecord]
    exact update_self ..
  have hold (k : LiveKey) (location : RecordLocation)
      (hk : k.currentLocation s.indexes = some location) : s'.heap location = s.heap location := by
    obtain ⟨record, hrecord, -⟩ := h k location hk
    rw [hrecord, hw.heapLe hfresh location record hrecord]
  refine ⟨fun k location hk => ?_, funext fun k => ?_⟩
  · rw [hw.location] at hk
    split_ifs at hk with heq
    · obtain ⟨record, hrecord, rfl⟩ := Option.map_eq_some_iff.1 hk
      exact ⟨record, hself record hrecord, (hof record hrecord).trans heq.symm⟩
    · rw [hold k location hk]
      exact h k location hk
  · rw [write, update_apply, view, view, hw.location]
    split_ifs
    · rcases hslot : w.2 with _ | record
      · rfl
      · exact hself record hslot
    · rcases hk : k.currentLocation s.indexes with _ | location
      · rfl
      · exact hold k location hk

end Written

/-! ## Operations -/

/-- Every lookup answers what the storage's view holds under the key. -/
theorem WellPointed.findRecord_eq (h : s.WellPointed) (key : LiveKey) :
    s.findRecord key = .ok (s.view key) := by
  rw [view]
  rcases hk : key.currentLocation s.indexes with _ | location
  · cases key <;> rw [LiveKey.currentLocation] at hk <;>
      simp [findRecord, findNode, findEdge, findHistory, hk, Except.map]
  · obtain ⟨record, hrecord, rfl⟩ := h key location hk
    cases record <;> rw [LiveKey.of, LiveKey.currentLocation] at hk <;>
      simp [LiveKey.of, findRecord, findNode, findEdge, findHistory, nodeAt, edgeAt, historyAt, read,
        hk, hrecord, Except.map]

/-- The reads give what the view holds. -/
theorem WellPointed.findNode_eq (h : s.WellPointed) (address : String) :
    (s.findNode address).map (Option.map .node) = .ok (s.view (.node address)) :=
  h.findRecord_eq (.node address)

theorem map_injective {α β ε : Type} {g : α → β} (hg : Function.Injective g) {x y : Except ε α}
    (h : x.map g = y.map g) : x = y := by
  cases x <;> cases y
  · exact congrArg Except.error (Except.error.inj h)
  · cases h
  · cases h
  · exact congrArg Except.ok (hg (Except.ok.inj h))

theorem findRecord_congr (h : s.WellPointed) (h' : s'.WellPointed) (hview : s.view = s'.view)
    (key : LiveKey) : s.findRecord key = s'.findRecord key := by
  rw [h.findRecord_eq, h'.findRecord_eq, hview]

/-- What is read depends on the view only. -/
theorem findNode_congr (h : s.WellPointed) (h' : s'.WellPointed) (hview : s.view = s'.view)
    (address : String) : s.findNode address = s'.findNode address :=
  map_injective (Option.map_injective fun _ _ => HeapRecord.node.inj)
    (findRecord_congr h h' hview (.node address))

theorem findEdge_congr (h : s.WellPointed) (h' : s'.WellPointed) (hview : s.view = s'.view)
    (id : EdgeId) : s.findEdge id = s'.findEdge id :=
  map_injective (Option.map_injective fun _ _ => HeapRecord.edge.inj)
    (findRecord_congr h h' hview (.edge id))

theorem findHistory_congr (h : s.WellPointed) (h' : s'.WellPointed) (hview : s.view = s'.view)
    (address : String) (version : Nat) :
    s.findHistory address version = s'.findHistory address version :=
  map_injective (Option.map_injective fun _ _ => HeapRecord.history.inj)
    (findRecord_congr h h' hview (.history address version))

/-- The node that an address names can be read. -/
theorem WellPointed.findNode (h : s.WellPointed) (address : String) :
    ∃ previous, s.findNode address = .ok previous := by
  have heq := h.findNode_eq address
  rcases hfind : s.findNode address with e | previous
  · rw [hfind] at heq
    cases heq
  · exact ⟨previous, rfl⟩

theorem applyOperation_written (happly : applyOperation fresh s op = .ok s') :
    Written fresh s s' op.toWrite := by
  cases op with
  | archive entry | insertEdge edge =>
    cases happly
    exact written_repoint s fresh _ _
  | insert node =>
    rw [applyOperation] at happly
    split at happly <;> cases happly
    obtain ⟨hheap, hlocation, hin⟩ := written_repoint s fresh (.node node.address) (.node node)
    refine ⟨hheap, fun k => Eq.trans ?_ (hlocation k), hin⟩
    cases k <;> rfl
  | delete address =>
    rw [applyOperation] at happly
    split at happly <;> cases happly
    · rename_i hnone
      refine ⟨rfl, fun k => ?_, fun _ => rfl⟩
      split_ifs with hk
      · subst hk
        rw [findNode] at hnone
        split at hnone
        · rename_i location _
          cases hnode : s.nodeAt location <;> rw [hnode] at hnone <;> cases hnone
        · assumption
      · rfl
    · refine ⟨rfl, fun k => ?_, fun _ => rfl⟩
      cases k <;> simp [LiveKey.currentLocation, Operation.toWrite, update_apply]
  | deleteEdge id =>
    cases happly
    refine ⟨rfl, fun k => ?_, fun _ => ?_⟩
    · cases k <;> simp [LiveKey.currentLocation, Operation.toWrite, update_apply]
    · simp [Operation.toWrite, update_apply]

theorem applyOperation_heap (h : applyOperation fresh s op = .ok s') :
    s'.heap = s.heap ∨ ∃ record, s'.heap = update s.heap fresh (some record) := by
  rw [(applyOperation_written h).heap]
  rcases op.toWrite.2 with _ | record
  · exact .inl rfl
  · exact .inr ⟨record, rfl⟩

/-- An operation is one write to the view. -/
theorem applyOperation_spec (h : s.WellPointed) (hfresh : s.heap fresh = none) (op : Operation) :
    ∃ s', applyOperation fresh s op = .ok s' ∧ s'.WellPointed ∧ s'.view = write s.view op.toWrite ∧
      HeapLe s.heap s'.heap ∧ ∀ location, s'.heap location ≠ none →
        s.heap location ≠ none ∨ location = fresh := by
  obtain ⟨s', happly⟩ : ∃ s', applyOperation fresh s op = .ok s' := by
    cases op with
    | archive entry | insertEdge edge | deleteEdge id => exact ⟨_, rfl⟩
    | insert node =>
      obtain ⟨previous, hprevious⟩ := h.findNode node.address
      exact ⟨_, by rw [applyOperation, hprevious]⟩
    | delete address =>
      obtain ⟨_ | node, hprevious⟩ := h.findNode address
      · exact ⟨_, by rw [applyOperation, hprevious]⟩
      · exact ⟨_, by rw [applyOperation, hprevious]⟩
  have hw := applyOperation_written happly
  obtain ⟨hwell, hview⟩ := hw.spec h hfresh (by cases op <;> rintro record ⟨⟩ <;> rfl)
  exact ⟨s', happly, hwell, hview, hw.heapLe hfresh, fun _ => hw.mem_heap⟩

/-- Moving a record changes nothing in the view. -/
theorem relocate_spec (h : s.WellPointed) (hfresh : s.heap fresh = none)
    (hrecord : s.heap location = some record)
    (hlive : (LiveKey.of record).currentLocation s.indexes = some location) :
    (s.relocate fresh record).WellPointed ∧ (s.relocate fresh record).view = s.view ∧
      HeapLe s.heap (s.relocate fresh record).heap := by
  obtain ⟨hwell, hview⟩ := (written_repoint s fresh (LiveKey.of record) record).spec h hfresh
    fun _ heq => Option.some.inj heq ▸ rfl
  refine ⟨hwell, hview.trans ?_, heapLe_append hfresh⟩
  have hself : some record = s.view (LiveKey.of record) := by rw [view, hlive, Option.bind_some, hrecord]
  rw [write]
  exact (congrArg (update s.view (LiveKey.of record)) hself).trans (update_eq_self _ _)

end Storage

end FacetQL
