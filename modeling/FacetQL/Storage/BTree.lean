import FacetQL.Storage.Pager

/-!
# The copy-on-write B+tree

The operations of `storage/btree.rs`, as programs over the calls of the pager.
Two meta pages alternate as the committed root of the tree; a page that belongs
to the committed tree is never written in place but copied, and released to the
free list under the generation that stopped using it.
A recursion of the source carries a depth and gives up at `maxTreeDepth`; here
it carries the number of levels that are left.
-/

namespace FacetQL

namespace BTree

/-- The longest key a tree accepts. -/
def maxKeyLen : Nat := 1024

/-- The longest value a tree accepts. -/
def maxValueLen : Nat := 4096

/-- How many reclaimable pages the free list remembers. -/
def maxFreeEntries : Nat := 1024

/-- The meta page of the even generations. -/
def metaA : PageId := 0

/-- The meta page of the odd generations. -/
def metaB : PageId := 1

/-- The first page that is not a meta page. -/
def firstDataPage : PageId := 2

/-- How many levels a descent follows before it takes the tree to be damaged. -/
def maxTreeDepth : Nat := 64

/-- The error of a descent that does not end. -/
def descentTooDeep (operation : String) : IoError :=
  ⟨.invalidData, "tree " ++ operation ++ " exceeded " ++ toString maxTreeDepth ++
    " levels — a B+tree this deep cannot be built by any legitimate insert, so the index holds a " ++
    "cyclic or otherwise impossible child pointer. The index is derived state and can be rebuilt " ++
    "from the record heap, which is the authoritative copy."⟩

/-- The error of an operation that meets a meta page inside the tree. -/
def reachedMeta (operation : String) : IoError :=
  ⟨.invalidData, "tree " ++ operation ++ " reached a Meta page"⟩

/-- Which neighbour of a key a seek looks for. -/
inductive SeekMode
  | ge
  | gt
  | le
  | lt
  deriving DecidableEq, Repr

/-! ## Cells -/

/-- The child of a branch at a slot: the extra word for the first one, a cell for the others. -/
def branchChildAt (extra : PageId) (cells : List BranchCell) (slot : Nat) : PageId :=
  if slot = 0 then extra else ((cells[slot - 1]?).map BranchCell.child).getD 0

/-- The slot of the child a key belongs to: past every separator not above the key. -/
def branchSlotFor (cells : List BranchCell) (key : Bytes) : Nat :=
  (cells.takeWhile fun c => c.key ≤ key).length

/-- The slot and the child a key belongs to. -/
def branchChildFor (extra : PageId) (cells : List BranchCell) (key : Bytes) : Nat × PageId :=
  (branchSlotFor cells key, branchChildAt extra cells (branchSlotFor cells key))

/-- Redirect the child at slot `slot`. -/
def setBranchChild (extra : PageId) (cells : List BranchCell) (slot : Nat) (child : PageId) :
    PageId × List BranchCell :=
  if slot = 0 then (child, cells)
  else match cells[slot - 1]? with
    | none => (extra, cells)
    | some cell => (extra, (Page.replaceCell BranchCell.len cells (slot - 1) ⟨cell.key, child⟩).2)

/-- The binary search in a leaf. Each turn shortens the interval, which bounds the turns. -/
def leafSearchLoop (cells : List LeafCell) (key : Bytes) : (turns low high : Nat) → Nat × Bool
  | 0, low, _ => (low, false)
  | turns + 1, low, high =>
    if low < high then
      match cells[(low + high) / 2]? with
      | none => (low, false)
      | some cell =>
        if cell.key < key then leafSearchLoop cells key turns ((low + high) / 2 + 1) high
        else if key < cell.key then leafSearchLoop cells key turns low ((low + high) / 2)
        else ((low + high) / 2, true)
    else (low, false)

/-- Where a key stands in a leaf, or would stand, and whether it is there. -/
def leafSearch (cells : List LeafCell) (key : Bytes) : Nat × Bool :=
  leafSearchLoop cells key cells.length 0 cells.length

/-- The least byte string above all that start with `pre`, if there is one; last byte first. -/
def upperBoundRev : List Byte → Option (List Byte)
  | [] => none
  | last :: rest => if last ≠ 255 then some ((last + 1) :: rest) else upperBoundRev rest

/-- The least key above all keys with a prefix. -/
def prefixUpperBound (pre : Bytes) : Option Bytes :=
  (upperBoundRev pre.reverse).map List.reverse

end BTree

/-! ## The free list -/

namespace TreeState

/-- The generation the writes belong to, until the next commit. -/
def building (s : TreeState) : Nat := s.generation + 1

/-- The oldest generation a live snapshot has pinned. -/
def oldestReader (s : TreeState) : Option Nat := s.readers.min?

/-- A released page is handed out two generations later, when no live snapshot is older. -/
def Reusable (s : TreeState) (e : FreeEntry) : Prop :=
  e.generation + 2 ≤ s.building ∧ ∀ pinned ∈ s.oldestReader, e.generation ≤ pinned

instance (s : TreeState) (e : FreeEntry) : Decidable (s.Reusable e) :=
  inferInstanceAs (Decidable (_ ∧ _))

/-- The free list without the entry at `index`, the last entry in its place. -/
def swapRemove (free : List FreeEntry) (index : Nat) : List FreeEntry :=
  match free.getLast? with
  | none => []
  | some last => (free.set index last).dropLast

/-- Take the first reusable page off the free list. -/
def takeFree (s : TreeState) : Option (PageId × TreeState) :=
  match s.free.findIdx? (fun e => s.Reusable e) with
  | none => none
  | some index =>
    (s.free[index]?).map fun e => (e.page, { s with free := swapRemove s.free index })

/-- Remember a page that is no longer used. A full list forgets it: the page is leaked. -/
def release (s : TreeState) (page : PageId) : TreeState :=
  if BTree.maxFreeEntries ≤ s.free.length then s
  else { s with free := s.free ++ [⟨s.building, page⟩] }

/-- Note that a page belongs to the generation being built. -/
def markDirty (s : TreeState) (page : PageId) : TreeState :=
  { s with dirty := insert page s.dirty }

end TreeState

namespace BTree

/-- A page for the generation being built: a reusable one, or a new one. -/
def allocate : TreeProgram PageId := do
  let s ← perform .state
  match s.takeFree with
  | some (page, s') => do
    perform (.setState s')
    return page
  | none => perform .allocate

/-- Give a page up: it is reused after the generations that read it. -/
def release (page : PageId) : TreeProgram Unit := modifyState (·.release page)

/-- The page belongs to the generation being built. -/
def markDirty (page : PageId) : TreeProgram Unit := modifyState (·.markDirty page)

/-- The page to change for `id`, and its contents: itself if it is dirty, and a new page
    otherwise. -/
def cow (id : PageId) : TreeProgram (PageId × TreePage) := do
  let page ← readPage id
  let s ← perform .state
  if id ∈ s.dirty then return (id, page)
  let fresh ← allocate
  markDirty fresh
  release id
  return (fresh, page)

/-- The cells of a page taken to be a leaf, as `page_cells` reads them. -/
abbrev leafCells : TreePage → List LeafCell
  | .leaf cells => cells
  | _ => []

/-- The extra word and the cells of a page taken to be a branch. -/
abbrev branchCells : TreePage → PageId × List BranchCell
  | .branch extra cells => (extra, cells)
  | _ => (0, [])

/-! ## Reading -/

/-- The leaf a key belongs to, under the page `id`. -/
def descend : (levels : Nat) → (id : PageId) → (key : Bytes) → TreeProgram PageId
  | 0, _, _ => .fail (descentTooDeep "descent")
  | levels + 1, id, key => do
    match ← readPage id with
    | .leaf _ => return id
    | .branch extra cells => descend levels (branchChildFor extra cells key).2 key
    | .metaPage _ => .fail (reachedMeta "descent")

/-- The value under a key in the tree of root `root`. -/
def getAt (root : PageId) (key : Bytes) : TreeProgram (Option Bytes) := do
  let leaf ← descend maxTreeDepth root key
  let page ← readPage leaf
  match leafSearch (leafCells page) key with
  | (index, true) => return ((leafCells page)[index]?).map LeafCell.value
  | (_, false) => return none

/-- The first entry that one of the children yields. -/
def firstEntry (entry : PageId → TreeProgram (Option (Bytes × Bytes))) :
    List PageId → TreeProgram (Option (Bytes × Bytes))
  | [] => return none
  | child :: children => do
    match ← entry child with
    | some e => return some e
    | none => firstEntry entry children

/-- The first or the last entry under a page. A child without entries is passed over. -/
def edgeEntry (first : Bool) : (levels : Nat) → (id : PageId) → TreeProgram (Option (Bytes × Bytes))
  | 0, _ => .fail (descentTooDeep "walk")
  | levels + 1, id => do
    match ← readPage id with
    | .leaf cells => return (if first then cells.head? else cells.getLast?).map LeafCell.entry
    | .branch extra cells =>
      let children := extra :: cells.map BranchCell.child
      firstEntry (edgeEntry first levels) (if first then children else children.reverse)
    | .metaPage _ => .fail (reachedMeta "walk")

/-- The leaf a seek starts from, and the branches above it with the slots taken, lowest first. -/
def seekLeaf : (levels : Nat) → (id : PageId) → (key : Bytes) → (path : List (PageId × Nat)) →
    TreeProgram (List LeafCell × List (PageId × Nat))
  | 0, _, _, _ => .fail (descentTooDeep "seek")
  | levels + 1, id, key, path => do
    match ← readPage id with
    | .leaf cells => return (cells, path)
    | .branch extra cells =>
      seekLeaf levels (branchChildFor extra cells key).2 key
        ((id, (branchChildFor extra cells key).1) :: path)
    | .metaPage _ => .fail (reachedMeta "seek")

/-- The slot of the neighbour of a key in its own leaf, if it is there. -/
def seekCandidate (cells : List LeafCell) (key : Bytes) (mode : SeekMode) : Option Nat :=
  match leafSearch cells key, mode with
  | (index, _), .ge => if index < cells.length then some index else none
  | (index, found), .gt =>
    let start := if found then index + 1 else index
    if start < cells.length then some start else none
  | (index, found), .le =>
    if found then some index else if 0 < index then some (index - 1) else none
  | (index, _), .lt => if 0 < index then some (index - 1) else none

/-- Whether a seek looks upward from its key. -/
def SeekMode.forward : SeekMode → Bool
  | .ge | .gt => true
  | .le | .lt => false

/-- Walk back up and take the nearest entry of the nearest subtree on the side of the seek. -/
def seekUp (forward : Bool) : List (PageId × Nat) → TreeProgram (Option (Bytes × Bytes))
  | [] => return none
  | (branch, slot) :: path => do
    let (extra, cells) := branchCells (← readPage branch)
    if forward then
      if slot < cells.length then
        if let some e ← edgeEntry true maxTreeDepth (branchChildAt extra cells (slot + 1)) then
          return some e
    else if 0 < slot then
      if let some e ← edgeEntry false maxTreeDepth (branchChildAt extra cells (slot - 1)) then
        return some e
    seekUp forward path

/-- The nearest entry to a key in the tree of root `root`. -/
def seekAt (root : PageId) (key : Bytes) (mode : SeekMode) :
    TreeProgram (Option (Bytes × Bytes)) := do
  let (cells, path) ← seekLeaf maxTreeDepth root key []
  match (seekCandidate cells key mode).bind (cells[·]?) with
  | some cell => return some cell.entry
  | none => seekUp mode.forward path

/-- The next entry of a range: past the cursor, or at the edge when there is none yet. -/
def nextInRange (root : PageId) (pre : Bytes) (reverse : Bool) (cursor : Option Bytes) :
    TreeProgram (Option (Bytes × Bytes)) :=
  match reverse, cursor with
  | true, some key => seekAt root key .lt
  | true, none =>
    match prefixUpperBound pre with
    | some bound => seekAt root bound .lt
    | none => edgeEntry false maxTreeDepth root
  | false, some key => seekAt root key .gt
  | false, none => seekAt root pre .ge

/-- Visit the entries with the prefix past the cursor until the visitor, with its state `β`,
    declines; `none` when they outnumber `turns`. -/
def forEachRangeAt {β : Type} (visit : Bytes → Bytes → β → Except IoError (Bool × β))
    (root : PageId) (pre : Bytes) (reverse : Bool) :
    (turns : Nat) → (cursor : Option Bytes) → β → TreeProgram (Option β)
  | 0, _, _ => return none
  | turns + 1, cursor, b => do
    match ← nextInRange root pre reverse cursor with
    | none => return some b
    | some (key, value) =>
      if ¬ pre <+: key then return some b
      let (more, b') ← .ofExcept (visit key value b)
      if more then forEachRangeAt visit root pre reverse turns (some key) b'
      else return some b'

/-- A pinned generation, and the root the tree had when it was taken. -/
structure Snapshot where
  generation : Nat
  root : PageId
  deriving DecidableEq, Repr

/-- Pin the current generation and root of the tree. -/
def snapshot : TreeProgram Snapshot := withLock do
  let s ← perform .state
  perform (.setState { s with readers := s.generation :: s.readers })
  return ⟨s.generation, s.root⟩

/-- Unpin the generation of a snapshot. -/
def releaseSnapshot (generation : Nat) : TreeProgram Unit :=
  withLock (modifyState fun s => { s with readers := s.readers.erase generation })

/-- Read through a snapshot that is dropped at the end, however the read ends. -/
def withSnapshot {α : Type} (read : PageId → TreeProgram α) : TreeProgram α := do
  let snap ← snapshot
  let r ← (read snap.root).attempt
  releaseSnapshot snap.generation
  .ofExcept r

/-- The value under a key. -/
def get (key : Bytes) : TreeProgram (Option Bytes) := withSnapshot (getAt · key)

/-- The entry nearest to a key. -/
def seek (key : Bytes) (mode : SeekMode) : TreeProgram (Option (Bytes × Bytes)) :=
  withSnapshot (seekAt · key mode)

/-- Visit the entries with a prefix, in order. -/
def forEachRange {β : Type} (visit : Bytes → Bytes → β → Except IoError (Bool × β)) (pre : Bytes)
    (startAfter : Option Bytes) (reverse : Bool) (turns : Nat) (b : β) : TreeProgram (Option β) :=
  withSnapshot fun root => forEachRangeAt visit root pre reverse turns startAfter b

/-- The number of entries. -/
def len : TreeProgram Nat := withLock do
  let s ← perform .state
  return s.entries

/-! ## Changing -/

/-- What an insert made of a page: another one, or two and the separator between them. -/
inductive Insert
  | kept (page : PageId)
  | split (left : PageId) (separator : Bytes) (right : PageId)
  deriving DecidableEq, Repr

/-- The cells of a page rebuilt from a list that must fit. -/
def rebuild {α : Type} (len : α → Nat) (cells : List α) : TreeProgram (List α) :=
  match Page.buildPage len cells with
  | some cells => return cells
  | none => .fail ⟨.other, "rebuilt page overflowed while being filled"⟩

/-- Cut an overfull leaf: the upper half goes to a new page, and its first key separates them. -/
def splitLeaf (id : PageId) (cells : List LeafCell) : TreeProgram Insert := do
  match Page.splitPoint LeafCell.len cells with
  | none => .fail ⟨.other, "leaf page cannot be split"⟩
  | some point =>
    let separator := ((cells[point]?).map LeafCell.key).getD []
    let left ← rebuild LeafCell.len (cells.take point)
    let right ← rebuild LeafCell.len (cells.drop point)
    let rightId ← allocate
    markDirty rightId
    writePage id (.leaf left)
    writePage rightId (.leaf right)
    return .split id separator rightId

/-- Insert into a leaf, in the page when there is room, otherwise by cutting it in two. -/
def insertIntoLeaf (pageId : PageId) (key value : Bytes) : TreeProgram Insert := do
  let (id, page) ← cow pageId
  let cells := leafCells page
  let cell : LeafCell := ⟨key, value⟩
  match leafSearch cells key with
  | (index, true) =>
    let oldLen := ((cells[index]?).map LeafCell.len).getD 0
    if cell.len ≤ Page.reclaimableSpace LeafCell.len cells + oldLen then
      writePage id (.leaf (Page.replaceCell LeafCell.len cells index cell).2)
      return .kept id
    else splitLeaf id (cells.set index cell)
  | (index, false) =>
    if cell.len + slotLen ≤ Page.reclaimableSpace LeafCell.len cells then
      writePage id (.leaf ((Page.insertCell LeafCell.len cells index cell).getD cells))
      return .kept id
    else splitLeaf id (cells.take index ++ cell :: cells.drop index)

/-- Cut an overfull branch: the separator at the cut moves up, its child starts the new page. -/
def splitBranch (id : PageId) (extra : PageId) (cells : List BranchCell) :
    TreeProgram Insert := do
  match Page.splitPoint BranchCell.len cells with
  | none => .fail ⟨.other, "branch page cannot be split"⟩
  | some point =>
    let promoted := ((cells[point]?).map BranchCell.key).getD []
    let rightLeftmost := ((cells[point]?).map BranchCell.child).getD 0
    let left ← rebuild BranchCell.len (cells.take point)
    let right ← rebuild BranchCell.len (cells.drop (point + 1))
    let rightId ← allocate
    markDirty rightId
    writePage id (.branch extra left)
    writePage rightId (.branch rightLeftmost right)
    return .split id promoted rightId

/-- Put what an insert made of a child in its place, in a copy unless the child has stayed. -/
def replaceChild (pageId : PageId) (slot : Nat) (child : PageId) :
    Insert → TreeProgram Insert
  | .kept newChild => do
    if newChild = child then return .kept pageId
    let (id, page) ← cow pageId
    let (extra, cells) := branchCells page
    let (extra, cells) := setBranchChild extra cells slot newChild
    writePage id (.branch extra cells)
    return .kept id
  | .split left separator right => do
    let (id, page) ← cow pageId
    let (extra, cells) := branchCells page
    let (extra, cells) := setBranchChild extra cells slot left
    let cell : BranchCell := ⟨separator, right⟩
    if cell.len + slotLen ≤ Page.reclaimableSpace BranchCell.len cells then
      writePage id (.branch extra ((Page.insertCell BranchCell.len cells slot cell).getD cells))
      return .kept id
    else splitBranch id extra (cells.take slot ++ cell :: cells.drop slot)

/-- Insert below the child the key belongs to, and into the branch what has changed of it. -/
def insertIntoBranch (insertInto : PageId → TreeProgram Insert) (pageId : PageId) (key : Bytes) :
    TreeProgram Insert := do
  let (extra, cells) := branchCells (← readPage pageId)
  let (slot, child) := branchChildFor extra cells key
  replaceChild pageId slot child (← insertInto child)

/-- Insert below the page `pageId`. -/
def insertInto (key value : Bytes) : (levels : Nat) → (pageId : PageId) → TreeProgram Insert
  | 0, _ => .fail (descentTooDeep "insert")
  | levels + 1, pageId => do
    match ← readPage pageId with
    | .leaf _ => insertIntoLeaf pageId key value
    | .branch _ _ => insertIntoBranch (insertInto key value levels) pageId key
    | .metaPage _ => .fail (reachedMeta "insert")

/-- Publish what the insert made of the root: a cut root gets a branch above it. -/
def installRoot : Insert → TreeProgram Unit
  | .kept page => modifyState fun s => { s with root := page }
  | .split left separator right =>
    match Page.insertCell BranchCell.len [] 0 ⟨separator, right⟩ with
    | none => .fail ⟨.other, "separator key does not fit in a fresh root page"⟩
    | some cells => do
      let id ← allocate
      markDirty id
      writePage id (.branch left cells)
      modifyState fun s => { s with root := id }

/-- Put a value under a key. -/
def put (key value : Bytes) : TreeProgram Unit := do
  if key = [] ∨ maxKeyLen < key.length then
    .fail ⟨.invalidInput, "index key is " ++ toString key.length ++ " bytes; must be 1..=" ++
      toString maxKeyLen⟩
  else if maxValueLen < value.length then
    .fail ⟨.invalidInput, "index value is " ++ toString value.length ++ " bytes; must be at most " ++
      toString maxValueLen⟩
  else
    let existed := (← get key).isSome
    withLock do
      let s ← perform .state
      installRoot (← insertInto key value maxTreeDepth s.root)
      if ¬ existed then modifyState fun s => { s with entries := s.entries + 1 }

/-- What a removal made of a page. -/
structure Removal where
  page : PageId
  removed : Bool
  empty : Bool
  deriving DecidableEq, Repr

/-- A branch without a child. The first one gives its place to the second one. -/
def dropChild (extra : PageId) (cells : List BranchCell) (slot : Nat) : PageId × List BranchCell :=
  if slot = 0 then (branchChildAt extra cells 1, Page.removeCell cells 0)
  else (extra, Page.removeCell cells (slot - 1))

/-- Put what a removal made of a child in its place, in a copy. An empty child is dropped, and a
    branch without children is empty itself. -/
def updateChild (pageId : PageId) (slot : Nat) (outcome : Removal) : TreeProgram Removal := do
  let (id, page) ← cow pageId
  let (extra, cells) := branchCells page
  if outcome.empty then
    release outcome.page
    if slot = 0 ∧ cells = [] then
      writePage id (.branch extra cells)
      return ⟨id, true, true⟩
    let (extra, cells) := dropChild extra cells slot
    writePage id (.branch extra cells)
    return ⟨id, true, false⟩
  else
    let (extra, cells) := setBranchChild extra cells slot outcome.page
    writePage id (.branch extra cells)
    return ⟨id, true, false⟩

/-- Remove a key below the page `pageId`. -/
def removeFrom (key : Bytes) : (levels : Nat) → (pageId : PageId) → TreeProgram Removal
  | 0, _ => .fail (descentTooDeep "remove")
  | levels + 1, pageId => do
    match ← readPage pageId with
    | .leaf cells =>
      match leafSearch cells key with
      | (_, false) => return ⟨pageId, false, false⟩
      | (index, true) =>
        let (id, page) ← cow pageId
        let cells := Page.removeCell (leafCells page) index
        writePage id (.leaf cells)
        return ⟨id, true, cells.isEmpty⟩
    | .branch extra cells =>
      let (slot, child) := branchChildFor extra cells key
      let outcome ← removeFrom key levels child
      if ¬ outcome.removed then return ⟨pageId, false, false⟩
      else updateChild pageId slot outcome
    | .metaPage _ => .fail (reachedMeta "remove")

/-- While the root is a branch with a single child, that child is the root. -/
def collapseRoot : (turns : Nat) → TreeProgram Unit
  | 0 => return ()
  | turns + 1 => do
    let s ← perform .state
    match ← readPage s.root with
    | .branch child [] =>
      release s.root
      modifyState fun s => { s with root := child }
      collapseRoot turns
    | _ => return ()

/-- Remove a key, and say whether it was there. -/
def remove (key : Bytes) : TreeProgram Bool := withLock do
  let s ← perform .state
  let outcome ← removeFrom key maxTreeDepth s.root
  if ¬ outcome.removed then return false
  modifyState fun s => { s with root := outcome.page, entries := s.entries - 1 }
  collapseRoot maxTreeDepth
  return true

/-! ## Committing and opening -/

/-- The bytes of an encoded meta record. -/
def metaLen (record : MetaState) : Nat := 4 + 8 + 4 + 8 + 4 + 2 + record.free.length * 12

/-- What of a meta record its encoding keeps: the free list up to its bound. -/
def encodeMeta (record : MetaState) : MetaState :=
  { record with free := record.free.take maxFreeEntries }

/-- Publish the generation being built: its pages, then the meta page of its parity. -/
def commit : TreeProgram Unit := withLock do
  let s ← perform .state
  perform .flush
  let generation := s.building
  let highWater ← perform .pageCount
  let record : MetaState :=
    { generation, root := s.root, entries := s.entries, highWater, free := s.free }
  match Page.pushCell metaLen [] (encodeMeta record) with
  | none =>
    -- The free list has been moved into the record that did not fit.
    perform (.setState { s with free := [] })
    .fail ⟨.other, "index meta does not fit in one page"⟩
  | some _ =>
    let slot := if generation % 2 = 0 then metaA else metaB
    writePage slot (.metaPage (encodeMeta record))
    perform .flush
    perform (.setState { s with generation, dirty := ∅ })

/-- The meta record of a slot, if the slot can be read and holds one. -/
def readMeta (slot : PageId) : TreeProgram (Option MetaState) := do
  match ← (readPage slot).attempt with
  | .ok (.metaPage record) => return some record
  | _ => return none

/-- Start a tree in an empty file: one empty leaf, committed. -/
def startTree : TreeProgram Unit := do
  perform (.setPageCount 0)
  let _ ← perform .allocate
  let _ ← perform .allocate
  let _ ← perform .allocate
  writePage firstDataPage (.leaf [])
  perform (.setState ⟨0, firstDataPage, 0, [], ∅, []⟩)
  commit

/-- The newer of the readable meta records. -/
def chooseMeta : Option MetaState → Option MetaState → Option MetaState
  | some a, some b => if b.generation ≤ a.generation then some a else some b
  | some a, none => some a
  | none, b => b

/-- Open a tree: the newest generation whose meta page can be read. -/
def openTree (path : String) : TreeProgram Unit := do
  if (← perform .pageCount) < firstDataPage then startTree
  else
    let a ← readMeta metaA
    let b ← readMeta metaB
    match chooseMeta a b with
    | none => .fail ⟨.invalidData, "index " ++ path ++ " has no readable meta page — both " ++
        "generations failed validation. The index can be rebuilt from the record heap, which is " ++
        "the authoritative copy."⟩
    | some record =>
      perform (.setPageCount record.highWater)
      perform (.setState
        ⟨record.generation, record.root, record.entries, record.free, ∅, []⟩)

end BTree

end FacetQL
