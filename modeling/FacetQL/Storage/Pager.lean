import FacetQL.Lib.Program
import FacetQL.Storage.Page

/-!
# The pages of a tree file

The pages a B+tree is made of and the buffer pool they are read and written
through (`storage/pager.rs`), together with the state the tree keeps beside the
file (`TreeState` in `storage/btree.rs`).

A `Pager` has the pages the disk is known to hold since the last fsync, and the
writes made after it, newest first. A read finds the newest write, and goes to
the disk when there is none. Which of the pending writes an eviction has already
sent to the file is left open: it makes no difference to a read, and what it
means for a crash is said where crashes are.

The operations of the tree are programs (`Program`) over the calls of `PagerOp`.
-/

namespace FacetQL

/-- A page number. -/
abbrev PageId := Nat

/-- One entry of a leaf: a key and its value. -/
structure LeafCell where
  key : Bytes
  value : Bytes
  deriving DecidableEq, Repr

/-- The bytes of a leaf cell: the key length, the key and the value. -/
def LeafCell.len (c : LeafCell) : Nat := 2 + c.key.length + c.value.length

/-- The entry a leaf cell holds. -/
def LeafCell.entry (c : LeafCell) : Bytes × Bytes := (c.key, c.value)

/-- One separator of a branch: the least key of the child to its right. -/
structure BranchCell where
  key : Bytes
  child : PageId
  deriving DecidableEq, Repr

/-- The bytes of a branch cell: the key length, the child and the key. -/
def BranchCell.len (c : BranchCell) : Nat := 6 + c.key.length

/-- A page that the tree of generation `generation` does not use any more. -/
structure FreeEntry where
  generation : Nat
  page : PageId
  deriving DecidableEq, Repr

/-- What a meta page records of a committed generation. -/
structure MetaState where
  generation : Nat
  root : PageId
  entries : Nat
  highWater : Nat
  free : List FreeEntry
  deriving DecidableEq, Repr

/-- A page of a tree file. The first child of a branch stands in the extra word. -/
inductive TreePage
  | metaPage (record : MetaState)
  | leaf (cells : List LeafCell)
  | branch (extra : PageId) (cells : List BranchCell)
  deriving DecidableEq, Repr

/-- A paged file and its buffer pool. -/
structure Pager where
  path : String
  pageCount : Nat
  disk : PageId → Option TreePage
  pending : List (PageId × TreePage)

namespace Pager

/-- The newest contents of a page, if the file has any that can be read. -/
def page? (p : Pager) (id : PageId) : Option TreePage :=
  match p.pending.lookup id with
  | some page => some page
  | none => if id < p.pageCount then p.disk id else none

/-- Read a page, from the cache or from disk. -/
def read (p : Pager) (id : PageId) : Except IoError TreePage :=
  match p.pending.lookup id with
  | some page => .ok page
  | none =>
    if p.pageCount ≤ id then
      .error ⟨.invalidInput, "page " ++ toString id ++ " is past the end of " ++ p.path ++ " (" ++
        toString p.pageCount ++ " pages)"⟩
    else match p.disk id with
      | some page => .ok page
      | none => .error ⟨.invalidData, "failed to decrypt page " ++ toString id ++ " of " ++ p.path ++
          " — wrong FACETQL_MASTER_KEY, or the page is damaged"⟩

/-- Install a page as the current contents of `id`, dirty. -/
def write (p : Pager) (id : PageId) (page : TreePage) : Pager :=
  { p with pageCount := max p.pageCount (id + 1), pending := (id, page) :: p.pending }

/-- Write every dirty page and fsync the file. -/
def flush (p : Pager) : Pager :=
  { p with
    disk := fun id => (p.pending.lookup id).or (p.disk id)
    pending := [] }

end Pager

/-- What a tree keeps beside its file: `dirty` pages are written in place, and `readers` are the
    generations pinned by snapshots. -/
structure TreeState where
  generation : Nat
  root : PageId
  entries : Nat
  free : List FreeEntry
  dirty : Finset PageId
  readers : List Nat
  deriving DecidableEq

/-- An open tree: its pager and its state. -/
structure Machine where
  pager : Pager
  state : TreeState

/-- The tree after a write of a page. -/
def Machine.written (m : Machine) (id : PageId) (page : TreePage) : Machine :=
  { m with pager := m.pager.write id page }

/-- The calls the operations of a tree are made of. -/
inductive PagerOp
  | read (id : PageId)
  | write (id : PageId) (page : TreePage)
  | allocate
  | pageCount
  | setPageCount (pages : Nat)
  | flush
  | state
  | setState (state : TreeState)
  | lock
  | unlock

/-- What a call of the pager answers. -/
@[reducible] def PagerOp.Answer : PagerOp → Type
  | read _ => Except IoError TreePage
  | write _ _ => Unit
  | allocate => PageId
  | pageCount => Nat
  | setPageCount _ => Unit
  | flush => Unit
  | state => TreeState
  | setState _ => Unit
  | lock => Unit
  | unlock => Unit

/-- How an open tree answers a call, with page ids without a bound and no failing I/O. -/
def Machine.act : (op : PagerOp) → Machine → op.Answer × Machine
  | .read id, m => (m.pager.read id, m)
  | .write id page, m => ((), m.written id page)
  | .allocate, m =>
    (m.pager.pageCount, { m with pager := { m.pager with pageCount := m.pager.pageCount + 1 } })
  | .pageCount, m => (m.pager.pageCount, m)
  | .setPageCount pages, m => ((), { m with pager := { m.pager with pageCount := pages } })
  | .flush, m => ((), { m with pager := m.pager.flush })
  | .state, m => (m.state, m)
  | .setState state, m => ((), { m with state })
  | .lock, m => ((), m)
  | .unlock, m => ((), m)

/-- The page ids, and with them the page count, have 32 bits. -/
def pageLimit : Nat := 2 ^ 32

/-- As `Machine.act`, with ids of 32 bits: the page after the last id is page 0 again. -/
def Machine.answer : (op : PagerOp) → Machine → op.Answer × Machine
  | .write id page, m => ((), { m with pager := { m.pager with
      pageCount := if m.pager.pageCount ≤ id then (id + 1) % pageLimit else m.pager.pageCount
      pending := (id % pageLimit, page) :: m.pager.pending } })
  | .allocate, m => (m.pager.pageCount,
      { m with pager := { m.pager with pageCount := (m.pager.pageCount + 1) % pageLimit } })
  | op, m => m.act op

/-- A program over the calls of a tree. -/
abbrev TreeProgram := Program PagerOp PagerOp.Answer IoError

/-- Run an operation of a tree by itself. -/
abbrev Machine.run {α : Type} (p : TreeProgram α) (m : Machine) : Except IoError α × Machine :=
  Program.run Machine.act p m

/-- Run a program with page ids of 32 bits. -/
abbrev Machine.exec {α : Type} (p : TreeProgram α) (m : Machine) : Except IoError α × Machine :=
  Program.run Machine.answer p m

/-- Make one call of the pager. -/
abbrev perform (op : PagerOp) : TreeProgram op.Answer := Program.perform op

/-- Read a page, or fail with the error of the read. -/
def readPage (id : PageId) : TreeProgram TreePage := do
  let r ← perform (.read id)
  .ofExcept r

/-- Install the contents of a page. -/
def writePage (id : PageId) (page : TreePage) : TreeProgram Unit := perform (.write id page)

/-- Change the guarded state. -/
def modifyState (f : TreeState → TreeState) : TreeProgram Unit := do
  let s ← perform .state
  perform (.setState (f s))

/-- Run a program with the lock held, and release it however it ends. -/
def withLock {α : Type} (p : TreeProgram α) : TreeProgram α := do
  perform .lock
  let r ← p.attempt
  perform .unlock
  .ofExcept r

/-! ## What the calls do -/

theorem Pager.read_eq_ok {p : Pager} {id : PageId} {page : TreePage} :
    p.read id = .ok page ↔ p.page? id = some page := by
  unfold Pager.read Pager.page?
  rcases p.pending.lookup id with _ | page'
  · by_cases h : id < p.pageCount
    · cases p.disk id <;> simp [h, Nat.not_le.2 h]
    · simp [h, Nat.not_lt.1 h]
  · simp

theorem lookup_eq_none {id : PageId} {ws : List (PageId × TreePage)} (h : ∀ w ∈ ws, w.1 ≠ id) :
    ws.lookup id = none :=
  List.lookup_eq_none_iff.2 fun w hw => bne_iff_ne.2 (h w hw).symm

/-- Writes to other pages leave the contents of a page of the file. -/
theorem Pager.page?_of_writes {p p' : Pager} {id : PageId} {ws : List (PageId × TreePage)}
    (hws : p'.pending = ws ++ p.pending) (hdisk : p'.disk = p.disk)
    (hcount : p.pageCount ≤ p'.pageCount) (hid : id < p.pageCount) (h : ∀ w ∈ ws, w.1 ≠ id) :
    p'.page? id = p.page? id := by
  rw [Pager.page?, Pager.page?, hws, List.lookup_append, lookup_eq_none h, Option.none_or, hdisk,
    if_pos hid, if_pos (hid.trans_le hcount)]

theorem Pager.page?_write {p : Pager} {id : PageId} (hid : id < p.pageCount) (page : TreePage)
    (id' : PageId) : (p.write id page).page? id' = if id' = id then some page else p.page? id' := by
  have hcount : max p.pageCount (id + 1) = p.pageCount := max_eq_left hid
  by_cases h : id' = id
  · simp [Pager.page?, Pager.write, h]
  · have hbeq : (id' == id) = false := by simpa using h
    simp [Pager.page?, Pager.write, List.lookup_cons, h, hbeq, hcount]

theorem Pager.pageCount_write {p : Pager} {id : PageId} (hid : id < p.pageCount) (page : TreePage) :
    (p.write id page).pageCount = p.pageCount := max_eq_left hid

/-- The width of the ids makes no difference to a call that leaves the file below the limit. -/
theorem Machine.answer_eq {op : PagerOp} {m : Machine}
    (h : (m.act op).2.pager.pageCount < pageLimit) : m.answer op = m.act op := by
  cases op with
  | write id page =>
    have hid : max m.pager.pageCount (id + 1) < pageLimit := h
    rw [max_lt_iff] at hid
    simp only [Machine.answer, Machine.act, Machine.written, Pager.write,
      Nat.mod_eq_of_lt hid.2, Nat.mod_eq_of_lt (Nat.lt_of_succ_lt hid.2)]
    split_ifs with hle
    · rw [max_eq_right (hle.trans (Nat.le_succ id))]
    · rw [max_eq_left (not_le.1 hle)]
  | allocate =>
    have hcount : m.pager.pageCount + 1 < pageLimit := h
    simp only [Machine.answer, Machine.act, Nat.mod_eq_of_lt hcount]
  | _ => rfl

section Run

variable {m m' : Machine} {α β : Type}

theorem Machine.run_bind_ok {p : TreeProgram α} {a : α} (h : m.run p = (.ok a, m'))
    (f : α → TreeProgram β) : m.run (p >>= f) = m'.run (f a) :=
  Program.run_bind_ok h f

theorem Machine.run_bind_error {p : TreeProgram α} {e : IoError} (h : m.run p = (.error e, m'))
    (f : α → TreeProgram β) : m.run (p >>= f) = (.error e, m') :=
  Program.run_bind_error h f

theorem Machine.run_attempt {p : TreeProgram α} {r : Except IoError α} (h : m.run p = (r, m')) :
    m.run p.attempt = (.ok r, m') := by
  rw [Machine.run] at h ⊢
  rw [Program.run_attempt, h]

theorem run_readPage {id : PageId} {page : TreePage} (h : m.pager.page? id = some page) :
    m.run (readPage id) = (.ok page, m) := by
  simp [Machine.run, readPage, Machine.act, Pager.read_eq_ok.2 h]

theorem run_state_bind (f : TreeState → TreeProgram β) :
    m.run (perform .state >>= f) = m.run (f m.state) := rfl

theorem run_pageCount_bind (f : Nat → TreeProgram β) :
    m.run (perform .pageCount >>= f) = m.run (f m.pager.pageCount) := rfl

@[simp] theorem run_writePage (id : PageId) (page : TreePage) :
    m.run (writePage id page) = (.ok (), m.written id page) := rfl

@[simp] theorem run_modifyState (f : TreeState → TreeState) :
    m.run (modifyState f) = (.ok (), { m with state := f m.state }) := rfl

@[simp] theorem run_withLock (p : TreeProgram α) : m.run (withLock p) = m.run p := by
  simp [Machine.run, withLock, Machine.act, Program.run_bind]

end Run

end FacetQL
