import FacetQL.Storage.BTree.Refinement
import FacetQL.Storage.BTree.Steps

/-!
# Crashes

A crash leaves of the pending pages whatever the cache and the disk made of them:
some were written, some were not, some are torn and cannot be read. The pages of
the last committed tree, and its meta page, are never among them.
-/

namespace FacetQL

namespace BTree

open Machine SortedMap

/-- What a crash can leave of a file: each page as on disk, or, when it has been
    written since the last flush, any of the written versions, or nothing that can
    be read. The file is as long as its readable pages need at least. -/
structure CrashFile (p p' : Pager) : Prop where
  pending : p'.pending = []
  disk : ∀ id, p'.disk id = p.disk id ∨
    ∃ page, (id, page) ∈ p.pending ∧ (p'.disk id = some page ∨ p'.disk id = none)
  pageCount : ∀ id, p'.disk id ≠ none → id < p'.pageCount

/-- A crash after a flush leaves what a crash before it can leave. -/
theorem CrashFile.of_flush {q p' : Pager} (hc : CrashFile q.flush p') : CrashFile q p' where
  pending := hc.pending
  disk id := by
    rcases hc.disk id with hd | ⟨page, hpage, -⟩
    · have hd : p'.disk id = (q.pending.lookup id).or (q.disk id) := hd
      rcases hlookup : q.pending.lookup id with _ | page
      · exact .inl (by rw [hd, hlookup, Option.none_or])
      obtain ⟨l₁, l₂, hsplit, -⟩ := List.lookup_eq_some_iff.1 hlookup
      refine .inr ⟨page, ?_, .inl (by rw [hd, hlookup, Option.some_or])⟩
      rw [hsplit]
      exact List.mem_append_right _ List.mem_cons_self
    · cases hpage
  pageCount := hc.pageCount

/-- The tree that opening a file finds under a meta record. -/
def reopened (p : Pager) (record : MetaState) : Machine where
  pager := { p with pageCount := record.highWater, pending := [] }
  state := ⟨record.generation, record.root, record.entries, record.free, ∅, []⟩

/-- The disk holds the committed tree of a meta record, with the entries of `f`. -/
structure Recoverable (p : Pager) (record : MetaState) (h : Nat) (f : KeyMap) : Prop where
  tree : TreeInv (reopened p record) h
  holds : Represents (contents (reopened p record) h) f
  slot : p.disk (metaSlot record.generation) = some (.metaPage record)
  other : ∀ older, p.disk (metaSlot (record.generation + 1)) = some (.metaPage older) →
    older.generation < record.generation

variable {m m' : Machine} {p p' : Pager} {r : MetaState} {h h' : Nat} {f f' : KeyMap}

/-- The pages of the committed tree of a meta record. -/
abbrev committedPages (p : Pager) (r : MetaState) (h : Nat) : Multiset PageId :=
  treePages (reopened p r) h

theorem page?_reopened (q : PageId) :
    (reopened p r).pager.page? q = if q < r.highWater then p.disk q else none := rfl

/-! ## Opening -/

theorem metaSlot_succ_succ (g : Nat) : metaSlot (g + 1 + 1) = metaSlot g := by
  simp [metaSlot, Nat.add_assoc]

theorem metaSlot_cases (g : Nat) : metaSlot g = metaA ∧ metaSlot (g + 1) = metaB ∨
    metaSlot g = metaB ∧ metaSlot (g + 1) = metaA := by
  rcases Nat.mod_two_eq_zero_or_one g with hg | hg
  · left
    simp [metaSlot, hg, Nat.add_mod]
  · right
    simp [metaSlot, hg, Nat.add_mod]

theorem metaSlot_succ_ne (g : Nat) : metaSlot (g + 1) ≠ metaSlot g := by
  rcases metaSlot_cases g with ⟨h₁, h₂⟩ | ⟨h₁, h₂⟩ <;> rw [h₁, h₂] <;> decide

/-- The meta record of a page, if it holds one. -/
def metaOf : Option TreePage → Option MetaState
  | some (.metaPage record) => some record
  | _ => none

theorem run_readMeta (m : Machine) (slot : PageId) :
    m.run (readMeta slot) = (.ok (metaOf (m.pager.page? slot)), m) := by
  rcases hpage : m.pager.page? slot with _ | page
  · have hread : ∃ e, m.pager.read slot = .error e := by
      rcases hr : m.pager.read slot with e | page
      · exact ⟨e, rfl⟩
      rw [Pager.read_eq_ok.1 hr] at hpage
      cases hpage
    obtain ⟨e, he⟩ := hread
    have hrun : m.run (readPage slot) = (.error e, m) := by
      simp [Machine.run, readPage, Machine.act, he]
    rw [readMeta, run_bind_ok (Machine.run_attempt hrun)]
    rfl
  rw [readMeta, run_bind_ok (Machine.run_attempt (run_readPage hpage))]
  cases page <;> rfl

/-- Opening a file that is long enough, in which neither slot has a meta page, fails. -/
theorem run_openTree_no_meta (hcount : firstDataPage ≤ p.pageCount) (hpending : p.pending = [])
    (hA : metaOf (p.disk metaA) = none) (hB : metaOf (p.disk metaB) = none) (s : TreeState)
    (path : String) : ∃ e, (⟨p, s⟩ : Machine).run (openTree path) = (.error e, ⟨p, s⟩) := by
  have hpage : ∀ slot < firstDataPage, p.page? slot = p.disk slot := fun slot hslot => by
    rw [Pager.page?, hpending, List.lookup_nil, if_pos (hslot.trans_le hcount)]
  rw [openTree, run_pageCount_bind, if_neg hcount.not_gt, run_bind_ok (run_readMeta _ _),
    run_bind_ok (run_readMeta _ _), hpage metaA (by decide), hpage metaB (by decide), hA, hB]
  exact ⟨_, rfl⟩

/-- Opening a file with a committed tree finds it. -/
theorem run_openTree (hr : Recoverable p r h f) (hpending : p.pending = [])
    (hcount : firstDataPage ≤ p.pageCount) (s : TreeState) (path : String) :
    (⟨p, s⟩ : Machine).run (openTree path) = (.ok (), reopened p r) := by
  have hpage : ∀ g, p.page? (metaSlot g) = p.disk (metaSlot g) := fun g => by
    rw [Pager.page?, hpending, List.lookup_nil, if_pos ((metaSlot_lt g).trans_le hcount)]
  have hslot : metaOf (p.page? (metaSlot r.generation)) = some r := by
    rw [hpage, hr.slot]
    rfl
  have hother : ∀ older ∈ metaOf (p.page? (metaSlot (r.generation + 1))),
      older.generation < r.generation := by
    intro older holder
    rw [hpage] at holder
    refine hr.other older ?_
    unfold metaOf at holder
    split at holder <;> simp_all
  have hchoose : chooseMeta (metaOf (p.page? metaA)) (metaOf (p.page? metaB)) = some r := by
    rcases metaSlot_cases r.generation with ⟨h₁, h₂⟩ | ⟨h₁, h₂⟩ <;> rw [h₁] at hslot <;>
      rw [h₂] at hother <;> rw [hslot]
    · rcases hb : metaOf (p.page? metaB) with _ | b
      · rfl
      · rw [chooseMeta, if_pos (hother b hb).le]
    · rcases ha : metaOf (p.page? metaA) with _ | a
      · rfl
      · rw [chooseMeta, if_neg (hother a ha).not_ge]
  rw [openTree, run_pageCount_bind, if_neg hcount.not_gt, run_bind_ok (run_readMeta _ _),
    run_bind_ok (run_readMeta _ _), hchoose]
  simp [Machine.run, Machine.act, reopened, hpending]

/-! ## The committed tree -/

/-- The tree of a meta record depends on its pages only. -/
theorem reopened_congr (htree : TreeInv (reopened p r) h)
    (hholds : Represents (contents (reopened p r) h) f)
    (hdisk : ∀ q ∈ committedPages p r h, p'.disk q = p.disk q) :
    TreeInv (reopened p' r) h ∧ Represents (contents (reopened p' r) h) f ∧
      committedPages p' r h = committedPages p r h := by
  have hsame : ∀ q ∈ committedPages p r h,
      (reopened p' r).pager.page? q = (reopened p r).pager.page? q := fun q hq => by
    rw [page?_reopened, page?_reopened, hdisk q hq]
  obtain ⟨htree', hentries, hpages⟩ := htree.congr hsame { htree.own with } rfl rfl
  exact ⟨htree', hentries ▸ hholds, hpages⟩

theorem Recoverable.congr (hr : Recoverable p r h f) (p' : Pager)
    (hpages : ∀ q ∈ committedPages p r h, p'.disk q = p.disk q)
    (hslot : p'.disk (metaSlot r.generation) = p.disk (metaSlot r.generation))
    (hother : p'.disk (metaSlot (r.generation + 1)) = p.disk (metaSlot (r.generation + 1)) ∨
      p'.disk (metaSlot (r.generation + 1)) = none) :
    Recoverable p' r h f ∧ committedPages p' r h = committedPages p r h := by
  obtain ⟨htree, hholds, hcommitted⟩ := reopened_congr hr.tree hr.holds hpages
  refine ⟨⟨htree, hholds, hslot.trans hr.slot, fun older holder => ?_⟩, hcommitted⟩
  rcases hother with ho | ho
  · exact hr.other older (ho.symm.trans holder)
  · rw [ho] at holder
    cases holder

/-- A file with a committed tree reaches beyond the meta pages. -/
theorem Recoverable.firstDataPage_le (hr : Recoverable p r h f)
    (hcount : ∀ id, p.disk id ≠ none → id < p.pageCount) : firstDataPage ≤ p.pageCount := by
  have hroot := hr.tree.own.range r.root self_mem_pagesAt
  refine hroot.1.trans (hcount r.root fun hnone => ?_).le
  have hpage : (reopened p r).pager.page? r.root = none := by
    rw [page?_reopened, hnone, ite_self]
  rcases h with _ | h
  · obtain ⟨cells, hcells, -⟩ := hr.tree.wf
    exact absurd (hcells.symm.trans hpage) (by simp)
  obtain ⟨extra, cells, hcells, -⟩ := hr.tree.wf
  exact absurd (hcells.symm.trans hpage) (by simp)

/-- The tree of a meta record is on disk with the entries of `f`, no write waits for a page of
    it, and none is handed out before the next commit. -/
structure Stays (m : Machine) (r : MetaState) (h : Nat) (f : KeyMap) : Prop where
  tree : TreeInv (reopened m.pager r) h
  holds : Represents (contents (reopened m.pager r) h) f
  pageCount : r.highWater ≤ m.pager.pageCount
  pending : ∀ w ∈ m.pager.pending, w.1 ∉ committedPages m.pager r h
  free : ∀ e ∈ m.state.free, e.page ∈ committedPages m.pager r h → e.generation = m.state.building

namespace Stays

variable (hs : Stays m r h f) {W : Set PageId} {L L' : Multiset PageId}
include hs

theorem not_fresh {q : PageId} (hq : q ∈ committedPages m.pager r h) : ¬ Fresh m q := by
  rintro (hc | ⟨e, he, rfl, hreuse, -⟩)
  · exact absurd ((hs.tree.own.range q hq).2.trans_le hs.pageCount) hc.not_gt
  · have := hs.free e he hq
    omega

theorem congr (hdisk : ∀ q ∈ committedPages m.pager r h, m'.pager.disk q = m.pager.disk q)
    (hcount : m.pager.pageCount ≤ m'.pager.pageCount)
    (hpending : ∀ w ∈ m'.pager.pending, w.1 ∉ committedPages m.pager r h)
    (hfree : ∀ e ∈ m'.state.free, e.page ∈ committedPages m.pager r h →
      e.generation = m'.state.building) :
    Stays m' r h f ∧ committedPages m'.pager r h = committedPages m.pager r h := by
  obtain ⟨htree, hholds, hpages⟩ := reopened_congr hs.tree hs.holds hdisk
  exact ⟨⟨htree, hholds, hs.pageCount.trans hcount, hpages ▸ hpending, hpages ▸ hfree⟩, hpages⟩

/-- A change to the generation being built keeps a tree that it does not write in place. -/
theorem moved (hmoved : Moved m m' W L L') (hW : ∀ q ∈ committedPages m.pager r h, q ∉ W) :
    Stays m' r h f ∧ committedPages m'.pager r h = committedPages m.pager r h := by
  refine hs.congr (fun q _ => by rw [hmoved.disk]) hmoved.pageCount (fun w hw hq => ?_)
    fun e he hq => ?_
  · obtain ⟨ws, hws, hin⟩ := hmoved.pending
    rw [hws] at hw
    rcases List.mem_append.1 hw with hw | hw
    · exact (hin w hw).elim (hW _ hq) (hs.not_fresh hq)
    · exact hs.pending w hw hq
  · rw [hmoved.building]
    exact (hmoved.freed e he).elim (fun he => hs.free e he hq) id

theorem lookup {q : PageId} (hq : q ∈ committedPages m.pager r h) :
    m.pager.pending.lookup q = none :=
  lookup_eq_none fun w hw heq => hs.pending w hw (heq ▸ hq)

end Stays

/-- The disk is recoverable, and nothing before the next commit touches the committed tree. -/
structure Safe (m : Machine) (r : MetaState) (h : Nat) (f : KeyMap) : Prop where
  disk : Recoverable m.pager r h f
  generation : m.state.generation = r.generation
  pageCount : r.highWater ≤ m.pager.pageCount
  pending : ∀ w ∈ m.pager.pending, firstDataPage ≤ w.1 ∧ w.1 ∉ committedPages m.pager r h
  dirty : ∀ q ∈ committedPages m.pager r h, q ∉ m.state.dirty
  free : ∀ e ∈ m.state.free, e.page ∈ committedPages m.pager r h → e.generation = m.state.building

/-- A tree that has just been opened is safe. -/
theorem Recoverable.safe (hr : Recoverable p r h f) : Safe (reopened p r) r h f where
  disk := (hr.congr (reopened p r).pager (fun _ _ => rfl) rfl (.inl rfl)).1
  generation := rfl
  pageCount := le_rfl
  pending w hw := by simp [reopened] at hw
  dirty q _ := Finset.notMem_empty q
  free e he hp := absurd rfl (hr.tree.own.notFree e.page hp e he)

theorem disk_committed (m : Machine) (q : PageId) : (committed m).pager.disk q =
    if q = metaSlot m.state.building then some (.metaPage (metaRecord m))
    else m.pager.flush.disk q := by
  simp only [committed, Pager.flush, Pager.write, List.lookup_cons, List.lookup_nil]
  by_cases hq : q = metaSlot m.state.building
  · simp [hq]
  · have hbeq : (q == metaSlot m.state.building) = false := by simpa using hq
    simp [hq, hbeq]

theorem reopened_committed (hinv : TreeInv m h) (hr : Represents (contents m h) f) :
    TreeInv (reopened (committed m).pager (metaRecord m)) h ∧
      Represents (contents (reopened (committed m).pager (metaRecord m)) h) f ∧
      committedPages (committed m).pager (metaRecord m) h = treePages m h := by
  have hslot := metaSlot_lt m.state.building
  have hfree : (reopened (committed m).pager (metaRecord m)).state.free = m.state.free :=
    List.take_of_length_le hinv.own.freeLen
  have hsame : ∀ q ∈ treePages m h,
      (reopened (committed m).pager (metaRecord m)).pager.page? q = m.pager.page? q := by
    intro q hq
    obtain ⟨hge, hlt⟩ := hinv.own.range q hq
    rw [page?_reopened, if_pos (show q < (metaRecord m).highWater from hlt), disk_committed,
      if_neg (hslot.trans_le hge).ne', ← Pager.page?_flush hlt, Pager.page?]
    exact (if_pos (show q < m.pager.flush.pageCount from hlt)).symm
  have hown : Own (reopened (committed m).pager (metaRecord m)) (treePages m h) := by
    obtain ⟨h₁, h₂, h₃, h₄, h₅, h₆, h₇⟩ := hinv.own
    refine ⟨h₁, ?_, ?_, ?_, h₅, h₆, ?_⟩ <;> rw [hfree] <;> assumption
  obtain ⟨htree, hentries, hpages⟩ := hinv.congr hsame hown rfl rfl
  exact ⟨htree, hentries ▸ hr, hpages⟩

/-- A commit makes the tree being built the committed one, if the other slot is not newer. -/
theorem safe_committed (hinv : TreeInv m h) (hr : Represents (contents m h) f)
    (hother : ∀ older,
      (committed m).pager.disk (metaSlot (m.state.building + 1)) = some (.metaPage older) →
      older.generation < m.state.building) :
    Safe (committed m) (metaRecord m) h f := by
  obtain ⟨htree, hholds, hpages⟩ := reopened_committed hinv hr
  refine ⟨⟨htree, hholds, (disk_committed _ _).trans (if_pos rfl), hother⟩, rfl, ?_, ?_, ?_, ?_⟩
  · rw [pageCount_committed hinv.own.start]
    exact le_rfl
  · simp [committed, Pager.flush]
  · exact fun q _ => Finset.notMem_empty q
  · rw [hpages]
    exact fun e he hq => absurd rfl (hinv.own.notFree e.page hq e he)

namespace Safe

variable (hs : Safe m r h f)
include hs

theorem stays : Stays m r h f :=
  ⟨hs.disk.tree, hs.disk.holds, hs.pageCount, fun w hw => (hs.pending w hw).2, hs.free⟩

theorem disk_flush {q : PageId} (hq : q < firstDataPage ∨ q ∈ committedPages m.pager r h) :
    m.pager.flush.disk q = m.pager.disk q := by
  have hlookup : m.pager.pending.lookup q = none := lookup_eq_none fun w hw heq =>
    (heq ▸ hq).elim (hs.pending w hw).1.not_gt (hs.pending w hw).2
  simp only [Pager.flush, hlookup, Option.none_or]

end Safe

/-! ## Commits that fail -/

/-- The tree after a commit that has failed behind its meta page, with the free list lost. -/
def attempted (m : Machine) : Machine where
  pager := m.pager.flush.write (metaSlot m.state.building) (.metaPage (metaRecord m))
  state := { m.state with free := [] }

theorem Stays.attempted (hs : Stays m r h f) : Stays (attempted m) r h f ∧
    committedPages (attempted m).pager r h = committedPages m.pager r h := by
  refine hs.congr (fun q hq => ?_) (le_max_left _ _) (fun w hw hq => ?_) nofun
  · simp only [BTree.attempted, Pager.write, Pager.flush, hs.lookup hq, Option.none_or]
  · obtain rfl := List.mem_singleton.1 hw
    exact absurd (hs.tree.own.range _ hq).1 (metaSlot_lt _).not_ge

/-- The tree of a commit that fails is on disk as soon as its pages are flushed. -/
theorem TreeInv.stays_attempted (hinv : TreeInv m h) (hr : Represents (contents m h) f) :
    Stays (attempted m) (metaRecord m) h f := by
  obtain ⟨htree, hholds, hpages⟩ := reopened_committed hinv hr
  have hdisk : ∀ q ∈ committedPages (BTree.committed m).pager (metaRecord m) h,
      (BTree.attempted m).pager.disk q = (BTree.committed m).pager.disk q := fun q hq => by
    rw [disk_committed, if_neg ((metaSlot_lt _).trans_le (htree.own.range q hq).1).ne']
    rfl
  obtain ⟨htree', hholds', hpages'⟩ := reopened_congr htree hholds hdisk
  refine ⟨htree', hholds', le_max_left _ _, fun w hw hq => ?_, nofun⟩
  obtain rfl := List.mem_singleton.1 hw
  exact absurd (htree'.own.range _ hq).1 (metaSlot_lt _).not_ge

/-- A commit that has failed: its meta record, and what the tree held. -/
abbrev Attempt := MetaState × KeyMap

/-- The last committed tree stays on disk, and so do those of the failed commits since, of which
    one may have its meta page in the other slot. -/
structure FaultInv (m : Machine) (r : MetaState) (last : KeyMap) (failed : List Attempt) : Prop where
  stays : ∃ h, Stays m r h last ∧ ∀ q ∈ committedPages m.pager r h, q ∉ m.state.dirty
  generation : m.state.generation = r.generation
  slot : m.pager.disk (metaSlot r.generation) = some (.metaPage r)
  attempts : ∀ x ∈ failed, x.1.generation = r.generation + 1 ∧ ∃ h, Stays m x.1 h x.2
  pending : ∀ w ∈ m.pager.pending, firstDataPage ≤ w.1 ∨
    w.1 = metaSlot (r.generation + 1) ∧ ∃ x ∈ failed, w.2 = .metaPage x.1
  other : ∀ older, m.pager.disk (metaSlot (r.generation + 1)) = some (.metaPage older) →
    older.generation < r.generation ∨ ∃ x ∈ failed, older = x.1

section FaultInv

variable {current last : KeyMap} {failed : List Attempt} {W : Set PageId} {L L' : Multiset PageId}

theorem Safe.faultInv (hs : Safe m r h f) : FaultInv m r f [] where
  stays := ⟨h, hs.stays, hs.dirty⟩
  generation := hs.generation
  slot := hs.disk.slot
  attempts := nofun
  pending w hw := .inl (hs.pending w hw).1
  other older holder := .inl (hs.disk.other older holder)

theorem FaultInv.safe (hinv : FaultInv m r f []) : ∃ h, Safe m r h f := by
  obtain ⟨h, hs, hclean⟩ := hinv.stays
  refine ⟨h, ⟨hs.tree, hs.holds, hinv.slot, fun older holder => ?_⟩, hinv.generation, hs.pageCount,
    fun w hw => ⟨?_, hs.pending w hw⟩, hclean, hs.free⟩
  · exact (hinv.other older holder).resolve_right nofun
  · exact (hinv.pending w hw).resolve_right nofun

variable (hinv : FaultInv m r last failed)
include hinv

theorem FaultInv.slot_pending {w : PageId × TreePage} (hw : w ∈ m.pager.pending) :
    w.1 ≠ metaSlot r.generation := by
  intro heq
  rcases hinv.pending w hw with hle | ⟨hslot, -⟩
  · exact absurd (heq ▸ hle) (metaSlot_lt _).not_ge
  · exact metaSlot_succ_ne _ (hslot.symm.trans heq)

theorem FaultInv.lookup_slot : m.pager.pending.lookup (metaSlot r.generation) = none :=
  lookup_eq_none fun _ hw => hinv.slot_pending hw

/-- A change to the generation being built that writes in place to none of the trees. -/
theorem FaultInv.moved (hmoved : Moved m m' W L L') (hown : Own m L)
    (hW : ∀ q ∈ W, q ∈ L ∧ q ∈ m.state.dirty)
    (hspare : ∀ x ∈ failed, ∀ h, Stays m x.1 h x.2 → ∀ q ∈ committedPages m.pager x.1 h, q ∉ W) :
    FaultInv m' r last failed where
  stays := by
    obtain ⟨h, hs, hclean⟩ := hinv.stays
    obtain ⟨hs', hpages⟩ := hs.moved hmoved fun q hq hw => hclean q hq (hW q hw).2
    refine ⟨h, hs', fun q hq hdirty => ?_⟩
    rw [hpages] at hq
    exact (hmoved.newDirty q hdirty).elim (hclean q hq) (hs.not_fresh hq)
  generation := hmoved.generation.trans hinv.generation
  slot := by rw [hmoved.disk, hinv.slot]
  attempts x hx := by
    obtain ⟨hgen, h, hs⟩ := hinv.attempts x hx
    exact ⟨hgen, h, (hs.moved hmoved (hspare x hx h hs)).1⟩
  pending w hw := by
    obtain ⟨ws, hws, hin⟩ := hmoved.pending
    rw [hws] at hw
    rcases List.mem_append.1 hw with hw | hw
    · refine .inl ?_
      rcases hin w hw with hw | hfresh | ⟨e, he, heq, -⟩
      · exact (hown.range _ (hW _ hw).1).1
      · exact hown.start.trans hfresh
      · exact heq ▸ (hown.freeRange e he).1
    · exact hinv.pending w hw
  other := by
    rw [hmoved.disk]
    exact hinv.other

theorem FaultInv.attempted (htree : TreeInv m h) (hr : Represents (contents m h) current) :
    FaultInv (attempted m) r last ((metaRecord m, current) :: failed) where
  stays := by
    obtain ⟨h, hs, hclean⟩ := hinv.stays
    obtain ⟨hs', hpages⟩ := hs.attempted
    exact ⟨h, hs', hpages ▸ hclean⟩
  generation := hinv.generation
  slot := by
    simp only [BTree.attempted, Pager.write, Pager.flush, hinv.lookup_slot, Option.none_or, hinv.slot]
  attempts x hx := by
    rcases List.mem_cons.1 hx with rfl | hx
    · exact ⟨congrArg (· + 1) hinv.generation, h, htree.stays_attempted hr⟩
    · obtain ⟨hgen, h, hs⟩ := hinv.attempts x hx
      exact ⟨hgen, h, hs.attempted.1⟩
  pending w hw := by
    obtain rfl := List.mem_singleton.1 hw
    refine .inr ⟨?_, _, List.mem_cons_self, rfl⟩
    rw [TreeState.building, hinv.generation]
  other older holder := by
    -- The flush may have written the meta page of an earlier failed commit.
    simp only [BTree.attempted, Pager.write, Pager.flush] at holder
    rcases hlookup : m.pager.pending.lookup (metaSlot (r.generation + 1)) with _ | page
    · rw [hlookup, Option.none_or] at holder
      refine (hinv.other older holder).imp_right ?_
      rintro ⟨x, hx, heq⟩
      exact ⟨x, List.mem_cons_of_mem _ hx, heq⟩
    rw [hlookup, Option.some_or] at holder
    obtain rfl := Option.some.inj holder
    obtain ⟨l₁, l₂, hsplit, -⟩ := List.lookup_eq_some_iff.1 hlookup
    have hmem : (metaSlot (r.generation + 1), TreePage.metaPage older) ∈ m.pager.pending := by
      rw [hsplit]
      exact List.mem_append_right _ List.mem_cons_self
    rcases hinv.pending _ hmem with hle | ⟨-, x, hx, heq⟩
    · exact absurd hle (metaSlot_lt _).not_ge
    · injection heq with heq
      exact .inr ⟨x, List.mem_cons_of_mem _ hx, heq⟩

theorem FaultInv.committed (htree : TreeInv m h) (hr : Represents (contents m h) current) :
    FaultInv (committed m) (metaRecord m) current [] := by
  refine Safe.faultInv (safe_committed htree hr fun older holder => ?_)
  have hbuild : m.state.building = r.generation + 1 := by rw [TreeState.building, hinv.generation]
  rw [disk_committed, hbuild, metaSlot_succ_succ, if_neg (metaSlot_succ_ne _).symm] at holder
  simp only [Pager.flush, hinv.lookup_slot, Option.none_or, hinv.slot] at holder
  cases holder
  omega

/-- What a crash leaves: the last committed tree, or that of a failed commit. -/
theorem FaultInv.crash (hc : CrashFile m.pager p') :
    (∃ h, Recoverable p' r h last) ∨ ∃ x ∈ failed, ∃ h, Recoverable p' x.1 h x.2 := by
  have hslot : p'.disk (metaSlot r.generation) = some (.metaPage r) := by
    rcases hc.disk (metaSlot r.generation) with hd | ⟨page, hpage, -⟩
    · rw [hd, hinv.slot]
    · exact absurd rfl (hinv.slot_pending hpage)
  have hpages : ∀ {x : MetaState} {h : Nat} {f : KeyMap}, Stays m x h f →
      TreeInv (reopened p' x) h ∧ Represents (contents (reopened p' x) h) f := by
    intro x h f hs
    have hdisk : ∀ q ∈ committedPages m.pager x h, p'.disk q = m.pager.disk q := fun q hq => by
      rcases hc.disk q with hd | ⟨page, hpage, -⟩
      · exact hd
      · exact absurd hq (hs.pending _ hpage)
    obtain ⟨htree, hholds, -⟩ := reopened_congr hs.tree hs.holds hdisk
    exact ⟨htree, hholds⟩
  -- What the other slot holds decides which tree is found.
  have hother : ∀ older, p'.disk (metaSlot (r.generation + 1)) = some (.metaPage older) →
      older.generation < r.generation ∨ ∃ x ∈ failed, older = x.1 := by
    intro older holder
    rcases hc.disk (metaSlot (r.generation + 1)) with hd | ⟨page, hpage, hd | hd⟩
    · exact hinv.other older (hd.symm.trans holder)
    · rcases hinv.pending _ hpage with hle | ⟨-, x, hx, rfl⟩
      · exact absurd hle (metaSlot_lt _).not_ge
      · rw [hd] at holder
        cases holder
        exact .inr ⟨x, hx, rfl⟩
    · rw [hd] at holder
      cases holder
  by_cases hfailed : ∃ x ∈ failed, p'.disk (metaSlot (r.generation + 1)) = some (.metaPage x.1)
  · obtain ⟨x, hx, hdisk⟩ := hfailed
    obtain ⟨hgen, h, hs⟩ := hinv.attempts x hx
    refine .inr ⟨x, hx, h, (hpages hs).1, (hpages hs).2, hgen ▸ hdisk, fun older holder => ?_⟩
    rw [hgen, metaSlot_succ_succ, hslot] at holder
    cases holder
    omega
  · obtain ⟨h, hs, -⟩ := hinv.stays
    refine .inl ⟨h, (hpages hs).1, (hpages hs).2, hslot, fun older holder => ?_⟩
    refine (hother older holder).resolve_right ?_
    rintro ⟨x, hx, rfl⟩
    exact hfailed ⟨x, hx, holder⟩

end FaultInv

theorem CrashFile.of_grown (hc : CrashFile m.pager p') (hg : Grown m m') : CrashFile m'.pager p' where
  pending := hc.pending
  disk id := by
    obtain ⟨ws, hws⟩ := hg.pending
    rw [hg.disk, hws]
    exact (hc.disk id).imp_right fun ⟨page, hpage, hd⟩ => ⟨page, List.mem_append_right ws hpage, hd⟩
  pageCount := hc.pageCount

/-- The pager at every point of a commit. -/
theorem after_commit (m : Machine) (n : Nat) :
    (after n Call.commit.program m).pager = m.pager ∨
    (after n Call.commit.program m).pager = m.pager.flush ∨
    (after n Call.commit.program m).pager =
      m.pager.flush.write (metaSlot m.state.building) (.metaPage (metaRecord m)) ∨
    (after n Call.commit.program m).pager = (committed m).pager := by
  rw [Call.program, commit_eq]
  rcases n with _ | _ | _ | _ | _ | _ | _ | _ | _ | n
  iterate 3 exact .inl rfl
  iterate 2 exact .inr (.inl rfl)
  · exact .inr (.inr (.inl rfl))
  iterate 4 exact .inr (.inr (.inr rfl))

/-- A crash while one page is being written leaves the old page, the new one, or a torn one. -/
theorem CrashFile.of_write {q : Pager} {slot : PageId} {page : TreePage}
    (hc : CrashFile (q.flush.write slot page) p') :
    (∀ id, id ≠ slot → p'.disk id = q.flush.disk id) ∧
      (p'.disk slot = q.flush.disk slot ∨ p'.disk slot = some page ∨ p'.disk slot = none) := by
  constructor
  · intro id hid
    rcases hc.disk id with hd | ⟨page', hpage, -⟩
    · exact hd
    · simp only [Pager.write, Pager.flush, List.mem_singleton, Prod.mk.injEq] at hpage
      exact absurd hpage.1 hid
  · refine (hc.disk slot).imp_right ?_
    rintro ⟨page', hpage, hd⟩
    simp only [Pager.write, Pager.flush, List.mem_singleton, Prod.mk.injEq] at hpage
    exact hpage.2 ▸ hd

/-! ## Histories -/

/-- What a tree holds: it is in order, and its entries are those of the map. -/
def Holds (m : Machine) (f : KeyMap) : Prop := ∃ h, TreeInv m h ∧ Represents (contents m h) f

/-- The map after a call that has ended with `r`: a call that fails changes nothing. -/
def Call.outcome (c : Call) (r : Except IoError Reply) (f : KeyMap) : KeyMap :=
  match r with
  | .ok _ => c.apply f
  | .error _ => f

/-- A page has one level. -/
theorem Wf.level_unique {σ : Store} {lo lo' : Bytes} {hi hi' : WithTop Bytes} {id : PageId}
    (hwf : Wf σ h lo hi id) (hwf' : Wf σ h' lo' hi' id) : h = h' := by
  induction h generalizing h' lo lo' hi hi' id with
  | zero =>
    obtain ⟨cells, hpage, -⟩ := hwf
    rcases h' with _ | h'
    · rfl
    obtain ⟨extra, cells', hpage', -⟩ := hwf'
    cases hpage.symm.trans hpage'
  | succ h ih =>
    obtain ⟨extra, cells, hpage, -, ht⟩ := hwf
    rcases h' with _ | h'
    · obtain ⟨cells', hpage', -⟩ := hwf'
      cases hpage.symm.trans hpage'
    obtain ⟨extra', cells', hpage', -, ht'⟩ := hwf'
    cases hpage.symm.trans hpage'
    obtain ⟨-, mid, -, ⟨hc, -⟩, -⟩ := Tiling.cons_iff.1 ht
    obtain ⟨-, mid', -, ⟨hc', -⟩, -⟩ := Tiling.cons_iff.1 ht'
    rw [ih hc hc']

theorem Represents.unique {l : List (Bytes × Bytes)} (hf : Represents l f) (hf' : Represents l f') :
    f = f' := funext fun k => (hf k).symm.trans (hf' k)

/-- The tree started in an empty file is safe. -/
theorem safe_start {file : Machine} (hempty : ∀ id, file.pager.disk id = none)
    (hpending : file.pager.pending = []) :
    Safe (committed (startedTree file)) (metaRecord (startedTree file)) 0 (fun _ => none) := by
  obtain ⟨hinv, hcontents⟩ := startedTree_inv file
  refine safe_committed hinv (by rw [hcontents]; exact fun _ => rfl) fun older holder => ?_
  rw [disk_committed, if_neg (metaSlot_succ_ne _)] at holder
  simp only [startedTree, Pager.flush, Pager.write, hpending, hempty] at holder
  cases holder

theorem holds_committed_started (file : Machine) :
    Holds (committed (startedTree file)) fun _ => none := by
  obtain ⟨hinv, hcontents⟩ := startedTree_inv file
  obtain ⟨hinv', hcontents', -, -⟩ := hinv.committed
  refine ⟨0, hinv', ?_⟩
  rw [hcontents', hcontents]
  exact fun _ => rfl

theorem Holds.call (hm : Holds m f) (c : Call) :
    Holds (m.run c.program).2 (c.outcome (m.run c.program).1 f) := by
  obtain ⟨h, hinv, hr⟩ := hm
  rcases run_call hinv c with ⟨m', h', hrun, hok⟩ | ⟨⟨e, hrun⟩, -⟩
  · refine ⟨h', by rw [hrun]; exact hok.inv, ?_⟩
    rw [hrun, Call.outcome, hok.contents]
    exact hr.edit hinv.sorted c
  · refine ⟨h, by rw [hrun]; exact hinv, ?_⟩
    rw [hrun, Call.outcome]
    exact hr

theorem CrashFile.openTree {q : Pager} (hc : CrashFile q p') (hrec : Recoverable p' r h f)
    (s : TreeState) (path : String) :
    (⟨p', s⟩ : Machine).run (openTree path) = (.ok (), reopened p' r) :=
  run_openTree hrec hc.pending (hrec.firstDataPage_le hc.pageCount) s path

/-- What holds after a crash is what has been recovered. -/
theorem CrashFile.reopened {q : Pager} (hc : CrashFile q p') (hrec : Recoverable p' r h f)
    {s : TreeState} {path : String} (hopen : (⟨p', s⟩ : Machine).run (BTree.openTree path) = (.ok (), m'))
    (hm : Holds m' f') : m' = BTree.reopened p' r ∧ f' = f := by
  obtain rfl : BTree.reopened p' r = m' := congrArg Prod.snd ((hc.openTree hrec s path).symm.trans hopen)
  obtain ⟨h₂, hinv, hr⟩ := hm
  obtain rfl : h = h₂ := hrec.tree.wf.level_unique hinv.wf
  exact ⟨rfl, (hrec.holds.unique hr).symm⟩

/-! ## A file with a full leaf -/

/-- The longest value that a put accepts. -/
def longValue : Bytes := List.replicate maxValueLen 0

def fullCells : List LeafCell := [⟨[1], longValue⟩, ⟨[2], longValue⟩, ⟨[3], longValue⟩]

/-- What the newer meta page of the file below records. -/
def fullRecord (pages : Nat) : MetaState := ⟨2, 3, 3, pages, [⟨2, 2⟩]⟩

/-- A file of `pages` pages after a commit, whose root is a leaf full of three long values. -/
def fullFile (pages : Nat) : Pager where
  path := "index"
  pageCount := pages
  disk
    | 0 => some (.metaPage (fullRecord pages))
    | 1 => some (.metaPage ⟨1, 2, 0, 3, []⟩)
    | 2 => some (.leaf [])
    | 3 => some (.leaf fullCells)
    | _ => none
  pending := []

/-- The tree that is opened on this file. -/
def fullTree (pages : Nat) : Machine := reopened (fullFile pages) (fullRecord pages)

theorem fullTree_inv {pages : Nat} (hpages : 4 ≤ pages) :
    TreeInv (fullTree pages) 0 ∧ contents (fullTree pages) 0 = fullCells.map LeafCell.entry := by
  have hroot : (fullTree pages).pager.page? (fullTree pages).state.root = some (.leaf fullCells) :=
    if_pos hpages
  have hcontents : contents (fullTree pages) 0 = fullCells.map LeafCell.entry :=
    entriesAt_leaf hroot
  have hcount : (fullTree pages).pager.pageCount = pages := rfl
  have hfree : (fullTree pages).state.free = [⟨2, 2⟩] := rfl
  have htree : treePages (fullTree pages) 0 = {3} := rfl
  refine ⟨⟨⟨⟨fullCells, hroot, ⟨?_, ?_, ?_⟩, ?_⟩, ?_, ?_⟩, by rw [hcontents]; rfl⟩, hcontents⟩
  · simp [Sorted, fullCells, LeafCell.entry]
    decide
  · exact fun c _ => ⟨Bytes.nil_le _, WithTop.coe_lt_top _⟩
  · decide +kernel
  · decide +kernel
  · refine ⟨le_trans (by decide) hpages, ?_, ?_, ?_, ?_, ?_, ?_⟩
    all_goals simp only [hcount, hfree, htree]
    · decide
    · simpa using ⟨by decide, le_trans (by decide) hpages⟩
    · decide
    · decide
    · simpa using ⟨by decide, hpages⟩
    · simp
  · intro extra cells hbranch
    cases hroot.symm.trans hbranch

theorem fullFile_recoverable {pages : Nat} (hpages : 4 ≤ pages) :
    Recoverable (fullFile pages) (fullRecord pages) 0
      fun key => find key (fullCells.map LeafCell.entry) := by
  obtain ⟨htree, hcontents⟩ := fullTree_inv hpages
  have hgeneration : (fullRecord pages).generation = 2 := rfl
  refine ⟨htree, fun key => congrArg (find key) hcontents, ?_, fun older holder => ?_⟩
  · rw [hgeneration]
    rfl
  · rw [hgeneration] at holder ⊢
    obtain rfl := TreePage.metaPage.inj (Option.some.inj holder)
    exact Nat.lt_succ_self 1

end BTree

end FacetQL
