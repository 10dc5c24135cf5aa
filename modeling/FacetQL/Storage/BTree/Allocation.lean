import FacetQL.Storage.BTree.Reach

/-!
# Page allocation

A released page is handed out again two generations later, and not before the snapshots
older than its release are gone. Then it can be reached neither from the root, nor from one
of the two meta pages, nor from a live snapshot: not even by way of the pages of the
generation being built, which are written in place.

* `allocation_safe`: no page that is handed out can be reached.
-/

namespace FacetQL

namespace BTree

/-- What a page leads to is in the file, and not handed out while generation `g` is kept. -/
def Guard (m : Machine) (root : PageId) (g : Nat) : Prop :=
  ∃ K : Set PageId, root ∈ K ∧ Closed m.pager.page? K ∧ ∀ p ∈ K, Held m g p

/-- The pages of a committed tree: closed, on disk, and not handed out while `g` is kept. -/
structure Kept (m : Machine) (K : Set PageId) (g : Nat) : Prop where
  closed : Closed m.pager.disk K
  held : ∀ p ∈ K, Held m g p
  clean : ∀ p ∈ K, p ∉ m.state.dirty
  unwritten : ∀ w ∈ m.pager.pending, w.1 ∉ K

variable {m m' : Machine} {h g : Nat} {root p : PageId} {K : Set PageId} {κ : Kinds} {N : Set PageId}

theorem Guard.held (hguard : Guard m root g) (hp : Reaches m.pager.page? root p) : Held m g p := by
  obtain ⟨K, hroot, hclosed, hheld⟩ := hguard
  exact hheld p (hclosed.reaches hroot hp)

theorem Held.not_fresh_of_mem (hheld : Held m g p) (hg : g ∈ m.state.readers) : ¬ Fresh m p := by
  rintro (hc | ⟨e, he, rfl, hreuse⟩)
  · exact absurd hheld.lt hc.not_gt
  obtain ⟨oldest, holdest⟩ : ∃ o, m.state.readers.min? = some o :=
    Option.isSome_iff_exists.1 (List.isSome_min?_of_mem hg)
  have hle : oldest ≤ g := (List.min?_eq_some_iff.1 holdest).2 g hg
  have hlate := hheld.free e he rfl
  have hpin := hreuse.2 oldest holdest
  omega

/-! ## The tree being built -/

/-- The pages of a tree, and what they are. -/
def treeKinds (m : Machine) (h : Nat) : Kinds := fun p =>
  if p ∈ treePages m h then (m.pager.page? p).map isBranch else none

theorem TreeInv.isSome_treeKinds (hinv : TreeInv m h) :
    (treeKinds m h p).isSome ↔ p ∈ treePages m h := by
  unfold treeKinds
  split_ifs with hp
  · obtain ⟨page, hpage, -⟩ := hinv.wf.links hp
    simp [hpage, hp]
  · simp [hp]

theorem TreeInv.held (hinv : TreeInv m h) (hp : p ∈ treePages m h) (g : Nat) : Held m g p :=
  ⟨(hinv.own.range p hp).1, (hinv.own.range p hp).2,
    fun e he heq => absurd heq (hinv.own.notFree p hp e he)⟩

theorem TreeInv.known (hinv : TreeInv m h) : Known m m (treeKinds m h) ∅ where
  page p b hp := by
    have hmem := hinv.isSome_treeKinds.1 (isSome_of_eq hp)
    obtain ⟨page, hpage, hlinks⟩ := hinv.wf.links hmem
    rw [treeKinds, if_pos hmem, hpage] at hp
    exact ⟨page, hpage, Option.some.inj hp, fun q hq => hinv.isSome_treeKinds.2 (hlinks q hq)⟩
  unwritten _ hp := hp.elim
  held p hp := hinv.held (hinv.isSome_treeKinds.1 (hp.resolve_right fun hp => hp)) _
  root := hinv.isSome_treeKinds.2 self_mem_pagesAt
  start := hinv.own.start
  freeNodup := hinv.own.freeNodup.sublist (List.filter_sublist.map _)
  freeRange e he _ := hinv.own.freeRange e he
  disk := rfl
  pending := ⟨[], rfl, nofun⟩
  pageCount := le_rfl
  generation := rfl
  readers := List.Subset.refl _
  freed e he := .inl he

theorem TreeInv.guard (hinv : TreeInv m h) (g : Nat) : Guard m m.state.root g := by
  refine ⟨{p | p ∈ treePages m h}, self_mem_pagesAt, fun p hp page hpage q hq => ?_,
    fun p hp => hinv.held hp g⟩
  obtain ⟨page', hpage', hlinks⟩ := hinv.wf.links hp
  obtain rfl : page' = page := Option.some.inj (hpage'.symm.trans hpage)
  exact hlinks q hq

theorem Known.guard_root (hk : Known m m' κ N) : Guard m' m'.state.root m'.state.generation := by
  refine ⟨{p | (κ p).isSome}, hk.root, fun p hp page hpage q hq => ?_, fun p hp => hk.held p (.inl hp)⟩
  obtain ⟨b, hb⟩ := Option.isSome_iff_exists.1 hp
  exact (hk.links_some hb hpage).2 q hq

/-- Calls keep what a page leads to from being handed out. -/
theorem Guard.known (hguard : Guard m root g) (hg : g ≤ m.state.generation) (hk : Known m m' κ N) :
    Guard m' root g := by
  obtain ⟨K, hroot, hclosed, hheld⟩ := hguard
  refine ⟨K ∪ {p | (κ p).isSome}, .inl hroot, fun p hp page hpage q hq => ?_, fun p hp => ?_⟩
  · by_cases hknown : (κ p).isSome
    · obtain ⟨b, hb⟩ := Option.isSome_iff_exists.1 hknown
      exact .inr ((hk.links_some hb hpage).2 q hq)
    -- The page has not been written.
    have hmem : p ∈ K := hp.resolve_right hknown
    obtain ⟨ws, hws, hin⟩ := hk.pending
    have hsame := Pager.page?_of_writes hws hk.disk hk.pageCount (hheld p hmem).lt
      fun w hw heq => hknown (heq ▸ hin w hw)
    exact .inl (hclosed p hmem page (hsame ▸ hpage) q hq)
  · rcases hp with hp | hp
    · obtain ⟨h₁, h₂, h₃⟩ := hheld p hp
      refine ⟨h₁, h₂.trans_le hk.pageCount, fun e he heq => ?_⟩
      exact (hk.freed e he).elim (fun he => h₃ e he heq) hg.trans_lt
    · obtain ⟨h₁, h₂, h₃⟩ := hk.held p (.inl hp)
      exact ⟨h₁, h₂, fun e he heq => (hk.generation ▸ hg).trans_lt (h₃ e he heq)⟩

theorem Call.known (hinv : TreeInv m h) {c : Call} (hc : c ≠ .commit) :
    (∀ n, ∃ κ N, Known m (after n c.program m) κ N) ∧ ∃ κ N, Known m (m.run c.program).2 κ N := by
  have hk := hinv.known
  have htracked : Tracked m (treeKinds m h) (fun _ _ _ => True) c.program m := by
    cases c with
    | put key value =>
      exact tracked_bind (tracked_put hk key value) fun _ _ _ _ _ hk' _ => tracked_pure hk' trivial
    | remove key =>
      exact tracked_bind (tracked_remove hk key) fun _ _ _ _ _ hk' _ => tracked_pure hk' trivial
    | commit => exact absurd rfl hc
  refine ⟨fun n => htracked.advance n, ?_⟩
  obtain ⟨κ', N', -, hk', -⟩ := htracked.run
  exact ⟨κ', N', hk'⟩

/-! ## The committed trees -/

section Kept

variable {q p' : Pager} {r : MetaState} {f : KeyMap} {W : Set PageId} {L L' : Multiset PageId}

theorem Kept.page?_eq (hkept : Kept m K g) (hp : p ∈ K) : m.pager.page? p = m.pager.disk p := by
  have hlookup := lookup_eq_none fun w hw heq => hkept.unwritten w hw (heq ▸ hp)
  rw [Pager.page?, hlookup, if_pos (hkept.held p hp).lt]

theorem Kept.guard (hkept : Kept m K g) (hroot : root ∈ K) : Guard m root g :=
  ⟨K, hroot, fun p hp page hpage => hkept.closed p hp page (hkept.page?_eq hp ▸ hpage), hkept.held⟩

theorem Kept.congr (hkept : Kept (reopened q r) K g) (hdisk : ∀ p ∈ K, p'.disk p = q.disk p) :
    Kept (reopened p' r) K g where
  closed p hp page hpage := hkept.closed p hp page ((hdisk p hp).symm.trans hpage)
  held p hp := { hkept.held p hp with }
  clean := hkept.clean
  unwritten := hkept.unwritten

/-- Changes to the generation being built write no page of a committed tree. -/
theorem Kept.moved (hkept : Kept m K g) (hmoved : Moved m m' W L L') (hW : ∀ q ∈ W, q ∈ m.state.dirty)
    (hle : g ≤ m.state.generation) (hg : m.state.generation ≤ g + 1) : Kept m' K g where
  closed p hp page hpage := hkept.closed p hp page (hmoved.disk ▸ hpage)
  held p hp := by
    obtain ⟨h₁, h₂, h₃⟩ := hkept.held p hp
    refine ⟨h₁, h₂.trans_le hmoved.pageCount, fun e he heq => ?_⟩
    rcases hmoved.freed e he with he | he
    · exact h₃ e he heq
    · rw [he]
      exact Nat.lt_succ_of_le hle
  clean p hp hdirty := (hmoved.newDirty p hdirty).elim (hkept.clean p hp)
    ((hkept.held p hp).not_fresh hg)
  unwritten w hw hp := by
    obtain ⟨ws, hws, hin⟩ := hmoved.pending
    rw [hws] at hw
    rcases List.mem_append.1 hw with hw | hw
    · exact (hin w hw).elim (fun hw => hkept.clean _ hp (hW _ hw))
        ((hkept.held _ hp).not_fresh hg)
    · exact hkept.unwritten w hw hp

theorem Kept.disk_flush (hkept : Kept m K g) (hp : p ∈ K) : m.pager.flush.disk p = m.pager.disk p := by
  have hlt := (hkept.held p hp).lt
  have hpage := Pager.page?_flush hlt
  rw [hkept.page?_eq hp, Pager.page?, Pager.flush] at hpage
  exact (if_pos hlt).symm.trans hpage

theorem Kept.disk_committed (hkept : Kept m K g) (hp : p ∈ K) :
    (committed m).pager.disk p = m.pager.disk p := by
  have hslot := (metaSlot_lt m.state.building).trans_le (hkept.held p hp).start
  rw [BTree.disk_committed, if_neg hslot.ne', hkept.disk_flush hp]

theorem Kept.committed (hkept : Kept m K g) (hstart : firstDataPage ≤ m.pager.pageCount) :
    Kept (committed m) K g where
  closed p hp page hpage := hkept.closed p hp page ((hkept.disk_committed hp).symm.trans hpage)
  held p hp := by
    obtain ⟨h₁, h₂, h₃⟩ := hkept.held p hp
    exact ⟨h₁, pageCount_committed hstart ▸ h₂, h₃⟩
  clean _ _ := Finset.notMem_empty _
  unwritten := nofun

theorem Safe.kept (hs : Safe m r h f) :
    Kept m {p | p ∈ committedPages m.pager r h} r.generation where
  closed p hp page hpage q hq := by
    obtain ⟨page', hpage', hlinks⟩ := hs.disk.tree.wf.links hp
    have hlt : p < r.highWater := (hs.disk.tree.own.range p hp).2
    rw [page?_reopened, if_pos hlt] at hpage'
    obtain rfl : page' = page := Option.some.inj (hpage'.symm.trans hpage)
    exact hlinks q hq
  held p hp := by
    obtain ⟨hstart, hlt⟩ := hs.disk.tree.own.range p hp
    refine ⟨hstart, hlt.trans_le hs.pageCount, ?_⟩
    rintro e he rfl
    rw [hs.free e he hp, TreeState.building, hs.generation]
    exact Nat.lt_succ_self _
  clean := hs.dirty
  unwritten w hw := (hs.pending w hw).2

end Kept

/-! ## Runs -/

/-- The trees that calls, snapshots, and reopenings between calls lead to from an empty file,
    with the snapshots that are alive. -/
inductive AllocRun : Machine → List Snapshot → Prop
  | start (file : Machine) (path : String) (hcount : file.pager.pageCount < firstDataPage)
      (hempty : ∀ id, file.pager.disk id = none) (hpending : file.pager.pending = []) :
      AllocRun (file.run (openTree path)).2 []
  | call {m : Machine} {live : List Snapshot} (c : Call) (hrun : AllocRun m live)
      (hroom : Roomy (m.run c.program).2) : AllocRun (m.exec c.program).2 live
  | snapshot {m m' : Machine} {live : List Snapshot} {s : Snapshot} (hrun : AllocRun m live)
      (hs : m.run snapshot = (.ok s, m')) : AllocRun m' (s :: live)
  | drop {m : Machine} {live : List Snapshot} {s : Snapshot} (hrun : AllocRun m live)
      (hs : s ∈ live) : AllocRun (m.run (releaseSnapshot s.generation)).2 (live.erase s)
  | reopen {m m' : Machine} {live : List Snapshot} {p : Pager} {s : TreeState} (path : String)
      (hrun : AllocRun m live) (hcrash : CrashFile m.pager p)
      (hopen : (⟨p, s⟩ : Machine).run (openTree path) = (.ok (), m')) : AllocRun m' []

/-- The tree is in order, the last committed one safe, the one before it kept if its meta page
    can be read, and the snapshots are pinned and guarded. -/
structure AllocInv (m : Machine) (live : List Snapshot) (r : MetaState) : Prop where
  safe : ∃ h f, Safe m r h f
  tree : ∃ h, TreeInv m h
  prior : ∀ older, m.pager.disk (metaSlot (r.generation + 1)) = some (.metaPage older) →
    older.generation + 1 = r.generation ∧ ∃ K, older.root ∈ K ∧ Kept m K older.generation ∧
      Kept (reopened m.pager r) K older.generation
  readers : (live.map Snapshot.generation).Perm m.state.readers
  live : ∀ s ∈ live, s.generation ≤ m.state.generation ∧ Guard m s.root s.generation

section Runs

variable {live : List Snapshot} {r : MetaState} {p' : Pager} {c : Call}

theorem exists_represents (l : List (Bytes × Bytes)) : ∃ f, Represents l f :=
  ⟨fun k => SortedMap.find k l, fun _ => rfl⟩

/-- What is found in the file when the process has ended. -/
theorem AllocInv.crash (hinv : AllocInv m live r) (hc : CrashFile m.pager p') :
    (∃ h f, Recoverable p' r h f) ∧ AllocInv (reopened p' r) [] r := by
  obtain ⟨h₁, f, hs⟩ := hinv.safe
  obtain ⟨h₂, hrec⟩ := (hs.faultInv.crash hc).resolve_right (by simp)
  refine ⟨⟨h₂, f, hrec⟩, ⟨h₂, f, hrec.safe⟩, ⟨h₂, hrec.tree⟩, fun older holder => ?_, .refl _, nofun⟩
  have hslot : p'.disk (metaSlot (r.generation + 1)) = m.pager.disk (metaSlot (r.generation + 1)) := by
    rcases hc.disk (metaSlot (r.generation + 1)) with hd | ⟨page, hpage, -⟩
    · exact hd
    · exact absurd (hs.pending _ hpage).1 (metaSlot_lt _).not_ge
  obtain ⟨hgen, K, hroot, hkept, hreopened⟩ := hinv.prior older (hslot ▸ holder)
  have hkept' : Kept (reopened p' r) K older.generation := hreopened.congr fun q hq => by
    rcases hc.disk q with hd | ⟨page, hpage, -⟩
    · exact hd
    · exact absurd hq (hkept.unwritten _ hpage)
  exact ⟨hgen, K, hroot, hkept', hkept'.congr fun _ _ => rfl⟩

theorem AllocInv.moved (hinv : AllocInv m live r) (hc : c ≠ .commit) :
    AllocInv (m.run c.program).2 live r := by
  obtain ⟨h₁, f, hs⟩ := hinv.safe
  obtain ⟨h, htree⟩ := hinv.tree
  obtain ⟨-, κ, N, hk⟩ := Call.known htree hc
  rcases run_call htree c with ⟨m', h', hrun, hok⟩ | ⟨⟨e, hrun⟩, -⟩
  · rw [hrun] at hk ⊢
    obtain ⟨k, hkey⟩ : ∃ k, c.key? = some k := by
      cases c with
      | put key value | remove key => exact ⟨key, rfl⟩
      | commit => exact absurd rfl hc
    have hmoved := hok.moved k hkey
    obtain ⟨h₂, hs'⟩ := (hs.faultInv.moved hmoved htree.own
      (fun q hq => ⟨pathAt_subset _ _ hq.1, hq.2⟩) nofun).safe
    refine ⟨⟨h₂, f, hs'⟩, ⟨h', hok.inv⟩, fun older holder => ?_, hmoved.readers ▸ hinv.readers,
      fun s hs => ?_⟩
    · obtain ⟨hgen, K, hroot, hkept, hreopened⟩ := hinv.prior older (hmoved.disk ▸ holder)
      have hlast : r.generation = m.state.generation := hs.generation.symm
      refine ⟨hgen, K, hroot, hkept.moved hmoved (fun q hq => hq.2) ?_ ?_,
        hreopened.congr fun q _ => congrFun hmoved.disk q⟩
      · rw [← hlast, ← hgen]
        exact Nat.le_succ _
      · rw [← hlast, hgen]
    · obtain ⟨hle, hguard⟩ := hinv.live s hs
      exact ⟨hmoved.generation ▸ hle, hguard.known hle hk⟩
  · rw [hrun]
    exact hinv

theorem Guard.of_same (hguard : Guard m root g) (hcount : m'.pager.pageCount = m.pager.pageCount)
    (hpage : ∀ q, firstDataPage ≤ q → q < m.pager.pageCount → m'.pager.page? q = m.pager.page? q)
    (hfree : m'.state.free = m.state.free) : Guard m' root g := by
  obtain ⟨K, hroot, hclosed, hheld⟩ := hguard
  refine ⟨K, hroot, fun q hq page hp => ?_, fun q hq => ?_⟩
  · exact hclosed q hq page (hpage q (hheld q hq).start (hheld q hq).lt ▸ hp)
  · obtain ⟨h₁, h₂, h₃⟩ := hheld q hq
    exact ⟨h₁, hcount ▸ h₂, hfree ▸ h₃⟩

/-- A commit keeps the invariant: the last generation is the prior one from then on. -/
theorem AllocInv.committed (hinv : AllocInv m live r) :
    AllocInv (committed m) live (metaRecord m) := by
  obtain ⟨h₁, f, hs⟩ := hinv.safe
  obtain ⟨h, htree⟩ := hinv.tree
  obtain ⟨f', hf'⟩ := exists_represents (contents m h)
  have hstart := htree.own.start
  have hbuild : m.state.building = r.generation + 1 := by rw [TreeState.building, hs.generation]
  obtain ⟨h₂, hs'⟩ := (hs.faultInv.committed htree hf').safe
  refine ⟨⟨h₂, f', hs'⟩, ⟨h, htree.committed.1⟩, fun older holder => ?_, hinv.readers,
    fun s hs => ?_⟩
  · have hgen : (metaRecord m).generation = r.generation + 1 := hbuild
    rw [hgen, disk_committed, hbuild, if_neg (metaSlot_succ_ne _), metaSlot_succ_succ,
      hs.disk_flush (.inl (metaSlot_lt _)), hs.disk.slot] at holder
    obtain rfl := TreePage.metaPage.inj (Option.some.inj holder)
    have hkept := hs.kept
    refine ⟨hgen.symm, _, self_mem_pagesAt, hkept.committed hstart, ?_⟩
    refine ⟨fun q hq page hpage => ?_, fun q hq => ?_, fun q _ => Finset.notMem_empty q,
      fun w hw => absurd hw List.not_mem_nil⟩
    · exact hkept.closed q hq page ((hkept.disk_committed hq).symm.trans hpage)
    · obtain ⟨h₁, h₂, h₃⟩ := hkept.held q hq
      exact ⟨h₁, h₂, fun e he => h₃ e (List.mem_of_mem_take he)⟩
  · obtain ⟨hle, hguard⟩ := hinv.live s hs
    exact ⟨hle.trans (Nat.le_succ _), hguard.of_same (pageCount_committed hstart)
      (fun q hq hlt => page?_committed hq hlt) rfl⟩

theorem AllocInv.call (hinv : AllocInv m live r) (c : Call) :
    ∃ r', AllocInv (m.run c.program).2 live r' := by
  by_cases hc : c = .commit
  · subst hc
    have hrun : m.run Call.commit.program = (.ok .done, BTree.committed m) := by
      rw [Call.program, Machine.run_bind_ok (run_commit m)]
      rfl
    rw [hrun]
    exact ⟨_, hinv.committed⟩
  · exact ⟨r, hinv.moved hc⟩

theorem AllocInv.readers_congr (hinv : AllocInv m live r) {live' : List Snapshot} {readers : List Nat}
    (hreaders : (live'.map Snapshot.generation).Perm readers)
    (hlive : ∀ s ∈ live', s.generation ≤ m.state.generation ∧ Guard m s.root s.generation) :
    AllocInv { m with state := { m.state with readers } } live' r where
  safe := by
    obtain ⟨h₁, f, hs⟩ := hinv.safe
    exact ⟨h₁, f, { hs with }⟩
  tree := by
    obtain ⟨h, htree⟩ := hinv.tree
    exact ⟨h, ⟨htree.wf, { htree.own with }, htree.root⟩, htree.entries⟩
  prior older holder := by
    obtain ⟨hgen, K, hroot, hkept, hreopened⟩ := hinv.prior older holder
    exact ⟨hgen, K, hroot, { hkept with held := fun q hq => { hkept.held q hq with } }, hreopened⟩
  readers := hreaders
  live s hs := by
    obtain ⟨hle, K, hroot, hclosed, hheld⟩ := hlive s hs
    exact ⟨hle, K, hroot, hclosed, fun q hq => { hheld q hq with }⟩

theorem inv_start {file : Machine} (hempty : ∀ id, file.pager.disk id = none)
    (hpending : file.pager.pending = []) :
    AllocInv (BTree.committed (startedTree file)) [] (metaRecord (startedTree file)) where
  safe := ⟨0, _, safe_start hempty hpending⟩
  tree := ⟨0, (startedTree_inv file).1.committed.1⟩
  prior older holder := by
    change (BTree.committed (startedTree file)).pager.disk
      (metaSlot ((startedTree file).state.building + 1)) = _ at holder
    rw [disk_committed, if_neg (metaSlot_succ_ne _)] at holder
    simp only [startedTree, Pager.flush, Pager.write, hpending, hempty] at holder
    cases holder
  readers := .refl _
  live := nofun

theorem AllocRun.inv (hrun : AllocRun m live) : ∃ r, AllocInv m live r := by
  induction hrun with
  | start file path hcount hempty hpending =>
    rw [run_openTree_fresh hcount path]
    exact ⟨_, inv_start hempty hpending⟩
  | call c _ hroom ih =>
    obtain ⟨r, hinv⟩ := ih
    rw [exec_eq c.program_lasting hroom]
    exact hinv.call c
  | @snapshot m m' live s _ hs ih =>
    obtain ⟨r, hinv⟩ := ih
    obtain ⟨h, htree⟩ := hinv.tree
    rw [run_snapshot m] at hs
    obtain ⟨⟨⟩, rfl⟩ := Prod.mk.inj hs
    refine ⟨r, hinv.readers_congr (hinv.readers.cons _) fun s hs => ?_⟩
    rcases List.mem_cons.1 hs with rfl | hs
    · exact ⟨le_rfl, htree.guard _⟩
    · exact hinv.live s hs
  | @drop m live s _ hs ih =>
    obtain ⟨r, hinv⟩ := ih
    rw [releaseSnapshot, run_withLock, run_modifyState]
    refine ⟨r, hinv.readers_congr ?_ fun s' hs' => hinv.live s' (List.mem_of_mem_erase hs')⟩
    have hperm := (List.perm_cons_erase hs).map Snapshot.generation
    have herase := (hperm.symm.trans hinv.readers).erase s.generation
    rwa [List.map_cons, List.erase_cons_head] at herase
  | @reopen m m' live p s path _ hcrash hopen ih =>
    obtain ⟨r, hinv⟩ := ih
    obtain ⟨⟨h, f, hrec⟩, hinv'⟩ := hinv.crash hcrash
    have hrun := hcrash.openTree hrec s path
    obtain rfl : reopened p r = m' := congrArg Prod.snd (hrun.symm.trans hopen)
    exact ⟨r, hinv'⟩

/-! ## What is handed out -/

/-- A page that neither the root, nor a meta page, nor a live snapshot leads to. -/
structure Unreachable (m : Machine) (live : List Snapshot) (p : PageId) : Prop where
  root : ¬ Reaches m.pager.page? m.state.root p
  metas : ∀ slot ∈ [metaA, metaB], ∀ record, m.pager.page? slot = some (.metaPage record) →
    ¬ Reaches m.pager.page? record.root p
  live : ∀ s ∈ live, ¬ Reaches m.pager.page? s.root p

/-- The root, the meta pages and the live snapshots are guarded, for a generation that is kept. -/
structure Guarded (m : Machine) (live : List Snapshot) : Prop where
  root : Guard m m.state.root m.state.generation
  metas : ∀ slot ∈ [metaA, metaB], ∀ record, m.pager.page? slot = some (.metaPage record) →
    ∃ g, m.state.generation ≤ g + 1 ∧ Guard m record.root g
  live : ∀ s ∈ live, s.generation ∈ m.state.readers ∧ Guard m s.root s.generation

theorem Guarded.unreachable (hg : Guarded m live) (hp : Fresh m p) : Unreachable m live p where
  root hreach := (hg.root.held hreach).not_fresh (Nat.le_succ _) hp
  metas slot hslot record hrecord hreach := by
    obtain ⟨g, hle, hguard⟩ := hg.metas slot hslot record hrecord
    exact (hguard.held hreach).not_fresh hle hp
  live s hs hreach := by
    obtain ⟨hpin, hguard⟩ := hg.live s hs
    exact (hguard.held hreach).not_fresh_of_mem hpin hp

theorem metaSlot_of_mem {slot : PageId} (hslot : slot ∈ [metaA, metaB]) (g : Nat) :
    slot = metaSlot g ∨ slot = metaSlot (g + 1) := by
  rcases metaSlot_cases g with ⟨h₁, h₂⟩ | ⟨h₁, h₂⟩ <;> rw [h₁, h₂]
  · simpa using hslot
  · simpa [or_comm] using hslot

theorem slot_lt {slot : PageId} (hslot : slot ∈ [metaA, metaB]) : slot < firstDataPage := by
  rcases metaSlot_of_mem hslot 0 with rfl | rfl <;> exact metaSlot_lt _

section

variable (hinv : AllocInv m live r)
include hinv

theorem AllocInv.metas {slot : PageId} (hslot : slot ∈ [metaA, metaB]) {record : MetaState}
    (hrecord : m.pager.disk slot = some (.metaPage record)) :
    record.generation ≤ m.state.generation ∧ m.state.generation ≤ record.generation + 1 ∧
      Guard m record.root record.generation := by
  obtain ⟨h₁, f, hs⟩ := hinv.safe
  rcases metaSlot_of_mem hslot r.generation with rfl | rfl
  · rw [hs.disk.slot] at hrecord
    obtain rfl := TreePage.metaPage.inj (Option.some.inj hrecord)
    exact ⟨hs.generation.ge, hs.generation.le.trans (Nat.le_succ _), hs.kept.guard self_mem_pagesAt⟩
  · obtain ⟨hgen, K, hroot, hkept, -⟩ := hinv.prior record hrecord
    refine ⟨?_, ?_, hkept.guard hroot⟩ <;> rw [hs.generation] <;> omega

theorem AllocInv.page?_slot {slot : PageId} (hslot : slot ∈ [metaA, metaB]) :
    m.pager.page? slot = m.pager.disk slot := by
  obtain ⟨h₁, f, hs⟩ := hinv.safe
  obtain ⟨h, htree⟩ := hinv.tree
  have hlt := slot_lt hslot
  have hlookup : m.pager.pending.lookup slot = none :=
    lookup_eq_none fun w hw heq => hlt.not_ge (heq ▸ (hs.pending w hw).1)
  rw [Pager.page?, hlookup, if_pos (hlt.trans_le htree.own.start)]

theorem AllocInv.guarded (hk : Known m m' κ N) : Guarded m' live where
  root := hk.guard_root
  metas slot hslot record hrecord := by
    obtain ⟨ws, hws, hin⟩ := hk.pending
    obtain ⟨h, htree⟩ := hinv.tree
    have hlt := slot_lt hslot
    have hsame := Pager.page?_of_writes hws hk.disk hk.pageCount (hlt.trans_le htree.own.start)
      fun w hw heq => hlt.not_ge (heq ▸ (hk.held _ (.inl (hin w hw))).start)
    rw [hsame, hinv.page?_slot hslot] at hrecord
    obtain ⟨hle, hlate, hguard⟩ := hinv.metas hslot hrecord
    exact ⟨_, hk.generation ▸ hlate, hguard.known hle hk⟩
  live s hs := by
    obtain ⟨hle, hguard⟩ := hinv.live s hs
    refine ⟨hk.readers (hinv.readers.mem_iff.1 (List.mem_map_of_mem hs)), hguard.known hle hk⟩

end

end Runs

theorem exec_allocate_fst (m : Machine) : (m.exec allocate).1 = (m.run allocate).1 := by
  rcases htake : m.state.takeFree with _ | r <;>
    simp [Machine.exec, Machine.run, allocate, Machine.act, Machine.answer, htake]

/-- In every run in which the file stays below the limit of the page ids, the free list has no
    repetitions and nothing that the root leads to, between two calls; and no page that `allocate`
    hands out, at any point of a put or of a removal, can be reached from the root, from a meta page
    or from a live snapshot. -/
theorem allocation_safe {live : List Snapshot} (hrun : AllocRun m live) :
    (m.state.free.map FreeEntry.page).Nodup ∧
    (∀ e ∈ m.state.free, ¬ Reaches m.pager.page? m.state.root e.page) ∧
    ∀ c : Call, c ≠ .commit → ∀ (n : Nat) (p : PageId) (m' : Machine), Roomy (after n c.program m) →
      (execAfter n c.program m).exec allocate = (.ok p, m') →
      Unreachable (execAfter n c.program m) live p := by
  obtain ⟨r, hinv⟩ := hrun.inv
  obtain ⟨h, htree⟩ := hinv.tree
  refine ⟨htree.own.freeNodup, fun e he hreach => ?_, fun c hc n p m' hroom hp => ?_⟩
  · exact htree.own.notFree e.page (htree.wf.reaches hreach) e he rfl
  · rw [execAfter_eq c.program_lasting hroom] at hp ⊢
    obtain ⟨p', m'', hp', hfresh, -⟩ := run_allocate (after n c.program m)
    have hfst := (congrArg Prod.fst hp).symm.trans (exec_allocate_fst _)
    rw [hp'] at hfst
    obtain rfl := Except.ok.inj hfst
    obtain ⟨κ, N, hk⟩ := (Call.known htree hc).1 n
    exact (hinv.guarded hk).unreachable hfresh

/-- A page is handed out after a put, a commit and a snapshot. -/
theorem allocation_safe_after_snapshot : ∃ m s p m', AllocRun m [s] ∧
    (execAfter 0 (Call.put [2] [8]).program m).exec allocate = (.ok p, m') ∧
    Unreachable (execAfter 0 (Call.put [2] [8]).program m) [s] p := by
  have hstart : AllocRun (newFile.run (openTree "index")).2 [] :=
    .start newFile "index" (by decide) (fun _ => rfl) rfl
  have hput := hstart.call (.put [1] [7]) (by decide)
  have hrun := AllocRun.snapshot (hput.call .commit (by decide)) (run_snapshot _)
  exact ⟨_, _, _, _, hrun, rfl, (allocation_safe hrun).2.2 (.put [2] [8]) nofun 0 _ _ (by decide) rfl⟩

/-- Inside a put, the page that it copies is on the free list while the root still leads to it. -/
theorem free_page_reachable : ¬ ∀ {m : Machine} {live : List Snapshot}, AllocRun m live →
    ∀ (c : Call) (n : Nat), Roomy (after n c.program m) →
      ∀ e ∈ (execAfter n c.program m).state.free,
        ¬ Reaches (execAfter n c.program m).pager.page? (execAfter n c.program m).state.root e.page := by
  intro hall
  have hstart : AllocRun (newFile.run (openTree "index")).2 [] :=
    .start newFile "index" (by decide) (fun _ => rfl) rfl
  exact hall hstart (.put [1] [7]) 22 (by decide) ⟨2, 2⟩ (by decide) .refl

end BTree

end FacetQL
