import FacetQL.Storage.BTree.Crash
import FacetQL.Storage.BTree.Snapshot

/-!
# Commits that fail

A commit that fails after its first flush has handed a meta page to the pager, which may
reach the disk at any time from then on: on its own, or with the pages that the next commit
flushes. The generation has not moved, and the pages of the tree are still dirty, so that
puts and removals go on writing them in place, below a root that the meta page names.

* `crash_atomic`: a crash leaves the last commit, or the one in progress;
* `failed_commit_safe`: when a crash leaves some commit, no older than the last one;
* `failed_commit_unsafe`: one put after a failed commit is enough to find others.
-/

namespace FacetQL

namespace BTree

/-- Which I/O step of a commit fails. -/
inductive CommitFault
  | dataFlush
  | metaWrite
  | metaFlush
  deriving DecidableEq, Repr

/-- The tree after a commit of which a step has failed. When the first flush fails, nothing has
    changed; a meta page that cannot be written stays in the cache. -/
def failedCommit : CommitFault → Machine → Machine
  | .dataFlush, m => m
  | .metaWrite, m => attempted m
  | .metaFlush, m => attempted m

section Stays

variable {m m' : Machine} {x : MetaState} {h : Nat} {f : KeyMap} {W : Set PageId}
  {L L' : Multiset PageId}

section

variable (hs : Stays m x h f)
include hs

/-- The pages of the tree can be reached from its root. -/
theorem Stays.reaches {q : PageId} (hq : q ∈ committedPages m.pager x h) :
    Reaches m.pager.page? x.root q := by
  have hsame : ∀ q ∈ committedPages m.pager x h,
      m.pager.page? q = (reopened m.pager x).pager.page? q := fun q hq => by
    have hlt : q < x.highWater := (hs.tree.own.range q hq).2
    rw [page?_reopened, if_pos hlt, Pager.page?, hs.lookup hq, if_pos (hlt.trans_le hs.pageCount)]
  have hpages : pagesAt m.pager.page? h x.root = committedPages m.pager x h := pagesAt_congr hsame
  exact reaches_of_mem_pagesAt (hpages.symm ▸ hq)

end

/-- The tree being built is as it was. -/
theorem TreeInv.attempted (hinv : TreeInv m h) :
    TreeInv (attempted m) h ∧ contents (BTree.attempted m) h = contents m h := by
  have hslot := metaSlot_lt m.state.building
  have hcount : (BTree.attempted m).pager.pageCount = m.pager.pageCount :=
    Pager.pageCount_write (p := m.pager.flush) (hslot.trans_le hinv.own.start) _
  have hsame : ∀ q ∈ treePages m h, (BTree.attempted m).pager.page? q = m.pager.page? q := by
    intro q hq
    obtain ⟨hge, hlt⟩ := hinv.own.range q hq
    have hlt' : metaSlot m.state.building < m.pager.flush.pageCount := hslot.trans_le hinv.own.start
    rw [BTree.attempted, Pager.page?_write hlt', if_neg (hslot.trans_le hge).ne', Pager.page?_flush hlt]
  obtain ⟨h₁, -, -, -, h₅, h₆, -⟩ := hinv.own
  obtain ⟨htree, hentries, -⟩ := hinv.congr hsame
    ⟨hcount ▸ h₁, List.nodup_nil, by simp [BTree.attempted], Nat.zero_le _, h₅, hcount ▸ h₆,
      by simp [BTree.attempted]⟩ rfl rfl
  exact ⟨htree, hentries⟩

end Stays

/-! ## Runs -/

/-- The call writes in place to a page that a failed commit's root leads to. -/
def Call.Overwrites (c : Call) (m : Machine) (root : PageId) : Prop :=
  c.Accepted ∧ ¬ c.Vain m ∧ ∃ q ∈ c.descent m, q ∈ m.state.dirty ∧ Reaches m.pager.page? root q

/-- The call writes in place to the tree of no failed commit. -/
def Call.Spares (c : Call) (m : Machine) (failed : List Attempt) : Prop :=
  ∀ x ∈ failed, ¬ c.Overwrites m x.1.root

/-- The trees that calls, failed commits and crashes lead to, with the map they hold, that of
    the last commit that returned, and the failed commits since that may have left a meta page.
    Commits fail only when `Fails` holds; every call is allowed, and leaves the file with room.
    -/
inductive FaultRun (Fails : Prop) (Allowed : Call → Machine → List Attempt → Prop)
    (Room : Machine → Prop) : (m : Machine) → (current last : KeyMap) → (failed : List Attempt) → Prop
  | start (file : Machine) (path : String) (hcount : file.pager.pageCount < firstDataPage)
      (hempty : ∀ id, file.pager.disk id = none) (hpending : file.pager.pending = []) :
      FaultRun Fails Allowed Room (file.run (openTree path)).2 (fun _ => none) (fun _ => none) []
  | opened {p : Pager} {r : MetaState} {h : Nat} {f : KeyMap} (hrec : Recoverable p r h f) :
      FaultRun Fails Allowed Room (reopened p r) f f []
  | call {m : Machine} {current last : KeyMap} {failed : List Attempt} (c : Call)
      (hrun : FaultRun Fails Allowed Room m current last failed) (hc : Allowed c m failed)
      (hroom : Room (m.run c.program).2) :
      FaultRun Fails Allowed Room (m.exec c.program).2 (c.outcome (m.exec c.program).1 current)
        (if c = .commit then current else last) (if c = .commit then [] else failed)
  | failed {m : Machine} {current last : KeyMap} {failed : List Attempt} (fault : CommitFault)
      (hrun : FaultRun Fails Allowed Room m current last failed) (hfails : Fails) :
      FaultRun Fails Allowed Room (failedCommit fault m) current last
        (if fault = .dataFlush then failed else (metaRecord m, current) :: failed)
  | reopen {m m' : Machine} {current last f : KeyMap} {failed : List Attempt} {p : Pager}
      {s : TreeState} (c : Call) (n : Nat) (path : String)
      (hrun : FaultRun Fails Allowed Room m current last failed) (hc : Allowed c m failed)
      (hroom : Room (after n c.program m)) (hcrash : CrashFile (execAfter n c.program m).pager p)
      (hopen : (⟨p, s⟩ : Machine).run (openTree path) = (.ok (), m')) (hf : Holds m' f) :
      FaultRun Fails Allowed Room m' f f []

/-- The runs without failing commits, with the maps of the tree and of the last commit. -/
abbrev History (Room : Machine → Prop) (m : Machine) (current committed : KeyMap) : Prop :=
  FaultRun False Call.Spares Room m current committed []

section FaultInv

variable {m m' : Machine} {r : MetaState} {h : Nat} {current last f : KeyMap} {failed : List Attempt}
  {p : Pager} {c : Call} {W : Set PageId} {L L' : Multiset PageId}

section

variable (hinv : FaultInv m r last failed)
include hinv

/-- A call that spares the trees of the failed commits keeps the invariant. -/
theorem FaultInv.call (htree : TreeInv m h) (hcommit : c ≠ .commit) (hc : c.Spares m failed) :
    FaultInv (m.run c.program).2 r last failed := by
  by_cases hacc : c.Accepted
  swap
  · obtain ⟨e, hrun⟩ := run_refused (m := m) hacc
    rwa [hrun]
  rcases run_call htree c with ⟨m', h', hrun, hok⟩ | ⟨⟨e, hrun⟩, -⟩
  · rw [hrun]
    obtain ⟨k, hkey⟩ : ∃ k, c.key? = some k := by
      cases c with
      | put key value | remove key => exact ⟨key, rfl⟩
      | commit => exact absurd rfl hcommit
    by_cases hvain : c.Vain m
    · obtain ⟨key, rfl, hnone⟩ := hvain.absent htree
      rwa [hok.absent key rfl hnone]
    · refine hinv.moved (hok.moved k hkey) htree.own (fun q hq => ⟨pathAt_subset _ _ hq.1, hq.2⟩)
        fun x hx h₁ hs q hq hw => hc x hx ⟨hacc, hvain, q, ?_, hw.2, hs.reaches hq⟩
      have hlevel := hok.level k hkey
      have hpath := (htree.wf.descends hlevel k).pathAt_eq hlevel.le
      simpa only [Call.descent, hkey, hpath] using hw.1
  · rwa [hrun]

/-- What a crash at any point of a call leaves. -/
theorem FaultInv.crash_call (htree : TreeInv m h) (hr : Represents (contents m h) current)
    (hc : c.Spares m failed) (n : Nat) (hcrash : CrashFile (after n c.program m).pager p) :
    ∃ r' h' f', Recoverable p r' h' f' ∧
      (f' = last ∨ (∃ x ∈ failed, f' = x.2) ∨ c = .commit ∧ f' = current) := by
  have hkept : ((∃ h, Recoverable p r h last) ∨ ∃ x ∈ failed, ∃ h, Recoverable p x.1 h x.2) →
      ∃ r' h' f', Recoverable p r' h' f' ∧
        (f' = last ∨ (∃ x ∈ failed, f' = x.2) ∨ c = .commit ∧ f' = current) := by
    rintro (⟨h, hrec⟩ | ⟨x, hx, h, hrec⟩)
    · exact ⟨_, _, _, hrec, .inl rfl⟩
    · exact ⟨_, _, _, hrec, .inr (.inl ⟨x, hx, rfl⟩)⟩
  by_cases hcommit : c = .commit
  · subst hcommit
    rcases after_commit m n with hp | hp | hp | hp <;> rw [hp] at hcrash
    · exact hkept (hinv.crash hcrash)
    · exact hkept (hinv.crash hcrash.of_flush)
    · -- The commit may yet fail: its tree is one of those that a crash can leave.
      rcases (hinv.attempted htree hr).crash hcrash with hlast | ⟨x, hx, h, hrec⟩
      · exact hkept (.inl hlast)
      rcases List.mem_cons.1 hx with rfl | hx
      · exact ⟨_, _, _, hrec, .inr (.inr ⟨rfl, rfl⟩)⟩
      · exact hkept (.inr ⟨x, hx, h, hrec⟩)
    · obtain ⟨h, hrec⟩ := ((hinv.committed htree hr).crash hcrash).resolve_right (by simp)
      exact ⟨_, _, _, hrec, .inr (.inr ⟨rfl, rfl⟩)⟩
  · exact hkept ((hinv.call htree hcommit hc).crash
      (hcrash.of_grown (grown_after (Call.program_quiet hcommit) n m).2))

end

end FaultInv

variable {Fails : Prop} {m : Machine} {current last : KeyMap} {failed : List Attempt} {p : Pager}

/-- In a run that spares the failed commits, the tree holds the current map. -/
theorem FaultRun.inv (hrun : FaultRun Fails Call.Spares Roomy m current last failed) :
    ∃ r, FaultInv m r last failed ∧ Holds m current := by
  induction hrun with
  | start file path hcount hempty hpending =>
    rw [run_openTree_fresh hcount path]
    exact ⟨_, (safe_start hempty hpending).faultInv, holds_committed_started file⟩
  | opened hrec => exact ⟨_, hrec.safe.faultInv, _, hrec.tree, hrec.holds⟩
  | @call m current last failed c _ hc hroom ih =>
    obtain ⟨r, hinv, h, htree, hr⟩ := ih
    rw [exec_eq c.program_lasting hroom]
    have hholds := Holds.call ⟨h, htree, hr⟩ c
    by_cases hcommit : c = .commit
    · subst hcommit
      have hrun : (m.run Call.commit.program).2 = committed m := by
        rw [Call.program, Machine.run_bind_ok (run_commit m)]
        rfl
      refine ⟨metaRecord m, ?_, hholds⟩
      rw [hrun, if_pos rfl, if_pos rfl]
      exact hinv.committed htree hr
    · refine ⟨r, ?_, hholds⟩
      rw [if_neg hcommit, if_neg hcommit]
      exact hinv.call htree hcommit hc
  | @failed m current last failed fault _ _ ih =>
    obtain ⟨r, hinv, h, htree, hr⟩ := ih
    have hattempted : ∃ r, FaultInv (attempted m) r last ((metaRecord m, current) :: failed) ∧
        Holds (attempted m) current :=
      ⟨r, hinv.attempted htree hr, h, htree.attempted.1, htree.attempted.2.symm ▸ hr⟩
    cases fault with
    | dataFlush => exact ⟨r, hinv, h, htree, hr⟩
    | metaWrite | metaFlush => exact hattempted
  | @reopen m m' current last f failed p s c n path _ hc hroom hcrash hopen hf ih =>
    obtain ⟨r, hinv, h, htree, hr⟩ := ih
    rw [execAfter_eq c.program_lasting hroom] at hcrash
    obtain ⟨r₁, h₁, f₁, hrec, -⟩ := hinv.crash_call htree hr hc n hcrash
    obtain ⟨rfl, rfl⟩ := hcrash.reopened hrec hopen hf
    exact ⟨r₁, hrec.safe.faultInv, h₁, hrec.tree, hrec.holds⟩

/-- A crash leaves the map of the last commit, of one that failed since, or of that in progress. -/
theorem FaultRun.crash (hrun : FaultRun Fails Call.Spares Roomy m current last failed) (c : Call)
    (n : Nat) (hc : c.Spares m failed) (hroom : Roomy (after n c.program m))
    (hcrash : CrashFile (execAfter n c.program m).pager p) (s : TreeState) (path : String) :
    ∃ m', (⟨p, s⟩ : Machine).run (openTree path) = (.ok (), m') ∧
      (Holds m' last ∨ (∃ x ∈ failed, Holds m' x.2) ∨ c = .commit ∧ Holds m' current) := by
  obtain ⟨r, hinv, h, htree, hr⟩ := hrun.inv
  rw [execAfter_eq c.program_lasting hroom] at hcrash
  obtain ⟨r', h', f', hrec, hf⟩ := hinv.crash_call htree hr hc n hcrash
  refine ⟨_, hcrash.openTree hrec s path, ?_⟩
  have hholds : Holds (reopened p r') f' := ⟨h', hrec.tree, hrec.holds⟩
  rcases hf with rfl | ⟨x, hx, rfl⟩ | ⟨hcommit, rfl⟩
  · exact .inl hholds
  · exact .inr (.inl ⟨x, hx, hholds⟩)
  · exact .inr (.inr ⟨hcommit, hholds⟩)

theorem Holds.get {f : KeyMap} (hf : Holds m f) {key : Bytes} {value : Option Bytes}
    (hget : (m.run (BTree.get key)).1 = .ok value) : f key = value := by
  obtain ⟨h, htree, hr⟩ := hf
  rcases lt_or_ge h maxTreeDepth with hh | hh
  · rw [run_get htree hh key] at hget
    exact (hr key).symm.trans (Except.ok.inj hget)
  · rw [run_get_deep htree hh key] at hget
    cases hget

/-! ## Runs in which no commit fails -/

/-- In every run in which no commit fails and the file stays below the limit of the page ids,
    opening the file after a crash at any point of any call succeeds, and the tree holds the map
    of the last commit that returned, or, when the crash falls into a commit, the map of that
    commit. -/
theorem crash_atomic {m : Machine} {p' : Pager} {current committed : KeyMap}
    (hist : History Roomy m current committed) (c : Call) (n : Nat)
    (hroom : Roomy (after n c.program m)) (hcrash : CrashFile (execAfter n c.program m).pager p')
    (s : TreeState) (path : String) :
    ∃ m', (⟨p', s⟩ : Machine).run (openTree path) = (.ok (), m') ∧
      (Holds m' committed ∨ c = .commit ∧ Holds m' current) := by
  obtain ⟨m', hopen, hheld⟩ := hist.crash c n nofun hroom hcrash s path
  refine ⟨m', hopen, hheld.imp_right fun h => h.resolve_left ?_⟩
  rintro ⟨x, hx, -⟩
  cases hx

/-- A new tree with a committed entry that has been changed since. -/
def changedTree : Machine :=
  (execCalls [.put [1] [7], .commit, .put [1] [8]] (newFile.run (openTree "index")).2).2

theorem changedTree_history : ∃ current committed, History Roomy changedTree current committed ∧
    committed [1] = some [7] ∧ current [1] = some [8] := by
  have hput := (@FaultRun.start False Call.Spares Roomy newFile "index" (by decide) (fun _ => rfl)
    rfl).call (.put [1] [7]) nofun (by decide)
  have hcommit := hput.call .commit nofun (by decide)
  exact ⟨_, _, hcommit.call (.put [1] [8]) nofun (by decide), rfl, rfl⟩

/-- The file of that tree when the next commit has been interrupted, with its meta page torn. -/
def tornFile : Pager where
  path := "index"
  pageCount := 5
  disk id := if id = metaB then none else changedTree.pager.flush.disk id
  pending := []

theorem tornFile_crash : CrashFile (execAfter 5 Call.commit.program changedTree).pager tornFile where
  pending := rfl
  disk id := by
    by_cases hid : id = metaB
    · exact .inr ⟨.metaPage (metaRecord changedTree), hid ▸ List.mem_cons_self, .inr (if_pos hid)⟩
    · exact .inl (if_neg hid)
  pageCount id hid := by
    match id with
    | 0 | 1 | 2 | 3 | 4 => decide
    | n + 5 => exact absurd rfl hid

/-- A commit whose meta page is torn is lost, and the one before it is there. -/
theorem crash_atomic_torn_meta : ∃ m' current committed,
    History Roomy changedTree current committed ∧
    (⟨tornFile, newFile.state⟩ : Machine).run (openTree "index") = (.ok (), m') ∧
    committed [1] = some [7] ∧ current [1] = some [8] ∧ (m'.run (get [1])).1 = .ok (some [7]) ∧
    (Holds m' committed ∨ Call.commit = .commit ∧ Holds m' current) := by
  obtain ⟨current, committed, hist, hcommitted, hcurrent⟩ := changedTree_history
  obtain ⟨m', hopen, hheld⟩ := crash_atomic hist .commit 5 (by decide) tornFile_crash
    newFile.state "index"
  have hget : (((⟨tornFile, newFile.state⟩ : Machine).run (openTree "index")).2.run
      (get [1])).1 = .ok (some [7]) := by rfl
  rw [hopen] at hget
  exact ⟨m', current, committed, hist, hopen, hcommitted, hcurrent, hget, hheld⟩

theorem disk_execAfter {c : Call} (hc : c ≠ .commit) (n : Nat) (m : Machine) :
    (execAfter n c.program m).pager.disk = m.pager.disk := by
  have hact : ∀ op s, Quiet False op → (Machine.answer op s).2.pager.disk = s.pager.disk := by
    intro op s hop
    cases op with
    | flush | setPageCount pages => exact hop.elim
    | _ => rfl
  exact ((Call.program_quiet hc).advance_rel (R := fun m m' => m'.pager.disk = m.pager.disk)
    (fun _ => rfl) (by intro _ _ _ hab hbc; exact hbc.trans hab) hact n m).1

/-- The file after a crash at which the cache has written out the pages below `firstDataPage`. -/
def Pager.slotsWritten (q file : Pager) : Pager :=
  { file with disk := fun id => if id < firstDataPage then q.flush.disk id else file.disk id }

theorem slotsWritten_crash {q file : Pager} (hdisk : q.disk = file.disk) (hpending : file.pending = [])
    (hcount : ∀ id, file.disk id ≠ none → id < file.pageCount)
    (hstart : firstDataPage ≤ file.pageCount) : CrashFile q (Pager.slotsWritten q file) where
  pending := hpending
  disk id := by
    by_cases hid : id < firstDataPage
    · have hslot : (Pager.slotsWritten q file).disk id = (q.pending.lookup id).or (q.disk id) :=
        if_pos hid
      rcases hlookup : q.pending.lookup id with _ | page
      · exact .inl (by rw [hslot, hlookup, Option.none_or])
      · exact .inr ⟨page, mem_of_lookup hlookup, .inl (by rw [hslot, hlookup, Option.some_or])⟩
    · exact .inl ((if_neg hid).trans (congrFun hdisk.symm id))
  pageCount id hne := by
    by_cases hid : id < firstDataPage
    · exact hid.trans_le hstart
    · exact hcount id fun hnone => hne ((if_neg hid).trans hnone)

/-- The largest tree there are page ids for, after a put that has taken those of the meta pages. -/
def wrappedTree : Machine := execAfter 40 (Call.put [4] longValue).program (fullTree (pageLimit - 1))

/-- Without a bound on the pages, a crash can leave a file that cannot be opened. -/
theorem crash_not_atomic : ¬ ∀ {m : Machine} {p' : Pager} {current committed : KeyMap},
    History (fun _ => True) m current committed → ∀ (c : Call) (n : Nat),
      CrashFile (execAfter n c.program m).pager p' → ∀ (s : TreeState) (path : String),
      ∃ m', (⟨p', s⟩ : Machine).run (openTree path) = (.ok (), m') ∧
        (Holds m' committed ∨ c = .commit ∧ Holds m' current) := by
  intro hall
  have hpages : 4 ≤ pageLimit - 1 := by decide
  have hdisk : wrappedTree.pager.disk = (fullFile (pageLimit - 1)).disk := by
    rw [wrappedTree, disk_execAfter (by simp)]
    rfl
  have hcrash : CrashFile wrappedTree.pager
      (Pager.slotsWritten wrappedTree.pager (fullFile (pageLimit - 1))) := by
    refine slotsWritten_crash hdisk rfl (fun id hid => ?_) (by decide)
    match id with
    | 0 | 1 | 2 | 3 => exact lt_of_lt_of_le (by decide) hpages
    | n + 4 => exact absurd rfl hid
  have hist : History (fun _ => True) (fullTree (pageLimit - 1)) _ _ :=
    .opened (fullFile_recoverable hpages)
  obtain ⟨m', hopen, -⟩ := hall hist (.put [4] longValue) 40 hcrash newFile.state "index"
  obtain ⟨e, hrun⟩ := run_openTree_no_meta
    (p := Pager.slotsWritten wrappedTree.pager (fullFile (pageLimit - 1))) (by decide) rfl
    (by decide +kernel) (by decide +kernel) newFile.state "index"
  cases congrArg Prod.fst (hrun.symm.trans hopen)

/-! ## Runs in which commits fail -/

/-- In every run with failed commits in which no call writes in place to the tree of one of
    them, opening the file after a crash at any point of any call succeeds, and the tree holds
    the map of the last commit that returned, of a commit that has failed since, or of the
    commit that the crash falls into. -/
theorem failed_commit_safe {m : Machine} {current last : KeyMap} {failed : List Attempt} {p : Pager}
    (hrun : FaultRun True Call.Spares Roomy m current last failed) (c : Call) (n : Nat)
    (hc : c.Spares m failed) (hroom : Roomy (after n c.program m))
    (hcrash : CrashFile (execAfter n c.program m).pager p) (s : TreeState) (path : String) :
    ∃ m', (⟨p, s⟩ : Machine).run (openTree path) = (.ok (), m') ∧
      (Holds m' last ∨ (∃ x ∈ failed, Holds m' x.2) ∨ c = .commit ∧ Holds m' current) :=
  hrun.crash c n hc hroom hcrash s path

/-- A new tree with one entry, of which the commit has failed in its last step. -/
def failedFile : Machine :=
  failedCommit .metaFlush ((newFile.run (openTree "index")).2.exec (Call.put [1] [7]).program).2

theorem failedFile_run (Allowed : Call → Machine → List Attempt → Prop)
    (hput : Allowed (.put [1] [7]) (newFile.run (openTree "index")).2 []) : ∃ current x,
      FaultRun True Allowed Roomy failedFile current (fun _ => none) [x] ∧ x.2 [1] = some [7] := by
  have hstart := @FaultRun.start True Allowed Roomy newFile "index" (by decide) (fun _ => rfl) rfl
  exact ⟨_, _, .failed .metaFlush (hstart.call (.put [1] [7]) hput (by decide)) trivial, rfl⟩

theorem CrashFile.flushed {p : Pager} (hcount : ∀ id, p.flush.disk id ≠ none → id < p.pageCount) :
    CrashFile p p.flush :=
  CrashFile.of_flush ⟨rfl, fun _ => .inl rfl, hcount⟩

theorem failed_commit_safe_second_commit : ∃ m current last failed p,
    FaultRun True Call.Spares Roomy m current last failed ∧ failed ≠ [] ∧
    ∃ m', (⟨p, newFile.state⟩ : Machine).run (openTree "index") = (.ok (), m') ∧
      (Holds m' last ∨ (∃ x ∈ failed, Holds m' x.2) ∨ Call.commit = .commit ∧ Holds m' current) := by
  obtain ⟨current, x, hrun, -⟩ := failedFile_run Call.Spares nofun
  have hspares : Call.commit.Spares failedFile [x] := by
    rintro y - ⟨-, -, q, hq, -⟩
    cases hq
  have hcrash : CrashFile failedFile.pager failedFile.pager.flush := by
    refine .flushed fun id hid => ?_
    match id with
    | 0 | 1 | 2 | 3 => decide
    | n + 4 => exact absurd rfl hid
  exact ⟨failedFile, current, _, [x], _, hrun, by simp,
    failed_commit_safe hrun .commit 0 hspares (by decide) hcrash newFile.state "index"⟩

/-- After a failed commit, a put under the same key writes to the page that the failed commit's
    meta page leads to. When the page and the meta page reach the disk before a crash, the file
    has an entry that no commit has seen. -/
theorem failed_commit_unsafe : ¬ ∀ {m : Machine} {current last : KeyMap} {failed : List Attempt}
    {p : Pager}, FaultRun True (fun _ _ _ => True) Roomy m current last failed → ∀ (c : Call) (n : Nat),
      Roomy (after n c.program m) → CrashFile (execAfter n c.program m).pager p → ∀ (s : TreeState) (path : String),
      ∃ m', (⟨p, s⟩ : Machine).run (openTree path) = (.ok (), m') ∧
        (Holds m' last ∨ (∃ x ∈ failed, Holds m' x.2) ∨ c = .commit ∧ Holds m' current) := by
  intro hsafe
  obtain ⟨current, x, hrun, hx⟩ := failedFile_run (fun _ _ _ => True) trivial
  set p := (execAfter 16 (Call.put [1] [8]).program failedFile).pager.flush with hp
  have hcrash : CrashFile (execAfter 16 (Call.put [1] [8]).program failedFile).pager p := by
    refine .flushed fun id hid => ?_
    match id with
    | 0 | 1 | 2 | 3 => decide
    | n + 4 => exact absurd rfl hid
  obtain ⟨m', hopen, hm'⟩ := hsafe hrun (.put [1] [8]) 16 (by decide) hcrash newFile.state "index"
  have hget : (m'.run (get [1])).1 = .ok (some [8]) := by
    have hrun : (((⟨p, newFile.state⟩ : Machine).run (openTree "index")).2.run (get [1])).1 =
      .ok (some [8]) := by rfl
    rwa [hopen] at hrun
  rcases hm' with hlast | ⟨y, hy, hfailed⟩ | ⟨hcommit, -⟩
  · cases hlast.get hget
  · obtain rfl := List.mem_singleton.1 hy
    have hvalue := hx.symm.trans (hfailed.get hget)
    revert hvalue
    decide
  · cases hcommit

end BTree

end FacetQL
