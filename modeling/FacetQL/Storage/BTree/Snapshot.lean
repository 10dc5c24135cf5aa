import FacetQL.Storage.BTree.Refinement

/-!
# Snapshots

A snapshot pins the last committed generation, but it takes the current root: the
root of the generation being built. The pages of that generation are written in
place, so that a snapshot taken between a put and the commit after it sees what
later puts do to them.

* `snapshot_isolated`: the reads of an undisturbed snapshot answer from its map;
* `snapshot_not_isolated`: two puts are enough to change what a snapshot reads.
-/

namespace FacetQL

namespace BTree

open SortedMap

namespace Snapshot

/-- The value under a key as of a snapshot. -/
def get (s : Snapshot) (key : Bytes) : TreeProgram (Option Bytes) := getAt s.root key

/-- The entry nearest to a key as of a snapshot. -/
def seek (s : Snapshot) (key : Bytes) (mode : SeekMode) : TreeProgram (Option (Bytes × Bytes)) :=
  seekAt s.root key mode

/-- Visit a range as of a snapshot. -/
def forEachRange {β : Type} (s : Snapshot) (visit : Bytes → Bytes → β → Except IoError (Bool × β))
    (pre : Bytes) (startAfter : Option Bytes) (reverse : Bool) (turns : Nat) (b : β) :
    TreeProgram (Option β) :=
  forEachRangeAt visit s.root pre reverse turns startAfter b

/-- The reads of a snapshot answer from a map. -/
structure Answers (s : Snapshot) (m : Machine) (f : KeyMap) : Prop where
  get : ∀ key, m.run (s.get key) = (.ok (f key), m)
  seek : ∀ key mode, ∃ r, m.run (s.seek key mode) = (.ok r, m) ∧ Nearest f mode key r
  range : ∀ pre startAfter reverse, (∀ c ∈ startAfter, pre <+: c) →
    ∃ l, Range f pre startAfter reverse l ∧
      ∀ (β : Type) (visit : Bytes → Bytes → β → Except IoError (Bool × β)) (b : β) (turns : Nat),
        l.length < turns → m.run (s.forEachRange visit pre startAfter reverse turns b) =
          ((visitAll visit l b).map some, m)

/-- The pages a snapshot can read. -/
def pages (s : Snapshot) (m : Machine) : Multiset PageId := pagesAt m.pager.page? maxTreeDepth s.root

end Snapshot

/-- The pages a call descends through. -/
def Call.descent (c : Call) (m : Machine) : List PageId :=
  match c.key? with
  | some key => pathAt m.pager.page? key maxTreeDepth m.state.root
  | none => []

/-- A call is a removal of a key that is not there. -/
def Call.Vain (c : Call) (m : Machine) : Prop :=
  ∃ key, c = .remove key ∧ (m.run (get key)).1 = .ok none

/-- The call is not refused, and descends through a dirty page of the snapshot: it writes there. -/
def Call.Disturbs (c : Call) (m : Machine) (s : Snapshot) : Prop :=
  c.Accepted ∧ ¬ c.Vain m ∧ ∃ p ∈ c.descent m, p ∈ m.state.dirty ∧ p ∈ s.pages m

/-- No call of a run disturbs the snapshot. -/
def Undisturbed (s : Snapshot) : List Call → Machine → Prop
  | [], _ => True
  | c :: cs, m => ¬ c.Disturbs m s ∧ Undisturbed s cs (m.run c.program).2

/-! ## The levels of a tree -/

section Levels

variable {σ : Store} {h n : Nat} {lo k : Bytes} {hi : WithTop Bytes} {id : PageId}

/-- The path of a key does not depend on the levels left, once it has reached a leaf. -/
theorem Descent.pathAt_eq {levels : Nat} (hd : Descent σ k levels h id) (hn : h ≤ n) :
    pathAt σ k n id = pathAt σ k h id := by
  induction hd generalizing n with
  | leaf hpage => cases n <;> simp [pathAt, hpage]
  | branch hpage hchild _ _ ih =>
    obtain ⟨n, rfl⟩ : ∃ j, n = j + 1 := ⟨n - 1, by omega⟩
    rw [pathAt_branch hpage, pathAt_branch hpage, hchild, ih (Nat.le_of_succ_le_succ hn)]

theorem Wf.pagesAt_eq (hwf : Wf σ h lo hi id) (hn : h ≤ n) : pagesAt σ n id = pagesAt σ h id := by
  induction h generalizing n lo hi id with
  | zero =>
    obtain ⟨cells, hpage, -⟩ := hwf
    cases n <;> simp [pagesAt, hpage]
  | succ h ih =>
    obtain ⟨n, rfl⟩ : ∃ j, n = j + 1 := ⟨n - 1, by omega⟩
    obtain ⟨extra, cells, hpage, -, ht⟩ := hwf
    rw [pagesAt_branch lo hpage, pagesAt_branch lo hpage, pagesOf, pagesOf]
    congr 2
    refine List.map_congr_left fun x hx => ?_
    obtain ⟨mid, -, -, hwf, -⟩ := ht.exists_of_mem (l := x.1) (c := x.2) hx
    exact ih hwf (by omega)

end Levels

/-! ## Pinned pages -/

/-- The pages `P` are as in `σ`, and not handed out while the generation `g` is pinned. -/
structure Pinned (m : Machine) (σ : Store) (P : Multiset PageId) (g : Nat) : Prop where
  reader : g ∈ m.state.readers
  generation : g ≤ m.state.generation
  range : ∀ p ∈ P, firstDataPage ≤ p ∧ p < m.pager.pageCount
  free : ∀ e ∈ m.state.free, e.page ∈ P → g < e.generation
  same : ∀ p ∈ P, m.pager.page? p = σ p

variable {m m' : Machine} {h h' g : Nat} {σ : Store} {P : Multiset PageId} {s : Snapshot} {c : Call}

/-- A pinned page is not handed out. -/
theorem Pinned.not_fresh (hpin : Pinned m σ P g) {p : PageId} (hp : p ∈ P) : ¬ Fresh m p := by
  rintro (hc | ⟨e, he, rfl, hreuse⟩)
  · exact absurd (hpin.range p hp).2 hc.not_gt
  have hlate := hpin.free e he hp
  obtain ⟨oldest, holdest⟩ : ∃ o, m.state.readers.min? = some o :=
    Option.isSome_iff_exists.1 (List.isSome_min?_of_mem hpin.reader)
  have hle : oldest ≤ g := (List.min?_eq_some_iff.1 holdest).2 g hpin.reader
  have := hreuse.2 oldest holdest
  omega

theorem Pinned.moved {W : Set PageId} {L L' : Multiset PageId} (hpin : Pinned m σ P g)
    (hmoved : Moved m m' W L L') (hW : ∀ p ∈ P, p ∉ W) : Pinned m' σ P g where
  reader := hmoved.readers ▸ hpin.reader
  generation := hmoved.generation ▸ hpin.generation
  range p hp := (hpin.range p hp).imp_right fun hlt => hlt.trans_le hmoved.pageCount
  free e he hp := by
    rcases hmoved.freed e he with he | he
    · exact hpin.free e he hp
    · rw [he]
      exact Nat.lt_succ_of_le hpin.generation
  same p hp := by rw [hmoved.page?_eq (hW p hp) (hpin.not_fresh hp), hpin.same p hp]

theorem Pinned.committed (hpin : Pinned m σ P g) (hstart : firstDataPage ≤ m.pager.pageCount) :
    Pinned (committed m) σ P g where
  reader := hpin.reader
  generation := hpin.generation.trans (Nat.le_succ _)
  range p hp := by
    rw [pageCount_committed hstart]
    exact hpin.range p hp
  free := hpin.free
  same p hp := by
    rw [page?_committed (hpin.range p hp).1 (hpin.range p hp).2, hpin.same p hp]

theorem Call.Vain.absent (hvain : c.Vain m) (hinv : TreeInv m h) :
    ∃ key, c = .remove key ∧ find key (contents m h) = none := by
  obtain ⟨key, rfl, hget⟩ := hvain
  refine ⟨key, rfl, ?_⟩
  rcases lt_or_ge h maxTreeDepth with hh | hh
  · rw [run_get hinv hh key] at hget
    exact Except.ok.inj hget
  · rw [run_get_deep hinv hh key] at hget
    cases hget

theorem Pinned.call (hpin : Pinned m σ P g) (hinv : TreeInv m h) (hP : s.pages m = P)
    (hc : ¬ c.Disturbs m s) :
    Pinned (m.run c.program).2 σ P g ∧ ∃ h', TreeInv (m.run c.program).2 h' := by
  by_cases hacc : c.Accepted
  swap
  · obtain ⟨e, hrun⟩ := run_refused (m := m) hacc
    rw [hrun]
    exact ⟨hpin, h, hinv⟩
  rcases run_call hinv c with ⟨m', h', hrun, hok⟩ | ⟨⟨e, hrun⟩, -⟩
  · rw [hrun]
    refine ⟨?_, h', hok.inv⟩
    rcases hkey : c.key? with _ | k
    · obtain rfl : c = .commit := by cases c <;> simp_all [Call.key?]
      rw [hok.committed rfl]
      exact hpin.committed hinv.own.start
    by_cases hvain : c.Vain m
    · obtain ⟨key, rfl, hnone⟩ := hvain.absent hinv
      rwa [hok.absent key rfl hnone]
    · refine hpin.moved (hok.moved k hkey) fun p hp hW => hc ⟨hacc, hvain, p, ?_, hW.2, hP ▸ hp⟩
      have hlevel := hok.level k hkey
      have hpath := (hinv.wf.descends hlevel k).pathAt_eq hlevel.le
      simpa only [Call.descent, hkey, hpath] using hW.1
  · rw [hrun]
    exact ⟨hpin, h, hinv⟩

variable {h₀ : Nat}

section

variable (hpin : Pinned m σ (pagesAt σ h₀ s.root) g)
include hpin

theorem Pinned.pages (hwf : Wf σ h₀ [] ⊤ s.root) (hh : h₀ ≤ maxTreeDepth) :
    s.pages m = pagesAt σ h₀ s.root := by
  rw [Snapshot.pages, (hwf.congr hpin.same).pagesAt_eq hh, pagesAt_congr hpin.same]

theorem Pinned.run {cs : List Call} (hinv : TreeInv m h) (hwf : Wf σ h₀ [] ⊤ s.root)
    (hh : h₀ ≤ maxTreeDepth) (hcs : Undisturbed s cs m) :
    Pinned (runCalls cs m).2 σ (pagesAt σ h₀ s.root) g := by
  induction cs generalizing m h with
  | nil => exact hpin
  | cons c cs ih =>
    obtain ⟨hpin', h', hinv'⟩ := hpin.call hinv (hpin.pages hwf hh) hcs.1
    exact ih hpin' hinv' hcs.2

/-- The reads of a snapshot answer from the entries that its pinned pages had. -/
theorem Pinned.answers {f : KeyMap} (hwf : Wf σ h₀ [] ⊤ s.root) (hh : h₀ < maxTreeDepth)
    (hr : Represents (entriesAt σ h₀ s.root) f) : s.Answers m f := by
  have hwf' := hwf.congr hpin.same
  have hs : Sorted (entriesAt m.pager.page? h₀ s.root) := hwf'.sorted
  have hr' : Represents (entriesAt m.pager.page? h₀ s.root) f := by
    rwa [entriesAt_congr hpin.same]
  refine ⟨fun key => ?_, fun key mode => ⟨_, ?_, hr'.nearest hs mode key⟩,
    fun pre startAfter reverse hstart => ⟨_, hr'.range hs pre startAfter reverse,
      fun β visit b turns hturns => ?_⟩⟩
  · rw [Snapshot.get, run_getAt (hwf'.descends hh key), hr' key]
  · exact run_seekAt hwf' (Bytes.nil_le key) (WithTop.coe_lt_top key) hh mode
  · exact run_forEachRangeAt visit hwf' hh pre reverse turns startAfter b hstart hturns

end

theorem pinned_snapshot (hinv : TreeInv m h) :
    Pinned (pinned m) m.pager.page? (treePages m h) m.state.generation where
  reader := List.mem_cons_self
  generation := le_rfl
  range := hinv.own.range
  free e he hp := absurd rfl (hinv.own.notFree e.page hp e he)
  same _ _ := rfl

theorem TreeInv.pinned (hinv : TreeInv m h) : TreeInv (pinned m) h :=
  ⟨⟨hinv.wf, { hinv.own with }, hinv.root⟩, hinv.entries⟩

/-- Calls on a new file, a snapshot, and more calls: the snapshot, the tree then and at the end. -/
def snapshotRun (run : List Call → Machine → List (Except IoError Reply) × Machine)
    (file : Machine) (path : String) (before after : List Call) : Snapshot × Machine × Machine :=
  let m := (run before (file.run (openTree path)).2).2
  (⟨m.state.generation, m.state.root⟩, (m.run snapshot).2, (run after (m.run snapshot).2).2)

theorem snapshotRun_eq {file : Machine} {path : String} {before after : List Call}
    (hroom : Roomy (snapshotRun runCalls file path before after).2.2) :
    snapshotRun execCalls file path before after = snapshotRun runCalls file path before after := by
  have hpinned := roomy_of_runCalls after hroom
  rw [run_snapshot] at hpinned
  have hbefore := execCalls_eq before (m := (file.run (openTree path)).2) hpinned
  simp only [snapshotRun] at hroom ⊢
  rw [hbefore, execCalls_eq after hroom]

/-- The reads of a snapshot answer from the map at the moment it was taken, when no
    later call disturbs it and the file stays below the limit of the page ids. -/
theorem snapshot_isolated (file : Machine) (hfile : file.pager.pageCount < firstDataPage)
    (path : String) (before after : List Call) (hputs : puts before < 6 ^ 63)
    (hroom : Roomy (snapshotRun runCalls file path before after).2.2)
    (hafter : Undisturbed (snapshotRun runCalls file path before after).1 after
      (snapshotRun runCalls file path before after).2.1) :
    (snapshotRun execCalls file path before after).1.Answers
      (snapshotRun execCalls file path before after).2.2 (applyCalls before fun _ => none) := by
  rw [snapshotRun_eq hroom]
  obtain ⟨m, m₁, h₁, hopen, hrun, -, hinv₁, hspent₁, hr₁⟩ := openTree_runCalls hfile path hputs
  have hh₁ := level_lt_maxTreeDepth hspent₁ hputs
  have hm₁ : (runCalls before (file.run (openTree path)).2).2 = m₁ := by rw [hopen, hrun]
  simp only [snapshotRun, hm₁, run_snapshot] at hafter ⊢
  have hpin := (pinned_snapshot hinv₁).run (s := ⟨m₁.state.generation, m₁.state.root⟩)
    hinv₁.pinned hinv₁.wf hh₁.le hafter
  exact hpin.answers hinv₁.wf hh₁ hr₁

theorem snapshot_isolated_after_commit :
    (snapshotRun execCalls newFile "index" [.put [1] [7], .commit] [.put [1] [8]]).1.Answers
      (snapshotRun execCalls newFile "index" [.put [1] [7], .commit] [.put [1] [8]]).2.2
      (applyCalls [.put [1] [7], .commit] fun _ => none) :=
  have hclean : (snapshotRun runCalls newFile "index" [.put [1] [7], .commit]
      [.put [1] [8]]).2.1.state.dirty = ∅ := rfl
  snapshot_isolated newFile (by decide) "index" _ _ (by decide) (by decide)
    ⟨fun ⟨_, _, _, _, hdirty, _⟩ => Finset.notMem_empty _ (hclean ▸ hdirty), trivial⟩

/-- A snapshot between two puts under the same key, with no commit between them,
    reads the value of the second one. -/
theorem snapshot_not_isolated :
    ¬ (snapshotRun execCalls newFile "index" [.put [1] [7]] [.put [1] [8]]).1.Answers
      (snapshotRun execCalls newFile "index" [.put [1] [7]] [.put [1] [8]]).2.2
      (applyCalls [.put [1] [7]] fun _ => none) := by
  intro hans
  have hget := congrArg Prod.fst (hans.get [1])
  have hread : ((snapshotRun execCalls newFile "index" [.put [1] [7]] [.put [1] [8]]).2.2.run
      ((snapshotRun execCalls newFile "index" [.put [1] [7]] [.put [1] [8]]).1.get [1])).1 =
        .ok (some [8]) := by
    rfl
  rw [hread] at hget
  revert hget
  decide

end BTree

end FacetQL
