import FacetQL.Storage.BTree.Crash

/-!
# Crashes while a tree is created

The first `openTree` of a path writes the root leaf, flushes it, and then writes the meta page
of the first generation to the slot `metaB`. The leaf stands behind both slots: from the moment
it has reached the disk the file is long enough to be taken for a tree, and until the meta page
has, it has no meta page that can be read.

* `creation_recoverable`: when opening what a crash leaves gives an empty tree;
* `creation_unrecoverable`: a crash after the first flush leaves a file that cannot be opened.
-/

namespace FacetQL

namespace BTree

variable {file : Machine} {p : Pager}

/-- The first flush leaves both slots empty. -/
theorem flush_startedTree (hempty : ∀ id, file.pager.disk id = none)
    (hpending : file.pager.pending = []) {id : PageId} (hid : id < firstDataPage) :
    (startedTree file).pager.flush.disk id = none := by
  change (((firstDataPage, TreePage.leaf []) :: file.pager.pending).lookup id).or
    (file.pager.disk id) = none
  rw [hpending, List.lookup_cons, beq_eq_false_iff_ne.2 hid.ne, hempty]
  rfl

/-- What the first `openTree` has written at each point: the leaf, and then the meta page. -/
theorem after_openTree_fresh (hcount : file.pager.pageCount < firstDataPage)
    (hempty : ∀ id, file.pager.disk id = none) (hpending : file.pager.pending = []) (path : String)
    (n : Nat) :
    ((∀ id < firstDataPage, (after n (openTree path) file).pager.disk id = none) ∧
      ∀ w ∈ (after n (openTree path) file).pager.pending, w.1 = firstDataPage) ∨
    (after n (openTree path) file).pager = (startedTree file).pager.flush.write
      (metaSlot (startedTree file).state.building) (.metaPage (metaRecord (startedTree file))) ∨
    (after n (openTree path) file).pager = (committed (startedTree file)).pager := by
  have hnone : ∀ w ∈ file.pager.pending, w.1 = firstDataPage := by
    rw [hpending]
    exact nofun
  rcases n with _ | n
  · exact .inl ⟨fun id _ => hempty id, hnone⟩
  have hstart : after (n + 1) (openTree path) file = after n startTree file :=
    congrArg (after n · file) (if_pos hcount)
  rw [hstart, startTree, commit_eq]
  match n with
  | 0 | 1 | 2 | 3 | 4 => exact .inl ⟨fun id _ => hempty id, hnone⟩
  | 5 | 6 | 7 | 8 =>
    refine .inl ⟨fun id _ => hempty id, fun w hw => ?_⟩
    rcases List.mem_cons.1 hw with rfl | hw
    · rfl
    · exact hnone w hw
  | 9 | 10 => exact .inl ⟨fun id hid => flush_startedTree hempty hpending hid, nofun⟩
  | 11 => exact .inr (.inl rfl)
  | 12 | 13 | 14 | n + 15 => exact .inr (.inr rfl)

/-- A crash leaves one slot empty, and the created tree once the other slot can be read. -/
theorem crash_openTree_fresh (hcount : file.pager.pageCount < firstDataPage)
    (hempty : ∀ id, file.pager.disk id = none) (hpending : file.pager.pending = []) (path : String)
    (n : Nat) (hcrash : CrashFile (after n (openTree path) file).pager p) :
    p.disk metaA = none ∧
      (p.disk metaB ≠ none → ∀ id, p.disk id = (committed (startedTree file)).pager.disk id) := by
  have hslot : metaSlot (startedTree file).state.building = metaB := rfl
  have hflush : ∀ id < firstDataPage, (startedTree file).pager.flush.disk id = none := fun _ hid =>
    flush_startedTree hempty hpending hid
  rcases after_openTree_fresh hcount hempty hpending path n with ⟨hdisk, hleaf⟩ | hp | hp
  · -- Before the meta page is written, neither slot can be read.
    have hnone : ∀ id < firstDataPage, p.disk id = none := fun id hid => by
      rcases hcrash.disk id with hd | ⟨page, hpage, -⟩
      · rw [hd, hdisk id hid]
      · exact absurd (hleaf _ hpage) hid.ne
    exact ⟨hnone metaA (by decide), fun hB => absurd (hnone metaB (by decide)) hB⟩
  · rw [hp, hslot] at hcrash
    obtain ⟨hother, hpage⟩ := hcrash.of_write
    refine ⟨(hother metaA (by decide)).trans (hflush metaA (by decide)), fun hB id => ?_⟩
    rw [disk_committed, hslot]
    split_ifs with hid
    · subst hid
      rcases hpage with hd | hd | hd
      · exact absurd (hd.trans (hflush metaB (by decide))) hB
      · exact hd
      · exact absurd hd hB
    · exact hother id hid
  · rw [hp] at hcrash
    have hsame : ∀ id, p.disk id = (committed (startedTree file)).pager.disk id := fun id =>
      (hcrash.disk id).resolve_right fun ⟨page, hpage, _⟩ => nomatch hpage
    refine ⟨?_, fun _ => hsame⟩
    rw [hsame, disk_committed, hslot, if_neg (by decide), hflush metaA (by decide)]

/-- After a crash at any point of the first `openTree`, opening the file again gives an empty
    tree just when the file is shorter than the two slots, or the meta page can be read. -/
theorem creation_recoverable (hcount : file.pager.pageCount < firstDataPage)
    (hempty : ∀ id, file.pager.disk id = none) (hpending : file.pager.pending = []) (path : String)
    (n : Nat) (hcrash : CrashFile (after n (openTree path) file).pager p) (s : TreeState) :
    (∃ m, (⟨p, s⟩ : Machine).run (openTree path) = (.ok (), m) ∧ Holds m fun _ => none) ↔
      p.pageCount < firstDataPage ∨ p.disk metaB ≠ none := by
  obtain ⟨hA, hB⟩ := crash_openTree_fresh hcount hempty hpending path n hcrash
  constructor
  · rintro ⟨m, hopen, -⟩
    by_contra! hbad
    obtain ⟨e, hrun⟩ := run_openTree_no_meta hbad.1 hcrash.pending (by rw [hA]; rfl)
      (by rw [hbad.2]; rfl) s path
    cases congrArg Prod.fst (hrun.symm.trans hopen)
  rintro (hshort | hmeta)
  · exact ⟨_, run_openTree_fresh hshort path, holds_committed_started _⟩
  have hsame := hB hmeta
  obtain ⟨hrec, -⟩ := (safe_start hempty hpending).disk.congr p (fun q _ => hsame q) (hsame _)
    (.inl (hsame _))
  exact ⟨_, hcrash.openTree hrec s path,
    0, hrec.tree, hrec.holds⟩

/-- The file of a tree that was being created when the leaf had been flushed. -/
def leafFile : Pager where
  path := "index"
  pageCount := 3
  disk id := if id = firstDataPage then some (.leaf []) else none
  pending := []

theorem leafFile_crash : CrashFile (after 10 (openTree "index") newFile).pager leafFile where
  pending := rfl
  disk id := by
    match id with
    | 0 | 1 | 2 | n + 3 => exact .inl rfl
  pageCount id hid := by
    match id with
    | 0 | 1 | 2 => decide
    | n + 3 => exact absurd rfl hid

theorem creation_recoverable_leaf :
    (∃ m, (⟨leafFile, newFile.state⟩ : Machine).run (openTree "index") = (.ok (), m) ∧
      Holds m fun _ => none) ↔ leafFile.pageCount < firstDataPage ∨ leafFile.disk metaB ≠ none :=
  creation_recoverable (by decide) (fun _ => rfl) rfl "index" 10 leafFile_crash newFile.state

/-- A crash after the leaf of a new tree has reached the disk and before its meta page has leaves
    a file, no longer than what has been written, that cannot be opened. -/
theorem creation_unrecoverable : ¬ ∀ (n : Nat) (p : Pager) (s : TreeState),
    CrashFile (after n (openTree "index") newFile).pager p → p.pageCount ≤ firstDataPage + 1 →
      ∃ m, (⟨p, s⟩ : Machine).run (openTree "index") = (.ok (), m) ∧ Holds m fun _ => none := by
  intro hall
  obtain ⟨m, hopen, -⟩ := hall 10 leafFile newFile.state leafFile_crash le_rfl
  obtain ⟨e, hrun⟩ := run_openTree_no_meta (p := leafFile) (by decide) rfl rfl rfl newFile.state "index"
  cases congrArg Prod.fst (hrun.symm.trans hopen)

end BTree

end FacetQL
