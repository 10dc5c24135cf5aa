import FacetQL.Storage.BTree.Insert
import FacetQL.Storage.BTree.Range
import FacetQL.Storage.BTree.Remove

/-!
# The operations of a tree

The invariant of an open tree, and what its operations do from any tree that
keeps it.
-/

namespace FacetQL

namespace BTree

open Machine SortedMap

/-- The entries of an open tree whose root is of level `h`. -/
abbrev contents (m : Machine) (h : Nat) : List (Bytes × Bytes) :=
  entriesAt m.pager.page? h m.state.root

/-- The pages of an open tree whose root is of level `h`. -/
abbrev treePages (m : Machine) (h : Nat) : Multiset PageId :=
  pagesAt m.pager.page? h m.state.root

/-- The pages of an open tree are in order, with a root of level `h`. -/
structure TreeShape (m : Machine) (h : Nat) : Prop where
  wf : Wf m.pager.page? h [] ⊤ m.state.root
  own : Own m (treePages m h)
  root : ∀ extra cells, m.pager.page? m.state.root = some (.branch extra cells) → cells ≠ []

/-- An open tree is in order, with a root of level `h`. -/
structure TreeInv (m : Machine) (h : Nat) : Prop extends TreeShape m h where
  entries : m.state.entries = (contents m h).length

variable {m m' : Machine} {h : Nat} {k v : Bytes} {α : Type}

/-- Another tree with the same pages below the same root. -/
theorem TreeInv.congr (hinv : TreeInv m h)
    (hsame : ∀ p ∈ treePages m h, m'.pager.page? p = m.pager.page? p)
    (hown : Own m' (treePages m h)) (hroot : m'.state.root = m.state.root)
    (hcount : m'.state.entries = m.state.entries) :
    TreeInv m' h ∧ contents m' h = contents m h ∧ treePages m' h = treePages m h := by
  have hentries : contents m' h = contents m h := by rw [contents, hroot, entriesAt_congr hsame]
  have hpages : treePages m' h = treePages m h := by rw [treePages, hroot, pagesAt_congr hsame]
  refine ⟨⟨⟨?_, hpages ▸ hown, fun extra cells hp => ?_⟩, ?_⟩, hentries, hpages⟩
  · exact hroot ▸ hinv.wf.congr hsame
  · exact hinv.root extra cells ((hsame _ self_mem_pagesAt).symm.trans (hroot ▸ hp))
  · rw [hcount, hentries, hinv.entries]

theorem TreeInv.sorted (hinv : TreeInv m h) : Sorted (contents m h) := hinv.wf.sorted

/-! ## Reading -/

/-- The tree with one more snapshot of its current generation. -/
def pinned (m : Machine) : Machine :=
  { m with state := { m.state with readers := m.state.generation :: m.state.readers } }

theorem run_snapshot (m : Machine) :
    m.run snapshot = (.ok ⟨m.state.generation, m.state.root⟩, pinned m) := by
  rw [snapshot, run_withLock]
  rfl

theorem run_releaseSnapshot_pinned (m : Machine) :
    (pinned m).run (releaseSnapshot m.state.generation) = (.ok (), m) := by
  rw [releaseSnapshot, run_withLock, run_modifyState]
  simp [pinned]

/-- A read through a snapshot leaves the tree as it is, when the read itself does. -/
theorem run_withSnapshot {read : PageId → TreeProgram α} {r : Except IoError α}
    (hread : (pinned m).run (read m.state.root) = (r, pinned m)) :
    m.run (withSnapshot read) = (r, m) := by
  rw [withSnapshot, run_bind_ok (run_snapshot m), run_bind_ok (Machine.run_attempt hread),
    run_bind_ok (run_releaseSnapshot_pinned m)]
  exact Program.run_ofExcept r m

theorem run_get (hinv : TreeInv m h) (hh : h < maxTreeDepth) (k : Bytes) :
    m.run (get k) = (.ok (find k (contents m h)), m) := by
  exact run_withSnapshot (run_getAt (m := pinned m) (hinv.wf.descends hh k))

theorem run_seek (hinv : TreeInv m h) (hh : h < maxTreeDepth) (k : Bytes) (mode : SeekMode) :
    m.run (seek k mode) = (.ok (nearest mode k (contents m h)), m) := by
  exact run_withSnapshot
    (run_seekAt (m := pinned m) hinv.wf (Bytes.nil_le k) (WithTop.coe_lt_top k) hh mode)

theorem run_len (hinv : TreeInv m h) : m.run len = (.ok (contents m h).length, m) := by
  rw [len, run_withLock, ← hinv.entries]
  rfl

theorem run_descend_deep {levels levels' : Nat} {id : PageId}
    (hd : Descent m.pager.page? k levels' h id) (hh : levels ≤ h) :
    m.run (descend levels id k) = (.error (descentTooDeep "descent"), m) := by
  induction hd generalizing levels with
  | leaf =>
    obtain rfl := Nat.le_zero.1 hh
    rfl
  | branch hpage hchild _ _ ih =>
    rcases levels with _ | levels
    · rfl
    rw [descend, run_bind_ok (run_readPage hpage)]
    simpa [hchild] using ih (Nat.le_of_succ_le_succ hh)

theorem run_get_deep (hinv : TreeInv m h) (hh : maxTreeDepth ≤ h) (k : Bytes) :
    m.run (get k) = (.error (descentTooDeep "descent"), m) := by
  refine run_withSnapshot ?_
  rw [getAt, run_bind_error
    (run_descend_deep (m := pinned m) (hinv.wf.descends (Nat.lt_succ_self h) k) hh)]

/-! ## Putting -/

/-- The separators a tree of level `h` has handed up to grow to it. -/
def grown (h : Nat) : Nat := ∑ j ∈ Finset.range h, 6 ^ j

/-- What of the puts so far the branch pages of a tree account for. -/
def spent (m : Machine) (h : Nat) : Nat :=
  excessAt m.pager.page? h m.state.root + maxBranchCell * grown h

/-- A key and a value that a tree accepts. -/
def Accepts (k v : Bytes) : Prop := k ≠ [] ∧ k.length ≤ maxKeyLen ∧ v.length ≤ maxValueLen

instance : Decidable (Accepts k v) := inferInstanceAs (Decidable (_ ∧ _))

/-- The tree with a root and a number of entries. -/
def rooted (m : Machine) (root : PageId) (entries : Nat) : Machine :=
  { m with state := { m.state with root, entries } }

theorem Own.rooted {L : Multiset PageId} (hown : Own m L) (root : PageId) (entries : Nat) :
    Own (rooted m root entries) L :=
  { hown with }

/-- Installing what the insert made of the root: a cut root gets a branch above it. -/
theorem run_installRoot (hshape : TreeShape m h) {out : Insert}
    (hins : InsertOk k v h [] ⊤ m.state.root m m' out) : ∃ m'' root h',
      m'.run (installRoot out) = (.ok (), rooted m'' root m.state.entries) ∧
      (∀ n, TreeShape (rooted m'' root n) h') ∧
      entriesAt m''.pager.page? h' root = SortedMap.insert k v (contents m h) ∧
      Change m m'' (inPlace m (pathAt m.pager.page? k h m.state.root)) (treePages m h)
        (pagesAt m''.pager.page? h' root) ∧
      excessAt m''.pager.page? h' root + maxBranchCell * grown h' ≤ spent m h + maxBranchCell := by
  cases out with
  | kept p =>
    obtain ⟨-, -, hwf, -⟩ := Tiling.singleton_iff.1 hins.tiling
    have hpages := hins.change
    simp only [Insert.nodes, pagesOf_cons, pagesOf_nil, add_zero] at hpages
    refine ⟨m', p, h, ?_, fun n => ⟨hwf, (hpages.owned hshape.own).rooted p n, fun extra cells hp => ?_⟩, ?_, hpages, ?_⟩
    · simp [installRoot, rooted, hpages.entries]
    · obtain ⟨extra₀, cells₀, hp₀, hlen⟩ := hins.width p extra cells rfl hp
      have hne := List.length_pos_iff.2 (hshape.root extra₀ cells₀ hp₀)
      exact List.length_pos_iff.1 (by omega)
    · simpa [Insert.nodes] using hins.entries
    · have := hins.excess
      simp only [Insert.nodes, excessOf_cons, excessOf_nil, List.tail_cons, List.length_nil] at this
      rw [spent]
      omega
  | split left sep right =>
    have hsep : sep.length ≤ maxKeyLen := by simpa [Insert.nodes] using hins.lengths
    have hcell : (⟨sep, right⟩ : BranchCell).len + slotLen ≤ maxBranchCell := by
      simp only [BranchCell.len, maxBranchCell]
      omega
    have hsmall : maxBranchCell ≤ halfFull ∧ halfFull ≤ maxCellLen + slotLen := by decide
    have hcells : Page.insertCell BranchCell.len [] 0 ⟨sep, right⟩ = some [⟨sep, right⟩] := by
      rw [Page.insertCell_of_fits (Nat.zero_le _)]
      · rfl
      · rw [Page.used_nil]
        omega
    obtain ⟨id, m₁, hrun, hfresh, halloc⟩ := run_allocate m'
    set ns := Insert.nodes [] (.split left sep right) with hns
    set page : TreePage := .branch left [⟨sep, right⟩]
    set m'' := (markedDirty m₁ id).written id page
    have hown' : Own m' (pagesOf m'.pager.page? h ns) := hins.change.owned hshape.own
    have hown₁ : Own (markedDirty m₁ id) (pagesOf m'.pager.page? h ns + {id}) :=
      halloc.own _ (by simpa using hown')
    have hroot : Change m' m'' {id} 0 {id} :=
      (halloc.mono (Set.empty_subset _)).trans (change_write _ id page {id}) fun p hp => .inl hp
    -- The two halves stay as they are below the new root.
    have hstable : ∀ p ∈ pagesOf m'.pager.page? h ns, m''.pager.page? p = m'.pager.page? p := by
      intro p hp
      refine hroot.page?_eq ?_ (hown'.not_fresh hp)
      rintro rfl
      exact hown'.not_fresh hp hfresh
    have hpage : m''.pager.page? id = some page := by
      rw [page?_write (hown₁.singleton (by simp)), if_pos rfl]
    have hnodes : nodes [] left [⟨sep, right⟩] = ns := rfl
    have hok : BranchOk [(⟨sep, right⟩ : BranchCell)] :=
      ⟨by rw [Page.fits, Page.used_cons, Page.used_nil]; omega, by simpa using hsep⟩
    have ht := tiling_congr hstable hins.tiling
    have hpages : pagesAt m''.pager.page? (h + 1) id = pagesOf m'.pager.page? h ns + {id} := by
      rw [pagesAt_branch [] hpage, hnodes, pagesOf_congr hstable, add_comm,
        Multiset.singleton_add]
    have hchange : Change m m'' (inPlace m (pathAt m.pager.page? k h m.state.root)) (treePages m h)
        (pagesAt m''.pager.page? (h + 1) id) := by
      rw [hpages]
      refine hins.change.trans (by simpa using hroot.add (pagesOf m'.pager.page? h ns)) ?_
      rintro p rfl
      exact .inr (hins.change.fresh p hfresh)
    refine ⟨m'', id, h + 1, ?_, fun n => ⟨(child_of_branch hpage hok ht).1,
      (hchange.owned hshape.own).rooted id n, fun extra cells hp => ?_⟩, ?_, hchange, ?_⟩
    · rw [installRoot, hcells]
      dsimp only
      rw [run_bind_ok hrun, markDirty, run_bind_ok (run_modifyState _),
        run_bind_ok (run_writePage _ _), run_modifyState, ← hchange.entries]
      rfl
    · obtain ⟨-, rfl⟩ : left = extra ∧ [⟨sep, right⟩] = cells := by
        have := hpage.symm.trans hp
        simpa [page] using this
      simp
    · rw [entriesAt_branch [] hpage, hnodes, entriesOf_congr hstable, hins.entries]
    · have hx := hins.excess
      simp only [Insert.nodes, List.tail_cons, List.length_singleton, one_mul] at hx
      rw [excessAt_branch [] hpage, hnodes, excessOf_congr hstable, spent, grown,
        Finset.sum_range_succ, ← grown, Page.used_cons, Page.used_nil,
        Nat.sub_eq_zero_of_le (by omega)]
      simp only [hns, Insert.nodes]
      rw [mul_add]
      omega

/-- A put ends well, in a tree that a descent can follow. -/
theorem run_put (hinv : TreeInv m h) (hh : h < maxTreeDepth) (hkv : Accepts k v) : ∃ m' h',
    m.run (put k v) = (.ok (), m') ∧ TreeInv m' h' ∧
    contents m' h' = SortedMap.insert k v (contents m h) ∧
    Moved m m' (inPlace m (pathAt m.pager.page? k h m.state.root)) (treePages m h)
      (treePages m' h') ∧ spent m' h' ≤ spent m h + maxBranchCell := by
  obtain ⟨hne, hk, hv⟩ := hkv
  obtain ⟨out, m₁, hrun, hins⟩ := run_insertInto hinv.wf (Bytes.nil_le k) (WithTop.coe_lt_top k) hk hv
    hinv.own hh
  obtain ⟨m₂, root, h', hroot, hshape, hentries, hchange, hspent⟩ :=
    run_installRoot hinv.toTreeShape hins
  have hlen := hinv.sorted.length_insert (k := k) (v := v)
  have hsteps : m.run (put k v) = (.ok (), rooted m₂ root
      (SortedMap.insert k v (contents m h)).length) := by
    rw [put, if_neg (by simp [hne, hk]), if_neg (by omega), run_bind_ok (run_get hinv hh k),
      run_withLock, run_state_bind, run_bind_ok hrun, run_bind_ok hroot]
    rw [hlen]
    cases hf : (find k (contents m h)).isSome with
    | true => simp [hinv.entries]
    | false => simp [hinv.entries, rooted]
  refine ⟨_, h', hsteps, ⟨hshape _, ?_⟩, hentries, hchange.congr rfl rfl rfl rfl rfl, hspent⟩
  exact congrArg List.length hentries.symm

theorem run_put_refused (hkv : ¬ Accepts k v) : ∃ e, m.run (put k v) = (.error e, m) := by
  unfold put
  split_ifs with hk hv
  · exact ⟨_, rfl⟩
  · exact ⟨_, rfl⟩
  · refine absurd ⟨fun h => hk (.inl h), ?_, ?_⟩ hkv <;> omega

theorem run_put_deep (hinv : TreeInv m h) (hh : maxTreeDepth ≤ h) :
    ∃ e, m.run (put k v) = (.error e, m) := by
  by_cases hkv : Accepts k v
  · obtain ⟨hne, hk, hv⟩ := hkv
    refine ⟨descentTooDeep "descent", ?_⟩
    rw [put, if_neg (by simp [hne, hk]), if_neg (by omega),
      run_bind_error (run_get_deep hinv hh k)]
  · exact run_put_refused hkv

/-! ## Removing -/

theorem grown_mono : Monotone grown := fun _ _ hle =>
  Finset.sum_le_sum_of_subset (Finset.range_subset_range.2 hle)

theorem Change.rooted {W : Set PageId} {L L' : Multiset PageId} (hc : Change m m' W L L')
    (root : PageId) : Change m (rooted m' root m'.state.entries) W L L' :=
  ⟨hc.toMoved.congr rfl rfl rfl rfl rfl, hc.entries⟩

/-- Collapsing the root leaves the entries as they are. -/
theorem run_collapseRoot (turns : Nat) (hwf : Wf m.pager.page? h [] ⊤ m.state.root)
    (hown : Own m (treePages m h)) (hh : h < turns) : ∃ m' h',
      m.run (collapseRoot turns) = (.ok (), m') ∧ TreeShape m' h' ∧ contents m' h' = contents m h ∧
      Change m m' ∅ (treePages m h) (treePages m' h') ∧ spent m' h' ≤ spent m h := by
  induction turns generalizing m h with
  | zero => omega
  | succ turns ih =>
    rcases h with _ | h
    · obtain ⟨cells, hpage, hok⟩ := hwf
      refine ⟨m, 0, ?_, ⟨⟨cells, hpage, hok⟩, hown, by simp [hpage]⟩, rfl, Change.refl m _, le_rfl⟩
      rw [collapseRoot, run_state_bind, run_bind_ok (run_readPage hpage)]
      rfl
    obtain ⟨child, cells, hpage, hok, ht⟩ := hwf
    rcases cells with _ | ⟨c, cells⟩
    · -- The only child takes over, and the page above it is released.
      set m₁ := rooted (released m m.state.root) child (released m m.state.root).state.entries
      have hchild : Wf m.pager.page? h [] ⊤ child := (Tiling.singleton_iff.1 ht).2.2.1
      have hpages : treePages m (h + 1) = pagesAt m.pager.page? h child + {m.state.root} := by
        rw [treePages, pagesAt_branch [] hpage]
        simp [nodes, add_comm (pagesAt _ _ _)]
      have hchange : Change m m₁ ∅ (treePages m (h + 1)) (treePages m₁ h) := by
        have hc := ((change_release m m.state.root).add (pagesAt m.pager.page? h child)).rooted child
        rwa [← hpages, add_zero] at hc
      have hgrown : maxBranchCell * grown h ≤ maxBranchCell * grown (h + 1) :=
        Nat.mul_le_mul_left _ (grown_mono (Nat.le_succ h))
      obtain ⟨m', h', hrun, hshape, hentries, hc, hspent⟩ := ih hchild (hchange.owned hown) (by omega)
      refine ⟨m', h', ?_, hshape, hentries.trans ?_, hchange.trans hc fun p => False.elim,
        hspent.trans ?_⟩
      · rw [collapseRoot, run_state_bind, run_bind_ok (run_readPage hpage)]
        dsimp only
        rw [run_bind_ok (run_release _), run_bind_ok (run_modifyState _)]
        exact hrun
      · rw [contents, contents, entriesAt_branch [] hpage]
        simp only [nodes, List.map_nil, entriesOf_cons, entriesOf_nil, List.append_nil]
        rfl
      · rw [spent, spent, excessAt_branch [] hpage]
        simp only [nodes, List.map_nil, excessOf_cons, excessOf_nil]
        change excessAt m.pager.page? h child + _ ≤ _
        omega
    refine ⟨m, h + 1, ?_, ⟨⟨child, c :: cells, hpage, hok, ht⟩, hown, by simp [hpage]⟩, rfl,
      Change.refl m _, le_rfl⟩
    rw [collapseRoot, run_state_bind, run_bind_ok (run_readPage hpage)]
    rfl

/-- A removal empties the root only when the root is a leaf. -/
theorem TreeInv.emptied (hinv : TreeInv m h) (hk : SortedMap.erase k (contents m h) = []) : h = 0 := by
  rcases h with _ | h
  · rfl
  obtain ⟨extra, cells, hpage, -, ht⟩ := hinv.wf
  obtain ⟨c, cells, rfl⟩ := List.exists_cons_of_ne_nil (hinv.root extra cells hpage)
  have hlen : 2 ≤ (contents m (h + 1)).length := by
    simp only [nodes, List.map_cons, Tiling.cons_iff] at ht
    obtain ⟨-, -, -, ⟨-, h₁⟩, -, -, -, ⟨-, h₂⟩, -⟩ := ht
    rw [contents, entriesAt_branch [] hpage]
    simp only [nodes, List.map_cons, entriesOf_cons, List.length_append]
    have := List.length_pos_iff.2 h₁
    have := List.length_pos_iff.2 h₂
    omega
  have herase := hinv.sorted.length_erase (k := k)
  rw [hk, List.length_nil] at herase
  split_ifs at herase <;> omega

/-- A removal ends well, in a tree that is not too deep, and without its key changes nothing. -/
theorem run_remove (hinv : TreeInv m h) (hh : h < maxTreeDepth) (k : Bytes) : ∃ m' h',
    m.run (remove k) = (.ok (find k (contents m h)).isSome, m') ∧ TreeInv m' h' ∧
    contents m' h' = SortedMap.erase k (contents m h) ∧
    Moved m m' (inPlace m (pathAt m.pager.page? k h m.state.root)) (treePages m h)
      (treePages m' h') ∧ spent m' h' ≤ spent m h ∧
    (find k (contents m h) = none → m' = m) := by
  rcases run_removeFrom hinv.wf (Bytes.nil_le k) (WithTop.coe_lt_top k) hinv.own hh with
    ⟨hrun, hnone⟩ | ⟨out, m₁, hrun, hremoved, hok⟩
  · refine ⟨m, h, ?_, hinv, ?_, ?_, le_rfl, fun _ => rfl⟩
    · rw [remove, run_withLock, run_state_bind, run_bind_ok hrun, hnone]
      rfl
    · rw [hinv.sorted.erase_eq_self hnone]
    · exact (Moved.refl m _).mono (Set.empty_subset _)
  · have hempty : out.empty = false ∨ h = 0 := by
      cases he : out.empty with
      | false => exact .inl rfl
      | true => exact .inr (hinv.emptied (hok.empty.1 he))
    obtain ⟨hwf, hentries, hexcess⟩ := hok.wf hempty
    have hpages : (if out.empty then {out.page} else pagesAt m₁.pager.page? h out.page) =
        pagesAt m₁.pager.page? h out.page := by
      split_ifs with he
      · obtain rfl : h = 0 := by simpa [he] using hempty
        rfl
      · rfl
    have hchange := hok.change
    rw [hpages] at hchange
    set m₂ := rooted m₁ out.page (m₁.state.entries - 1)
    have hown₂ : Own m₂ (treePages m₂ h) := (hchange.owned hinv.own).rooted _ _
    obtain ⟨m', h', hcollapse, hshape, hsame, hc, hspent⟩ :=
      run_collapseRoot (m := m₂) maxTreeDepth hwf hown₂ hh
    have hcontents : contents m' h' = SortedMap.erase k (contents m h) := hsame.trans hentries
    have hmoved : Moved m m₂ (inPlace m (pathAt m.pager.page? k h m.state.root)) (treePages m h)
        (treePages m₂ h) := hchange.toMoved.congr rfl rfl rfl rfl rfl
    refine ⟨m', h', ?_, ⟨hshape, ?_⟩, hcontents, hmoved.trans hc.toMoved fun p => False.elim,
      hspent.trans (Nat.add_le_add_right hexcess _), fun hnone => ?_⟩
    · rw [remove, run_withLock, run_state_bind, run_bind_ok hrun, hremoved]
      simp only [not_true_eq_false, if_false]
      rw [run_bind_ok (run_modifyState _), hok.found]
      exact run_bind_ok hcollapse _
    · have hlen := hinv.sorted.length_erase (k := k)
      rw [if_pos hok.found] at hlen
      rw [hc.entries, hcontents, hlen, ← hinv.entries, ← hchange.entries]
      rfl
    · have hfound := hok.found
      rw [contents] at hnone
      simp [hnone] at hfound

theorem run_removeFrom_deep {levels levels' : Nat} {id : PageId}
    (hd : Descent m.pager.page? k levels' h id) (hh : levels ≤ h) :
    m.run (removeFrom k levels id) = (.error (descentTooDeep "remove"), m) := by
  induction hd generalizing levels with
  | leaf =>
    obtain rfl := Nat.le_zero.1 hh
    rfl
  | branch hpage hchild _ _ ih =>
    rcases levels with _ | levels
    · rfl
    rw [removeFrom, run_bind_ok (run_readPage hpage)]
    dsimp only
    rw [hchild, run_bind_error (ih (Nat.le_of_succ_le_succ hh))]

theorem run_remove_deep (hinv : TreeInv m h) (hh : maxTreeDepth ≤ h) (k : Bytes) :
    m.run (remove k) = (.error (descentTooDeep "remove"), m) := by
  rw [remove, run_withLock, run_state_bind, run_bind_error
    (run_removeFrom_deep (hinv.wf.descends (Nat.lt_succ_self h) k) hh)]

/-! ## Committing and opening -/

/-- The meta record a commit publishes. -/
def metaRecord (m : Machine) : MetaState :=
  encodeMeta ⟨m.state.building, m.state.root, m.state.entries, m.pager.pageCount, m.state.free⟩

/-- The slot of the meta page of a generation. -/
def metaSlot (generation : Nat) : PageId := if generation % 2 = 0 then metaA else metaB

/-- The tree after a commit. -/
def committed (m : Machine) : Machine where
  pager := (m.pager.flush.write (metaSlot m.state.building) (.metaPage (metaRecord m))).flush
  state := { m.state with generation := m.state.building, dirty := ∅ }

theorem metaSlot_lt (generation : Nat) : metaSlot generation < firstDataPage := by
  unfold metaSlot
  split_ifs <;> decide

/-- The meta record always fits in its page. -/
theorem pushCell_encodeMeta (record : MetaState) :
    Page.pushCell metaLen [] (encodeMeta record) = some [encodeMeta record] := by
  have hlen : metaLen (encodeMeta record) ≤ 30 + maxFreeEntries * 12 := by
    simp only [metaLen, encodeMeta, List.length_take]
    omega
  have hcap : 30 + maxFreeEntries * 12 ≤ maxCellLen := by decide
  rw [Page.pushCell, Page.insertCell_of_fits le_rfl]
  · rfl
  · rw [Page.used_nil]
    omega

theorem commit_eq : commit = (withLock do
    let s ← perform .state
    perform .flush
    let highWater ← perform .pageCount
    writePage (metaSlot s.building)
      (.metaPage (encodeMeta ⟨s.building, s.root, s.entries, highWater, s.free⟩))
    perform .flush
    perform (.setState { s with generation := s.building, dirty := ∅ })) := by
  simp only [commit, pushCell_encodeMeta, metaSlot]

/-- A commit ends well. -/
theorem run_commit (m : Machine) : m.run commit = (.ok (), committed m) := by
  rw [commit_eq, run_withLock]
  rfl

theorem Pager.page?_flush {p : Pager} {id : PageId} (hid : id < p.pageCount) :
    p.flush.page? id = p.page? id := by
  have hcount : id < p.flush.pageCount := hid
  simp only [Pager.page?, if_pos hid, if_pos hcount]
  simp only [Pager.flush, List.lookup_nil]
  cases p.pending.lookup id <;> rfl

theorem page?_committed {p : PageId} (hp : firstDataPage ≤ p) (hlt : p < m.pager.pageCount) :
    (committed m).pager.page? p = m.pager.page? p := by
  have hslot := (metaSlot_lt m.state.building).trans_le hp
  have hcount : metaSlot m.state.building < m.pager.flush.pageCount := hslot.trans hlt
  rw [committed, Pager.page?_flush, Pager.page?_write hcount, if_neg hslot.ne', Pager.page?_flush hlt]
  exact hlt.trans_le (le_max_left _ _)

theorem pageCount_committed (hstart : firstDataPage ≤ m.pager.pageCount) :
    (committed m).pager.pageCount = m.pager.pageCount :=
  Pager.pageCount_write (p := m.pager.flush) ((metaSlot_lt _).trans_le hstart)
    (.metaPage (metaRecord m))

theorem Own.committed {L : Multiset PageId} (hown : Own m L) : Own (committed m) L := by
  have hcount := pageCount_committed hown.start
  exact
    { start := hcount ▸ hown.start
      freeNodup := hown.freeNodup
      freeRange := hcount ▸ hown.freeRange
      freeLen := hown.freeLen
      nodup := hown.nodup
      range := hcount ▸ hown.range
      notFree := hown.notFree }

/-- A commit keeps the tree in order, and its entries. -/
theorem TreeInv.committed (hinv : TreeInv m h) : TreeInv (committed m) h ∧
    contents (committed m) h = contents m h ∧ treePages (BTree.committed m) h = treePages m h ∧
    spent (BTree.committed m) h = spent m h := by
  have hsame : ∀ p ∈ treePages m h, (BTree.committed m).pager.page? p = m.pager.page? p :=
    fun p hp => page?_committed (hinv.own.range p hp).1 (hinv.own.range p hp).2
  obtain ⟨htree, hentries, hpages⟩ := hinv.congr hsame hinv.own.committed rfl rfl
  exact ⟨htree, hentries, hpages, congrArg (· + _) (excessAt_congr hsame)⟩

/-- The empty tree, before its first commit. -/
def startedTree (m : Machine) : Machine where
  pager := { m.pager with pageCount := firstDataPage + 1 }.write firstDataPage (.leaf [])
  state := ⟨0, firstDataPage, 0, [], ∅, []⟩

theorem startedTree_inv (m : Machine) :
    TreeInv (startedTree m) 0 ∧ contents (startedTree m) 0 = [] := by
  have hid : firstDataPage < firstDataPage + 1 := Nat.lt_succ_self _
  have hpage : (startedTree m).pager.page? firstDataPage = some (.leaf []) := by
    rw [startedTree, Pager.page?_write hid, if_pos rfl]
  have hcount : (startedTree m).pager.pageCount = firstDataPage + 1 := Pager.pageCount_write hid _
  have hentries : contents (startedTree m) 0 = [] := entriesAt_leaf hpage
  have hcells : LeafOk [] ⊤ [] :=
    ⟨⟨List.Pairwise.nil, by simp, by simp⟩, by simp [Page.fits, Page.used_nil]⟩
  have hown : Own (startedTree m) {firstDataPage} :=
    { start := hcount ▸ hid.le
      freeNodup := List.nodup_nil
      freeRange := by simp [startedTree]
      freeLen := Nat.zero_le _
      nodup := Multiset.nodup_singleton _
      range := fun p hp => by
        rw [Multiset.mem_singleton.1 hp, hcount]
        exact ⟨le_rfl, hid⟩
      notFree := by simp [startedTree] }
  refine ⟨⟨⟨⟨[], hpage, hcells⟩, hown, fun extra cells hp => ?_⟩, by rw [hentries]; rfl⟩, hentries⟩
  simp [startedTree] at hp hpage
  simp [hpage] at hp

theorem run_openTree_fresh (hm : m.pager.pageCount < firstDataPage) (path : String) :
    m.run (openTree path) = (.ok (), committed (startedTree m)) := by
  rw [← run_commit (startedTree m)]
  rw [openTree, run_pageCount_bind, if_pos hm]
  rfl

end BTree

end FacetQL
