import FacetQL.Storage.BTree.Alloc
import FacetQL.Storage.BTree.Search

/-!
# Inserting

What an insert below a page does: it ends well, the one or two pages it leaves in
place of the old one tile the same range, and their entries are the old ones with
the new one.
-/

namespace FacetQL

open Page (buildPage_of_fits fits reclaimableSpace used used_cons)

namespace BTree

open Machine SortedMap

/-- The pages an insert leaves, each with the least key of its range. -/
def Insert.nodes (lo : Bytes) : Insert → List (Bytes × PageId)
  | .kept page => [(lo, page)]
  | .split left separator right => [(lo, left), (separator, right)]

/-- The most a cell and its slot take in a leaf. -/
def maxLeafCell : Nat := 2 + maxKeyLen + maxValueLen + slotLen

/-- The most a cell and its slot take in a branch. -/
def maxBranchCell : Nat := 6 + maxKeyLen + slotLen

/-- An insert below the page `id`, of level `h` and range `[lo, hi)`, has ended with `out`. -/
structure InsertOk (k v : Bytes) (h : Nat) (lo : Bytes) (hi : WithTop Bytes) (id : PageId)
    (m m' : Machine) (out : Insert) : Prop where
  tiling : Tiling (Child m'.pager.page? h) lo hi (out.nodes lo)
  lengths : ∀ x ∈ (out.nodes lo).tail, x.1.length ≤ maxKeyLen
  entries : entriesOf m'.pager.page? h (out.nodes lo) =
    SortedMap.insert k v (entriesAt m.pager.page? h id)
  change : Change m m' (inPlace m (pathAt m.pager.page? k h id)) (pagesAt m.pager.page? h id)
    (pagesOf m'.pager.page? h (out.nodes lo))
  excess : excessOf m'.pager.page? h (out.nodes lo) +
    (out.nodes lo).tail.length * (maxBranchCell * 6 ^ h) ≤
      excessAt m.pager.page? h id + maxBranchCell
  width : ∀ p extra cells, out = .kept p → m'.pager.page? p = some (.branch extra cells) →
    ∃ extra₀ cells₀, m.pager.page? id = some (.branch extra₀ cells₀) ∧ cells₀.length ≤ cells.length

variable {m m' m'' : Machine} {k v lo : Bytes} {hi : WithTop Bytes} {id : PageId} {h levels : Nat}
  {F L L' : Multiset PageId}

/-- The end of a cut: the lower half is written at the page, and the upper half at a new one. -/
theorem run_writeSplit (hown : Own m {id}) (A B : TreePage) (sep : Bytes) : ∃ right m',
    m.run (do
      let right ← allocate
      markDirty right
      writePage id A
      writePage right B
      return Insert.split id sep right) = (.ok (.split id sep right), m') ∧
    m'.pager.page? id = some A ∧ m'.pager.page? right = some B ∧
    Change m m' {id} {id} ({id} + {right}) := by
  obtain ⟨right, m₁, hrun, hfresh, hchange⟩ := run_allocate m
  have hown₁ : Own (markedDirty m₁ right) ({id} + {right}) := hchange.own {id} (by simpa using hown)
  have hne : right ≠ id := by
    rintro rfl
    exact hown.not_fresh (by simp) hfresh
  have hown₂ := (change_write (markedDirty m₁ right) id A ({id} + {right})).owned hown₁
  refine ⟨right, ((markedDirty m₁ right).written id A).written right B, ?_, ?_, ?_, ?_⟩
  · rw [run_bind_ok hrun, markDirty, run_bind_ok (run_modifyState _),
      run_bind_ok (run_writePage _ _), run_bind_ok (run_writePage _ _)]
    rfl
  · rw [page?_write (hown₂.singleton (by simp)), if_neg hne.symm, page?_write
      (hown₁.singleton (by simp)), if_pos rfl]
  · rw [page?_write (hown₂.singleton (by simp)), if_pos rfl]
  · have hwrites := (change_write (markedDirty m₁ right) id A ({id} + {right})).mono
      (Set.singleton_subset_iff.2 (Set.mem_insert id {right})) |>.trans
        (change_write _ right B ({id} + {right})) fun p hp => .inl (Set.mem_insert_of_mem id hp)
    refine ((hchange.add {id}).mono (Set.empty_subset {id})).trans hwrites ?_
    rintro p (rfl | rfl)
    · exact .inl rfl
    · exact .inr hfresh

/-! ## Into a leaf -/

theorem LeafCells.len_le {cells : List LeafCell} (hok : LeafCells lo hi cells) :
    ∀ c ∈ cells, c.len + slotLen ≤ maxLeafCell := by
  intro c hc
  have := hok.lengths c hc
  simp only [LeafCell.len, maxLeafCell]
  omega

/-- Putting a cell in order among the cells of a leaf. -/
theorem LeafCells.insert {pre mid post : List LeafCell}
    (hok : LeafCells lo hi (pre ++ mid ++ post)) (hpre : ∀ c ∈ pre, c.key < k)
    (hmid : ∀ c ∈ mid, c.key = k) (hpost : ∀ c ∈ post, k < c.key) (hlo : lo ≤ k) (hhi : ↑k < hi)
    (hk : k.length ≤ maxKeyLen) (hv : v.length ≤ maxValueLen) :
    LeafCells lo hi (pre ++ ⟨k, v⟩ :: post) where
  sorted := by
    rw [← insert_cells hpre hmid hpost]
    exact hok.sorted.insert
  range := List.forall_mem_append.2 ⟨fun c hc => hok.range c (by simp [hc]),
    List.forall_mem_cons.2 ⟨⟨hlo, hhi⟩, fun c hc => hok.range c (by simp [hc])⟩⟩
  lengths := List.forall_mem_append.2 ⟨fun c hc => hok.lengths c (by simp [hc]),
    List.forall_mem_cons.2 ⟨⟨hk, hv⟩, fun c hc => hok.lengths c (by simp [hc])⟩⟩

/-- The two halves of the cells of a leaf meet at the first key of the second. -/
theorem LeafCells.cut {left right : List LeafCell} {c : LeafCell}
    (hok : LeafCells lo hi (left ++ c :: right)) (hleft : left ≠ []) :
    LeafCells lo c.key left ∧ LeafCells c.key hi (c :: right) ∧ lo < c.key ∧ ↑c.key < hi := by
  have hs := hok.sorted
  rw [List.map_append, sorted_append] at hs
  obtain ⟨hsl, hsr, hlr⟩ := hs
  have hlt : ∀ d ∈ left, d.key < c.key := fun d hd =>
    hlr d.entry (List.mem_map_of_mem hd) c.entry (by simp)
  obtain ⟨d, hd⟩ := List.exists_mem_of_ne_nil left hleft
  refine ⟨⟨hsl, fun e he => ⟨(hok.range e (by simp [he])).1, WithTop.coe_lt_coe.2 (hlt e he)⟩,
    fun e he => hok.lengths e (by simp [he])⟩, ⟨hsr, fun e he => ⟨?_, (hok.range e (by simp_all)).2⟩,
    fun e he => hok.lengths e (by simp_all)⟩, (hok.range d (by simp [hd])).1.trans_lt (hlt d hd),
    (hok.range c (by simp)).2⟩
  rcases List.mem_cons.1 he with rfl | he
  · exact le_rfl
  · exact ((sorted_cons.1 hsr).1 e.entry (List.mem_map_of_mem he)).le

/-- Cells that take more than a page are many. -/
theorem two_le_length {α : Type} {len : α → Nat} {cells : List α} {n : Nat}
    (hcell : ∀ c ∈ cells, len c + slotLen ≤ n) (hn : n ≤ maxCellLen + slotLen)
    (hfit : ¬ fits len cells) : 2 ≤ cells.length := by
  by_contra hlen
  rcases cells with _ | ⟨c, _ | ⟨d, cells⟩⟩
  · exact hfit (by simp [fits])
  · refine hfit ?_
    rw [fits, used_cons, Page.used_nil]
    exact (hcell c (by simp)).trans hn
  · simp at hlen

/-- Cutting an overfull leaf in two. -/
theorem run_splitLeaf {cells : List LeafCell} (hown : Own m {id}) (hok : LeafCells lo hi cells)
    (hfit : ¬ fits LeafCell.len cells)
    (hused : used LeafCell.len cells ≤ maxCellLen + slotLen + maxLeafCell) :
    ∃ sep right m', m.run (splitLeaf id cells) = (.ok (.split id sep right), m') ∧
      Tiling (Child m'.pager.page? 0) lo hi [(lo, id), (sep, right)] ∧ sep.length ≤ maxKeyLen ∧
      entriesOf m'.pager.page? 0 [(lo, id), (sep, right)] = cells.map LeafCell.entry ∧
      Change m m' {id} {id} ({id} + {right}) := by
  have hlen := two_le_length hok.len_le (by decide) hfit
  obtain ⟨cut, hcut, hpos, hlt, hleft, hright, -⟩ := Page.splitPoint_spec hlen hok.len_le
    (by have : 3 * maxLeafCell ≤ maxCellLen + slotLen := by decide
        omega)
  have hcells : cells = cells.take cut ++ cells[cut] :: cells.drop (cut + 1) := by
    rw [← List.drop_eq_getElem_cons hlt, List.take_append_drop]
  have hdrop : cells.drop cut = cells[cut] :: cells.drop (cut + 1) := List.drop_eq_getElem_cons hlt
  obtain ⟨hl, hr, hlosep, hsephi⟩ := (hcells ▸ hok).cut
    (by rw [← List.length_pos_iff, List.length_take]; omega)
  obtain ⟨right, m', hrun, hidpage, hrightpage, hchange⟩ := run_writeSplit hown
    (.leaf (cells.take cut)) (.leaf (cells.drop cut)) cells[cut].key
  have hleftEntries := entriesAt_leaf hidpage
  have hrightEntries := entriesAt_leaf hrightpage
  refine ⟨cells[cut].key, right, m', ?_, ?_, (hok.lengths _ (List.getElem_mem hlt)).1, ?_, hchange⟩
  · rw [splitLeaf, hcut]
    simp only [rebuild, buildPage_of_fits hleft, buildPage_of_fits hright,
      List.getElem?_eq_getElem hlt, Option.map_some, Option.getD_some]
    exact hrun
  · refine Tiling.cons (WithTop.coe_lt_coe.2 hlosep)
      ⟨⟨_, hidpage, { hl with fits := hleft }⟩, ?_⟩ (Tiling.singleton_iff.2 ⟨rfl, hsephi,
        ⟨_, hrightpage, ?_⟩, ?_⟩)
    · rw [hleftEntries, ne_eq, List.map_eq_nil_iff, ← List.length_eq_zero_iff, List.length_take]
      omega
    · rw [hdrop] at hright ⊢
      exact { hr with fits := hright }
    · rw [hrightEntries, hdrop, List.map_cons]
      exact List.cons_ne_nil _ _
  · rw [entriesOf_cons, entriesOf_cons, entriesOf_nil, hleftEntries, hrightEntries, List.append_nil,
      ← List.map_append, List.take_append_drop]

/-- An insert puts the cell in order among those of a copy, which is written or cut in two. -/
theorem insertIntoLeaf_eq {cells : List LeafCell} (hpage : m.pager.page? id = some (.leaf cells))
    (hok : LeafOk lo hi cells) {id' : PageId} (hcow : m.run (cow id) = (.ok (id', .leaf cells), m'))
    (k v : Bytes) : ∃ pre mid post, cells = pre ++ mid ++ post ∧ (∀ c ∈ pre, c.key < k) ∧
      (∀ c ∈ mid, c.key = k) ∧ (∀ c ∈ post, k < c.key) ∧
      m.run (insertIntoLeaf id k v) =
        m'.run (if fits LeafCell.len (pre ++ ⟨k, v⟩ :: post) then do
          writePage id' (.leaf (pre ++ ⟨k, v⟩ :: post))
          return .kept id'
        else splitLeaf id' (pre ++ ⟨k, v⟩ :: post)) := by
  have hcap : maxCellLen + slotLen = pageBodyLen - pageHeaderLen := rfl
  have hfits := hok.fits
  obtain ⟨pre, mid, post, rfl, hpre, hpost, ⟨rfl, hs⟩ | ⟨c, rfl, hc, hs⟩⟩ :=
    leafSearch_spec hok.sorted k
  · refine ⟨pre, [], post, rfl, hpre, by simp, hpost, ?_⟩
    rw [insertIntoLeaf, run_bind_ok hcow]
    simp only [hs]
    rw [List.append_nil] at hfits ⊢
    have hused := @Page.used_insert _ LeafCell.len (pre ++ post) pre.length ⟨k, v⟩
    rw [List.take_left, List.drop_left] at hused ⊢
    have hiff : (⟨k, v⟩ : LeafCell).len + slotLen ≤ reclaimableSpace LeafCell.len (pre ++ post) ↔
        fits LeafCell.len (pre ++ ⟨k, v⟩ :: post) := by
      rw [fits] at hfits ⊢
      rw [reclaimableSpace]
      omega
    by_cases hfit : fits LeafCell.len (pre ++ ⟨k, v⟩ :: post)
    · rw [if_pos (hiff.2 hfit), if_pos hfit, Page.insertCell_of_fits (by simp) (hused ▸ hfit),
        List.take_left, List.drop_left]
      rfl
    · rw [if_neg (mt hiff.1 hfit), if_neg hfit]
  · refine ⟨pre, [c], post, rfl, hpre, by simpa using hc, hpost, ?_⟩
    rw [insertIntoLeaf, run_bind_ok hcow]
    simp only [hs]
    have hget : (pre ++ [c] ++ post)[pre.length]? = some c := by simp
    have hset : (pre ++ [c] ++ post).set pre.length ⟨k, v⟩ = pre ++ ⟨k, v⟩ :: post := by simp
    have hused := @Page.used_set _ LeafCell.len _ _ _ hget ⟨k, v⟩
    rw [hset] at hused ⊢
    have hiff : (⟨k, v⟩ : LeafCell).len ≤ reclaimableSpace LeafCell.len (pre ++ [c] ++ post) +
        (((pre ++ [c] ++ post)[pre.length]?).map LeafCell.len).getD 0 ↔
        fits LeafCell.len (pre ++ ⟨k, v⟩ :: post) := by
      rw [fits] at hfits ⊢
      rw [reclaimableSpace, hget, Option.map_some, Option.getD_some]
      have : c.len ≤ used LeafCell.len (pre ++ [c] ++ post) := by
        simp only [Page.used_append, used_cons]
        omega
      omega
    by_cases hfit : fits LeafCell.len (pre ++ ⟨k, v⟩ :: post)
    · rw [if_pos (hiff.2 hfit), if_pos hfit, Page.replaceCell_of_fits hget, hset]
      rw [fits] at hfit
      omega
    · rw [if_neg (mt hiff.1 hfit), if_neg hfit]

/-- An insert into a leaf rewrites it or cuts it in two. -/
theorem run_insertIntoLeaf (hwf : Wf m.pager.page? 0 lo hi id) (hlo : lo ≤ k) (hhi : ↑k < hi)
    (hk : k.length ≤ maxKeyLen) (hv : v.length ≤ maxValueLen) (hown : Own m {id}) :
    ∃ out m', m.run (insertIntoLeaf id k v) = (.ok out, m') ∧
      InsertOk k v 0 lo hi id m m' out := by
  obtain ⟨cells, hpage, hok⟩ := hwf
  obtain ⟨id', m₁, hcow, hid', hchange⟩ := run_cow hpage
  have hown₁ := hchange.owned hown
  obtain ⟨pre, mid, post, rfl, hpre, hmid, hpost, heq⟩ := insertIntoLeaf_eq hpage hok hcow k v
  have hnew := hok.toLeafCells.insert hpre hmid hpost hlo hhi hk hv
  have hentries : SortedMap.insert k v (entriesAt m.pager.page? 0 id) =
      (pre ++ (⟨k, v⟩ : LeafCell) :: post).map LeafCell.entry := by
    rw [entriesAt_leaf hpage, insert_cells hpre hmid hpost]
  by_cases hfit : fits LeafCell.len (pre ++ ⟨k, v⟩ :: post)
  · have hpage' : (m₁.written id' (.leaf (pre ++ ⟨k, v⟩ :: post))).pager.page? id' =
        some (.leaf (pre ++ ⟨k, v⟩ :: post)) := by
      rw [page?_write hown₁, if_pos rfl]
    refine ⟨.kept id', m₁.written id' (.leaf (pre ++ ⟨k, v⟩ :: post)), by rw [heq, if_pos hfit]; rfl, ?_⟩
    exact
      { tiling := Tiling.singleton_iff.2 ⟨rfl, (WithTop.coe_le_coe.2 hlo).trans_lt hhi,
          ⟨_, hpage', { hnew with fits := hfit }⟩, by rw [entriesAt_leaf hpage']; simp⟩
        lengths := by simp [Insert.nodes]
        entries := by rw [hentries, Insert.nodes, entriesOf_cons, entriesAt_leaf hpage']; simp
        change := by
          simpa [Insert.nodes, pagesAt, pathAt] using
            hchange.of_cow (R := 0) hid' (change_write m₁ id' _ _)
        excess := by simp [Insert.nodes, excessAt]
        width := by
          rintro p extra cells ⟨⟩ hp
          simp [hpage'] at hp }
  · have hused : used LeafCell.len (pre ++ (⟨k, v⟩ : LeafCell) :: post) ≤
        maxCellLen + slotLen + maxLeafCell := by
      have hold := hok.fits
      have hcell := hnew.len_le ⟨k, v⟩ (by simp)
      simp only [fits, Page.used_append, used_cons] at hold hcell ⊢
      omega
    obtain ⟨sep, right, m₂, hrun, ht, hsep, hsplit, hchange₂⟩ := run_splitLeaf hown₁ hnew hfit hused
    refine ⟨.split id' sep right, m₂, by rw [heq, if_neg hfit, hrun], ?_⟩
    exact
      { tiling := ht
        lengths := by simpa [Insert.nodes] using hsep
        entries := by rw [hentries]; exact hsplit
        change := by
          simpa [Insert.nodes, pagesAt, pathAt] using
            hchange.of_cow (R := 0) hid' (by simpa using hchange₂)
        excess := by simp [Insert.nodes, excessAt]
        width := by simp }

/-! ## Below a branch -/

/-- The insert is made below the branch `id`, whose children are now `ns`, `n` more than in its
    page. -/
structure InsertedBelow (k v : Bytes) (h : Nat) (lo : Bytes) (hi : WithTop Bytes) (id extra : PageId)
    (cells : List BranchCell) (m m' : Machine) (ns : List (Bytes × PageId)) (n : Nat) : Prop where
  page : m'.pager.page? id = some (.branch extra cells)
  tiling : Tiling (Child m'.pager.page? h) lo hi ns
  entries : entriesOf m'.pager.page? h ns = SortedMap.insert k v (entriesAt m.pager.page? (h + 1) id)
  change : Change m m' (inPlace m (pathAt m.pager.page? k (h + 1) id))
    (pagesAt m.pager.page? (h + 1) id) (pagesOf m'.pager.page? h ns + (0 + {id}))
  own : Own m (pagesAt m.pager.page? (h + 1) id)
  excess : excessOf m'.pager.page? h ns + n * (maxBranchCell * 6 ^ h) ≤
    excessOf m.pager.page? h (nodes lo extra cells) + maxBranchCell

variable {cells : List BranchCell}

/-- An insert into one child leaves the other children and the branch as they are. -/
theorem InsertOk.below {extra c : PageId} {l : Bytes} {mid : WithTop Bytes}
    {pre post : List (Bytes × PageId)} {out : Insert} (hins : InsertOk k v h l mid c m m' out)
    (hpage : m.pager.page? id = some (.branch extra cells))
    (hn : nodes lo extra cells = pre ++ (l, c) :: post)
    (hchild : branchChildFor extra cells k = (pre.length, c)) (hl : l ≤ k) (hk : ↑k < mid)
    (hpre : Tiling (Child m.pager.page? h) lo ↑l pre)
    (hpost : Tiling (Child m.pager.page? h) mid hi post)
    (hown : Own m (pagesAt m.pager.page? (h + 1) id)) :
    InsertedBelow k v h lo hi id extra cells m m' (pre ++ (out.nodes l ++ post))
      (out.nodes l).tail.length := by
  obtain ⟨hpage', hpre', hpost', hchange⟩ := hins.change.below hpage hn hchild hown
  have hpages : pagesOf m'.pager.page? h (pre ++ (out.nodes l ++ post)) + (0 + {id}) =
      pagesOf m.pager.page? h pre + pagesOf m.pager.page? h post +
        (pagesOf m'.pager.page? h (out.nodes l) + {id}) := by
    rw [pagesOf_append, pagesOf_append, pagesOf_congr hpre', pagesOf_congr hpost',
      zero_add]
    ac_rfl
  rw [← hpages] at hchange
  refine
    { page := hpage'
      tiling := Tiling.append_iff.2 ⟨_, tiling_congr hpre' hpre, Tiling.append_iff.2
        ⟨_, hins.tiling, tiling_congr hpost' hpost⟩⟩
      entries := ?_
      change := hchange
      own := hown
      excess := ?_ }
  · rw [entriesOf_append, entriesOf_append, entriesOf_congr hpre', entriesOf_congr hpost',
      hins.entries, entriesAt_branch lo hpage, hn, entriesOf_append, entriesOf_cons,
      ← List.append_assoc, ← List.append_assoc,
      insert_append (entriesOf_lt hpre hl) (lt_entriesOf hpost hk)]
  · have := hins.excess
    rw [hn, excessOf_append, excessOf_append, excessOf_append, excessOf_cons,
      excessOf_congr hpre', excessOf_congr hpost']
    dsimp only
    omega

theorem BranchOk.len_le (h : ∀ c ∈ cells, c.key.length ≤ maxKeyLen) :
    ∀ c ∈ cells, c.len + slotLen ≤ maxBranchCell := by
  intro c hc
  have := h c hc
  simp only [BranchCell.len, maxBranchCell]
  omega

/-- Cutting a branch: the separator at the cut moves up, and neither half is over half full. -/
theorem run_splitBranch (extra : PageId) (hown : Own m {id})
    (hlens : ∀ c ∈ cells, c.key.length ≤ maxKeyLen) (hfit : ¬ fits BranchCell.len cells)
    (hused : used BranchCell.len cells ≤ maxCellLen + slotLen + maxBranchCell) :
    ∃ left c right rightId m', cells = left ++ c :: right ∧
      m.run (splitBranch id extra cells) = (.ok (.split id c.key rightId), m') ∧
      m'.pager.page? id = some (.branch extra left) ∧
      m'.pager.page? rightId = some (.branch c.child right) ∧
      used BranchCell.len left ≤ halfFull ∧ used BranchCell.len right ≤ halfFull ∧
      Change m m' {id} {id} ({id} + {rightId}) := by
  have hcells := BranchOk.len_le hlens
  have hlen := two_le_length hcells (by decide) hfit
  have hbig : 3 * maxBranchCell ≤ maxCellLen + slotLen := by decide
  obtain ⟨cut, hcut, -, hlt, hleft, hright, hhalf⟩ := Page.splitPoint_spec hlen hcells (by omega)
  have hdrop : cells.drop cut = cells[cut] :: cells.drop (cut + 1) := List.drop_eq_getElem_cons hlt
  have hright' : fits BranchCell.len (cells.drop (cut + 1)) := by
    rw [hdrop, fits, used_cons] at hright
    rw [fits]
    omega
  obtain ⟨hl, hr⟩ := hhalf (by rw [fits] at hfit; omega)
  have hhalfFull : 2 * halfFull = maxCellLen + slotLen + maxBranchCell := rfl
  obtain ⟨rightId, m', hrun, hid, hrightId, hchange⟩ := run_writeSplit hown
    (.branch extra (cells.take cut)) (.branch cells[cut].child (cells.drop (cut + 1))) cells[cut].key
  refine ⟨cells.take cut, cells[cut], cells.drop (cut + 1), rightId, m', ?_, ?_, hid, hrightId,
    by omega, by omega, hchange⟩
  · rw [← hdrop, List.take_append_drop]
  · rw [splitBranch, hcut]
    simp only [rebuild, buildPage_of_fits hleft, buildPage_of_fits hright',
      List.getElem?_eq_getElem hlt, Option.map_some, Option.getD_some]
    exact hrun

section Finish

variable {extra : PageId} {cells : List BranchCell} {ns : List (Bytes × PageId)} {n : Nat}
  {m₁ m₂ m₃ : Machine} {id' : PageId}

theorem InsertedBelow.own_copy (hb : InsertedBelow k v h lo hi id extra cells m m₁ ns n)
    (hcow : Change m₁ m₂ ∅ {id} {id'}) : Own m₂ {id'} :=
  hcow.owned (hb.change.owned hb.own).right.right

section

variable (hb : InsertedBelow k v h lo hi id extra cells m m₁ ns n)
  (hpage : m.pager.page? id = some (.branch extra cells)) {extra' : PageId}
  {cells' : List BranchCell} (hn : nodes lo extra' cells' = ns) (hok : BranchOk cells')
  (hlohi : ↑lo < hi) (hlen : cells.length ≤ cells'.length)
  (hused : used BranchCell.len cells' ≤ used BranchCell.len cells + n * maxBranchCell)
include hb hpage hn hok hlohi hlen hused

/-- The branch is at one page, with its children as they are now. -/
theorem InsertedBelow.ok (hpage' : m₂.pager.page? id' = some (.branch extra' cells'))
    (hstable : ∀ p ∈ pagesOf m₁.pager.page? h ns, m₂.pager.page? p = m₁.pager.page? p)
    (hchange : Change m m₂ (inPlace m (pathAt m.pager.page? k (h + 1) id))
      (pagesAt m.pager.page? (h + 1) id) (pagesOf m₁.pager.page? h ns + (0 + {id'}))) :
    InsertOk k v (h + 1) lo hi id m m₂ (.kept id') := by
  have ht := tiling_congr hstable hb.tiling
  subst hn
  refine
    { tiling := Tiling.singleton_iff.2 ⟨rfl, hlohi, child_of_branch hpage' hok ht⟩
      lengths := by simp [Insert.nodes]
      entries := ?_
      change := ?_
      excess := ?_
      width := ?_ }
  · simp only [Insert.nodes, entriesOf_cons, entriesOf_nil, List.append_nil]
    rw [entriesAt_branch lo hpage', entriesOf_congr hstable, hb.entries]
  · simp only [Insert.nodes, pagesOf_cons, pagesOf_nil, add_zero]
    rw [pagesAt_branch lo hpage', pagesOf_congr hstable, ← Multiset.singleton_add]
    rwa [add_comm (pagesOf _ _ _), zero_add] at hchange
  · simp only [Insert.nodes, excessOf_cons, excessOf_nil, List.tail_cons, List.length_nil]
    rw [excessAt_branch lo hpage', excessOf_congr hstable, excessAt_branch lo hpage]
    have hown : 6 ^ h * (used BranchCell.len cells' - halfFull) ≤
        6 ^ h * (used BranchCell.len cells - halfFull) + n * (maxBranchCell * 6 ^ h) := by
      calc 6 ^ h * (used BranchCell.len cells' - halfFull)
          ≤ 6 ^ h * (used BranchCell.len cells - halfFull + n * maxBranchCell) :=
            Nat.mul_le_mul_left _ (by omega)
        _ = _ := by ring
    have := hb.excess
    omega
  · rintro p extra₁ cells₁ ⟨⟩ hp
    obtain ⟨-, rfl⟩ : extra' = extra₁ ∧ cells' = cells₁ := by simpa [hpage'] using hp
    exact ⟨extra, cells, hpage, hlen⟩

/-- The branch is written, with its children as they are now, to one page. -/
theorem InsertedBelow.kept (hcow : Change m₁ m₂ ∅ {id} {id'})
    (hid' : id' = id ∧ id ∈ m₁.state.dirty ∨ Fresh m₁ id') :
    InsertOk k v (h + 1) lo hi id m (m₂.written id' (.branch extra' cells')) (.kept id') := by
  obtain ⟨hchange, hstable⟩ := hb.change.rewrite hb.own hcow hid'
    (change_write m₂ id' (.branch extra' cells') _)
  refine hb.ok hpage hn hok hlohi hlen hused ?_ hstable hchange
  rw [page?_write (hb.own_copy hcow), if_pos rfl]

end

/-- The branch, with its children as they are now, is overfull and is cut in two. -/
theorem InsertedBelow.split (hb : InsertedBelow k v h lo hi id extra cells m m₁ ns 1)
    (hcow : Change m₁ m₂ ∅ {id} {id'}) (hid' : id' = id ∧ id ∈ m₁.state.dirty ∨ Fresh m₁ id')
    (hpage : m.pager.page? id = some (.branch extra cells)) {extra' : PageId}
    {cells' : List BranchCell} (hn : nodes lo extra' cells' = ns)
    (hlens : ∀ c ∈ cells', c.key.length ≤ maxKeyLen) (hfit : ¬ fits BranchCell.len cells')
    (hfits : fits BranchCell.len cells)
    (hused : used BranchCell.len cells' ≤ used BranchCell.len cells + maxBranchCell) :
    ∃ out m₃, m₂.run (splitBranch id' extra' cells') = (.ok out, m₃) ∧
      InsertOk k v (h + 1) lo hi id m m₃ out := by
  have hown₂ := hb.own_copy hcow
  obtain ⟨left, c, right, rightId, m₃, rfl, hrun, hleft, hright, hul, hur, hsplit⟩ :=
    run_splitBranch extra' hown₂ hlens hfit (by rw [fits] at hfits; omega)
  obtain ⟨hchange, hstable⟩ := hb.change.rewrite hb.own hcow hid' (by simpa using hsplit)
  have hcut : nodes lo extra' (left ++ c :: right) =
      nodes lo extra' left ++ nodes c.key c.child right := by simp [nodes]
  have hhalf : halfFull ≤ maxCellLen + slotLen := by decide
  have hokl : BranchOk left :=
    ⟨by rw [fits]; omega, fun d hd => hlens d (by simp [hd])⟩
  have hokr : BranchOk right :=
    ⟨by rw [fits]; omega, fun d hd => hlens d (by simp [hd])⟩
  subst hn
  have ht := tiling_congr hstable hb.tiling
  rw [hcut, Tiling.append_iff] at ht
  obtain ⟨mid, htl, htr⟩ := ht
  obtain rfl : mid = ↑c.key := (Tiling.cons_iff.1 htr).1
  have hlr := htl.mem_range (List.mem_cons_self (a := (lo, extra')))
  have hrr := htr.mem_range (List.mem_cons_self (a := (c.key, c.child)))
  refine ⟨.split id' c.key rightId, m₃, hrun,
    { tiling := Tiling.cons hlr.2 (child_of_branch hleft hokl htl)
        (Tiling.singleton_iff.2 ⟨rfl, hrr.2, child_of_branch hright hokr htr⟩)
      lengths := by simpa [Insert.nodes] using hlens c (by simp)
      entries := ?_
      change := ?_
      excess := ?_
      width := by simp }⟩
  · simp only [Insert.nodes, entriesOf_cons, entriesOf_nil, List.append_nil]
    rw [entriesAt_branch lo hleft, entriesAt_branch c.key hright,
      ← entriesOf_append, ← hcut, entriesOf_congr hstable, hb.entries]
  · simp only [Insert.nodes, pagesOf_cons, pagesOf_nil, add_zero]
    rw [pagesAt_branch lo hleft, pagesAt_branch c.key hright]
    rw [← pagesOf_congr hstable, hcut, pagesOf_append] at hchange
    simp only [← Multiset.singleton_add]
    convert hchange using 1
    ac_rfl
  · simp only [Insert.nodes, excessOf_cons, excessOf_nil, List.tail_cons, List.length_singleton,
      one_mul, add_zero]
    rw [excessAt_branch lo hleft, excessAt_branch c.key hright,
      excessAt_branch lo hpage, Nat.sub_eq_zero_of_le hul, Nat.sub_eq_zero_of_le hur]
    have hsum : excessOf m₃.pager.page? h (nodes lo extra' left) +
        excessOf m₃.pager.page? h (nodes c.key c.child right) =
        excessOf m₁.pager.page? h (nodes lo extra' (left ++ c :: right)) := by
      rw [← excessOf_append, ← hcut, excessOf_congr hstable]
    -- An overfull branch has paid for the separator it hands up.
    have hpaid : maxBranchCell * 6 ^ (h + 1) ≤
        6 ^ h * (used BranchCell.len cells - halfFull) := by
      have hover : 6 * maxBranchCell ≤ used BranchCell.len cells - halfFull := by
        have : 6 * maxBranchCell + halfFull + maxBranchCell ≤ maxCellLen + slotLen := by decide
        rw [fits] at hfit
        omega
      calc maxBranchCell * 6 ^ (h + 1) = 6 ^ h * (6 * maxBranchCell) := by ring
        _ ≤ _ := Nat.mul_le_mul_left _ hover
    have := hb.excess
    omega

end Finish

/-- Putting back into a branch what the insert below a child has made of it. -/
theorem run_replaceChild {extra c : PageId} {l : Bytes} {pre post : List (Bytes × PageId)}
    {out : Insert} {m₁ : Machine} (hpage : m.pager.page? id = some (.branch extra cells))
    (hok : BranchOk cells) (hn : nodes lo extra cells = pre ++ (l, c) :: post) (hlohi : ↑lo < hi)
    (hlens : ∀ x ∈ (out.nodes l).tail, x.1.length ≤ maxKeyLen)
    (hb : InsertedBelow k v h lo hi id extra cells m m₁ (pre ++ (out.nodes l ++ post))
      (out.nodes l).tail.length) :
    ∃ out' m', m₁.run (replaceChild id pre.length c out) = (.ok out', m') ∧
      InsertOk k v (h + 1) lo hi id m m' out' := by
  obtain ⟨id', m₂, hcow, hid', hchange⟩ := run_cow hb.page
  cases out with
  | kept c' =>
    by_cases hc' : c' = c
    · -- The child is still at its page, and so is the branch.
      subst hc'
      have hns : pre ++ (Insert.nodes l (.kept c') ++ post) = nodes lo extra cells := by
        rw [hn]; rfl
      rw [hns] at hb
      exact ⟨.kept id, m₁, by simp [replaceChild], hb.ok hpage rfl hok hlohi le_rfl
        (Nat.le_add_right ..) hb.page (fun _ _ => rfl) hb.change⟩
    · obtain ⟨extra', cells', hset, hn', hkeys⟩ := setBranchChild_nodes hn c'
      refine ⟨.kept id', m₂.written id' (.branch extra' cells'), ?_,
        hb.kept hpage ?_ ?_ hlohi ?_ ?_ hchange hid'⟩
      · rw [replaceChild, if_neg hc', run_bind_ok hcow]
        simp only [hset]
        rfl
      · simpa [Insert.nodes] using hn'
      · exact ⟨by rw [fits, used_eq_of_keys hkeys]; exact hok.fits,
          lengths_of_keys hkeys hok.lengths⟩
      · exact (by simpa using congrArg List.length hkeys : cells'.length = cells.length).ge
      · rw [used_eq_of_keys hkeys]
        exact Nat.le_add_right _ _
  | split left sep right =>
    obtain ⟨extra', cells', hset, hn', hkeys⟩ := setBranchChild_nodes hn left
    have hlens' : ∀ d ∈ cells'.take pre.length ++ (⟨sep, right⟩ : BranchCell) ::
        cells'.drop pre.length, d.key.length ≤ maxKeyLen := by
      have hold := lengths_of_keys hkeys hok.lengths
      exact List.forall_mem_append.2 ⟨fun d hd => hold d (List.mem_of_mem_take hd),
        List.forall_mem_cons.2 ⟨by simpa [Insert.nodes] using hlens,
          fun d hd => hold d (List.mem_of_mem_drop hd)⟩⟩
    have hns := nodes_insert hn' sep right
    have hcell := BranchOk.len_le hlens' ⟨sep, right⟩ (by simp)
    have hused := @Page.used_insert _ BranchCell.len cells' pre.length ⟨sep, right⟩
    have hfits := hok.fits
    rw [used_eq_of_keys hkeys] at hused
    have hslot : pre.length ≤ cells'.length := by
      have := congrArg List.length hn'
      simp only [nodes, List.length_cons, List.length_map, List.length_append] at this
      omega
    have hcap : maxCellLen + slotLen = pageBodyLen - pageHeaderLen := rfl
    have hiff : (⟨sep, right⟩ : BranchCell).len + slotLen ≤
        reclaimableSpace BranchCell.len cells' ↔
        fits BranchCell.len (cells'.take pre.length ++ ⟨sep, right⟩ :: cells'.drop pre.length) := by
      rw [fits] at hfits ⊢
      rw [reclaimableSpace, used_eq_of_keys hkeys]
      omega
    have hstart : m₁.run (replaceChild id pre.length c (.split left sep right)) = m₂.run
        (if fits BranchCell.len (cells'.take pre.length ++ ⟨sep, right⟩ :: cells'.drop pre.length)
        then do
          writePage id' (.branch extra'
            (cells'.take pre.length ++ ⟨sep, right⟩ :: cells'.drop pre.length))
          return .kept id'
        else splitBranch id' extra'
          (cells'.take pre.length ++ ⟨sep, right⟩ :: cells'.drop pre.length)) := by
      rw [replaceChild, run_bind_ok hcow]
      simp only [hset]
      by_cases hfit : fits BranchCell.len
          (cells'.take pre.length ++ ⟨sep, right⟩ :: cells'.drop pre.length)
      · rw [if_pos (hiff.2 hfit), if_pos hfit, Page.insertCell_of_fits hslot]
        · rfl
        · rw [fits, hused] at hfit
          rwa [used_eq_of_keys hkeys]
      · rw [if_neg (mt hiff.1 hfit), if_neg hfit]
    by_cases hfit : fits BranchCell.len
        (cells'.take pre.length ++ ⟨sep, right⟩ :: cells'.drop pre.length)
    · refine ⟨.kept id', _, by rw [hstart, if_pos hfit]; rfl,
        hb.kept hpage hns ⟨hfit, hlens'⟩ hlohi ?_ ?_ hchange hid'⟩
      · have : cells'.length = cells.length := by simpa using congrArg List.length hkeys
        simp only [List.length_append, List.length_cons, List.length_take, List.length_drop]
        omega
      · rw [hused]
        simp only [Insert.nodes, List.tail_cons, List.length_singleton, one_mul]
        omega
    · obtain ⟨out', m₃, hrun, hins⟩ := hb.split hchange hid' hpage hns hlens' hfit hok.fits
        (by rw [hused]; omega)
      exact ⟨out', m₃, by rw [hstart, if_neg hfit, hrun], hins⟩

/-- An insert below any page, by induction on its level: below the child the key belongs to, and
    then into the branch, which is kept, rewritten or cut. -/
theorem run_insertInto (hwf : Wf m.pager.page? h lo hi id) (hlo : lo ≤ k) (hhi : ↑k < hi)
    (hk : k.length ≤ maxKeyLen) (hv : v.length ≤ maxValueLen)
    (hown : Own m (pagesAt m.pager.page? h id)) (hh : h < levels) :
    ∃ out m', m.run (insertInto k v levels id) = (.ok out, m') ∧ InsertOk k v h lo hi id m m' out := by
  induction h generalizing levels lo hi id with
  | zero =>
    obtain ⟨cells, hpage, hok⟩ := hwf
    rcases levels with _ | levels
    · omega
    rw [insertInto, run_bind_ok (run_readPage hpage)]
    exact run_insertIntoLeaf ⟨cells, hpage, hok⟩ hlo hhi hk hv hown
  | succ h ih =>
    obtain ⟨extra, cells, hpage, hok, ht⟩ := hwf
    rcases levels with _ | levels
    · omega
    obtain ⟨pre, l, c, post, mid, hn, hchild, hl, hkmid, ⟨hc, -⟩, hpre, hpost⟩ :=
      route_nodes ht hlo hhi
    have hownc := hown.of_child hpage hn
    obtain ⟨out, m₁, hrun, hins⟩ := ih hc hl hkmid hownc (show h < levels by omega)
    have hb := hins.below hpage hn hchild hl hkmid hpre hpost hown
    obtain ⟨out', m', hrun', hins'⟩ := run_replaceChild hpage hok hn
      ((WithTop.coe_le_coe.2 hlo).trans_lt hhi) hins.lengths hb
    refine ⟨out', m', ?_, hins'⟩
    rw [insertInto, run_bind_ok (run_readPage hpage)]
    dsimp only
    rw [insertIntoBranch, run_bind_ok (run_readPage hpage)]
    simp only [hchild]
    rw [run_bind_ok hrun, hrun']

/-! ## Pages that are overfull -/

section

variable {α : Type} {len : α → Nat} {cells : List α} {data : α}

theorem splits_insert_of_full (h : Page.Built len cells) (index : Nat)
    (hfull : reclaimableSpace len cells < len data + slotLen)
    (hdata : 2 * (len data + slotLen) ≤ maxCellLen + slotLen) (promoted : Nat) :
    Page.Splits len (cells.take index ++ data :: cells.drop index) promoted := by
  refine Page.splits_insert ?_ ?_ hdata promoted <;> rw [List.take_append_drop]
  · rintro rfl
    have : reclaimableSpace len ([] : List α) = maxCellLen + slotLen := rfl
    omega
  · exact h.fits

end

/-- A cell that a leaf or a branch has no room for is put in by cutting the page in two. -/
theorem overfull_page_splits (leaf : List LeafCell) (branch : List BranchCell) (key value : Bytes)
    (child : PageId) (hleaf : Page.Built LeafCell.len leaf)
    (hbranch : Page.Built BranchCell.len branch) (hkey : key.length ≤ maxKeyLen)
    (hvalue : value.length ≤ maxValueLen) :
    (∀ index, reclaimableSpace LeafCell.len leaf < LeafCell.len ⟨key, value⟩ + slotLen →
        Page.Splits LeafCell.len (leaf.take index ++ ⟨key, value⟩ :: leaf.drop index) 0) ∧
      (∀ index old, leaf[index]? = some old →
        reclaimableSpace LeafCell.len leaf + old.len < LeafCell.len ⟨key, value⟩ →
        Page.Splits LeafCell.len (leaf.set index ⟨key, value⟩) 0) ∧
      ∀ slot, reclaimableSpace BranchCell.len branch < BranchCell.len ⟨key, child⟩ + slotLen →
        Page.Splits BranchCell.len (branch.take slot ++ ⟨key, child⟩ :: branch.drop slot) 1 := by
  have hleafLen : 2 * (LeafCell.len ⟨key, value⟩ + slotLen) ≤ maxCellLen + slotLen := by
    have : 2 * maxLeafCell ≤ maxCellLen + slotLen := by decide
    simp only [LeafCell.len, maxLeafCell] at this ⊢
    omega
  have hbranchLen : 2 * (BranchCell.len ⟨key, child⟩ + slotLen) ≤ maxCellLen + slotLen := by
    have : 2 * maxBranchCell ≤ maxCellLen + slotLen := by decide
    simp only [BranchCell.len, maxBranchCell] at this ⊢
    omega
  refine ⟨fun index hfull => splits_insert_of_full hleaf index hfull hleafLen 0, ?_,
    fun slot hfull => splits_insert_of_full hbranch slot hfull hbranchLen 1⟩
  intro index old hold hfull
  obtain ⟨hindex, -⟩ := List.getElem?_eq_some_iff.1 hold
  have hused := @Page.used_eq_of_getElem? _ LeafCell.len _ _ _ hold
  have hfits := hleaf.fits
  have hcap : maxCellLen + slotLen = pageBodyLen - pageHeaderLen := rfl
  rw [List.set_eq_take_append_cons_drop, if_pos hindex]
  rw [reclaimableSpace] at hfull
  rw [fits] at hfits
  refine Page.splits_insert (fun hnil => ?_) ?_ hleafLen 0
  · obtain ⟨hl, hr⟩ := List.append_eq_nil_iff.1 hnil
    rw [hl, hr, Page.used_nil] at hused
    omega
  · rw [Page.used_append]
    omega

theorem overfull_page_splits_full : ∃ leaf, Page.Built LeafCell.len leaf ∧
    reclaimableSpace LeafCell.len leaf < LeafCell.len ⟨[1], List.replicate 4096 0⟩ + slotLen ∧
      Page.Splits LeafCell.len (⟨[1], List.replicate 4096 0⟩ :: leaf) 0 := by
  have hbuilt : Page.Built LeafCell.len [⟨[2], List.replicate 16000 0⟩] :=
    .insert .new (Page.insertCell_of_fits (Nat.zero_le _) (by
      simp only [LeafCell.len, Page.used_nil, List.length_replicate]
      decide))
  have hfull : reclaimableSpace LeafCell.len [⟨[2], List.replicate 16000 0⟩] <
      LeafCell.len ⟨[1], List.replicate 4096 0⟩ + slotLen := by
    simp only [reclaimableSpace, used_cons, Page.used_nil, LeafCell.len, List.length_replicate]
    decide
  exact ⟨_, hbuilt, hfull, (overfull_page_splits _ [] [1] (List.replicate 4096 0) 0 hbuilt .new
    (by decide) (by rw [List.length_replicate]; decide)).1 0 hfull⟩

end BTree

end FacetQL
