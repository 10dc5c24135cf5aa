import FacetQL.Storage.BTree.Alloc
import FacetQL.Storage.BTree.Search

/-!
# Removing

What a removal below a page does: it ends well, leaves everything as it is when
the key is not there, and otherwise leaves a page whose entries are the old ones
without the removed one. A subtree that loses its last entry says so, and its
parent drops it.
-/

namespace FacetQL

namespace BTree

open Machine SortedMap

/-- A removal below `id`, of level `h` and range `[lo, hi)`, has found the key and ended with
    `out`. -/
structure RemoveOk (k : Bytes) (h : Nat) (lo : Bytes) (hi : WithTop Bytes) (id : PageId)
    (m m' : Machine) (out : Removal) : Prop where
  found : (find k (entriesAt m.pager.page? h id)).isSome
  empty : out.empty = true ↔ SortedMap.erase k (entriesAt m.pager.page? h id) = []
  wf : out.empty = false ∨ h = 0 → Wf m'.pager.page? h lo hi out.page ∧
    entriesAt m'.pager.page? h out.page = SortedMap.erase k (entriesAt m.pager.page? h id) ∧
    excessAt m'.pager.page? h out.page ≤ excessAt m.pager.page? h id
  change : Change m m' (inPlace m (pathAt m.pager.page? k h id)) (pagesAt m.pager.page? h id)
    (if out.empty then {out.page} else pagesAt m'.pager.page? h out.page)

variable {m m' m'' : Machine} {k lo : Bytes} {hi : WithTop Bytes} {id : PageId} {h levels : Nat}

/-! ## From a leaf -/

theorem run_removeFrom_leaf (hwf : Wf m.pager.page? 0 lo hi id) (hown : Own m {id}) (levels : Nat) :
    (m.run (removeFrom k (levels + 1) id) = (.ok ⟨id, false, false⟩, m) ∧
      find k (entriesAt m.pager.page? 0 id) = none) ∨
    ∃ out m', m.run (removeFrom k (levels + 1) id) = (.ok out, m') ∧ out.removed = true ∧
      RemoveOk k 0 lo hi id m m' out := by
  obtain ⟨cells, hpage, hok⟩ := hwf
  obtain ⟨pre, mid, post, rfl, hpre, hpost, ⟨rfl, hs⟩ | ⟨c, rfl, hc, hs⟩⟩ :=
    leafSearch_spec hok.sorted k
  · left
    rw [removeFrom, run_bind_ok (run_readPage hpage)]
    simp only [hs]
    exact ⟨rfl, entriesAt_leaf hpage ▸ find_of_gap hpre hpost⟩
  · right
    obtain ⟨id', m₁, hcow, hid', hchange⟩ := run_cow hpage
    have hown₁ := hchange.owned hown
    have hcells : Page.removeCell (pre ++ [c] ++ post) pre.length = pre ++ post := by
      simp [Page.removeCell]
    have hpage' := page?_write hown₁ (.leaf (pre ++ post)) id'
    rw [if_pos rfl] at hpage'
    have hmid : ∀ d ∈ [c], d.key = k := by simpa using hc
    have herase : SortedMap.erase k (entriesAt m.pager.page? 0 id) =
        (pre ++ post).map LeafCell.entry := by
      rw [entriesAt_leaf hpage, erase_cells hpre hmid hpost]
    have hsub : (pre ++ post).Sublist (pre ++ [c] ++ post) := by simp
    refine ⟨⟨id', true, (pre ++ post).isEmpty⟩, m₁.written id' (.leaf (pre ++ post)), ?_, rfl,
      { found := ?_, empty := ?_, wf := fun _ => ⟨⟨_, hpage', ?_⟩, ?_, le_rfl⟩, change := ?_ }⟩
    · rw [removeFrom, run_bind_ok (run_readPage hpage)]
      simp only [hs]
      rw [run_bind_ok hcow]
      simp only [hcells]
      rfl
    · rw [entriesAt_leaf hpage, hok.sorted.find_eq_some.2 (by simp [LeafCell.entry, hc] : (k, c.value) ∈ _)]
      rfl
    · rw [herase]
      simp
    · exact
        { sorted := by
            rw [← herase, entriesAt_leaf hpage]
            exact hok.sorted.erase
          range := fun d hd => hok.range d (hsub.subset hd)
          lengths := fun d hd => hok.lengths d (hsub.subset hd)
          fits := by
            have := hok.fits
            have hle := @Page.used_removeCell_le _ LeafCell.len (pre ++ [c] ++ post) pre.length
            rw [hcells] at hle
            exact hle.trans this }
    · rw [herase, entriesAt_leaf hpage']
    · have := hchange.of_cow (R := 0) hid' (change_write m₁ id' (.leaf (pre ++ post)) _)
      simp only [zero_add] at this
      simpa [pagesAt, pathAt] using this

/-! ## Below a branch -/

/-- A child that goes leaves its range to a neighbour. -/
theorem dropChild_tiling {σ : Store} {extra c : PageId} {cells : List BranchCell} {l : Bytes}
    {mid : WithTop Bytes} {pre post : List (Bytes × PageId)}
    (hn : nodes lo extra cells = pre ++ (l, c) :: post)
    (hpre : Tiling (Child σ h) lo ↑l pre) (hpost : Tiling (Child σ h) mid hi post)
    (hl : ↑l < mid) (hne : ¬ (pre.length = 0 ∧ cells = [])) : ∃ extra' cells',
      dropChild extra cells pre.length = (extra', cells') ∧ cells'.Sublist cells ∧
      Tiling (Child σ h) lo hi (nodes lo extra' cells') ∧
      (nodes lo extra' cells').map Prod.snd = (pre ++ post).map Prod.snd := by
  rcases eq_or_ne pre [] with rfl | hpre'
  · rcases post with _ | ⟨⟨l₂, c₂⟩, post⟩
    · exact absurd ⟨rfl, by simpa [nodes] using congrArg List.length hn⟩ hne
    obtain ⟨rfl, rfl⟩ : l = lo ∧ c = extra := by
      simp only [nodes, List.nil_append, List.cons.injEq, Prod.mk.injEq] at hn
      exact ⟨hn.1.1.symm, hn.1.2.symm⟩
    obtain ⟨cells', hdrop, hn', hsub⟩ := dropChild_head hn
    obtain ⟨rfl, -⟩ := Tiling.cons_iff.1 hpost
    refine ⟨c₂, cells', hdrop, hsub, ?_, by simp [hn']⟩
    rw [hn']
    exact hpost.lower (fun hl hc => ⟨hc.1.mono hl le_rfl, hc.2⟩) (WithTop.coe_le_coe.1 hl.le)
  · obtain ⟨cells', hdrop, hn', hsub⟩ := dropChild_tail hn hpre'
    refine ⟨extra, cells', hdrop, hsub, ?_, by rw [hn']⟩
    rw [hn', Tiling.append_iff]
    exact ⟨mid, hpre.extend (fun hm hc => ⟨hc.1.mono le_rfl hm, hc.2⟩) hpre' hl.le, hpost⟩

/-- Entries, pages and excess of subtrees do not depend on where their ranges start. -/
theorem of_map_snd_eq {σ : Store} {ns ns' : List (Bytes × PageId)}
    (hns : ns.map Prod.snd = ns'.map Prod.snd) : entriesOf σ h ns = entriesOf σ h ns' ∧
      pagesOf σ h ns = pagesOf σ h ns' ∧ excessOf σ h ns = excessOf σ h ns' := by
  have hmap : ∀ {β : Type} (f : PageId → β), ns.map (fun x => f x.2) = ns'.map fun x => f x.2 :=
    fun {β} f => by simpa [List.map_map, Function.comp_def] using congrArg (List.map f) hns
  refine ⟨?_, congrArg List.sum (hmap _), congrArg List.sum (hmap _)⟩
  rw [entriesOf, entriesOf, List.flatMap_def, List.flatMap_def, hmap (entriesAt σ h)]

theorem used_le_of_sublist {cells cells' : List BranchCell} (hsub : cells'.Sublist cells) :
    Page.used BranchCell.len cells' ≤ Page.used BranchCell.len cells :=
  (hsub.map _).sum_le_sum fun _ _ => Nat.zero_le _

theorem change_release_write (m : Machine) (c id : PageId) (page : TreePage) :
    Change m ((released m c).written id page) {id} ({c} + {id}) {id} := by
  have hrel := ((change_release m c).add {id}).mono (Set.empty_subset {id})
  rw [add_zero, add_comm] at hrel
  exact hrel.trans (change_write (released m c) id page {id}) fun p hp => .inl hp

theorem RemoveOk.of_branch {extra' id' : PageId} {cells' : List BranchCell}
    (hpage' : m'.pager.page? id' = some (.branch extra' cells')) (hok' : BranchOk cells')
    (ht : Tiling (Child m'.pager.page? h) lo hi (nodes lo extra' cells'))
    (hfound : (find k (entriesAt m.pager.page? (h + 1) id)).isSome)
    (hentries : entriesOf m'.pager.page? h (nodes lo extra' cells') =
      SortedMap.erase k (entriesAt m.pager.page? (h + 1) id))
    (hexcess : 6 ^ h * (Page.used BranchCell.len cells' - halfFull) +
      excessOf m'.pager.page? h (nodes lo extra' cells') ≤ excessAt m.pager.page? (h + 1) id)
    (hchange : Change m m' (inPlace m (pathAt m.pager.page? k (h + 1) id))
      (pagesAt m.pager.page? (h + 1) id) (pagesOf m'.pager.page? h (nodes lo extra' cells') + {id'})) :
    RemoveOk k (h + 1) lo hi id m m' ⟨id', true, false⟩ := by
  refine { found := hfound, empty := ?_, wf := fun _ => ⟨?_, ?_, ?_⟩, change := ?_ }
  · rw [← hentries]
    simpa using entriesOf_ne_nil ht (by simp [nodes])
  · exact (child_of_branch hpage' hok' ht).1
  · rw [entriesAt_branch lo hpage', hentries]
  · rwa [excessAt_branch lo hpage']
  · rw [add_comm (pagesOf _ _ _), Multiset.singleton_add, ← pagesAt_branch _ hpage'] at hchange
    simpa using hchange

/-- Putting back into a branch what a removal below a child has made of it. -/
theorem run_updateChild {extra c : PageId} {cells : List BranchCell} {l : Bytes} {mid : WithTop Bytes}
    {pre post : List (Bytes × PageId)} {out : Removal} {m₁ : Machine}
    (hrem : RemoveOk k h l mid c m m₁ out) (hpage : m.pager.page? id = some (.branch extra cells))
    (hok : BranchOk cells) (hn : nodes lo extra cells = pre ++ (l, c) :: post)
    (hchild : branchChildFor extra cells k = (pre.length, c)) (hl : l ≤ k) (hk : ↑k < mid)
    (hpre : Tiling (Child m.pager.page? h) lo ↑l pre)
    (hpost : Tiling (Child m.pager.page? h) mid hi post)
    (hown : Own m (pagesAt m.pager.page? (h + 1) id)) :
    ∃ out' m', m₁.run (updateChild id pre.length out) = (.ok out', m') ∧ out'.removed = true ∧
      RemoveOk k (h + 1) lo hi id m m' out' := by
  obtain ⟨hpage₁, hpre₁, hpost₁, hchange⟩ := hrem.change.below hpage hn hchild hown
  obtain ⟨id', m₂, hcow, hid', hcopy⟩ := run_cow hpage₁
  have hA := entriesOf_lt hpre hl
  have hC := lt_entriesOf hpost hk
  have hlmid : ↑l < mid := (WithTop.coe_le_coe.2 hl).trans_lt hk
  have hentries : entriesAt m.pager.page? (h + 1) id = entriesOf m.pager.page? h pre ++
      entriesAt m.pager.page? h c ++ entriesOf m.pager.page? h post := by
    rw [entriesAt_branch lo hpage, hn, entriesOf_append, entriesOf_cons, List.append_assoc]
  have hexcess : excessAt m.pager.page? (h + 1) id =
      6 ^ h * (Page.used BranchCell.len cells - halfFull) + (excessOf m.pager.page? h pre +
        (excessAt m.pager.page? h c + excessOf m.pager.page? h post)) := by
    rw [excessAt_branch lo hpage, hn, excessOf_append, excessOf_cons]
  have hfound : (find k (entriesAt m.pager.page? (h + 1) id)).isSome := by
    rw [hentries, find_append hA hC]
    exact hrem.found
  have herase : SortedMap.erase k (entriesAt m.pager.page? (h + 1) id) =
      entriesOf m.pager.page? h pre ++ SortedMap.erase k (entriesAt m.pager.page? h c) ++
        entriesOf m.pager.page? h post := by
    rw [hentries, erase_append hA hC]
  have hcopyOwn := hcopy.owned (hchange.owned hown).right.right
  cases hempty : out.empty with
  | false =>
    obtain ⟨hwf, hce, hcx⟩ := hrem.wf (.inl hempty)
    have hne : entriesAt m₁.pager.page? h out.page ≠ [] := by
      rw [hce]
      exact mt hrem.empty.2 (by simp [hempty])
    obtain ⟨extra', cells', hset, hn', hkeys⟩ := setBranchChild_nodes hn out.page
    rw [hempty, if_neg Bool.false_ne_true] at hchange
    obtain ⟨hchange₃, hstable⟩ := Change.rewrite (R := 0)
      (Q := pagesOf m.pager.page? h pre + pagesOf m.pager.page? h post +
        pagesAt m₁.pager.page? h out.page)
      (by rw [zero_add]; simpa [add_assoc] using hchange) hown hcopy hid'
      (change_write m₂ id' (.branch extra' cells') _)
    have hpage₃ := page?_write hcopyOwn (.branch extra' cells') id'
    rw [if_pos rfl] at hpage₃
    have hpre₃ := fun p hp => (hstable p (by simp [hp])).trans (hpre₁ p hp)
    have hpost₃ := fun p hp => (hstable p (by simp [hp])).trans (hpost₁ p hp)
    have hc₃ := fun p (hp : p ∈ pagesAt m₁.pager.page? h out.page) => hstable p (by simp [hp])
    refine ⟨⟨id', true, false⟩, m₂.written id' (.branch extra' cells'), ?_, rfl,
      RemoveOk.of_branch hpage₃ ?_ ?_ hfound ?_ ?_ ?_⟩
    · rw [updateChild, run_bind_ok hcow]
      simp only [hempty, hset]
      rfl
    · exact ⟨by rw [Page.fits, used_eq_of_keys hkeys]; exact hok.fits,
        lengths_of_keys hkeys hok.lengths⟩
    · rw [hn', Tiling.append_iff]
      exact ⟨_, tiling_congr hpre₃ hpre, Tiling.cons hlmid
        ⟨hwf.congr hc₃, by rwa [entriesAt_congr hc₃]⟩ (tiling_congr hpost₃ hpost)⟩
    · rw [hn', entriesOf_append, entriesOf_cons, entriesOf_congr hpre₃, entriesOf_congr hpost₃,
        entriesAt_congr hc₃, hce, herase, List.append_assoc]
    · rw [hn', excessOf_append, excessOf_cons, excessOf_congr hpre₃, excessOf_congr hpost₃,
        excessAt_congr hc₃, used_eq_of_keys hkeys, hexcess]
      omega
    · rw [hn', pagesOf_append, pagesOf_cons, pagesOf_congr hpre₃, pagesOf_congr hpost₃,
        pagesAt_congr hc₃]
      rw [zero_add] at hchange₃
      convert hchange₃ using 1
      ac_rfl
  | true =>
    have hnil : SortedMap.erase k (entriesAt m.pager.page? h c) = [] := hrem.empty.1 hempty
    rw [hempty, if_pos rfl] at hchange
    by_cases hlast : pre.length = 0 ∧ cells = []
    · -- The branch loses its only child.
      obtain ⟨hchange₃, -⟩ := hchange.rewrite hown hcopy hid'
        (change_release_write m₂ out.page id' (.branch extra cells))
      obtain ⟨rfl, rfl⟩ : pre = [] ∧ post = [] := by
        refine ⟨List.length_eq_zero_iff.1 hlast.1, ?_⟩
        have := congrArg List.length hn
        simp only [nodes, hlast.2, List.map_nil, List.length_append, hlast.1, List.length_cons,
          List.length_nil] at this
        exact List.length_eq_zero_iff.1 (by omega)
      refine ⟨⟨id', true, true⟩, (released m₂ out.page).written id' (.branch extra cells), ?_, rfl,
        { found := hfound, empty := ?_, wf := fun h => by simp at h, change := by simpa using hchange₃ }⟩
      · rw [updateChild, run_bind_ok hcow]
        simp only [hempty, if_true]
        rw [run_bind_ok (run_release _), if_pos (by simpa using hlast.2)]
        rfl
      · simp [herase, hnil]
    · obtain ⟨extra', cells', hdrop, hsub, htile, hsnd⟩ :=
        dropChild_tiling hn hpre hpost hlmid hlast
      obtain ⟨hchange₃, hstable⟩ := hchange.rewrite hown hcopy hid'
        (change_release_write m₂ out.page id' (.branch extra' cells'))
      have hpage₃ : ((released m₂ out.page).written id' (.branch extra' cells')).pager.page? id' =
          some (.branch extra' cells') := by
        have := page?_write hcopyOwn (.branch extra' cells') id'
        rwa [if_pos rfl] at this
      obtain ⟨hes, hps, hxs⟩ := of_map_snd_eq (σ := m.pager.page?) (h := h) hsnd
      have hns₃ : ∀ p ∈ pagesOf m.pager.page? h (nodes lo extra' cells'),
          ((released m₂ out.page).written id' (.branch extra' cells')).pager.page? p =
            m.pager.page? p := by
        intro p hp
        rw [hps, pagesOf_append] at hp
        rw [hstable p hp]
        exact (Multiset.mem_add.1 hp).elim (hpre₁ p) (hpost₁ p)
      refine ⟨⟨id', true, false⟩, (released m₂ out.page).written id' (.branch extra' cells'), ?_, rfl,
        RemoveOk.of_branch hpage₃ ?_ (tiling_congr hns₃ htile) hfound ?_ ?_ ?_⟩
      · rw [updateChild, run_bind_ok hcow]
        simp only [hempty, if_true]
        rw [run_bind_ok (run_release _), if_neg hlast]
        simp only [hdrop]
        rfl
      · exact ⟨(used_le_of_sublist hsub).trans hok.fits, fun d hd => hok.lengths d (hsub.subset hd)⟩
      · rw [entriesOf_congr hns₃, hes, entriesOf_append, herase, hnil, List.append_nil]
      · rw [excessOf_congr hns₃, hxs, excessOf_append, hexcess]
        have := Nat.mul_le_mul_left (6 ^ h)
          (Nat.sub_le_sub_right (used_le_of_sublist hsub) halfFull)
        omega
      · rwa [pagesOf_congr hns₃, hps, pagesOf_append]

/-- A removal below a page ends well, and changes nothing when the key is not there. -/
theorem run_removeFrom (hwf : Wf m.pager.page? h lo hi id) (hlo : lo ≤ k) (hhi : ↑k < hi)
    (hown : Own m (pagesAt m.pager.page? h id)) (hh : h < levels) :
    (m.run (removeFrom k levels id) = (.ok ⟨id, false, false⟩, m) ∧
      find k (entriesAt m.pager.page? h id) = none) ∨
    ∃ out m', m.run (removeFrom k levels id) = (.ok out, m') ∧ out.removed = true ∧
      RemoveOk k h lo hi id m m' out := by
  induction h generalizing levels lo hi id with
  | zero =>
    rcases levels with _ | levels
    · omega
    exact run_removeFrom_leaf hwf hown levels
  | succ h ih =>
    obtain ⟨extra, cells, hpage, hok, ht⟩ := hwf
    rcases levels with _ | levels
    · omega
    obtain ⟨pre, l, c, post, mid, hn, hchild, hl, hkmid, ⟨hc, -⟩, hpre, hpost⟩ :=
      route_nodes ht hlo hhi
    have hownc := hown.of_child hpage hn
    rcases ih hc hl hkmid hownc (show h < levels by omega) with
      ⟨hrun, hnone⟩ | ⟨out, m₁, hrun, hremoved, hrem⟩
    · left
      constructor
      · rw [removeFrom, run_bind_ok (run_readPage hpage)]
        simp only [hchild]
        rw [run_bind_ok hrun]
        rfl
      · rw [entriesAt_branch lo hpage, find_entriesOf hn hpre hpost hl hkmid, hnone]
    · right
      obtain ⟨out', m', hrun', hremoved', hrem'⟩ :=
        run_updateChild hrem hpage hok hn hchild hl hkmid hpre hpost hown
      refine ⟨out', m', ?_, hremoved', hrem'⟩
      rw [removeFrom, run_bind_ok (run_readPage hpage)]
      simp only [hchild]
      rw [run_bind_ok hrun, hremoved]
      exact hrun'

end BTree

end FacetQL
