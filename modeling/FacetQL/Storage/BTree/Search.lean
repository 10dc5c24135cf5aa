import FacetQL.Storage.BTree.Shape

/-!
# Searching a tree

What the reading operations find in a well-formed tree, in terms of its entries
in order. They leave the tree as it is.
-/

namespace FacetQL

open LeafCell (entry)

namespace BTree

open Machine SortedMap

/-! ## Searching a leaf -/

/-- What the search in a leaf says about the slot it returns. -/
def Found (cells : List LeafCell) (k : Bytes) : Nat × Bool → Prop
  | (i, true) => ∃ c, cells[i]? = some c ∧ c.key = k
  | (i, false) => i ≤ cells.length ∧ ∀ j c, cells[j]? = some c →
      (j < i → c.key < k) ∧ (i ≤ j → k < c.key)

theorem leafSearchLoop_found {cells : List LeafCell} {k : Bytes}
    (hs : cells.Pairwise fun a b => a.key < b.key) :
    ∀ turns low high, high - low ≤ turns → low ≤ high → high ≤ cells.length →
      (∀ j c, cells[j]? = some c → (j < low → c.key < k) ∧ (high ≤ j → k < c.key)) →
      Found cells k (leafSearchLoop cells k turns low high) := by
  have hlt : ∀ {i j : Nat} {a b : LeafCell}, cells[i]? = some a → cells[j]? = some b → i < j → a.key < b.key := by
    intro i j a b ha hb hij
    obtain ⟨hi, rfl⟩ := List.getElem?_eq_some_iff.1 ha
    obtain ⟨hj, rfl⟩ := List.getElem?_eq_some_iff.1 hb
    exact List.pairwise_iff_getElem.1 hs i j hi hj hij
  intro turns
  induction turns with
  | zero =>
    intro low high hturns hle hlen hinv
    obtain rfl : low = high := by omega
    exact ⟨hlen, hinv⟩
  | succ turns ih =>
    intro low high hturns hle hlen hinv
    unfold leafSearchLoop
    split_ifs with hlow
    · obtain ⟨c, hc⟩ : ∃ c, cells[(low + high) / 2]? = some c :=
        ⟨_, List.getElem?_eq_getElem (by omega)⟩
      rw [hc]
      dsimp only
      split_ifs with hless hgreater
      -- The invariant moves to the half that is left.
      · refine ih _ _ (by omega) (by omega) hlen fun j d hd => ⟨fun hj => ?_, (hinv j d hd).2⟩
        rcases Nat.lt_succ_iff_lt_or_eq.1 hj with hj | rfl
        · exact (hlt hd hc hj).trans hless
        · rwa [Option.some.inj (hd.symm.trans hc)]
      · refine ih _ _ (by omega) (by omega) (by omega) fun j d hd => ⟨(hinv j d hd).1, fun hj => ?_⟩
        rcases Nat.eq_or_lt_of_le hj with rfl | hj
        · rwa [Option.some.inj (hd.symm.trans hc)]
        · exact hgreater.trans (hlt hc hd hj)
      · exact ⟨c, hc, le_antisymm (not_lt.1 hgreater) (not_lt.1 hless)⟩
    · obtain rfl : low = high := by omega
      exact ⟨hlen, hinv⟩

/-- The search cuts a leaf into the cells below the key, at it if it is there, and above. -/
theorem leafSearch_spec {cells : List LeafCell} (hs : Sorted (cells.map entry))
    (k : Bytes) : ∃ pre mid post, cells = pre ++ mid ++ post ∧
      (∀ c ∈ pre, c.key < k) ∧ (∀ c ∈ post, k < c.key) ∧
      ((mid = [] ∧ leafSearch cells k = (pre.length, false)) ∨
        ∃ c, mid = [c] ∧ c.key = k ∧ leafSearch cells k = (pre.length, true)) := by
  have hs' : cells.Pairwise fun a b => a.key < b.key :=
    (List.pairwise_map (f := entry)).1 hs
  have hfound := leafSearchLoop_found (k := k) hs' cells.length 0 cells.length (by omega) (by omega)
    le_rfl fun j c hc => ⟨fun h => by omega, fun h => by
      have := (List.getElem?_eq_some_iff.1 hc).1; omega⟩
  rw [← leafSearch] at hfound
  rcases hr : leafSearch cells k with ⟨i, found⟩
  rw [hr] at hfound
  cases found with
  | true =>
    obtain ⟨c, hc, rfl⟩ := hfound
    obtain ⟨hi, hget⟩ := List.getElem?_eq_some_iff.1 hc
    have hcells : cells = cells.take i ++ [c] ++ cells.drop (i + 1) := by
      rw [List.append_assoc, List.singleton_append, ← hget, ← List.drop_eq_getElem_cons hi,
        List.take_append_drop]
    have hp := hs'
    rw [hcells, List.append_assoc, List.pairwise_append] at hp
    refine ⟨_, _, _, hcells, fun d hd => hp.2.2 d hd c (by simp),
      fun d hd => List.rel_of_pairwise_cons hp.2.1 hd, .inr ⟨c, rfl, rfl, ?_⟩⟩
    rw [List.length_take, min_eq_left hi.le]
  | false =>
    obtain ⟨hi, hsplit⟩ := hfound
    refine ⟨cells.take i, [], cells.drop i, by simp, fun c hc => ?_, fun c hc => ?_,
      .inl ⟨rfl, by rw [List.length_take, min_eq_left hi]⟩⟩
    · obtain ⟨j, hj, rfl⟩ := List.mem_take_iff_getElem.1 hc
      exact (hsplit j _ (List.getElem?_eq_getElem (by omega))).1 (by omega)
    · obtain ⟨j, hj, rfl⟩ := List.mem_drop_iff_getElem.1 hc
      exact (hsplit (i + j) _ (List.getElem?_eq_getElem (by omega))).2 (by omega)

section Cut

variable {k : Bytes} {pre mid post : List LeafCell} (hpre : ∀ c ∈ pre, c.key < k)
  (hmid : ∀ c ∈ mid, c.key = k) (hpost : ∀ c ∈ post, k < c.key)

include hpre hmid hpost

theorem below_cells :
    below k ((pre ++ mid ++ post).map entry) = pre.map entry := by
  simp only [List.map_append, below_append]
  rw [below_eq_self (by simpa [entry] using hpre), below_eq_nil (l := mid.map _),
    below_eq_nil (l := post.map _)]
  · simp
  · simpa [entry] using fun c hc => (hpost c hc).le
  · simpa [entry] using fun c hc => (hmid c hc).ge

theorem above_cells :
    above k ((pre ++ mid ++ post).map entry) = post.map entry := by
  simp only [List.map_append, above_append]
  rw [above_eq_self (l := post.map _) (by simpa [entry] using hpost),
    above_eq_nil (l := mid.map _), above_eq_nil (l := pre.map _)]
  · simp
  · simpa [entry] using fun c hc => (hpre c hc).le
  · simpa [entry] using fun c hc => (hmid c hc).le

theorem insert_cells (v : Bytes) :
    SortedMap.insert k v ((pre ++ mid ++ post).map entry) =
      (pre ++ (⟨k, v⟩ : LeafCell) :: post).map entry := by
  rw [SortedMap.insert, below_cells hpre hmid hpost, above_cells hpre hmid hpost]
  simp [entry]

theorem erase_cells :
    SortedMap.erase k ((pre ++ mid ++ post).map entry) =
      (pre ++ post).map entry := by
  rw [SortedMap.erase, below_cells hpre hmid hpost, above_cells hpre hmid hpost, List.map_append]

end Cut

section Run

variable {m : Machine} {h levels : Nat} {lo : Bytes} {hi : WithTop Bytes} {id : PageId} {k : Bytes}

/-! ## Getting -/

/-- The value below a branch is that below the child that the key belongs to. -/
theorem find_entriesOf {σ : Store} {L pre post : List (Bytes × PageId)} {l : Bytes} {c : PageId}
    {mid : WithTop Bytes} (hL : L = pre ++ (l, c) :: post) (hpre : Tiling (Child σ h) lo ↑l pre)
    (hpost : Tiling (Child σ h) mid hi post) (hl : l ≤ k) (hk : ↑k < mid) :
    find k (entriesOf σ h L) = find k (entriesAt σ h c) := by
  rw [hL, entriesOf_append, entriesOf_cons, ← List.append_assoc,
    find_append (entriesOf_lt hpre hl) (lt_entriesOf hpost hk)]

/-- The way down from a page of level `h` to the leaf of a key, within enough levels. -/
inductive Descent (σ : Store) (k : Bytes) : (levels h : Nat) → PageId → Prop
  | leaf {levels : Nat} {lo : Bytes} {hi : WithTop Bytes} {id : PageId} {cells : List LeafCell}
      (hpage : σ id = some (.leaf cells)) (hok : LeafOk lo hi cells) :
      Descent σ k (levels + 1) 0 id
  | branch {levels h slot : Nat} {id extra c : PageId} {cells : List BranchCell}
      (hpage : σ id = some (.branch extra cells))
      (hchild : branchChildFor extra cells k = (slot, c))
      (hfind : find k (entriesAt σ (h + 1) id) = find k (entriesAt σ h c))
      (hc : Descent σ k levels h c) : Descent σ k (levels + 1) (h + 1) id

theorem Wf.descent {σ : Store} (hwf : Wf σ h lo hi id) (hlo : lo ≤ k) (hhi : ↑k < hi)
    (hh : h < levels) : Descent σ k levels h id := by
  induction h generalizing levels lo hi id with
  | zero =>
    obtain ⟨cells, hpage, hok⟩ := hwf
    rcases levels with _ | levels
    · omega
    exact .leaf hpage hok
  | succ h ih =>
    obtain ⟨extra, cells, hpage, -, ht⟩ := hwf
    rcases levels with _ | levels
    · omega
    obtain ⟨pre, l, c, post, mid, hn, hchild, hl, hk, ⟨hc, -⟩, hpre, hpost⟩ := route_nodes ht hlo hhi
    refine .branch hpage hchild ?_ (ih hc hl hk (Nat.lt_of_succ_lt_succ hh))
    rw [entriesAt_branch lo hpage, find_entriesOf hn hpre hpost hl hk]

/-- In a whole tree there is a way down for every key. -/
theorem Wf.descends {σ : Store} (hwf : Wf σ h [] ⊤ id) (hh : h < levels) (k : Bytes) :
    Descent σ k levels h id :=
  hwf.descent (Bytes.nil_le k) (WithTop.coe_lt_top k) hh

/-- The descent ends at a leaf where the key has the value that it has in the subtree. -/
theorem run_descend (hd : Descent m.pager.page? k levels h id) :
    ∃ leaf cells lo' hi', m.run (descend levels id k) = (.ok leaf, m) ∧
      m.pager.page? leaf = some (.leaf cells) ∧ LeafOk lo' hi' cells ∧
      find k (entriesAt m.pager.page? h id) = find k (cells.map entry) := by
  induction hd with
  | leaf hpage hok =>
    refine ⟨_, _, _, _, ?_, hpage, hok, by rw [entriesAt_leaf hpage]⟩
    rw [descend, run_bind_ok (run_readPage hpage)]
    rfl
  | branch hpage hchild hfind _ ih =>
    obtain ⟨leaf, cells, lo', hi', hrun, hleaf, hok, hvalue⟩ := ih
    refine ⟨leaf, cells, lo', hi', ?_, hleaf, hok, hfind.trans hvalue⟩
    rw [descend, run_bind_ok (run_readPage hpage)]
    simpa [hchild] using hrun

theorem find_of_gap {pre post : List LeafCell} (hpre : ∀ c ∈ pre, c.key < k)
    (hpost : ∀ c ∈ post, k < c.key) : find k ((pre ++ [] ++ post).map entry) = none := by
  rw [find_eq_none]
  simp only [List.append_nil, List.map_append, List.mem_append, List.mem_map]
  rintro e (⟨c, hc, rfl⟩ | ⟨c, hc, rfl⟩)
  · exact (hpre c hc).ne
  · exact (hpost c hc).ne'

/-- The value under a key. -/
theorem run_getAt (hd : Descent m.pager.page? k maxTreeDepth h id) :
    m.run (getAt id k) = (.ok (find k (entriesAt m.pager.page? h id)), m) := by
  obtain ⟨leaf, cells, lo', hi', hrun, hleaf, hok, hfind⟩ := run_descend hd
  rw [getAt, run_bind_ok hrun, run_bind_ok (run_readPage hleaf), hfind]
  obtain ⟨pre, mid, post, rfl, hpre, hpost, ⟨rfl, hs⟩ | ⟨c, rfl, rfl, hs⟩⟩ :=
    leafSearch_spec hok.sorted k
  · simp only [leafCells, hs, find_of_gap hpre hpost]
    rfl
  · have hsome : find c.key ((pre ++ [c] ++ post).map entry) = some c.value :=
      hok.sorted.find_eq_some.2 (by simp [entry])
    simp only [leafCells, hs, hsome]
    simp

/-! ## The edges of a subtree -/

/-- The first child that yields an entry gives the first entry of all of them. -/
theorem run_firstEntry {entry : PageId → TreeProgram (Option (Bytes × Bytes))}
    {E : PageId → List (Bytes × Bytes)} {edge : List (Bytes × Bytes) → Option (Bytes × Bytes)}
    {cs : List PageId} (hrun : ∀ c ∈ cs, m.run (entry c) = (.ok (edge (E c)), m)) :
    m.run (firstEntry entry cs) = (.ok ((cs.map fun c => edge (E c)).findSome? fun e => e), m) := by
  induction cs with
  | nil => rfl
  | cons c cs ih =>
    have hcs := ih fun c hc => hrun c (by simp [hc])
    rw [firstEntry, run_bind_ok (hrun c (by simp)), List.map_cons, List.findSome?_cons]
    rcases edge (E c) with _ | e
    · exact hcs
    · rfl

theorem head?_flatMap_eq_findSome? {α β : Type*} (f : α → List β) (l : List α) :
    (l.flatMap f).head? = (l.map fun a => (f a).head?).findSome? fun e => e := by
  induction l with
  | nil => rfl
  | cons a l ih =>
    rw [List.flatMap_cons, List.head?_append, List.map_cons, List.findSome?_cons, ih]
    cases (f a).head? <;> rfl

theorem getLast?_flatMap_eq_findSome? {α β : Type*} (f : α → List β) (l : List α) :
    (l.flatMap f).getLast? = (l.reverse.map fun a => (f a).getLast?).findSome? fun e => e := by
  induction l with
  | nil => rfl
  | cons a l ih =>
    rw [List.flatMap_cons, List.getLast?_append, List.reverse_cons, List.map_append,
      List.findSome?_append, ih]
    cases hlast : (f a).getLast? <;> simp [hlast]

/-- The entry at an end of a list. -/
def edgeOf (first : Bool) (l : List (Bytes × Bytes)) : Option (Bytes × Bytes) :=
  if first then l.head? else l.getLast?

/-- The first and the last entry of a subtree. -/
theorem run_edgeEntry (first : Bool) (hwf : Wf m.pager.page? h lo hi id) (hh : h < levels) :
    m.run (edgeEntry first levels id) = (.ok (edgeOf first (entriesAt m.pager.page? h id)), m) := by
  induction h generalizing levels lo hi id with
  | zero =>
    obtain ⟨cells, hpage, hok⟩ := hwf
    rcases levels with _ | levels
    · omega
    rw [edgeEntry, run_bind_ok (run_readPage hpage), entriesAt_leaf hpage]
    cases first <;> simp [edgeOf]
  | succ h ih =>
    obtain ⟨extra, cells, hpage, -, ht⟩ := hwf
    rcases levels with _ | levels
    · omega
    have hchildren : ∀ c ∈ children extra cells, m.run (edgeEntry first levels c) =
        (.ok (edgeOf first (entriesAt m.pager.page? h c)), m) := by
      intro c hc
      rw [← map_snd_nodes lo] at hc
      obtain ⟨⟨l, c⟩, hx, rfl⟩ := List.mem_map.1 hc
      obtain ⟨mid, -, -, hwf, -⟩ := ht.exists_of_mem hx
      exact ih hwf (by omega)
    rw [edgeEntry, run_bind_ok (run_readPage hpage)]
    dsimp only
    simp only [entriesAt, hpage]
    cases first with
    | true =>
      rw [if_pos rfl, ← children, run_firstEntry hchildren, edgeOf, if_pos rfl,
        head?_flatMap_eq_findSome?]
      simp [edgeOf]
    | false =>
      rw [if_neg (by simp), ← children, run_firstEntry
        (fun c hc => hchildren c (List.mem_reverse.1 hc)), edgeOf, if_neg (by simp),
        getLast?_flatMap_eq_findSome?]
      simp [edgeOf]

/-! ## Seeking -/

/-- The entry of a sorted list nearest to a key, on the side the mode says. -/
def nearest (mode : SeekMode) (k : Bytes) (l : List (Bytes × Bytes)) : Option (Bytes × Bytes) :=
  match mode with
  | .ge => (atLeast k l).head?
  | .gt => (above k l).head?
  | .le => (atMost k l).getLast?
  | .lt => (below k l).getLast?

/-- The entries left and right of a path, given from its lowest branch, above level `h`, up. -/
inductive Beside (σ : Store) :
    Nat → List (PageId × Nat) → List (Bytes × Bytes) → List (Bytes × Bytes) → Prop
  | nil (h : Nat) : Beside σ h [] [] []
  | cons {h : Nat} {path : List (PageId × Nat)} {A C : List (Bytes × Bytes)} {branch : PageId}
      {extra : PageId} {cells : List BranchCell} {lo : Bytes} {hi : WithTop Bytes}
      {pre post : List (Bytes × PageId)} {l : Bytes} {c : PageId}
      (hpage : σ branch = some (.branch extra cells))
      (hn : nodes lo extra cells = pre ++ (l, c) :: post)
      (ht : Tiling (Child σ h) lo hi (nodes lo extra cells)) (hh : h < maxTreeDepth)
      (hpath : Beside σ (h + 1) path A C) :
      Beside σ h ((branch, pre.length) :: path)
        (A ++ entriesOf σ h pre) (entriesOf σ h post ++ C)

theorem run_seekUp (forward : Bool) {path : List (PageId × Nat)} {A C : List (Bytes × Bytes)}
    (hb : Beside m.pager.page? h path A C) :
    m.run (seekUp forward path) = (.ok (if forward then C.head? else A.getLast?), m) := by
  induction hb with
  | nil h => cases forward <;> rfl
  | @cons h path A C branch extra cells lo hi pre post l c hpage hn ht hh _ ih =>
    have hlen : cells.length = pre.length + post.length := by
      have := congrArg List.length hn
      simp only [nodes, List.length_cons, List.length_map, List.length_append] at this
      omega
    -- The neighbouring child has entries, so that its edge is the answer.
    have hedge : ∀ l' c', (l', c') ∈ nodes lo extra cells →
        m.run (edgeEntry forward maxTreeDepth c') =
          (.ok (edgeOf forward (entriesAt m.pager.page? h c')), m) ∧
        entriesAt m.pager.page? h c' ≠ [] := by
      intro l' c' hx
      obtain ⟨mid, -, -, hwf, hne⟩ := ht.exists_of_mem hx
      exact ⟨run_edgeEntry forward hwf hh, hne⟩
    rw [seekUp, run_bind_ok (run_readPage hpage)]
    cases forward with
    | true =>
      simp only [if_true]
      rcases post with _ | ⟨x, post⟩
      · rw [if_neg (by simp [hlen])]
        simpa using ih
      obtain ⟨l', c'⟩ := x
      have hc' : branchChildAt extra cells (pre.length + 1) = c' := by
        simpa using branchChildAt_nodes (show _ = (pre ++ [(l, c)]) ++ (l', c') :: post by simpa using hn)
      obtain ⟨hrun, hne⟩ := hedge l' c' (by simp [hn])
      rw [if_pos (by simp [hlen]), hc', run_bind_ok hrun]
      obtain ⟨e, es, he⟩ := List.exists_cons_of_ne_nil hne
      simp [edgeOf, he]
    | false =>
      simp only [Bool.false_eq_true, if_false]
      rcases List.eq_nil_or_concat pre with rfl | ⟨pre', ⟨l', c'⟩, rfl⟩
      · rw [if_neg (by simp)]
        simpa using ih
      rw [List.concat_eq_append] at hn ⊢
      have hc' : branchChildAt extra cells ((pre' ++ [(l', c')]).length - 1) = c' := by
        simpa using branchChildAt_nodes (show _ = pre' ++ (l', c') :: (l, c) :: post by simpa using hn)
      obtain ⟨hrun, hne⟩ := hedge l' c' (by simp [hn])
      rw [if_pos (by simp), hc', run_bind_ok hrun]
      obtain ⟨es, e, he⟩ := List.eq_nil_or_concat _ |>.resolve_left hne
      simp [edgeOf, he, List.getLast?_append]

/-- The descent of a seek ends at the leaf of the key, with all other entries beside its path. -/
theorem run_seekLeaf (hwf : Wf m.pager.page? h lo hi id) (hlo : lo ≤ k) (hhi : ↑k < hi)
    (hh : h < levels) (hdepth : h < maxTreeDepth) {path : List (PageId × Nat)}
    {A C : List (Bytes × Bytes)} (hb : Beside m.pager.page? h path A C)
    (hA : ∀ e ∈ A, e.1 < k) (hC : ∀ e ∈ C, k < e.1) :
    ∃ cells path' A' C' lo' hi', m.run (seekLeaf levels id k path) = (.ok (cells, path'), m) ∧
      Beside m.pager.page? 0 path' A' C' ∧ LeafOk lo' hi' cells ∧
      A ++ entriesAt m.pager.page? h id ++ C = A' ++ cells.map entry ++ C' ∧
      (∀ e ∈ A', e.1 < k) ∧ ∀ e ∈ C', k < e.1 := by
  induction h generalizing levels lo hi id path A C with
  | zero =>
    obtain ⟨cells, hpage, hok⟩ := hwf
    rcases levels with _ | levels
    · omega
    refine ⟨cells, path, A, C, lo, hi, ?_, hb, hok, by rw [entriesAt_leaf hpage], hA, hC⟩
    rw [seekLeaf, run_bind_ok (run_readPage hpage)]
    rfl
  | succ h ih =>
    obtain ⟨extra, cells, hpage, -, ht⟩ := hwf
    rcases levels with _ | levels
    · omega
    obtain ⟨pre, l, c, post, mid, hn, hchild, hl, hk, ⟨hc, -⟩, hpre, hpost⟩ := route_nodes ht hlo hhi
    have hbelow : ∀ e ∈ A ++ entriesOf m.pager.page? h pre, e.1 < k := fun e he =>
      (List.mem_append.1 he).elim (hA e) (entriesOf_lt hpre hl e)
    have habove : ∀ e ∈ entriesOf m.pager.page? h post ++ C, k < e.1 := fun e he =>
      (List.mem_append.1 he).elim (lt_entriesOf hpost hk e) (hC e)
    obtain ⟨lcells, path', A', C', lo', hi', hrun, hb', hok, hsplit, hA', hC'⟩ :=
      ih hc hl hk (show h < levels by omega) (by omega)
        (Beside.cons hpage hn ht (by omega) hb) hbelow habove
    refine ⟨lcells, path', A', C', lo', hi', ?_, hb', hok, ?_, hA', hC'⟩
    · rw [seekLeaf, run_bind_ok (run_readPage hpage)]
      simpa [hchild] using hrun
    · rw [← hsplit, entriesAt_branch lo hpage, hn]
      simp

/-- The cell a seek takes from its own leaf. -/
theorem seekCandidate_spec {pre mid post : List LeafCell}
    (hs : (mid = [] ∧ leafSearch (pre ++ mid ++ post) k = (pre.length, false)) ∨
      ∃ c, mid = [c] ∧ c.key = k ∧ leafSearch (pre ++ mid ++ post) k = (pre.length, true))
    (mode : SeekMode) :
    (seekCandidate (pre ++ mid ++ post) k mode).bind ((pre ++ mid ++ post)[·]?) =
      match mode with
      | .ge => (mid ++ post).head?
      | .gt => post.head?
      | .le => (pre ++ mid).getLast?
      | .lt => pre.getLast? := by
  have hlast : ∀ rest : List LeafCell, (if 0 < pre.length then some (pre.length - 1) else none).bind
      ((pre ++ rest)[·]?) = pre.getLast? := by
    intro rest
    rcases List.eq_nil_or_concat pre with rfl | ⟨pre', x, rfl⟩ <;> simp
  have hfirst : ∀ before : List LeafCell, (if before.length < (before ++ post).length
      then some before.length else none).bind ((before ++ post)[·]?) = post.head? := by
    intro before
    cases post <;> simp
  rcases hs with ⟨rfl, hs⟩ | ⟨c, rfl, -, hs⟩
  · have hf := hfirst pre
    have hl := hlast post
    cases mode <;> simp_all [seekCandidate]
  · have hf := hfirst (pre ++ [c])
    have hl := hlast ([c] ++ post)
    cases mode <;> simp_all [seekCandidate]

/-- The nearest entry is in the leaf of the descent, or in the nearest subtree beside it. -/
theorem run_seekAt (hwf : Wf m.pager.page? h lo hi id) (hlo : lo ≤ k) (hhi : ↑k < hi)
    (hh : h < maxTreeDepth) (mode : SeekMode) :
    m.run (seekAt id k mode) = (.ok (nearest mode k (entriesAt m.pager.page? h id)), m) := by
  obtain ⟨cells, path, A, C, lo', hi', hrun, hb, hok, hsplit, hA, hC⟩ :=
    run_seekLeaf hwf hlo hhi hh hh (Beside.nil h) (by simp) (by simp)
  obtain ⟨pre, mid, post, rfl, hpre, hpost, hs⟩ := leafSearch_spec hok.sorted k
  have hmid : ∀ c ∈ mid, c.key = k := by
    rcases hs with ⟨rfl, -⟩ | ⟨c, rfl, hc, -⟩
    · simp
    · simpa using hc
  have hpre' : ∀ e ∈ pre.map entry, e.1 < k := by
    simpa [entry] using hpre
  have hmid' : ∀ e ∈ mid.map entry, e.1 = k := by
    simpa [entry] using hmid
  have hpost' : ∀ e ∈ post.map entry, k < e.1 := by
    simpa [entry] using hpost
  -- The entries fall into those below the key, at it and above it.
  rw [List.nil_append, List.append_nil] at hsplit
  have hnear : nearest mode k (entriesAt m.pager.page? h id) =
      match mode with
      | .ge => ((mid ++ post).map entry ++ C).head?
      | .gt => (post.map entry ++ C).head?
      | .le => (A ++ (pre ++ mid).map entry).getLast?
      | .lt => (A ++ pre.map entry).getLast? := by
    rw [hsplit]
    cases mode with
    | ge =>
      simp [nearest, atLeast_append, atLeast_eq_nil hA, atLeast_eq_nil hpre',
        atLeast_eq_self fun e he => (hmid' e he).ge, atLeast_eq_self fun e he => (hpost' e he).le,
        atLeast_eq_self fun e he => (hC e he).le]
    | gt =>
      simp [nearest, above_append, above_eq_nil fun e he => (hA e he).le,
        above_eq_nil fun e he => (hpre' e he).le, above_eq_nil fun e he => (hmid' e he).le,
        above_eq_self hpost', above_eq_self hC]
    | le =>
      simp [nearest, atMost_append, atMost_eq_nil hC, atMost_eq_nil hpost',
        atMost_eq_self fun e he => (hmid' e he).le, atMost_eq_self fun e he => (hpre' e he).le,
        atMost_eq_self fun e he => (hA e he).le]
    | lt =>
      simp [nearest, below_append, below_eq_nil fun e he => (hC e he).le,
        below_eq_nil fun e he => (hpost' e he).le, below_eq_nil fun e he => (hmid' e he).ge,
        below_eq_self hpre', below_eq_self hA]
  have hup := run_seekUp mode.forward hb
  have hcand := seekCandidate_spec hs mode
  have hahead : ∀ cs : List LeafCell,
      (cs.map entry ++ C).head? = (cs.head?.map entry).or C.head? := by
    simp [List.head?_append]
  have hbehind : ∀ cs : List LeafCell,
      (A ++ cs.map entry).getLast? = (cs.getLast?.map entry).or A.getLast? := by
    simp [List.getLast?_append]
  rw [seekAt, run_bind_ok hrun, hnear]
  dsimp only
  rw [hcand]
  cases mode with
  | ge =>
    dsimp only
    rw [hahead]
    rcases (mid ++ post).head? with _ | c
    · exact hup
    · rfl
  | gt =>
    dsimp only
    rw [hahead]
    rcases post.head? with _ | c
    · exact hup
    · rfl
  | le =>
    dsimp only
    rw [hbehind]
    rcases (pre ++ mid).getLast? with _ | c
    · exact hup
    · rfl
  | lt =>
    dsimp only
    rw [hbehind]
    rcases pre.getLast? with _ | c
    · exact hup
    · rfl

end Run

end BTree

end FacetQL
