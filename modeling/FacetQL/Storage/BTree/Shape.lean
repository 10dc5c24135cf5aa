import FacetQL.Lib.Tiling
import FacetQL.Storage.BTree

/-!
# The shape of a tree

What the pages below a root are when they form a tree: all leaves at the same
level, the keys of a leaf in order, and the separators of a branch cutting its
range into the ranges of its children. The level counts from the leaves up.

The edits of a branch page are edits of the tiling by its children.
-/

namespace FacetQL

namespace BTree

/-- The readable pages of a file. -/
abbrev Store := PageId → Option TreePage

/-- The children of a branch, in order. -/
def children (extra : PageId) (cells : List BranchCell) : List PageId :=
  extra :: cells.map BranchCell.child

/-- The children of a branch, each with the least key of its range. -/
def nodes (lo : Bytes) (extra : PageId) (cells : List BranchCell) : List (Bytes × PageId) :=
  (lo, extra) :: cells.map fun c => (c.key, c.child)

variable (σ : Store)

/-- The entries of the subtree of level `h` at a page, in order. -/
def entriesAt : (h : Nat) → PageId → List (Bytes × Bytes)
  | 0, id =>
    match σ id with
    | some (.leaf cells) => cells.map LeafCell.entry
    | _ => []
  | h + 1, id =>
    match σ id with
    | some (.branch extra cells) => (children extra cells).flatMap (entriesAt h)
    | _ => []

/-- The pages of the subtree of level `h` at a page. -/
def pagesAt : (h : Nat) → PageId → Multiset PageId
  | 0, id => {id}
  | h + 1, id =>
    match σ id with
    | some (.branch extra cells) =>
      id ::ₘ (children extra cells : Multiset PageId).bind (pagesAt h)
    | _ => {id}

/-- The pages a key is searched on. -/
def pathAt (key : Bytes) : (h : Nat) → PageId → List PageId
  | 0, id => [id]
  | h + 1, id =>
    match σ id with
    | some (.branch extra cells) => id :: pathAt key h (branchChildFor extra cells key).2
    | _ => [id]

/-- The bytes of separators a branch page is left with at most when it is cut. -/
def halfFull : Nat := 8683

/-- How far branch pages are filled beyond what a cut leaves, each level weighted six times. -/
def excessAt : (h : Nat) → PageId → Nat
  | 0, _ => 0
  | h + 1, id =>
    match σ id with
    | some (.branch extra cells) => 6 ^ h * (Page.used BranchCell.len cells - halfFull) +
        ((children extra cells).map (excessAt h)).sum
    | _ => 0

/-- The entries, the pages and the excess of several subtrees side by side. -/
def entriesOf (h : Nat) (ns : List (Bytes × PageId)) : List (Bytes × Bytes) :=
  ns.flatMap fun x => entriesAt σ h x.2

/-- The pages of several subtrees. -/
def pagesOf (h : Nat) (ns : List (Bytes × PageId)) : Multiset PageId :=
  (ns.map fun x => pagesAt σ h x.2).sum

/-- The excess of several subtrees. -/
def excessOf (h : Nat) (ns : List (Bytes × PageId)) : Nat :=
  (ns.map fun x => excessAt σ h x.2).sum

/-- The cells of a leaf, or of an overfull one, that covers `[lo, hi)`. -/
structure LeafCells (lo : Bytes) (hi : WithTop Bytes) (cells : List LeafCell) : Prop where
  sorted : SortedMap.Sorted (cells.map LeafCell.entry)
  range : ∀ c ∈ cells, lo ≤ c.key ∧ ↑c.key < hi
  lengths : ∀ c ∈ cells, c.key.length ≤ maxKeyLen ∧ c.value.length ≤ maxValueLen

/-- The cells of a leaf that covers `[lo, hi)`. -/
structure LeafOk (lo : Bytes) (hi : WithTop Bytes) (cells : List LeafCell) : Prop
    extends LeafCells lo hi cells where
  fits : Page.fits LeafCell.len cells

/-- The cells of a branch fit in a page and are separators of legal length. -/
structure BranchOk (cells : List BranchCell) : Prop where
  fits : Page.fits BranchCell.len cells
  lengths : ∀ c ∈ cells, c.key.length ≤ maxKeyLen

/-- The subtree at a page is well formed and covers `[lo, hi)`. Children of a branch have
    entries. -/
def Wf : (h : Nat) → Bytes → WithTop Bytes → PageId → Prop
  | 0, lo, hi, id => ∃ cells, σ id = some (.leaf cells) ∧ LeafOk lo hi cells
  | h + 1, lo, hi, id => ∃ extra cells, σ id = some (.branch extra cells) ∧ BranchOk cells ∧
      Tiling (fun l mid c => Wf h l mid c ∧ entriesAt σ h c ≠ []) lo hi (nodes lo extra cells)

/-- A child of a branch: a well-formed subtree with entries. -/
abbrev Child (h : Nat) (lo : Bytes) (hi : WithTop Bytes) (id : PageId) : Prop :=
  Wf σ h lo hi id ∧ entriesAt σ h id ≠ []

variable {σ} {σ' : Store} {h : Nat} {lo lo' : Bytes} {hi hi' : WithTop Bytes} {id extra : PageId}
  {cells : List BranchCell} {k : Bytes}

/-! ## Unfolding a subtree -/

theorem map_snd_nodes (lo : Bytes) : (nodes lo extra cells).map Prod.snd = children extra cells := by
  simp [nodes, children]

theorem entriesAt_leaf {lcells : List LeafCell} (hσ : σ id = some (.leaf lcells)) :
    entriesAt σ 0 id = lcells.map LeafCell.entry := by
  simp [entriesAt, hσ]

theorem entriesAt_branch (lo : Bytes) (hσ : σ id = some (.branch extra cells)) :
    entriesAt σ (h + 1) id = entriesOf σ h (nodes lo extra cells) := by
  simp [entriesAt, entriesOf, hσ, nodes, children, List.flatMap_map]

theorem pagesAt_branch (lo : Bytes) (hσ : σ id = some (.branch extra cells)) :
    pagesAt σ (h + 1) id = id ::ₘ pagesOf σ h (nodes lo extra cells) := by
  simp [pagesAt, pagesOf, hσ, nodes, children, Multiset.bind, Multiset.join, List.map_map,
    Function.comp_def]

theorem excessAt_branch (lo : Bytes) (hσ : σ id = some (.branch extra cells)) :
    excessAt σ (h + 1) id = 6 ^ h * (Page.used BranchCell.len cells - halfFull) +
      excessOf σ h (nodes lo extra cells) := by
  simp [excessAt, excessOf, hσ, nodes, children, List.map_map, Function.comp_def]

section Several

variable {x : Bytes × PageId} {ns ns' : List (Bytes × PageId)}

@[simp] theorem entriesOf_nil : entriesOf σ h [] = [] := rfl

@[simp] theorem entriesOf_cons :
    entriesOf σ h (x :: ns) = entriesAt σ h x.2 ++ entriesOf σ h ns := rfl

@[simp] theorem entriesOf_append :
    entriesOf σ h (ns ++ ns') = entriesOf σ h ns ++ entriesOf σ h ns' := List.flatMap_append

@[simp] theorem pagesOf_nil : pagesOf σ h [] = 0 := rfl

@[simp] theorem pagesOf_cons : pagesOf σ h (x :: ns) = pagesAt σ h x.2 + pagesOf σ h ns := by
  simp [pagesOf]

@[simp] theorem pagesOf_append : pagesOf σ h (ns ++ ns') = pagesOf σ h ns + pagesOf σ h ns' := by
  simp [pagesOf]

@[simp] theorem excessOf_nil : excessOf σ h [] = 0 := rfl

@[simp] theorem excessOf_cons : excessOf σ h (x :: ns) = excessAt σ h x.2 + excessOf σ h ns := by
  simp [excessOf]

@[simp] theorem excessOf_append :
    excessOf σ h (ns ++ ns') = excessOf σ h ns + excessOf σ h ns' := by
  simp [excessOf]

theorem mem_pagesOf {p : PageId} : p ∈ pagesOf σ h ns ↔ ∃ x ∈ ns, p ∈ pagesAt σ h x.2 := by
  induction ns with
  | nil => simp
  | cons x ns ih => simp [ih]

end Several

theorem self_mem_pagesAt : id ∈ pagesAt σ h id := by
  rcases h with _ | h
  · simp [pagesAt]
  · unfold pagesAt; split <;> simp

theorem pathAt_branch (hσ : σ id = some (.branch extra cells)) :
    pathAt σ k (h + 1) id = id :: pathAt σ k h (branchChildFor extra cells k).2 := by
  simp [pathAt, hσ]

theorem self_mem_pathAt : id ∈ pathAt σ k h id := by
  rcases h with _ | h
  · simp [pathAt]
  · unfold pathAt; split <;> simp

theorem branchChildAt_mem_children (slot : Nat) (hslot : slot ≤ cells.length) :
    branchChildAt extra cells slot ∈ children extra cells := by
  rcases slot with _ | n
  · simp [branchChildAt, children]
  simp only [branchChildAt, Nat.add_eq_zero_iff, one_ne_zero, and_false, if_false,
    Nat.add_sub_cancel, List.getElem?_eq_getElem hslot, Option.map_some, Option.getD_some]
  exact List.mem_cons_of_mem _ (List.mem_map_of_mem (List.getElem_mem hslot))

theorem branchSlotFor_le : branchSlotFor cells k ≤ cells.length :=
  (List.takeWhile_sublist _).length_le

theorem child_mem_children : (branchChildFor extra cells k).2 ∈ children extra cells :=
  branchChildAt_mem_children _ branchSlotFor_le

variable {c : PageId} {ns : List (Bytes × PageId)} {l : Bytes} {post : List (Bytes × PageId)}

theorem pagesAt_child_subset (hσ : σ id = some (.branch extra cells))
    (hc : c ∈ children extra cells) {p : PageId} (hp : p ∈ pagesAt σ h c) :
    p ∈ pagesAt σ (h + 1) id := by
  simp only [pagesAt, hσ]
  exact Multiset.mem_cons_of_mem (Multiset.mem_bind.2 ⟨c, by simpa using hc, hp⟩)

theorem pathAt_subset : ∀ (h : Nat) (id : PageId) {p : PageId}, p ∈ pathAt σ k h id →
    p ∈ pagesAt σ h id
  | 0, id, p, hp => by simpa [pathAt, pagesAt] using hp
  | h + 1, id, p, hp => by
    unfold pathAt at hp
    split at hp
    case h_1 extra cells hσ =>
      rcases List.mem_cons.1 hp with rfl | hp
      · exact self_mem_pagesAt
      · exact pagesAt_child_subset hσ child_mem_children (pathAt_subset h _ hp)
    case h_2 =>
      obtain rfl : p = id := by simpa using hp
      exact self_mem_pagesAt

/-! ## What can be reached -/

/-- The pages that a page leads to. -/
def links : TreePage → List PageId
  | .branch extra cells => children extra cells
  | _ => []

/-- From one page another one can be reached. -/
def Reaches (σ : Store) : PageId → PageId → Prop :=
  Relation.ReflTransGen fun p q => ∃ page, σ p = some page ∧ q ∈ links page

theorem reaches_of_mem_pagesAt {q : PageId} (hq : q ∈ pagesAt σ h id) : Reaches σ id q := by
  induction h generalizing id with
  | zero =>
    obtain rfl : q = id := by simpa [pagesAt] using hq
    exact .refl
  | succ h ih =>
    unfold pagesAt at hq
    split at hq
    case h_1 extra cells hpage =>
      rcases Multiset.mem_cons.1 hq with rfl | hq
      · exact .refl
      · obtain ⟨c, hc, hq⟩ := Multiset.mem_bind.1 hq
        exact .head ⟨_, hpage, by simpa [links] using hc⟩ (ih hq)
    case h_2 =>
      obtain rfl : q = id := by simpa using hq
      exact .refl

/-- A page of a tree is in the file, and leads to pages of the tree only. -/
theorem Wf.links {p : PageId} (hwf : Wf σ h lo hi id) (hp : p ∈ pagesAt σ h id) :
    ∃ page, σ p = some page ∧ ∀ q ∈ links page, q ∈ pagesAt σ h id := by
  induction h generalizing lo hi id with
  | zero =>
    obtain ⟨cells, hpage, -⟩ := hwf
    obtain rfl : p = id := by simpa [pagesAt] using hp
    exact ⟨_, hpage, fun q hq => by simp [BTree.links] at hq⟩
  | succ h ih =>
    obtain ⟨extra, cells, hpage, -, ht⟩ := hwf
    rw [pagesAt_branch lo hpage, Multiset.mem_cons] at hp
    rcases hp with rfl | hp
    · refine ⟨_, hpage, fun q hq => pagesAt_child_subset hpage hq self_mem_pagesAt⟩
    obtain ⟨⟨l, c⟩, hc, hp⟩ := mem_pagesOf.1 hp
    obtain ⟨mid, -, -, hwf, -⟩ := ht.exists_of_mem hc
    obtain ⟨page, hpage', hlinks⟩ := ih hwf hp
    have hchild : c ∈ children extra cells := by
      rw [← map_snd_nodes lo]
      exact List.mem_map_of_mem hc
    exact ⟨page, hpage', fun q hq => pagesAt_child_subset hpage hchild (hlinks q hq)⟩

/-- What can be reached from the root of a tree are the pages of the tree. -/
theorem Wf.reaches {q : PageId} (hwf : Wf σ h lo hi id) (hq : Reaches σ id q) :
    q ∈ pagesAt σ h id := by
  induction hq with
  | refl => exact self_mem_pagesAt
  | tail _ hlink ih =>
    obtain ⟨page, hpage, hmem⟩ := hlink
    obtain ⟨page', hpage', hlinks⟩ := hwf.links ih
    obtain rfl := Option.some.inj (hpage.symm.trans hpage')
    exact hlinks _ hmem

/-! ## A subtree depends on its own pages -/

section Congr

variable (hσ : ∀ p ∈ pagesAt σ h id, σ' p = σ p)

include hσ

theorem pagesAt_congr : pagesAt σ' h id = pagesAt σ h id := by
  induction h generalizing id with
  | zero => rfl
  | succ h ih =>
    have hid := hσ id self_mem_pagesAt
    unfold pagesAt
    rw [hid]
    split
    case h_1 extra cells hpage =>
      congr 1
      refine Multiset.bind_congr fun c hc => ih fun p hp => hσ p ?_
      exact pagesAt_child_subset hpage (by simpa using hc) hp
    case h_2 => rfl

theorem entriesAt_congr : entriesAt σ' h id = entriesAt σ h id := by
  induction h generalizing id with
  | zero => simp [entriesAt, hσ id self_mem_pagesAt]
  | succ h ih =>
    have hid := hσ id self_mem_pagesAt
    unfold entriesAt
    rw [hid]
    split
    case h_1 extra cells hpage =>
      refine List.flatMap_congr fun c hc => ih fun p hp => hσ p ?_
      exact pagesAt_child_subset hpage hc hp
    case h_2 => rfl

theorem excessAt_congr : excessAt σ' h id = excessAt σ h id := by
  induction h generalizing id with
  | zero => rfl
  | succ h ih =>
    have hid := hσ id self_mem_pagesAt
    unfold excessAt
    rw [hid]
    split
    case h_1 extra cells hpage =>
      congr 2
      refine List.map_congr_left fun c hc => ih fun p hp => hσ p ?_
      exact pagesAt_child_subset hpage hc hp
    case h_2 => rfl

theorem Wf.congr (hwf : Wf σ h lo hi id) : Wf σ' h lo hi id := by
  induction h generalizing id lo hi with
  | zero =>
    obtain ⟨cells, hpage, hok⟩ := hwf
    exact ⟨cells, by rw [hσ id self_mem_pagesAt, hpage], hok⟩
  | succ h ih =>
    obtain ⟨extra, cells, hpage, hok, ht⟩ := hwf
    refine ⟨extra, cells, by rw [hσ id self_mem_pagesAt, hpage], hok, ht.imp ?_⟩
    rintro l mid c hc ⟨hwf, hne⟩
    have hsub : ∀ p ∈ pagesAt σ h c, σ' p = σ p := fun p hp => by
      refine hσ p (pagesAt_child_subset hpage ?_ hp)
      rw [← map_snd_nodes lo]
      exact List.mem_map_of_mem hc
    exact ⟨ih hsub hwf, by rwa [entriesAt_congr hsub]⟩

end Congr

section CongrSeveral

variable {ns : List (Bytes × PageId)} (hσ : ∀ p ∈ pagesOf σ h ns, σ' p = σ p)

include hσ

theorem congr_of_mem {x : Bytes × PageId} (hx : x ∈ ns) : ∀ p ∈ pagesAt σ h x.2, σ' p = σ p :=
  fun p hp => hσ p (mem_pagesOf.2 ⟨x, hx, hp⟩)

theorem entriesOf_congr : entriesOf σ' h ns = entriesOf σ h ns :=
  List.flatMap_congr fun _ hx => entriesAt_congr (congr_of_mem hσ hx)

theorem pagesOf_congr : pagesOf σ' h ns = pagesOf σ h ns :=
  congrArg List.sum (List.map_congr_left fun _ hx => pagesAt_congr (congr_of_mem hσ hx))

theorem excessOf_congr : excessOf σ' h ns = excessOf σ h ns :=
  congrArg List.sum (List.map_congr_left fun _ hx => excessAt_congr (congr_of_mem hσ hx))

theorem tiling_congr {lo hi : WithTop Bytes} (ht : Tiling (Child σ h) lo hi ns) :
    Tiling (Child σ' h) lo hi ns := by
  refine ht.imp fun l mid c hc ⟨hwf, hne⟩ => ?_
  have hsub := congr_of_mem hσ hc
  exact ⟨hwf.congr hsub, by rwa [entriesAt_congr hsub]⟩

end CongrSeveral

theorem entriesOf_ne_nil {lo hi : WithTop Bytes} (ht : Tiling (Child σ h) lo hi ns) (hns : ns ≠ [])
    : entriesOf σ h ns ≠ [] := by
  obtain ⟨⟨l, c⟩, ns, rfl⟩ := List.exists_cons_of_ne_nil hns
  obtain ⟨mid, -, -, -, hne⟩ := ht.exists_of_mem (List.mem_cons_self (a := (l, c)))
  simp [hne]

/-! ## Ranges -/

theorem LeafOk.mono {lcells : List LeafCell} (hok : LeafOk lo hi lcells) (hlo : lo' ≤ lo)
    (hhi : hi ≤ hi') : LeafOk lo' hi' lcells :=
  { hok with range := fun c hc => ⟨hlo.trans (hok.range c hc).1, (hok.range c hc).2.trans_le hhi⟩ }

/-- A subtree that covers a range covers every wider one. -/
theorem Wf.mono (hwf : Wf σ h lo hi id) (hlo : lo' ≤ lo) (hhi : hi ≤ hi') : Wf σ h lo' hi' id := by
  induction h generalizing id lo hi lo' hi' with
  | zero =>
    obtain ⟨cells, hpage, hok⟩ := hwf
    exact ⟨cells, hpage, hok.mono hlo hhi⟩
  | succ h ih =>
    obtain ⟨extra, cells, hpage, hok, ht⟩ := hwf
    refine ⟨extra, cells, hpage, hok, ?_⟩
    exact (ht.extend (fun hm hc => ⟨ih hc.1 le_rfl hm, hc.2⟩) (by simp [nodes]) hhi).lower
      (fun hl hc => ⟨ih hc.1 hl le_rfl, hc.2⟩) hlo

/-- The entries of a subtree lie in its range. -/
theorem Wf.range (hwf : Wf σ h lo hi id) : ∀ e ∈ entriesAt σ h id, lo ≤ e.1 ∧ ↑e.1 < hi := by
  induction h generalizing id lo hi with
  | zero =>
    obtain ⟨cells, hpage, hok⟩ := hwf
    rw [entriesAt_leaf hpage]
    intro e he
    obtain ⟨c, hc, rfl⟩ := List.mem_map.1 he
    exact hok.range c hc
  | succ h ih =>
    obtain ⟨extra, cells, hpage, -, ht⟩ := hwf
    rw [entriesAt_branch lo hpage]
    intro e he
    have := ht.entries_range (fun l mid c hc => ih hc.1) e he
    exact ⟨WithTop.coe_le_coe.1 this.1, this.2⟩

/-- The entries of the subtrees before the piece of a key lie below the key. -/
theorem entriesOf_lt {a : WithTop Bytes} (ht : Tiling (Child σ h) a ↑l ns) (hl : l ≤ k) :
    ∀ e ∈ entriesOf σ h ns, e.1 < k := fun e he =>
  (WithTop.coe_lt_coe.1 (ht.entries_range (fun _ _ _ hc => hc.1.range) e he).2).trans_le hl

/-- The entries of the subtrees after the piece of a key lie above the key. -/
theorem lt_entriesOf {mid b : WithTop Bytes} (ht : Tiling (Child σ h) mid b ns) (hk : ↑k < mid) :
    ∀ e ∈ entriesOf σ h ns, k < e.1 :=
  fun e he => WithTop.coe_lt_coe.1
    (hk.trans_le (ht.entries_range (fun _ _ _ hc => hc.1.range) e he).1)

/-- The entries of a subtree are in order. -/
theorem Wf.sorted (hwf : Wf σ h lo hi id) : SortedMap.Sorted (entriesAt σ h id) := by
  induction h generalizing id lo hi with
  | zero =>
    obtain ⟨cells, hpage, hok⟩ := hwf
    rw [entriesAt_leaf hpage]
    exact hok.sorted
  | succ h ih =>
    obtain ⟨extra, cells, hpage, -, ht⟩ := hwf
    rw [entriesAt_branch lo hpage]
    exact ht.sorted (fun l mid c hc => hc.1.range) fun l mid c hc => ih hc.1

/-! ## The children of a branch and its cells -/

/-- A child of a branch is the first one, or that of a cell. -/
theorem nodes_split {pre : List (Bytes × PageId)}
    (hn : nodes lo extra cells = pre ++ (l, c) :: post) :
    (pre = [] ∧ l = lo ∧ c = extra ∧ post = cells.map fun c => (c.key, c.child)) ∨
    ∃ cpre cpost, cells = cpre ++ ⟨l, c⟩ :: cpost ∧
      pre = (lo, extra) :: cpre.map (fun c => (c.key, c.child)) ∧
      post = cpost.map fun c => (c.key, c.child) := by
  rcases pre with _ | ⟨x, pre⟩
  · simp only [nodes, List.nil_append, List.cons.injEq, Prod.mk.injEq] at hn
    exact .inl ⟨rfl, hn.1.1.symm, hn.1.2.symm, hn.2.symm⟩
  simp only [nodes, List.cons_append, List.cons.injEq] at hn
  obtain ⟨rfl, hn⟩ := hn
  obtain ⟨cpre, rest, rfl, rfl, hrest⟩ := List.map_eq_append_iff.1 hn
  obtain ⟨⟨l', c'⟩, cpost, rfl, hl, rfl⟩ := List.map_eq_cons_iff.1 hrest
  obtain ⟨rfl, rfl⟩ : l' = l ∧ c' = c := by simpa using hl
  exact .inr ⟨cpre, cpost, rfl, rfl, rfl⟩

section Edit

variable {pre post : List (Bytes × PageId)} {l : Bytes} {c : PageId}
  (hn : nodes lo extra cells = pre ++ (l, c) :: post)

include hn

theorem branchChildAt_nodes : branchChildAt extra cells pre.length = c := by
  rcases nodes_split hn with ⟨rfl, -, rfl, -⟩ | ⟨cpre, cpost, rfl, rfl, -⟩
  · rfl
  · simp [branchChildAt]

theorem setBranchChild_nodes (child : PageId) : ∃ extra' cells',
    setBranchChild extra cells pre.length child = (extra', cells') ∧
    nodes lo extra' cells' = pre ++ (l, child) :: post ∧
    cells'.map BranchCell.key = cells.map BranchCell.key := by
  rcases nodes_split hn with ⟨rfl, rfl, rfl, rfl⟩ | ⟨cpre, cpost, rfl, rfl, rfl⟩
  · exact ⟨child, cells, rfl, rfl, rfl⟩
  · refine ⟨extra, cpre ++ ⟨l, child⟩ :: cpost, ?_, by simp [nodes], by simp⟩
    simp [setBranchChild, Page.replaceCell, BranchCell.len]

theorem nodes_insert (sep : Bytes) (right : PageId) :
    nodes lo extra (cells.take pre.length ++ ⟨sep, right⟩ :: cells.drop pre.length) =
      pre ++ (l, c) :: (sep, right) :: post := by
  rcases nodes_split hn with ⟨rfl, rfl, rfl, rfl⟩ | ⟨cpre, cpost, rfl, rfl, rfl⟩
  · simp [nodes]
  · rw [List.append_cons cpre ⟨l, c⟩ cpost, List.take_left' (by simp), List.drop_left' (by simp)]
    simp [nodes]

end Edit

/-- Dropping the first child hands its range to the second one. -/
theorem dropChild_head (hn : nodes lo extra cells = (lo, extra) :: (l, c) :: post) : ∃ cells',
    dropChild extra cells 0 = (c, cells') ∧ nodes lo c cells' = (lo, c) :: post ∧
      cells'.Sublist cells := by
  rcases nodes_split (show _ = [(lo, extra)] ++ (l, c) :: post from hn) with ⟨h, -⟩ | ⟨cpre, cpost, rfl, hpre, rfl⟩
  · simp at h
  · obtain rfl : cpre = [] := by simpa using hpre
    exact ⟨cpost, by simp [dropChild, branchChildAt, Page.removeCell], by simp [nodes], by simp⟩

/-- Dropping another child removes its node. -/
theorem dropChild_tail {pre : List (Bytes × PageId)}
    (hn : nodes lo extra cells = pre ++ (l, c) :: post) (hpre : pre ≠ []) : ∃ cells',
    dropChild extra cells pre.length = (extra, cells') ∧ nodes lo extra cells' = pre ++ post ∧
      cells'.Sublist cells := by
  rcases nodes_split hn with ⟨rfl, -⟩ | ⟨cpre, cpost, rfl, rfl, rfl⟩
  · exact absurd rfl hpre
  · exact ⟨cpre ++ cpost, by simp [dropChild, Page.removeCell], by simp [nodes], by simp⟩

/-- The search for a key goes into the child whose piece holds it. -/
theorem route_nodes {P : Bytes → WithTop Bytes → PageId → Prop}
    (ht : Tiling P lo hi (nodes lo extra cells)) (hlo : lo ≤ k) (hhi : ↑k < hi) :
    ∃ pre l c post mid, nodes lo extra cells = pre ++ (l, c) :: post ∧
      branchChildFor extra cells k = (pre.length, c) ∧ l ≤ k ∧ ↑k < mid ∧ P l mid c ∧
      Tiling P lo ↑l pre ∧ Tiling P mid hi post := by
  obtain ⟨pre, l, c, post, mid, hn, hl, hk, hc, hpre, hpost⟩ :=
    ht.route (WithTop.coe_le_coe.2 hlo) hhi
  refine ⟨pre, l, c, post, mid, hn, ?_, hl, hk, hc, hpre, hpost⟩
  have hslot : branchSlotFor cells k = pre.length := by
    have htake := congrArg List.length (hn ▸ Tiling.takeWhile_le hpre hpost hl hk)
    rw [nodes, List.takeWhile_cons_of_pos (by simpa using hlo), List.takeWhile_map] at htake
    simpa [branchSlotFor, Function.comp_def] using htake
  rw [branchChildFor, hslot, branchChildAt_nodes hn]

end BTree

end FacetQL
