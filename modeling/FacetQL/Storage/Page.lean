import Mathlib

/-!
# Pages

The unit every durable structure is built out of (`storage/page.rs`). A page
is a byte layout. What the trees use of it is the list of its cells in slot
order, and how many bytes are left: an insert succeeds exactly when the
cell and its slot fit in the free bytes, holes included, since `insert_cell`
compacts before it gives up. Here a page is that list of cells, over any type
of cells with a length in bytes.
-/

namespace FacetQL

/-- A byte of a page or of a key. -/
abbrev Byte := Fin 256

instance neZero_byte : NeZero 256 := ⟨by decide⟩

/-- A byte string, compared lexicographically: a key, a value, or UTF-8 text. -/
abbrev Bytes := List Byte

-- The order of byte strings is the one of the linear order, under either name.
instance (priority := 2000) : LE Bytes := Preorder.toLE

instance (priority := 2000) : LT Bytes := Preorder.toLT

theorem Bytes.nil_le (k : Bytes) : [] ≤ k := by
  rcases k with _ | ⟨b, k⟩
  · exact le_rfl
  · exact le_of_lt (List.nil_lt_cons b k)

theorem Bytes.cons_lt_cons {a b : Byte} {x y : Bytes} :
    (a :: x : Bytes) < b :: y ↔ a < b ∨ a = b ∧ x < y := List.cons_lt_cons_iff

theorem Bytes.cons_le_cons {a b : Byte} {x y : Bytes} :
    (a :: x : Bytes) ≤ b :: y ↔ a < b ∨ a = b ∧ x ≤ y := by
  rw [← not_lt, Bytes.cons_lt_cons, ← not_lt (a := y)]
  rcases lt_trichotomy a b with h | h | h
  · simp [h, h.not_gt, h.ne']
  · simp [h]
  · simp [h, h.not_gt, h.ne']

/-- The kinds of I/O errors the storage layer raises. -/
inductive ErrorKind
  | invalidInput
  | invalidData
  | unexpectedEof
  | notFound
  | other
  deriving DecidableEq, Repr

/-- An I/O error: its kind and its message. -/
structure IoError where
  kind : ErrorKind
  message : String
  deriving DecidableEq, Repr

/-- The physical page size. -/
def pageSize : Nat := 16 * 1024

/-- What the encryption envelope of a page costs: the nonce and the tag. -/
def pageEnvelopeLen : Nat := 12 + 16

/-- The bytes of a page a caller may use. -/
def pageBodyLen : Nat := pageSize - pageEnvelopeLen

/-- The fixed header in front of the slot directory. -/
def pageHeaderLen : Nat := 24

/-- One slot directory entry. -/
def slotLen : Nat := 4

/-- The largest single cell a page can hold. -/
def maxCellLen : Nat := pageBodyLen - pageHeaderLen - slotLen

namespace Page

variable {α : Type*} (len : α → Nat)

/-- The bytes the cells and their slots take. -/
def used (cells : List α) : Nat := (cells.map fun c => len c + slotLen).sum

/-- The free bytes of a page, holes included. -/
def reclaimableSpace (cells : List α) : Nat := pageBodyLen - pageHeaderLen - used len cells

/-- Insert a cell at slot `index`; `none` when the page is full. -/
def insertCell (cells : List α) (index : Nat) (data : α) : Option (List α) :=
  if cells.length < index ∨ maxCellLen < len data then none
  else if reclaimableSpace len cells < len data + slotLen then none
  else some (cells.take index ++ data :: cells.drop index)

/-- Append a cell after the last one. -/
def pushCell (cells : List α) (data : α) : Option (List α) :=
  insertCell len cells cells.length data

/-- Remove the cell at slot `index`, shifting the later ones down. -/
def removeCell (cells : List α) (index : Nat) : List α :=
  cells.take index ++ cells.drop (index + 1)

/-- Replace a cell, in place or by reinserting it; one that does not fit is left removed. -/
def replaceCell (cells : List α) (index : Nat) (data : α) : Bool × List α :=
  match cells[index]? with
  | none => (false, cells)
  | some old =>
    if len old = len data then (true, cells.set index data)
    else match insertCell len (removeCell cells index) index data with
      | some cells' => (true, cells')
      | none => (false, removeCell cells index)

/-- Whether the cells fit in one page. -/
def fits (cells : List α) : Prop := used len cells ≤ maxCellLen + slotLen

instance (cells : List α) : Decidable (fits len cells) :=
  inferInstanceAs (Decidable (_ ≤ _))

/-- The first cell, but not the very first, at which half of `total` is reached. -/
def midpoint (total : Nat) : List α → (index running : Nat) → Nat
  | [], _, _ => 1
  | c :: cs, index, running =>
    if total ≤ (running + (len c + slotLen)) * 2 then max index 1
    else midpoint total cs (index + 1) (running + (len c + slotLen))

/-- The cuts to try, from the midpoint outward. -/
def cutCandidates (mid n : Nat) : List Nat :=
  (List.range n).flatMap fun offset => [mid + offset, mid - offset]

/-- Where to cut an overfull list of cells so that both halves fit in a page. -/
def splitPoint (cells : List α) : Option Nat :=
  if cells.length < 2 then none
  else (cutCandidates (midpoint len (used len cells) cells 0 0) cells.length).find? fun cut =>
    cut ≠ 0 ∧ cut < cells.length ∧ fits len (cells.take cut) ∧ fits len (cells.drop cut)

/-- A page rebuilt by pushing the cells one by one. -/
def buildPage (cells : List α) : Option (List α) :=
  cells.foldlM (fun page c => pushCell len page c) []

/-! ## The bytes in use -/

variable {len}

@[simp] theorem used_nil : used len ([] : List α) = 0 := rfl

@[simp] theorem used_cons (c : α) (cells : List α) :
    used len (c :: cells) = len c + slotLen + used len cells := by
  simp [used]

@[simp] theorem used_append (l r : List α) : used len (l ++ r) = used len l + used len r := by
  simp [used]

theorem used_take_add_used_drop (n : Nat) (cells : List α) :
    used len (cells.take n) + used len (cells.drop n) = used len cells := by
  rw [← used_append, List.take_append_drop]

variable {cells : List α} {c : α} {index : Nat} {data : α}

theorem used_eq_of_getElem? {i : Nat} (hc : cells[i]? = some c) :
    used len cells = used len (cells.take i) + (len c + slotLen) + used len (cells.drop (i + 1)) := by
  obtain ⟨hi, rfl⟩ := List.getElem?_eq_some_iff.1 hc
  rw [← used_take_add_used_drop i cells, List.drop_eq_getElem_cons hi, used_cons]
  omega

theorem used_set {cells : List α} {i : Nat} {old : α} (hc : cells[i]? = some old) (data : α) :
    used len (cells.set i data) + len old = used len cells + len data := by
  obtain ⟨hi, -⟩ := List.getElem?_eq_some_iff.1 hc
  rw [List.set_eq_take_append_cons_drop, if_pos hi, used_append, used_cons, used_eq_of_getElem? hc]
  omega

theorem used_insert (cells : List α) (i : Nat) (data : α) :
    used len (cells.take i ++ data :: cells.drop i) = used len cells + (len data + slotLen) := by
  rw [used_append, used_cons, ← used_take_add_used_drop i cells]
  omega

theorem used_removeCell_le (cells : List α) (i : Nat) :
    used len (removeCell cells i) ≤ used len cells := by
  rw [removeCell, used_append, ← used_take_add_used_drop i cells, ← List.drop_drop,
    ← used_take_add_used_drop 1 (cells.drop i)]
  omega

/-! ## Edits that fit -/

theorem insertCell_of_fits (hi : index ≤ cells.length)
    (hfit : used len cells + (len data + slotLen) ≤ maxCellLen + slotLen) :
    insertCell len cells index data = some (cells.take index ++ data :: cells.drop index) := by
  have hcap : maxCellLen + slotLen = pageBodyLen - pageHeaderLen := rfl
  rw [insertCell, if_neg (by omega), if_neg (by rw [reclaimableSpace]; omega)]

theorem insertCell_eq_some {cells' : List α} (h : insertCell len cells index data = some cells') :
    cells' = cells.take index ++ data :: cells.drop index ∧ fits len cells' := by
  have hcap : maxCellLen + slotLen = pageBodyLen - pageHeaderLen := rfl
  have hslot : 0 < slotLen := by decide
  unfold insertCell at h
  split_ifs at h with hlen hroom
  obtain rfl := Option.some.inj h
  refine ⟨rfl, ?_⟩
  rw [reclaimableSpace] at hroom
  rw [fits, used_insert]
  omega

theorem replaceCell_of_fits {old : α} (hc : cells[index]? = some old)
    (hfit : used len cells + len data ≤ maxCellLen + slotLen + len old) :
    replaceCell len cells index data = (true, cells.set index data) := by
  obtain ⟨hi, -⟩ := List.getElem?_eq_some_iff.1 hc
  rw [replaceCell, hc]
  dsimp only
  split_ifs with hlen
  · rfl
  have hlt : (cells.take index).length = index := by simp; omega
  have hins : insertCell len (removeCell cells index) index data =
      some (cells.set index data) := by
    rw [insertCell_of_fits, removeCell, List.take_left' hlt, List.drop_left' hlt,
      List.set_eq_take_append_cons_drop, if_pos hi]
    · simp [removeCell]; omega
    · rw [removeCell, used_append]
      rw [used_eq_of_getElem? hc] at hfit
      omega
  rw [hins]

/-- Pushing cells that all fit builds the page of these cells. -/
theorem buildPage_of_fits (hfit : fits len cells) : buildPage len cells = some cells := by
  suffices h : ∀ post pre : List α, fits len (pre ++ post) →
      post.foldlM (fun page c => pushCell len page c) pre = some (pre ++ post) from h cells [] hfit
  intro post
  induction post with
  | nil => intro pre _; simp
  | cons c post ih =>
    intro pre h
    have hpush : pushCell len pre c = some (pre ++ [c]) := by
      rw [pushCell, insertCell_of_fits le_rfl]
      · simp
      · rw [fits, used_append, used_cons] at h
        omega
    rw [List.foldlM_cons, hpush]
    simpa using ih (pre ++ [c]) (by simpa using h)

/-! ## The cells of an edited page -/

theorem mem_removeCell (h : c ∈ removeCell cells index) : c ∈ cells :=
  (List.mem_append.1 h).elim List.mem_of_mem_take List.mem_of_mem_drop

theorem mem_insertCell {cells' : List α} (h : insertCell len cells index data = some cells')
    (hc : c ∈ cells') : c = data ∨ c ∈ cells := by
  obtain ⟨rfl, -⟩ := insertCell_eq_some h
  rcases List.mem_append.1 hc with hc | hc
  · exact .inr (List.mem_of_mem_take hc)
  · exact (List.mem_cons.1 hc).imp_right List.mem_of_mem_drop

theorem mem_replaceCell (h : c ∈ (replaceCell len cells index data).2) : c = data ∨ c ∈ cells := by
  unfold replaceCell at h
  split at h
  · exact .inr h
  split_ifs at h
  · exact (List.mem_or_eq_of_mem_set h).symm
  · split at h
    · rename_i hins
      exact (mem_insertCell hins h).imp_right mem_removeCell
    · exact .inr (mem_removeCell h)

theorem mem_buildPage {built : List α} (h : buildPage len cells = some built) (hc : c ∈ built) :
    c ∈ cells := by
  suffices hfold : ∀ (cells page : List α), cells.foldlM (fun page c => pushCell len page c) page =
      some built → c ∈ page ∨ c ∈ cells from (hfold cells [] h).resolve_left List.not_mem_nil
  intro cells
  induction cells with
  | nil =>
    intro page hpage
    exact .inl (Option.some.inj hpage ▸ hc)
  | cons data cells ih =>
    intro page hpage
    rw [List.foldlM_cons] at hpage
    obtain ⟨page', hpush, hrest⟩ := Option.bind_eq_some_iff.1 hpage
    rcases ih page' hrest with hc | hc
    · rcases mem_insertCell hpush hc with rfl | hc
      · exact .inr List.mem_cons_self
      · exact .inl hc
    · exact .inr (List.mem_cons_of_mem _ hc)

/-! ## Where a page is cut -/

/-- The midpoint is the cell that brings the running sum to half of the total. -/
theorem midpoint_spec (total : Nat) : ∀ (cells : List α) (index running : Nat),
    cells ≠ [] → total ≤ (running + used len cells) * 2 →
    ∃ pre c post, cells = pre ++ c :: post ∧
      midpoint len total cells index running = max (index + pre.length) 1 ∧
      (pre = [] ∨ (running + used len pre) * 2 < total) ∧
      total ≤ (running + used len pre + (len c + slotLen)) * 2
  | [], _, _, h, _ => absurd rfl h
  | c :: cs, index, running, _, htotal => by
    rw [midpoint]
    split_ifs with hc
    · exact ⟨[], c, cs, rfl, by simp, .inl rfl, by simpa using hc⟩
    have hcs : cs ≠ [] := by
      rintro rfl
      simp only [used_cons, used_nil] at htotal
      omega
    rw [used_cons] at htotal
    obtain ⟨pre, d, post, rfl, hmid, hpre, hd⟩ := midpoint_spec total cs (index + 1)
      (running + (len c + slotLen)) hcs (by omega)
    refine ⟨c :: pre, d, post, rfl, by rw [hmid, List.length_cons]; congr 1; omega, .inr ?_, ?_⟩
    · rcases hpre with rfl | hpre
      · simp only [used_cons, used_nil]; omega
      · rw [used_cons]; omega
    · rw [used_cons]; omega

theorem splitPoint_eq_some {cut : Nat} (h : splitPoint len cells = some cut) :
    cut ≠ 0 ∧ cut < cells.length ∧ fits len (cells.take cut) ∧ fits len (cells.drop cut) := by
  unfold splitPoint at h
  split_ifs at h
  simpa only [decide_eq_true_eq] using List.find?_some h

/-- Cells small next to a page can be cut at the midpoint: both halves fit, and neither exceeds
    half of the whole when the list is long. -/
theorem splitPoint_spec {m : Nat} (hlen : 2 ≤ cells.length)
    (hcell : ∀ c ∈ cells, len c + slotLen ≤ m)
    (htotal : used len cells + 2 * m ≤ 2 * (maxCellLen + slotLen)) :
    ∃ cut, splitPoint len cells = some cut ∧ 0 < cut ∧ cut < cells.length ∧
      fits len (cells.take cut) ∧ fits len (cells.drop cut) ∧
      (2 * m < used len cells → 2 * used len (cells.take cut) ≤ used len cells ∧
        2 * used len (cells.drop (cut + 1)) ≤ used len cells) := by
  obtain ⟨pre, c, post, hcells, hmid, hpre, hc⟩ :=
    @midpoint_spec _ len (used len cells) cells 0 0
      (by rintro rfl; simp at hlen) (by omega)
  set cut := midpoint len (used len cells) cells 0 0 with hcut
  have hsum := @used_take_add_used_drop _ len cut cells
  have hcm := hcell c (by simp [hcells])
  have htot : used len cells = used len pre + (len c + slotLen) + used len post := by
    rw [hcells, used_append, used_cons]; omega
  -- The cut is at the cell `c`, unless that is the first one.
  have hhalves : 0 < cut ∧ cut < cells.length ∧ fits len (cells.take cut) ∧
      fits len (cells.drop cut) ∧ (2 * m < used len cells →
        2 * used len (cells.take cut) ≤ used len cells ∧
        2 * used len (cells.drop (cut + 1)) ≤ used len cells) := by
    rcases eq_or_ne pre [] with rfl | hne
    · have hone : cut = 1 := by rw [hmid]; simp
      simp only [List.nil_append] at hcells
      have htake : cells.take cut = [c] := by rw [hone, hcells]; rfl
      have hdrop : cells.drop cut = post := by rw [hone, hcells]; rfl
      simp only [used_nil] at hc htot
      rw [htake, hdrop, fits, fits, used_cons, used_nil]
      refine ⟨by omega, by omega, by omega, by omega, fun h => by omega⟩
    · have hpos : 0 < pre.length := List.length_pos_iff.2 hne
      have hat : cut = pre.length := by omega
      have htake : cells.take cut = pre := by rw [hat, hcells, List.take_left]
      have hdrop : cells.drop cut = c :: post := by rw [hat, hcells, List.drop_left]
      have hdrop' : cells.drop (cut + 1) = post := by
        rw [← List.drop_drop, hdrop]; rfl
      have hlt : cut < cells.length := by rw [hat, hcells]; simp
      have hhalf := hpre.resolve_left hne
      rw [htake, hdrop, hdrop', fits, fits, used_cons]
      exact ⟨by omega, hlt, by omega, by omega, fun _ => by omega⟩
  refine ⟨cut, ?_, hhalves⟩
  rw [splitPoint, if_neg (by omega), cutCandidates, ← hcut]
  -- The midpoint is the first candidate, at offset zero.
  obtain ⟨n, hn⟩ : ∃ n, cells.length = n + 1 := ⟨cells.length - 1, by omega⟩
  rw [hn, List.range_succ_eq_map, List.flatMap_cons, List.cons_append, List.find?_cons_of_pos]
  · rfl
  · have := hhalves.1
    simp only [Nat.add_zero, decide_eq_true_eq]
    exact ⟨by omega, by omega, hhalves.2.2.1, hhalves.2.2.2.1⟩

/-! ## The pages that can be cut -/

/-- The lists of cells of the pages that the operations make, from an empty page on. -/
inductive Built (len : α → Nat) : List α → Prop
  | new : Built len []
  | insert {cells cells' : List α} {index : Nat} {data : α} :
      Built len cells → insertCell len cells index data = some cells' → Built len cells'
  | replace {cells : List α} (index : Nat) (data : α) :
      Built len cells → Built len (replaceCell len cells index data).2
  | remove {cells : List α} (index : Nat) : Built len cells → Built len (removeCell cells index)

theorem Built.fits (h : Built len cells) : fits len cells := by
  induction h with
  | new => exact Nat.zero_le _
  | insert _ hins _ => exact (insertCell_eq_some hins).2
  | remove index _ ih => exact (used_removeCell_le _ _).trans ih
  | @replace cells index data _ ih =>
    unfold replaceCell
    split
    · exact ih
    next old hold =>
    split_ifs with hlen
    · have := @used_set _ len _ _ _ hold data
      rw [Page.fits] at ih ⊢
      dsimp only
      omega
    split
    next hins => exact (insertCell_eq_some hins).2
    · exact (used_removeCell_le _ _).trans ih

theorem built_of_buildPage {built : List α} (h : buildPage len cells = some built) :
    Built len built := by
  suffices hfold : ∀ (cells page : List α), Built len page →
      cells.foldlM (fun page c => pushCell len page c) page = some built → Built len built from
    hfold cells [] .new h
  intro cells
  induction cells with
  | nil => exact fun page hpage h => Option.some.inj h ▸ hpage
  | cons c cells ih =>
    intro page hpage h
    rw [List.foldlM_cons] at h
    obtain ⟨page', hpush, h⟩ := Option.bind_eq_some_iff.1 h
    exact ih page' (hpage.insert hpush) h

theorem midpoint_le (total : Nat) (cells : List α) (index running : Nat) :
    midpoint len total cells index running ≤ max (index + cells.length) 1 := by
  induction cells generalizing index running with
  | nil => exact le_max_right _ _
  | cons c cells ih =>
    rw [midpoint, List.length_cons]
    split_ifs
    · omega
    · exact (ih _ _).trans_eq (by congr 1; omega)

theorem mem_cutCandidates {mid n cut : Nat} (hmid : mid ≤ n) (hpos : 0 < cut) (hcut : cut < n) :
    cut ∈ cutCandidates mid n := by
  refine List.mem_flatMap.2 ⟨max cut mid - min cut mid, List.mem_range.2 (by omega), ?_⟩
  simp only [List.mem_cons, List.not_mem_nil, or_false]
  omega

/-- The cells are cut in two lists that pages are built from, without `promoted` cells at the
    cut. -/
def Splits (len : α → Nat) (cells : List α) (promoted : Nat) : Prop :=
  ∃ cut, splitPoint len cells = some cut ∧ 0 < cut ∧ cut < cells.length ∧
    buildPage len (cells.take cut) = some (cells.take cut) ∧
    buildPage len (cells.drop (cut + promoted)) = some (cells.drop (cut + promoted))

/-- A list that can be cut somewhere is cut: the candidates are all of its inner places. -/
theorem splits_append {l r : List α} (hl : l ≠ []) (hr : r ≠ []) (hleft : fits len l)
    (hright : fits len r) (promoted : Nat) : Splits len (l ++ r) promoted := by
  have hl := List.length_pos_iff.2 hl
  have hr := List.length_pos_iff.2 hr
  have hlength := @List.length_append _ l r
  have hmid := @midpoint_le _ len (used len (l ++ r)) (l ++ r) 0 0
  rcases hfound : splitPoint len (l ++ r) with _ | cut
  · rw [splitPoint, if_neg (by omega)] at hfound
    refine absurd (decide_eq_true ⟨hl.ne', by omega, ?_, ?_⟩)
      (List.find?_eq_none.1 hfound l.length (mem_cutCandidates (by omega) hl (by omega)))
    · rwa [List.take_left]
    · rwa [List.drop_left]
  · obtain ⟨hzero, hlt, hleft, hright⟩ := splitPoint_eq_some hfound
    refine ⟨cut, hfound, Nat.pos_of_ne_zero hzero, hlt, buildPage_of_fits hleft, buildPage_of_fits ?_⟩
    rw [← List.drop_drop]
    have := @used_take_add_used_drop _ len promoted ((l ++ r).drop cut)
    rw [fits] at hright ⊢
    omega

/-- A page with one more cell in its list can be cut, if that cell is at most half a page. -/
theorem splits_insert {l r : List α} (hlr : l ++ r ≠ [])
    (hused : used len (l ++ r) ≤ maxCellLen + slotLen)
    (hdata : 2 * (len data + slotLen) ≤ maxCellLen + slotLen) (promoted : Nat) :
    Splits len (l ++ data :: r) promoted := by
  rw [used_append] at hused
  by_cases hbefore : l ≠ [] ∧ len data + slotLen + used len r ≤ maxCellLen + slotLen
  · refine splits_append hbefore.1 (List.cons_ne_nil _ _) ?_ ?_ promoted
    · rw [fits]
      omega
    · rw [fits, used_cons]
      exact hbefore.2
  · -- The cell goes to the left half: what stands behind it is then more than half a page.
    rw [show l ++ data :: r = (l ++ [data]) ++ r by simp]
    refine splits_append (by simp) ?_ ?_ ?_ promoted
    · rintro rfl
      exact hbefore ⟨by simpa using hlr, by simp; omega⟩
    · rw [fits, used_append, used_cons, used_nil]
      rcases eq_or_ne l [] with rfl | hl
      · rw [used_nil]
        omega
      · have := not_le.1 fun h => hbefore ⟨hl, h⟩
        omega
    · rw [fits]
      omega

end Page

end FacetQL
