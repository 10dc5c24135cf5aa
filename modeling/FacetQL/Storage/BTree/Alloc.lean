import FacetQL.Storage.BTree.Shape

/-!
# Allocating, releasing and copying pages

What the page-level steps of a write do to the file and to the free list.
-/

namespace FacetQL

open Machine
open Multiset (le_add_left le_add_right mem_add mem_of_le mem_singleton nodup_add notMem_zero)

namespace BTree

/-- The allocator can hand out the page. -/
def Fresh (m : Machine) (p : PageId) : Prop :=
  m.pager.pageCount ≤ p ∨ ∃ e ∈ m.state.free, e.page = p ∧ m.state.Reusable e

/-- The pages of `L` are in use, and the free list is in order. -/
structure Own (m : Machine) (L : Multiset PageId) : Prop where
  start : firstDataPage ≤ m.pager.pageCount
  freeNodup : (m.state.free.map FreeEntry.page).Nodup
  freeRange : ∀ e ∈ m.state.free, firstDataPage ≤ e.page ∧ e.page < m.pager.pageCount
  freeLen : m.state.free.length ≤ maxFreeEntries
  nodup : L.Nodup
  range : ∀ p ∈ L, firstDataPage ≤ p ∧ p < m.pager.pageCount
  notFree : ∀ p ∈ L, ∀ e ∈ m.state.free, e.page ≠ p

/-- A part of the tree has moved from the pages `L` to `L'`, with writes in place in `W` only. -/
structure Moved (m m' : Machine) (W : Set PageId) (L L' : Multiset PageId) : Prop where
  disk : m'.pager.disk = m.pager.disk
  pending : ∃ ws, m'.pager.pending = ws ++ m.pager.pending ∧ ∀ w ∈ ws, w.1 ∈ W ∨ Fresh m w.1
  pageCount : m.pager.pageCount ≤ m'.pager.pageCount
  generation : m'.state.generation = m.state.generation
  readers : m'.state.readers = m.state.readers
  dirty : m.state.dirty ⊆ m'.state.dirty
  newDirty : ∀ p ∈ m'.state.dirty, p ∈ m.state.dirty ∨ Fresh m p
  fresh : ∀ p, Fresh m' p → Fresh m p
  pages : ∀ p ∈ L', p ∈ L ∨ Fresh m p ∧ p ∈ m'.state.dirty
  freed : ∀ e ∈ m'.state.free, e ∈ m.state.free ∨ e.generation = m.state.building
  own : ∀ F, Own m (F + L) → Own m' (F + L')

/-- A part of the tree has moved while the number of entries was not touched. -/
structure Change (m m' : Machine) (W : Set PageId) (L L' : Multiset PageId) : Prop
    extends Moved m m' W L L' where
  entries : m'.state.entries = m.state.entries

variable {m m' m'' : Machine} {W W' : Set PageId} {L L' L'' F : Multiset PageId} {p : PageId}

theorem Own.mono (h : Own m L) (hle : L' ≤ L) : Own m L' :=
  { h with
    nodup := Multiset.nodup_of_le hle h.nodup
    range := fun p hp => h.range p (mem_of_le hle hp)
    notFree := fun p hp => h.notFree p (mem_of_le hle hp) }

theorem Own.right (h : Own m (F + L)) : Own m L := h.mono (le_add_left L F)

theorem Own.left (h : Own m (F + L)) : Own m F := h.mono (le_add_right F L)

/-- A page in use is not handed out. -/
theorem Own.not_fresh (h : Own m L) (hp : p ∈ L) : ¬ Fresh m p := by
  rintro (hc | ⟨e, he, hep, -⟩)
  · exact absurd (h.range p hp).2 hc.not_gt
  · exact h.notFree p hp e he hep

theorem Own.disjoint (h : Own m (F + L)) (hp : p ∈ F) : p ∉ L := fun hL =>
  Multiset.disjoint_left.1 (nodup_add.1 h.nodup).2.2 hp hL

/-! ## Changes -/

namespace Moved

theorem refl (m : Machine) (L : Multiset PageId) : Moved m m ∅ L L where
  disk := rfl
  pending := ⟨[], rfl, by simp⟩
  pageCount := le_rfl
  generation := rfl
  readers := rfl
  dirty := subset_rfl
  newDirty _ hp := .inl hp
  fresh _ hp := hp
  pages _ hp := .inl hp
  freed _ he := .inl he
  own _ h := h

section

variable (h : Moved m m' W L L')
include h

theorem building : m'.state.building = m.state.building := by
  rw [TreeState.building, h.generation, TreeState.building]

/-- One change after the other, which writes in place where the first one could or handed out. -/
theorem trans (h' : Moved m' m'' W' L' L'') (hW : ∀ p ∈ W', p ∈ W ∨ Fresh m p) :
    Moved m m'' W L L'' where
  disk := h'.disk.trans h.disk
  pending := by
    obtain ⟨ws, hws, hin⟩ := h.pending
    obtain ⟨ws', hws', hin'⟩ := h'.pending
    refine ⟨ws' ++ ws, by rw [hws', hws, List.append_assoc], fun w hw => ?_⟩
    rcases List.mem_append.1 hw with hw | hw
    · exact (hin' w hw).elim (hW w.1) fun hf => .inr (h.fresh w.1 hf)
    · exact hin w hw
  pageCount := h.pageCount.trans h'.pageCount
  generation := h'.generation.trans h.generation
  readers := h'.readers.trans h.readers
  dirty := h.dirty.trans h'.dirty
  newDirty p hp := (h'.newDirty p hp).elim (h.newDirty p) fun hf => .inr (h.fresh p hf)
  fresh p hp := h.fresh p (h'.fresh p hp)
  pages p hp := by
    rcases h'.pages p hp with hp | ⟨hf, hd⟩
    · exact (h.pages p hp).imp_right fun ⟨hf, hd⟩ => ⟨hf, h'.dirty hd⟩
    · exact .inr ⟨h.fresh p hf, hd⟩
  freed e he := by
    rcases h'.freed e he with he | he
    · exact h.freed e he
    · exact .inr (he.trans h.building)
  own F hF := h'.own F (h.own F hF)

theorem owned (hown : Own m L) : Own m' L' := by
  have hown' := h.own 0 ((zero_add L).symm ▸ hown)
  rwa [zero_add] at hown'

theorem add (F : Multiset PageId) : Moved m m' W (F + L) (F + L') :=
  { h with
    pages := fun p hp => by
      rcases mem_add.1 hp with hp | hp
      · exact .inl (mem_add.2 (.inl hp))
      · exact (h.pages p hp).imp_left fun hp => mem_add.2 (.inr hp)
    own := fun G hG => by
      rw [← add_assoc] at hG ⊢
      exact h.own (G + F) hG }

theorem mono (hW : W ⊆ W') : Moved m m' W' L L' :=
  { h with
    pending := h.pending.imp fun _ hws => ⟨hws.1, fun w hw => (hws.2 w hw).imp_left (@hW w.1)⟩ }

/-- A page that is neither written in place nor handed out stays as it is. -/
theorem page?_eq (hW : p ∉ W) (hf : ¬ Fresh m p) : m'.pager.page? p = m.pager.page? p := by
  obtain ⟨ws, hws, hin⟩ := h.pending
  refine Pager.page?_of_writes hws h.disk h.pageCount (not_le.1 fun hc => hf (.inl hc)) ?_
  rintro w hw rfl
  exact (hin w hw).elim hW hf

theorem stable (hW : ∀ p ∈ W, p ∈ L) (hown : Own m (F + L)) :
    ∀ p ∈ F, m'.pager.page? p = m.pager.page? p := fun p hp =>
  h.page?_eq (fun hpW => hown.disjoint hp (hW p hpW)) (hown.left.not_fresh hp)

/-- What else of the state changes makes no difference. -/
theorem congr (hpager : m''.pager = m'.pager) (hgen : m''.state.generation = m'.state.generation)
    (hread : m''.state.readers = m'.state.readers) (hdirty : m''.state.dirty = m'.state.dirty)
    (hfree : m''.state.free = m'.state.free) : Moved m m'' W L L' := by
  have hfresh : ∀ p, Fresh m'' p → Fresh m' p := fun p hp => by
    simpa only [Fresh, TreeState.Reusable, TreeState.building, TreeState.oldestReader, hpager, hgen,
      hread, hfree] using hp
  refine
    { disk := hpager ▸ h.disk, pending := hpager ▸ h.pending, pageCount := hpager ▸ h.pageCount
      generation := hgen.trans h.generation, readers := hread.trans h.readers
      dirty := hdirty ▸ h.dirty, newDirty := hdirty ▸ h.newDirty
      fresh := fun p hp => h.fresh p (hfresh p hp), pages := hdirty ▸ h.pages
      freed := hfree ▸ h.freed, own := fun F hF => ?_ }
  obtain ⟨h1, h2, h3, h4, h5, h6, h7⟩ := h.own F hF
  exact ⟨hpager ▸ h1, hfree ▸ h2, hpager ▸ hfree ▸ h3, hfree ▸ h4, h5, hpager ▸ h6, hfree ▸ h7⟩

end

end Moved

namespace Change

theorem refl (m : Machine) (L : Multiset PageId) : Change m m ∅ L L := ⟨Moved.refl m L, rfl⟩

theorem trans (h : Change m m' W L L') (h' : Change m' m'' W' L' L'')
    (hW : ∀ p ∈ W', p ∈ W ∨ Fresh m p) : Change m m'' W L L'' :=
  ⟨h.toMoved.trans h'.toMoved hW, h'.entries.trans h.entries⟩

theorem add (h : Change m m' W L L') (F : Multiset PageId) : Change m m' W (F + L) (F + L') :=
  ⟨h.toMoved.add F, h.entries⟩

theorem mono (h : Change m m' W L L') (hW : W ⊆ W') : Change m m' W' L L' :=
  ⟨h.toMoved.mono hW, h.entries⟩

end Change

/-! ## The free list -/

theorem perm_swapRemove {free : List FreeEntry} {i : Nat} {e : FreeEntry} (he : free[i]? = some e) :
    free.Perm (e :: TreeState.swapRemove free i) := by
  obtain ⟨hi, rfl⟩ := List.getElem?_eq_some_iff.1 he
  refine (List.getElem_cons_eraseIdx_perm hi).symm.trans (List.Perm.cons _ ?_)
  rcases List.eq_nil_or_concat free with rfl | ⟨init, last, rfl⟩
  · simp at hi
  simp only [List.concat_eq_append] at hi ⊢
  simp only [TreeState.swapRemove, List.getLast?_append, List.getLast?_singleton, Option.some_or]
  rcases lt_or_ge i init.length with h | h
  · rw [List.eraseIdx_append_of_lt_length h, List.set_append_left _ _ h, List.dropLast_concat]
    exact (List.perm_append_singleton last _).trans (List.set_perm_cons_eraseIdx h last).symm
  obtain rfl : i = init.length := by
    simp only [List.length_append, List.length_singleton] at hi
    omega
  rw [List.eraseIdx_append_of_length_le le_rfl, List.set_append_right _ _ le_rfl]
  simp

/-- Taking a page off the free list takes a reusable one. -/
theorem takeFree_spec {s s' : TreeState} (h : s.takeFree = some (p, s')) :
    ∃ e free', s.free.Perm (e :: free') ∧ e.page = p ∧ s.Reusable e ∧ s' = { s with free := free' } := by
  unfold TreeState.takeFree at h
  rcases hidx : s.free.findIdx? (fun e => s.Reusable e) with _ | i
  · simp [hidx] at h
  obtain ⟨hi, hreuse, -⟩ := List.findIdx?_eq_some_iff_getElem.1 hidx
  have he : s.free[i]? = some s.free[i] := List.getElem?_eq_getElem hi
  simp only [hidx, he, Option.map_some, Option.some.injEq, Prod.mk.injEq] at h
  exact ⟨s.free[i], _, perm_swapRemove he, h.1, by simpa using hreuse, h.2.symm⟩

theorem Own.add_page (h : Own m F) (hcount : m.pager.pageCount ≤ m'.pager.pageCount)
    (hnodup : (m'.state.free.map FreeEntry.page).Nodup) (hsub : m'.state.free ⊆ m.state.free)
    (hlen : m'.state.free.length ≤ m.state.free.length) (hp : p ∉ F)
    (hrange : firstDataPage ≤ p ∧ p < m'.pager.pageCount) (hfree : ∀ e ∈ m'.state.free, e.page ≠ p) :
    Own m' (F + {p}) where
  start := h.start.trans hcount
  freeNodup := hnodup
  freeRange e he := (h.freeRange e (hsub he)).imp_right fun hlt => hlt.trans_le hcount
  freeLen := hlen.trans h.freeLen
  nodup := nodup_add.2 ⟨h.nodup, Multiset.nodup_singleton _, by simpa using hp⟩
  range q hq := by
    rcases mem_add.1 hq with hq | hq
    · exact (h.range q hq).imp_right fun hlt => hlt.trans_le hcount
    · rwa [mem_singleton.1 hq]
  notFree q hq e he := by
    rcases mem_add.1 hq with hq | hq
    · exact h.notFree q hq e (hsub he)
    · rw [mem_singleton.1 hq]
      exact hfree e he

/-- Note in the state that a page belongs to the generation being built. -/
def markedDirty (m : Machine) (p : PageId) : Machine := { m with state := m.state.markDirty p }

theorem change_handOut (hfresh : Fresh m p) {count : Nat} {free : List FreeEntry}
    (hcount : m.pager.pageCount ≤ count) (hsub : free ⊆ m.state.free)
    (hown : ∀ F, Own m F → Own ⟨{ m.pager with pageCount := count }, { m.state with free }⟩ (F + {p})) :
    Change m (markedDirty ⟨{ m.pager with pageCount := count }, { m.state with free }⟩ p) ∅ 0 {p} where
  disk := rfl
  pending := ⟨[], rfl, by simp⟩
  pageCount := hcount
  generation := rfl
  readers := rfl
  entries := rfl
  dirty := Finset.subset_insert _ _
  newDirty q hq := (Finset.mem_insert.1 hq).elim (fun h => .inr (h ▸ hfresh)) .inl
  fresh q hq := hq.imp hcount.trans fun ⟨e, he, hep, hr⟩ => ⟨e, hsub he, hep, hr⟩
  pages q hq := by
    obtain rfl := mem_singleton.1 hq
    exact .inr ⟨hfresh, Finset.mem_insert_self _ _⟩
  freed f hf := .inl (hsub hf)
  own F hF := { hown F (by rwa [add_zero] at hF) with }

/-- Allocating a page brings one page into use that could be handed out. -/
theorem run_allocate (m : Machine) : ∃ p m', m.run allocate = (.ok p, m') ∧ Fresh m p ∧
    Change m (markedDirty m' p) ∅ 0 {p} := by
  rcases htake : m.state.takeFree with _ | r
  · -- The file grows by one page.
    have hfresh : Fresh m m.pager.pageCount := .inl le_rfl
    refine ⟨m.pager.pageCount,
      { m with pager := { m.pager with pageCount := m.pager.pageCount + 1 } }, ?_, hfresh, ?_⟩
    · simp [Machine.run, allocate, Machine.act, htake]
    refine change_handOut hfresh (Nat.le_succ _) (fun _ hf => hf) fun F hF => ?_
    exact hF.add_page (Nat.le_succ _) hF.freeNodup (fun _ hf => hf) le_rfl
      (fun h => hF.not_fresh h hfresh) ⟨hF.start, Nat.lt_succ_self _⟩
      fun f hf => (hF.freeRange f hf).2.ne
  -- A released page comes off the list, which stays without repetitions.
  obtain ⟨p, s'⟩ := r
  obtain ⟨e, free', hperm, rfl, hreuse, rfl⟩ := takeFree_spec htake
  have hmem : ∀ {f}, f ∈ m.state.free ↔ f = e ∨ f ∈ free' := fun {f} => by
    rw [hperm.mem_iff, List.mem_cons]
  have hfresh : Fresh m e.page := .inr ⟨e, hmem.2 (.inl rfl), rfl, hreuse⟩
  refine ⟨e.page, { m with state := { m.state with free := free' } }, ?_, hfresh, ?_⟩
  · simp [Machine.run, allocate, Machine.act, htake]
  refine change_handOut hfresh le_rfl (fun f hf => hmem.2 (.inr hf)) fun F hF => ?_
  have hnodup := (hperm.map FreeEntry.page).nodup_iff.1 hF.freeNodup
  rw [List.map_cons, List.nodup_cons] at hnodup
  exact hF.add_page le_rfl hnodup.2 (fun f hf => hmem.2 (.inr hf))
    (hperm.length_eq ▸ Nat.le_succ _) (fun h => hF.not_fresh h hfresh)
    (hF.freeRange e (hmem.2 (.inl rfl))) fun f hf h => hnodup.1 (h ▸ List.mem_map_of_mem hf)

/-- Remember in the state that a page is not used any more. -/
def released (m : Machine) (p : PageId) : Machine := { m with state := m.state.release p }

/-- A released page is out of use, and not handed out before two more generations. -/
theorem change_release (m : Machine) (p : PageId) :
    Change m (released m p) ∅ {p} 0 := by
  unfold released TreeState.release
  split_ifs with hfull
  · exact
      { Change.refl m 0 with
        pages := fun q hq => absurd hq (notMem_zero q)
        own := fun F hF => by
          rw [add_zero]
          exact hF.left }
  · have hmem : ∀ {e : FreeEntry}, e ∈ m.state.free ++ [⟨m.state.building, p⟩] →
        e ∈ m.state.free ∨ e = ⟨m.state.building, p⟩ := fun {e} he => by simpa using he
    refine
      { disk := rfl, pending := ⟨[], rfl, by simp⟩, pageCount := le_rfl, generation := rfl
        readers := rfl, entries := rfl, dirty := subset_rfl, newDirty := fun q hq => .inl hq
        fresh := ?_
        pages := fun q hq => absurd hq (notMem_zero q)
        freed := fun e he => (hmem he).imp_right (congrArg FreeEntry.generation)
        own := fun F hF => ?_ }
    · rintro q (hq | ⟨e, he, hep, hr⟩)
      · exact .inl hq
      · rcases hmem he with he | rfl
        · exact .inr ⟨e, he, hep, hr⟩
        · exact absurd hr.1 (by simp [TreeState.building])
    have hp := hF.range p (by simp)
    refine
      { start := hF.start
        freeNodup := ?_
        freeRange := fun e he => (hmem he).elim (hF.freeRange e) (by rintro rfl; exact hp)
        freeLen := by simpa using Nat.succ_le_of_lt (not_le.1 hfull)
        nodup := by simpa using hF.left.nodup
        range := fun q hq => hF.range q (by simp_all)
        notFree := fun q hq e he => ?_ }
    · rw [List.map_append, List.nodup_append]
      refine ⟨hF.freeNodup, by simp, fun a ha b hb => ?_⟩
      obtain ⟨e, he, rfl⟩ := List.mem_map.1 ha
      rw [show b = p by simpa using hb]
      exact hF.notFree p (by simp) e he
    · rw [add_zero] at hq
      rcases hmem he with he | rfl
      · exact hF.left.notFree q hq e he
      · rintro rfl
        exact hF.disjoint hq (by simp)

theorem run_release (p : PageId) :
    m.run (release p) = (.ok (), released m p) := rfl

/-- Writing a page changes it in place. -/
theorem change_write (m : Machine) (p : PageId) (page : TreePage) (L : Multiset PageId) :
    Change m (m.written p page) {p} L L where
  disk := rfl
  pending := ⟨[(p, page)], rfl, by simp⟩
  pageCount := le_max_left _ _
  generation := rfl
  readers := rfl
  entries := rfl
  dirty := subset_rfl
  newDirty _ hq := .inl hq
  fresh q hq := hq.imp_left (le_max_left _ _).trans
  pages _ hq := .inl hq
  freed _ he := .inl he
  own F hF :=
    { hF with
      start := hF.start.trans (le_max_left _ _)
      freeRange := fun e he => (hF.freeRange e he).imp_right fun h => h.trans_le (le_max_left _ _)
      range := fun q hq => (hF.range q hq).imp_right fun h => h.trans_le (le_max_left _ _) }

/-- A dirty page is its own copy. -/
theorem run_cow_dirty {id : PageId} {page : TreePage} (hpage : m.pager.page? id = some page)
    (hdirty : id ∈ m.state.dirty) : m.run (cow id) = (.ok (id, page), m) := by
  rw [cow, run_bind_ok (run_readPage hpage)]
  simp [Machine.act, hdirty]

/-- A copy brings a page into use that can be written: the page itself if dirty, or a fresh one. -/
theorem run_cow {id : PageId} {page : TreePage} (hpage : m.pager.page? id = some page) :
    ∃ id' m', m.run (cow id) = (.ok (id', page), m') ∧
      (id' = id ∧ id ∈ m.state.dirty ∨ Fresh m id') ∧ Change m m' ∅ {id} {id'} := by
  by_cases hdirty : id ∈ m.state.dirty
  · exact ⟨id, m, run_cow_dirty hpage hdirty, .inl ⟨rfl, hdirty⟩, Change.refl m _⟩
  obtain ⟨fresh, m₁, hrun, hfresh, hchange⟩ := run_allocate m
  have hrelease := (change_release (markedDirty m₁ fresh) id).add {fresh}
  rw [add_zero, add_comm] at hrelease
  refine ⟨fresh, _, ?_, .inr hfresh, (hchange.add {id}).trans hrelease fun p => False.elim⟩
  rw [cow, run_bind_ok (run_readPage hpage), run_state_bind, if_neg hdirty,
    run_bind_ok hrun, markDirty, run_bind_ok (run_modifyState _),
    run_bind_ok (run_release id)]
  rfl

/-! ## Changes in place -/

variable {k lo : Bytes} {hi : WithTop Bytes} {id extra : PageId} {h : Nat} {cells : List BranchCell}

/-- The pages of a list that are written in place. -/
def inPlace (m : Machine) (path : List PageId) : Set PageId := {p | p ∈ path ∧ p ∈ m.state.dirty}

theorem Own.lt_pageCount (h : Own m L) (hid : id ∈ L) : id < m.pager.pageCount := (h.range id hid).2

theorem Own.singleton (h : Own m L) (hid : id ∈ L) : Own m {id} :=
  h.mono (Multiset.singleton_le.2 hid)

/-- A change of the copy of a page, and of pages `R` beside it, is a change of the page. -/
theorem Change.of_cow {id' : PageId} {R : Multiset PageId} (hcow : Change m m' ∅ {id} {id'})
    (hid : id' = id ∧ id ∈ m.state.dirty ∨ Fresh m id')
    (h : Change m' m'' {id'} (R + {id'}) L') : Change m m'' (inPlace m [id]) (R + {id}) L' := by
  refine ((hcow.mono (Set.empty_subset _)).add R).trans h fun p hp => ?_
  obtain rfl : p = id' := hp
  exact hid.imp_left fun ⟨he, hd⟩ => ⟨by simp [he], he ▸ hd⟩

theorem page?_write (hown : Own m {id}) (page : TreePage) (p : PageId) :
    (m.written id page).pager.page? p =
      if p = id then some page else m.pager.page? p :=
  Pager.page?_write (hown.lt_pageCount (Multiset.mem_singleton_self id)) page p

/-! ## Changes below a branch -/

theorem child_of_branch {σ : Store} {extra : PageId} {cells : List BranchCell}
    (hpage : σ id = some (.branch extra cells)) (hok : BranchOk cells)
    (ht : Tiling (Child σ h) lo hi (nodes lo extra cells)) : Child σ (h + 1) lo hi id := by
  refine ⟨⟨extra, cells, hpage, hok, ht⟩, ?_⟩
  rw [entriesAt_branch lo hpage]
  exact entriesOf_ne_nil ht (by simp [nodes])

theorem used_eq_of_keys {cells cells' : List BranchCell}
    (hkeys : cells'.map BranchCell.key = cells.map BranchCell.key) :
    Page.used BranchCell.len cells' = Page.used BranchCell.len cells := by
  have hused : ∀ cs : List BranchCell, Page.used BranchCell.len cs =
      ((cs.map BranchCell.key).map fun key => 6 + key.length + slotLen).sum := fun cs => by
    rw [Page.used, List.map_map]
    rfl
  rw [hused, hused, hkeys]

theorem lengths_of_keys {cells cells' : List BranchCell}
    (hkeys : cells'.map BranchCell.key = cells.map BranchCell.key)
    (hlens : ∀ c ∈ cells, c.key.length ≤ maxKeyLen) : ∀ c ∈ cells', c.key.length ≤ maxKeyLen := by
  intro c hc
  have : c.key ∈ cells.map BranchCell.key := hkeys ▸ List.mem_map_of_mem hc
  obtain ⟨d, hd, hdc⟩ := List.mem_map.1 this
  exact hdc ▸ hlens d hd

theorem Own.of_child {c : PageId} {l : Bytes} {pre post : List (Bytes × PageId)}
    (hown : Own m (pagesAt m.pager.page? (h + 1) id))
    (hpage : m.pager.page? id = some (.branch extra cells))
    (hn : nodes lo extra cells = pre ++ (l, c) :: post) : Own m (pagesAt m.pager.page? h c) := by
  refine hown.mono ?_
  rw [pagesAt_branch lo hpage, hn, pagesOf_append, pagesOf_cons]
  exact (le_add_right _ _).trans
    ((le_add_left _ _).trans (Multiset.le_cons_self _ _))

/-- A change below one child leaves the other children and the branch as they are. -/
theorem Change.below {c : PageId} {l : Bytes} {pre post : List (Bytes × PageId)}
    (hc : Change m m' (inPlace m (pathAt m.pager.page? k h c)) (pagesAt m.pager.page? h c) L')
    (hpage : m.pager.page? id = some (.branch extra cells))
    (hn : nodes lo extra cells = pre ++ (l, c) :: post)
    (hchild : branchChildFor extra cells k = (pre.length, c))
    (hown : Own m (pagesAt m.pager.page? (h + 1) id)) :
    m'.pager.page? id = some (.branch extra cells) ∧
    (∀ p ∈ pagesOf m.pager.page? h pre, m'.pager.page? p = m.pager.page? p) ∧
    (∀ p ∈ pagesOf m.pager.page? h post, m'.pager.page? p = m.pager.page? p) ∧
    Change m m' (inPlace m (pathAt m.pager.page? k (h + 1) id)) (pagesAt m.pager.page? (h + 1) id)
      (pagesOf m.pager.page? h pre + pagesOf m.pager.page? h post + (L' + {id})) := by
  have hpages : pagesAt m.pager.page? (h + 1) id =
      pagesOf m.pager.page? h pre + pagesOf m.pager.page? h post + {id} +
        pagesAt m.pager.page? h c := by
    rw [pagesAt_branch lo hpage, hn, pagesOf_append, pagesOf_cons, ← Multiset.singleton_add]
    ac_rfl
  have hpath : inPlace m (pathAt m.pager.page? k h c) ⊆
      inPlace m (pathAt m.pager.page? k (h + 1) id) := by
    rw [pathAt_branch hpage, hchild]
    exact fun p hp => ⟨List.mem_cons_of_mem _ hp.1, hp.2⟩
  -- Everything beside the child is in use and stays as it is.
  have hstable := hc.stable (fun p hp => pathAt_subset h c hp.1) (hpages ▸ hown)
  refine ⟨by rw [hstable id (by simp), hpage], fun p hp => hstable p (by simp [hp]),
    fun p hp => hstable p (by simp [hp]), ?_⟩
  have hchange := (hc.mono hpath).add
    (pagesOf m.pager.page? h pre + pagesOf m.pager.page? h post + {id})
  rw [← hpages] at hchange
  convert hchange using 1
  ac_rfl

/-- Rewriting a branch at its copy leaves its children as they are, apart from those of `R`. -/
theorem Change.rewrite {m₁ m₂ m₃ : Machine} {id' : PageId} {P Q R : Multiset PageId}
    (hb : Change m m₁ (inPlace m (pathAt m.pager.page? k h id)) P (Q + (R + {id})))
    (hown : Own m P) (hcow : Change m₁ m₂ ∅ {id} {id'})
    (hid' : id' = id ∧ id ∈ m₁.state.dirty ∨ Fresh m₁ id')
    (hwrite : Change m₂ m₃ {id'} (R + {id'}) L) :
    Change m m₃ (inPlace m (pathAt m.pager.page? k h id)) P (Q + L) ∧
    ∀ p ∈ Q, m₃.pager.page? p = m₁.pager.page? p := by
  have hchange := hcow.of_cow hid' hwrite
  refine ⟨hb.trans (hchange.add _) fun p hp => ?_, hchange.stable ?_ (hb.owned hown)⟩
  · obtain rfl : p = id := by simpa using hp.1
    exact (hb.newDirty p hp.2).imp_left fun hd => ⟨self_mem_pathAt, hd⟩
  · intro p hp
    rw [show p = id by simpa using hp.1]
    simp

end BTree

end FacetQL
