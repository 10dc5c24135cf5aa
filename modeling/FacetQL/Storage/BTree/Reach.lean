import FacetQL.Storage.BTree.Crash

/-!
# What can be reached, and what can be handed out

A put or a removal hands out pages, writes them and links them to one another, while the
old root is still the root and the pages below it can be read. At no point of it can a page
that is still to be handed out be reached.
-/

namespace FacetQL

open Function

namespace BTree

/-- Whether a page is a branch. -/
def isBranch : TreePage → Bool
  | .branch _ _ => true
  | _ => false

/-- A set of pages that leads nowhere else. -/
def Closed (σ : Store) (K : Set PageId) : Prop :=
  ∀ p ∈ K, ∀ page, σ p = some page → ∀ q ∈ links page, q ∈ K

theorem Closed.reaches {σ : Store} {K : Set PageId} (h : Closed σ K) {p q : PageId} (hp : p ∈ K)
    (hq : Reaches σ p q) : q ∈ K := by
  induction hq with
  | refl => exact hp
  | tail _ hlink ih =>
    obtain ⟨page, hpage, hmem⟩ := hlink
    exact h _ ih page hpage _ hmem

/-! ## Known pages -/

/-- A page of the file that is not handed out while the generation `g` is kept. -/
structure Held (m : Machine) (g : Nat) (p : PageId) : Prop where
  start : firstDataPage ≤ p
  lt : p < m.pager.pageCount
  free : ∀ e ∈ m.state.free, e.page = p → g < e.generation

/-- Which pages are known, and whether they are branches. -/
abbrev Kinds := PageId → Option Bool

/-- More pages are known, and the known ones are what they were. -/
def Extends (κ κ' : Kinds) : Prop := ∀ p b, κ p = some b → κ' p = some b

theorem Extends.refl (κ : Kinds) : Extends κ κ := fun _ _ h => h

theorem Extends.trans {κ κ' κ'' : Kinds} (h : Extends κ κ') (h' : Extends κ' κ'') : Extends κ κ'' :=
  fun p b hp => h' p b (h p b hp)

theorem Extends.isSome {κ κ' : Kinds} (h : Extends κ κ') {p : PageId} (hp : (κ p).isSome) :
    (κ' p).isSome := by
  obtain ⟨b, hb⟩ := Option.isSome_iff_exists.1 hp
  rw [h p b hb]
  rfl

/-- In a call that started from `m₀`: the pages of `κ` are in use and lead nowhere else, those
    of `N` are handed out but not written yet. -/
structure Known (m₀ m : Machine) (κ : Kinds) (N : Set PageId) : Prop where
  page : ∀ p b, κ p = some b → ∃ page, m.pager.page? p = some page ∧ isBranch page = b ∧
    ∀ q ∈ links page, (κ q).isSome
  unwritten : ∀ p ∈ N, κ p = none
  held : ∀ p, (κ p).isSome ∨ p ∈ N → Held m m.state.generation p
  root : (κ m.state.root).isSome
  start : firstDataPage ≤ m.pager.pageCount
  freeNodup : ((m.state.free.filter fun e => e.generation ≤ m.state.generation).map
    FreeEntry.page).Nodup
  freeRange : ∀ e ∈ m.state.free, e.generation ≤ m.state.generation →
    firstDataPage ≤ e.page ∧ e.page < m.pager.pageCount
  disk : m.pager.disk = m₀.pager.disk
  pending : ∃ ws, m.pager.pending = ws ++ m₀.pager.pending ∧ ∀ w ∈ ws, (κ w.1).isSome
  pageCount : m₀.pager.pageCount ≤ m.pager.pageCount
  generation : m.state.generation = m₀.state.generation
  readers : m₀.state.readers ⊆ m.state.readers
  freed : ∀ e ∈ m.state.free, e ∈ m₀.state.free ∨ m₀.state.generation < e.generation

section Steps

variable {m₀ m m' : Machine} {κ κ' : Kinds} {N : Set PageId} {id : PageId} {b : Bool}

theorem Held.not_fresh {g : Nat} {p : PageId} (h : Held m g p) (hg : m.state.generation ≤ g + 1) :
    ¬ Fresh m p := by
  rintro (hc | ⟨e, he, rfl, hreuse, -⟩)
  · exact absurd h.lt hc.not_gt
  · have hlate := h.free e he rfl
    simp only [TreeState.building] at hreuse
    omega

theorem Known.links_some (hk : Known m₀ m κ N) {page : TreePage} (hid : κ id = some b)
    (hpage : m.pager.page? id = some page) : isBranch page = b ∧ ∀ q ∈ links page, (κ q).isSome := by
  obtain ⟨page', hpage', hkind, hlinks⟩ := hk.page id b hid
  obtain rfl : page' = page := Option.some.inj (hpage'.symm.trans hpage)
  exact ⟨hkind, hlinks⟩

/-- The state has changed, but not the root or what is free of the generations before. -/
theorem Known.congr (hk : Known m₀ m κ N) {s : TreeState} (hgen : s.generation = m.state.generation)
    (hreaders : m.state.readers ⊆ s.readers) (hroot : (κ s.root).isSome)
    (hfree : s.free = m.state.free) : Known m₀ { m with state := s } κ N :=
  { hk with
    held := fun p hp => by
      obtain ⟨h₁, h₂, h₃⟩ := hk.held p hp
      refine ⟨h₁, h₂, fun e he => ?_⟩
      rw [hgen]
      exact h₃ e (hfree ▸ he)
    root := hroot
    freeNodup := by
      rw [hfree, hgen]
      exact hk.freeNodup
    freeRange := fun e he => by
      rw [hgen]
      exact hk.freeRange e (hfree ▸ he)
    generation := hgen.trans hk.generation
    readers := List.Subset.trans hk.readers hreaders
    freed := fun e he => hk.freed e (hfree ▸ he) }

theorem page?_grown {count : Nat} (hcount : m.pager.pageCount ≤ count) {p : PageId}
    (hp : p < m.pager.pageCount) :
    Pager.page? { m.pager with pageCount := count } p = m.pager.page? p := by
  rw [Pager.page?, Pager.page?, if_pos hp, if_pos (hp.trans_le hcount)]

section

variable (hk : Known m₀ m κ N)
include hk

/-- A page has been handed out: the file has grown, or an entry is off the free list. -/
theorem Known.handOut {p : PageId} (hfresh : Fresh m p) {count : Nat} {free : List FreeEntry}
    (hcount : m.pager.pageCount ≤ count) (hsub : free ⊆ m.state.free)
    (hnodup : ((free.filter fun e => e.generation ≤ m.state.generation).map FreeEntry.page).Nodup)
    (hstart : firstDataPage ≤ p) (hlt : p < count)
    (hgone : ∀ e ∈ free, e.page = p → m.state.generation < e.generation) :
    Known m₀ ⟨{ m.pager with pageCount := count }, { m.state with free }⟩ κ (insert p N) :=
  { hk with
    page := fun q b hq => by
      rw [page?_grown hcount (hk.held q (.inl (by rw [hq]; rfl))).lt]
      exact hk.page q b hq
    unwritten := fun q hq => by
      rcases hq with rfl | hq
      · by_contra hsome
        exact (hk.held _ (.inl (Option.isSome_iff_ne_none.2 hsome))).not_fresh (Nat.le_succ _) hfresh
      · exact hk.unwritten q hq
    held := fun q hq => by
      rcases or_left_comm.1 hq with rfl | hq
      · exact ⟨hstart, hlt, hgone⟩
      · obtain ⟨h₁, h₂, h₃⟩ := hk.held q hq
        exact ⟨h₁, h₂.trans_le hcount, fun e he => h₃ e (hsub he)⟩
    start := hk.start.trans hcount
    freeNodup := hnodup
    freeRange := fun e he hold =>
      (hk.freeRange e (hsub he) hold).imp_right fun hlt => hlt.trans_le hcount
    pageCount := hk.pageCount.trans hcount
    freed := fun e he => hk.freed e (hsub he) }

theorem Known.takeFree {p : PageId} {s : TreeState} (htake : m.state.takeFree = some (p, s)) :
    Known m₀ { m with state := s } κ (insert p N) := by
  obtain ⟨e, free, hperm, rfl, hreuse, rfl⟩ := takeFree_spec htake
  have he : e ∈ m.state.free := hperm.mem_iff.2 List.mem_cons_self
  have hold : e.generation ≤ m.state.generation := by
    have hlate := hreuse.1
    simp only [TreeState.building] at hlate
    omega
  -- What is free of the generations before has no repetitions, so the page is not on the list again.
  have hnodup := ((hperm.filter fun e => e.generation ≤ m.state.generation).map
    FreeEntry.page).nodup_iff.1 hk.freeNodup
  rw [List.filter_cons_of_pos (by simpa using hold), List.map_cons, List.nodup_cons] at hnodup
  obtain ⟨hstart, hlt⟩ := hk.freeRange e he hold
  refine hk.handOut (.inr ⟨e, he, rfl, hreuse⟩) le_rfl
    (fun f hf => hperm.mem_iff.2 (List.mem_cons_of_mem _ hf)) hnodup.2 hstart hlt fun f hf heq => ?_
  by_contra hlate
  exact hnodup.1 (heq ▸ List.mem_map_of_mem (List.mem_filter.2 ⟨hf, by simpa using hlate⟩))

theorem Known.grow :
    Known m₀ { m with pager := { m.pager with pageCount := m.pager.pageCount + 1 } } κ
      (insert m.pager.pageCount N) := by
  refine hk.handOut (.inl le_rfl) (Nat.le_succ _) (fun _ he => he) hk.freeNodup hk.start
    (Nat.lt_succ_self _) fun e he heq => ?_
  by_contra hlate
  exact absurd heq (hk.freeRange e he (not_lt.1 hlate)).2.ne

theorem Known.release (p : PageId) : Known m₀ (released m p) κ N := by
  unfold released TreeState.release
  split_ifs
  · exact hk
  have hmem : ∀ {e : FreeEntry}, e ∈ m.state.free ++ [⟨m.state.building, p⟩] →
      e ∈ m.state.free ∨ m.state.generation < e.generation := fun {e} he => by
    rcases List.mem_append.1 he with he | he
    · exact .inl he
    · rw [List.mem_singleton.1 he]
      exact .inr (Nat.lt_succ_self _)
  refine { hk with
    held := fun q hq => ?_
    freeNodup := ?_
    freeRange := fun e he hold => ?_
    freed := fun e he => ?_ }
  · obtain ⟨h₁, h₂, h₃⟩ := hk.held q hq
    exact ⟨h₁, h₂, fun e he heq => (hmem he).elim (fun he => h₃ e he heq) id⟩
  · have hnew : ¬ m.state.building ≤ m.state.generation := (Nat.lt_succ_self _).not_ge
    simpa [hnew] using hk.freeNodup
  · exact hk.freeRange e ((hmem he).resolve_right hold.not_gt) hold
  · exact (hmem he).elim (hk.freed e) fun hlate => .inr (hk.generation ▸ hlate)

/-- A known page, or one that has been handed out, is written: it is known from then on. -/
theorem Known.write {page : TreePage} (hid : κ id = some (isBranch page) ∨ id ∈ N)
    (hlinks : ∀ q ∈ links page, (κ q).isSome) :
    Extends κ (update κ id (some (isBranch page))) ∧
    Known m₀ (m.written id page) (update κ id (some (isBranch page))) (N \ {id}) := by
  have hext : Extends κ (update κ id (some (isBranch page))) := fun p b hp => by
    by_cases hpid : p = id
    · subst hpid
      rw [update_self]
      rcases hid with hid | hid
      · exact hid.symm.trans hp
      · exact absurd ((hk.unwritten p hid).symm.trans hp) (Option.some_ne_none b).symm
    · rwa [update_of_ne hpid]
  have hheld : Held m m.state.generation id :=
    hk.held id (hid.imp_left fun h => by rw [h]; rfl)
  have hcount : (m.written id page).pager.pageCount = m.pager.pageCount :=
    Pager.pageCount_write hheld.lt page
  refine ⟨hext, { hk with
    page := fun p b hp => ?_
    unwritten := fun p hp => ?_
    held := fun p hp => ?_
    root := hext.isSome hk.root
    start := hcount ▸ hk.start
    freeRange := hcount ▸ hk.freeRange
    pending := ?_
    pageCount := hcount ▸ hk.pageCount }⟩
  · rw [Machine.written, Pager.page?_write hheld.lt]
    by_cases hpid : p = id
    · subst hpid
      rw [update_self] at hp
      exact ⟨page, if_pos rfl, Option.some.inj hp, fun q hq => hext.isSome (hlinks q hq)⟩
    · rw [update_of_ne hpid] at hp
      obtain ⟨page', hpage', hkind, hlinks'⟩ := hk.page p b hp
      exact ⟨page', by rw [if_neg hpid, hpage'], hkind, fun q hq => hext.isSome (hlinks' q hq)⟩
  · rw [update_of_ne hp.2]
    exact hk.unwritten p hp.1
  · have hold : (κ p).isSome ∨ p ∈ N := by
      rcases hp with hp | hp
      · by_cases hpid : p = id
        · subst hpid
          exact hid.imp_left fun h => by rw [h]; rfl
        · rw [update_of_ne hpid] at hp
          exact .inl hp
      · exact .inr hp.1
    obtain ⟨h₁, h₂, h₃⟩ := hk.held p hold
    exact ⟨h₁, hcount ▸ h₂, h₃⟩
  · obtain ⟨ws, hws, hin⟩ := hk.pending
    refine ⟨(id, page) :: ws, congrArg _ hws, fun w hw => ?_⟩
    rcases List.mem_cons.1 hw with rfl | hw
    · rw [update_self]
      rfl
    · exact hext.isSome (hin w hw)

end

end Steps

/-! ## Reads -/

/-- The calls that read a page. -/
def Reads : PagerOp → Prop
  | .read _ => True
  | _ => False

section Reads

variable {α : Type} {m : Machine} {I : Machine → Prop} {Q : Except IoError α → Machine → Prop}

theorem always_reads {p : TreeProgram α} (hp : p.Calls Reads) (hI : I m) :
    p.Always Machine.act I (fun _ m' => m' = m) m :=
  hp.always (fun op hop => by cases op <;> first | rfl | exact hop.elim) hI

theorem always_withLock {p : TreeProgram α} (hI : I m) (hp : p.Always Machine.act I Q m) :
    (withLock p).Always Machine.act I Q m := by
  refine ⟨hI, (Program.Always.attempt (R := fun r m' => ∃ r', r = .ok r' ∧ Q r' m') hp
    fun r m' h => ⟨r, rfl, h⟩).bind (fun r m' hI' hr => ⟨hI', ?_⟩) fun e m' _ ⟨r', h, _⟩ => nomatch h⟩
  obtain ⟨r', h, hr⟩ := hr
  obtain rfl := Except.ok.inj h
  exact Program.always_ofExcept hI' hr

/-- A read through a snapshot leaves the tree as it was when the snapshot is dropped. -/
theorem always_withSnapshot {read : PageId → TreeProgram α} (hI : I m) (hI' : I (pinned m))
    (hread : (read m.state.root).Calls Reads) :
    (withSnapshot read).Always Machine.act I (fun _ m' => m' = m) m := by
  have hsnap : snapshot.Always Machine.act I
      (fun r m' => r = .ok ⟨m.state.generation, m.state.root⟩ ∧ m' = pinned m) m :=
    always_withLock hI ⟨hI, hI, hI', rfl, rfl⟩
  have hrelease : (releaseSnapshot m.state.generation).Always Machine.act I (fun _ m' => m' = m)
      (pinned m) := by
    have hback : ({ pinned m with state := { (pinned m).state with
        readers := (pinned m).state.readers.erase m.state.generation } } : Machine) = m := by
      simp [pinned]
    exact always_withLock hI' ⟨hI', hI', (congrArg I hback).mpr hI, hback⟩
  refine hsnap.bind ?_ fun e m' _ h => by cases h.1
  rintro _ _ - ⟨h, rfl⟩
  obtain rfl := Except.ok.inj h
  refine ((always_reads hread hI').attempt (R := fun r m' => (∃ r', r = .ok r') ∧ m' = pinned m)
    fun r _ h => ⟨⟨r, rfl⟩, h⟩).bind ?_ fun e m' _ h => by obtain ⟨⟨_, ⟨⟩⟩, -⟩ := h
  rintro r _ - ⟨-, rfl⟩
  refine hrelease.bind ?_ fun e m' _ h => h
  rintro - _ - rfl
  exact Program.always_ofExcept hI rfl

end Reads

/-! ## Programs that keep to known pages -/

/-- There are known pages at every call, and at the end more than those of `κ`, with `Q`. -/
def Tracked {α : Type} (m₀ : Machine) (κ : Kinds) (Q : α → Kinds → Set PageId → Prop)
    (p : TreeProgram α) (m : Machine) : Prop :=
  p.Always Machine.act (fun m' => ∃ κ' N', Known m₀ m' κ' N')
    (fun r m' => ∃ κ' N', Extends κ κ' ∧ Known m₀ m' κ' N' ∧ ∀ a, r = .ok a → Q a κ' N') m

section Tracked

variable {α β : Type} {m₀ m : Machine} {κ : Kinds} {N : Set PageId} {id : PageId} {b : Bool}
  {Q : α → Kinds → Set PageId → Prop} {R : β → Kinds → Set PageId → Prop}
  {p : TreeProgram α} {f : α → TreeProgram β}

theorem tracked_pure (hk : Known m₀ m κ N) {a : α} (hQ : Q a κ N) : Tracked m₀ κ Q (pure a) m :=
  ⟨⟨κ, N, hk⟩, κ, N, .refl κ, hk, fun _ h => Except.ok.inj h ▸ hQ⟩

theorem tracked_fail (hk : Known m₀ m κ N) {e : IoError} :
    Tracked m₀ κ Q (.fail e : TreeProgram α) m :=
  ⟨⟨κ, N, hk⟩, κ, N, .refl κ, hk, nofun⟩

theorem tracked_bind (hp : Tracked m₀ κ Q p m)
    (hf : ∀ a m' κ' N', Extends κ κ' → Known m₀ m' κ' N' → Q a κ' N' → Tracked m₀ κ' R (f a) m') :
    Tracked m₀ κ R (p >>= f) m := by
  refine Program.Always.bind hp (fun a m' _ hQ => ?_) fun e m' _ hQ => ?_
  · obtain ⟨κ', N', hext, hk, hQ⟩ := hQ
    refine (hf a m' κ' N' hext hk (hQ a rfl)).mono fun r m'' _ hR => ?_
    obtain ⟨κ'', N'', hext', hR⟩ := hR
    exact ⟨κ'', N'', hext.trans hext', hR⟩
  · obtain ⟨κ', N', hext, hk, -⟩ := hQ
    exact ⟨κ', N', hext, hk, nofun⟩

theorem tracked_read {f : TreePage → TreeProgram β} (hk : Known m₀ m κ N) (hid : κ id = some b)
    (hf : ∀ page, isBranch page = b → (∀ q ∈ links page, (κ q).isSome) → Tracked m₀ κ R (f page) m) :
    Tracked m₀ κ R (readPage id >>= f) m := by
  obtain ⟨page, hpage, hkind, hlinks⟩ := hk.page id b hid
  refine ⟨⟨κ, N, hk⟩, ?_⟩
  change Program.Always _ _ _ (Program.ofExcept (m.pager.read id) >>= f) m
  rw [Pager.read_eq_ok.2 hpage]
  exact hf page hkind hlinks

theorem tracked_state {f : TreeState → TreeProgram β} (hk : Known m₀ m κ N)
    (hf : Tracked m₀ κ R (f m.state) m) : Tracked m₀ κ R (perform .state >>= f) m :=
  ⟨⟨κ, N, hk⟩, hf⟩

theorem tracked_modify {f : Unit → TreeProgram β} {g : TreeState → TreeState}
    (hk : Known m₀ m κ N) (hf : Tracked m₀ κ R (f ()) { m with state := g m.state }) :
    Tracked m₀ κ R (modifyState g >>= f) m :=
  ⟨⟨κ, N, hk⟩, ⟨κ, N, hk⟩, hf⟩

section

variable (hk : Known m₀ m κ N)
include hk

theorem Known.markDirty (p : PageId) : Known m₀ { m with state := m.state.markDirty p } κ N :=
  hk.congr rfl (List.Subset.refl _) hk.root rfl

theorem tracked_allocate {f : PageId → TreeProgram β}
    (hf : ∀ p m', Known m₀ m' κ (insert p N) → Tracked m₀ κ R (f p) m') :
    Tracked m₀ κ R (allocate >>= f) m := by
  refine ⟨⟨κ, N, hk⟩, ?_⟩
  dsimp only [Machine.act, Program.bind]
  rcases htake : m.state.takeFree with _ | r
  · exact ⟨⟨κ, N, hk⟩, hf _ _ hk.grow⟩
  · exact ⟨⟨κ, N, hk⟩, hf r.1 _ (hk.takeFree htake)⟩

theorem tracked_write {f : Unit → TreeProgram β} {page : TreePage}
    (hid : κ id = some (isBranch page) ∨ id ∈ N) (hlinks : ∀ q ∈ links page, (κ q).isSome)
    (hf : ∀ κ', Extends κ κ' → κ' id = some (isBranch page) →
      Known m₀ (m.written id page) κ' (N \ {id}) → Tracked m₀ κ' R (f ()) (m.written id page)) :
    Tracked m₀ κ R (writePage id page >>= f) m := by
  obtain ⟨hext, hk'⟩ := hk.write hid hlinks
  refine ⟨⟨κ, N, hk⟩, (hf _ hext (update_self ..) hk').mono fun r m' _ hR => ?_⟩
  obtain ⟨κ', N', hext', hR⟩ := hR
  exact ⟨κ', N', hext.trans hext', hR⟩

theorem tracked_withLock (hp : Tracked m₀ κ Q p m) :
    Tracked m₀ κ Q (withLock p) m := always_withLock ⟨κ, N, hk⟩ hp

theorem tracked_cow (hid : κ id = some b) :
    Tracked m₀ κ (fun r κ' N' => (κ' r.1 = some b ∨ r.1 ∈ N') ∧ isBranch r.2 = b ∧
      ∀ q ∈ links r.2, (κ' q).isSome) (cow id) m := by
  refine tracked_read hk hid fun page hkind hlinks => tracked_state hk ?_
  split_ifs
  · exact tracked_pure hk ⟨.inl hid, hkind, hlinks⟩
  · refine tracked_allocate hk fun fresh m' hk' => tracked_modify hk' ?_
    have hk' := hk'.markDirty fresh
    refine tracked_modify hk' (tracked_pure (hk'.release id) ⟨.inr ?_, hkind, hlinks⟩)
    exact Set.mem_insert _ _

end

/-! ## Putting -/

/-- The pages that an insert hands up. -/
def Insert.pages : Insert → List PageId
  | .kept page => [page]
  | .split left _ right => [left, right]

abbrev InsertKnown (out : Insert) (κ : Kinds) (_ : Set PageId) : Prop :=
  ∀ p ∈ out.pages, (κ p).isSome

theorem isSome_of_eq {κ : Kinds} {p : PageId} {b : Bool} (h : κ p = some b) : (κ p).isSome :=
  h ▸ rfl

/-- Cutting a page: the upper half is written to a page that has been handed out. -/
theorem tracked_cut {left right : TreePage} {separator : Bytes} (hk : Known m₀ m κ N)
    (hid : κ id = some (isBranch left) ∨ id ∈ N) (hkind : isBranch left = isBranch right)
    (hleft : ∀ q ∈ links left, (κ q).isSome) (hright : ∀ q ∈ links right, (κ q).isSome) :
    Tracked m₀ κ InsertKnown (do
      let rightId ← allocate
      markDirty rightId
      writePage id left
      writePage rightId right
      return .split id separator rightId) m := by
  refine tracked_allocate hk fun rightId m' hk' => tracked_modify hk' ?_
  refine tracked_write (hk'.markDirty rightId) (hid.imp_right (Set.mem_insert_of_mem _)) hleft
    fun κ₁ hext₁ hid₁ hk₁ => ?_
  have hrightId : κ₁ rightId = some (isBranch right) ∨ rightId ∈ insert rightId N \ {id} := by
    by_cases heq : rightId = id
    · exact .inl (heq ▸ hkind ▸ hid₁)
    · exact .inr ⟨Set.mem_insert _ _, heq⟩
  refine tracked_write hk₁ hrightId (fun q hq => hext₁.isSome (hright q hq))
    fun κ₂ hext₂ hright₂ hk₂ => tracked_pure hk₂ fun p hp => ?_
  rcases List.mem_pair.1 hp with rfl | rfl
  · exact hext₂.isSome (isSome_of_eq hid₁)
  · exact isSome_of_eq hright₂

theorem tracked_rebuild {len : α → Nat} {cells : List α} {f : List α → TreeProgram β}
    (hk : Known m₀ m κ N) (hf : ∀ built, (∀ c ∈ built, c ∈ cells) → Tracked m₀ κ R (f built) m) :
    Tracked m₀ κ R (rebuild len cells >>= f) m := by
  unfold rebuild
  rcases hbuild : Page.buildPage len cells with _ | built
  · exact tracked_fail hk
  · exact hf built fun c hc => Page.mem_buildPage hbuild hc

theorem tracked_splitLeaf (hk : Known m₀ m κ N) (hid : κ id = some false ∨ id ∈ N)
    (cells : List LeafCell) : Tracked m₀ κ InsertKnown (splitLeaf id cells) m := by
  unfold splitLeaf
  split
  · exact tracked_fail hk
  · refine tracked_rebuild hk fun left _ => tracked_rebuild hk fun right _ => ?_
    exact tracked_cut hk hid rfl nofun nofun

theorem tracked_insertIntoLeaf (hk : Known m₀ m κ N) (hid : κ id = some false) (key value : Bytes) :
    Tracked m₀ κ InsertKnown (insertIntoLeaf id key value) m := by
  refine tracked_bind (tracked_cow hk hid) ?_
  rintro ⟨id', page⟩ m' κ' N' - hk' ⟨hid', -⟩
  have hwrite (cells : List LeafCell) : Tracked m₀ κ' InsertKnown (do
      writePage id' (.leaf cells)
      return .kept id') m' :=
    tracked_write hk' hid' nofun fun κ₁ _ hid₁ hk₁ => tracked_pure hk₁ fun p hp =>
      List.mem_singleton.1 hp ▸ isSome_of_eq hid₁
  dsimp only
  split <;> split
  · exact hwrite _
  · exact tracked_splitLeaf hk' hid' _
  · exact hwrite _
  · exact tracked_splitLeaf hk' hid' _

theorem exists_branch {page : TreePage} (h : isBranch page = true) :
    ∃ extra cells, page = .branch extra cells := by
  cases page with
  | branch extra cells => exact ⟨extra, cells, rfl⟩
  | leaf cells | metaPage record => cases h

section Children

variable {extra child : PageId} {cells : List BranchCell} {slot : Nat} {P : PageId → Prop}

theorem forall_children :
    (∀ q ∈ children extra cells, P q) ↔ P extra ∧ ∀ c ∈ cells, P c.child := by
  rw [children, List.forall_mem_cons, List.forall_mem_map]

theorem forall_setBranchChild (h : ∀ q ∈ children extra cells, P q) (hchild : P child) :
    ∀ q ∈ children (setBranchChild extra cells slot child).1 (setBranchChild extra cells slot child).2,
      P q := by
  obtain ⟨hextra, hcells⟩ := forall_children.1 h
  unfold setBranchChild
  split_ifs
  · exact forall_children.2 ⟨hchild, hcells⟩
  split
  · exact h
  refine forall_children.2 ⟨hextra, fun c hc => ?_⟩
  rcases Page.mem_replaceCell hc with rfl | hc
  · exact hchild
  · exact hcells c hc

theorem forall_dropChild (h : ∀ q ∈ children extra cells, P q) (hcells : ¬ (slot = 0 ∧ cells = [])) :
    ∀ q ∈ children (dropChild extra cells slot).1 (dropChild extra cells slot).2, P q := by
  obtain ⟨hextra, hold⟩ := forall_children.1 h
  unfold dropChild
  split_ifs with hslot
  · refine forall_children.2 ⟨h _ ?_, fun c hc => hold c (Page.mem_removeCell hc)⟩
    exact branchChildAt_mem_children 1 (List.length_pos_iff.2 fun hnil => hcells ⟨hslot, hnil⟩)
  · exact forall_children.2 ⟨hextra, fun c hc => hold c (Page.mem_removeCell hc)⟩

end Children

section

variable (hk : Known m₀ m κ N)
include hk

theorem tracked_splitBranch {extra : PageId} {cells : List BranchCell}
    (hid : κ id = some true ∨ id ∈ N) (hlinks : ∀ q ∈ children extra cells, (κ q).isSome) :
    Tracked m₀ κ InsertKnown (splitBranch id extra cells) m := by
  obtain ⟨hextra, hcell⟩ := forall_children.1 hlinks
  unfold splitBranch
  rcases hpoint : Page.splitPoint BranchCell.len cells with _ | point
  · exact tracked_fail hk
  refine tracked_rebuild hk fun left hleft => tracked_rebuild hk fun right hright =>
    tracked_cut hk hid rfl
      (forall_children.2 ⟨hextra, fun c hc => hcell c (List.mem_of_mem_take (hleft c hc))⟩)
      (forall_children.2 ⟨?_, fun c hc => hcell c (List.mem_of_mem_drop (hright c hc))⟩)
  -- The child of the separator that moves up; the cut lies within the cells.
  have hlt := (Page.splitPoint_eq_some hpoint).2.1
  rw [List.getElem?_eq_getElem hlt]
  exact hcell _ (List.getElem_mem hlt)

theorem tracked_writeBranch {extra : PageId} {cells : List BranchCell}
    (hid : κ id = some true ∨ id ∈ N) (hlinks : ∀ q ∈ children extra cells, (κ q).isSome) {a : α}
    (hQ : ∀ κ' N', (κ' id).isSome → Q a κ' N') : Tracked m₀ κ Q (do
      writePage id (.branch extra cells)
      return a) m :=
  tracked_write hk hid hlinks fun _ _ hid₁ hk₁ => tracked_pure hk₁ (hQ _ _ (isSome_of_eq hid₁))

theorem tracked_replaceChild {slot : Nat} {child : PageId} {out : Insert} (hid : κ id = some true)
    (hout : ∀ p ∈ out.pages, (κ p).isSome) :
    Tracked m₀ κ InsertKnown (replaceChild id slot child out) m := by
  have hkept : ∀ id' κ' (N' : Set PageId), (κ' id').isSome → InsertKnown (.kept id') κ' N' :=
    fun id' κ' _ hid' p hp => List.mem_singleton.1 hp ▸ hid'
  cases out with
  | kept newChild =>
    rw [replaceChild]
    split_ifs
    · exact tracked_pure hk (hkept _ _ _ (isSome_of_eq hid))
    refine tracked_bind (tracked_cow hk hid) ?_
    rintro ⟨id', page⟩ m' κ' N' hext hk' ⟨hid', hkind, hlinks⟩
    obtain ⟨extra, cells, rfl⟩ := exists_branch hkind
    exact tracked_writeBranch hk' hid'
      (forall_setBranchChild hlinks (hext.isSome (hout _ List.mem_cons_self))) (hkept id')
  | split left separator right =>
    refine tracked_bind (tracked_cow hk hid) ?_
    rintro ⟨id', page⟩ m' κ' N' hext hk' ⟨hid', hkind, hlinks⟩
    obtain ⟨extra, cells, rfl⟩ := exists_branch hkind
    have hright : (κ' right).isSome := hext.isSome (hout _ (List.mem_cons_of_mem _ List.mem_cons_self))
    obtain ⟨hextra, hcells⟩ := forall_children.1 (@forall_setBranchChild extra left cells slot _ hlinks
      (hext.isSome (hout _ List.mem_cons_self)))
    dsimp only
    split_ifs
    · refine tracked_writeBranch hk' hid' (forall_children.2 ⟨hextra, fun c hc => ?_⟩) (hkept id')
      cases hins : Page.insertCell BranchCell.len (setBranchChild extra cells slot left).2 slot
          ⟨separator, right⟩ with
      | none =>
        rw [hins] at hc
        exact hcells c hc
      | some cells' =>
        rw [hins] at hc
        rcases Page.mem_insertCell hins hc with rfl | hc
        · exact hright
        · exact hcells c hc
    · refine tracked_splitBranch hk' hid' (forall_children.2 ⟨hextra, List.forall_mem_append.2 ⟨?_,
        List.forall_mem_cons.2 ⟨hright, ?_⟩⟩⟩)
      · exact fun c hc => hcells c (List.mem_of_mem_take hc)
      · exact fun c hc => hcells c (List.mem_of_mem_drop hc)

theorem tracked_insertInto (hid : (κ id).isSome) (key value : Bytes) (levels : Nat) :
    Tracked m₀ κ InsertKnown (insertInto key value levels id) m := by
  induction levels generalizing id m κ N with
  | zero => exact tracked_fail hk
  | succ levels ih =>
    obtain ⟨b, hb⟩ := Option.isSome_iff_exists.1 hid
    refine tracked_read hk hb fun page hkind _ => ?_
    cases page with
    | leaf cells => exact tracked_insertIntoLeaf hk (hb.trans (congrArg some hkind.symm)) key value
    | branch extra cells =>
      have htrue : κ id = some true := hb.trans (congrArg some hkind.symm)
      refine tracked_read hk htrue fun page hkind hlinks => ?_
      obtain ⟨extra, cells, rfl⟩ := exists_branch hkind
      refine tracked_bind (ih hk (hlinks _ child_mem_children)) fun out m' κ' N' hext hk' hout => ?_
      exact tracked_replaceChild hk' (hext _ _ htrue) hout
    | metaPage record => exact tracked_fail hk

theorem Known.rooted {root : PageId} (hroot : (κ root).isSome) (entries : Nat) :
    Known m₀ { m with state := { m.state with root, entries } } κ N :=
  hk.congr rfl (List.Subset.refl _) hroot rfl

theorem tracked_installRoot {out : Insert} (hout : ∀ p ∈ out.pages, (κ p).isSome) :
    Tracked m₀ κ (fun _ _ _ => True) (installRoot out) m := by
  cases out with
  | kept page =>
    exact tracked_modify (f := fun _ => pure ()) hk
      (tracked_pure (hk.rooted (hout page List.mem_cons_self) _) trivial)
  | split left separator right =>
    rw [installRoot]
    rcases hins : Page.insertCell BranchCell.len [] 0 ⟨separator, right⟩ with _ | cells
    · exact tracked_fail hk
    refine tracked_allocate hk fun id m' hk' => tracked_modify hk' ?_
    refine tracked_write (hk'.markDirty id) (.inr (Set.mem_insert _ _))
      (forall_children.2 ⟨hout _ List.mem_cons_self, fun c hc => ?_⟩) fun κ₁ _ hid₁ hk₁ => ?_
    · rcases Page.mem_insertCell hins hc with rfl | hc
      · exact hout _ (List.mem_cons_of_mem _ List.mem_cons_self)
      · cases hc
    · exact tracked_modify (f := fun _ => pure ()) hk₁
        (tracked_pure (hk₁.rooted (isSome_of_eq hid₁) _) trivial)

theorem tracked_put (key value : Bytes) : Tracked m₀ κ (fun _ _ _ => True) (put key value) m := by
  have hpinned : Known m₀ (pinned m) κ N :=
    hk.congr rfl (List.subset_cons_self _ _) hk.root rfl
  unfold put
  split_ifs
  · exact tracked_fail hk
  · exact tracked_fail hk
  have hget : (get key).Always Machine.act (fun m' => ∃ κ' N', Known m₀ m' κ' N')
      (fun _ m' => m' = m) m :=
    always_withSnapshot ⟨κ, N, hk⟩ ⟨κ, N, hpinned⟩ (getAt_meets (fun _ => trivial) _ key)
  refine hget.bind ?_ ?_
  · rintro existed _ - rfl
    refine tracked_withLock hk (tracked_state hk ?_)
    refine tracked_bind (tracked_insertInto hk hk.root key value _) fun out m' κ' N' _ hk' hout => ?_
    refine tracked_bind (tracked_installRoot hk' hout) fun _ m'' κ'' N'' _ hk'' _ => ?_
    split_ifs
    · exact tracked_pure hk'' trivial
    · exact tracked_modify (f := fun _ => pure ()) hk'' (tracked_pure (hk''.rooted hk''.root _) trivial)
  · rintro e _ - rfl
    exact ⟨κ, N, .refl κ, hk, nofun⟩

end

/-! ## Removing -/

abbrev RemovalKnown (out : Removal) (κ : Kinds) (_ : Set PageId) : Prop := (κ out.page).isSome

theorem tracked_updateChild {slot : Nat} {out : Removal} (hk : Known m₀ m κ N)
    (hid : κ id = some true) (hout : (κ out.page).isSome) :
    Tracked m₀ κ RemovalKnown (updateChild id slot out) m := by
  refine tracked_bind (tracked_cow hk hid) ?_
  rintro ⟨id', page⟩ m' κ' N' hext hk' ⟨hid', hkind, hlinks⟩
  obtain ⟨extra, cells, rfl⟩ := exists_branch hkind
  dsimp only
  split_ifs with hempty honly
  · exact tracked_modify hk' (tracked_writeBranch (hk'.release out.page) hid' hlinks fun _ _ h => h)
  · exact tracked_modify hk' (tracked_writeBranch (hk'.release out.page) hid'
      (forall_dropChild hlinks honly) fun _ _ h => h)
  · exact tracked_writeBranch hk' hid' (forall_setBranchChild hlinks (hext.isSome hout))
      fun _ _ h => h

theorem tracked_removeFrom (hk : Known m₀ m κ N) (hid : (κ id).isSome) (key : Bytes) (levels : Nat) :
    Tracked m₀ κ RemovalKnown (removeFrom key levels id) m := by
  induction levels generalizing id m κ N with
  | zero => exact tracked_fail hk
  | succ levels ih =>
    obtain ⟨b, hb⟩ := Option.isSome_iff_exists.1 hid
    refine tracked_read hk hb fun page hkind hlinks => ?_
    cases page with
    | leaf cells =>
      have hfalse : κ id = some false := hb.trans (congrArg some hkind.symm)
      dsimp only
      split
      · exact tracked_pure hk hid
      · refine tracked_bind (tracked_cow hk hfalse) ?_
        rintro ⟨id', page⟩ m' κ' N' - hk' ⟨hid', -⟩
        exact tracked_write hk' hid' nofun fun κ₁ _ hid₁ hk₁ =>
          tracked_pure hk₁ (isSome_of_eq hid₁)
    | branch extra cells =>
      have htrue : κ id = some true := hb.trans (congrArg some hkind.symm)
      refine tracked_bind (ih hk (hlinks _ child_mem_children)) fun out m' κ' N' hext hk' hout => ?_
      split_ifs
      · exact tracked_updateChild hk' (hext _ _ htrue) hout
      · exact tracked_pure hk' (hext.isSome hid)
    | metaPage record => exact tracked_fail hk

theorem tracked_collapseRoot (hk : Known m₀ m κ N) (turns : Nat) :
    Tracked m₀ κ (fun _ _ _ => True) (collapseRoot turns) m := by
  induction turns generalizing m κ N with
  | zero => exact tracked_pure hk trivial
  | succ turns ih =>
    obtain ⟨b, hb⟩ := Option.isSome_iff_exists.1 hk.root
    refine tracked_state hk (tracked_read hk hb fun page _ hlinks => ?_)
    split
    · have hk' := hk.release m.state.root
      have hk'' := hk'.rooted (hlinks _ List.mem_cons_self)
        (released m m.state.root).state.entries
      exact tracked_modify hk (tracked_modify hk' (ih hk''))
    · exact tracked_pure hk trivial

theorem tracked_remove (hk : Known m₀ m κ N) (key : Bytes) :
    Tracked m₀ κ (fun _ _ _ => True) (remove key) m := by
  refine tracked_withLock hk (tracked_state hk ?_)
  refine tracked_bind (tracked_removeFrom hk hk.root key _) fun out m' κ' N' _ hk' hout => ?_
  split_ifs
  · refine tracked_modify hk' ?_
    refine tracked_bind (tracked_collapseRoot (hk'.rooted hout _) _) fun _ m'' κ'' N'' _ hk'' _ => ?_
    exact tracked_pure hk'' trivial
  · exact tracked_pure hk' trivial

end Tracked

end BTree

end FacetQL
