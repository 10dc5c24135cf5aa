import FacetQL.Storage.RecoveryCrash

/-!
# A torn page of the heap

Records are appended to the last page of the active segment, which is rewritten in place, or to
pages that are new (`append_cell_to`, `grow`, `roll` and `append_overflow` of `storage/heap.rs`).
The catalog says how many pages a segment has, and is saved when the heap is flushed. A crash in the
middle of a write-back leaves a page that does not decrypt. Every record with its cell or a page of
its chain there is lost, and no append succeeds while it is the last page.

* `torn_page_spared`: when the records below the checkpoint can still be read.
-/

namespace FacetQL

open Relation Function

/-! ## Where records go -/

/-- The pages a segment holds before the next append rolls to a fresh one. -/
def RecordHeap.maxPagesPerSegment : Nat := 4096

/-- The catalog, as far as appends use it. -/
structure Catalog where
  /-- How many pages each segment has. -/
  pages : Nat → Nat
  active : Nat
  next : Nat

namespace Catalog

/-- A new database. -/
def empty : Catalog := ⟨fun _ => 0, 0, 1⟩

/-- A segment has this many pages. -/
def setPages (c : Catalog) (segment pages : Nat) : Catalog :=
  { c with pages := update c.pages segment pages }

/-- Make a fresh segment active, when the active one is full. -/
def rollIfFull (c : Catalog) : Catalog :=
  if RecordHeap.maxPagesPerSegment ≤ c.pages c.active then
    { pages := update c.pages c.next 0, active := c.next, next := c.next + 1 }
  else c

/-- The last page of the active segment. -/
def lastPage (c : Catalog) : Option (Nat × Nat) :=
  if c.pages c.active = 0 then none else some (c.active, c.pages c.active - 1)

/-- Where an append puts a record and the pages of its chain. -/
inductive Append (c : Catalog) : RecordLocation → List Nat → Catalog → Prop
  /-- There is room on the last page. -/
  | last {page slot : Nat} (hpage : c.pages c.active = page + 1) :
      Append c ⟨c.active, page, slot⟩ [] c
  /-- New pages: those of the chain, if the record needs one, and the one that has the cell. -/
  | grow (chunks : Nat) {r : Catalog} (hr : c.rollIfFull = r) :
      Append c ⟨r.active, r.pages r.active + chunks, 0⟩ (List.range' (r.pages r.active) chunks)
        (r.setPages r.active (r.pages r.active + chunks + 1))

/-- The segments that have not been used have no pages, and the active one is no such segment. -/
structure Valid (c : Catalog) : Prop where
  unused : ∀ segment, c.next ≤ segment → c.pages segment = 0
  active : c.active < c.next

variable {c c' : Catalog} {location : RecordLocation} {chain : List Nat}

theorem valid_empty : Valid .empty := ⟨fun _ _ => rfl, Nat.one_pos⟩

theorem Valid.rollIfFull (h : c.Valid) : c.rollIfFull.Valid ∧ c.rollIfFull.pages = c.pages := by
  rw [Catalog.rollIfFull]
  split
  · have hsame : update c.pages c.next 0 = c.pages := by
      rw [update_eq_self_iff, h.unused _ le_rfl]
    refine ⟨⟨fun segment hle => ?_, Nat.lt_succ_self _⟩, hsame⟩
    change update c.pages c.next 0 segment = 0
    rw [hsame]
    exact h.unused segment ((Nat.le_succ _).trans hle)
  · exact ⟨h, rfl⟩

theorem Valid.setPages (h : c.Valid) {segment : Nat} (hsegment : segment < c.next) (pages : Nat) :
    (c.setPages segment pages).Valid := by
  refine ⟨fun other hle => ?_, h.active⟩
  change update c.pages segment pages other = 0
  rw [update_of_ne (hsegment.trans_le hle).ne']
  exact h.unused other hle

/-- A segment is dropped. -/
theorem Valid.dropped (h : c.Valid) (segment : Nat) : (c.setPages segment 0).Valid := by
  refine ⟨fun other hle => ?_, h.active⟩
  change update c.pages segment 0 other = 0
  rw [update_apply, h.unused other hle, ite_self]

/-- An append puts the record on new pages, or on the last one. -/
theorem Append.spec (h : c.Append location chain c') (hvalid : c.Valid) :
    c'.Valid ∧ (∀ segment, c.pages segment ≤ c'.pages segment) ∧
    (∀ page ∈ location.page :: chain, page < c'.pages location.segment) ∧
    ∀ segment page, c.pages segment ≤ page → page < c'.pages segment →
      segment = location.segment ∧ page ∈ location.page :: chain := by
  cases h with
  | last hpage =>
    refine ⟨hvalid, fun _ => le_rfl, fun page hmem => ?_, fun segment page hle hlt => ?_⟩
    · obtain rfl := List.mem_singleton.1 hmem
      exact hpage ▸ Nat.lt_succ_self _
    · exact absurd hlt hle.not_gt
  | @grow chunks r hr =>
    obtain ⟨hrvalid, hpages⟩ := hvalid.rollIfFull
    rw [hr] at hrvalid hpages
    refine ⟨hrvalid.setPages hrvalid.active _, fun segment => ?_, fun page hmem => ?_,
      fun segment page hle hlt => ?_⟩
    · rw [← hpages, Catalog.setPages]
      dsimp only
      rw [update_apply]
      split_ifs with heq
      · rw [heq]
        omega
      · exact le_rfl
    · change page < update r.pages r.active _ r.active
      rw [update_self]
      rcases List.mem_cons.1 hmem with rfl | hmem
      · exact Nat.lt_succ_self _
      · have := (List.mem_range'_1.1 hmem).2
        omega
    · rw [← hpages] at hle
      change page < update r.pages r.active _ segment at hlt
      rw [update_apply] at hlt
      split_ifs at hlt with heq
      · subst heq
        refine ⟨rfl, List.mem_cons.2 ?_⟩
        rw [List.mem_range'_1]
        change page = r.pages r.active + chunks ∨ _
        omega
      · exact absurd hlt hle.not_gt

end Catalog

/-! ## The engine and its pages -/

/-- The engine, with what is known of the files of its heap. -/
structure PagedEngine extends Engine where
  catalog : Catalog
  /-- The catalog on disk. -/
  saved : Catalog
  /-- The pages of the chain of the record at a location. -/
  chain : RecordLocation → List Nat
  /-- The pages that do not decrypt. -/
  torn : List (Nat × Nat)

namespace PagedEngine

open Engine

/-- A new database. -/
def empty : PagedEngine := ⟨.empty, .empty, .empty, fun _ => [], []⟩

/-- The pages that a record occupies. -/
def pagesAt (location : RecordLocation) (chain : List Nat) : List (Nat × Nat) :=
  (location.page :: chain).map (Prod.mk location.segment)

/-- The pages of a stored record. -/
def pagesOf (p : PagedEngine) (location : RecordLocation) : List (Nat × Nat) :=
  pagesAt location (p.chain location)

/-- The steps `R` of the engine, and what they do to the files. -/
inductive PagedStep (R : Engine → Engine → Prop) : PagedEngine → PagedEngine → Prop
  | quiet {p : PagedEngine} {e' : Engine} (h : R p.toEngine e')
      (hmem : e'.mem.heap = p.mem.heap) (hdisk : e'.disk.heap = p.disk.heap) :
      PagedStep R p { p with toEngine := e' }
  /-- A record is appended. Unless it has a chain, the last page of the segment is read first. -/
  | append {p : PagedEngine} {e' : Engine} (h : R p.toEngine e') {location : RecordLocation}
      {record : HeapRecord} (hfree : p.mem.heap location = none)
      (hmem : e'.mem.heap = update p.mem.heap location (some record))
      (hdisk : e'.disk.heap = p.disk.heap) {chain : List Nat} {catalog : Catalog}
      (happend : p.catalog.Append location chain catalog)
      (hread : chain = [] → ∀ page ∈ p.catalog.lastPage, page ∉ p.torn) :
      PagedStep R p { p with
        toEngine := e'
        catalog := catalog
        chain := update p.chain location chain
        torn := p.torn.filter (· ∉ pagesAt location chain) }
  /-- The heap is flushed, and its catalog saved. -/
  | flush {p : PagedEngine} {e' : Engine} (h : R p.toEngine e')
      (hmem : e'.mem.heap = p.mem.heap) (hdisk : e'.disk.heap = p.mem.heap) :
      PagedStep R p { p with toEngine := e', saved := p.catalog }
  | drop {p : PagedEngine} {segment : Nat} (h : R p.toEngine (p.dropSegment segment)) :
      PagedStep R p { p with
        toEngine := p.dropSegment segment
        catalog := p.catalog.setPages segment 0
        saved := p.catalog.setPages segment 0 }

/-- What one thread does until the process ends. -/
abbrev Works (e e' : Engine) : Prop := WriteStep e e' ∨ RecoveryStep e e'

/-- A crash, perhaps while a page is written: what is flushed survives unless it is on that
    page, and what the saved catalog lacks is not read again. -/
inductive PagedCrash (torn : Option (Nat × Nat)) : PagedEngine → PagedEngine → Prop
  | mk {p : PagedEngine} {keep : Nat} (hkeep : p.LogSurvives keep) {heap : Heap}
      (hle : Storage.HeapLe heap p.mem.heap)
      (hkept : ∀ location record, p.disk.heap location = some record →
        (∀ page ∈ torn, page ∉ p.pagesOf location) → heap location = some record)
      (hwhole : ∀ location record, heap location = some record → ∀ page ∈ p.pagesOf location,
        page.2 < p.saved.pages page.1 ∧ torn ≠ some page) :
      PagedCrash torn p { p with
        toEngine := p.crash keep heap
        catalog := p.saved
        torn := torn.toList ++ p.torn }

/-- The page that is torn, if there is one, was added since the heap was last flushed. -/
def Spared (p : PagedEngine) (torn : Option (Nat × Nat)) : Prop :=
  ∀ page ∈ torn, p.saved.pages page.1 ≤ page.2

/-- A step, or a crash that tears no page but a new one. -/
inductive SparingStep : PagedEngine → PagedEngine → Prop
  | step {p p' : PagedEngine} (h : PagedStep Works p p') : SparingStep p p'
  | crash {p p' : PagedEngine} {torn : Option (Nat × Nat)} (h : PagedCrash torn p p')
      (hspared : p.Spared torn) : SparingStep p p'

/-- Which pages there are, in memory and on disk. -/
structure Inv (p : PagedEngine) : Prop where
  catalog : p.catalog.Valid
  saved : p.saved.Valid
  le : ∀ segment, p.saved.pages segment ≤ p.catalog.pages segment
  within : ∀ location record, p.mem.heap location = some record → ∀ page ∈ p.pagesOf location,
    page.2 < p.catalog.pages page.1
  flushed : ∀ location record, p.disk.heap location = some record → ∀ page ∈ p.pagesOf location,
    page.2 < p.saved.pages page.1
  torn : ∀ page ∈ p.torn, p.catalog.pages page.1 ≤ page.2

variable {p p' : PagedEngine} {R : Engine → Engine → Prop} {torn : Option (Nat × Nat)}

theorem inv_empty : PagedEngine.empty.Inv where
  catalog := Catalog.valid_empty
  saved := Catalog.valid_empty
  le _ := le_rfl
  within := nofun
  flushed := nofun
  torn := nofun

theorem Inv.append (h : p.Inv) (hheap : Storage.HeapLe p.disk.heap p.mem.heap) {e' : Engine}
    {location : RecordLocation} {record : HeapRecord} (hfree : p.mem.heap location = none)
    (hmem : e'.mem.heap = update p.mem.heap location (some record))
    (hdisk : e'.disk.heap = p.disk.heap) {chain : List Nat} {catalog : Catalog}
    (happend : p.catalog.Append location chain catalog) :
    Inv { p with
      toEngine := e'
      catalog := catalog
      chain := update p.chain location chain
      torn := p.torn.filter (· ∉ pagesAt location chain) } := by
  obtain ⟨hvalid, hmono, hwithin, hnew⟩ := happend.spec h.catalog
  have hpages (other : RecordLocation) (hne : other ≠ location) :
      pagesAt other (update p.chain location chain other) = p.pagesOf other := by
    rw [pagesOf, update_of_ne hne]
  refine ⟨hvalid, h.saved, fun segment => (h.le segment).trans (hmono segment),
    fun other found hfound page hpage => ?_, fun other found hfound page hpage => ?_,
    fun page hpage => ?_⟩
  · by_cases hne : other = location
    · subst hne
      change page ∈ pagesAt other (update p.chain other chain other) at hpage
      rw [update_self] at hpage
      obtain ⟨number, hnumber, rfl⟩ := List.mem_map.1 hpage
      exact hwithin number hnumber
    · change e'.mem.heap other = _ at hfound
      rw [hmem, update_of_ne hne] at hfound
      change page ∈ pagesAt other (update p.chain location chain other) at hpage
      rw [hpages other hne] at hpage
      exact (h.within other found hfound page hpage).trans_le (hmono _)
  · change e'.disk.heap other = _ at hfound
    rw [hdisk] at hfound
    have hne : other ≠ location := by
      rintro rfl
      rw [hheap other found hfound] at hfree
      cases hfree
    change page ∈ pagesAt other (update p.chain location chain other) at hpage
    rw [hpages other hne] at hpage
    exact h.flushed other found hfound page hpage
  · obtain ⟨hold, hwritten⟩ := List.mem_filter.1 hpage
    by_contra hlt
    -- A page that has come within the catalog has just been written.
    obtain ⟨hsegment, hmem⟩ := hnew page.1 page.2 (h.torn page hold) (not_le.1 hlt)
    refine of_decide_eq_true hwritten (List.mem_map.2 ⟨page.2, hmem, ?_⟩)
    rw [← hsegment]

theorem Inv.drop (h : p.Inv) (segment : Nat) :
    Inv { p with
      toEngine := p.dropSegment segment
      catalog := p.catalog.setPages segment 0
      saved := p.catalog.setPages segment 0 } := by
  have hkept {heap : Heap} {location : RecordLocation} {record : HeapRecord}
      (hfound : heap.dropSegments [segment] location = some record) :
      location.segment ≠ segment ∧ heap location = some record :=
    (Storage.dropSegments_eq_some.1 hfound).imp_left (mt List.mem_singleton.2)
  have hwithin (location : RecordLocation) (hne : location.segment ≠ segment) (page : Nat × Nat)
      (hpage : page ∈ p.pagesOf location) (hlt : page.2 < p.catalog.pages page.1) :
      page.2 < (p.catalog.setPages segment 0).pages page.1 := by
    obtain ⟨number, -, rfl⟩ := List.mem_map.1 hpage
    change _ < update p.catalog.pages segment 0 location.segment
    rwa [update_of_ne hne]
  refine ⟨h.catalog.dropped segment, h.catalog.dropped segment, fun _ => le_rfl,
    fun location record hfound page hpage => ?_, fun location record hfound page hpage => ?_,
    fun page hpage => ?_⟩
  · obtain ⟨hne, hfound⟩ := hkept hfound
    exact hwithin location hne page hpage (h.within location record hfound page hpage)
  · obtain ⟨hne, hfound⟩ := hkept hfound
    exact hwithin location hne page hpage
      ((h.flushed location record hfound page hpage).trans_le (h.le _))
  · change update p.catalog.pages segment 0 page.1 ≤ page.2
    rw [update_apply]
    split_ifs
    · exact Nat.zero_le _
    · exact h.torn page hpage

theorem Inv.step (h : p.Inv) (hheap : Storage.HeapLe p.disk.heap p.mem.heap)
    (hstep : PagedStep R p p') : p'.Inv := by
  cases hstep with
  | quiet hR hmem hdisk =>
    exact ⟨h.catalog, h.saved, h.le, fun location record hfound =>
      h.within location record ((congrFun hmem location).symm.trans hfound),
      fun location record hfound =>
        h.flushed location record ((congrFun hdisk location).symm.trans hfound), h.torn⟩
  | append hR hfree hmem hdisk happend hread => exact h.append hheap hfree hmem hdisk happend
  | flush hR hmem hdisk =>
    exact ⟨h.catalog, h.catalog, fun _ => le_rfl, fun location record hfound =>
      h.within location record ((congrFun hmem location).symm.trans hfound),
      fun location record hfound =>
        h.within location record ((congrFun hdisk location).symm.trans hfound), h.torn⟩
  | drop hR => exact h.drop _

/-! ## Runs -/

/-- A crash that tears no page but a new one loses nothing that is flushed. -/
theorem Inv.crash (h : p.Inv) (hcrash : PagedCrash torn p p') (hspared : p.Spared torn) :
    p'.Inv ∧ ∃ keep heap, p.LogSurvives keep ∧ p.HeapSurvives heap ∧
      p'.toEngine = p.toEngine.crash keep heap := by
  obtain @⟨keep, hkeep, heap, hle, hkept, hwhole⟩ := hcrash
  have hwithin (location : RecordLocation) (record : HeapRecord)
      (hfound : heap location = some record) (page : Nat × Nat)
      (hpage : page ∈ p.pagesOf location) : page.2 < p.saved.pages page.1 :=
    (hwhole location record hfound page hpage).1
  have hsurvives : Storage.HeapLe p.disk.heap heap := fun location record hfound =>
    hkept location record hfound fun page htorn hpage =>
      (hspared page htorn).not_gt (h.flushed location record hfound page hpage)
  refine ⟨⟨h.saved, h.saved, fun _ => le_rfl, hwithin, hwithin, fun page hpage => ?_⟩,
    keep, heap, hkeep, ⟨hsurvives, hle⟩, rfl⟩
  rcases List.mem_append.1 hpage with htorn | hold
  · exact hspared page (Option.mem_toList.1 htorn)
  · exact (h.le page.1).trans (h.torn page hold)

theorem PagedStep.engine (h : PagedStep R p p') : R p.toEngine p'.toEngine := by
  cases h <;> assumption

theorem step_of_works {e e' : Engine} (h : Works e e') : Step e e' := h.elim .write .recovery

theorem sparing_run (hrun : ReflTransGen SparingStep .empty p) :
    p.Inv ∧ Steps .empty p.toEngine := by
  induction hrun with
  | refl => exact ⟨inv_empty, .refl⟩
  | tail _ hstep ih =>
    obtain ⟨hinv, hsteps⟩ := ih
    cases hstep with
    | step h => exact ⟨hinv.step (sound_steps hsteps).heap h, hsteps.tail (step_of_works h.engine)⟩
    | crash h hspared =>
      obtain ⟨hinv', keep, heap, hkeep, hheap, hcrash⟩ := hinv.crash h hspared
      exact ⟨hinv', hsteps.tail (hcrash ▸ .crash keep hkeep heap hheap)⟩

/-! ## Recovery gets to its end -/

/-- There is always a place for a record, and the page that has to be read for it is whole. -/
theorem Inv.exists_append (h : p.Inv) : ∃ location catalog, p.mem.heap location = none ∧
    p.catalog.Append location [] catalog ∧ ∀ page ∈ p.catalog.lastPage, page ∉ p.torn := by
  refine ⟨_, _, ?_, .grow 0 rfl, fun page hpage htorn => ?_⟩
  · obtain ⟨-, hpages⟩ := h.catalog.rollIfFull
    rcases hfound : p.mem.heap _ with _ | record
    · rfl
    have hlt := h.within _ record hfound _ (List.mem_map_of_mem List.mem_cons_self)
    dsimp only at hlt
    rw [hpages] at hlt
    exact absurd hlt (Nat.lt_irrefl _)
  · rw [Catalog.lastPage] at hpage
    split_ifs at hpage with hzero
    · cases hpage
    · cases hpage
      have hle := h.torn _ htorn
      dsimp only at hle
      omega

variable {effects : List (Effect Operation)} {key : LiveKey}

theorem exists_replay (h : p.Inv) (hsound : p.toEngine.Sound)
    (hphase : p.phase = .replaying effects) :
    ∃ p', ReflTransGen (PagedStep RecoveryStep) p p' ∧ p'.phase = .replaying [] := by
  induction effects generalizing p with
  | nil => exact ⟨p, .refl, hphase⟩
  | cons effect effects ih =>
    obtain ⟨mid, hstep, hmid⟩ : ∃ mid, PagedStep RecoveryStep p mid ∧
        mid.phase = .replaying effects := by
      cases effect with
      | note sequence => exact ⟨_, .quiet (.note hphase) rfl rfl, rfl⟩
      | apply op =>
        obtain ⟨location, catalog, hfree, happend, hread⟩ := h.exists_append
        obtain ⟨mem, hok, -⟩ := Storage.applyOperation_spec hsound.mem hfree op
        have hmove := RecoveryStep.apply hphase hfree hok
        rcases Storage.applyOperation_heap hok with hsame | ⟨record, hheap⟩
        · exact ⟨_, .quiet hmove hsame rfl, rfl⟩
        · exact ⟨_, .append hmove hfree hheap rfl happend fun _ => hread, rfl⟩
    obtain ⟨p', hsteps, hend⟩ := ih (h.step hsound.heap hstep) (hsound.recovery hstep.engine) hmid
    exact ⟨p', .head hstep hsteps, hend⟩

/-- A checkpoint that compacts nothing. -/
theorem publish_steps (hphase : p.phase = .compacting []) :
    ReflTransGen (PagedStep RecoveryStep) p { p with
      toEngine := { p.toEngine with disk := p.mem, writer := p.writer.advance, phase := .ready }
      saved := p.catalog } := by
  have hsync : ReflTransGen (PagedStep RecoveryStep) p _ :=
    .single (.flush (.step (.sync hphase)) rfl rfl)
  have hcommit := (((((hsync.tail (.quiet (.step (.commitTree rfl)) rfl rfl)).tail
    (.quiet (.step (.commitTree rfl)) rfl rfl)).tail
    (.quiet (.step (.commitTree rfl)) rfl rfl)).tail
    (.quiet (.step (.commitTree rfl)) rfl rfl)).tail
    (.quiet (.step (.commitTree rfl)) rfl rfl)).tail
    (.quiet (.step (.commitTree rfl)) rfl rfl)
  exact (hcommit.tail (.quiet (.step (.advance rfl)) rfl rfl)).tail
    (.quiet (.step (.finish rfl)) rfl rfl)

theorem exists_paged_recovery (h : p.Inv) (hsound : p.toEngine.Sound)
    (hphase : p.phase = .replaying effects) :
    ∃ p', ReflTransGen (PagedStep RecoveryStep) p p' ∧ p'.phase = .ready := by
  obtain ⟨replayed, hreplay, hreplayed⟩ := exists_replay h hsound hphase
  have hcheckpoint : PagedStep RecoveryStep replayed _ := .quiet (.checkpoint hreplayed) rfl rfl
  exact ⟨_, (hreplay.tail hcheckpoint).trans (publish_steps rfl), rfl⟩

/-- A record that is live, and that nothing in the log above the checkpoint writes. -/
structure SettledRecord (p : PagedEngine) (key : LiveKey) (record : HeapRecord) : Prop where
  live : p.current key = some record
  settled : key ∉ (effectWrites (schedule p.live)).map Prod.fst

theorem mem_effectWrites :
    key ∈ (effectWrites effects).map Prod.fst ↔ ∃ op, .apply op ∈ effects ∧ op.toWrite.1 = key := by
  constructor
  · intro h
    obtain ⟨write, hwrite, rfl⟩ := List.mem_map.1 h
    obtain ⟨effect, heffect, hsome⟩ := List.mem_filterMap.1 hwrite
    cases effect with
    | apply op => exact ⟨op, heffect, congrArg Prod.fst (Option.some.inj hsome)⟩
    | note sequence => cases hsome
  · rintro ⟨op, hop, rfl⟩
    exact List.mem_map_of_mem (List.mem_filterMap.2 ⟨_, hop, rfl⟩)

theorem notMem_crash {e : Engine} (h : e.Sound)
    (hsettled : key ∉ (effectWrites (schedule e.live)).map Prod.fst) (keep : Nat) (heap : Heap) :
    key ∉ (effectWrites (schedule (e.crash keep heap).live)).map Prod.fst := by
  intro hmem
  obtain ⟨op, hop, hkey⟩ := mem_effectWrites.1 hmem
  refine hsettled (mem_effectWrites.2 ⟨op, h.live.apply_mem_schedule (fun r hr => ?_) hop, hkey⟩)
  exact mem_liveRecords.2 ((mem_liveRecords.1 hr).imp_left List.mem_of_mem_take)

/-- Recovery gets to every record that the log does not write. -/
theorem SettledRecord.recovered {record : HeapRecord} (h : p.SettledRecord key record)
    (hsteps : Steps .empty p.toEngine) (keep : Nat) {heap : Heap} (hheap : p.HeapSurvives heap) :
    (p.toEngine.crash keep heap).recovered key = some record := by
  have hrecoverable := recoverable_steps hsteps
  have hsame : p.disk.view key = some record := by
    rw [← h.live, ← hrecoverable.recovered, Engine.recovered, writes_of_notMem h.settled]
  rw [Engine.recovered, writes_of_notMem (notMem_crash hrecoverable.sound h.settled keep heap),
    crash_view hrecoverable.sound keep hheap, hsame]

theorem recovery_steps (h : ReflTransGen (PagedStep RecoveryStep) p p') :
    ReflTransGen RecoveryStep p.toEngine p'.toEngine :=
  h.lift toEngine fun _ _ hstep => hstep.engine

end PagedEngine

open PagedEngine Engine in
/-- In a run whose crashes tear no page of the heap but such as are new since the heap was last
    flushed, the recovery after the next crash gets to its end, and then every record can be read
    that was live and that nothing above the checkpoint had written. -/
theorem torn_page_spared {p crashed : PagedEngine}
    (hrun : ReflTransGen SparingStep .empty p) {torn : Option (Nat × Nat)}
    (hcrash : PagedCrash torn p crashed) (hspared : p.Spared torn) :
    (∃ p', ReflTransGen (PagedStep RecoveryStep) crashed p' ∧ p'.phase = .ready) ∧
    ∀ p', ReflTransGen (PagedStep RecoveryStep) crashed p' → p'.phase = .ready →
      ∀ key record, p.SettledRecord key record → p'.mem.findRecord key = .ok (some record) := by
  obtain ⟨hinv, hsteps⟩ := sparing_run hrun
  obtain ⟨hinv', keep, heap, -, hheap, hengine⟩ := hinv.crash hcrash hspared
  have hstart := recovering_crash (sound_steps hsteps) keep hheap
  rw [← hengine] at hstart
  refine ⟨exists_paged_recovery hinv' hstart.recoverable.sound (by rw [hengine]; rfl),
    fun p' hrecovery hready key record hsettled => ?_⟩
  obtain ⟨hsound, hview⟩ := hstart.view (recovery_steps hrecovery) hready
  rw [hsound.mem.findRecord_eq, hview, hengine, hsettled.recovered hsteps keep hheap]

section Samples

open PagedEngine Engine

variable {p : PagedEngine}

theorem works_of_recovery {p' : PagedEngine}
    (h : ReflTransGen (PagedStep RecoveryStep) p p') :
    ReflTransGen (PagedStep Works) p p' := by
  refine ReflTransGen.mono (fun _ _ hstep => ?_) _ _ h
  cases hstep with
  | quiet h hmem hdisk => exact .quiet (.inr h) hmem hdisk
  | append h hfree hmem hdisk happend hread =>
    exact .append (.inr h) hfree hmem hdisk happend hread
  | flush h hmem hdisk => exact .flush (.inr h) hmem hdisk
  | drop h => exact .drop (.inr h)

def withEdge (s : Storage) (location : RecordLocation) (edge : Edge) : Storage :=
  { s.append location (.edge edge) with
    indexes := (LiveKey.edge edge.id).repoint s.indexes location }

/-- An edge is logged, and applied. -/
theorem insertEdge_steps (hphase : p.phase = .ready) (hframe : p.writer.frame = none) (edge : Edge)
    {location : RecordLocation} (hfree : p.mem.heap location = none) {catalog : Catalog}
    (happend : p.catalog.Append location [] catalog)
    (hread : ∀ page ∈ p.catalog.lastPage, page ∉ p.torn) :
    ReflTransGen (PagedStep Works) p { p with
      writer := p.writer.standalone (.insertEdge edge) false
      mem := withEdge p.mem location edge
      phase := .applying [] p.writer.counters.sequence
      catalog := catalog
      chain := update p.chain location []
      torn := p.torn.filter (· ∉ pagesAt location []) } := by
  let logged : PagedEngine := { p with
    writer := p.writer.standalone (.insertEdge edge) false
    phase := .applying [.insertEdge edge] p.writer.counters.sequence }
  have hlog : PagedStep Works p logged := .quiet (.inl (.standalone hphase hframe _)) rfl rfl
  have happly := @WriteStep.apply logged.toEngine _ _ _ rfl location hfree
    (withEdge p.mem location edge) rfl
  exact (ReflTransGen.single hlog).tail (@PagedStep.append Works logged _ (.inl happly)
    location (.edge edge) hfree rfl rfl [] catalog happend fun _ => hread)

def settledEdge : Edge := ⟨"a", "b", "knows", "alice"⟩

def laterEdge : Edge := ⟨"b", "c", "knows", "alice"⟩

def firstSlot : RecordLocation := ⟨0, 0, 0⟩

/-- An edge has been inserted, and a checkpoint has been taken. -/
def flushedEngine : PagedEngine where
  writer := ((Writer.empty.standalone (.insertEdge settledEdge) false).noteApplied 1).advance
  durable := 1
  mem := withEdge Engine.empty.mem firstSlot settledEdge
  disk := withEdge Engine.empty.mem firstSlot settledEdge
  phase := .ready
  catalog := Catalog.empty.setPages 0 1
  saved := Catalog.empty.setPages 0 1
  chain := update (fun _ => []) firstSlot []
  torn := []

theorem flushedEngine_reachable :
    ReflTransGen (PagedStep Works) .empty flushedEngine := by
  have hinsert := @insertEdge_steps .empty rfl rfl settledEdge firstSlot rfl _
    (.grow 0 (r := .empty) rfl) nofun
  have hsettle := (hinsert.tail (.quiet (.inl (.settle rfl)) rfl rfl)).tail
    (.quiet (.inl (.sync 1 (by decide) (by decide))) rfl rfl)
  have hcheckpoint := hsettle.tail (.quiet (.inl (.checkpoint rfl rfl)) rfl rfl)
  exact hcheckpoint.trans (works_of_recovery (publish_steps rfl))

/-- Another edge has been appended to the same page, and neither the heap nor the log is flushed. -/
def pendingEngine : PagedEngine := { flushedEngine with
  writer := flushedEngine.writer.standalone (.insertEdge laterEdge) false
  mem := withEdge flushedEngine.mem ⟨0, 0, 1⟩ laterEdge
  phase := .applying [] 2
  chain := update flushedEngine.chain ⟨0, 0, 1⟩ [] }

theorem pendingEngine_reachable :
    ReflTransGen (PagedStep Works) .empty pendingEngine :=
  flushedEngine_reachable.trans
    (insertEdge_steps rfl rfl laterEdge rfl (.last rfl) nofun)

theorem settledEdge_settled :
    pendingEngine.SettledRecord (.edge settledEdge.id) (.edge settledEdge) where
  live := rfl
  settled := by decide +kernel

theorem pendingEngine_log : pendingEngine.LogSurvives 1 := by
  unfold LogSurvives
  decide +kernel

/-- What a flush has covered is the first edge. -/
theorem flushedEngine_heap {location : RecordLocation} {record : HeapRecord}
    (h : flushedEngine.disk.heap location = some record) : location = firstSlot := by
  change update (fun _ => none) firstSlot _ location = _ at h
  rw [update_apply] at h
  split_ifs at h with heq
  exact heq

/-- The page of both edges is being written when the process crashes, and the log has not been
    flushed since the checkpoint. Nothing is left to replay, and the first edge is lost. -/
theorem torn_page_loses_edge : ∃ p crashed p' : PagedEngine,
    ReflTransGen (PagedStep Works) .empty p ∧
    (∃ location, p.mem.heap location ≠ none ∧ p.disk.heap location = none ∧
      (0, 0) ∈ p.pagesOf location) ∧
    PagedCrash (some (0, 0)) p crashed ∧
    ReflTransGen (PagedStep RecoveryStep) crashed p' ∧ p'.phase = .ready ∧
    p.SettledRecord (.edge settledEdge.id) (.edge settledEdge) ∧
    p'.mem.findRecord (.edge settledEdge.id) =
      .error ⟨.invalidData, "no record at segment 0 page 0 slot 0"⟩ := by
  let crashed : PagedEngine := { pendingEngine with
    toEngine := pendingEngine.toEngine.crash 1 fun _ => none
    torn := [(0, 0)] }
  have hcrash : PagedCrash (some (0, 0)) pendingEngine crashed :=
    @PagedCrash.mk _ _ 1 pendingEngine_log (fun _ => none) nofun
      (fun location record h hspared => by
        obtain rfl := flushedEngine_heap h
        exact absurd List.mem_cons_self (hspared (0, 0) rfl))
      nofun
  have hcheckpoint : PagedStep RecoveryStep crashed { crashed with
      toEngine := { crashed.toEngine with phase := .compacting [] } } :=
    .quiet (.checkpoint rfl) rfl rfl
  refine ⟨pendingEngine, crashed, _, pendingEngine_reachable, ⟨⟨0, 0, 1⟩, ?_, ?_, ?_⟩, hcrash,
    .head hcheckpoint (publish_steps rfl), rfl, settledEdge_settled, ?_⟩
  · exact nofun
  · rfl
  · exact List.mem_cons_self
  · decide +kernel

/-- The other edge has been appended to a new page instead. -/
def grownEngine : PagedEngine := { flushedEngine with
  writer := flushedEngine.writer.standalone (.insertEdge laterEdge) false
  mem := withEdge flushedEngine.mem ⟨0, 1, 0⟩ laterEdge
  phase := .applying [] 2
  catalog := flushedEngine.catalog.setPages 0 2
  chain := update flushedEngine.chain ⟨0, 1, 0⟩ [] }

theorem grownEngine_reachable : ReflTransGen SparingStep .empty grownEngine := by
  refine ReflTransGen.mono (fun _ _ h => .step h) _ _ (flushedEngine_reachable.trans ?_)
  exact insertEdge_steps rfl rfl laterEdge rfl (.grow 0 rfl) nofun

/-- It is the new page that is torn, and the first edge is read after recovery. -/
theorem torn_page_spared_new_page : ∃ crashed p' : PagedEngine,
    PagedCrash (some (0, 1)) grownEngine crashed ∧ grownEngine.Spared (some (0, 1)) ∧
    ReflTransGen (PagedStep RecoveryStep) crashed p' ∧ p'.phase = .ready ∧
    p'.mem.findRecord (.edge settledEdge.id) = .ok (some (.edge settledEdge)) := by
  have hlog : grownEngine.LogSurvives 1 := by
    unfold LogSurvives
    decide +kernel
  have hcrash : PagedCrash (some (0, 1)) grownEngine _ :=
    @PagedCrash.mk _ _ 1 hlog flushedEngine.disk.heap
      (fun location record h => by
        obtain rfl := flushedEngine_heap h
        exact h)
      (fun _ _ h _ => h)
      (fun location record h page hpage => by
        obtain rfl := flushedEngine_heap h
        obtain rfl : page = (0, 0) := List.mem_singleton.1 hpage
        exact ⟨Nat.one_pos, by decide⟩)
  have hspared : grownEngine.Spared (some (0, 1)) := by
    rintro page hpage
    cases hpage
    exact le_rfl
  have hsettled : grownEngine.SettledRecord (.edge settledEdge.id) (.edge settledEdge) :=
    ⟨rfl, by decide +kernel⟩
  obtain ⟨⟨p', hrecovery, hready⟩, hread⟩ :=
    torn_page_spared grownEngine_reachable hcrash hspared
  exact ⟨_, p', hcrash, hspared, hrecovery, hready, hread p' hrecovery hready _ _ hsettled⟩

end Samples

end FacetQL
