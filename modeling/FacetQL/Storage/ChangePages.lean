import FacetQL.Storage.ChangeFeed

/-!
# Pages of changes

What the pages of a scan for changes hold, and what they give away. A page ends behind the
committed unit that makes it full, if anything follows that unit in the log, whether the
caller may see it or not.

* `scans_agree_iff`: when two logs with the same visible changes give the same page;
* `refused_lost_iff`: when a refusal means that something has been rotated away;
* `changes_once`: in the first process, the pages hold every visible change once;
* `reported_kept`: when a change that has been reported is not lost in a crash.
-/

namespace FacetQL

open Relation

/-! ## Where a page ends -/

section Cut

variable {lens : Lens} {limit : Nat} {committed : List (Nat × Nat)} {page : ChangePage}
  {walked rest : List (List (WalRecord Operation))} {seen : List ChangeRecord}

/-- The unit that fills a page is followed by other records; `seen` are the changes up to it. -/
def CutAfter (lens : Lens) (limit : Nat) (committed : List (Nat × Nat))
    (us : List (List (WalRecord Operation))) (seen : List ChangeRecord) : Prop :=
  ∃ x u y, us = x ++ u :: y ∧ y ≠ [] ∧ Reported committed u ∧ lens.after < lastPosition u ∧
    seen = changesOf lens committed (x ++ [u]) ∧ limit ≤ seen.length ∧
    ∀ x₁ u₁ y₁, x = x₁ ++ u₁ :: y₁ → Reported committed u₁ → lens.after < lastPosition u₁ →
      (changesOf lens committed (x₁ ++ [u₁])).length < limit

theorem Walked.eq_of_cut (h : Walked lens limit committed [] page walked rest)
    (hcut : CutAfter lens limit committed (walked ++ rest) seen) :
    page = ⟨seen, resumeAt lens.after seen, false⟩ := by
  obtain ⟨x, u, y, hsplit, hy, hu, hafter, rfl, hfull, hfirst⟩ := hcut
  have hchanges : page.changes = changesOf lens committed walked := h.changes
  -- The walk does not go on behind the unit.
  have hpast : ∀ t, walked = x ++ u :: t → ¬ (t ≠ [] ∨ page.complete = true ∧ rest ≠ []) :=
    fun t hwalked hmore => absurd hfull (h.first x u t hwalked hmore hu hafter).not_ge
  rcases h.stop with ⟨hcomplete, hend⟩ | ⟨hcomplete, hrest, hlength, v, hv, hr, hvafter⟩
  · exfalso
    rcases hend with rfl | ⟨v, rfl, -⟩
    · exact hpast y (by rwa [List.append_nil] at hsplit) (.inl hy)
    · obtain ⟨t, z, rfl⟩ := (List.eq_nil_or_concat' y).resolve_left hy
      rw [← List.cons_append, ← List.append_assoc] at hsplit
      obtain ⟨hwalked, -⟩ := List.append_inj' hsplit rfl
      exact hpast t hwalked (.inr ⟨hcomplete, List.cons_ne_nil _ _⟩)
  · obtain ⟨w, rfl⟩ := List.getLast?_eq_some_iff.1 hv
    rw [hchanges] at hlength
    have hpage : page = ⟨changesOf lens committed (w ++ [v]),
        resumeAt lens.after (changesOf lens committed (w ++ [v])), false⟩ := by
      rw [← hchanges, ← h.next, ← hcomplete]
    rw [List.append_assoc, List.singleton_append] at hsplit
    rcases List.append_eq_append_iff.1 hsplit with ⟨t, rfl, ht⟩ | ⟨t, rfl, ht⟩ <;>
      rcases t with _ | ⟨a, t⟩ <;> obtain ⟨rfl, -⟩ := List.cons.inj ht
    · rwa [List.append_nil]
    · exact absurd hlength (hfirst w v t rfl hr hvafter).not_ge
    · rwa [List.append_nil] at hpage
    · refine absurd (.inl ?_) (hpast (t ++ [v]) (by simp))
      exact List.append_ne_nil_of_right_ne_nil _ (List.cons_ne_nil _ _)

theorem Walked.eq_of_uncut (h : Walked lens limit committed [] page walked rest)
    (hno : ∀ seen, ¬ CutAfter lens limit committed (walked ++ rest) seen) :
    page = ⟨changesOf lens committed (walked ++ rest),
      resumeAt lens.after (changesOf lens committed (walked ++ rest)), true⟩ := by
  have hchanges : page.changes = changesOf lens committed walked := h.changes
  rcases h.stop with ⟨hcomplete, hend⟩ | ⟨-, hrest, hlength, v, hv, hr, hafter⟩
  · have hnone : changesOf lens committed rest = [] := by
      rcases hend with rfl | ⟨v, rfl, hflight⟩
      · rfl
      · simp [changesOf, hflight]
    rw [changesOf_append, hnone, List.append_nil, ← hchanges, ← h.next, ← hcomplete]
  · obtain ⟨w, rfl⟩ := List.getLast?_eq_some_iff.1 hv
    refine absurd ⟨w, v, rest, by simp, hrest, hr, hafter, hchanges, hlength, ?_⟩ (hno page.changes)
    rintro x₁ u₁ y₁ rfl hu₁ hafter₁
    refine h.first x₁ u₁ (y₁ ++ [v]) (by simp) (.inl ?_) hu₁ hafter₁
    exact List.append_ne_nil_of_right_ne_nil _ (List.cons_ne_nil _ _)

theorem changesOf_filter (lens : Lens) (us : List (List (WalRecord Operation))) :
    changesOf lens committed us =
      (changesOf { lens with after := 0 } committed us).filter fun c => lens.after < c.seq := by
  rw [changesOf, changesOf, List.filter_flatMap]
  congr 1
  funext u
  rw [emitUnit_filter lens]
  split_ifs <;> rfl

end Cut

/-! ## What a page gives away -/

section Visible

variable {records records' : List (WalRecord Operation)}

/-- A log as the engine writes it, from its first record on. -/
structure WholeLog (records : List (WalRecord Operation)) : Prop where
  sound : ∃ c, SoundLog records c
  positions : records.Pairwise (·.operationId < ·.operationId)
  first : ∃ first ∈ records.head?, first.sequence = 1

/-- The changes of a log that a caller may see. -/
def visibleChanges (owner : String) (isAdmin : Bool) (records : List (WalRecord Operation)) :
    List ChangeRecord :=
  match classifyTransactions records with
  | .ok committed => changesOf ⟨0, owner, isAdmin⟩ committed (durableUnits records)
  | .error _ => []

/-- A page of the log ends before the log does, after the changes `seen`. -/
def PageCut (lens : Lens) (limit : Nat) (records : List (WalRecord Operation))
    (seen : List ChangeRecord) : Prop :=
  ∃ committed, classifyTransactions records = .ok committed ∧
    CutAfter lens limit committed (durableUnits records) seen

/-- A page holds what is visible up to its cut, or all of it. -/
theorem WholeLog.scan (h : WholeLog records) (scanHorizon limit : Nat) (lens : Lens) :
    ∃ page, scan scanHorizon records limit lens = .ok page ∧
      page.next = resumeAt lens.after page.changes ∧
      (∀ seen, PageCut lens limit records seen ↔ page.complete = false ∧ page.changes = seen) ∧
      (page.complete = true → page.changes =
        (visibleChanges lens.owner lens.isAdmin records).filter (lens.after < ·.seq)) := by
  obtain ⟨c, hlog⟩ := h.sound
  obtain ⟨committed, hok, -⟩ := hlog.accepted
  obtain ⟨first, hmem, hsequence⟩ := h.first
  have hhorizon : horizon scanHorizon records = 0 := by
    rcases records with _ | ⟨r, rs⟩
    · cases hmem
    obtain rfl : r = first := Option.some.inj hmem
    exact if_pos hsequence
  obtain ⟨walked, rest, hunits, hwalked⟩ := @exists_walked lens limit committed
    ⟨[], lens.after, true⟩ _ (rising_of_positions h.positions) rfl rfl
  have hcut : ∀ seen, PageCut lens limit records seen ↔
      CutAfter lens limit committed (walked ++ rest) seen := fun seen => by
    rw [PageCut, hok, hunits]
    exact ⟨fun ⟨_, heq, hcut⟩ => Except.ok.inj heq ▸ hcut, fun hcut => ⟨committed, rfl, hcut⟩⟩
  refine ⟨walk lens limit committed ⟨[], lens.after, true⟩ (durableUnits records), ?_, hwalked.next,
    fun seen => ⟨fun hseen => ?_, fun ⟨hfull, hchanges⟩ => ?_⟩, fun hcomplete => ?_⟩
  · rw [FacetQL.scan, hhorizon, if_neg (Nat.not_lt_zero _), validatePositions_eq_ok h.positions, hok]
  · rw [hwalked.eq_of_cut ((hcut seen).1 hseen)]
    exact ⟨rfl, rfl⟩
  · by_contra hno
    -- Any other cut would have given another page.
    have hnone : ∀ other, ¬ CutAfter lens limit committed (walked ++ rest) other := fun other hother => by
      rw [hwalked.eq_of_cut hother] at hchanges
      exact hno ((hcut seen).2 (hchanges ▸ hother))
    rw [hwalked.eq_of_uncut hnone] at hfull
    cases hfull
  · have hnone : ∀ seen, ¬ CutAfter lens limit committed (walked ++ rest) seen := fun seen hseen => by
      rw [hwalked.eq_of_cut hseen] at hcomplete
      cases hcomplete
    rw [hwalked.eq_of_uncut hnone, ← hunits, changesOf_filter, visibleChanges, hok]

end Visible

/-- Two logs that hold the same changes for a caller give the same page if and only if the page is cut
    in the same place in both, or in neither. -/
theorem scans_agree_iff {records records' : List (WalRecord Operation)} (h : WholeLog records)
    (h' : WholeLog records') (scanHorizon scanHorizon' after limit : Nat) (owner : String)
    (hsame : visibleChanges owner false records = visibleChanges owner false records') :
    scan scanHorizon records limit ⟨after, owner, false⟩ =
        scan scanHorizon' records' limit ⟨after, owner, false⟩ ↔
      ∀ seen, PageCut ⟨after, owner, false⟩ limit records seen ↔
        PageCut ⟨after, owner, false⟩ limit records' seen := by
  obtain ⟨page, hscan, hnext, hcut, hall⟩ := h.scan scanHorizon limit ⟨after, owner, false⟩
  obtain ⟨page', hscan', hnext', hcut', hall'⟩ := h'.scan scanHorizon' limit ⟨after, owner, false⟩
  rw [hscan, hscan', Except.ok.injEq]
  refine ⟨fun heq seen => ?_, fun hiff => ?_⟩
  · rw [hcut, hcut', heq]
  have hpages : page.changes = page'.changes ∧ page.complete = page'.complete := by
    rcases hcomplete : page.complete with _ | _
    · obtain ⟨hfull, hchanges⟩ := (hcut' _).1 ((hiff _).1 ((hcut _).2 ⟨hcomplete, rfl⟩))
      exact ⟨hchanges.symm, hfull.symm⟩
    cases hcomplete' : page'.complete with
    | false =>
      have hfull := (hcut _).1 ((hiff _).2 ((hcut' _).2 ⟨hcomplete', rfl⟩))
      exact absurd (hcomplete.symm.trans hfull.1) Bool.noConfusion
    | true => exact ⟨by rw [hall hcomplete, hall' hcomplete', hsame], rfl⟩
  obtain ⟨hchanges, hcomplete⟩ := hpages
  have hresume : page.next = page'.next := by rw [hnext, hnext', hchanges]
  cases page
  cases page'
  exact congr (congr (congrArg ChangePage.mk hchanges) hresume) hcomplete

namespace ChangePages

open ChangeFeed

def othersNode : Node := { ownedNode "b" with owner := "bob" }

def alone : ChangeFeed := insertInto .empty "a"

def joined : ChangeFeed := { alone with writer := alone.writer.standalone (.insert othersNode) true }

theorem alone_steps : SafeSteps .empty alone := .single (insertInto_step rfl "a")

theorem joined_steps : SafeSteps .empty joined :=
  alone_steps.tail (.write (.standalone rfl _ true) (List.prefix_append _ _))

theorem wholeLog {f : ChangeFeed} (hsteps : SafeSteps .empty f)
    (hfirst : ∃ first ∈ f.writer.log.head?, first.sequence = 1) : WholeLog f.writer.log := by
  obtain ⟨_, hlead⟩ := inv_empty.steps hsteps
  exact ⟨⟨_, hlead.inv.writer.log⟩, hlead.inv.placed.positions, hfirst⟩

theorem units_alone : durableUnits alone.writer.log = [[insertion 1 1 "a"]] :=
  (isUnit_insertion 1 1 "a").durableUnits

theorem units_joined : durableUnits joined.writer.log = [[insertion 1 1 "a"],
    [⟨walFormatVersion, 2, standaloneTransactionId, 2, .mutation (.insert othersNode)⟩]] := by
  refine (durableUnits_insertion 1 1 "a" _).trans (congrArg _ ?_)
  exact IsUnit.durableUnits (.standalone _ rfl rfl)

theorem classify_alone : classifyTransactions alone.writer.log = .ok [] := by decide +kernel

theorem classify_joined : classifyTransactions joined.writer.log = .ok [] := by decide +kernel

theorem visible_alone :
    visibleChanges "alice" false alone.writer.log = [⟨1, .created, "a", "Person"⟩] := by
  rw [visibleChanges, classify_alone, units_alone]
  decide +kernel

theorem visible_joined :
    visibleChanges "alice" false joined.writer.log = [⟨1, .created, "a", "Person"⟩] := by
  rw [visibleChanges, classify_joined, units_joined]
  decide +kernel

theorem scan_alone : scan 0 alone.writer.log 2 ⟨0, "alice", false⟩ =
    .ok ⟨[⟨1, .created, "a", "Person"⟩], 1, true⟩ := by
  rw [scan, classify_alone, units_alone]
  decide +kernel

end ChangePages

open ChangePages in
/-- With room for both changes on the page, nothing can be told from it. -/
theorem scans_agree_iff_room :
    visibleChanges "alice" false alone.writer.log = visibleChanges "alice" false joined.writer.log ∧
    scan 0 alone.writer.log 2 ⟨0, "alice", false⟩ = scan 0 joined.writer.log 2 ⟨0, "alice", false⟩ := by
  have hsame := visible_alone.trans visible_joined.symm
  have halone := wholeLog alone_steps ⟨insertion 1 1 "a", rfl, rfl⟩
  have hjoined := wholeLog joined_steps ⟨insertion 1 1 "a", rfl, rfl⟩
  refine ⟨hsame, (scans_agree_iff halone hjoined 0 0 0 2 "alice" hsame).2 fun seen => ?_⟩
  have hpage' : scan 0 joined.writer.log 2 ⟨0, "alice", false⟩ =
      .ok ⟨[⟨1, .created, "a", "Person"⟩], 1, true⟩ := by
    rw [scan, classify_joined, units_joined]
    decide +kernel
  obtain ⟨page, hscan, -, hcut, -⟩ := halone.scan 0 2 ⟨0, "alice", false⟩
  obtain ⟨page', hscan', -, hcut', -⟩ := hjoined.scan 0 2 ⟨0, "alice", false⟩
  obtain rfl := Except.ok.inj (hscan.symm.trans scan_alone)
  obtain rfl := Except.ok.inj (hscan'.symm.trans hpage')
  rw [hcut, hcut']

open ChangePages in
/-- A page that one change fills says whether something else follows in the log. -/
theorem scans_differ : ¬∀ (records records' : List (WalRecord Operation)) (after limit : Nat)
    (owner : String), WholeLog records → WholeLog records' →
    visibleChanges owner false records = visibleChanges owner false records' →
    scan 0 records limit ⟨after, owner, false⟩ = scan 0 records' limit ⟨after, owner, false⟩ := by
  intro h
  have heq := h alone.writer.log joined.writer.log 0 1 "alice" (wholeLog alone_steps ⟨insertion 1 1 "a", rfl, rfl⟩)
    (wholeLog joined_steps ⟨insertion 1 1 "a", rfl, rfl⟩) (visible_alone.trans visible_joined.symm)
  rw [scan, scan, classify_alone, classify_joined, units_alone, units_joined] at heq
  exact absurd heq (by decide +kernel)

/-! ## Refusals -/

namespace ChangeFeed

variable {f f' : ChangeFeed}

/-- The steps of one process: mutations and checkpoints, and rotations. -/
inductive LiveStep : ChangeFeed → ChangeFeed → Prop
  | write {f : ChangeFeed} {w : Writer Operation} (h : Writer.ProcessStep f.writer w)
      (hgrows : f.writer.log <+: w.log) : LiveStep f { f with writer := w }
  | rotate {f : ChangeFeed} : LiveStep f f.rotate

/-- A run in which the log grows or is rotated. -/
abbrev LiveSteps : ChangeFeed → ChangeFeed → Prop := ReflTransGen LiveStep

theorem LiveSteps.safe (h : LiveSteps f f') : SafeSteps f f' := by
  refine h.lift id fun _ _ hstep => ?_
  cases hstep with
  | write h hgrows => exact .write h hgrows
  | rotate => exact .rotate

/-- The horizon for an empty log is the highest position that has been dropped. -/
theorem LiveSteps.lt_scanHorizon_iff (h : LiveSteps .empty f) (position : Nat) :
    position < f.scanHorizon ↔ ∃ g ∈ f.gone, position < g.operationId := by
  induction h with
  | refl => simp [empty]
  | @tail f f' _ hstep ih =>
    cases hstep with
    | write => exact ih
    | rotate =>
      simp only [rotate]
      split_ifs with hdropped
      · rw [hdropped, List.append_nil]
        exact ih
      · rw [lt_max_iff, ih, ← Nat.succ_le_iff, le_foldl_max_iff]
        simp only [List.mem_append, or_and_right, exists_or, List.mem_map, exists_exists_and_eq_and,
          Nat.succ_le_iff, Nat.not_lt_zero, false_or]

end ChangeFeed

open ChangeFeed

/-- In one process, a scan is refused only where something has been rotated away, except for the
    positions between the highest one that was dropped and the first one that is left. -/
theorem refused_lost_iff {f : ChangeFeed} (hrun : LiveSteps .empty f) (after limit : Nat) (owner : String)
    (isAdmin : Bool) :
    ((∃ refusal, f.scan limit ⟨after, owner, isAdmin⟩ = .error (.tooOld refusal)) →
        ∃ g ∈ f.gone, after < g.operationId) ↔
      ∀ first ∈ f.writer.log.head?,
        first.sequence = 1 ∨ first.operationId ≤ after ∨ ∃ g ∈ f.gone, after < g.operationId := by
  obtain ⟨_, hlead⟩ := inv_empty.steps hrun.safe
  obtain ⟨committed, -, -, hscan⟩ := hlead.inv.writer.log.scan_eq hlead.inv.placed.positions
  have hrefused : (∃ refusal, f.scan limit ⟨after, owner, isAdmin⟩ = .error (.tooOld refusal)) ↔
      after < horizon f.scanHorizon f.writer.log := by
    rw [ChangeFeed.scan, hscan]
    split_ifs with hafter
    · exact iff_of_true ⟨_, rfl⟩ hafter
    · exact iff_of_false (by rintro ⟨_, ⟨⟩⟩) hafter
  rw [hrefused]
  rcases hlog : f.writer.log with _ | ⟨first, rest⟩
  · exact iff_of_true (hrun.lt_scanHorizon_iff after).1 fun _ h => absurd h (Option.not_mem_none _)
  simp only [horizon, List.head?_cons, Option.mem_some_iff, forall_eq']
  by_cases hfirst : first.sequence = 1
  · simp [hfirst]
  · rw [if_neg hfirst, or_iff_right hfirst, ← not_lt, ← imp_iff_not_or]

namespace ChangePages

/-- A node is inserted, the log rotated, and another node inserted. -/
def rotatedFeed : ChangeFeed :=
  insertInto (ChangeFeed.rotate { alone with writer := alone.writer.advance }) "b"

theorem rotatedFeed_steps : LiveSteps .empty rotatedFeed := by
  have hinsert : LiveStep .empty alone := .write (.standalone rfl _ true) (List.prefix_append _ _)
  have hadvance : LiveStep alone { alone with writer := alone.writer.advance } :=
    .write .advance (by rw [Writer.advance_eq])
  refine (((ReflTransGen.single hinsert).tail hadvance).tail .rotate).tail ?_
  exact .write (.standalone rfl _ true) (List.prefix_append _ _)

end ChangePages

open ChangePages in
/-- The first change can no longer be reported. -/
theorem refused_lost_iff_first :
    (∃ refusal, rotatedFeed.scan 500 ⟨0, "alice", false⟩ = .error (.tooOld refusal)) ∧
      ∃ g ∈ rotatedFeed.gone, 0 < g.operationId := by
  have hrefused : rotatedFeed.scan 500 ⟨0, "alice", false⟩ = .error (.tooOld ⟨0, 2, 1⟩) := by decide +kernel
  refine ⟨⟨_, hrefused⟩, (refused_lost_iff rotatedFeed_steps 0 500 "alice" false).2 ?_ ⟨_, hrefused⟩⟩
  intro first _
  exact .inr (.inr ⟨insertion 1 1 "a", by decide +kernel, by decide⟩)

open ChangePages in
/-- A caller who has seen everything is refused after the first write that follows a rotation. -/
theorem refused_unlost : ¬∀ (f : ChangeFeed) (after limit : Nat) (owner : String) (isAdmin : Bool),
    LiveSteps .empty f →
    (∃ refusal, f.scan limit ⟨after, owner, isAdmin⟩ = .error (.tooOld refusal)) →
    ∃ g ∈ f.gone, after < g.operationId := by
  intro h
  have hrefused : rotatedFeed.scan 500 ⟨1, "alice", false⟩ = .error (.tooOld ⟨1, 2, 1⟩) := by decide +kernel
  obtain ⟨g, hg, hlt⟩ := h rotatedFeed 1 500 "alice" false rotatedFeed_steps ⟨_, hrefused⟩
  have hgone : rotatedFeed.gone = [insertion 1 1 "a"] := by decide +kernel
  rw [hgone, List.mem_singleton] at hg
  rw [hg] at hlt
  exact absurd hlt (by decide)

/-! ## What is reported has been committed -/

/-- A unit of the log is a standalone record, or made of the records of one frame. -/
theorem mem_durableUnits {μ : Type} {records u : List (WalRecord μ)} (hu : u ∈ durableUnits records) :
    (∃ r, u = [r] ∧ r.transactionId = standaloneTransactionId) ∨
      ∃ r rest, u = r :: rest ∧ r.transactionId ≠ standaloneTransactionId := by
  induction records using durableUnits.induct with
  | case1 => rw [durableUnits] at hu; cases hu
  | case2 r rs ih =>
    rw [durableUnits] at hu
    rcases List.mem_cons.1 hu with rfl | hu
    · rw [durableUnit]
      split_ifs with hid
      · exact .inl ⟨r, rfl, hid⟩
      · exact .inr ⟨r, _, rfl, hid⟩
    · exact ih hu

/-- No other records of its frame are outside a unit that ends with COMMIT. -/
theorem SoundLog.frameOf_commit {μ : Type} {records x body y : List (WalRecord μ)} {c : WalRecord μ}
    {n : Counters} (hlog : SoundLog records n) (hrecords : records = x ++ (body ++ [c] ++ y))
    (hunit : IsUnit (body ++ [c])) (hcommit : c.operation = .commit) :
    frameOf x c.transactionId = [] ∧ frameOf y c.transactionId = [] := by
  generalize hwhole : body ++ [c] = whole at hunit hrecords
  cases hunit with
  | standalone r hid hop =>
    obtain ⟨-, hc⟩ := List.append_inj' (hwhole.trans (List.nil_append [r]).symm) rfl
    rw [← List.singleton_inj.1 hc, hcommit] at hop
    cases hop
  | frame b c' body' hid hbegin hbody hclose hcommit' =>
    rw [← List.cons_append] at hwhole
    obtain ⟨-, hc⟩ := List.append_inj' hwhole rfl
    rw [List.singleton_inj.1 hc, hclose]
    exact hlog.frameOf_outside hrecords hid hbegin hclose hcommit'

theorem changesOf_sublist (lens : Lens) (committed : List (Nat × Nat))
    (us : List (List (WalRecord Operation))) :
    ((changesOf lens committed us).map ChangeRecord.seq).Sublist
      (us.flatten.map WalRecord.operationId) := by
  induction us with
  | nil => exact .slnil
  | cons u us ih =>
    rw [changesOf, List.flatMap_cons, List.map_append, List.flatten_cons, List.map_append]
    refine List.Sublist.append ?_ ih
    split_ifs
    · exact emitUnit_sublist _ _ _
    · exact List.nil_sublist _

namespace Writer

variable {w w' : Writer Operation}

/-- The invariant of the writers, with every COMMIT at the end of its unit. -/
structure Tidy (w : Writer Operation) : Prop where
  inv : w.Inv
  placed : w.Placed
  closes : ∀ x c y, w.log = x ++ c :: y → c.operation = .commit →
    ∃ pre body, x = pre ++ body ∧ IsUnit (body ++ [c])

theorem tidy_empty : Tidy .empty :=
  ⟨inv_empty, placed_empty, fun _ _ _ h => absurd h.symm
    (List.append_ne_nil_of_right_ne_nil _ (List.cons_ne_nil _ _))⟩

theorem Tidy.step (h : w.Tidy) (hstep : ProcessStep w w') (hgrows : w.log <+: w'.log) : w'.Tidy := by
  obtain ⟨hplaced, -, hlog⟩ := h.placed.step h.inv hstep hgrows
  refine ⟨h.inv.step hstep.step, hplaced, fun x c y hsplit hcommit => ?_⟩
  rcases hlog with ⟨hlog, -⟩ | ⟨r, happend⟩
  · exact h.closes x c y (hlog ▸ hsplit) hcommit
  rw [happend.log] at hsplit
  rcases List.eq_nil_or_concat' y with rfl | ⟨y, z, rfl⟩
  · obtain ⟨rfl, hr⟩ := List.append_inj' hsplit rfl
    obtain rfl := List.singleton_inj.1 hr
    exact happend.closes hcommit
  · rw [← List.cons_append, ← List.append_assoc] at hsplit
    exact h.closes x c y (List.append_inj' hsplit rfl).1 hcommit

theorem Tidy.restart (h : w.Tidy) (keep : Nat) : (w.restart keep).Tidy := by
  refine ⟨h.inv.restart keep, h.placed.restart keep, fun x c y hsplit hcommit => ?_⟩
  refine h.closes x c (y ++ w.log.drop keep) ?_ hcommit
  have hlog : w.log.take keep = x ++ c :: y := hsplit
  rw [← List.cons_append, ← List.append_assoc, ← hlog, List.take_append_drop]

/-- A unit that the scan takes to be committed has all its records, and its COMMIT. -/
theorem Tidy.isUnit (h : w.Tidy) {committed : List (Nat × Nat)}
    (hok : classifyTransactions w.log = .ok committed) {u : List (WalRecord Operation)}
    (hu : u ∈ durableUnits w.log) (hr : Reported committed u) : IsUnit u := by
  obtain ⟨committed', hok', hmem⟩ := h.inv.log.accepted
  obtain rfl := Except.ok.inj (hok.symm.trans hok')
  rcases mem_durableUnits hu with ⟨r, rfl, hid⟩ | ⟨first, rest, rfl, hid⟩
  · have hr := subset_of_mem_durableUnits hu List.mem_cons_self
    exact .standalone r hid (h.inv.log.standalone r hr hid)
  -- Its frame has a COMMIT, which ends a unit; and no other unit has records of that frame.
  have hstate := hr false
  rw [frameState, if_neg hid] at hstate
  split_ifs at hstate with hany
  obtain ⟨entry, hentry, heq⟩ := List.any_eq_true.1 hany
  obtain ⟨c, hc, hcid, hcommit, -⟩ := (hmem entry.1 entry.2).1 hentry
  have hcid : c.transactionId = first.transactionId := hcid.trans (of_decide_eq_true heq)
  obtain ⟨x, y, hlog⟩ := List.append_of_mem hc
  obtain ⟨pre, body, rfl, hunit⟩ := h.closes x c y hlog hcommit
  have hlog : w.log = pre ++ ((body ++ [c]) ++ y) := by simp [hlog]
  rw [h.inv.log.durableUnits hlog hunit] at hu
  obtain ⟨hpre, hy⟩ := h.inv.log.frameOf_commit hlog hunit hcommit
  have hnone : ∀ z, frameOf z c.transactionId = [] → first :: rest ∉ durableUnits z := by
    intro z hz hmem
    have hfirst := subset_of_mem_durableUnits hmem List.mem_cons_self
    exact absurd (mem_frameOf.2 ⟨hfirst, hcid.symm⟩) (hz ▸ List.not_mem_nil)
  rcases List.mem_append.1 hu with hu | hu
  · exact absurd hu (hnone pre hpre)
  · rcases List.mem_cons.1 hu with heq | hu
    · exact heq ▸ hunit
    · exact absurd hu (hnone y hy)

/-- The feed of a process that has dropped nothing. -/
def feed (w : Writer Operation) : ChangeFeed := ⟨w, 0, [], []⟩

theorem Tidy.feed_inv (h : w.Tidy) : w.feed.Inv :=
  ⟨h.inv, h.placed, nofun, nofun, nofun⟩

/-- A page holds changes of units after the position, in order, and enough unless it is the last. -/
theorem Tidy.scan_sound (h : w.Tidy) {scanHorizon limit : Nat} {lens : Lens} {page : ChangePage}
    (hscan : scan scanHorizon w.log limit lens = .ok page) :
    page.changes.Pairwise (·.seq < ·.seq) ∧
      (∀ c ∈ page.changes, lens.after < c.seq ∧
        ∃ start u, w.feed.UnitAt start u ∧ c ∈ unitChanges lens.owner lens.isAdmin u) ∧
      page.next = resumeAt lens.after page.changes ∧
      (page.complete = false → limit ≤ page.changes.length) := by
  obtain ⟨committed, hok, -⟩ := h.inv.log.accepted
  rw [scan, validatePositions_eq_ok h.placed.positions, hok] at hscan
  split_ifs at hscan
  obtain ⟨walked, rest, hunits, hwalked⟩ := @exists_walked lens limit committed
    ⟨[], lens.after, true⟩ _ (rising_of_positions h.placed.positions) rfl rfl
  rw [Except.ok.inj hscan] at hwalked
  have hchanges : page.changes = changesOf lens committed walked := hwalked.changes
  refine ⟨?_, fun c hc => ?_, hwalked.next, fun hfull => ?_⟩
  · have hlog : w.log.map WalRecord.operationId =
        walked.flatten.map WalRecord.operationId ++ rest.flatten.map WalRecord.operationId := by
      rw [← List.map_append, ← List.flatten_append, ← hunits, flatten_durableUnits]
    have hasc := List.pairwise_map.2 h.placed.positions
    rw [hlog] at hasc
    rw [hchanges]
    exact List.pairwise_map.1 ((List.pairwise_append.1 hasc).1.sublist (changesOf_sublist _ _ _))
  · rw [hchanges, mem_changesOf] at hc
    obtain ⟨u, hu, hr, hc⟩ := hc
    have hmem : u ∈ durableUnits w.log := hunits ▸ List.mem_append_left _ hu
    obtain ⟨dx, dy, hsplit⟩ := List.append_of_mem hmem
    refine ⟨after_lt_of_mem_emitUnit hc, dx.flatten.length, u, ⟨h.isUnit hok hmem hr, dx.flatten,
      dy.flatten, ?_, rfl⟩, ?_⟩
    · exact (flatten_durableUnits w.log).symm.trans (by rw [hsplit]; simp)
    · rw [emitUnit_filter] at hc
      exact (List.mem_filter.1 hc).1
  · rcases hwalked.stop with ⟨hcomplete, -⟩ | ⟨-, -, hlength, -⟩
    · rw [hfull] at hcomplete
      cases hcomplete
    · exact hlength

end Writer

/-! ## Every change once -/

/-- What holds of the pages that have been read. -/
structure Paged (owner : String) (isAdmin : Bool) (w : Writer Operation) (after : Nat)
    (seen : List ChangeRecord) : Prop where
  tidy : w.Tidy
  sequence : w.counters.sequence = w.log.length + 1
  first : ∀ r ∈ w.log.head?, r.sequence = 1
  owed : ∃ mark, w.feed.Owed after mark ∧ ∀ start u, w.feed.UnitAt start u → start < mark →
    unitChanges owner isAdmin u ⊆ seen
  rising : seen.Pairwise (·.seq < ·.seq)
  below : ∀ c ∈ seen, c.seq ≤ after
  units : ∀ c ∈ seen, ∃ start u, w.feed.UnitAt start u ∧ c ∈ unitChanges owner isAdmin u

section Paging

variable {owner : String} {isAdmin : Bool} {w w' : Writer Operation} {after limit : Nat}
  {seen : List ChangeRecord} {page : ChangePage}

theorem Paged.start : Paged owner isAdmin .empty 0 [] where
  tidy := Writer.tidy_empty
  sequence := rfl
  first := nofun
  owed := ⟨0, ⟨Nat.zero_le _, nofun, Nat.one_pos, fun _ h => absurd h (Nat.not_lt_zero _),
    fun _ _ _ h => absurd h (Nat.not_lt_zero _)⟩, fun _ _ _ h => absurd h (Nat.not_lt_zero _)⟩
  rising := .nil
  below := nofun
  units := nofun

theorem Paged.write (h : Paged owner isAdmin w after seen) (hstep : Writer.ProcessStep w w')
    (hgrows : w.log <+: w'.log)
    (hwhole : w'.counters.sequence + w.log.length = w.counters.sequence + w'.log.length) :
    Paged owner isAdmin w' after seen := by
  obtain ⟨mark, howed, hbefore⟩ := h.owed
  have howed' := howed.write h.tidy.feed_inv hstep hgrows
  obtain ⟨new, hnew⟩ := hgrows
  refine ⟨h.tidy.step hstep ⟨new, hnew⟩, ?_, ?_, ⟨mark, howed', fun start u hu hlt => ?_⟩, h.rising,
    h.below, fun c hc => ?_⟩
  · have hsequence := h.sequence
    omega
  · obtain ⟨-, -, hlog⟩ := h.tidy.placed.step h.tidy.inv hstep ⟨new, hnew⟩
    rcases hlog with ⟨hlog, -⟩ | ⟨r, happend⟩
    · exact hlog ▸ h.first
    rw [happend.log]
    rcases hold : w.log with _ | ⟨r₀, rest⟩
    · intro r' hr'
      obtain rfl : r = r' := Option.some.inj hr'
      rw [happend.sequence, h.sequence, hold]
      rfl
    have hfirst := h.first
    rwa [hold] at hfirst
  · refine hbefore start u (hu.of_append hnew.symm ?_) hlt
    exact ((howed'.whole start u hu hlt).trans howed.le).trans (ChangeFeed.settled_le _)
  · obtain ⟨start, u, hu, hc⟩ := h.units c hc
    exact ⟨start, u, hu.append hnew.symm, hc⟩

theorem le_resumeAt {changes : List ChangeRecord} (hasc : changes.Pairwise (·.seq < ·.seq))
    (hafter : ∀ c ∈ changes, after < c.seq) :
    after ≤ resumeAt after changes ∧ ∀ c ∈ changes, c.seq ≤ resumeAt after changes := by
  rcases List.eq_nil_or_concat' changes with rfl | ⟨xs, last, rfl⟩
  · exact ⟨le_rfl, nofun⟩
  rw [resumeAt, List.getLast?_concat]
  refine ⟨(hafter last (List.mem_append_right _ List.mem_cons_self)).le, fun c hc => ?_⟩
  rcases List.mem_append.1 hc with hc | hc
  · exact ((List.pairwise_append.1 hasc).2.2 c hc last List.mem_cons_self).le
  · exact (congrArg ChangeRecord.seq (List.mem_singleton.1 hc)).le

theorem Paged.read (h : Paged owner isAdmin w after seen)
    (hscan : scan 0 w.log limit ⟨after, owner, isAdmin⟩ = .ok page) :
    Paged owner isAdmin w page.next (seen ++ page.changes) := by
  obtain ⟨mark, howed, hbefore⟩ := h.owed
  obtain ⟨hpage, hsound, hnext, -⟩ := h.tidy.scan_sound hscan
  obtain ⟨mark', -, howed', hreported, -⟩ :=
    howed.scan h.tidy.feed_inv (fun _ => Nat.zero_le _) hscan
  obtain ⟨hafter, hlast⟩ := le_resumeAt hpage fun c hc => (hsound c hc).1
  rw [← hnext] at hafter hlast
  refine ⟨h.tidy, h.sequence, h.first, ⟨mark', howed', fun start u hu hlt => ?_⟩, ?_, ?_, ?_⟩
  · by_cases hstart : start < mark
    · exact List.subset_append_of_subset_left _ (hbefore start u hu hstart)
    · exact List.subset_append_of_subset_right _ (hreported start u hu (Nat.le_of_not_lt hstart) hlt)
  · refine List.pairwise_append.2 ⟨h.rising, hpage, fun c hc c' hc' => ?_⟩
    exact (h.below c hc).trans_lt (hsound c' hc').1
  · exact List.forall_mem_append.2 ⟨fun c hc => (h.below c hc).trans hafter, hlast⟩
  · exact List.forall_mem_append.2 ⟨h.units, fun c hc => (hsound c hc).2⟩

end Paging

/-- The log with how many of its records a completed fsync covers, and what scans have reported. -/
structure SyncedFeed where
  writer : Writer Operation
  synced : Nat
  reported : List ChangeRecord

namespace SyncedFeed

/-- A new database. -/
def empty : SyncedFeed := ⟨.empty, 0, []⟩

/-- Records are appended, and synced later; callers scan; and a crash keeps what is synced. -/
inductive Step : SyncedFeed → SyncedFeed → Prop
  | write {s : SyncedFeed} {w : Writer Operation} (h : Writer.ProcessStep s.writer w)
      (hgrows : s.writer.log <+: w.log) : Step s { s with writer := w }
  | sync {s : SyncedFeed} {n : Nat} (hn : n ≤ s.writer.log.length) :
      Step s { s with synced := max s.synced n }
  | scan {s : SyncedFeed} {scanHorizon limit : Nat} {lens : Lens} {page : ChangePage}
      (h : FacetQL.scan scanHorizon s.writer.log limit lens = .ok page) :
      Step s { s with reported := s.reported ++ page.changes }
  | crash {s : SyncedFeed} (keep : Nat) (hkeep : s.synced ≤ keep) :
      Step s { s with writer := s.writer.restart keep }

/-- The steps, with scans only while every committed unit of the log is synced. -/
inductive CalmStep : SyncedFeed → SyncedFeed → Prop
  | step {s s' : SyncedFeed} (h : Step s s') (hsame : s'.reported = s.reported) : CalmStep s s'
  | scan {s : SyncedFeed} {scanHorizon limit : Nat} {lens : Lens} {page : ChangePage}
      (hsynced : s.writer.settled ≤ s.synced)
      (h : FacetQL.scan scanHorizon s.writer.log limit lens = .ok page) :
      CalmStep s { s with reported := s.reported ++ page.changes }

/-- Everything that has been reported is in a committed unit that is synced. -/
structure Inv (s : SyncedFeed) : Prop where
  tidy : s.writer.Tidy
  synced : s.synced ≤ s.writer.log.length
  reported : ∀ c ∈ s.reported, ∃ start u, s.writer.feed.UnitAt start u ∧ start + u.length ≤ s.synced ∧
    ∃ owner isAdmin, c ∈ unitChanges owner isAdmin u

variable {s s' : SyncedFeed}

theorem Inv.step (h : s.Inv) (hstep : Step s s') (hsame : s'.reported = s.reported) : s'.Inv := by
  cases hstep with
  | @write w hstep hgrows =>
    obtain ⟨new, hnew⟩ := hgrows
    refine ⟨h.tidy.step hstep ⟨new, hnew⟩, h.synced.trans ?_, fun c hc => ?_⟩
    · exact hnew ▸ List.length_append ▸ Nat.le_add_right _ _
    · obtain ⟨start, u, hu, hc⟩ := h.reported c hc
      exact ⟨start, u, hu.append hnew.symm, hc⟩
  | sync hn =>
    refine ⟨h.tidy, max_le h.synced hn, fun c hc => ?_⟩
    obtain ⟨start, u, hu, hend, hc⟩ := h.reported c hc
    exact ⟨start, u, hu, hend.trans (le_max_left _ _), hc⟩
  | scan => exact ⟨h.tidy, h.synced, fun c hc => h.reported c (by rwa [hsame] at hc)⟩
  | crash keep hkeep =>
    refine ⟨h.tidy.restart keep, ?_, fun c hc => ?_⟩
    · exact (le_min hkeep h.synced).trans_eq (List.length_take).symm
    · obtain ⟨start, u, hu, hend, hc⟩ := h.reported c hc
      refine ⟨start, u, hu.of_take keep ?_ (hend.trans hkeep), hend, hc⟩
      exact (List.take_take.trans (congrArg (List.take · s.writer.log) (min_self keep))).symm

theorem Inv.scan (h : s.Inv) {scanHorizon limit : Nat} {lens : Lens} {page : ChangePage}
    (hsynced : s.writer.settled ≤ s.synced)
    (hscan : FacetQL.scan scanHorizon s.writer.log limit lens = .ok page) :
    Inv { s with reported := s.reported ++ page.changes } := by
  refine ⟨h.tidy, h.synced, List.forall_mem_append.2 ⟨h.reported, fun c hc => ?_⟩⟩
  obtain ⟨-, hsound, -⟩ := h.tidy.scan_sound hscan
  obtain ⟨start, u, hu, hc⟩ := (hsound c hc).2
  have hsettled := h.tidy.feed_inv.unit_settled hu
  rw [ChangeFeed.settled] at hsettled
  exact ⟨start, u, hu, (hsettled.trans_eq (Nat.zero_add _)).trans hsynced, _, _, hc⟩

theorem inv_of_steps (h : ReflTransGen CalmStep .empty s) : s.Inv := by
  induction h with
  | refl => exact ⟨Writer.tidy_empty, le_rfl, nofun⟩
  | tail _ hstep ih =>
    cases hstep with
    | step hstep hsame => exact ih.step hstep hsame
    | scan hsynced hscan => exact ih.scan hsynced hscan

end SyncedFeed

open SyncedFeed

/-- In a run in which scans read the log only while its committed units are synced, a change that has
    been reported stays in a committed unit of the log, over every crash, and its position stays its own. -/
theorem reported_kept {s : SyncedFeed} (hrun : ReflTransGen CalmStep .empty s) :
    ∀ c ∈ s.reported, ∃ x u y, s.writer.log = x ++ (u ++ y) ∧ IsUnit u ∧
      (∃ owner isAdmin, c ∈ unitChanges owner isAdmin u) ∧
      ∀ r ∈ s.writer.log, r.operationId = c.seq → r ∈ u := by
  intro c hc
  have h := inv_of_steps hrun
  obtain ⟨_, u, ⟨hunit, x, y, hplace, -⟩, -, owner, isAdmin, hc⟩ := h.reported c hc
  have hlog : s.writer.log = x ++ (u ++ y) := hplace
  refine ⟨x, u, y, hlog, hunit, ⟨owner, isAdmin, hc⟩, fun r hr hposition => ?_⟩
  obtain ⟨r₀, hr₀, hseq⟩ := mem_emitUnit hc
  have hmem : r₀ ∈ s.writer.log := hlog ▸ List.mem_append_right _ (List.mem_append_left _ hr₀)
  -- Positions ascend along the log, so that no two records have the same.
  have hnodup : (s.writer.log.map WalRecord.operationId).Nodup :=
    List.pairwise_map.2 (h.tidy.placed.positions.imp Nat.ne_of_lt)
  exact List.inj_on_of_nodup_map hnodup hr hmem (hposition.trans hseq) ▸ hr₀

namespace ChangePages

/-- A node is inserted, and a caller told. -/
def told : SyncedFeed := ⟨alone.writer, 0, [⟨1, .created, "a", "Person"⟩]⟩

theorem told_steps : ReflTransGen SyncedFeed.Step .empty told := by
  have hinsert : SyncedFeed.Step .empty ⟨alone.writer, 0, []⟩ :=
    .write (.standalone rfl _ true) (List.prefix_append _ _)
  exact (ReflTransGen.single hinsert).tail (.scan (s := ⟨alone.writer, 0, []⟩) scan_alone)

end ChangePages

open ChangePages in
/-- The insert is synced before the scan, and a crash leaves it. -/
theorem reported_kept_synced : ∃ s, ReflTransGen CalmStep .empty s ∧
    ⟨1, .created, "a", "Person"⟩ ∈ s.reported ∧ ∃ x u y, s.writer.log = x ++ (u ++ y) ∧ IsUnit u := by
  have hinsert : SyncedFeed.Step .empty ⟨alone.writer, 0, []⟩ :=
    .write (.standalone rfl _ true) (List.prefix_append _ _)
  have hsync : SyncedFeed.Step ⟨alone.writer, 0, []⟩ ⟨alone.writer, 1, []⟩ := .sync (n := 1) le_rfl
  have hscan : CalmStep ⟨alone.writer, 1, []⟩ ⟨alone.writer, 1, told.reported⟩ :=
    .scan (s := ⟨alone.writer, 1, []⟩) (by decide +kernel) scan_alone
  have hcrash : SyncedFeed.Step ⟨alone.writer, 1, told.reported⟩
      ⟨alone.writer.restart 1, 1, told.reported⟩ := .crash 1 le_rfl
  have hrun : ReflTransGen CalmStep .empty ⟨alone.writer.restart 1, 1, told.reported⟩ :=
    (((ReflTransGen.single (.step hinsert rfl)).tail (.step hsync rfl)).tail hscan).tail
      (.step hcrash rfl)
  obtain ⟨x, u, y, hlog, hunit, -⟩ := reported_kept hrun _ List.mem_cons_self
  exact ⟨_, hrun, List.mem_cons_self, x, u, y, hlog, hunit⟩

open ChangePages in
/-- A change is reported before it is synced, and a crash loses it. -/
theorem reported_lost : ¬∀ s : SyncedFeed, ReflTransGen SyncedFeed.Step .empty s →
    ∀ c ∈ s.reported, ∃ x u y, s.writer.log = x ++ (u ++ y) ∧ IsUnit u ∧
      (∃ owner isAdmin, c ∈ unitChanges owner isAdmin u) ∧
      ∀ r ∈ s.writer.log, r.operationId = c.seq → r ∈ u := by
  intro h
  obtain ⟨x, u, y, hlog, hunit, -⟩ := h _ (told_steps.tail (.crash 0 le_rfl)) _ List.mem_cons_self
  have hnil : x ++ (u ++ y) = [] := hlog.symm.trans (by decide +kernel)
  exact hunit.ne_nil (List.append_eq_nil_iff.1 (List.append_eq_nil_iff.1 hnil).2).1

end FacetQL
