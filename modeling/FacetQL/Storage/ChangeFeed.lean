import FacetQL.Storage.Changes

/-!
# Resuming the scan for changes

A caller goes on from the position that the last page ends with, later on, perhaps in
another process. Positions are operation ids, which recovery takes from the checkpoint and
from what is left of the log, so that after a rotation a new record can get a position that
has been passed before; and a caller can ask from any position, also one that lies ahead.
Where neither happens, nothing is left out silently.

* `changes_no_gap`: when the pages from an issued position on hold every change;
* `changes_gap`: not if a restart hands out positions again.
-/

namespace FacetQL

open Relation

/-- The highest position there is. -/
def u64Max : Nat := 2 ^ 64 - 1

/-- The writers, and what has been scanned of their log. -/
structure ChangeFeed where
  writer : Writer Operation
  /-- The oldest position for an empty log, as this process knows it. -/
  scanHorizon : Nat
  /-- The records that have been rotated away. -/
  gone : List (WalRecord Operation)
  /-- The positions that scans have returned, each with the length of the history at that
      time, up to a frame that was still open. -/
  issued : List (Nat × Nat)

namespace ChangeFeed

/-- A new database, with nothing scanned. -/
def empty : ChangeFeed := ⟨.empty, 0, [], []⟩

/-- All records there have been, but for those that a crash has lost. -/
def history (f : ChangeFeed) : List (WalRecord Operation) := f.gone ++ f.writer.log

/-- The length of the history, up to a frame that is still open. -/
def settled (f : ChangeFeed) : Nat := f.gone.length + f.writer.settled

/-- A scan of the log. -/
def scan (f : ChangeFeed) (limit : Nat) (lens : Lens) : Except ScanError ChangePage :=
  FacetQL.scan f.scanHorizon f.writer.log limit lens

/-- A scan has returned a position. -/
def issue (f : ChangeFeed) (next : Nat) : ChangeFeed :=
  { f with issued := f.issued ++ [(next, f.settled)] }

/-- Rotate the log; the highest position that is dropped becomes the horizon. -/
def rotate (f : ChangeFeed) : ChangeFeed :=
  let dropped := f.writer.log.filter fun r => r.sequence ≤ f.writer.checkpoint
  { f with
    writer := { f.writer with log := FacetQL.rotate f.writer.checkpoint f.writer.log }
    gone := f.gone ++ dropped
    scanHorizon :=
      if dropped = [] then f.scanHorizon
      else max f.scanHorizon ((dropped.map WalRecord.operationId).foldl max 0) }

/-- The next process, on the first `keep` records. An empty log with a checkpoint vouches for
    nothing. -/
def restart (f : ChangeFeed) (keep : Nat) : ChangeFeed :=
  let left := f.writer.log.take keep
  { writer := f.writer.restart keep
    scanHorizon := if left = [] ∧ f.writer.checkpoint ≠ 0 then u64Max else 0
    gone := f.gone
    issued := f.issued.map fun p => (p.1, min p.2 (f.gone.length + left.length)) }

/-- The steps of a database, over any number of processes. -/
inductive Step : ChangeFeed → ChangeFeed → Prop
  | write {f : ChangeFeed} {w : Writer Operation} (h : Writer.ProcessStep f.writer w)
      (hgrows : f.writer.log <+: w.log) : Step f { f with writer := w }
  | rotate {f : ChangeFeed} : Step f f.rotate
  | scan {f : ChangeFeed} {limit : Nat} {lens : Lens} {page : ChangePage}
      (h : f.scan limit lens = .ok page) : Step f (f.issue page.next)
  | restart {f : ChangeFeed} (keep : Nat) : Step f (f.restart keep)

/-- A position that the counter has passed, and no frame that is still open. -/
def Safe (f : ChangeFeed) (after : Nat) : Prop :=
  after < u64Max ∧ after < f.writer.counters.operationId ∧
    ∀ r ∈ f.writer.openRecords, after < r.operationId

/-- The steps, with scans from safe positions, and issued positions covered at restarts. -/
inductive SafeStep : ChangeFeed → ChangeFeed → Prop
  | write {f : ChangeFeed} {w : Writer Operation} (h : Writer.ProcessStep f.writer w)
      (hgrows : f.writer.log <+: w.log) : SafeStep f { f with writer := w }
  | rotate {f : ChangeFeed} : SafeStep f f.rotate
  | scan {f : ChangeFeed} {limit : Nat} {lens : Lens} {page : ChangePage} (hsafe : f.Safe lens.after)
      (h : f.scan limit lens = .ok page) : SafeStep f (f.issue page.next)
  | restart {f : ChangeFeed} (keep : Nat) (hcovered : ∀ p ∈ f.issued, f.writer.Covers keep p.1) :
      SafeStep f (f.restart keep)

theorem SafeStep.step {f f' : ChangeFeed} (h : SafeStep f f') : Step f f' := by
  cases h with
  | write h hgrows => exact .write h hgrows
  | rotate => exact .rotate
  | scan _ h => exact .scan h
  | restart keep _ => exact .restart keep

/-- A run of safe steps. -/
abbrev SafeSteps : ChangeFeed → ChangeFeed → Prop := ReflTransGen SafeStep

/-- Scans, each from where the one before has ended, until a page is complete, and their changes. -/
inductive Scans (owner : String) (isAdmin : Bool) :
    ChangeFeed → Nat → List ChangeRecord → ChangeFeed → Prop
  | last {f : ChangeFeed} {after limit : Nat} {page : ChangePage} (hsafe : f.Safe after)
      (h : f.scan limit ⟨after, owner, isAdmin⟩ = .ok page) (hcomplete : page.complete = true) :
      Scans owner isAdmin f after page.changes (f.issue page.next)
  | more {f f₁ f' : ChangeFeed} {after limit : Nat} {page : ChangePage} {changes : List ChangeRecord}
      (hsafe : f.Safe after) (h : f.scan limit ⟨after, owner, isAdmin⟩ = .ok page)
      (hsteps : SafeSteps (f.issue page.next) f₁)
      (hrest : Scans owner isAdmin f₁ page.next changes f') :
      Scans owner isAdmin f after (page.changes ++ changes) f'

/-- A committed unit of the history, and where it begins. -/
structure UnitAt (f : ChangeFeed) (start : Nat) (u : List (WalRecord Operation)) : Prop where
  isUnit : IsUnit u
  place : ∃ x y, f.history = x ++ (u ++ y) ∧ x.length = start

/-- The history from some point on lies after a position, and can be scanned if not refused. -/
structure Owed (f : ChangeFeed) (position mark : Nat) : Prop where
  le : mark ≤ f.settled
  after : ∀ r ∈ f.history.drop mark, position < r.operationId
  counter : position < f.writer.counters.operationId
  refused : position < u64Max → mark < f.gone.length → f.writer.log = [] → position < f.scanHorizon
  whole : ∀ start u, f.UnitAt start u → start < mark → start + u.length ≤ mark

/-- What holds of the log and of the positions that scans have returned. -/
structure Inv (f : ChangeFeed) : Prop where
  writer : f.writer.Inv
  placed : f.writer.Placed
  gone : ∀ g ∈ f.gone, g.sequence ≠ 0 ∧ g.sequence ≤ f.writer.checkpoint
  order : ∀ g ∈ f.gone, ∀ r ∈ f.writer.log, g.sequence < r.sequence
  issued : ∀ p ∈ f.issued, f.Owed p.1 p.2

theorem inv_empty : empty.Inv where
  writer := Writer.inv_empty
  placed := Writer.placed_empty
  gone := nofun
  order := nofun
  issued := nofun

variable {f f' : ChangeFeed} {position mark start : Nat} {u : List (WalRecord Operation)}

/-! ## Committed units -/

theorem length_history (f : ChangeFeed) : f.history.length = f.gone.length + f.writer.log.length :=
  List.length_append

theorem settled_le (f : ChangeFeed) : f.settled ≤ f.history.length := by
  rw [length_history, settled]
  exact Nat.add_le_add_left f.writer.settled_le _

theorem Inv.drop_settled (h : f.Inv) : f.history.drop f.settled = f.writer.openRecords := by
  obtain ⟨x, hx⟩ := h.placed.opened
  have hlength : f.writer.settled = x.length := by
    rw [Writer.settled, ← hx, List.length_append, Nat.add_sub_cancel]
  rw [history, settled, hlength, List.drop_append, ← hx]
  simp

/-- A frame that is still open has neither COMMIT nor ABORT. -/
theorem Inv.openRecords (h : f.Inv) (hne : f.writer.openRecords ≠ []) :
    ∃ id, id ≠ standaloneTransactionId ∧ f.writer.openRecords = frameOf f.writer.log id ∧
      ∀ r ∈ f.writer.openRecords, r.operation ≠ .commit ∧ r.operation ≠ .abort := by
  rcases hframe : f.writer.frame with _ | g
  · exact absurd (Writer.openRecords_of_none hframe) hne
  rcases hcommit : g.commitSequence with _ | c
  · have hopen := h.writer.frame g hframe hcommit
    obtain ⟨b, muts, hrecords, hbegin, -, hmuts⟩ := hopen.records
    refine ⟨g.transactionId, hopen.id_ne, Writer.openRecords_of_some hframe hcommit, fun r hr => ?_⟩
    rw [Writer.openRecords_of_some hframe hcommit, hrecords] at hr
    rcases List.mem_cons.1 hr with rfl | hr
    · simp [hbegin]
    · have hcontrol := hmuts r hr
      constructor <;> rintro heq <;> cases heq ▸ hcontrol
  · exact absurd (Writer.openRecords_of_committed hframe hcommit) hne

theorem UnitAt.length_le (hu : f.UnitAt start u) : start + u.length ≤ f.history.length := by
  obtain ⟨-, x, y, heq, rfl⟩ := hu
  rw [heq, List.length_append, List.length_append]
  omega

theorem UnitAt.mem_drop (hu : f.UnitAt start u) (hle : mark ≤ start) {r : WalRecord Operation}
    (hr : r ∈ u) : r ∈ f.history.drop mark := by
  obtain ⟨-, x, y, heq, rfl⟩ := hu
  rw [heq, List.drop_append_of_le_length hle]
  exact List.mem_append_right _ (List.mem_append_left _ hr)

/-- A committed unit is settled. -/
theorem Inv.unit_settled (h : f.Inv) (hu : f.UnitAt start u) : start + u.length ≤ f.settled := by
  by_contra hlt
  obtain ⟨hunit, x, y, heq, rfl⟩ := hu
  obtain ⟨body, last, rfl, hlast⟩ := hunit.getLast
  have hmem : last ∈ f.writer.openRecords := by
    have hle : f.settled ≤ (x ++ body).length := by
      simp only [List.length_append, List.length_singleton] at hlt ⊢
      omega
    rw [← h.drop_settled, heq, List.append_assoc, ← List.append_assoc x, List.drop_append_of_le_length hle]
    exact List.mem_append_right _ (List.mem_append_left _ List.mem_cons_self)
  obtain ⟨id, hid, hopened, hops⟩ := h.openRecords (List.ne_nil_of_mem hmem)
  rcases hlast with hlast | hlast
  · rw [hopened] at hmem
    exact hid ((mem_frameOf.1 hmem).2.symm.trans hlast)
  · exact (hops last hmem).1 hlast

/-- A unit within a common beginning of two histories. -/
theorem UnitAt.of_take (hu : f'.UnitAt start u) (low : Nat)
    (hsame : f'.history.take low = f.history.take low) (hle : start + u.length ≤ low) :
    f.UnitAt start u := by
  obtain ⟨hunit, x, y, heq, rfl⟩ := hu
  have htake : f.history.take (x.length + u.length) = x ++ u := by
    have hprefix := congrArg (List.take (x.length + u.length)) hsame
    rw [List.take_take, List.take_take, min_eq_left hle] at hprefix
    rw [← hprefix, heq, ← List.append_assoc, ← List.length_append, List.take_left]
  refine ⟨hunit, x, f.history.drop (x.length + u.length), ?_, rfl⟩
  rw [← List.append_assoc, ← htake, List.take_append_drop]

theorem Safe.owed (h : f.Inv) (hsafe : f.Safe position) : f.Owed position f.settled where
  le := le_rfl
  after r hr := hsafe.2.2 r (h.drop_settled ▸ hr)
  counter := hsafe.2.1
  refused _ hlt := absurd hlt (Nat.le_add_right _ _).not_gt
  whole _ _ hu _ := h.unit_settled hu

/-! ## What steps keep -/

theorem UnitAt.append {new : List (WalRecord Operation)} (hu : f.UnitAt start u)
    (heq : f'.history = f.history ++ new) : f'.UnitAt start u := by
  obtain ⟨hunit, x, y, hplace, rfl⟩ := hu
  exact ⟨hunit, x, y ++ new, by rw [heq, hplace, List.append_assoc, List.append_assoc], rfl⟩

/-- The history goes on from where it is. -/
theorem UnitAt.of_append {new : List (WalRecord Operation)} (hu : f'.UnitAt start u)
    (heq : f'.history = f.history ++ new) (hle : start + u.length ≤ f.history.length) :
    f.UnitAt start u := by
  refine hu.of_take f.history.length ?_ hle
  rw [heq, List.take_left, List.take_length]

theorem Owed.write (h : f.Inv) (howed : f.Owed position mark) {w : Writer Operation}
    (hstep : Writer.ProcessStep f.writer w) (hgrows : f.writer.log <+: w.log) :
    Owed { f with writer := w } position mark := by
  obtain ⟨-, hsettled, hlog⟩ := h.placed.step h.writer hstep hgrows
  have hle : mark ≤ settled { f with writer := w } :=
    howed.le.trans (Nat.add_le_add_left hsettled _)
  rcases hlog with ⟨hlog, hcounter⟩ | ⟨r, happend⟩
  · have hsame : history { f with writer := w } = f.history := congrArg (f.gone ++ ·) hlog
    refine ⟨hle, hsame ▸ howed.after, howed.counter.trans_le hcounter, ?_, fun start u hu hlt => ?_⟩
    · exact fun hmax hlt hnil => howed.refused hmax hlt (hlog ▸ hnil)
    · exact howed.whole start u ⟨hu.isUnit, hsame ▸ hu.place⟩ hlt
  have hsame : history { f with writer := w } = f.history ++ [r] := by
    rw [history, history, happend.log, List.append_assoc]
  have hmark : mark ≤ f.history.length := howed.le.trans f.settled_le
  refine ⟨hle, fun r' hr' => ?_, howed.counter.trans happend.counter, fun _ _ hnil => ?_,
    fun start u hu hlt => ?_⟩
  · rw [hsame, List.drop_append_of_le_length hmark, List.mem_append, List.mem_singleton] at hr'
    rcases hr' with hr' | rfl
    · exact howed.after r' hr'
    · exact happend.position ▸ howed.counter
  · rw [happend.log] at hnil
    exact absurd hnil (List.append_ne_nil_of_right_ne_nil _ (List.cons_ne_nil _ _))
  · by_cases hfits : start + u.length ≤ f.history.length
    · exact howed.whole start u (hu.of_append hsame hfits) hlt
    · -- The record completes the unit, which begins where the open frame does.
      obtain ⟨hunit, x, y, heq, rfl⟩ := hu
      obtain ⟨body, rfl, hbody⟩ := hunit.at_end (hsame.symm.trans heq) (Nat.lt_of_not_le hfits)
      exact absurd (howed.le.trans (happend.unit hunit hbody)) hlt.not_ge

theorem history_rotate (h : f.Inv) : f.rotate.history = f.history := by
  rw [history, history, rotate, List.append_assoc, Writer.rotate_append h.writer.log.asc]

theorem settled_rotate (h : f.Inv) : f.rotate.settled = f.settled := by
  rw [settled, settled, ← (h.placed.rotate h.writer).2, ← Nat.add_assoc, ← List.length_append]
  rfl

theorem Owed.rotate (h : f.Inv) (howed : f.Owed position mark) : f.rotate.Owed position mark := by
  have hhistory := history_rotate h
  refine ⟨settled_rotate h ▸ howed.le, hhistory ▸ howed.after, howed.counter, fun hmax hlt hnil => ?_,
    fun start u hu hlt => howed.whole start u ⟨hu.isUnit, hhistory ▸ hu.place⟩ hlt⟩
  -- Everything that was in the log is dropped.
  have hdropped := Writer.rotate_append h.writer.log.asc f.writer.checkpoint
  rw [show FacetQL.rotate f.writer.checkpoint f.writer.log = [] from hnil, List.append_nil] at hdropped
  rw [ChangeFeed.rotate] at hlt ⊢
  dsimp only at hlt ⊢
  rw [hdropped] at hlt ⊢
  by_cases hlog : f.writer.log = []
  · rw [if_pos hlog]
    rw [hlog, List.append_nil] at hlt
    exact howed.refused hmax hlt hlog
  rw [if_neg hlog]
  -- The last of it lies behind the mark.
  obtain ⟨xs, last, hsplit⟩ : ∃ xs last, f.writer.log = xs ++ [last] :=
    (List.eq_nil_or_concat' _).resolve_left hlog
  have hlast : last ∈ f.history.drop mark := by
    have hle : mark ≤ (f.gone ++ xs).length := by
      rw [hsplit] at hlt
      simp only [List.length_append, List.length_singleton] at hlt ⊢
      omega
    rw [history, hsplit, ← List.append_assoc, List.drop_append_of_le_length hle]
    exact List.mem_append_right _ List.mem_cons_self
  refine lt_max_of_lt_right (lt_of_lt_of_le (howed.after _ hlast) ?_)
  rw [le_foldl_max_iff]
  exact .inr ⟨_, List.mem_map_of_mem (hsplit ▸ List.mem_append_right _ List.mem_cons_self), le_rfl⟩

theorem Owed.issue (howed : f.Owed position mark) (next : Nat) : (f.issue next).Owed position mark :=
  ⟨howed.le, howed.after, howed.counter, howed.refused,
    fun start u hu hlt => howed.whole start u ⟨hu.isUnit, hu.place⟩ hlt⟩

theorem history_restart (f : ChangeFeed) (keep : Nat) :
    f.history = (f.restart keep).history ++ f.writer.log.drop keep := by
  rw [history, history, List.append_assoc]
  exact congrArg (f.gone ++ ·) (List.take_append_drop keep f.writer.log).symm

theorem Owed.restart (h : f.Inv) (howed : f.Owed position mark) {keep : Nat}
    (hcovered : f.writer.Covers keep position) :
    (f.restart keep).Owed position (min mark (f.restart keep).history.length) := by
  have hhistory := f.history_restart keep
  refine ⟨?_, fun r hr => ?_, Writer.lt_restart_iff.2 hcovered, fun hmax hlt hnil => ?_,
    fun start u hu hlt => ?_⟩
  · refine (min_le_right _ _).trans ?_
    rw [length_history, settled, Writer.settled_of_none rfl]
  · refine howed.after r ?_
    rw [hhistory, List.drop_append]
    refine List.mem_append_left _ ?_
    rcases le_total mark (f.restart keep).history.length with hle | hle
    · rwa [min_eq_left hle] at hr
    · rw [min_eq_right hle, List.drop_length] at hr
      cases hr
  · -- Something has been rotated away, so there is a checkpoint.
    have hcheckpoint : f.writer.checkpoint ≠ 0 := by
      obtain ⟨g, hg⟩ := List.exists_mem_of_length_pos (Nat.zero_lt_of_lt hlt)
      obtain ⟨hne, hle⟩ := h.gone g hg
      exact (Nat.lt_of_lt_of_le (Nat.pos_of_ne_zero hne) hle).ne'
    rw [show (f.restart keep).scanHorizon = u64Max from if_pos ⟨hnil, hcheckpoint⟩]
    exact hmax
  · exact le_min (howed.whole start u (hu.append hhistory) (lt_min_iff.1 hlt).1) hu.length_le

/-! ## What a scan reports -/

theorem Owed.gone_le (h : f.Inv) (howed : f.Owed position mark) (hmax : position < u64Max)
    (hhorizon : ¬ position < horizon f.scanHorizon f.writer.log) : f.gone.length ≤ mark := by
  by_contra hlt
  refine hhorizon ?_
  rcases hlog : f.writer.log with _ | ⟨first, rest⟩
  · exact howed.refused hmax (Nat.lt_of_not_le hlt) hlog
  have hfirst : first ∈ f.writer.log := hlog ▸ List.mem_cons_self
  obtain ⟨g, hmem⟩ := List.exists_mem_of_length_pos (Nat.zero_lt_of_lt (Nat.lt_of_not_le hlt))
  have hsequence : first.sequence ≠ 1 := by
    have hpos := Nat.pos_of_ne_zero (h.gone g hmem).1
    exact (Nat.lt_of_le_of_lt hpos (h.order g hmem first hfirst)).ne'
  rw [horizon, if_neg hsequence]
  refine howed.after first ?_
  rw [history, List.drop_append_of_le_length (Nat.le_of_not_le hlt)]
  exact List.mem_append_right _ hfirst

/-- A unit that begins in the log. -/
theorem UnitAt.inLog (hu : f.UnitAt start u) (hle : f.gone.length ≤ start) :
    ∃ x y, f.writer.log = x ++ (u ++ y) ∧ f.gone.length + x.length = start := by
  obtain ⟨-, x, y, heq, rfl⟩ := hu
  rw [history] at heq
  rcases List.append_eq_append_iff.1 heq with ⟨x', rfl, hlog⟩ | ⟨x', hx, hlog⟩
  · exact ⟨x', y, hlog, List.length_append.symm⟩
  have hnil : x' = [] := by
    have hlength := congrArg List.length hx
    rw [List.length_append] at hlength
    exact List.eq_nil_of_length_eq_zero (by omega)
  rw [hnil, List.nil_append] at hlog
  rw [hnil, List.append_nil] at hx
  exact ⟨[], y, hlog.symm, by rw [hx]; rfl⟩

/-- A unit that begins within the units that have been walked is one of them. -/
theorem mem_walked {walked rest dx dy : List (List (WalRecord Operation))}
    (heq : walked ++ rest = dx ++ u :: dy) (hlt : dx.flatten.length < walked.flatten.length) :
    ∃ more, walked = dx ++ u :: more := by
  rcases List.append_eq_append_iff.1 heq with ⟨t, rfl, -⟩ | ⟨t, rfl, ht⟩
  · rw [List.flatten_append, List.length_append] at hlt
    exact absurd hlt (Nat.le_add_right _ _).not_gt
  rcases t with _ | ⟨v, t⟩
  · rw [List.append_nil] at hlt
    exact absurd hlt (lt_irrefl _)
  obtain ⟨rfl, -⟩ := List.cons.inj ht
  exact ⟨t, rfl⟩

/-- A walk of the log ends before a frame that is still open. -/
theorem Inv.walked_settled (h : f.Inv) {committed : List (Nat × Nat)}
    {walked rest : List (List (WalRecord Operation))}
    (hcommitted : ∀ id, (∀ r ∈ f.writer.log, r.transactionId = id → r.operation ≠ .commit) →
      ∀ entry ∈ committed, entry.1 ≠ id)
    (hunits : durableUnits f.writer.log = walked ++ rest)
    (hlast : rest = [] → ∀ u ∈ walked.getLast?, frameState committed true u ≠ .inFlight) :
    walked.flatten.length ≤ f.writer.settled := by
  have hflatten := flatten_durableUnits f.writer.log
  by_cases hopen : f.writer.openRecords = []
  · rw [Writer.settled, hopen, ← hflatten, hunits, List.flatten_append, List.length_append]
    exact Nat.le_add_right _ _
  obtain ⟨id, hid, hrecords, hops⟩ := h.openRecords hopen
  obtain ⟨x, hx⟩ := h.placed.opened
  have hsame : ∀ r ∈ f.writer.openRecords, r.transactionId = id := fun r hr =>
    (mem_frameOf.1 (hrecords ▸ hr)).2
  have hother : frameOf x id = [] := by
    have hself : frameOf f.writer.openRecords id = f.writer.openRecords :=
      List.filter_eq_self.2 fun r hr => by simpa using hsame r hr
    have hframe : f.writer.openRecords = frameOf x id ++ f.writer.openRecords := by
      conv_lhs => rw [hrecords, ← hx, frameOf_append, hself]
    exact List.self_eq_append_left.1 hframe
  have hsep : Separate x f.writer.openRecords := fun a ha z hz heq =>
    absurd (mem_frameOf.2 ⟨ha, heq.trans (hsame z (List.mem_of_mem_head? hz))⟩)
      (hother ▸ List.not_mem_nil)
  have hinFlight : frameState committed true f.writer.openRecords = .inFlight :=
    frameState_open hopen hid hsame (fun r hr => (hops r hr).2) (hcommitted id fun r hr hr' =>
      (hops r (hrecords ▸ mem_frameOf.2 ⟨hr, hr'⟩)).1)
  rw [← hx, durableUnits_append hsep, durableUnits_of_same hid hsame hopen] at hunits
  have hsettled : f.writer.settled = (durableUnits x).flatten.length := by
    rw [flatten_durableUnits, Writer.settled, ← hx, List.length_append, Nat.add_sub_cancel]
  -- The open frame is the last unit, and has not been walked.
  rcases List.eq_nil_or_concat' rest with rfl | ⟨rest', v, rfl⟩
  · refine absurd hinFlight (hlast rfl _ ?_)
    rw [List.append_nil] at hunits
    rw [← hunits, List.getLast?_concat]
    rfl
  · rw [← List.append_assoc] at hunits
    obtain ⟨hwhole, -⟩ := List.append_inj' hunits rfl
    rw [hsettled, hwhole, List.flatten_append, List.length_append]
    exact Nat.le_add_right _ _

/-- A page reports the units it passes, and leaves the others to the next position. -/
theorem Owed.scan (h : f.Inv) (howed : f.Owed position mark) {limit : Nat} {owner : String}
    {isAdmin : Bool} {page : ChangePage}
    (hgone : ¬ position < horizon f.scanHorizon f.writer.log → f.gone.length ≤ mark)
    (hscan : f.scan limit ⟨position, owner, isAdmin⟩ = .ok page) :
    ∃ mark', mark ≤ mark' ∧ f.Owed page.next mark' ∧
      (∀ start u, f.UnitAt start u → mark ≤ start → start < mark' →
        unitChanges owner isAdmin u ⊆ page.changes) ∧
      (page.complete = true → ∀ start u, f.UnitAt start u → start < mark') := by
  obtain ⟨committed, hreported, hcommitted, heq⟩ := h.writer.log.scan_eq h.placed.positions
  rw [ChangeFeed.scan, heq] at hscan
  split at hscan
  · cases hscan
  rename_i hhorizon
  have hgone := hgone hhorizon
  obtain ⟨walked, rest, hunits, hwalked⟩ := @exists_walked ⟨position, owner, isAdmin⟩ limit committed
    ⟨[], position, true⟩ _ (rising_of_positions h.placed.positions) rfl rfl
  rw [Except.ok.inj hscan] at hwalked
  have hsettled := h.walked_settled hcommitted hunits hwalked.last
  have hlog : f.writer.log = walked.flatten ++ rest.flatten := by
    rw [← List.flatten_append, ← hunits, flatten_durableUnits]
  -- A unit that begins behind the mark is one of the units of the log.
  have hunit : ∀ start u, f.UnitAt start u → f.gone.length ≤ start → ∃ dx dy,
      walked ++ rest = dx ++ u :: dy ∧ f.gone.length + dx.flatten.length = start := by
    intro start u hu hle
    obtain ⟨x, y, hx, hstart⟩ := hu.inLog hle
    refine ⟨durableUnits x, durableUnits y, ?_, by rw [flatten_durableUnits, hstart]⟩
    rw [← hunits, h.writer.log.durableUnits hx hu.isUnit]
  have hpassed : ∀ start u, f.UnitAt start u → f.gone.length ≤ start →
      start < f.gone.length + walked.flatten.length → ∃ dx more, walked = dx ++ u :: more ∧
        f.gone.length + dx.flatten.length = start := by
    intro start u hu hle hlt
    obtain ⟨dx, dy, hsplit, rfl⟩ := hunit start u hu hle
    obtain ⟨more, hmore⟩ := mem_walked hsplit (Nat.lt_of_add_lt_add_left hlt)
    exact ⟨dx, more, hmore, rfl⟩
  have hnext := hwalked.next_cases
  refine ⟨max mark (f.gone.length + walked.flatten.length), le_max_left _ _, ⟨?_, fun r hr => ?_, ?_,
    fun _ hlt => ?_, fun start u hu hlt => ?_⟩, fun start u hu hle hlt => ?_, fun hcomplete start u hu => ?_⟩
  · exact max_le howed.le (Nat.add_le_add_left hsettled _)
  · rcases hnext with hnext | ⟨r₀, hr₀, hnext⟩
    · exact hnext ▸ howed.after r (List.drop_subset_drop_left _ (le_max_left _ _) hr)
    have hr := List.drop_subset_drop_left _ (le_max_right mark _) hr
    rw [history, hlog, ← List.append_assoc, ← List.length_append, List.drop_left] at hr
    have hpositions := h.placed.positions
    rw [hlog, List.pairwise_append] at hpositions
    exact hnext ▸ hpositions.2.2 r₀ hr₀ r hr
  · rcases hnext with hnext | ⟨r₀, hr₀, hnext⟩
    · exact hnext ▸ howed.counter
    · exact hnext ▸ h.placed.below r₀ (hlog ▸ List.mem_append_left _ hr₀)
  · exact absurd (lt_of_le_of_lt (hgone.trans (le_max_left _ _)) hlt) (lt_irrefl _)
  · by_cases hstart : start < mark
    · exact (howed.whole start u hu hstart).trans (le_max_left _ _)
    have hle := Nat.le_of_not_lt hstart
    obtain ⟨dx, more, hmore, rfl⟩ := hpassed start u hu (hgone.trans hle)
      ((lt_max_iff.1 hlt).resolve_left hstart)
    refine le_trans ?_ (le_max_right _ _)
    rw [hmore, List.flatten_append, List.flatten_cons, List.length_append, List.length_append]
    omega
  · obtain ⟨dx, more, hmore, rfl⟩ := hpassed start u hu (hgone.trans hle)
      ((lt_max_iff.1 hlt).resolve_left hle.not_gt)
    have hmem : u ∈ walked := hmore ▸ List.mem_append_right _ List.mem_cons_self
    have hafter : ∀ r ∈ u, position < r.operationId := fun r hr => howed.after r (hu.mem_drop hle hr)
    have hsub : u ⊆ f.writer.log :=
      subset_of_mem_durableUnits (hunits ▸ List.mem_append_left _ hmem)
    intro c hc
    rw [hwalked.changes]
    refine List.mem_append_right _ (mem_changesOf.2 ⟨u, hmem, hreported u hu.isUnit hsub, ?_⟩)
    rwa [emitUnit_eq hafter]
  · by_cases hle : f.gone.length ≤ start
    · obtain ⟨dx, dy, hsplit, rfl⟩ := hunit start u hu hle
      refine lt_max_of_lt_right (Nat.add_lt_add_left ?_ _)
      have hsome : u.length ≠ 0 := fun hzero => hu.isUnit.ne_nil (List.eq_nil_of_length_eq_zero hzero)
      -- The unit is not the one in flight, so it has been walked.
      have hwhole : ∃ more, walked = dx ++ u :: more := by
        rcases hwalked.stop with ⟨-, rfl | ⟨v, rfl, hflight⟩⟩ | ⟨hfull, -⟩
        · exact ⟨dy, by rw [← hsplit, List.append_nil]⟩
        · rcases List.eq_nil_or_concat' dy with rfl | ⟨dy', z, rfl⟩
          · obtain ⟨-, hv⟩ := List.append_inj' hsplit rfl
            have hmem : u ∈ durableUnits f.writer.log := by
              rw [hunits, hsplit]
              exact List.mem_append_right _ List.mem_cons_self
            rw [List.singleton_inj.1 hv, hreported u hu.isUnit (subset_of_mem_durableUnits hmem)]
              at hflight
            cases hflight
          · rw [← List.cons_append, ← List.append_assoc] at hsplit
            exact ⟨dy', (List.append_inj' hsplit rfl).1⟩
        · rw [hfull] at hcomplete
          cases hcomplete
      obtain ⟨more, hmore⟩ := hwhole
      rw [hmore, List.flatten_append, List.flatten_cons, List.length_append, List.length_append]
      omega
    · exact lt_max_of_lt_left ((Nat.lt_of_not_le hle).trans_le hgone)

/-! ## Runs -/

/-- From one state to another one, the first `low` of the history there all the time. -/
structure Leads (f f' : ChangeFeed) (low : Nat) : Prop where
  inv : f'.Inv
  low_le : low ≤ f.history.length
  low_le' : low ≤ f'.history.length
  same : f'.history.take low = f.history.take low
  owed : ∀ position mark : Nat, f.Owed position mark → (∃ m, (position, m) ∈ f.issued) →
    f'.Owed position (min mark low)
  issued : ∀ k position mark : Nat, f.issued[k]? = some (position, mark) →
    f'.issued[k]? = some (position, min mark low)

theorem Inv.mark_le (h : f.Inv) {k : Nat} (hk : f.issued[k]? = some (position, mark)) :
    mark ≤ f.history.length :=
  (h.issued _ (List.mem_of_getElem? hk)).le.trans f.settled_le

theorem Leads.trans {f₁ : ChangeFeed} {low low' : Nat} (h : Leads f f₁ low) (h' : Leads f₁ f' low') :
    Leads f f' (min low low') where
  inv := h'.inv
  low_le := (min_le_left _ _).trans h.low_le
  low_le' := (min_le_right _ _).trans h'.low_le'
  same := by
    have hfirst := congrArg (List.take (min low low')) h.same
    have hsecond := congrArg (List.take (min low low')) h'.same
    rw [List.take_take, List.take_take, min_eq_left (min_le_left _ _)] at hfirst
    rw [List.take_take, List.take_take, min_eq_left (min_le_right _ _)] at hsecond
    exact hsecond.trans hfirst
  owed position mark howed hissued := by
    obtain ⟨m, hm⟩ := hissued
    obtain ⟨k, hk⟩ := List.mem_iff_getElem?.1 hm
    rw [← min_assoc]
    exact h'.owed _ _ (h.owed _ _ howed ⟨m, hm⟩) ⟨_, List.mem_of_getElem? (h.issued _ _ _ hk)⟩
  issued k position mark hk := by
    rw [← min_assoc]
    exact h'.issued _ _ _ (h.issued _ _ _ hk)

/-- A step that only adds to the history. -/
theorem Leads.grows (h : f.Inv) (hinv : f'.Inv) (new : List (WalRecord Operation))
    (heq : f'.history = f.history ++ new)
    (howed : ∀ position mark, f.Owed position mark → f'.Owed position mark)
    (hissued : f.issued <+: f'.issued) : Leads f f' f.history.length where
  inv := hinv
  low_le := le_rfl
  low_le' := by
    rw [heq, List.length_append]
    exact Nat.le_add_right _ _
  same := by rw [heq, List.take_left, List.take_length]
  owed position mark hold _ :=
    (min_eq_left (hold.le.trans f.settled_le)).symm ▸ howed position mark hold
  issued k position mark hk := by
    rw [min_eq_left (h.mark_le hk)]
    obtain ⟨more, hmore⟩ := hissued
    rw [← hmore]
    exact List.getElem?_append_left (List.getElem?_eq_some_iff.1 hk).1 ▸ hk

theorem Leads.refl (h : f.Inv) : Leads f f f.history.length :=
  .grows h h [] (List.append_nil _).symm (fun _ _ howed => howed) List.prefix_rfl

theorem checkpoint_le {w w' : Writer Operation} (hstep : Writer.ProcessStep w w') :
    w.checkpoint ≤ w'.checkpoint := by
  cases hstep with
  | standalone _ _ succeeds => cases succeeds <;> exact le_rfl
  | @drop f _ aborts =>
    rw [Writer.drop]
    rcases f.commitSequence with _ | _
    · cases aborts <;> exact le_rfl
    · exact le_rfl
  | advance => exact Writer.checkpoint_le_advance
  | _ => exact le_rfl

theorem Inv.write (h : f.Inv) {w : Writer Operation} (hstep : Writer.ProcessStep f.writer w)
    (hgrows : f.writer.log <+: w.log) : Leads f { f with writer := w } f.history.length := by
  obtain ⟨hplaced, -, hlog⟩ := h.placed.step h.writer hstep hgrows
  have hnew : ∃ new, w.log = f.writer.log ++ new ∧ ∀ r ∈ new, r.sequence = f.writer.counters.sequence := by
    rcases hlog with ⟨hlog, -⟩ | ⟨r, happend⟩
    · exact ⟨[], by rw [hlog, List.append_nil], nofun⟩
    · exact ⟨[r], happend.log, fun r' hr' => (List.mem_singleton.1 hr') ▸ happend.sequence⟩
  obtain ⟨new, hlog, hsequence⟩ := hnew
  have hcheckpoint := checkpoint_le hstep
  have hinv : Inv { f with writer := w } := by
    refine ⟨h.writer.step hstep.step, hplaced, fun g hg => ?_, fun g hg r hr => ?_,
      fun p hp => (h.issued p hp).write h hstep hgrows⟩
    · exact ⟨(h.gone g hg).1, (h.gone g hg).2.trans hcheckpoint⟩
    rw [hlog] at hr
    rcases List.mem_append.1 hr with hr | hr
    · exact h.order g hg r hr
    · rw [hsequence r hr]
      exact lt_of_le_of_lt (h.gone g hg).2 (h.writer.marks _ (.inl rfl)).2
  refine .grows h hinv new ?_ (fun _ _ howed => howed.write h hstep hgrows) List.prefix_rfl
  rw [history, history, hlog, List.append_assoc]

theorem Inv.rotate (h : f.Inv) : Leads f f.rotate f.history.length := by
  have hinv : f.rotate.Inv := by
    refine ⟨h.writer.rotate, (h.placed.rotate h.writer).1, fun g hg => ?_, fun g hg r hr => ?_,
      fun p hp => (h.issued p hp).rotate h⟩
    · rcases List.mem_append.1 hg with hg | hg
      · exact h.gone g hg
      · obtain ⟨hg, hle⟩ := List.mem_filter.1 hg
        exact ⟨(h.writer.log.valid g hg).2.1, of_decide_eq_true hle⟩
    · obtain ⟨hr, hlt⟩ := List.mem_filter.1 hr
      rcases List.mem_append.1 hg with hg | hg
      · exact h.order g hg r hr
      · exact lt_of_le_of_lt (of_decide_eq_true (List.mem_filter.1 hg).2) (of_decide_eq_true hlt)
  refine .grows h hinv [] ?_ (fun _ _ howed => howed.rotate h) List.prefix_rfl
  rw [history_rotate h, List.append_nil]

/-- A page ends with a position from which the rest is owed. -/
theorem Inv.issue (h : f.Inv) {limit : Nat} {lens : Lens} {page : ChangePage}
    (hsafe : f.Safe lens.after) (hscan : f.scan limit lens = .ok page) :
    Leads f (f.issue page.next) f.history.length := by
  have hsettled := hsafe.owed h
  obtain ⟨mark, hle, howed, -⟩ := hsettled.scan h (hsettled.gone_le h hsafe.1) hscan
  rw [le_antisymm howed.le hle] at howed
  have hinv : (f.issue page.next).Inv := by
    refine ⟨h.writer, h.placed, h.gone, h.order, fun p hp => ?_⟩
    rcases List.mem_append.1 hp with hp | hp
    · exact (h.issued p hp).issue page.next
    · rw [List.mem_singleton.1 hp]
      exact howed.issue page.next
  exact .grows h hinv [] (List.append_nil _).symm (fun _ _ hold => hold.issue page.next)
    (List.prefix_append _ _)

theorem Inv.restart (h : f.Inv) {keep : Nat} (hcovered : ∀ p ∈ f.issued, f.writer.Covers keep p.1) :
    Leads f (f.restart keep) (f.restart keep).history.length := by
  have hhistory := f.history_restart keep
  have hlength : (f.restart keep).history.length = f.gone.length + (f.writer.log.take keep).length :=
    length_history _
  refine ⟨⟨h.writer.restart keep, h.placed.restart keep, h.gone, fun g hg r hr => ?_, fun p hp => ?_⟩,
    ?_, le_rfl, ?_, fun position mark howed hissued => ?_, fun k position mark hk => ?_⟩
  · exact h.order g hg r (List.mem_of_mem_take hr)
  · obtain ⟨p', hp', rfl⟩ := List.mem_map.1 hp
    rw [← hlength]
    exact (h.issued p' hp').restart h (hcovered p' hp')
  · rw [hhistory, List.length_append]
    exact Nat.le_add_right _ _
  · rw [hhistory, List.take_left, List.take_length]
  · obtain ⟨m, hm⟩ := hissued
    exact howed.restart h (hcovered _ hm)
  · rw [hlength]
    exact List.getElem?_map.trans (congrArg _ hk)

theorem Inv.step (h : f.Inv) (hstep : SafeStep f f') : ∃ low, Leads f f' low := by
  cases hstep with
  | write hstep hgrows => exact ⟨_, h.write hstep hgrows⟩
  | rotate => exact ⟨_, h.rotate⟩
  | scan hsafe hscan => exact ⟨_, h.issue hsafe hscan⟩
  | restart keep hcovered => exact ⟨_, h.restart hcovered⟩

theorem Inv.steps (h : f.Inv) (hsteps : SafeSteps f f') : ∃ low, Leads f f' low := by
  induction hsteps with
  | refl => exact ⟨_, .refl h⟩
  | tail _ hstep ih =>
    obtain ⟨low, hlead⟩ := ih
    obtain ⟨low', hstep⟩ := hlead.inv.step hstep
    exact ⟨_, hlead.trans hstep⟩

theorem Scans.reported {owner : String} {isAdmin : Bool} {changes : List ChangeRecord}
    (hscans : Scans owner isAdmin f position changes f') (h : f.Inv) :
    ∃ low, Leads f f' low ∧ ∀ mark, f.Owed position mark → ∀ start u, f'.UnitAt start u →
      min mark low ≤ start → unitChanges owner isAdmin u ⊆ changes := by
  induction hscans with
  | @last f after limit page hsafe hscan hcomplete =>
    have hissue := h.issue hsafe hscan
    refine ⟨_, hissue, fun mark howed start u hu hstart => ?_⟩
    rw [min_eq_left (howed.le.trans f.settled_le)] at hstart
    obtain ⟨mark', -, -, hreported, hall⟩ := howed.scan h (howed.gone_le h hsafe.1) hscan
    have hu : f.UnitAt start u := ⟨hu.isUnit, hu.place⟩
    exact hreported start u hu hstart (hall hcomplete start u hu)
  | @more f f₁ f' after limit page changes hsafe hscan hsteps hrest ih =>
    have hissue := h.issue hsafe hscan
    obtain ⟨low₁, hlead₁⟩ := hissue.inv.steps hsteps
    obtain ⟨low₂, hlead₂, hrest⟩ := ih hlead₁.inv
    have hlead := hlead₁.trans hlead₂
    have hlow : min f.history.length (min low₁ low₂) = min low₁ low₂ := min_eq_right hlead.low_le
    refine ⟨_, hissue.trans hlead, fun mark howed start u hu hstart => ?_⟩
    rw [hlow] at hstart
    obtain ⟨mark', -, howed', hreported, -⟩ := howed.scan h (howed.gone_le h hsafe.1) hscan
    have hissued : ∃ m, (page.next, m) ∈ (f.issue page.next).issued :=
      ⟨_, List.mem_append_right _ List.mem_cons_self⟩
    by_cases hlater : min mark' (min low₁ low₂) ≤ start
    · -- It is left to the pages that follow.
      have howed₁ := hlead₁.owed _ _ (howed'.issue _) hissued
      refine List.Subset.trans (hrest _ howed₁ start u hu ?_) (List.subset_append_right _ _)
      rwa [min_assoc]
    -- It was there when the first page was read, and the page has passed it.
    have hend := (hlead.owed _ _ (howed'.issue _) hissued).whole start u hu (Nat.lt_of_not_le hlater)
    have hold := hu.of_take _ hlead.same (hend.trans (min_le_right _ _))
    have hlt := lt_min_iff.1 (Nat.lt_of_not_le hlater)
    have hmark : mark ≤ start := by
      rcases min_le_iff.1 hstart with hmark | hmark
      · exact hmark
      · exact absurd hlt.2 hmark.not_gt
    exact List.Subset.trans (hreported start u ⟨hold.isUnit, hold.place⟩ hmark hlt.1)
      (List.subset_append_left _ _)

end ChangeFeed

open ChangeFeed

/-- In a run whose scans are all from safe positions, and whose restarts find the issued
    positions covered: a scan from an issued position succeeds or is refused as too old; and
    if it and the scans that follow it succeed, their pages hold every change the caller may
    see of every unit that was committed after the position was issued. -/
theorem changes_no_gap {f : ChangeFeed} (hrun : SafeSteps .empty f) {k position mark : Nat}
    (hissued : f.issued[k]? = some (position, mark)) :
    (∀ limit owner isAdmin, (∃ page, f.scan limit ⟨position, owner, isAdmin⟩ = .ok page) ∨
      ∃ refusal, f.scan limit ⟨position, owner, isAdmin⟩ = .error (.tooOld refusal)) ∧
    ∀ owner isAdmin changes f', Scans owner isAdmin f position changes f' →
      ∃ mark', f'.issued[k]? = some (position, mark') ∧
        ∀ start u, f'.UnitAt start u → mark' < start + u.length →
          unitChanges owner isAdmin u ⊆ changes := by
  obtain ⟨_, hlead⟩ := inv_empty.steps hrun
  have h := hlead.inv
  have howed := h.issued _ (List.mem_of_getElem? hissued)
  refine ⟨fun limit owner isAdmin => ?_, fun owner isAdmin changes f' hscans => ?_⟩
  · obtain ⟨committed, -, -, heq⟩ := h.writer.log.scan_eq h.placed.positions
    rw [ChangeFeed.scan, heq]
    split
    · exact .inr ⟨_, rfl⟩
    · exact .inl ⟨_, rfl⟩
  · obtain ⟨low, hlead, hreported⟩ := hscans.reported h
    refine ⟨_, hlead.issued _ _ _ hissued, fun start u hu hend => ?_⟩
    refine hreported mark howed start u hu ?_
    by_contra hlt
    have howed' := hlead.owed _ _ howed ⟨_, List.mem_of_getElem? hissued⟩
    exact absurd (howed'.whole start u hu (Nat.lt_of_not_le hlt)) hend.not_ge

section Samples

def ownedNode (address : String) : Node := ⟨address, ⟨0, 0, 0, 0⟩, 1, "Person", "", "alice", none, .priv⟩

def insertion (sequence operationId : Nat) (address : String) : WalRecord Operation :=
  ⟨walFormatVersion, sequence, standaloneTransactionId, operationId, .mutation (.insert (ownedNode address))⟩

def insertInto (f : ChangeFeed) (address : String) : ChangeFeed :=
  { f with writer := f.writer.standalone (.insert (ownedNode address)) true }

theorem insertInto_step {f : ChangeFeed} (hframe : f.writer.frame = none) (address : String) :
    SafeStep f (insertInto f address) :=
  .write (.standalone hframe _ true) (List.prefix_append _ _)

/-- The owner looks at the changes after a position. -/
def ownerLens (after : Nat) : Lens := ⟨after, "alice", false⟩

theorem isUnit_insertion (sequence operationId : Nat) (address : String) :
    IsUnit [insertion sequence operationId address] := .standalone _ rfl rfl

theorem durableUnits_insertion (sequence operationId : Nat) (address : String)
    (rs : List (WalRecord Operation)) :
    durableUnits (insertion sequence operationId address :: rs) =
      [insertion sequence operationId address] :: durableUnits rs := by
  have hid : (insertion sequence operationId address).transactionId = standaloneTransactionId := rfl
  rw [durableUnits, durableUnit, if_pos hid]

theorem scan_eq_walk {f : ChangeFeed} (hinv : f.writer.Inv) (hplaced : f.writer.Placed) (limit : Nat)
    (lens : Lens) (hafter : horizon f.scanHorizon f.writer.log ≤ lens.after) :
    ∃ committed, f.scan limit lens =
      .ok (walk lens limit committed ⟨[], lens.after, true⟩ (durableUnits f.writer.log)) := by
  obtain ⟨committed, -, -, heq⟩ := hinv.log.scan_eq hplaced.positions
  exact ⟨committed, (heq f.scanHorizon limit lens).trans (if_neg hafter.not_gt)⟩

/-- One node is inserted, and a first page read. -/
def firstPage : ChangeFeed := (insertInto .empty "a").issue 1

theorem firstPage_steps : SafeSteps .empty firstPage := by
  have hinsert : SafeStep .empty (insertInto .empty "a") := insertInto_step rfl "a"
  obtain ⟨_, hlead⟩ := inv_empty.step hinsert
  have hunits : durableUnits (insertInto .empty "a").writer.log = [[insertion 1 1 "a"]] :=
    (isUnit_insertion 1 1 "a").durableUnits
  obtain ⟨committed, hscan⟩ := scan_eq_walk hlead.inv.writer hlead.inv.placed 500 (ownerLens 0)
    (by decide +kernel)
  rw [hunits] at hscan
  have hsafe : Safe (insertInto .empty "a") 0 := ⟨by decide, by decide, nofun⟩
  exact (ReflTransGen.single hinsert).tail (.scan hsafe hscan)

/-- Another node is inserted, and the database restarted with all of its log. -/
def restarted : ChangeFeed := (insertInto firstPage "b").restart 2

theorem restarted_steps : SafeSteps .empty restarted := by
  refine (firstPage_steps.tail (insertInto_step rfl "b")).tail (.restart 2 fun p hp => ?_)
  rw [List.mem_singleton.1 hp]
  decide +kernel

/-- Two inserts with a live event between them that takes an operation id, and a page. -/
def aheadPage : ChangeFeed :=
  (insertInto { insertInto .empty "a" with
    writer := { (insertInto .empty "a").writer with counters := ⟨2, 1, 3⟩ } } "b").issue 3

theorem aheadPage_steps : SafeSteps .empty aheadPage := by
  have hinsert : SafeStep .empty (insertInto .empty "a") := insertInto_step rfl "a"
  have hevent : SafeStep (insertInto .empty "a") { insertInto .empty "a" with
      writer := { (insertInto .empty "a").writer with counters := ⟨2, 1, 3⟩ } } :=
    .write (.burn _ le_rfl le_rfl (by decide)) List.prefix_rfl
  have hsteps := ((ReflTransGen.single hinsert).tail hevent).tail (insertInto_step rfl "b")
  obtain ⟨_, hlead⟩ := inv_empty.steps hsteps
  obtain ⟨committed, hscan⟩ := scan_eq_walk hlead.inv.writer hlead.inv.placed 500 (ownerLens 0)
    (by decide +kernel)
  have hunits : durableUnits [insertion 1 1 "a", insertion 2 3 "b"] =
      [[insertion 1 1 "a"], [insertion 2 3 "b"]] := by
    rw [durableUnits_insertion, durableUnits_insertion, durableUnits]
  have hscan := hscan.trans (congrArg (fun us => Except.ok (walk _ _ committed _ us)) hunits)
  exact hsteps.tail (.scan ⟨by decide, by decide, fun r hr => by cases hr⟩ hscan)

def rotatedPage : ChangeFeed :=
  ChangeFeed.rotate { aheadPage with writer := aheadPage.writer.advance }

theorem rotatedPage_steps : SafeSteps .empty rotatedPage := by
  have hadvance : SafeStep aheadPage { aheadPage with writer := aheadPage.writer.advance } :=
    .write .advance (by rw [Writer.advance_eq])
  exact (aheadPage_steps.tail hadvance).tail .rotate

/-- A restart that finds the log empty, and then a third node. -/
def behindPage : ChangeFeed := insertInto (rotatedPage.restart 0) "c"

theorem behindPage_steps : ReflTransGen Step .empty behindPage := by
  have hsteps : ReflTransGen Step .empty rotatedPage :=
    rotatedPage_steps.lift id fun _ _ h => h.step
  have hinsert : SafeStep (rotatedPage.restart 0) behindPage := insertInto_step rfl "c"
  exact (hsteps.tail (.restart 0)).tail hinsert.step

theorem behindPage_writer : behindPage.writer.Inv ∧ behindPage.writer.Placed := by
  obtain ⟨_, hlead⟩ := inv_empty.steps rotatedPage_steps
  have hinv := hlead.inv.writer.restart 0
  have hplaced := hlead.inv.placed.restart 0
  have hinsert : Writer.ProcessStep (rotatedPage.restart 0).writer behindPage.writer :=
    .standalone rfl _ true
  exact ⟨hinv.standalone rfl _ true, (hplaced.step hinv hinsert (List.prefix_append _ _)).1⟩

end Samples

/-- A page is read, a node inserted, the database restarted, and the scan resumed. -/
theorem changes_no_gap_after_restart :
    ∃ f changes f', SafeSteps .empty f ∧ f.issued[0]? = some (1, 1) ∧
      Scans "alice" false f 1 changes f' ∧ ⟨2, .created, "b", "Person"⟩ ∈ changes := by
  obtain ⟨_, hlead⟩ := inv_empty.steps restarted_steps
  obtain ⟨committed, hscan⟩ := scan_eq_walk hlead.inv.writer hlead.inv.placed 500 (ownerLens 1)
    (by decide +kernel)
  have hunits : durableUnits restarted.writer.log = [[insertion 1 1 "a"], [insertion 2 2 "b"]] := by
    rw [show restarted.writer.log = [insertion 1 1 "a", insertion 2 2 "b"] from rfl,
      durableUnits_insertion, durableUnits_insertion, durableUnits]
  rw [hunits] at hscan
  have hsafe : restarted.Safe 1 := ⟨by decide, by decide +kernel, by decide +kernel⟩
  have hscans : Scans "alice" false restarted 1 _ _ := .last hsafe hscan rfl
  have hissued : restarted.issued[0]? = some (1, 1) := rfl
  refine ⟨_, _, _, restarted_steps, hissued, hscans, ?_⟩
  obtain ⟨mark, hmark, hreported⟩ := (changes_no_gap restarted_steps hissued).2 _ _ _ _ hscans
  obtain rfl : 1 = mark := congrArg Prod.snd (Option.some.inj hmark)
  refine hreported 1 [insertion 2 2 "b"] ⟨isUnit_insertion 2 2 "b", [insertion 1 1 "a"], [], rfl, rfl⟩
    (by decide) ?_
  exact List.mem_cons_self

/-- Operation ids are ahead of the checkpoint when the log is rotated; after a restart the
    next record gets the position that the last page has ended with, and is left out. -/
theorem changes_gap :
    ∃ f page start u, ReflTransGen Step .empty f ∧ f.issued[0]? = some (3, 2) ∧
      f.scan 500 (ownerLens 3) = .ok page ∧ page.complete = true ∧
      f.UnitAt start u ∧ 2 < start + u.length ∧ ¬ unitChanges "alice" false u ⊆ page.changes := by
  obtain ⟨hinv, hplaced⟩ := behindPage_writer
  obtain ⟨committed, hscan⟩ := scan_eq_walk hinv hplaced 500 (ownerLens 3) (by decide +kernel)
  have hlog : behindPage.writer.log = [insertion 3 3 "c"] := by decide +kernel
  rw [hlog, (isUnit_insertion 3 3 "c").durableUnits] at hscan
  refine ⟨_, _, 2, [insertion 3 3 "c"], behindPage_steps, by decide +kernel, hscan, rfl, ⟨?_, ?_⟩,
    by decide, ?_⟩
  · exact isUnit_insertion 3 3 "c"
  · exact ⟨[insertion 1 1 "a", insertion 2 3 "b"], [], by decide +kernel, rfl⟩
  · intro hsub
    exact absurd (hsub List.mem_cons_self) List.not_mem_nil

end FacetQL
