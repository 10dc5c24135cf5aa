import FacetQL.Storage.OperationId

/-!
# The live event feed

The `EventFeed` of `database.rs`. An event takes its number from the operation ids
of the log, is kept in a ring of the most recent ones, and is sent to every live
subscriber. A subscriber that comes back names the last number it has seen, and gets
what the ring holds after it, unless the ring no longer reaches back that far. A new
process starts with an empty ring, and takes one more operation id as the oldest
position it will resume from.

* `resume_complete`: when a resumption over processes is refused or complete;
* `subscription_exact`: in one process, what is refused, and what is sent.
-/

namespace FacetQL

open Relation

/-- How many events the ring keeps. -/
def eventReplayCapacity : Nat := 1024

/-- Who may receive an event. -/
inductive Audience
  | everyone
  | owner (only : String)
  deriving DecidableEq, Repr

/-- An event as subscribers get it. -/
structure LiveEvent (π : Type) where
  seq : Nat
  payload : π
  audience : Audience
  deriving DecidableEq, Repr

/-- The refusal of a position the ring no longer reaches back to. -/
structure ResumeTooOld where
  requested : Nat
  earliest : Nat
  retained : Nat
  deriving DecidableEq, Repr

/-- The most recent events, oldest first, and the oldest position to resume from. -/
structure FeedState (π : Type) where
  retained : List (LiveEvent π)
  earliestResumable : Nat
  deriving DecidableEq, Repr

namespace FeedState

variable {π : Type}

/-- Make room for an event: the oldest ones leave a full ring, and the oldest position moves up. -/
def evict : List (LiveEvent π) → Nat → FeedState π
  | [], earliest => ⟨[], earliest⟩
  | e :: retained, earliest =>
    if eventReplayCapacity ≤ (e :: retained).length then evict retained e.seq
    else ⟨e :: retained, earliest⟩

/-- Append an event to the ring. -/
def emitWith (s : FeedState π) (event : LiveEvent π) : FeedState π :=
  let s' := evict s.retained s.earliestResumable
  { s' with retained := s'.retained ++ [event] }

/-- The backlog of a subscription that resumes after a position. -/
def subscribe (s : FeedState π) : (after : Option Nat) → Except ResumeTooOld (List (LiveEvent π))
  | none => .ok []
  | some after =>
    if after < s.earliestResumable then
      .error ⟨after, s.earliestResumable, s.retained.length⟩
    else .ok (s.retained.filter fun e => after < e.seq)

/-- What leaves the ring is its beginning, and its last number is the oldest position. -/
theorem evict_eq (retained : List (LiveEvent π)) (earliest : Nat) :
    (evict retained earliest = ⟨retained, earliest⟩) ∨
    ∃ left e, retained = left ++ e :: (evict retained earliest).retained ∧
      (evict retained earliest).earliestResumable = e.seq := by
  induction retained generalizing earliest with
  | nil => exact .inl rfl
  | cons e retained ih =>
    rw [evict]
    split
    · rcases ih e.seq with h | ⟨left, e', h, hseq⟩
      · exact .inr ⟨[], e, by rw [h, List.nil_append], by rw [h]⟩
      · exact .inr ⟨e :: left, e', by rw [List.cons_append, ← h], hseq⟩
    · exact .inl rfl

end FeedState

/-- The writers of the log, the feed, and what this process and those before it have sent. -/
structure Database (μ π : Type) where
  writer : Writer μ
  feed : FeedState π
  sent : List (LiveEvent π)
  earlier : List (LiveEvent π)

namespace Database

variable {μ π : Type}

/-- A process starts: the feed takes an operation id as its oldest position. -/
def attach (w : Writer μ) (earlier : List (LiveEvent π)) : Database μ π where
  writer := { w with counters := { w.counters with operationId := w.counters.operationId + 1 } }
  feed := ⟨[], w.counters.operationId⟩
  sent := []
  earlier := earlier

/-- An event is emitted: it takes an operation id, and its payload may carry it. -/
def emitWith (d : Database μ π) (audience : Audience) (render : Nat → π) : Database μ π :=
  let seq := d.writer.counters.operationId
  let event : LiveEvent π := ⟨seq, render seq, audience⟩
  { d with
    writer := { d.writer with counters := { d.writer.counters with operationId := seq + 1 } }
    feed := d.feed.emitWith event
    sent := d.sent ++ [event] }

/-- The process ends with the first `keep` records of the log left, and the next one starts. -/
def restart (d : Database μ π) (keep : Nat) : Database μ π :=
  attach (d.writer.restart keep) (d.earlier ++ d.sent)

/-- The steps of one process. -/
inductive ProcessStep : Database μ π → Database μ π → Prop
  | write {d : Database μ π} {w : Writer μ} (h : d.writer.ProcessStep w) :
      ProcessStep d { d with writer := w }
  | emit {d : Database μ π} (audience : Audience) (render : Nat → π) :
      ProcessStep d (d.emitWith audience render)

/-- A run of one process. -/
abbrev ProcessSteps : Database μ π → Database μ π → Prop := ReflTransGen ProcessStep

/-- The steps of the database's processes, and restarts that recovery accepts. -/
inductive Step : Database μ π → Database μ π → Prop
  | process {d d' : Database μ π} (h : ProcessStep d d') : Step d d'
  | restart {d : Database μ π} (keep : Nat)
      (hrecover : (recover Writer.replayer d.writer.checkpoint (some (d.writer.log.take keep)) 0).1 =
        .ok ()) :
      Step d (d.restart keep)

/-- A step that, if it is a restart, finds a checkpoint or a record that is not below the
    number of any event so far but the last one, and at most one below that of the last one. -/
inductive CoveredStep : Database μ π → Database μ π → Prop
  | process {d d' : Database μ π} (h : ProcessStep d d') : CoveredStep d d'
  | restart {d : Database μ π} (keep : Nat)
      (hrecover : (recover Writer.replayer d.writer.checkpoint (some (d.writer.log.take keep)) 0).1 =
        .ok ())
      (hcovers : ∀ e ∈ (d.earlier ++ d.sent).dropLast, d.writer.Covers keep e.seq)
      (hlast : ∀ e ∈ (d.earlier ++ d.sent).getLast?, d.writer.Covers keep (e.seq - 1)) :
      CoveredStep d (d.restart keep)

/-- A subscription that resumes in `d`, up to `d'`, is refused, or its backlog and what this
    process has sent since hold every event in `after`. -/
def Resumes (d d' : Database μ π) (e : LiveEvent π) (after : List (LiveEvent π)) : Prop :=
  (∃ refusal, d.feed.subscribe (some e.seq) = .error refusal) ∨
  ∃ backlog, d.feed.subscribe (some e.seq) = .ok backlog ∧
    ∀ e' ∈ after, e' ∈ backlog ++ d'.sent.drop d.sent.length

/-! ## The invariant -/

/-- The ring is the end of what this process has sent; nothing before it is above the oldest
    position; and if the last event before this process can be resumed from, all that it has
    sent is above it. -/
structure FeedInv (d : Database μ π) : Prop where
  earlier : ∀ before e after, d.earlier = before ++ e :: after →
    e.seq < d.feed.earliestResumable ∨
      after = [] ∧ e.seq ≤ d.feed.earliestResumable ∧ ∀ e' ∈ d.sent, e.seq < e'.seq
  ordered : d.sent.Pairwise fun e e' => e.seq < e'.seq
  below : ∀ e ∈ d.sent, e.seq < d.writer.counters.operationId
  earliest : d.feed.earliestResumable < d.writer.counters.operationId
  kept : ∃ left, d.sent = left ++ d.feed.retained ∧ ∀ e ∈ left, e.seq ≤ d.feed.earliestResumable
  retained : ∀ e ∈ d.feed.retained, d.feed.earliestResumable < e.seq

variable {d d' : Database μ π}

theorem feedInv_attach {w : Writer μ} {earlier : List (LiveEvent π)}
    (h : ∀ e ∈ earlier.dropLast, e.seq < w.counters.operationId)
    (hlast : ∀ e ∈ earlier.getLast?, e.seq ≤ w.counters.operationId) : FeedInv (attach w earlier) where
  earlier before e after hsplit := by
    have hsplit : earlier = before ++ e :: after := hsplit
    rcases after with _ | ⟨e', after⟩
    · exact .inr ⟨rfl, hlast e (by simp [hsplit]), nofun⟩
    · exact .inl (h e (by simp [hsplit]))
  ordered := .nil
  below := nofun
  earliest := Nat.lt_succ_self _
  kept := ⟨[], rfl, nofun⟩
  retained := nofun

/-- Making room keeps the ring the end of what has been sent. -/
theorem FeedInv.evict (h : d.FeedInv) : FeedInv { d with
    feed := FeedState.evict d.feed.retained d.feed.earliestResumable } := by
  rcases FeedState.evict_eq d.feed.retained d.feed.earliestResumable with heq | ⟨out, e, hout, hseq⟩
  · rw [heq]
    exact h
  obtain ⟨left, hsent, hleft⟩ := h.kept
  have he : e ∈ d.feed.retained := hout ▸ by simp
  have hsplit : d.sent = (left ++ out ++ [e]) ++
      (FeedState.evict d.feed.retained d.feed.earliestResumable).retained := by
    simpa [← hout] using hsent
  have hordered := h.ordered
  rw [hsplit, List.pairwise_append, List.pairwise_append] at hordered
  obtain ⟨⟨-, -, hbefore⟩, -, hafter⟩ := hordered
  refine ⟨fun before e' after hearlier => .inl ?_, h.ordered, h.below, ?_,
    ⟨_, hsplit, fun e' he' => ?_⟩, fun e' he' => ?_⟩
  · have hle := (h.earlier before e' after hearlier).elim le_of_lt fun hlast => hlast.2.1
    exact hseq ▸ hle.trans_lt (h.retained e he)
  · exact hseq ▸ h.below e (hsent ▸ List.mem_append_right _ he)
  · rw [hseq]
    rcases List.mem_append.1 he' with hold | hlast
    · exact (hbefore e' hold e List.mem_cons_self).le
    · exact (List.mem_singleton.1 hlast ▸ le_rfl)
  · exact hseq ▸ hafter e (by simp) e' he'

theorem FeedInv.emitWith (h : d.FeedInv) (audience : Audience) (render : Nat → π) :
    (d.emitWith audience render).FeedInv := by
  have hroom := h.evict
  obtain ⟨left, hsent, hleft⟩ := hroom.kept
  refine ⟨fun before e after hearlier => ?_, ?_, ?_, hroom.earliest.trans (Nat.lt_succ_self _),
    ⟨left, ?_, hleft⟩, ?_⟩
  · refine (hroom.earlier before e after hearlier).imp_right fun ⟨hnone, hle, habove⟩ => ?_
    refine ⟨hnone, hle, List.forall_mem_append.2 ⟨habove, List.forall_mem_singleton.2 ?_⟩⟩
    exact hle.trans_lt hroom.earliest
  · refine List.pairwise_append.2 ⟨h.ordered, List.pairwise_singleton _ _, fun e he e' he' => ?_⟩
    exact List.mem_singleton.1 he' ▸ h.below e he
  · refine List.forall_mem_append.2 ⟨fun e he => ?_, List.forall_mem_singleton.2 ?_⟩
    · exact (h.below e he).trans (Nat.lt_succ_self _)
    · exact Nat.lt_succ_self _
  · exact (congrArg (· ++ _) hsent).trans (List.append_assoc _ _ _)
  · exact List.forall_mem_append.2 ⟨hroom.retained, List.forall_mem_singleton.2 hroom.earliest⟩

theorem FeedInv.process (h : d.FeedInv) (hstep : ProcessStep d d') : d'.FeedInv := by
  cases hstep with
  | write hw =>
    exact { h with
      below := fun e he => (h.below e he).trans_le hw.operationId_le
      earliest := h.earliest.trans_le hw.operationId_le }
  | emit audience render => exact h.emitWith audience render

theorem FeedInv.step (h : d.FeedInv) (hstep : CoveredStep d d') : d'.FeedInv := by
  cases hstep with
  | process hstep => exact h.process hstep
  | restart keep _ hcovers hlast =>
    refine feedInv_attach (fun e he => Writer.lt_restart_iff.2 (hcovers e he)) fun e he => ?_
    have hlt := Writer.lt_restart_iff.2 (hlast e he)
    omega

theorem feedInv_steps (h : ReflTransGen CoveredStep (attach .empty []) d) : d.FeedInv := by
  induction h with
  | refl => exact feedInv_attach nofun nofun
  | tail _ hstep ih => exact ih.step hstep

/-- A process only adds to what it has sent. -/
theorem ProcessSteps.sent (h : ProcessSteps d d') : d'.earlier = d.earlier ∧
    d.writer.counters.operationId ≤ d'.writer.counters.operationId ∧
    ∃ live, d'.sent = d.sent ++ live ∧ ∀ e ∈ live, d.writer.counters.operationId ≤ e.seq := by
  induction h with
  | refl => exact ⟨rfl, le_rfl, [], (List.append_nil _).symm, nofun⟩
  | tail _ hstep ih =>
    obtain ⟨hearlier, hle, live, hsent, hlive⟩ := ih
    cases hstep with
    | write hw => exact ⟨hearlier, hle.trans hw.operationId_le, live, hsent, hlive⟩
    | emit audience render =>
      exact ⟨hearlier, hle.trans (Nat.le_succ _), live ++ [_],
        (congrArg (· ++ _) hsent).trans (List.append_assoc _ _ _),
        List.forall_mem_append.2 ⟨hlive, List.forall_mem_singleton.2 hle⟩⟩

/-- The oldest position is that at which the feed was created, or that of an event. -/
structure Horizon (d : Database μ π) (created : Nat) : Prop where
  created_le : created ≤ d.feed.earliestResumable
  reached : d.feed.earliestResumable = created ∨ ∃ e ∈ d.sent, e.seq = d.feed.earliestResumable

theorem Horizon.emitWith {created : Nat} (h : d.Horizon created) (hinv : d.FeedInv)
    (audience : Audience) (render : Nat → π) : (d.emitWith audience render).Horizon created := by
  rw [Database.emitWith, FeedState.emitWith]
  rcases FeedState.evict_eq d.feed.retained d.feed.earliestResumable with heq | ⟨out, e, hout, hseq⟩
  · rw [heq]
    exact ⟨h.created_le, h.reached.imp_right fun ⟨e, he, hseq⟩ => ⟨e, List.mem_append_left _ he, hseq⟩⟩
  obtain ⟨left, hsent, -⟩ := hinv.kept
  have he : e ∈ d.feed.retained := hout ▸ by simp
  refine ⟨h.created_le.trans (hseq ▸ (hinv.retained e he).le), .inr ⟨e, ?_, hseq.symm⟩⟩
  exact List.mem_append_left _ (hsent ▸ List.mem_append_right _ he)

theorem horizon_steps {w : Writer μ} (h : ProcessSteps (attach w []) d) :
    d.FeedInv ∧ d.Horizon w.counters.operationId := by
  induction h with
  | refl => exact ⟨feedInv_attach nofun nofun, le_rfl, .inl rfl⟩
  | tail _ hstep ih =>
    refine ⟨ih.1.process hstep, ?_⟩
    cases hstep with
    | write => exact ⟨ih.2.created_le, ih.2.reached⟩
    | emit audience render => exact ih.2.emitWith ih.1 audience render

end Database

section Resume

open Database

variable {μ π : Type} {d d' : Database μ π} {e : LiveEvent π}

/-- The ring holds what this process has sent after a position that can be resumed from. -/
theorem Database.FeedInv.backlog (h : d.FeedInv) {after : Nat}
    (hle : d.feed.earliestResumable ≤ after) :
    (d.feed.retained.filter fun e => after < e.seq) = d.sent.filter fun e => after < e.seq := by
  obtain ⟨left, hkept, hleft⟩ := h.kept
  have hout : left.filter (fun e => after < e.seq) = [] :=
    List.filter_eq_nil_iff.2 fun e he => by simpa using (hleft e he).trans hle
  rw [hkept, List.filter_append, hout, List.nil_append]

/-- In every run in which each restart finds a checkpoint or a record that is not below
    the number of any event so far but the last one, and at most one below that of the last one:
    a subscriber that has seen an event, from this process or an earlier one, and that resumes
    after it, is refused, or gets every event emitted since, by whichever process. -/
theorem resume_complete (hrun : ReflTransGen CoveredStep (attach .empty []) d)
    (hlive : ProcessSteps d d') {before after : List (LiveEvent π)}
    (hemitted : d'.earlier ++ d'.sent = before ++ e :: after)
    (hseen : before.length < (d.earlier ++ d.sent).length) : Resumes d d' e after := by
  have hinv := feedInv_steps hrun
  obtain ⟨hearlier, -, live, hsent, -⟩ := hlive.sent
  have hdrop : d'.sent.drop d.sent.length = live := by rw [hsent, List.drop_left]
  rw [hearlier, hsent, ← List.append_assoc] at hemitted
  -- The event is among those emitted before the subscription.
  obtain ⟨post, hpost, hafter⟩ : ∃ post, d.earlier ++ d.sent = before ++ e :: post ∧
      after = post ++ live := by
    rcases List.append_eq_append_iff.1 hemitted with ⟨more, hbefore, -⟩ | ⟨rest, hall, hrest⟩
    · rw [hbefore, List.length_append] at hseen
      exact absurd hseen (by simp)
    · rcases rest with _ | ⟨e', post⟩
      · exact absurd hseen (by rw [hall]; simp)
      obtain ⟨rfl, rfl⟩ := List.cons.inj hrest
      exact ⟨post, hall, rfl⟩
  by_cases hlt : e.seq < d.feed.earliestResumable
  · exact .inl ⟨_, if_pos hlt⟩
  have hsince : ∀ e' ∈ post, e' ∈ d.sent ∧ e.seq < e'.seq := by
    have hnow (before' : List (LiveEvent π)) (hs : d.sent = before' ++ e :: post) :
        ∀ e' ∈ post, e' ∈ d.sent ∧ e.seq < e'.seq := by
      have hordered := hinv.ordered
      rw [hs, List.pairwise_append] at hordered
      exact fun e' he' => ⟨by simp [hs, he'], List.rel_of_pairwise_cons hordered.2.1 he'⟩
    rcases List.append_eq_append_iff.1 hpost with ⟨before', -, hs⟩ | ⟨rest, hold, hs⟩
    · exact hnow before' hs
    · rcases rest with _ | ⟨e', rest⟩
      · exact hnow [] hs.symm
      obtain ⟨rfl, rfl⟩ := List.cons.inj hs
      -- It is the last event before this process.
      obtain ⟨rfl, -, habove⟩ := (hinv.earlier before e rest hold).resolve_left hlt
      exact fun e' he' => ⟨he', habove e' he'⟩
  refine .inr ⟨_, if_neg hlt, fun e' he' => ?_⟩
  rw [hdrop, hinv.backlog (not_lt.1 hlt)]
  rcases List.mem_append.1 (hafter ▸ he') with hback | hnew
  · obtain ⟨hmem, hlater⟩ := hsince e' hback
    exact List.mem_append_left _ (List.mem_filter.2 ⟨hmem, by simpa using hlater⟩)
  · exact List.mem_append_right _ hnew

/-- An event between two mutations, a restart that finds both, and an event after it. -/
def resumedDatabase : Database Nat Nat :=
  let d : Database Nat Nat := attach .empty []
  let d := { d with writer := d.writer.standalone 10 true }
  let d := d.emitWith .everyone id
  let d := { d with writer := d.writer.standalone 20 true }
  (d.restart 2).emitWith .everyone id

theorem resume_complete_between_mutations :
    Resumes resumedDatabase resumedDatabase ⟨3, 3, .everyone⟩ [⟨6, 6, .everyone⟩] := by
  have hfirst : ReflTransGen CoveredStep (attach .empty []) _ :=
    (((ReflTransGen.refl (a := (attach .empty [] : Database Nat Nat))).tail
      (.process (.write (.standalone rfl 10 true)))).tail
      (.process (.emit .everyone id))).tail (.process (.write (.standalone rfl 20 true)))
  have hrun : ReflTransGen CoveredStep (attach .empty []) resumedDatabase :=
    (hfirst.tail (.restart 2 (by decide +kernel) (by decide) (by decide))).tail
      (.process (.emit .everyone id))
  have hemitted : resumedDatabase.earlier ++ resumedDatabase.sent =
      [] ++ ⟨3, 3, .everyone⟩ :: [⟨6, 6, .everyone⟩] := by decide
  exact resume_complete hrun .refl hemitted (by decide)

/-- Without the condition: two mutations take the numbers 2 and 3, two events 4 and 5. The
    next process finds 3 as the highest number, takes 4 as its oldest position, and
    lets a subscriber resume after 4, with nothing to send it. -/
theorem resume_incomplete : ¬ ∀ d d' : Database Nat Nat,
    ReflTransGen Database.Step (attach .empty []) d → ProcessSteps d d' →
    ∀ before e after, d'.earlier ++ d'.sent = before ++ e :: after → e ∈ d.earlier →
      before.length < d.earlier.length → Resumes d d' e after := by
  intro hall
  have hrun : ReflTransGen Database.Step (attach .empty []) _ :=
    (((((ReflTransGen.refl (a := (attach .empty [] : Database Nat Nat))).tail
      (.process (.write (.standalone rfl 10 true)))).tail
      (.process (.write (.standalone rfl 20 true)))).tail
      (.process (.emit .everyone id))).tail (.process (.emit .everyone id))).tail
      (.restart 2 (by decide +kernel))
  have hresumes := hall _ _ hrun .refl [] ⟨4, 4, .everyone⟩ [⟨5, 5, .everyone⟩] (by decide)
    (by decide) (by decide)
  rcases hresumes with ⟨refusal, hrefused⟩ | ⟨backlog, hok, hmem⟩
  · cases hrefused
  · obtain rfl : [] = backlog := Except.ok.inj hok
    exact absurd (hmem _ List.mem_cons_self) (by decide)

/-- In one process, whatever it emits and logs: a resumption after a position is refused
    exactly if the feed was created above it, or an event above it has left the ring. If the
    position may have been handed out, what is not refused gets the events above it, each once
    and in order. -/
theorem subscription_exact {w : Writer μ} (hrun : ProcessSteps (attach w []) d)
    (hlive : ProcessSteps d d') (after : Nat) :
    ((∃ refusal, d.feed.subscribe (some after) = .error refusal) ↔ after < w.counters.operationId ∨
      ∃ e ∈ d.sent, e ∉ d.feed.retained ∧ after < e.seq) ∧
    (after < d.writer.counters.operationId → ∀ backlog,
      d.feed.subscribe (some after) = .ok backlog →
      backlog ++ d'.sent.drop d.sent.length = d'.sent.filter fun e => after < e.seq) ∧
    d'.sent.Pairwise fun e e' => e.seq < e'.seq := by
  obtain ⟨hinv, hhorizon⟩ := horizon_steps hrun
  have hrefused : (∃ refusal, d.feed.subscribe (some after) = .error refusal) ↔
      after < d.feed.earliestResumable := by
    rw [FeedState.subscribe]
    split_ifs with hlt <;> simp [hlt]
  refine ⟨hrefused.trans ⟨fun hlt => ?_, ?_⟩, fun hafter backlog hok => ?_,
    (horizon_steps (hrun.trans hlive)).1.ordered⟩
  · rcases hhorizon.reached with hcreated | ⟨e, he, hseq⟩
    · exact .inl (hcreated ▸ hlt)
    · exact .inr ⟨e, he, fun hin => (hinv.retained e hin).ne' hseq, hseq ▸ hlt⟩
  · rintro (hlt | ⟨e, he, hout, hlt⟩)
    · exact hlt.trans_le hhorizon.created_le
    · obtain ⟨left, hkept, hleft⟩ := hinv.kept
      exact hlt.trans_le (hleft e ((List.mem_append.1 (hkept ▸ he)).resolve_right hout))
  · have hle : d.feed.earliestResumable ≤ after := by
      by_contra hlt
      obtain ⟨refusal, herror⟩ := hrefused.2 (not_le.1 hlt)
      cases hok.symm.trans herror
    obtain ⟨-, -, live, hsent, hnew⟩ := hlive.sent
    have hall : live.filter (fun e => after < e.seq) = live :=
      List.filter_eq_self.2 fun e he => by simpa using hafter.trans_le (hnew e he)
    rw [FeedState.subscribe, if_neg hle.not_gt, Except.ok.injEq] at hok
    rw [← hok, hinv.backlog hle, hsent, List.drop_left, List.filter_append, hall]

/-- Two events, with a mutation between them. The second is live for a subscriber that has
    seen the first. -/
theorem subscription_exact_second :
    ∃ d d' : Database Nat Nat, ProcessSteps (attach .empty []) d ∧ ProcessSteps d d' ∧
      d.feed.subscribe (some 2) = .ok [] ∧ [] ++ d'.sent.drop d.sent.length = [⟨4, 4, .everyone⟩] := by
  let d : Database Nat Nat := (attach .empty []).emitWith .everyone id
  have hrun : ProcessSteps (attach .empty []) d := .single (.emit .everyone id)
  have hlive : ProcessSteps d ({ d with writer := d.writer.standalone 10 true }.emitWith .everyone id) :=
    (ReflTransGen.single (.write (.standalone rfl 10 true))).tail (.emit .everyone id)
  exact ⟨d, _, hrun, hlive, by decide,
    (subscription_exact hrun hlive 2).2.1 (by decide) [] (by decide)⟩

/-- A position that has not been handed out yet: what is emitted then is sent all the same. -/
theorem subscription_ahead : ¬ ∀ d d' : Database Nat Nat,
    ProcessSteps (attach .empty []) d → ProcessSteps d d' → ∀ after backlog,
      d.feed.subscribe (some after) = .ok backlog →
      backlog ++ d'.sent.drop d.sent.length = d'.sent.filter fun e => after < e.seq := by
  intro hall
  have hsame := hall (attach .empty []) _ .refl (.single (.emit .everyone id)) 9 [] (by decide)
  revert hsame
  decide

end Resume

end FacetQL
