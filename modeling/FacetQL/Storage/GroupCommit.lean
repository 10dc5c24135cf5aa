import FacetQL.Lib.InfiniteRun

/-!
# Group commit

A writer that has appended its records calls `sync_pending` outside the writer lock. One of the
calls flushes the log for all of them, with no lock held; the others wait on a condition variable,
and look again when they are woken. A rotation of the log can come at any time, also in the middle of
a flush, and starts the bookkeeping anew.

* `group_commit`: what an `Ok` has made durable, and that no thread waits for ever.
-/

namespace FacetQL

/-- A call of `sync_pending`. -/
structure SyncCall where
  target : Nat
  /-- The records that were appended before the call. -/
  before : List Nat
  deriving DecidableEq, Repr

/-- How far the call of a thread has come. -/
inductive CallPhase where
  /-- It has not been made. -/
  | idle
  /-- At the mutex, about to look at the state. -/
  | entered (call : SyncCall)
  /-- In `condvar.wait`. -/
  | parked (call : SyncCall)
  /-- The syncer, with the mutex released. -/
  | leading (call : SyncCall) (covered : Nat)
  /-- The syncer, with the descriptor of a file. -/
  | holding (call : SyncCall) (covered : Nat) (file : Nat)
  /-- In `sync_data`, begun when the file had these records. -/
  | flushing (call : SyncCall) (covered : Nat) (snapshot : List Nat)
  /-- At the mutex, with the outcome of the flush. -/
  | flushed (call : SyncCall) (covered : Nat) (succeeded : Bool)
  | returned (call : SyncCall) (succeeded : Bool)
  deriving DecidableEq, Repr

namespace CallPhase

/-- A thread that has been notified looks at the state again. -/
def notified : CallPhase → CallPhase
  | .parked call => .entered call
  | phase => phase

/-- The call is the syncer, has not yet published the outcome, and covers the target. -/
def Flushes (target : Nat) : CallPhase → Prop
  | .leading _ covered | .holding _ covered _ | .flushing _ covered _ | .flushed _ covered _ =>
    target ≤ covered
  | _ => False

/-- The call is the syncer, and has not yet published the outcome. -/
abbrev InFlight (p : CallPhase) : Prop := p.Flushes 0

/-- The call has a step to make: it does not wait, and has not returned. -/
def Enabled : CallPhase → Prop
  | .idle | .parked .. | .returned .. => False
  | _ => True

theorem InFlight.enabled {p : CallPhase} (h : p.InFlight) : p.Enabled := by
  cases p with
  | idle | parked | returned => exact h
  | _ => trivial

theorem Flushes.mono {p : CallPhase} {target target' : Nat} (h : p.Flushes target)
    (hle : target' ≤ target) : p.Flushes target' := by
  cases p with
  | leading | holding | flushing | flushed => exact hle.trans h
  | _ => exact h

theorem Flushes.inFlight {p : CallPhase} {target : Nat} (h : p.Flushes target) : p.InFlight :=
  h.mono (Nat.zero_le _)

theorem flushes_notified {p : CallPhase} {target : Nat} (h : p.Flushes target) :
    p.notified.Flushes target := by
  cases p with
  | parked => exact h.elim
  | _ => exact h

/-- How many kinds of steps are ahead of a call. -/
def rank : CallPhase → Nat
  | .idle => 6
  | .entered .. | .parked .. => 5
  | .leading .. => 4
  | .holding .. => 3
  | .flushing .. => 2
  | .flushed .. => 1
  | .returned .. => 0

/-- How a step can change the phase of a thread: it goes on, is woken, or waits. -/
inductive Goes : CallPhase → CallPhase → Prop
  | stays (p : CallPhase) : Goes p p
  | on {p p' : CallPhase} (h : p'.rank < p.rank) : Goes p p'
  | woken (call : SyncCall) : Goes (.parked call) (.entered call)
  | waits (call : SyncCall) : Goes (.entered call) (.parked call)

theorem goes_notified (p : CallPhase) : Goes p p.notified := by
  cases p with
  | parked call => exact .woken call
  | _ => exact .stays _

theorem rank_lt_of_ne_idle {p : CallPhase} (hp : p ≠ .idle) : p.rank < CallPhase.idle.rank := by
  cases p with
  | idle => exact absurd rfl hp
  | _ => simp [rank]

theorem Goes.rank_le {p p' : CallPhase} (h : Goes p p') : p'.rank ≤ p.rank := by
  cases h with
  | on h => exact h.le
  | _ => exact le_rfl

/-- A call that flushes does not wait. -/
theorem Goes.rank_lt {p p' : CallPhase} (h : Goes p p') (hp : p.InFlight) (hne : p' ≠ p) :
    p'.rank < p.rank := by
  cases h with
  | stays => exact absurd rfl hne
  | on h => exact h
  | woken | waits => exact hp.elim

theorem InFlight.rank_lt {p : CallPhase} (h : p.InFlight) : p.rank < 5 := by
  cases p with
  | idle | entered | parked | returned => exact h.elim
  | _ => simp [rank]

theorem inFlight_or_returned {p : CallPhase} (h : p.rank < 5) :
    p.InFlight ∨ ∃ call succeeded, p = .returned call succeeded := by
  cases p with
  | returned call succeeded => exact .inr ⟨call, succeeded, rfl⟩
  | leading | holding | flushing | flushed => exact .inl (Nat.zero_le _)
  | idle | entered | parked => simp [rank] at h

/-- The call waits, or is about to look. -/
def Pending (call : SyncCall) (p : CallPhase) : Prop := p = .entered call ∨ p = .parked call

theorem Goes.pending {p p' : CallPhase} {call : SyncCall} (h : Goes p p') (hp : p.Pending call) :
    p'.Pending call ∨ p'.rank < 5 := by
  cases h with
  | stays => exact .inl hp
  | on h =>
    rcases hp with rfl | rfl <;> exact .inr h
  | woken call' =>
    cases hp.resolve_left nofun
    exact .inl (.inl rfl)
  | waits call' =>
    cases hp.resolve_right nofun
    exact .inl (.inr rfl)

end CallPhase

/-- The log, the state of `sync_pending`, and its callers. A record is its sequence. -/
structure GroupCommit (τ : Type) where
  /-- The records in each file that has had the name of the log. -/
  files : Nat → List Nat
  /-- The file that has it now. -/
  current : Nat
  /-- The highest sequence that has been written to the log. -/
  appended : Nat
  durable : Nat
  syncing : Bool
  /-- The checkpoint that is durable. -/
  checkpoint : Nat
  phase : τ → CallPhase
  /-- The records that this process has appended. -/
  written : List Nat
  /-- The records that were in a file when a flush of it began that has succeeded. -/
  flushed : List Nat
  /-- The records that a rotation has written to the new file, and flushed there. -/
  carried : List Nat
  /-- The records that a rotation has left out, under the checkpoint. -/
  dropped : List Nat

namespace GroupCommit

variable {τ : Type} [DecidableEq τ]

/-- A process starts with any log and any checkpoint. -/
def start (log : List Nat) (checkpoint : Nat) : GroupCommit τ where
  files i := if i = 0 then log else []
  current := 0
  appended := 0
  durable := 0
  syncing := false
  checkpoint
  phase _ := .idle
  written := []
  flushed := []
  carried := []
  dropped := []

/-- A thread goes on to this phase. -/
def setPhase (t : τ) (phase : CallPhase) (s : GroupCommit τ) : GroupCommit τ :=
  { s with phase := Function.update s.phase t phase }

omit [DecidableEq τ] in
/-- Wake every thread that waits. -/
def notifyAll (s : GroupCommit τ) : GroupCommit τ :=
  { s with phase := fun t => (s.phase t).notified }

/-- Append a record, under the writer lock. -/
def append (sequence : Nat) (s : GroupCommit τ) : GroupCommit τ :=
  { s with
    files := Function.update s.files s.current (s.files s.current ++ [sequence])
    appended := max s.appended sequence
    written := s.written ++ [sequence] }

/-- The file has been replaced: nothing of it is known to be durable. -/
def resetSyncState (s : GroupCommit τ) : GroupCommit τ :=
  { s with durable := 0, syncing := false }.notifyAll

/-- Replace the log by one without the records at or below the checkpoint, under the writer lock. -/
def rotate (s : GroupCommit τ) : GroupCommit τ :=
  let kept := (s.files s.current).filter (s.checkpoint < ·)
  resetSyncState
    { s with
      files := Function.update s.files (s.current + 1) kept
      current := s.current + 1
      carried := s.carried ++ kept
      dropped := s.dropped ++ (s.files s.current).filter (· ≤ s.checkpoint) }

/-- What the call sees with the mutex taken. -/
def look (t : τ) (call : SyncCall) (s : GroupCommit τ) : GroupCommit τ :=
  if s.durable ≥ call.target then s.setPhase t (.returned call true)
  else if s.syncing then s.setPhase t (.parked call)
  -- Become the syncer.
  else { s with syncing := true }.setPhase t (.leading call s.appended)

/-- The flush of a file has ended, which had these records when it began. -/
def endFlush (t : τ) (call : SyncCall) (covered : Nat) (snapshot : List Nat) (succeeded : Bool)
    (s : GroupCommit τ) : GroupCommit τ :=
  { s with flushed := if succeeded then s.flushed ++ snapshot else s.flushed }.setPhase t
    (.flushed call covered succeeded)

/-- Publish the outcome of the flush. Every waiter has to re-evaluate, including on failure. -/
def publish (t : τ) (call : SyncCall) (covered : Nat) (succeeded : Bool) (s : GroupCommit τ) :
    GroupCommit τ :=
  { s with
    syncing := false
    durable := if succeeded then max s.durable covered else s.durable }.notifyAll.setPhase t
    (.returned call succeeded)

/-- The steps, with the thread that makes it, if it is one of a call. -/
inductive Step : GroupCommit τ → Option τ → GroupCommit τ → Prop
  /-- The sequences are handed out under the lock that the append is made under. -/
  | append {s : GroupCommit τ} {t : τ} (ht : s.phase t = .idle) {sequence : Nat}
      (hnext : s.appended < sequence) : Step s (some t) (s.append sequence)
  | checkpoint {s : GroupCommit τ} {c : Nat} (hc : s.checkpoint ≤ c) :
      Step s none { s with checkpoint := c }
  /-- A rotation with nothing to drop leaves the log alone. -/
  | rotate {s : GroupCommit τ} (hdrop : ∃ q ∈ s.files s.current, q ≤ s.checkpoint) :
      Step s none s.rotate
  | enter {s : GroupCommit τ} {t : τ} (ht : s.phase t = .idle) :
      Step s (some t) (s.setPhase t (.entered ⟨s.appended, s.written⟩))
  | look {s : GroupCommit τ} {t : τ} {call : SyncCall} (ht : s.phase t = .entered call) :
      Step s (some t) (s.look t call)
  /-- A thread may be woken for no reason. -/
  | wake {s : GroupCommit τ} {t : τ} {call : SyncCall} (ht : s.phase t = .parked call) :
      Step s none (s.setPhase t (.entered call))
  | take {s : GroupCommit τ} {t : τ} {call : SyncCall} {covered : Nat}
      (ht : s.phase t = .leading call covered) :
      Step s (some t) (s.setPhase t (.holding call covered s.current))
  /-- The log could not be opened. -/
  | noHandle {s : GroupCommit τ} {t : τ} {call : SyncCall} {covered : Nat}
      (ht : s.phase t = .leading call covered) :
      Step s (some t) (s.setPhase t (.flushed call covered false))
  | startFlush {s : GroupCommit τ} {t : τ} {call : SyncCall} {covered file : Nat}
      (ht : s.phase t = .holding call covered file) :
      Step s (some t) (s.setPhase t (.flushing call covered (s.files file)))
  | endFlush {s : GroupCommit τ} {t : τ} {call : SyncCall} {covered : Nat} {snapshot : List Nat}
      (ht : s.phase t = .flushing call covered snapshot) (succeeded : Bool) :
      Step s (some t) (s.endFlush t call covered snapshot succeeded)
  | publish {s : GroupCommit τ} {t : τ} {call : SyncCall} {covered : Nat} {succeeded : Bool}
      (ht : s.phase t = .flushed call covered succeeded) :
      Step s (some t) (s.publish t call covered succeeded)

/-- The states that a process comes to. -/
inductive Reachable : GroupCommit τ → Prop
  | start (log : List Nat) (checkpoint : Nat) : Reachable (start log checkpoint)
  | step {s s' : GroupCommit τ} {l : Option τ} : Reachable s → Step s l s' → Reachable s'

/-- A record flushed after it was written, carried into a new log, or under the checkpoint. -/
def Safe (s : GroupCommit τ) (q : Nat) : Prop := q ∈ s.flushed ∨ q ∈ s.carried ∨ q ∈ s.dropped

/-! ## What counts as durable is safe -/

/-- What a step leaves: records and files only grow, and what is appended is above what has been. -/
structure Extends (s s' : GroupCommit τ) : Prop where
  current_le : s.current ≤ s'.current
  appended_le : s.appended ≤ s'.appended
  kept : ∀ q ∈ s.written, q ∈ s'.written
  written : ∀ q ∈ s'.written, q ∈ s.written ∨ s.appended < q
  safe : ∀ q, s.Safe q → s'.Safe q
  files : ∀ f ≤ s.current, ∀ q ∈ s.files f, q ∈ s'.files f

/-- The records up to `covered` are safe, or satisfy `P`. -/
def Covers (s : GroupCommit τ) (covered : Nat) (P : Nat → Prop) : Prop :=
  covered ≤ s.appended ∧ ∀ q ∈ s.written, q ≤ covered → s.Safe q ∨ P q

/-- What was appended before the call has been written, with sequences up to the bound. -/
def Bounded (s : GroupCommit τ) (call : SyncCall) (bound : Nat) : Prop :=
  ∀ q ∈ call.before, q ∈ s.written ∧ q ≤ bound

/-- What a call in this phase relies on. -/
def Sound (s : GroupCommit τ) : CallPhase → Prop
  | .idle => True
  | .entered call | .parked call => s.Bounded call call.target ∧ call.target ≤ s.appended
  | .leading call covered => s.Bounded call covered ∧ covered ≤ s.appended
  | .holding call covered file =>
    s.Bounded call covered ∧ file ≤ s.current ∧ s.Covers covered (· ∈ s.files file)
  | .flushing call covered snapshot => s.Bounded call covered ∧ s.Covers covered (· ∈ snapshot)
  | .flushed call covered succeeded =>
    s.Bounded call covered ∧ (succeeded = true → s.Covers covered fun _ => False)
  | .returned call succeeded => succeeded = true → ∀ q ∈ call.before, s.Safe q

/-- What holds of the sync state, the file and every call. -/
structure Inv (s : GroupCommit τ) : Prop where
  written_le : ∀ q ∈ s.written, q ≤ s.appended
  durable : s.Covers s.durable fun _ => False
  /-- What is not safe yet is in the file that the next flush is of. -/
  inLog : ∀ q ∈ s.written, s.Safe q ∨ q ∈ s.files s.current
  threads : ∀ t, s.Sound (s.phase t)

section Safety

variable {s s' : GroupCommit τ} {t : τ} {call : SyncCall} {covered : Nat} {snapshot : List Nat}

omit [DecidableEq τ]

theorem Covers.mono {P P' : Nat → Prop} (h : s.Covers covered P) (hs : Extends s s')
    (hP : ∀ q, P q → P' q) : s'.Covers covered P' := by
  refine ⟨h.1.trans hs.appended_le, fun q hq hcovered => ?_⟩
  rcases hs.written q hq with hq | hlater
  · exact (h.2 q hq hcovered).imp (hs.safe q) (hP q)
  · -- It was appended after the highest sequence was noted.
    exact absurd (hcovered.trans h.1) hlater.not_ge

theorem Bounded.mono (h : s.Bounded call covered) (hs : Extends s s') : s'.Bounded call covered :=
  fun q hq => ⟨hs.kept q (h q hq).1, (h q hq).2⟩

theorem Bounded.safe (h : s.Bounded call covered) (hs : s.Covers covered fun _ => False) :
    ∀ q ∈ call.before, s.Safe q :=
  fun q hq => (hs.2 q (h q hq).1 (h q hq).2).resolve_right id

theorem Sound.mono {p : CallPhase} (h : s.Sound p) (hs : Extends s s') : s'.Sound p := by
  cases p with
  | idle => trivial
  | entered call | parked call => exact ⟨h.1.mono hs, h.2.trans hs.appended_le⟩
  | leading call covered => exact ⟨h.1.mono hs, h.2.trans hs.appended_le⟩
  | holding call covered file =>
    exact ⟨h.1.mono hs, h.2.1.trans hs.current_le, h.2.2.mono hs (hs.files file h.2.1)⟩
  | flushing call covered snapshot => exact ⟨h.1.mono hs, h.2.mono hs fun _ => id⟩
  | flushed call covered succeeded =>
    exact ⟨h.1.mono hs, fun hok => (h.2 hok).mono hs fun _ => id⟩
  | returned call succeeded => exact fun hok q hq => hs.safe q (h hok q hq)

theorem sound_notified (p : CallPhase) : s.Sound p.notified = s.Sound p := by
  cases p <;> rfl

theorem Inv.start (log : List Nat) (checkpoint : Nat) :
    Inv (start log checkpoint : GroupCommit τ) where
  written_le := nofun
  durable := ⟨Nat.le_refl 0, nofun⟩
  inLog := nofun
  threads _ := trivial

theorem Inv.notifyAll (h : Inv s) : Inv s.notifyAll where
  written_le := h.written_le
  durable := h.durable
  inLog := h.inLog
  threads t := (sound_notified (s.phase t)).mpr (h.threads t)

theorem Extends.append {q : Nat} (hnext : s.appended < q) : Extends s (s.append q) where
  current_le := le_rfl
  appended_le := le_max_left ..
  kept _ hr := List.mem_append_left _ hr
  written r hr := by
    rcases List.mem_append.1 hr with hr | hr
    · exact .inl hr
    · exact .inr (List.mem_singleton.1 hr ▸ hnext)
  safe _ := id
  files f _ r hr := by
    by_cases hf : f = s.current
    · subst hf
      simpa [GroupCommit.append] using Or.inl hr
    · simpa [GroupCommit.append, hf] using hr

theorem Inv.append (h : Inv s) {q : Nat} (hnext : s.appended < q) : Inv (s.append q) := by
  have hs := Extends.append hnext
  refine ⟨fun r hr => ?_, h.durable.mono hs fun _ => id, fun r hr => ?_,
    fun t => (h.threads t).mono hs⟩
  · rcases List.mem_append.1 hr with hr | hr
    · exact (h.written_le r hr).trans hs.appended_le
    · exact List.mem_singleton.1 hr ▸ le_max_right ..
  · rcases List.mem_append.1 hr with hr | hr
    · exact (h.inLog r hr).imp id (hs.files _ le_rfl r)
    · refine .inr ?_
      simpa [GroupCommit.append] using Or.inr (List.mem_singleton.1 hr)

/-- A rotation makes every record safe that is in the log. -/
theorem safe_rotate {q : Nat} (h : s.Safe q ∨ q ∈ s.files s.current) : s.rotate.Safe q := by
  rcases h with (h | h | h) | h
  · exact .inl h
  · exact .inr (.inl (List.mem_append_left _ h))
  · exact .inr (.inr (List.mem_append_left _ h))
  · by_cases hq : q ≤ s.checkpoint
    · exact .inr (.inr (List.mem_append_right _ (List.mem_filter.2 ⟨h, decide_eq_true hq⟩)))
    · exact .inr (.inl (List.mem_append_right _
        (List.mem_filter.2 ⟨h, decide_eq_true (Nat.lt_of_not_le hq)⟩)))

theorem Extends.rotate : Extends s s.rotate where
  current_le := Nat.le_succ _
  appended_le := le_rfl
  kept _ := id
  written _ := .inl
  safe _ hq := safe_rotate (.inl hq)
  files f hf r hr := by
    have hne : f ≠ s.current + 1 := (Nat.lt_succ_of_le hf).ne
    change r ∈ Function.update s.files (s.current + 1) _ f
    rwa [Function.update_of_ne hne]

theorem Inv.rotate (h : Inv s) : Inv s.rotate where
  written_le := h.written_le
  -- Nothing counts as durable any more, and everything is safe.
  durable := ⟨Nat.zero_le _, fun q hq _ => .inl (safe_rotate (h.inLog q hq))⟩
  inLog q hq := .inl (safe_rotate (h.inLog q hq))
  threads t := (sound_notified (s.phase t)).mpr ((h.threads t).mono Extends.rotate)

end Safety

section Safety

variable {s s' : GroupCommit τ} {t : τ} {call : SyncCall} {covered : Nat} {snapshot : List Nat}

theorem Inv.setPhase (h : Inv s) {p : CallPhase} (hp : s.Sound p) : Inv (s.setPhase t p) where
  written_le := h.written_le
  durable := h.durable
  inLog := h.inLog
  threads u := by
    change s.Sound (Function.update s.phase t p u)
    by_cases hu : u = t
    · rwa [hu, Function.update_self]
    · rw [Function.update_of_ne hu]
      exact h.threads u

omit [DecidableEq τ] in
theorem Inv.bounded (h : Inv s) : s.Bounded ⟨covered, s.written⟩ s.appended :=
  fun q hq => ⟨hq, h.written_le q hq⟩

theorem Inv.look (h : Inv s) (hsound : s.Sound (.entered call)) : Inv (s.look t call) := by
  obtain ⟨hcall, hle⟩ := hsound
  rw [GroupCommit.look]
  split_ifs with hdurable hsyncing
  · -- The target has been covered.
    exact h.setPhase fun _ q hq =>
      (h.durable.2 q (hcall q hq).1 ((hcall q hq).2.trans hdurable)).resolve_right id
  · exact h.setPhase ⟨hcall, hle⟩
  · have hsame : Inv { s with syncing := true } := ⟨h.written_le, h.durable, h.inLog, h.threads⟩
    exact hsame.setPhase ⟨fun q hq => ⟨(hcall q hq).1, h.written_le q (hcall q hq).1⟩, le_rfl⟩

theorem Inv.endFlush (h : Inv s) (hcall : s.Bounded call covered)
    (hcovers : s.Covers covered (· ∈ snapshot)) (succeeded : Bool) :
    Inv (s.endFlush t call covered snapshot succeeded) := by
  let s' := { s with flushed := if succeeded then s.flushed ++ snapshot else s.flushed }
  have hsafe (q : Nat) (hq : s.Safe q) : s'.Safe q := by
    refine hq.imp (fun hq => ?_) id
    cases succeeded with
    | false => exact hq
    | true => exact List.mem_append_left _ hq
  have hs : Extends s s' := ⟨le_rfl, le_rfl, fun _ => id, fun _ => .inl, hsafe, fun _ _ _ => id⟩
  have hinv : Inv s' := ⟨h.written_le, h.durable.mono hs fun _ => id,
    fun q hq => (h.inLog q hq).imp (hsafe q) id, fun u => (h.threads u).mono hs⟩
  refine hinv.setPhase ⟨hcall.mono hs, ?_⟩
  rintro rfl
  refine ⟨hcovers.1, fun q hq hle => .inl ?_⟩
  rcases hcovers.2 q hq hle with hq | hq
  · exact hsafe q hq
  · exact .inl (List.mem_append_right _ hq)

theorem Inv.publish (h : Inv s) {succeeded : Bool} (hcall : s.Bounded call covered)
    (hcovers : succeeded = true → s.Covers covered fun _ => False) :
    Inv (s.publish t call covered succeeded) := by
  have hinv : Inv { s with
      syncing := false, durable := if succeeded then max s.durable covered else s.durable } := by
    refine ⟨h.written_le, ?_, h.inLog, h.threads⟩
    rcases succeeded with _ | _
    · exact h.durable
    have hcovers := hcovers rfl
    refine ⟨max_le h.durable.1 hcovers.1, fun q hq hle => ?_⟩
    rcases le_max_iff.1 hle with hle | hle
    · exact h.durable.2 q hq hle
    · exact hcovers.2 q hq hle
  exact hinv.notifyAll.setPhase fun hok => hcall.safe (hcovers hok)

theorem Inv.step {l : Option τ} (h : Inv s) (hstep : Step s l s') : Inv s' := by
  have hsound {t : τ} {p : CallPhase} (ht : s.phase t = p) : s.Sound p := ht ▸ h.threads t
  cases hstep with
  | append ht hnext => exact h.append hnext
  | checkpoint hc => exact ⟨h.written_le, h.durable, h.inLog, h.threads⟩
  | rotate hdrop => exact h.rotate
  | enter ht => exact h.setPhase ⟨h.bounded, le_rfl⟩
  | look ht => exact h.look (hsound ht)
  | wake ht => exact h.setPhase (show s.Sound (.parked _) from hsound ht)
  | take ht =>
    obtain ⟨hcall, hle⟩ := hsound ht
    exact h.setPhase ⟨hcall, le_rfl, hle, fun q hq _ => h.inLog q hq⟩
  | noHandle ht => exact h.setPhase ⟨(hsound ht).1, nofun⟩
  | startFlush ht => exact h.setPhase ⟨(hsound ht).1, (hsound ht).2.2⟩
  | endFlush ht succeeded => exact h.endFlush (hsound ht).1 (hsound ht).2 succeeded
  | publish ht => exact h.publish (hsound ht).1 (hsound ht).2

theorem reachable_inv (h : Reachable s) : Inv s := by
  induction h with
  | start log checkpoint => exact .start log checkpoint
  | step _ hstep ih => exact ih.step hstep

end Safety

/-! ## A thread that waits is woken -/

/-- Somebody flushes while the state says so, and only then a thread waits. -/
structure Waits (s : GroupCommit τ) : Prop where
  leader : s.syncing = true → ∃ u, (s.phase u).InFlight
  parked : ∀ t call, s.phase t = .parked call → s.syncing = true

/-- A failed flush is published, or the log rotated: what counted as durable does not any more. -/
def Setback (s s' : GroupCommit τ) : Prop :=
  s'.current ≠ s.current ∨ ∃ u call covered, s.phase u = .flushed call covered false ∧
    s'.phase u = .returned call false

/-- An infinite run in which every thread that has a step to make from some time on makes one. -/
structure FairRun (σ : ℕ → GroupCommit τ) : Prop where
  reachable : Reachable (σ 0)
  step : ∀ n, σ (n + 1) = σ n ∨ ∃ l, Step (σ n) l (σ (n + 1))
  fair : ∀ t n, (∀ m ≥ n, ((σ m).phase t).Enabled) → ∃ m ≥ n, Step (σ m) (some t) (σ (m + 1))

section Liveness

variable {s s' : GroupCommit τ} {l : Option τ} {t u : τ} {p : CallPhase} {call : SyncCall}
  {target n : Nat} {σ : ℕ → GroupCommit τ}

@[simp]
theorem phase_setPhase (t u : τ) (p : CallPhase) (s : GroupCommit τ) :
    (s.setPhase t p).phase u = if u = t then p else s.phase u :=
  Function.update_apply ..

omit [DecidableEq τ] in
theorem notifyAll_ne_parked (s : GroupCommit τ) (t : τ) (call : SyncCall) :
    s.notifyAll.phase t ≠ .parked call := by
  change (s.phase t).notified ≠ _
  cases s.phase t <;> nofun

theorem flushes_update {phases : τ → CallPhase} {u : τ} (hu : (phases u).Flushes target)
    (hp : (phases t).Flushes target → p.Flushes target) :
    (Function.update phases t p u).Flushes target := by
  rw [Function.update_apply]
  split_ifs with hut
  · exact hp (hut ▸ hu)
  · exact hu

/-- A step that lets a flush go on, and makes a thread wait only if there is one. -/
theorem Waits.setPhase (h : Waits s) (hflight : (s.phase t).InFlight → p.InFlight)
    (hparked : ∀ call, p = .parked call → s.syncing = true) : Waits (s.setPhase t p) where
  leader hsyncing := by
    obtain ⟨u, hu⟩ := h.leader hsyncing
    exact ⟨u, flushes_update hu hflight⟩
  parked u call hu := by
    rw [phase_setPhase] at hu
    split_ifs at hu with hut
    · exact hparked call hu
    · exact h.parked u call hu

theorem publish_quiet (t : τ) (call : SyncCall) (covered : Nat) (succeeded : Bool)
    (s : GroupCommit τ) : (s.publish t call covered succeeded).syncing = false ∧
      ∀ u call', (s.publish t call covered succeeded).phase u ≠ .parked call' := by
  refine ⟨rfl, fun u call' => ?_⟩
  rw [GroupCommit.publish, phase_setPhase]
  by_cases hu : u = t
  · rw [if_pos hu]
    nofun
  · rw [if_neg hu]
    exact notifyAll_ne_parked _ u call'

omit [DecidableEq τ] in
theorem Waits.of_quiet (h : s.syncing = false ∧ ∀ u call, s.phase u ≠ .parked call) : Waits s :=
  ⟨fun hs => absurd hs (h.1 ▸ nofun), fun u call hu => absurd hu (h.2 u call)⟩

theorem Waits.look (h : Waits s) (ht : s.phase t = .entered call) : Waits (s.look t call) := by
  have hflight : ¬ (s.phase t).InFlight := ht ▸ id
  rw [GroupCommit.look]
  split_ifs with hdurable hsyncing
  · exact h.setPhase (fun hu => absurd hu hflight) nofun
  · exact h.setPhase (fun hu => absurd hu hflight) fun _ _ => hsyncing
  · refine ⟨fun _ => ⟨t, ?_⟩, fun _ _ _ => rfl⟩
    rw [phase_setPhase, if_pos rfl]
    exact Nat.zero_le _

theorem Waits.step (h : Waits s) (hstep : Step s l s') : Waits s' := by
  cases hstep with
  | append ht hnext | checkpoint hc => exact ⟨h.leader, h.parked⟩
  | rotate hdrop => exact .of_quiet ⟨rfl, notifyAll_ne_parked _⟩
  | enter ht | wake ht => exact h.setPhase (fun hu => by rw [ht] at hu; exact hu) nofun
  | look ht => exact h.look ht
  | take ht | noHandle ht | startFlush ht => exact h.setPhase (fun _ => Nat.zero_le _) nofun
  | @endFlush t call covered snapshot ht succeeded =>
    have hsame : Waits
        { s with flushed := if succeeded then s.flushed ++ snapshot else s.flushed } :=
      ⟨h.leader, h.parked⟩
    exact hsame.setPhase (fun _ => Nat.zero_le _) nofun
  | publish ht => exact .of_quiet (publish_quiet ..)

theorem reachable_waits (h : Reachable s) : Waits s := by
  induction h with
  | start log checkpoint => exact .of_quiet ⟨rfl, nofun⟩
  | step _ hstep ih => exact ih.step hstep

theorem goes_update {phases phases' : τ → CallPhase} (h : ∀ v, (phases v).Goes (phases' v))
    (ht : (phases t).Goes p) (u : τ) : (phases u).Goes (Function.update phases' t p u) := by
  rw [Function.update_apply]
  by_cases hu : u = t
  · rwa [if_pos hu, hu]
  · rw [if_neg hu]
    exact h u

theorem Step.goes (hstep : Step s l s') (u : τ) : (s.phase u).Goes (s'.phase u) := by
  have hstays (v : τ) : (s.phase v).Goes (s.phase v) := .stays _
  cases hstep with
  | append ht hnext | checkpoint hc => exact .stays _
  | rotate hdrop => exact CallPhase.goes_notified _
  | enter ht | take ht | noHandle ht | startFlush ht | endFlush ht succeeded =>
    exact goes_update hstays (ht ▸ .on (by simp [CallPhase.rank])) u
  | @look t call ht =>
    rw [GroupCommit.look]
    split_ifs
    · exact goes_update hstays (ht ▸ .on (by simp [CallPhase.rank])) u
    · exact goes_update hstays (ht ▸ .waits call) u
    · exact goes_update hstays (ht ▸ .on (by simp [CallPhase.rank])) u
  | wake ht => exact goes_update hstays (ht ▸ .woken _) u
  | publish ht =>
    exact goes_update (fun v => CallPhase.goes_notified _) (ht ▸ .on (by simp [CallPhase.rank])) u

/-- A step of the thread itself leads on from a phase that does not wait. -/
theorem Step.moves (hstep : Step s (some t) s') (henabled : (s.phase t).Enabled) :
    s'.phase t ≠ s.phase t := by
  cases hstep with
  | append ht hnext | enter ht =>
    rw [ht] at henabled
    exact henabled.elim
  | look ht =>
    rw [ht, GroupCommit.look]
    split_ifs <;> simp
  | take ht | noHandle ht | startFlush ht | endFlush ht succeeded | publish ht =>
    simp [ht, GroupCommit.endFlush, GroupCommit.publish]

theorem phase_setPhase_of_phase_ne (ht : s.phase t ≠ s.phase u) :
    (s.setPhase u p).phase t = s.phase t := by
  rw [phase_setPhase, if_neg fun h => ht (congrArg s.phase h)]

/-- Only the thread itself takes its call from where it is about to look. -/
theorem Step.entered (hstep : Step s l s') (ht : s.phase t = .entered call) :
    s'.phase t = .entered call ∨ s' = s.look t call := by
  cases hstep with
  | append hu hnext | checkpoint hc => exact .inl ht
  | rotate hdrop => exact .inl (congrArg CallPhase.notified ht)
  | @look u call' hu =>
    by_cases hut : t = u
    · subst hut
      cases ht.symm.trans hu
      exact .inr rfl
    · refine .inl ?_
      rw [GroupCommit.look]
      split_ifs <;> rw [phase_setPhase, if_neg hut] <;> exact ht
  | enter hu | wake hu | take hu | noHandle hu | startFlush hu =>
    exact .inl ((phase_setPhase_of_phase_ne (by simp [ht, hu])).trans ht)
  | endFlush hu succeeded =>
    refine .inl ((phase_setPhase_of_phase_ne ?_).trans ht)
    change s.phase t ≠ s.phase _
    simp [ht, hu]
  | publish hu =>
    refine .inl ((phase_setPhase_of_phase_ne ?_).trans (congrArg CallPhase.notified ht))
    change (s.phase t).notified ≠ (s.phase _).notified
    simp [ht, hu, CallPhase.notified]

/-- A flush goes on until it is published; then its target is durable unless it has failed. -/
theorem Step.flushes (hstep : Step s l s') (hu : (s.phase u).Flushes target) :
    (s'.phase u).Flushes target ∨ s'.syncing = false ∧ (∀ v call, s'.phase v ≠ .parked call) ∧
      (target ≤ s'.durable ∨ Setback s s') := by
  cases hstep with
  | append ht hnext | checkpoint hc => exact .inl hu
  | rotate hdrop => exact .inl (CallPhase.flushes_notified hu)
  | @enter t ht | @wake t call ht =>
    have hout : ¬ (s.phase t).Flushes target := by simp [ht, CallPhase.Flushes]
    exact .inl (flushes_update hu fun h => absurd h hout)
  | @look t call ht =>
    have hout : ¬ (s.phase t).Flushes target := by simp [ht, CallPhase.Flushes]
    refine .inl ?_
    rw [GroupCommit.look]
    split_ifs <;> exact flushes_update hu fun h => absurd h hout
  | take ht | noHandle ht | startFlush ht | endFlush ht succeeded =>
    refine .inl (flushes_update hu fun h => ?_)
    rw [ht] at h
    exact h
  | @publish t call covered succeeded ht =>
    by_cases hut : u = t
    · subst hut
      refine .inr ⟨rfl, (publish_quiet ..).2, ?_⟩
      rw [ht] at hu
      cases succeeded with
      | true => exact .inl (hu.trans (le_max_right ..))
      | false =>
        refine .inr (.inr ⟨u, call, covered, ht, ?_⟩)
        rw [GroupCommit.publish, phase_setPhase, if_pos rfl]
    · refine .inl ?_
      rw [GroupCommit.publish, phase_setPhase, if_neg hut]
      exact CallPhase.flushes_notified hu

/-- Who becomes the syncer covers everything that has been appended. -/
theorem Step.leads (hstep : Step s l s') (hsyncing : s.syncing = false)
    (hsyncing' : s'.syncing ≠ false) : ∃ u, (s'.phase u).Flushes s.appended := by
  cases hstep with
  | @look t call ht =>
    rw [GroupCommit.look] at hsyncing' ⊢
    split_ifs at hsyncing' ⊢
    · exact absurd hsyncing hsyncing'
    · exact absurd hsyncing hsyncing'
    · refine ⟨t, ?_⟩
      rw [phase_setPhase, if_pos rfl]
      exact le_refl s.appended
  | rotate | publish => exact absurd rfl hsyncing'
  | _ => exact absurd hsyncing hsyncing'

/-- What counts as durable goes on to do so until the log is rotated. -/
theorem Step.durable_le (hstep : Step s l s') (hcurrent : s'.current = s.current) :
    s.durable ≤ s'.durable := by
  cases hstep with
  | rotate hdrop => exact absurd hcurrent (Nat.succ_ne_self _)
  | look ht =>
    rw [GroupCommit.look]
    split_ifs <;> exact le_rfl
  | @publish t call covered succeeded ht =>
    cases succeeded with
    | true => exact le_max_left ..
    | false => exact le_rfl
  | _ => exact le_rfl

theorem FairRun.goes (hσ : FairRun σ) (n : ℕ) (t : τ) :
    ((σ n).phase t).Goes ((σ (n + 1)).phase t) := by
  rcases hσ.step n with heq | ⟨l, hstep⟩
  · rw [heq]
    exact .stays _
  · exact hstep.goes t

theorem FairRun.reaches (hσ : FairRun σ) : ∀ n, Reachable (σ n)
  | 0 => hσ.reachable
  | n + 1 => by
    rcases hσ.step n with heq | ⟨l, hstep⟩
    · exact heq ▸ hσ.reaches n
    · exact .step (hσ.reaches n) hstep

/-- A call that does not wait comes on: some step changes its phase. -/
theorem FairRun.changes (hσ : FairRun σ) (h : ((σ n).phase t).Enabled) :
    ∃ k ≥ n, (σ k).phase t = (σ n).phase t ∧ (σ (k + 1)).phase t ≠ (σ n).phase t ∧
      ∃ l, Step (σ k) l (σ (k + 1)) := by
  have hlater : ∃ m ≥ n, (σ m).phase t ≠ (σ n).phase t := by
    by_contra! hsame
    obtain ⟨m, hm, hstep⟩ := hσ.fair t n fun m hm => (hsame m hm).symm ▸ h
    refine hstep.moves ((hsame m hm).symm ▸ h) ?_
    rw [hsame m hm, hsame (m + 1) (hm.trans m.le_succ)]
  obtain ⟨m, hm, hne⟩ := hlater
  obtain ⟨k, hk, hsame, hne⟩ := InfiniteRun.exists_change (fun n => (σ n).phase t) hm hne
  rcases hσ.step k with heq | hstep
  · rw [heq] at hne
    exact absurd hsame hne
  · exact ⟨k, hk, hsame, hne, hstep⟩

theorem FairRun.published (hσ : FairRun σ) (hu : ((σ n).phase u).Flushes target) :
    ∃ m ≥ n, (σ (m + 1)).syncing = false ∧ (∀ v call, (σ (m + 1)).phase v ≠ .parked call) ∧
      (target ≤ (σ (m + 1)).durable ∨ Setback (σ m) (σ (m + 1))) := by
  -- The rank of a call that flushes goes down until it publishes the outcome.
  refine InfiniteRun.eventually_of_rank (fun r n hP => ?_)
    (P := fun r n => ((σ n).phase u).Flushes target ∧ ((σ n).phase u).rank = r) ⟨hu, rfl⟩
  obtain ⟨hu, rfl⟩ := hP
  have hflight := CallPhase.Flushes.inFlight hu
  obtain ⟨k, hk, hsame, hne, l, hstep⟩ := hσ.changes hflight.enabled
  rw [← hsame] at hu hflight hne ⊢
  rcases hstep.flushes hu with hgoes | hpublished
  · exact ⟨k + 1, hk.trans k.le_succ, .inr ⟨_, (hstep.goes u).rank_lt hflight hne, hgoes, rfl⟩⟩
  · exact ⟨k, hk, .inl hpublished⟩

theorem FairRun.woken (hσ : FairRun σ) (ht : (σ n).phase t = .parked call) :
    ∃ m ≥ n, ∀ call', (σ m).phase t ≠ .parked call' := by
  have hwaits := reachable_waits (hσ.reaches n)
  obtain ⟨u, hu⟩ := hwaits.leader (hwaits.parked t call ht)
  obtain ⟨m, hm, -, hquiet, -⟩ := hσ.published hu
  exact ⟨m + 1, hm.trans m.le_succ, hquiet t⟩

theorem FairRun.looks (hσ : FairRun σ) (ht : (σ n).phase t = .entered call) :
    ∃ k ≥ n, σ (k + 1) = (σ k).look t call := by
  obtain ⟨k, hk, hsame, hne, l, hstep⟩ := hσ.changes (t := t) (n := n) (ht ▸ trivial)
  rw [ht] at hsame hne
  exact ⟨k, hk, (hstep.entered hsame).resolve_left hne⟩

/-- The call that flushes returns itself. -/
theorem FairRun.inFlight_returns (hσ : FairRun σ) (ht : ((σ n).phase t).InFlight) :
    ∃ m ≥ n, ∃ call succeeded, (σ m).phase t = .returned call succeeded := by
  refine InfiniteRun.eventually_of_rank (fun r n hP => ?_)
    (P := fun r n => ((σ n).phase t).InFlight ∧ ((σ n).phase t).rank = r) ⟨ht, rfl⟩
  obtain ⟨ht, rfl⟩ := hP
  obtain ⟨k, hk, hsame, hne, l, hstep⟩ := hσ.changes ht.enabled
  rw [← hsame] at ht hne ⊢
  have hlt := (hstep.goes t).rank_lt ht hne
  refine ⟨k + 1, hk.trans k.le_succ, ?_⟩
  rcases CallPhase.inFlight_or_returned (hlt.trans ht.rank_lt) with hflight | hreturned
  · exact .inr ⟨_, hlt, hflight, rfl⟩
  · exact .inl hreturned

theorem FairRun.durable_mono (hσ : FairRun σ) {N : ℕ}
    (hN : ∀ m ≥ N, ¬ Setback (σ m) (σ (m + 1))) {m k : ℕ} (hm : m ≥ N) (hk : k ≥ m) :
    (σ m).durable ≤ (σ k).durable := by
  induction k, hk using Nat.le_induction with
  | base => exact le_rfl
  | succ k hk ih =>
    refine ih.trans ?_
    rcases hσ.step k with heq | ⟨l, hstep⟩
    · rw [heq]
    · exact hstep.durable_le (not_not.1 fun h => hN k (hm.trans hk) (.inl h))

/-- A call that neither flushes nor returns goes on as the same one. -/
theorem FairRun.pending (hσ : FairRun σ)
    (hnever : ∀ m ≥ n, ∀ call succeeded, (σ m).phase t ≠ .returned call succeeded)
    (ht : ((σ n).phase t).Pending call) : ∀ m ≥ n, ((σ m).phase t).Pending call := by
  intro m hm
  induction m, hm using Nat.le_induction with
  | base => exact ht
  | succ m hm ih =>
    refine ((hσ.goes m t).pending ih).resolve_right fun hlt => ?_
    rcases CallPhase.inFlight_or_returned hlt with hflight | ⟨call, succeeded, hreturned⟩
    · obtain ⟨k, hk, call, succeeded, hreturned⟩ := hσ.inFlight_returns hflight
      exact hnever k (hm.trans (m.le_succ.trans hk)) call succeeded hreturned
    · exact hnever (m + 1) (hm.trans m.le_succ) call succeeded hreturned

theorem FairRun.returns_of_pending (hσ : FairRun σ) (ht : ((σ n).phase t).Pending call) {N : ℕ}
    (hN : ∀ m ≥ N, ¬ Setback (σ m) (σ (m + 1))) :
    ∃ m ≥ n, ∃ call succeeded, (σ m).phase t = .returned call succeeded := by
  by_contra! hnever
  have hpending := hσ.pending hnever ht
  have hentered (m : ℕ) (hm : m ≥ n) : ∃ k ≥ m, (σ k).phase t = .entered call := by
    rcases hpending m hm with hentered | hparked
    · exact ⟨m, le_rfl, hentered⟩
    · obtain ⟨k, hk, hne⟩ := hσ.woken hparked
      exact ⟨k, hk, (hpending k (hm.trans hk)).resolve_right (hne call)⟩
  -- What the call sees whenever it looks: it is not covered, and somebody else flushes.
  have hsees (m : ℕ) (hm : m ≥ n) :
      ∃ k ≥ m, (σ k).durable < call.target ∧ (σ k).syncing ≠ false := by
    obtain ⟨k, hk, hin⟩ := hentered m hm
    obtain ⟨k', hk', hlook⟩ := hσ.looks hin
    have hstill := hpending (k' + 1) (hm.trans (hk.trans (hk'.trans k'.le_succ)))
    refine ⟨k', hk.trans hk', ?_⟩
    rw [hlook, GroupCommit.look, CallPhase.Pending] at hstill
    split_ifs at hstill with hdurable hsyncing
    · simp at hstill
    · exact ⟨Nat.lt_of_not_le hdurable, by simp [hsyncing]⟩
    · simp at hstill
  have huncovered (m : ℕ) (hm : m ≥ max n N) : (σ m).durable < call.target := by
    obtain ⟨k, hk, hlt, -⟩ := hsees m ((le_max_left ..).trans hm)
    exact (hσ.durable_mono hN ((le_max_right ..).trans hm) hk).trans_lt hlt
  -- The flush that is under way ends, and the next one covers the call.
  obtain ⟨k, hk, -, hsyncing⟩ := hsees (max n N) (le_max_left ..)
  obtain ⟨u, hu⟩ := (reachable_waits (hσ.reaches k)).leader (by simpa using hsyncing)
  obtain ⟨m, hm, hidle, -⟩ := hσ.published hu
  have hkm : m + 1 ≥ max n N := (hk.trans hm).trans m.le_succ
  obtain ⟨k', hk', -, hsyncing'⟩ := hsees (m + 1) ((le_max_left ..).trans hkm)
  obtain ⟨j, hj, hsame, hne⟩ := InfiniteRun.exists_change (fun n => (σ n).syncing) hk'
    (hidle ▸ hsyncing')
  rcases hσ.step j with heq | ⟨l, hstep⟩
  · rw [heq] at hne
    exact hne hsame
  rw [hidle] at hsame hne
  obtain ⟨v, hv⟩ := hstep.leads hsame hne
  have htarget : call.target ≤ (σ j).appended := by
    have hsound := (reachable_inv (hσ.reaches j)).threads t
    rcases hpending j ((le_max_left ..).trans (hkm.trans hj)) with hin | hin <;>
      exact (hin ▸ hsound).2
  obtain ⟨i, hi, -, -, hdurable | hsetback⟩ := hσ.published (hv.mono htarget)
  · exact hdurable.not_gt (huncovered (i + 1) (by omega))
  · exact hN i (by omega) hsetback

/-- A call that never returns is overtaken for ever by failing flushes or rotations. -/
theorem FairRun.returns_or_setbacks (hσ : FairRun σ) (ht : (σ n).phase t ≠ .idle) :
    (∃ m ≥ n, ∃ call succeeded, (σ m).phase t = .returned call succeeded) ∨
      ∀ N, ∃ m ≥ N, Setback (σ m) (σ (m + 1)) := by
  refine or_iff_not_imp_right.2 fun hfew => ?_
  push Not at hfew
  obtain ⟨N, hN⟩ := hfew
  cases hp : (σ n).phase t with
  | idle => exact absurd hp ht
  | entered call => exact hσ.returns_of_pending (.inl hp) hN
  | parked call => exact hσ.returns_of_pending (.inr hp) hN
  | returned call succeeded => exact ⟨n, le_rfl, call, succeeded, hp⟩
  | _ => exact hσ.inFlight_returns (hp ▸ Nat.zero_le _)

theorem FairRun.rank_antitone (hσ : FairRun σ) (t : τ) : Antitone fun n => ((σ n).phase t).rank :=
  antitone_nat_of_succ_le fun n => (hσ.goes n t).rank_le

/-- If finitely many threads take part, no call comes any further from some time on. -/
theorem FairRun.settled (hσ : FairRun σ) (hfinite : {t | ∃ n, (σ n).phase t ≠ .idle}.Finite) :
    ∃ N, ∀ k ≥ N, ∀ t, ((σ (k + 1)).phase t).rank = ((σ k).phase t).rank := by
  obtain ⟨N, hN⟩ := InfiniteRun.exists_settled
    (f := fun n => ∑ t ∈ hfinite.toFinset, ((σ n).phase t).rank)
    fun a b hab => Finset.sum_le_sum fun t _ => hσ.rank_antitone t hab
  refine ⟨N, fun k hk t => ?_⟩
  by_cases ht : ∃ n, (σ n).phase t ≠ .idle
  · have hsum : ∑ t ∈ hfinite.toFinset, ((σ (k + 1)).phase t).rank =
        ∑ t ∈ hfinite.toFinset, ((σ k).phase t).rank :=
      (hN (k + 1) (hk.trans k.le_succ)).trans (hN k hk).symm
    exact (Finset.sum_eq_sum_iff_of_le fun u _ => hσ.rank_antitone u k.le_succ).1 hsum t
      (hfinite.mem_toFinset.2 ht)
  · push Not at ht
    rw [ht k, ht (k + 1)]

/-- If finitely many threads take part, every call returns. -/
theorem FairRun.returns (hσ : FairRun σ) (hfinite : {t | ∃ n, (σ n).phase t ≠ .idle}.Finite)
    (ht : (σ n).phase t ≠ .idle) :
    ∃ m ≥ n, ∃ call succeeded, (σ m).phase t = .returned call succeeded := by
  obtain ⟨N, hN⟩ := hσ.settled hfinite
  -- Nobody flushes any more, and so nobody waits.
  have hflight (u : τ) (m : ℕ) (hm : m ≥ N) : ¬ ((σ m).phase u).InFlight := by
    intro hu
    obtain ⟨k, hk, hsame, hne, -⟩ := hσ.changes hu.enabled
    rw [← hsame] at hu hne
    exact ((hσ.goes k u).rank_lt hu hne).ne (hN k (hm.trans hk) u)
  have hparked (m : ℕ) (hm : m ≥ N) (call : SyncCall) : (σ m).phase t ≠ .parked call := by
    intro hcall
    have hwaits := reachable_waits (hσ.reaches m)
    obtain ⟨u, hu⟩ := hwaits.leader (hwaits.parked t call hcall)
    exact hflight u m hm hu
  refine ⟨max n N, le_max_left .., ?_⟩
  cases hp : (σ (max n N)).phase t with
  | returned call succeeded => exact ⟨call, succeeded, rfl⟩
  | idle =>
    have hle := hσ.rank_antitone t (le_max_left n N)
    dsimp only at hle
    rw [hp] at hle
    exact absurd (CallPhase.rank_lt_of_ne_idle ht) hle.not_gt
  | parked call => exact absurd hp (hparked _ (le_max_right ..) call)
  | entered call =>
    -- The call looks at the state once more, and would go on or wait.
    obtain ⟨k, hk, hsame, hne, -⟩ := hσ.changes (t := t) (n := max n N) (hp ▸ trivial)
    have hkN : k ≥ N := (le_max_right ..).trans hk
    have hgoes := hσ.goes k t
    have hsettled := hN k hkN t
    rw [hsame, hp] at hgoes
    rw [hsame, hp] at hsettled
    rw [hp] at hne
    generalize hq : (σ (k + 1)).phase t = q at hgoes hsettled hne
    cases hgoes with
    | stays => exact absurd rfl hne
    | on hlt => exact absurd hsettled hlt.ne
    | waits => exact absurd hq (hparked (k + 1) (hkN.trans k.le_succ) call)
  | _ => exact absurd (hp ▸ Nat.zero_le _) (hflight t _ (le_max_right n N))

end Liveness

/-- A call of `sync_pending` that returns `Ok` has made safe every record that was appended before
    it, for every interleaving with flushes that fail and rotations of the log. In a fair run of any
    number of calls every thread that waits is woken, and every call returns unless flushes that
    fail, or rotations, go on for ever. If the calls are finitely many, every one returns. -/
theorem group_commit (τ : Type) [DecidableEq τ] :
    (∀ (s : GroupCommit τ) (t : τ) (call : SyncCall), Reachable s →
      s.phase t = .returned call true → ∀ q ∈ call.before, s.Safe q) ∧
    ∀ σ : ℕ → GroupCommit τ, FairRun σ →
      (∀ t n call, (σ n).phase t = .parked call →
        ∃ m ≥ n, ∀ call', (σ m).phase t ≠ .parked call') ∧
      (∀ t n, (σ n).phase t ≠ .idle →
        (∃ m ≥ n, ∃ call succeeded, (σ m).phase t = .returned call succeeded) ∨
          ∀ N, ∃ m ≥ N, Setback (σ m) (σ (m + 1))) ∧
      ({t | ∃ n, (σ n).phase t ≠ .idle}.Finite → ∀ t n, (σ n).phase t ≠ .idle →
        ∃ m ≥ n, ∃ call succeeded, (σ m).phase t = .returned call succeeded) := by
  refine ⟨fun s t call hs ht => ?_, fun σ hσ => ⟨fun t n call ht => hσ.woken ht,
    fun t n ht => hσ.returns_or_setbacks ht, fun hfinite t n ht => hσ.returns hfinite ht⟩⟩
  have hsound := (reachable_inv hs).threads t
  rw [ht] at hsound
  exact hsound rfl

/-- The call of either of two threads that have appended a record each. -/
def secondCall : SyncCall := ⟨2, [1, 2]⟩

/-- The first flush fails while the second thread waits, which then flushes. -/
def secondFlush : List (GroupCommit Bool → GroupCommit Bool) :=
  [append 1, append 2,
    fun s => s.setPhase true (.entered ⟨s.appended, s.written⟩),
    fun s => s.setPhase false (.entered ⟨s.appended, s.written⟩),
    look true secondCall, look false secondCall,
    fun s => s.setPhase true (.holding secondCall 2 s.current),
    fun s => s.setPhase true (.flushing secondCall 2 (s.files 0)),
    endFlush true secondCall 2 [1, 2] false, publish true secondCall 2 false,
    look false secondCall,
    fun s => s.setPhase false (.holding secondCall 2 s.current),
    fun s => s.setPhase false (.flushing secondCall 2 (s.files 0)),
    endFlush false secondCall 2 [1, 2] true, publish false secondCall 2 true]

def secondFlushRun (n : ℕ) : GroupCommit Bool :=
  (secondFlush.take n).foldl (fun s f => f s) (start [] 0)

theorem step_secondFlushRun {n : ℕ} {f : GroupCommit Bool → GroupCommit Bool}
    (hf : secondFlush[n]? = some f) {t : Bool}
    (hstep : Step (secondFlushRun n) (some t) (f (secondFlushRun n))) :
    ∃ l, Step (secondFlushRun n) l (secondFlushRun (n + 1)) := by
  have hnext : secondFlushRun (n + 1) = f (secondFlushRun n) := by
    simp [secondFlushRun, List.take_add_one, hf]
  exact ⟨_, hnext ▸ hstep⟩

theorem secondFlushRun_end {n : ℕ} (hn : 15 ≤ n) : secondFlushRun n = secondFlushRun 15 := by
  rw [secondFlushRun, List.take_of_length_le hn, secondFlushRun, List.take_of_length_le (by decide)]

theorem secondFlushRun_step (n : ℕ) :
    secondFlushRun (n + 1) = secondFlushRun n ∨
      ∃ l, Step (secondFlushRun n) l (secondFlushRun (n + 1)) := by
  by_cases hn : 15 ≤ n
  · rw [secondFlushRun_end hn, secondFlushRun_end (hn.trans n.le_succ)]
    exact .inl rfl
  refine .inr ?_
  match n with
  | 0 | 1 =>
    exact step_secondFlushRun rfl (.append (t := true) (by decide +kernel) (by decide +kernel))
  | 2 | 3 => exact step_secondFlushRun rfl (.enter (by decide +kernel))
  | 4 | 5 | 10 => exact step_secondFlushRun rfl (.look (by decide +kernel))
  | 6 | 11 => exact step_secondFlushRun rfl (.take (by decide +kernel))
  | 7 | 12 => exact step_secondFlushRun rfl (.startFlush (by decide +kernel))
  | 8 => exact step_secondFlushRun rfl (.endFlush (by decide +kernel) false)
  | 9 | 14 => exact step_secondFlushRun rfl (.publish (by decide +kernel))
  | 13 => exact step_secondFlushRun rfl (.endFlush (by decide +kernel) true)
  | n + 15 => exact absurd (Nat.le_add_left 15 n) hn

theorem secondFlushRun_returned (t : Bool) :
    (secondFlushRun 15).phase t = .returned secondCall (!t) := by
  cases t <;> decide +kernel

theorem secondFlushRun_fair : FairRun secondFlushRun where
  reachable := .start [] 0
  step := secondFlushRun_step
  -- Both calls have returned.
  fair t n h := by
    have hreturned := h (n + 15) (Nat.le_add_right n 15)
    rw [secondFlushRun_end (Nat.le_add_left 15 n), secondFlushRun_returned] at hreturned
    exact hreturned.elim

theorem group_commit_second_flush :
    (∃ m ≥ 6, ∀ call, (secondFlushRun m).phase false ≠ .parked call) ∧
    (∀ t, ∃ m ≥ 6, ∃ call succeeded, (secondFlushRun m).phase t = .returned call succeeded) ∧
    ∀ q ∈ [1, 2], (secondFlushRun 15).Safe q := by
  obtain ⟨hsound, hlive⟩ := group_commit Bool
  obtain ⟨hwoken, -, hreturns⟩ := hlive secondFlushRun secondFlushRun_fair
  refine ⟨hwoken false 6 secondCall (by decide +kernel), fun t => ?_, ?_⟩
  · refine hreturns (Set.toFinite _) t 6 ?_
    cases t <;> decide +kernel
  · exact hsound _ false secondCall (secondFlushRun_fair.reaches 15) (secondFlushRun_returned false)

end GroupCommit

end FacetQL
