import FacetQL.Storage.Recovery

/-!
# Commit frames and checkpoint fences

What the writers of the log do: standalone appends, and the frames of
`storage/commit.rs`, one at a time, since every mutation holds the writer lock.
A frame that is open, or whose mutations could not be applied, fences the
checkpoint below its BEGIN (`storage/checkpoint.rs`). A process can end at any
point, with any part of the end of the log lost, and the next one takes its
counters from the checkpoint and from what is left of the log.

* `log_accepted`: whatever is left of the log is accepted by recovery.
-/

namespace FacetQL

variable {μ : Type}

/-- An open commit frame. -/
structure StagedCommit where
  transactionId : Nat
  beginSequence : Nat
  commitSequence : Option Nat
  deriving DecidableEq, Repr

/-- The log, the counters, the fences, the durable checkpoint, what is applied, and the open
    frame. -/
structure Writer (μ : Type) where
  log : List (WalRecord μ)
  counters : Counters
  fences : Finset Nat
  checkpoint : Nat
  applied : Nat
  frame : Option StagedCommit

namespace Writer

/-- An empty database. -/
def empty : Writer μ := ⟨[], Counters.new, ∅, 0, 0, none⟩

/-- Append a record, with the next sequence number and operation id. -/
def append (w : Writer μ) (transactionId : Nat) (operation : WalOperation μ) : Writer μ :=
  { w with
    log := w.log ++
      [⟨walFormatVersion, w.counters.sequence, transactionId, w.counters.operationId, operation⟩]
    counters := { w.counters with
      sequence := w.counters.sequence + 1, operationId := w.counters.operationId + 1 } }

/-- Note that the log has been applied up to a sequence number. -/
def noteApplied (w : Writer μ) (sequence : Nat) : Writer μ :=
  { w with applied := max w.applied sequence }

/-- A standalone mutation: logged, and noted as applied unless applying it fails. -/
def standalone (w : Writer μ) (op : μ) (succeeds : Bool) : Writer μ :=
  let w' := w.append standaloneTransactionId (.mutation op)
  if succeeds then w'.noteApplied w.counters.sequence else w'

/-- Open a frame: take a transaction id, log BEGIN, and fence the checkpoint. -/
def openFrame (w : Writer μ) : Writer μ :=
  let id := w.counters.transactionId
  let begin := w.counters.sequence
  let w' := { w with counters := { w.counters with transactionId := id + 1 } }.append id .begin
  { w' with fences := insert begin w.fences, frame := some ⟨id, begin, none⟩ }

/-- Log a mutation in a frame. -/
def stage (w : Writer μ) (f : StagedCommit) (op : μ) : Writer μ :=
  w.append f.transactionId (.mutation op)

/-- Log the COMMIT of a frame. -/
def commit (w : Writer μ) (f : StagedCommit) : Writer μ :=
  { w.append f.transactionId .commit with
    frame := some { f with commitSequence := some w.counters.sequence } }

/-- Settle a committed frame whose mutations have been applied. -/
def settle (w : Writer μ) (f : StagedCommit) (commitSequence : Nat) : Writer μ :=
  { w with fences := w.fences.erase f.beginSequence, frame := none }.noteApplied commitSequence

/-- Drop a frame. Without a COMMIT, its fence goes and ABORT is logged; with one, its fence
    stays. -/
def drop (w : Writer μ) (f : StagedCommit) (aborts : Bool) : Writer μ :=
  match f.commitSequence with
  | none =>
    let w' := { w with fences := w.fences.erase f.beginSequence, frame := none }
    if aborts then w'.append f.transactionId .abort else w'
  | some _ => { w with frame := none }

/-- The highest checkpoint the fences permit. -/
def ceiling (w : Writer μ) : Option Nat :=
  if h : w.fences.Nonempty then some (w.fences.min' h - 1) else none

/-- Advance the checkpoint to what has been applied, as far as the fences permit. -/
def advance (w : Writer μ) : Writer μ :=
  let target := match w.ceiling with
    | some c => min w.applied c
    | none => w.applied
  if target ≤ w.checkpoint then w else { w with checkpoint := target }

/-- Recovery as the writers see it: it notes how far it has replayed the log. -/
def replayer : Replayer μ Nat := ⟨fun _ applied => (.ok (), applied), fun sequence applied =>
  max applied sequence⟩

/-- A new process, after the old one has left the first `keep` records of the log. -/
def restart (w : Writer μ) (keep : Nat) : Writer μ where
  log := w.log.take keep
  counters := recoveredCounters w.checkpoint (some (w.log.take keep))
  fences := ∅
  checkpoint := w.checkpoint
  applied := (recover replayer w.checkpoint (some (w.log.take keep)) 0).2
  frame := none

/-- The steps of the writers. -/
inductive Step : Writer μ → Writer μ → Prop
  | standalone {w : Writer μ} (hframe : w.frame = none) (op : μ) (succeeds : Bool) :
      Step w (w.standalone op succeeds)
  | openFrame {w : Writer μ} (hframe : w.frame = none) : Step w w.openFrame
  | stage {w : Writer μ} {f : StagedCommit} (hframe : w.frame = some f)
      (hopen : f.commitSequence = none) (op : μ) : Step w (w.stage f op)
  | commit {w : Writer μ} {f : StagedCommit} (hframe : w.frame = some f)
      (hopen : f.commitSequence = none) : Step w (w.commit f)
  | settle {w : Writer μ} {f : StagedCommit} {c : Nat} (hframe : w.frame = some f)
      (hcommit : f.commitSequence = some c) : Step w (w.settle f c)
  | drop {w : Writer μ} {f : StagedCommit} (hframe : w.frame = some f) (aborts : Bool) :
      Step w (w.drop f aborts)
  | advance {w : Writer μ} : Step w w.advance
  | rotate {w : Writer μ} : Step w { w with log := rotate w.checkpoint w.log }
  /-- Identifiers that are taken by appends that fail. -/
  | burn {w : Writer μ} (c : Counters) (hsequence : w.counters.sequence ≤ c.sequence)
      (htransaction : w.counters.transactionId ≤ c.transactionId)
      (hoperation : w.counters.operationId ≤ c.operationId) : Step w { w with counters := c }
  | restart {w : Writer μ} (keep : Nat)
      (hrecover : (recover replayer w.checkpoint (some (w.log.take keep)) 0).1 = .ok ()) :
      Step w (w.restart keep)

/-- A run of the writers. -/
abbrev Steps : Writer μ → Writer μ → Prop := Relation.ReflTransGen Step

end Writer

/-! ## Pieces of frames -/

/-- What is left of a frame: its first records, or some of its last ones without a COMMIT. -/
def Piece (records : List (WalRecord μ)) : Prop :=
  (∃ b rest outcome, records = b :: rest ∧ b.operation = .begin ∧ Closed rest outcome) ∨
  ∀ r ∈ records, r.operation ≠ .begin ∧ r.operation ≠ .commit

/-- A sequence number below the BEGIN of each committed frame or not below its COMMIT. -/
def Outside (log : List (WalRecord μ)) (x : Nat) : Prop :=
  ∀ b ∈ log, ∀ c ∈ log, b.transactionId = c.transactionId → b.operation = .begin →
    c.operation = .commit → x < b.sequence ∨ c.sequence ≤ x

section Pieces

variable {records log log' : List (WalRecord μ)} {r : WalRecord μ} {x : Nat} {outcome : Option Nat}

theorem Piece.frame (hp : Piece records) : ∃ outcome, Frame records outcome := by
  rcases hp with ⟨b, rest, outcome, h⟩ | h
  · exact ⟨outcome, .inl ⟨b, rest, h⟩⟩
  · refine ⟨none, .inr ⟨fun b hb => (h b (List.mem_of_mem_head? hb)).1, fun r hr => (h r hr).2, rfl⟩⟩

theorem Closed.no_begin (hc : Closed records outcome) : ∀ r ∈ records, r.operation ≠ .begin := by
  obtain ⟨muts, tail, rfl, hmuts, htail⟩ := hc
  intro r hr hb
  rcases List.mem_append.1 hr with hr | hr
  · cases hb ▸ hmuts r hr
  rcases htail with ⟨rfl, -⟩ | ⟨c, rfl, ⟨hc, -⟩ | ⟨hc, -⟩⟩
  · cases hr
  all_goals
    rw [List.mem_singleton.1 hr, hc] at hb
    cases hb

theorem Closed.take (hc : Closed records outcome) (n : Nat) :
    ∃ outcome', Closed (records.take n) outcome' := by
  induction records generalizing n with
  | nil => exact ⟨outcome, by simpa using hc⟩
  | cons r rs ih =>
    rcases n with _ | n
    · exact ⟨none, closed_nil.2 rfl⟩
    rw [List.take_succ_cons]
    rcases hr : r.operation.isControl with _ | _
    · obtain ⟨o, ho⟩ := ih ((closed_cons_mutation hr).1 hc) n
      exact ⟨o, (closed_cons_mutation hr).2 ho⟩
    obtain ⟨rfl, hclose⟩ := (closed_cons_control hr).1 hc
    exact ⟨outcome, (closed_cons_control hr).2 ⟨by simp, hclose⟩⟩

theorem Piece.take (hp : Piece records) (n : Nat) : Piece (records.take n) := by
  rcases hp with ⟨b, rest, outcome, rfl, hb, hc⟩ | h
  · rcases n with _ | n
    · exact .inr (by simp)
    obtain ⟨o, ho⟩ := hc.take n
    exact .inl ⟨b, rest.take n, o, rfl, hb, ho⟩
  · exact .inr fun r hr => h r (List.mem_of_mem_take hr)

theorem Piece.liveRecords (hp : Piece records) (hasc : Ascending records)
    (hid : ∀ r ∈ records, ∀ r' ∈ records, r.transactionId = r'.transactionId)
    (hx : Outside records x) : Piece (liveRecords x records) := by
  rcases hp with ⟨b, rest, outcome, rfl, hb, hc⟩ | h
  · by_cases hbx : x < b.sequence
    · have hall : FacetQL.liveRecords x (b :: rest) = b :: rest := by
        refine List.filter_eq_self.2 (List.forall_mem_cons.2 ⟨by simpa using hbx, fun r hr => ?_⟩)
        simpa using hbx.trans ((List.pairwise_cons.1 hasc).1 r hr)
      rw [hall]
      exact .inl ⟨b, rest, outcome, rfl, hb, hc⟩
    · -- BEGIN is gone, and with it COMMIT.
      refine .inr fun r hr => ?_
      obtain ⟨hr, hrx⟩ := List.mem_filter.1 hr
      have hrx : x < r.sequence := by simpa using hrx
      obtain rfl | hrest := List.mem_cons.1 hr
      · exact absurd hrx hbx
      · refine ⟨hc.no_begin r hrest, fun hcommit => ?_⟩
        rcases hx b List.mem_cons_self r hr (hid _ List.mem_cons_self _ hr) hb hcommit with h | h
        · exact hbx h
        · exact absurd hrx h.not_gt
  · exact .inr fun r hr => h r (List.mem_filter.1 hr).1

theorem Outside.mono (hx : Outside log x) (hsub : log' ⊆ log) : Outside log' x :=
  fun b hb c hc => hx b (hsub hb) c (hsub hc)

theorem outside_of_le (hle : ∀ r ∈ log, r.sequence ≤ x) : Outside log x :=
  fun _ _ c hc _ _ _ => .inr (hle c hc)

/-- A record that completes no committed frame. -/
theorem Outside.append (hx : Outside log x) (hcommit : r.operation ≠ .commit)
    (hbegin : r.operation = .begin → ∀ r' ∈ log, r'.transactionId ≠ r.transactionId) :
    Outside (log ++ [r]) x := by
  intro b hb c hc hid hop hopc
  rw [List.mem_append, List.mem_singleton] at hb hc
  rcases hc with hc | rfl
  · rcases hb with hb | rfl
    · exact hx b hb c hc hid hop hopc
    · exact absurd hid.symm (hbegin hop c hc)
  · exact absurd hopc hcommit

theorem Outside.append_commit (hx : Outside log x)
    (hbelow : ∀ b ∈ log, b.transactionId = r.transactionId → b.operation = .begin → x < b.sequence)
    (hop : r.operation = .commit) : Outside (log ++ [r]) x := by
  intro b hb c hc hid hopb hopc
  rw [List.mem_append, List.mem_singleton] at hb hc
  rcases hb with hb | rfl
  · rcases hc with hc | rfl
    · exact hx b hb c hc hid hopb hopc
    · exact .inl (hbelow b hb hid hopb)
  · rw [hop] at hopb
    cases hopb

end Pieces

/-! ## What the first pass makes of a log of pieces -/

section Accepted

variable {records : List (WalRecord μ)}

theorem classifyEach_accepts (ids : List Nat)
    (h : ∀ id ∈ ids, ∃ outcome, classifyTransaction id (frameOf records id) = .ok outcome) :
    ∃ committed, classifyEach records ids = .ok committed ∧ ∀ id c, (id, c) ∈ committed ↔
      id ∈ ids ∧ classifyTransaction id (frameOf records id) = .ok (some c) := by
  induction ids with
  | nil => exact ⟨[], rfl, by simp⟩
  | cons id ids ih =>
    obtain ⟨outcome, hid⟩ := h id List.mem_cons_self
    obtain ⟨rest, hrest, hmem⟩ := ih fun id' hid' => h id' (List.mem_cons_of_mem _ hid')
    refine ⟨(outcome.map fun c => (id, c)).toList ++ rest, ?_, fun id' c => ?_⟩
    · rw [classifyEach, hid]
      simp [hrest, Except.map]
    rw [List.mem_append, hmem, List.mem_cons]
    by_cases heq : id' = id
    · subst heq
      simp [hid, eq_comm]
    · simp [heq, Ne.symm heq]

/-- A log of pieces is accepted, and the transactions with a COMMIT are committed. -/
theorem classifyTransactions_accepts (hasc : Ascending records)
    (hstand : ∀ r ∈ records, r.transactionId = standaloneTransactionId →
      r.operation.isControl = false)
    (hpieces : ∀ id, id ≠ standaloneTransactionId → Piece (frameOf records id)) :
    ∃ committed, classifyTransactions records = .ok committed ∧ ∀ id c, (id, c) ∈ committed ↔
      ∃ r ∈ records, r.transactionId = id ∧ r.operation = .commit ∧ r.sequence = c := by
  have hclassify : ∀ id outcome, classifyTransaction id (frameOf records id) = .ok outcome ↔
      Frame (frameOf records id) outcome := fun id outcome =>
    classifyTransaction_eq_ok (frameOf_ascending hasc id) fun r hr => (mem_frameOf.1 hr).2
  have hne : ∀ id ∈ transactionIds records, id ≠ standaloneTransactionId :=
    fun id hid => (mem_transactionIds.1 hid).1
  obtain ⟨committed, hok, hmem⟩ := classifyEach_accepts (transactionIds records)
    fun id hid => by
      obtain ⟨outcome, hf⟩ := (hpieces id (hne id hid)).frame
      exact ⟨outcome, (hclassify id outcome).2 hf⟩
  have hreserved : reservedControl records = none := by
    refine List.find?_eq_none.2 fun r hr => ?_
    by_cases hid : r.transactionId = standaloneTransactionId
    · simp [hstand r hr hid]
    · simp [hid]
  refine ⟨committed, by simp only [classifyTransactions, hreserved, hok], fun id c => ?_⟩
  rw [hmem, hclassify]
  constructor
  · rintro ⟨-, hf⟩
    obtain ⟨body, r, hfr, hop, hseq, -⟩ := hf.commit_last
    have hr : r ∈ frameOf records id := hfr ▸ by simp
    exact ⟨r, (mem_frameOf.1 hr).1, (mem_frameOf.1 hr).2, hop, hseq⟩
  rintro ⟨r, hr, rfl, hop, rfl⟩
  have hid : r.transactionId ≠ standaloneTransactionId := fun hid => by
    cases hop ▸ hstand r hr hid
  have hmemr : r ∈ frameOf records r.transactionId := mem_frameOf.2 ⟨hr, rfl⟩
  obtain ⟨outcome, hf⟩ := (hpieces _ hid).frame
  refine ⟨mem_transactionIds.2 ⟨hid, r, hr, rfl⟩, ?_⟩
  rcases outcome with _ | e
  · exact absurd hop (hf.no_commit r hmemr)
  obtain ⟨body, c, hfr, -, rfl, hbody⟩ := hf.commit_last
  rw [hfr, List.mem_append, List.mem_singleton] at hmemr
  rcases hmemr with hb | rfl
  · exact absurd hop (hbody r hb).1
  · exact hf

end Accepted

/-! ## The invariant -/

/-- The log is valid, is made of pieces of frames, and lies below the counters. -/
structure SoundLog (log : List (WalRecord μ)) (c : Counters) : Prop where
  asc : Ascending log
  valid : ∀ r ∈ log, r.formatVersion = walFormatVersion ∧ r.sequence ≠ 0 ∧ r.operationId ≠ 0
  below : ∀ r ∈ log, r.sequence < c.sequence ∧ r.transactionId < c.transactionId
  positive : 0 < c.sequence ∧ 0 < c.transactionId ∧ 0 < c.operationId
  standalone : ∀ r ∈ log, r.transactionId = standaloneTransactionId → r.operation.isControl = false
  pieces : ∀ id, id ≠ standaloneTransactionId → Piece (frameOf log id)

section SoundLog

variable {log : List (WalRecord μ)} {c c' : Counters} {x : Nat} {id : Nat}

theorem SoundLog.counters (hlog : SoundLog log c) (hsequence : c.sequence ≤ c'.sequence)
    (htransaction : c.transactionId ≤ c'.transactionId)
    (hoperation : c.operationId ≤ c'.operationId) : SoundLog log c' :=
  { hlog with
    below := fun r hr => ⟨(hlog.below r hr).1.trans_le hsequence,
      (hlog.below r hr).2.trans_le htransaction⟩
    positive := ⟨hlog.positive.1.trans_le hsequence, hlog.positive.2.1.trans_le htransaction,
      hlog.positive.2.2.trans_le hoperation⟩ }

theorem frameOf_singleton (r : WalRecord μ) : frameOf [r] id =
    if r.transactionId = id then [r] else [] := by
  by_cases h : r.transactionId = id <;> simp [frameOf, h]

section

variable (hlog : SoundLog log c)
include hlog

/-- A record that fits the frame it belongs to. -/
theorem SoundLog.append {op : WalOperation μ} (hid : id < c.transactionId)
    (hstand : id = standaloneTransactionId → op.isControl = false)
    (hpiece : id ≠ standaloneTransactionId →
      Piece (frameOf log id ++ [⟨walFormatVersion, c.sequence, id, c.operationId, op⟩])) :
    SoundLog (log ++ [⟨walFormatVersion, c.sequence, id, c.operationId, op⟩])
      { c with sequence := c.sequence + 1, operationId := c.operationId + 1 } where
  asc := by
    refine List.pairwise_append.2 ⟨hlog.asc, List.pairwise_singleton _ _, fun r hr r' hr' => ?_⟩
    rw [List.mem_singleton.1 hr']
    exact (hlog.below r hr).1
  valid := by
    refine List.forall_mem_append.2 ⟨hlog.valid, List.forall_mem_singleton.2 ⟨rfl, ?_, ?_⟩⟩
    · exact hlog.positive.1.ne'
    · exact hlog.positive.2.2.ne'
  below := by
    refine List.forall_mem_append.2 ⟨fun r hr => ?_, List.forall_mem_singleton.2 ?_⟩
    · exact ⟨(hlog.below r hr).1.trans (Nat.lt_succ_self _), (hlog.below r hr).2⟩
    · exact ⟨Nat.lt_succ_self _, hid⟩
  positive := ⟨Nat.succ_pos _, hlog.positive.2.1, Nat.succ_pos _⟩
  standalone := List.forall_mem_append.2 ⟨hlog.standalone, List.forall_mem_singleton.2 hstand⟩
  pieces id' hid' := by
    rw [frameOf_append, frameOf_singleton]
    by_cases heq : id = id'
    · subst heq
      simpa using hpiece hid'
    · simpa [heq] using hlog.pieces id' hid'

/-- The beginning of a log. -/
theorem SoundLog.take (n : Nat) : SoundLog (log.take n) c where
  asc := hlog.asc.sublist (List.take_sublist _ _)
  valid r hr := hlog.valid r (List.mem_of_mem_take hr)
  below r hr := hlog.below r (List.mem_of_mem_take hr)
  positive := hlog.positive
  standalone r hr := hlog.standalone r (List.mem_of_mem_take hr)
  pieces id hid := by
    have hpre : frameOf (log.take n) id <+: frameOf log id := (List.take_prefix n log).filter _
    rw [List.prefix_iff_eq_take.1 hpre]
    exact (hlog.pieces id hid).take _

/-- What is left of a log above a sequence number that cuts no committed frame. -/
theorem SoundLog.live (hx : Outside log x) : SoundLog (liveRecords x log) c where
  asc := hlog.asc.filter _
  valid r hr := hlog.valid r (List.mem_filter.1 hr).1
  below r hr := hlog.below r (List.mem_filter.1 hr).1
  positive := hlog.positive
  standalone r hr := hlog.standalone r (List.mem_filter.1 hr).1
  pieces id hid := by
    have hcomm : frameOf (liveRecords x log) id = liveRecords x (frameOf log id) := by
      simp only [frameOf, liveRecords, List.filter_filter, Bool.and_comm]
    rw [hcomm]
    refine (hlog.pieces id hid).liveRecords (frameOf_ascending hlog.asc id) (fun r hr r' hr' => ?_)
      (hx.mono fun r hr => (mem_frameOf.1 hr).1)
    rw [(mem_frameOf.1 hr).2, (mem_frameOf.1 hr').2]

theorem SoundLog.accepted :
    ∃ committed, classifyTransactions log = .ok committed ∧ ∀ id e, (id, e) ∈ committed ↔
      ∃ r ∈ log, r.transactionId = id ∧ r.operation = .commit ∧ r.sequence = e :=
  classifyTransactions_accepts hlog.asc hlog.standalone hlog.pieces

theorem SoundLog.frameOf_next : frameOf log c.transactionId = [] := by
  rw [List.eq_nil_iff_forall_not_mem]
  intro r hr
  obtain ⟨hr, hid⟩ := mem_frameOf.1 hr
  exact absurd hid (hlog.below r hr).2.ne

end

theorem le_foldl_max_iff {l : List Nat} {a n : Nat} :
    n ≤ l.foldl max a ↔ n ≤ a ∨ ∃ m ∈ l, n ≤ m := by
  induction l generalizing a with
  | nil => simp
  | cons m l ih =>
    rw [List.foldl_cons, ih, le_max_iff, List.exists_mem_cons_iff, or_assoc]

theorem recoveredCounters_above (checkpoint : Nat) (log : List (WalRecord μ)) :
    checkpoint < (recoveredCounters checkpoint (some log)).sequence ∧
    0 < (recoveredCounters checkpoint (some log)).transactionId ∧
    0 < (recoveredCounters checkpoint (some log)).operationId ∧
    ∀ r ∈ log, r.sequence < (recoveredCounters checkpoint (some log)).sequence ∧
      r.transactionId < (recoveredCounters checkpoint (some log)).transactionId := by
  have hmax : ∀ (g : WalRecord μ → Nat), ∀ r ∈ log, g r ≤ (log.map g).foldl max 0 :=
    fun g r hr => le_foldl_max_iff.2 (.inr ⟨g r, List.mem_map_of_mem hr, le_rfl⟩)
  simp only [recoveredCounters, Counters.initializeCounters, Counters.advanceCounter, Counters.new]
  refine ⟨by omega, by omega, by omega, fun r hr => ?_⟩
  have hsequence := hmax WalRecord.sequence r hr
  have htransaction := hmax WalRecord.transactionId r hr
  omega

/-- A log that the next process continues. -/
theorem SoundLog.recovered (hlog : SoundLog log c) (checkpoint : Nat) :
    SoundLog log (recoveredCounters checkpoint (some log)) := by
  obtain ⟨hcheckpoint, htransaction, hoperation, habove⟩ := recoveredCounters_above checkpoint log
  exact { hlog with below := habove, positive := ⟨hcheckpoint.pos, htransaction, hoperation⟩ }

end SoundLog

namespace Writer

/-- What the checkpoint is or can be set to: what is or will be noted, and what a fence permits. -/
def Mark (w : Writer μ) (x : Nat) : Prop :=
  x = w.checkpoint ∨ x = w.applied ∨ (∃ b ∈ w.fences, x = b - 1) ∨
  (∃ r ∈ w.log, (r.transactionId = standaloneTransactionId ∨ r.operation = .commit) ∧
    x = r.sequence) ∨
  ∃ f, w.frame = some f ∧ f.commitSequence = some x

/-- A frame that has not committed: BEGIN and mutations, with the checkpoint below it. -/
structure OpenFrame (w : Writer μ) (f : StagedCommit) : Prop where
  id_ne : f.transactionId ≠ standaloneTransactionId
  id_lt : f.transactionId < w.counters.transactionId
  records : ∃ b muts, frameOf w.log f.transactionId = b :: muts ∧ b.operation = .begin ∧
    b.sequence = f.beginSequence ∧ ∀ r ∈ muts, r.operation.isControl = false
  marks : ∀ x, w.Mark x → x < f.beginSequence

/-- What holds of the log and of the open frames. -/
structure Inv (w : Writer μ) : Prop where
  log : SoundLog w.log w.counters
  marks : ∀ x, w.Mark x → Outside w.log x ∧ x < w.counters.sequence
  frame : ∀ f, w.frame = some f → f.commitSequence = none → w.OpenFrame f

theorem inv_empty : Inv (empty : Writer μ) where
  log := ⟨.nil, by simp [empty], by simp [empty],
    ⟨one_pos, one_pos, one_pos⟩, by simp [empty], fun id _ => .inr (by simp [empty, frameOf])⟩
  marks x hx := by
    have hx : x = 0 := by simpa [Mark, empty] using hx
    exact ⟨by simp [Outside, empty], hx ▸ one_pos⟩
  frame f hf := by cases hf

section Step

variable {w w' : Writer μ} {f : StagedCommit} {x id c : Nat} {op : WalOperation μ}

/-- A step that leaves the log alone and adds nothing the checkpoint can be set to. -/
theorem Inv.shrink (h : w.Inv) (hlog : w'.log = w.log) (hcounters : w'.counters = w.counters)
    (hmarks : ∀ x, w'.Mark x → w.Mark x)
    (hframe : ∀ f, w'.frame = some f → f.commitSequence = none → w.frame = some f) : w'.Inv where
  log := by rw [hlog, hcounters]; exact h.log
  marks x hx := by rw [hlog, hcounters]; exact h.marks x (hmarks x hx)
  frame f hf hopen := by
    obtain ⟨hne, hlt, hrecords, hbelow⟩ := h.frame f (hframe f hf hopen) hopen
    exact ⟨hne, by rwa [hcounters], by rwa [hlog], fun x hx => hbelow x (hmarks x hx)⟩

theorem mark_append (hx : (w.append id op).Mark x) :
    w.Mark x ∨ x = w.counters.sequence ∧ (id = standaloneTransactionId ∨ op = .commit) := by
  rcases hx with hx | hx | hx | ⟨r, hr, hop, rfl⟩ | hx
  · exact .inl (.inl hx)
  · exact .inl (.inr (.inl hx))
  · exact .inl (.inr (.inr (.inl hx)))
  · rcases List.mem_append.1 hr with hr | hr
    · exact .inl (.inr (.inr (.inr (.inl ⟨r, hr, hop, rfl⟩))))
    · rw [List.mem_singleton.1 hr] at hop ⊢
      exact .inr ⟨rfl, hop⟩
  · exact .inl (.inr (.inr (.inr (.inr hx))))

theorem mark_next (h : id = standaloneTransactionId ∨ op = .commit) :
    (w.append id op).Mark w.counters.sequence :=
  .inr (.inr (.inr (.inl ⟨⟨_, _, id, _, op⟩, List.mem_append_right _ (List.mem_singleton_self _),
    h, rfl⟩)))

theorem Inv.outside_next (h : w.Inv) : Outside (w.append id op).log w.counters.sequence :=
  outside_of_le <| List.forall_mem_append.2
    ⟨fun r hr => (h.log.below r hr).1.le, List.forall_mem_singleton.2 le_rfl⟩

theorem Inv.marks_append (h : w.Inv) (hop : op ≠ .commit)
    (hbegin : op = .begin → ∀ r ∈ w.log, r.transactionId ≠ id) (hx : (w.append id op).Mark x) :
    Outside (w.append id op).log x ∧ x < (w.append id op).counters.sequence := by
  rcases mark_append hx with hx | ⟨rfl, -⟩
  · obtain ⟨hout, hlt⟩ := h.marks x hx
    exact ⟨hout.append hop hbegin, hlt.trans (Nat.lt_succ_self _)⟩
  · exact ⟨h.outside_next, Nat.lt_succ_self _⟩

theorem Inv.burn (h : w.Inv) (c : Counters) (hsequence : w.counters.sequence ≤ c.sequence)
    (htransaction : w.counters.transactionId ≤ c.transactionId)
    (hoperation : w.counters.operationId ≤ c.operationId) : Inv { w with counters := c } where
  log := h.log.counters hsequence htransaction hoperation
  marks x hx := ⟨(h.marks x hx).1, (h.marks x hx).2.trans_le hsequence⟩
  frame f hf hopen := by
    obtain ⟨hne, hlt, hrecords, hbelow⟩ := h.frame f hf hopen
    exact ⟨hne, hlt.trans_le htransaction, hrecords, hbelow⟩

theorem Inv.noteApplied (h : w.Inv) (hc : w.Mark c) : (w.noteApplied c).Inv := by
  refine h.shrink rfl rfl (fun x hx => ?_) fun f hf _ => hf
  rcases hx with hx | hx | hx
  · exact .inl hx
  · rcases max_choice w.applied c with hmax | hmax
    · exact .inr (.inl (hx.trans hmax))
    · rwa [hx.trans hmax]
  · exact .inr (.inr hx)

theorem Inv.standalone (h : w.Inv) (hframe : w.frame = none) (op : μ) (succeeds : Bool) :
    (w.standalone op succeeds).Inv := by
  have happend : (w.append standaloneTransactionId (.mutation op)).Inv :=
    ⟨h.log.append h.log.positive.2.1 (fun _ => rfl) fun hne => absurd rfl hne,
      fun x hx => h.marks_append (by simp) (by simp) hx,
      fun f hf => absurd (hframe.symm.trans hf) (by simp)⟩
  rw [Writer.standalone]
  cases succeeds with
  | false => exact happend
  | true => exact happend.noteApplied (mark_next (.inl rfl))

theorem Inv.openFrame (h : w.Inv) : w.openFrame.Inv := by
  have hburn := h.burn { w.counters with transactionId := w.counters.transactionId + 1 } le_rfl
    (Nat.le_succ _) le_rfl
  have hfresh : ∀ r ∈ w.log, r.transactionId ≠ w.counters.transactionId :=
    fun r hr => (h.log.below r hr).2.ne
  have hne : w.counters.transactionId ≠ standaloneTransactionId := h.log.positive.2.1.ne'
  -- What the checkpoint can now be set to, beside what it could be before.
  have hmark : ∀ x, w.openFrame.Mark x → w.Mark x ∨ x = w.counters.sequence - 1 := by
    rintro x (hx | hx | ⟨b, hb, hx⟩ | ⟨r, hr, hop, rfl⟩ | ⟨f, hf, hx⟩)
    · exact .inl (.inl hx)
    · exact .inl (.inr (.inl hx))
    · rcases Finset.mem_insert.1 hb with rfl | hb
      · exact .inr hx
      · exact .inl (.inr (.inr (.inl ⟨b, hb, hx⟩)))
    · rcases List.mem_append.1 hr with hr | hr
      · exact .inl (.inr (.inr (.inr (.inl ⟨r, hr, hop, rfl⟩))))
      · rw [List.mem_singleton.1 hr] at hop
        exact absurd hop (by simpa using hne)
    · rw [← Option.some.inj hf] at hx
      cases hx
  have hlt : ∀ x, w.openFrame.Mark x → x < w.counters.sequence := by
    intro x hx
    rcases hmark x hx with hx | rfl
    · exact (h.marks x hx).2
    · exact Nat.sub_lt h.log.positive.1 one_pos
  have hrecords : frameOf w.openFrame.log w.counters.transactionId =
      [⟨walFormatVersion, w.counters.sequence, w.counters.transactionId, w.counters.operationId,
        .begin⟩] := by
    refine (frameOf_append _ _ _).trans ?_
    rw [h.log.frameOf_next, frameOf_singleton, if_pos rfl, List.nil_append]
  constructor
  · refine hburn.log.append (Nat.lt_succ_self _) (fun h0 => absurd h0 hne) fun _ => ?_
    rw [h.log.frameOf_next]
    exact .inl ⟨_, [], none, rfl, rfl, closed_nil.2 rfl⟩
  · intro x hx
    refine ⟨?_, (hlt x hx).trans (Nat.lt_succ_self _)⟩
    refine Outside.append ?_ (by simp) fun _ => hfresh
    rcases hmark x hx with hx | rfl
    · exact (h.marks x hx).1
    · exact outside_of_le fun r hr => Nat.le_pred_of_lt (h.log.below r hr).1
  · intro f hf _
    obtain rfl := Option.some.inj hf
    exact ⟨hne, Nat.lt_succ_self _, ⟨_, [], hrecords, rfl, rfl, by simp⟩, hlt⟩

/-- The records of an open frame, with a record after them that does not begin one. -/
theorem OpenFrame.piece (hopen : w.OpenFrame f) (r : WalRecord μ) (hr : r.operation ≠ .begin) :
    Piece (frameOf w.log f.transactionId ++ [r]) := by
  obtain ⟨b, muts, hfr, hb, -, hmuts⟩ := hopen.records
  have hclosed : ∃ outcome, Closed (muts ++ [r]) outcome := by
    cases hop : r.operation with
    | begin => exact absurd hop hr
    | commit => exact ⟨_, muts, [r], rfl, hmuts, .inr ⟨r, rfl, .inl ⟨hop, rfl⟩⟩⟩
    | abort => exact ⟨_, muts, [r], rfl, hmuts, .inr ⟨r, rfl, .inr ⟨hop, rfl⟩⟩⟩
    | mutation op =>
      refine ⟨none, muts ++ [r], [], by simp, List.forall_mem_append.2 ⟨hmuts, ?_⟩, .inl ⟨rfl, rfl⟩⟩
      exact List.forall_mem_singleton.2 (by rw [hop]; rfl)
  obtain ⟨outcome, hclosed⟩ := hclosed
  exact .inl ⟨b, muts ++ [r], outcome, by rw [hfr, List.cons_append], hb, hclosed⟩

theorem OpenFrame.begin_eq (hopen : w.OpenFrame f) {b : WalRecord μ} (hb : b ∈ w.log)
    (hid : b.transactionId = f.transactionId) (hop : b.operation = .begin) :
    f.beginSequence = b.sequence := by
  obtain ⟨b', muts, hfr, -, hseq, hmuts⟩ := hopen.records
  have hmem : b ∈ b' :: muts := hfr ▸ mem_frameOf.2 ⟨hb, hid⟩
  rcases List.mem_cons.1 hmem with rfl | hmem
  · exact hseq.symm
  · cases hop ▸ hmuts b hmem

theorem Inv.stage (h : w.Inv) (hframe : w.frame = some f) (hopen : f.commitSequence = none)
    (op : μ) : (w.stage f op).Inv := by
  have hf := h.frame f hframe hopen
  refine ⟨h.log.append hf.id_lt (fun _ => rfl) fun _ => hf.piece _ (by simp),
    fun x hx => h.marks_append (by simp) (by simp) hx, fun f' hf' _ => ?_⟩
  obtain rfl : f = f' := Option.some.inj (hframe.symm.trans hf')
  obtain ⟨b, muts, hfr, hb, hseq, hmuts⟩ := hf.records
  refine ⟨hf.id_ne, hf.id_lt, ⟨b, muts ++ [⟨walFormatVersion, w.counters.sequence,
    f.transactionId, w.counters.operationId, .mutation op⟩], ?_, hb, hseq,
    List.forall_mem_append.2 ⟨hmuts, List.forall_mem_singleton.2 rfl⟩⟩, fun x hx => ?_⟩
  · refine (frameOf_append _ _ _).trans ?_
    rw [hfr, frameOf_singleton, if_pos rfl, List.cons_append]
  · rcases mark_append hx with hx | ⟨-, hid | hop⟩
    · exact hf.marks x hx
    · exact absurd hid hf.id_ne
    · cases hop

theorem Inv.commit (h : w.Inv) (hframe : w.frame = some f) (hopen : f.commitSequence = none) :
    (w.commit f).Inv := by
  have hf := h.frame f hframe hopen
  refine ⟨h.log.append hf.id_lt (fun h0 => absurd h0 hf.id_ne) fun _ => hf.piece _ (by simp),
    fun x hx => ?_, fun f' hf' hopen' => ?_⟩
  · have hx : (w.append f.transactionId .commit).Mark x := by
      rcases hx with hx | hx | hx | hx | ⟨f', hf', hx⟩
      · exact .inl hx
      · exact .inr (.inl hx)
      · exact .inr (.inr (.inl hx))
      · exact .inr (.inr (.inr (.inl hx)))
      · rw [← Option.some.inj hf'] at hx
        rw [← Option.some.inj hx]
        exact mark_next (.inr rfl)
    rcases mark_append hx with hx | ⟨rfl, -⟩
    · refine ⟨(h.marks x hx).1.append_commit (fun b hb hid hop => ?_) rfl,
        (h.marks x hx).2.trans (Nat.lt_succ_self _)⟩
      exact hf.begin_eq hb hid hop ▸ hf.marks x hx
    · exact ⟨h.outside_next, Nat.lt_succ_self _⟩
  · rw [← Option.some.inj hf'] at hopen'
    cases hopen'

theorem Inv.release (h : w.Inv) (b : Nat) :
    Inv { w with fences := w.fences.erase b, frame := none } := by
  refine h.shrink rfl rfl (fun x hx => ?_) fun f hf _ => by cases hf
  exact hx.imp_right (.imp_right (.imp (fun ⟨b, hb, hx⟩ => ⟨b, Finset.mem_of_mem_erase hb, hx⟩)
    (.imp_right nofun)))

theorem Inv.settle (h : w.Inv) (hframe : w.frame = some f) (hcommit : f.commitSequence = some c) :
    (w.settle f c).Inv := by
  have hnoted := h.noteApplied (.inr (.inr (.inr (.inr ⟨f, hframe, hcommit⟩))))
  exact hnoted.release f.beginSequence

theorem Inv.drop (h : w.Inv) (hframe : w.frame = some f) (aborts : Bool) :
    (w.drop f aborts).Inv := by
  rw [Writer.drop]
  rcases hopen : f.commitSequence with _ | c
  · have hreleased := h.release f.beginSequence
    have hf := h.frame f hframe hopen
    rcases aborts with _ | _
    · exact hreleased
    exact ⟨h.log.append hf.id_lt (fun h0 => absurd h0 hf.id_ne) fun _ => hf.piece _ (by simp),
      fun x hx => hreleased.marks_append (by simp) (by simp) hx, fun f' hf' => by cases hf'⟩
  refine h.shrink rfl rfl (fun x hx => ?_) fun f' hf' _ => by cases hf'
  exact hx.imp_right (.imp_right (.imp_right (.imp_right nofun)))

/-- The checkpoint is only set to what a mark permits. -/
theorem mark_advance : w.Mark w.advance.checkpoint := by
  have htarget : w.Mark (match w.ceiling with
      | some c => min w.applied c
      | none => w.applied) := by
    rw [ceiling]
    by_cases hne : w.fences.Nonempty
    · rw [dif_pos hne]
      rcases min_choice w.applied (w.fences.min' hne - 1) with hmin | hmin
      · exact .inr (.inl hmin)
      · exact .inr (.inr (.inl ⟨_, w.fences.min'_mem hne, hmin⟩))
    · rw [dif_neg hne]
      exact .inr (.inl rfl)
  rw [advance]
  split_ifs
  · exact .inl rfl
  · exact htarget

theorem checkpoint_le_advance : w.checkpoint ≤ w.advance.checkpoint := by
  rw [advance]
  split_ifs with hle
  · exact le_rfl
  · exact (not_le.1 hle).le

theorem applied_le_advance (hfences : w.fences = ∅) : w.applied ≤ w.advance.checkpoint := by
  have hceiling : w.ceiling = none := by
    rw [ceiling, dif_neg (by simp [hfences])]
  simp only [Writer.advance, hceiling]
  split
  · assumption
  · exact le_rfl

theorem advance_eq : w.advance = { w with checkpoint := w.advance.checkpoint } := by
  rw [advance]
  split_ifs <;> rfl

theorem Inv.advance (h : w.Inv) : w.advance.Inv := by
  rw [advance_eq]
  refine h.shrink rfl rfl (fun x hx => ?_) fun f hf _ => hf
  rcases hx with rfl | hx
  · exact mark_advance
  · exact .inr hx

theorem Inv.rotate (h : w.Inv) : Inv { w with log := rotate w.checkpoint w.log } := by
  have hsub : FacetQL.rotate w.checkpoint w.log ⊆ w.log := fun r hr => (List.mem_filter.1 hr).1
  have hmark (x : Nat) (hx : Mark { w with log := FacetQL.rotate w.checkpoint w.log } x) : w.Mark x :=
    hx.imp_right (.imp_right (.imp_right (.imp_left fun ⟨r, hr, hx⟩ => ⟨r, hsub hr, hx⟩)))
  refine ⟨h.log.live (h.marks _ (.inl rfl)).1,
    fun x hx => ⟨(h.marks x (hmark x hx)).1.mono hsub, (h.marks x (hmark x hx)).2⟩,
    fun f hf hopen => ?_⟩
  obtain ⟨hne, hlt, ⟨b, muts, hfr, hb, hseq, hmuts⟩, hbelow⟩ := h.frame f hf hopen
  refine ⟨hne, hlt, ⟨b, muts, ?_, hb, hseq, hmuts⟩, fun x hx => hbelow x (hmark x hx)⟩
  -- The checkpoint lies below the BEGIN, so that the whole frame stays.
  have hcheckpoint : w.checkpoint < b.sequence := hseq ▸ hbelow _ (.inl rfl)
  rw [← hfr, frameOf, frameOf, FacetQL.rotate, List.filter_filter]
  refine List.filter_congr fun r hr => ?_
  by_cases hid : r.transactionId = f.transactionId
  · have hmem : r ∈ b :: muts := hfr ▸ mem_frameOf.2 ⟨hr, hid⟩
    have hasc := frameOf_ascending h.log.asc f.transactionId
    rw [hfr] at hasc
    have hle : b.sequence ≤ r.sequence := by
      rcases List.mem_cons.1 hmem with rfl | hmem
      · exact le_rfl
      · exact ((List.pairwise_cons.1 hasc).1 r hmem).le
    simp [hid, hcheckpoint.trans_le hle]
  · simp [hid]

theorem replayer_run (es : List (Effect μ)) (applied : Nat) :
    (replayer.run es applied).1 = .ok () ∧ ((replayer.run es applied).2 = applied ∨
      .note (replayer.run es applied).2 ∈ es) := by
  induction es generalizing applied with
  | nil => exact ⟨rfl, .inl rfl⟩
  | cons e es ih =>
    cases e with
    | apply op =>
      obtain ⟨hok, h | h⟩ := ih applied
      · exact ⟨hok, .inl h⟩
      · exact ⟨hok, .inr (List.mem_cons_of_mem _ h)⟩
    | note sequence =>
      obtain ⟨hok, h | h⟩ := ih (max applied sequence)
      · refine ⟨hok, ?_⟩
        rw [show replayer.run (.note sequence :: es) applied =
          replayer.run es (max applied sequence) from rfl, h]
        rcases max_choice applied sequence with hmax | hmax
        · exact .inl hmax
        · exact .inr (by rw [hmax]; exact List.mem_cons_self)
      · exact ⟨hok, .inr (List.mem_cons_of_mem _ h)⟩

theorem note_mem_schedule {records : List (WalRecord μ)} (hx : .note x ∈ schedule records) :
    ∃ r ∈ records, (r.transactionId = standaloneTransactionId ∨ r.operation = .commit) ∧
      x = r.sequence := by
  obtain ⟨r, hr, hx⟩ := List.mem_flatMap.1 hx
  refine ⟨r, hr, ?_⟩
  rw [effectsAt] at hx
  by_cases hid : r.transactionId = standaloneTransactionId
  · rw [if_pos hid] at hx
    refine ⟨.inl hid, ?_⟩
    cases hop : r.operation <;> simp [hop] at hx
    exact hx
  · rw [if_neg hid] at hx
    cases hop : r.operation <;> simp [hop] at hx
    exact ⟨.inr rfl, hx.2⟩

/-- The new process can start, whatever is left of the log. -/
theorem Inv.recover (h : w.Inv) (keep : Nat) :
    (recover replayer w.checkpoint (some (w.log.take keep)) 0).1 = .ok () ∧
      ((w.restart keep).applied = 0 ∨ ∃ r ∈ w.log.take keep,
        (r.transactionId = standaloneTransactionId ∨ r.operation = .commit) ∧
          (w.restart keep).applied = r.sequence) := by
  have hlog := h.log.take keep
  have hout := (h.marks _ (.inl rfl)).1.mono (List.take_subset keep w.log)
  obtain ⟨committed, hc, -⟩ := (hlog.live hout).accepted
  have heq := recover_eq_run replayer (validateRecords_eq_ok.2 hlog.valid) hlog.asc hc 0
  obtain ⟨hok, happlied⟩ := replayer_run (schedule (liveRecords w.checkpoint (w.log.take keep))) 0
  rw [heq]
  refine ⟨hok, ?_⟩
  rw [show (w.restart keep).applied = _ from congrArg Prod.snd heq]
  refine happlied.imp_right fun hmem => ?_
  obtain ⟨r, hr, hrop, hseq⟩ := note_mem_schedule hmem
  exact ⟨r, (List.mem_filter.1 hr).1, hrop, hseq⟩

theorem Inv.restart (h : w.Inv) (keep : Nat) : (w.restart keep).Inv := by
  have hlog := h.log.take keep
  have hsub : w.log.take keep ⊆ w.log := List.take_subset keep w.log
  obtain ⟨hcheckpoint, -, -, habove⟩ := recoveredCounters_above w.checkpoint (w.log.take keep)
  have hrecord : ∀ r ∈ w.log.take keep,
      (r.transactionId = standaloneTransactionId ∨ r.operation = .commit) →
      Outside (w.log.take keep) r.sequence ∧ r.sequence < (w.restart keep).counters.sequence :=
    fun r hr hop => ⟨(h.marks _ (.inr (.inr (.inr (.inl ⟨r, hsub hr, hop, rfl⟩))))).1.mono hsub,
      (habove r hr).1⟩
  refine ⟨hlog.recovered w.checkpoint, ?_, fun f hf => by cases hf⟩
  rintro x (rfl | rfl | ⟨b, hb, -⟩ | ⟨r, hr, hop, rfl⟩ | ⟨f, hf, -⟩)
  · exact ⟨(h.marks _ (.inl rfl)).1.mono hsub, hcheckpoint⟩
  · obtain ⟨-, h0 | ⟨r, hr, hop, hseq⟩⟩ := h.recover keep
    · rw [h0]
      exact ⟨fun b hb c hc _ _ _ => .inl (Nat.pos_of_ne_zero (hlog.valid b hb).2.1),
        hcheckpoint.pos⟩
    · rw [hseq]
      exact hrecord r hr hop
  · cases hb
  · exact hrecord r hr hop
  · cases hf

theorem Inv.restart_unapplied (h : w.Inv) (keep : Nat) : Inv { w.restart keep with applied := 0 } := by
  have hrestart := h.restart keep
  refine ⟨hrestart.log, fun x hx => ?_, fun f hf => by cases hf⟩
  rcases hx with hx | rfl | hx
  · exact hrestart.marks x (.inl hx)
  · exact ⟨fun b hb _ _ _ _ _ => .inl (Nat.pos_of_ne_zero (hrestart.log.valid b hb).2.1),
      hrestart.log.positive.1⟩
  · exact hrestart.marks x (.inr (.inr hx))

/-- Every step of the writers keeps the invariant. -/
theorem Inv.step (h : w.Inv) (hstep : Step w w') : w'.Inv := by
  cases hstep with
  | standalone hframe op succeeds => exact h.standalone hframe op succeeds
  | openFrame => exact h.openFrame
  | stage hframe hopen op => exact h.stage hframe hopen op
  | commit hframe hopen => exact h.commit hframe hopen
  | settle hframe hcommit => exact h.settle hframe hcommit
  | drop hframe aborts => exact h.drop hframe aborts
  | advance => exact h.advance
  | rotate => exact h.rotate
  | burn c hsequence htransaction hoperation => exact h.burn c hsequence htransaction hoperation
  | restart keep => exact h.restart keep

theorem Inv.steps (h : w.Inv) (hsteps : Steps w w') : w'.Inv := by
  induction hsteps with
  | refl => exact h
  | tail _ hstep ih => exact ih.step hstep

/-- A checkpoint that has been written cuts no frame of a later log either. -/
theorem Inv.outside_step (h : w.Inv) (hx : Outside w.log x ∧ x ≤ w.checkpoint)
    (hstep : Step w w') : Outside w'.log x ∧ x ≤ w'.checkpoint := by
  obtain ⟨hout, hle⟩ := hx
  cases hstep with
  | standalone _ op succeeds =>
    cases succeeds <;> exact ⟨hout.append (by simp) (by simp), hle⟩
  | openFrame => exact ⟨hout.append (by simp) fun _ r hr => (h.log.below r hr).2.ne, hle⟩
  | stage => exact ⟨hout.append (by simp) (by simp), hle⟩
  | @commit f hframe hopen =>
    refine ⟨hout.append_commit (fun b hb hid hop => ?_) rfl, hle⟩
    have hbegin := (h.frame f hframe hopen).begin_eq hb hid hop
    exact hbegin ▸ hle.trans_lt ((h.frame f hframe hopen).marks _ (.inl rfl))
  | settle | burn => exact ⟨hout, hle⟩
  | @drop f hframe aborts =>
    rw [Writer.drop]
    rcases f.commitSequence with _ | c
    · cases aborts
      · exact ⟨hout, hle⟩
      · exact ⟨hout.append (by simp) (by simp), hle⟩
    · exact ⟨hout, hle⟩
  | advance =>
    refine ⟨?_, hle.trans checkpoint_le_advance⟩
    rw [advance_eq]
    exact hout
  | rotate => exact ⟨hout.mono fun r hr => (List.mem_filter.1 hr).1, hle⟩
  | restart keep => exact ⟨hout.mono (List.take_subset keep w.log), hle⟩

theorem Inv.outside_steps (h : w.Inv) (hsteps : Steps w w') : Outside w'.log w.checkpoint := by
  suffices hkeep : w'.Inv ∧ Outside w'.log w.checkpoint ∧ w.checkpoint ≤ w'.checkpoint from
    hkeep.2.1
  induction hsteps with
  | refl => exact ⟨h, (h.marks _ (.inl rfl)).1, le_rfl⟩
  | tail _ hstep ih => exact ⟨ih.1.step hstep, ih.1.outside_step ih.2 hstep⟩

end Step

end Writer

/-- However the writers have got to a log, whatever is left of it above any checkpoint
    written on the way is accepted by recovery, and what it reports as committed is
    what has its COMMIT there. -/
theorem log_accepted {w w' : Writer μ} (hstart : Writer.Steps .empty w) (hrun : Writer.Steps w w')
    (keep : Nat) :
    ∃ committed, classifyTransactions (liveRecords w.checkpoint (w'.log.take keep)) =
        .ok committed ∧
      ∀ id c, (id, c) ∈ committed ↔ ∃ r ∈ liveRecords w.checkpoint (w'.log.take keep),
        r.transactionId = id ∧ r.operation = .commit ∧ r.sequence = c := by
  have hinv := Writer.inv_empty.steps hstart
  have hout := (hinv.outside_steps hrun).mono (List.take_subset keep w'.log)
  exact (((hinv.steps hrun).log.take keep).live hout).accepted

/-- A standalone mutation, and a frame that is settled and checkpointed. -/
def settledWriter : Writer Nat :=
  ((((Writer.empty.standalone 10 true).openFrame.stage ⟨1, 2, none⟩ 20).commit ⟨1, 2, none⟩).settle
    ⟨1, 2, some 4⟩ 4).advance

/-- After that, a frame that is dropped. -/
def droppedWriter : Writer Nat :=
  (settledWriter.openFrame.stage ⟨2, 5, none⟩ 30).drop ⟨2, 5, none⟩ true

/-- A new process that finds that frame without its ABORT, and in it one that was not applied. -/
def restartedWriter : Writer Nat :=
  (((droppedWriter.restart 6).openFrame.stage ⟨3, 7, none⟩ 40).commit ⟨3, 7, none⟩).drop
    ⟨3, 7, some 9⟩ false

theorem log_accepted_after_restart :
    ∃ committed, classifyTransactions (liveRecords settledWriter.checkpoint
        (restartedWriter.log.take 9)) = .ok committed ∧
      ∀ id c, (id, c) ∈ committed ↔ ∃ r ∈ liveRecords settledWriter.checkpoint
        (restartedWriter.log.take 9),
        r.transactionId = id ∧ r.operation = .commit ∧ r.sequence = c := by
  have hstart : Writer.Steps (.empty : Writer Nat) settledWriter :=
    ((((((Relation.ReflTransGen.refl.tail (.standalone rfl 10 true)).tail (.openFrame rfl)).tail
      (.stage rfl rfl 20)).tail (.commit rfl rfl)).tail (.settle rfl rfl)).tail .advance)
  have hdrop : Writer.Steps settledWriter droppedWriter :=
    ((Relation.ReflTransGen.refl.tail (.openFrame rfl)).tail (.stage rfl rfl 30)).tail
      (.drop rfl true)
  have hrecover := ((Writer.inv_empty.steps (hstart.trans hdrop)).recover 6).1
  have hrun : Writer.Steps settledWriter restartedWriter :=
    ((((hdrop.tail (.restart 6 hrecover)).tail (.openFrame rfl)).tail
      (.stage rfl rfl 40)).tail (.commit rfl rfl)).tail (.drop rfl false)
  exact log_accepted hstart hrun 9

example : (restartedWriter.log.map fun r => (r.sequence, r.transactionId)) =
    [(1, 0), (2, 1), (3, 1), (4, 1), (5, 2), (6, 2), (7, 3), (8, 3), (9, 3)] := by decide

end FacetQL
