import FacetQL.Lib.LastWrite
import FacetQL.Storage.OperationId

/-!
# The user table

`insert_user` and `revoke_user` of `storage/engine.rs`, and the recovery of the users.
A call holds the writer lock while it logs its operation, appends it to the log of
users, and changes the table in memory; only then does it flush the log. The log of
users is durable at once. So at a crash it can be ahead of what is left of the
write-ahead log, and recovery then replays older operations over newer ones.

* `user_table_prefix`: when recovery gives the table after the first calls.
-/

namespace FacetQL

open Relation

/-- What a user may do. -/
inductive Role
  | user
  | admin
  deriving DecidableEq, Repr

/-- A user, by the hash of their token. -/
structure UserRecord where
  tokenHash : String
  owner : String
  role : Role
  deriving DecidableEq, Repr

/-- An operation on the users, in either log. -/
inductive UserOpRecord
  | put (user : UserRecord)
  | revoke (tokenHash : String)
  deriving DecidableEq, Repr

/-- The users, by the hash of their token. -/
abbrev UserTable := String → Option UserRecord

namespace UserOpRecord

/-- Apply an operation to the table. -/
def apply (table : UserTable) : UserOpRecord → UserTable
  | put user => Function.update table user.tokenHash (some user)
  | revoke tokenHash => Function.update table tokenHash none

/-- The user an operation is about. -/
def tokenHash : UserOpRecord → String
  | put user => user.tokenHash
  | revoke tokenHash => tokenHash

/-- An operation as a write to the table. -/
def toWrite : UserOpRecord → String × Option UserRecord
  | put user => (user.tokenHash, some user)
  | revoke tokenHash => (tokenHash, none)

theorem apply_eq_write (table : UserTable) (op : UserOpRecord) :
    apply table op = write table op.toWrite := by
  cases op <;> rfl

theorem toWrite_fst (op : UserOpRecord) : op.toWrite.1 = op.tokenHash := by
  cases op <;> rfl

end UserOpRecord

/-- Apply operations to the table, in order. -/
def applyUsers (table : UserTable) (ops : List UserOpRecord) : UserTable :=
  ops.foldl UserOpRecord.apply table

/-- The table that the log of users stands for. -/
def loadUsers (users : List UserOpRecord) : UserTable := applyUsers (fun _ => none) users

/-- The operations in a part of the write-ahead log. -/
def userOps (records : List (WalRecord UserOpRecord)) : List UserOpRecord :=
  records.filterMap fun r => r.operation.mutation?

/-- The two logs, the table in memory, and how far each has got. -/
structure UserStore where
  log : List (WalRecord UserOpRecord)
  /-- The last sequence number that a completed flush of the log covers. -/
  durable : Nat
  counters : Counters
  checkpoint : Nat
  applied : Nat
  users : List UserOpRecord
  table : UserTable
  /-- The operation of the call that holds the lock: logged, and not yet applied. -/
  pending : Option (WalRecord UserOpRecord)
  /-- In recovery: the records that are still to be replayed. -/
  todo : Option (List (WalRecord UserOpRecord))
  /-- The table that this process has started with. -/
  base : UserTable
  /-- The calls made since, in the order of the lock. -/
  calls : List (WalRecord UserOpRecord)
  /-- No call from this position on has returned yet. -/
  returned : Nat

namespace UserStore

/-- A new database. -/
def empty : UserStore where
  log := []
  durable := 0
  counters := .new
  checkpoint := 0
  applied := 0
  users := []
  table := fun _ => none
  pending := none
  todo := none
  base := fun _ => none
  calls := []
  returned := 0

/-- A call takes the lock and logs its operation, as a standalone record. -/
def call (s : UserStore) (op : UserOpRecord) : UserStore :=
  let r : WalRecord UserOpRecord := ⟨walFormatVersion, s.counters.sequence, standaloneTransactionId,
    s.counters.operationId, .mutation op⟩
  { s with
    log := s.log ++ [r]
    counters := { s.counters with
      sequence := s.counters.sequence + 1, operationId := s.counters.operationId + 1 }
    pending := some r
    calls := s.calls ++ [r] }

/-- Apply an operation: to the log of users, and to the table. -/
def applyOperation (s : UserStore) (op : UserOpRecord) : UserStore :=
  { s with users := s.users ++ [op], table := op.apply s.table }

/-- Note that the log has been applied up to a sequence number. -/
def noteApplied (s : UserStore) (sequence : Nat) : UserStore :=
  { s with applied := max s.applied sequence }

/-- Move the checkpoint up to what has been applied. -/
def advance (s : UserStore) : UserStore :=
  if s.applied ≤ s.checkpoint then s else { s with checkpoint := s.applied }

/-- Rewrite the log without what recovery would skip, and flush it. -/
def rotateWal (s : UserStore) : UserStore :=
  { s with log := rotate s.checkpoint s.log, durable := s.counters.sequence - 1 }

/-- A crash leaves `keep` records of the write-ahead log, flushed no further, and the log of
    users. -/
def crash (s : UserStore) (keep : Nat) : UserStore :=
  let log := s.log.take keep
  let counters := recoveredCounters s.checkpoint (some log)
  { s with
    log := log
    durable := min s.durable (counters.sequence - 1)
    counters := counters
    applied := 0
    table := loadUsers s.users
    pending := none
    todo := some (liveRecords s.checkpoint log) }

/-- Recovery as the users see it. -/
def replayer : Replayer UserOpRecord UserStore :=
  ⟨fun op s => (.ok (), s.applyOperation op), fun sequence s => s.noteApplied sequence⟩

/-- A crash can leave what the last flush covers, and any more of the log. -/
def Survives (s : UserStore) (keep : Nat) : Prop :=
  ∀ r ∈ s.log, r.sequence ≤ s.durable → r ∈ s.log.take keep

/-- The steps of the threads under the lock, of flushes, checkpoints, and recovery. -/
inductive ProcessStep : UserStore → UserStore → Prop
  | call {s : UserStore} (htodo : s.todo = none) (hpending : s.pending = none)
      (op : UserOpRecord) : ProcessStep s (s.call op)
  | apply {s : UserStore} {r : WalRecord UserOpRecord} {op : UserOpRecord}
      (hpending : s.pending = some r) (hop : r.operation = .mutation op) :
      ProcessStep s (({ s with pending := none }.applyOperation op).noteApplied r.sequence)
  /-- A flush that began when `sequence` was the last one in the log. -/
  | sync {s : UserStore} (sequence : Nat) (hdurable : s.durable ≤ sequence)
      (hlogged : sequence < s.counters.sequence) : ProcessStep s { s with durable := sequence }
  /-- A call returns, with its operation applied and a flush that covers it. -/
  | ret {s : UserStore} {r : WalRecord UserOpRecord} (htodo : s.todo = none) (i : Nat)
      (hcall : s.calls[i]? = some r) (happlied : s.pending ≠ some r)
      (hdurable : r.sequence ≤ s.durable) :
      ProcessStep s { s with returned := max s.returned (i + 1) }
  | advance {s : UserStore} (hpending : s.pending = none)
      (htodo : s.todo = none ∨ s.todo = some []) : ProcessStep s s.advance
  | rotate {s : UserStore} (hpending : s.pending = none)
      (htodo : s.todo = none ∨ s.todo = some []) : ProcessStep s s.rotateWal
  | replay {s : UserStore} {r : WalRecord UserOpRecord} {rest : List (WalRecord UserOpRecord)}
      {op : UserOpRecord} (htodo : s.todo = some (r :: rest)) (hop : r.operation = .mutation op) :
      ProcessStep s (({ s with todo := some rest }.applyOperation op).noteApplied r.sequence)
  /-- Recovery is over, and the process takes calls. -/
  | ready {s : UserStore} (htodo : s.todo = some []) (hsettled : s.applied ≤ s.checkpoint) :
      ProcessStep s { s with todo := none, base := s.table, calls := [], returned := 0 }
  /-- The log of users is rewritten as one operation for each user in the table. -/
  | compact {s : UserStore} (htodo : s.todo = none) (hpending : s.pending = none)
      {live : List UserRecord} (hlive : ∀ user, user ∈ live ↔ ∃ hash, s.table hash = some user) :
      ProcessStep s { s with users := live.map .put }

/-- The steps of the processes, and crashes. -/
inductive Step : UserStore → UserStore → Prop
  | process {s s' : UserStore} (h : ProcessStep s s') : Step s s'
  | crash {s : UserStore} (keep : Nat) (hkeep : s.Survives keep) : Step s (s.crash keep)

/-- No record that is lost and has been applied is about a user that a record which is left
    above the checkpoint is about; and a recovery that crashes loses nothing of the log. -/
def Spared (s : UserStore) (keep : Nat) : Prop :=
  (∀ r ∈ liveRecords s.checkpoint (s.log.take keep), ∀ lost ∈ s.log.drop keep,
    s.pending ≠ some lost → ∀ op ∈ r.operation.mutation?, ∀ op' ∈ lost.operation.mutation?,
      op.tokenHash ≠ op'.tokenHash) ∧
  (s.todo.isSome → s.log.take keep = s.log)

/-- The steps of the processes, and crashes that spare the log. -/
inductive SparedStep : UserStore → UserStore → Prop
  | process {s s' : UserStore} (h : ProcessStep s s') : SparedStep s s'
  | crash {s : UserStore} (keep : Nat) (hkeep : s.Survives keep) (hspared : s.Spared keep) :
      SparedStep s (s.crash keep)

/-! ## The operations as writes -/

theorem applyUsers_eq_writes (table : UserTable) (ops : List UserOpRecord) :
    applyUsers table ops = writes table (ops.map UserOpRecord.toWrite) := by
  rw [applyUsers, writes, List.foldl_map]
  congr 1
  funext table op
  exact op.apply_eq_write table

variable {table : UserTable} {ops ops' : List UserOpRecord}

theorem applyUsers_append : applyUsers table (ops ++ ops') = applyUsers (applyUsers table ops) ops' :=
  List.foldl_append

theorem applyUsers_absorb {op : UserOpRecord} (hmem : op ∈ ops) :
    applyUsers (op.apply table) ops = applyUsers table ops := by
  have hkey : ∀ w ∈ [op.toWrite], w.1 ∈ (ops.map UserOpRecord.toWrite).map Prod.fst := by
    rw [List.forall_mem_singleton]
    exact List.mem_map_of_mem (List.mem_map_of_mem hmem)
  rw [applyUsers_eq_writes, applyUsers_eq_writes, op.apply_eq_write]
  exact writes_absorb hkey

/-- Operations that change nothing change nothing without the last, if about other users. -/
theorem applyUsers_left (hall : applyUsers table (ops ++ ops') = table)
    (hother : ∀ op ∈ ops, ∀ op' ∈ ops', op.tokenHash ≠ op'.tokenHash) :
    applyUsers table ops = table := by
  rw [applyUsers_eq_writes, List.map_append] at hall
  rw [applyUsers_eq_writes]
  refine writes_left hall fun x hx y hy => ?_
  obtain ⟨op, hop, rfl⟩ := List.mem_map.1 hx
  obtain ⟨op', hop', rfl⟩ := List.mem_map.1 hy
  rw [op.toWrite_fst, op'.toWrite_fst]
  exact hother op hop op' hop'

theorem userOps_append (x y : List (WalRecord UserOpRecord)) :
    userOps (x ++ y) = userOps x ++ userOps y :=
  List.filterMap_append

theorem userOps_singleton {r : WalRecord UserOpRecord} {op : UserOpRecord}
    (hop : r.operation = .mutation op) : userOps [r] = [op] := by
  simp [userOps, hop, WalOperation.mutation?]

theorem mem_userOps {records : List (WalRecord UserOpRecord)} {op : UserOpRecord} :
    op ∈ userOps records ↔ ∃ r ∈ records, op ∈ r.operation.mutation? :=
  List.mem_filterMap

/-! ## The invariant -/

/-- A process that takes calls: all but the one under the lock are applied, and replaying the
    log above the checkpoint would change nothing. -/
structure Running (s : UserStore) (done doneLog : List (WalRecord UserOpRecord)) : Prop where
  calls : s.calls = done ++ s.pending.toList
  log : s.log = doneLog ++ s.pending.toList
  table : s.table = applyUsers s.base (userOps done)
  again : applyUsers s.table (userOps (liveRecords s.checkpoint doneLog)) = s.table
  applied : ∀ r ∈ doneLog, r.sequence ≤ s.checkpoint ∨ r.sequence ≤ s.applied
  above : ∀ r ∈ s.pending, s.checkpoint < r.sequence
  returned : s.returned ≤ done.length

/-- A process in recovery: replaying the rest, or all, gives the table after `n` calls. -/
structure Recovering (s : UserStore) (rest : List (WalRecord UserOpRecord)) (n : Nat) : Prop where
  idle : s.pending = none
  rest_live : ∀ r ∈ rest, r ∈ liveRecords s.checkpoint s.log
  applied : ∀ r ∈ liveRecords s.checkpoint s.log, r ∈ rest ∨ r.sequence ≤ s.applied
  again : applyUsers s.table (userOps (liveRecords s.checkpoint s.log)) =
    applyUsers s.base (userOps (s.calls.take n))
  table : applyUsers s.table (userOps rest) = applyUsers s.base (userOps (s.calls.take n))
  returned : s.returned ≤ n
  bound : n ≤ s.calls.length

/-- The invariant of the runs whose crashes spare the log. -/
structure Sound (s : UserStore) : Prop where
  log : SoundLog s.log s.counters
  plain : ∀ r ∈ s.log, r.transactionId = standaloneTransactionId ∧ ∃ op, r.operation = .mutation op
  load : s.table = loadUsers s.users
  keyed : ∀ hash user, s.table hash = some user → user.tokenHash = hash
  marks : s.checkpoint < s.counters.sequence ∧ s.applied < s.counters.sequence
  running : s.todo = none → ∃ done doneLog, s.Running done doneLog
  recovering : ∀ rest, s.todo = some rest → ∃ n, s.Recovering rest n

variable {s s' : UserStore} {r : WalRecord UserOpRecord} {op : UserOpRecord}

theorem sound_empty : empty.Sound where
  log := Writer.inv_empty.log
  plain := nofun
  load := rfl
  keyed _ _ h := by cases h
  marks := ⟨one_pos, one_pos⟩
  running _ := ⟨[], [], rfl, rfl, rfl, rfl, nofun,
    fun _ hr => absurd hr (Option.not_mem_none _), le_rfl⟩
  recovering _ h := by cases h

/-- Operations keep each user under its own hash. -/
theorem keyed_apply (h : ∀ hash user, table hash = some user → user.tokenHash = hash) :
    ∀ hash user, op.apply table hash = some user → user.tokenHash = hash := by
  intro hash user hget
  cases op with
  | put u =>
    rw [UserOpRecord.apply, Function.update_apply] at hget
    split at hget
    · rename_i heq
      rw [← Option.some.inj hget, heq]
    · exact h hash user hget
  | revoke tokenHash =>
    rw [UserOpRecord.apply, Function.update_apply] at hget
    split at hget
    · cases hget
    · exact h hash user hget

theorem loadUsers_concat (users : List UserOpRecord) :
    loadUsers (users ++ [op]) = op.apply (loadUsers users) :=
  applyUsers_append

section

variable (h : s.Sound)
include h

theorem Sound.call (htodo : s.todo = none) (hpending : s.pending = none) (op : UserOpRecord) :
    (s.call op).Sound := by
  obtain ⟨done, doneLog, hrun⟩ := h.running htodo
  have hcalls := hrun.calls
  have hlog := hrun.log
  rw [hpending, Option.toList_none, List.append_nil] at hcalls hlog
  have hmarks := And.intro (Nat.lt_succ_of_lt h.marks.1) (Nat.lt_succ_of_lt h.marks.2)
  refine ⟨?_, ?_, h.load, h.keyed, hmarks, fun _ => ⟨done, doneLog, ?_⟩,
    fun rest hrest => nomatch htodo.symm.trans hrest⟩
  · exact h.log.append h.log.positive.2.1 (fun _ => rfl) fun hne => absurd rfl hne
  · exact List.forall_mem_append.2 ⟨h.plain, List.forall_mem_singleton.2 ⟨rfl, op, rfl⟩⟩
  · refine ⟨?_, ?_, hrun.table, hrun.again, hrun.applied, ?_, hrun.returned⟩
    · exact congrArg (· ++ _) hcalls
    · exact congrArg (· ++ _) hlog
    · intro r hr
      rw [← Option.some.inj hr]
      exact h.marks.1

/-- The operation of the call that holds the lock is applied. -/
theorem Sound.apply (hpending : s.pending = some r) (hop : r.operation = .mutation op)
    (hseq : r.sequence < s.counters.sequence) :
    (({ s with pending := none }.applyOperation op).noteApplied r.sequence).Sound := by
  have hload : op.apply s.table = loadUsers (s.users ++ [op]) := by rw [loadUsers_concat, h.load]
  refine ⟨h.log, h.plain, hload, keyed_apply h.keyed, ⟨h.marks.1, max_lt h.marks.2 hseq⟩,
    fun htodo => ?_, fun rest htodo => ?_⟩
  · obtain ⟨done, doneLog, hrun⟩ := h.running htodo
    have hcalls := hrun.calls
    have hlog := hrun.log
    rw [hpending, Option.toList_some] at hcalls hlog
    have hlive : liveRecords s.checkpoint (doneLog ++ [r]) =
        liveRecords s.checkpoint doneLog ++ [r] := by
      have habove : s.checkpoint < r.sequence := hrun.above r hpending
      simp [liveRecords, habove]
    refine ⟨done ++ [r], doneLog ++ [r], ?_, ?_, ?_, ?_, ?_, fun _ hr => absurd hr (Option.not_mem_none _),
      ?_⟩
    · exact hcalls.trans (List.append_nil _).symm
    · exact hlog.trans (List.append_nil _).symm
    · change op.apply s.table = applyUsers s.base (userOps (done ++ [r]))
      rw [userOps_append, userOps_singleton hop, applyUsers_append, ← hrun.table]
      rfl
    · -- The operation comes last, so what has been applied before it is not undone.
      change applyUsers (op.apply s.table) (userOps (liveRecords s.checkpoint (doneLog ++ [r]))) =
        op.apply s.table
      rw [hlive, userOps_append, userOps_singleton hop,
        applyUsers_absorb (List.mem_append_right _ List.mem_cons_self), applyUsers_append, hrun.again]
      rfl
    · refine List.forall_mem_append.2 ⟨fun r' hr' => ?_, List.forall_mem_singleton.2 ?_⟩
      · exact (hrun.applied r' hr').imp_right fun hle => hle.trans (le_max_left _ _)
      · exact .inr (le_max_right _ _)
    · exact hrun.returned.trans (by simp)
  · obtain ⟨n, hrec⟩ := h.recovering rest htodo
    rw [hrec.idle] at hpending
    cases hpending

theorem Sound.ret (htodo : s.todo = none) {i : Nat} (hcall : s.calls[i]? = some r)
    (happlied : s.pending ≠ some r) : Sound { s with returned := max s.returned (i + 1) } := by
  obtain ⟨done, doneLog, hrun⟩ := h.running htodo
  have hi : i < done.length := by
    by_contra hge
    rw [hrun.calls, List.getElem?_append_right (not_lt.1 hge)] at hcall
    rcases hp : s.pending with _ | r'
    · rw [hp] at hcall
      cases hcall
    rw [hp, Option.toList_some] at hcall
    have hmem := List.mem_of_getElem? hcall
    exact happlied (by rw [hp, List.mem_singleton.1 hmem])
  exact { h with
    running := fun _ => ⟨done, doneLog, { hrun with returned := max_le hrun.returned hi }⟩
    recovering := fun rest hrest => nomatch htodo.symm.trans hrest }

theorem Sound.pending_lt (hpending : s.pending = some r) : r.sequence < s.counters.sequence := by
  rcases htodo : s.todo with _ | rest
  · obtain ⟨done, doneLog, hrun⟩ := h.running htodo
    exact (h.log.below r (by rw [hrun.log, hpending]; simp)).1
  obtain ⟨n, hrec⟩ := h.recovering rest htodo
  rw [hrec.idle] at hpending
  cases hpending

theorem Sound.sync (sequence : Nat) : Sound { s with durable := sequence } :=
  { h with
    running := fun htodo => (h.running htodo).imp fun _ => .imp fun _ hrun => { hrun with }
    recovering := fun rest htodo => (h.recovering rest htodo).imp fun _ hrec => { hrec with } }

/-- The checkpoint moves up to what has been applied, which leaves nothing to replay. -/
theorem Sound.advance (hpending : s.pending = none) (htodo : s.todo = none ∨ s.todo = some []) :
    s.advance.Sound := by
  rw [UserStore.advance]
  split
  · exact h
  rename_i hlt
  have hle : s.checkpoint ≤ s.applied := (not_le.1 hlt).le
  refine { h with marks := ⟨h.marks.2, h.marks.2⟩, running := fun hnone => ?_, recovering := ?_ }
  · obtain ⟨done, doneLog, hrun⟩ := h.running hnone
    have hold : ∀ r ∈ doneLog, r.sequence ≤ s.applied :=
      fun r hr => (hrun.applied r hr).elim (fun hr => hr.trans hle) id
    refine ⟨done, doneLog, { hrun with
      again := ?_, applied := fun r hr => .inr (hold r hr)
      above := fun r hr => nomatch hpending.symm.trans hr }⟩
    change applyUsers s.table (userOps (liveRecords s.applied doneLog)) = s.table
    rw [liveRecords_eq_nil hold]
    rfl
  · intro rest hrest
    obtain rfl : [] = rest := by
      rcases htodo with htodo | htodo
      · exact nomatch htodo.symm.trans hrest
      · exact Option.some.inj (htodo.symm.trans hrest)
    obtain ⟨n, hrec⟩ := h.recovering [] hrest
    have hnil : liveRecords s.applied s.log = [] := by
      refine liveRecords_eq_nil fun r hr => ?_
      by_contra hgt
      have hlive : r ∈ liveRecords s.checkpoint s.log :=
        mem_liveRecords.2 ⟨hr, hle.trans_lt (not_le.1 hgt)⟩
      exact (hrec.applied r hlive).elim List.not_mem_nil hgt
    refine ⟨n, { hrec with again := ?_, applied := fun r hr => (nomatch hnil ▸ hr), rest_live := nofun }⟩
    · change applyUsers s.table (userOps (liveRecords s.applied s.log)) = _
      rw [hnil]
      exact hrec.table

theorem Sound.outside (x : Nat) : Outside s.log x := by
  intro b hb _ _ _ hbegin
  obtain ⟨-, op, hop⟩ := h.plain b hb
  rw [hop] at hbegin
  cases hbegin

/-- Rotation leaves what recovery replays. -/
theorem Sound.rotate (hpending : s.pending = none) : s.rotateWal.Sound := by
  have hlive (records : List (WalRecord UserOpRecord)) :
      liveRecords s.checkpoint (FacetQL.rotate s.checkpoint records) =
        liveRecords s.checkpoint records := liveRecords_liveRecords _ _
  have hsub : FacetQL.rotate s.checkpoint s.log ⊆ s.log := fun r hr => (List.mem_filter.1 hr).1
  refine ⟨?_, fun r hr => h.plain r (hsub hr), h.load, h.keyed, h.marks, fun htodo => ?_,
    fun rest htodo => ?_⟩
  · exact h.log.live (h.outside _)
  · obtain ⟨done, doneLog, hrun⟩ := h.running htodo
    have hlog := hrun.log
    rw [hpending, Option.toList_none, List.append_nil] at hlog
    refine ⟨done, FacetQL.rotate s.checkpoint doneLog, { hrun with log := ?_, again := ?_, applied := ?_ }⟩
    · change FacetQL.rotate s.checkpoint s.log = _ ++ s.pending.toList
      rw [hlog, hpending, Option.toList_none, List.append_nil]
    · change applyUsers s.table (userOps (liveRecords s.checkpoint _)) = s.table
      rw [hlive, hrun.again]
    · exact fun r hr => hrun.applied r (List.mem_filter.1 hr).1
  · obtain ⟨n, hrec⟩ := h.recovering rest htodo
    refine ⟨n, { hrec with rest_live := ?_, applied := ?_, again := ?_ }⟩
    · exact fun r hr => (hlive s.log).symm ▸ hrec.rest_live r hr
    · exact fun r hr => hrec.applied r ((hlive s.log) ▸ hr)
    · exact (congrArg (fun live => applyUsers s.table (userOps live)) (hlive s.log)).trans hrec.again

/-- Replaying one more record. Starting over replays it again, with the same result. -/
theorem Sound.replay {rest : List (WalRecord UserOpRecord)} (htodo : s.todo = some (r :: rest))
    (hop : r.operation = .mutation op) :
    (({ s with todo := some rest }.applyOperation op).noteApplied r.sequence).Sound := by
  obtain ⟨n, hrec⟩ := h.recovering _ htodo
  have hlive := hrec.rest_live r List.mem_cons_self
  have hseq := (h.log.below r (mem_liveRecords.1 hlive).1).1
  have hload : op.apply s.table = loadUsers (s.users ++ [op]) := by rw [loadUsers_concat, h.load]
  refine ⟨h.log, h.plain, hload, keyed_apply h.keyed, ⟨h.marks.1, max_lt h.marks.2 hseq⟩,
    fun hnone => absurd hnone (Option.some_ne_none _), fun rest' hrest => ?_⟩
  obtain rfl : rest = rest' := Option.some.inj hrest
  refine ⟨n, { hrec with rest_live := ?_, applied := ?_, again := ?_, table := ?_ }⟩
  · exact fun r' hr' => hrec.rest_live r' (List.mem_cons_of_mem _ hr')
  · intro r' hr'
    rcases hrec.applied r' hr' with hmem | hle
    · rcases List.mem_cons.1 hmem with rfl | hmem
      · exact .inr (le_max_right _ _)
      · exact .inl hmem
    · exact .inr (hle.trans (le_max_left _ _))
  · have hmem : op ∈ userOps (liveRecords s.checkpoint s.log) :=
      mem_userOps.2 ⟨r, hlive, by rw [hop]; rfl⟩
    exact (applyUsers_absorb hmem).trans hrec.again
  · have htable := hrec.table
    rw [← List.singleton_append, userOps_append, userOps_singleton hop, applyUsers_append] at htable
    exact htable

/-- Recovery is over: the table it has got to is what the process starts with. -/
theorem Sound.ready (htodo : s.todo = some []) :
    Sound { s with todo := none, base := s.table, calls := [], returned := 0 } := by
  obtain ⟨n, hrec⟩ := h.recovering [] htodo
  have hagain : applyUsers s.table (userOps (liveRecords s.checkpoint s.log)) = s.table :=
    hrec.again.trans hrec.table.symm
  refine { h with running := fun _ => ⟨[], s.log, ?_⟩, recovering := fun _ hrest => by cases hrest }
  have hnil : s.pending.toList = [] := by rw [hrec.idle, Option.toList_none]
  refine ⟨hnil.symm, ?_, rfl, hagain, fun r hr => ?_, fun r hr => (nomatch hrec.idle.symm.trans hr),
    le_rfl⟩
  · exact (congrArg (s.log ++ ·) hnil).trans (List.append_nil _) |>.symm
  · by_cases hle : r.sequence ≤ s.checkpoint
    · exact .inl hle
    · have hlive := mem_liveRecords.2 ⟨hr, not_le.1 hle⟩
      exact .inr ((hrec.applied r hlive).resolve_left List.not_mem_nil)

end

/-- One operation for each user in the table gives the table. -/
theorem loadUsers_live {live : List UserRecord}
    (hkeyed : ∀ hash user, table hash = some user → user.tokenHash = hash)
    (hlive : ∀ user, user ∈ live ↔ ∃ hash, table hash = some user) :
    loadUsers (live.map .put) = table := by
  have hkey : ∀ user ∈ live, table user.tokenHash = some user := by
    intro user huser
    obtain ⟨hash, hget⟩ := (hlive user).1 huser
    rw [hkeyed hash user hget, hget]
  rw [loadUsers, applyUsers_eq_writes]
  funext hash
  rcases hget : table hash with _ | user
  · refine writes_of_notMem fun hmem => ?_
    simp only [List.map_map, List.mem_map] at hmem
    obtain ⟨user, huser, rfl⟩ := hmem
    exact Option.some_ne_none _ ((hkey user huser).symm.trans hget)
  refine writes_eq_of_forall ?_ fun w hw hwk => ?_
  · have huser := (hlive user).2 ⟨hash, hget⟩
    rw [← hkeyed hash user hget]
    exact List.mem_map_of_mem (List.mem_map_of_mem (List.mem_map_of_mem huser))
  · simp only [List.map_map, List.mem_map] at hw
    obtain ⟨user', huser', rfl⟩ := hw
    rw [← hget, ← hwk]
    exact (hkey user' huser').symm

theorem Sound.compact (h : s.Sound) {live : List UserRecord}
    (hlive : ∀ user, user ∈ live ↔ ∃ hash, s.table hash = some user) :
    Sound { s with users := live.map .put } :=
  { h with
    load := (loadUsers_live h.keyed hlive).symm
    running := fun htodo => (h.running htodo).imp fun _ => .imp fun _ hrun => { hrun with }
    recovering := fun rest htodo => (h.recovering rest htodo).imp fun _ hrec => { hrec with } }

/-- After a crash: the calls that have been applied, and that under the lock if its record is
    left. -/
theorem Running.crash {done doneLog : List (WalRecord UserOpRecord)} (h : s.Sound)
    (hrun : s.Running done doneLog) {keep : Nat} (hspared : s.Spared keep) :
    ∃ n, s.returned ≤ n ∧ n ≤ s.calls.length ∧
      applyUsers s.table (userOps (liveRecords s.checkpoint (s.log.take keep))) =
        applyUsers s.base (userOps (s.calls.take n)) := by
  by_cases hkeep : keep ≤ doneLog.length
  · -- The record of the call that holds the lock is lost, if there is one.
    have htake : s.log.take keep = doneLog.take keep := by
      rw [hrun.log, List.take_append_of_le_length hkeep]
    have hdone : s.calls.take done.length = done := by rw [hrun.calls, List.take_left]
    refine ⟨done.length, hrun.returned, by rw [hrun.calls, List.length_append]; omega, ?_⟩
    rw [hdone, ← hrun.table, htake]
    have hall : applyUsers s.table (userOps (liveRecords s.checkpoint (doneLog.take keep)) ++
        userOps (liveRecords s.checkpoint (doneLog.drop keep))) = s.table := by
      rw [← userOps_append, ← liveRecords_append, List.take_append_drop, hrun.again]
    refine applyUsers_left hall fun op hop op' hop' => ?_
    obtain ⟨r, hr, hrop⟩ := mem_userOps.1 hop
    obtain ⟨lost, hlost, hlostop⟩ := mem_userOps.1 hop'
    have hmem := (mem_liveRecords.1 hlost).1
    refine hspared.1 r (htake ▸ hr) lost ?_ (fun hp => ?_) op hrop op' hlostop
    · rw [hrun.log, List.drop_append_of_le_length hkeep]
      exact List.mem_append_left _ hmem
    · have hasc := h.log.asc
      rw [hrun.log, hp, Ascending, List.pairwise_append] at hasc
      exact lt_irrefl _ (hasc.2.2 lost (List.mem_of_mem_drop hmem) lost (by simp))
  · have htake : s.log.take keep = s.log := by
      refine List.take_of_length_le ?_
      have hone : s.pending.toList.length ≤ 1 := by cases s.pending <;> simp
      rw [hrun.log, List.length_append]
      omega
    have hlive : liveRecords s.checkpoint s.pending.toList = s.pending.toList := by
      refine List.filter_eq_self.2 fun r hr => ?_
      simpa using hrun.above r (Option.mem_toList.1 hr)
    refine ⟨s.calls.length, ?_, le_rfl, ?_⟩
    · exact hrun.returned.trans (by rw [hrun.calls, List.length_append]; omega)
    · rw [htake, List.take_length, hrun.calls, hrun.log, liveRecords_append, hlive, userOps_append,
        applyUsers_append, hrun.again, userOps_append, applyUsers_append, ← hrun.table]

theorem Sound.crash (h : s.Sound) {keep : Nat} (hspared : s.Spared keep) :
    (s.crash keep).Sound := by
  have hlog := (h.log.take keep).recovered s.checkpoint
  have hmarks := (recoveredCounters_above s.checkpoint (s.log.take keep)).1
  refine ⟨hlog, fun r hr => h.plain r (List.mem_of_mem_take hr), rfl, ?_, ⟨hmarks, hmarks.pos⟩,
    fun hnone => absurd hnone (Option.some_ne_none _), fun rest hrest => ?_⟩
  · change ∀ hash user, loadUsers s.users hash = some user → _
    rw [← h.load]
    exact h.keyed
  obtain rfl : liveRecords s.checkpoint (s.log.take keep) = rest := Option.some.inj hrest
  have hfound : ∃ n, s.returned ≤ n ∧ n ≤ s.calls.length ∧
      applyUsers s.table (userOps (liveRecords s.checkpoint (s.log.take keep))) =
        applyUsers s.base (userOps (s.calls.take n)) := by
    rcases htodo : s.todo with _ | todo
    · obtain ⟨done, doneLog, hrun⟩ := h.running htodo
      exact hrun.crash h hspared
    obtain ⟨n, hrec⟩ := h.recovering todo htodo
    rw [hspared.2 (by rw [htodo]; rfl)]
    exact ⟨n, hrec.returned, hrec.bound, hrec.again⟩
  obtain ⟨n, hreturned, hbound, htable⟩ := hfound
  rw [h.load] at htable
  exact ⟨n, rfl, fun r hr => hr, fun r hr => .inl hr, htable, htable, hreturned, hbound⟩

theorem Sound.process (h : s.Sound) (hstep : ProcessStep s s') : s'.Sound := by
  cases hstep with
  | call htodo hpending op => exact h.call htodo hpending op
  | apply hpending hop => exact h.apply hpending hop (h.pending_lt hpending)
  | sync sequence => exact h.sync sequence
  | ret htodo i hcall happlied => exact h.ret htodo hcall happlied
  | advance hpending htodo => exact h.advance hpending htodo
  | rotate hpending => exact h.rotate hpending
  | replay htodo hop => exact h.replay htodo hop
  | ready htodo => exact h.ready htodo
  | compact _ _ hlive => exact h.compact hlive

theorem Sound.step (h : s.Sound) (hstep : SparedStep s s') : s'.Sound := by
  cases hstep with
  | process hstep => exact h.process hstep
  | crash keep hkeep hspared => exact h.crash hspared

theorem sound_steps (h : ReflTransGen SparedStep empty s) : s.Sound := by
  induction h with
  | refl => exact sound_empty
  | tail _ hstep ih => exact ih.step hstep

/-! ## Recovery takes the steps of recovery -/

/-- A replay of standalone records, as steps of the process. -/
theorem run_plain (all : List (WalRecord UserOpRecord)) {records : List (WalRecord UserOpRecord)}
    (hplain : ∀ r ∈ records, r.transactionId = standaloneTransactionId ∧
      ∃ op, r.operation = .mutation op) (s : UserStore) :
    let result := replayer.run (records.flatMap (effectsAt all)) s
    result.1 = .ok () ∧ result.2.table = applyUsers s.table (userOps records) ∧
      ReflTransGen ProcessStep { s with todo := some records }
        { result.2 with todo := some [] } := by
  induction records generalizing s with
  | nil => exact ⟨rfl, rfl, .refl⟩
  | cons r records ih =>
    obtain ⟨⟨hid, op, hop⟩, hrest⟩ := List.forall_mem_cons.1 hplain
    have heffects : effectsAt all r = [.apply op, .note r.sequence] := by
      rw [effectsAt, if_pos hid, hop]
    obtain ⟨hok, htable, hsteps⟩ := ih hrest ((s.applyOperation op).noteApplied r.sequence)
    rw [List.flatMap_cons, heffects]
    refine ⟨hok, htable.trans ?_, .head (.replay rfl hop) hsteps⟩
    rw [← List.singleton_append, userOps_append, userOps_singleton hop, applyUsers_append]
    rfl

theorem Sound.recover (h : s.Sound) :
    (recover replayer s.checkpoint (some s.log) s).1 = .ok () ∧
    (recover replayer s.checkpoint (some s.log) s).2.table =
      applyUsers s.table (userOps (liveRecords s.checkpoint s.log)) ∧
    ReflTransGen ProcessStep { s with todo := some (liveRecords s.checkpoint s.log) }
      { (recover replayer s.checkpoint (some s.log) s).2 with todo := some [] } := by
  obtain ⟨committed, hc, -⟩ := (h.log.live (h.outside s.checkpoint)).accepted
  rw [recover_eq_run replayer (validateRecords_eq_ok.2 h.log.valid) h.log.asc hc s]
  exact run_plain _ (fun r hr => h.plain r (mem_liveRecords.1 hr).1) s

end UserStore

open UserStore in
/-- In every run whose crashes spare the log, whichever way the calls of the threads and
    the steps of recovery have gone: if the process crashes now, again sparing the log,
    the next recovery succeeds, and the table is then what the first `n` calls give, in
    the order of the lock; no call that has returned is missing from them. -/
theorem user_table_prefix {s : UserStore} (hrun : ReflTransGen SparedStep .empty s)
    {keep : Nat} (hspared : s.Spared keep) :
    ∃ recovered, recover replayer s.checkpoint (some (s.log.take keep)) (s.crash keep) =
        (.ok (), recovered) ∧
      ∃ n, s.returned ≤ n ∧ n ≤ s.calls.length ∧
        recovered.table = applyUsers s.base (userOps (s.calls.take n)) := by
  have hcrash := (sound_steps hrun).crash hspared
  obtain ⟨n, hrec⟩ := hcrash.recovering _ rfl
  obtain ⟨hok, htable, -⟩ := hcrash.recover
  exact ⟨_, Prod.ext hok rfl, n, hrec.returned, hrec.bound, htable.trans hrec.again⟩

section Samples

open UserStore

def alice (role : Role) : UserOpRecord := .put ⟨"a", "alice", role⟩

def bob : UserOpRecord := .put ⟨"b", "bob", .user⟩

/-- A call that takes the lock, and gives it back. -/
def applied (s : UserStore) (op : UserOpRecord) : UserStore :=
  ({ s.call op with pending := none }.applyOperation op).noteApplied s.counters.sequence

theorem applied_steps {s : UserStore} (htodo : s.todo = none) (hpending : s.pending = none)
    (op : UserOpRecord) : ReflTransGen ProcessStep s (applied s op) :=
  (ReflTransGen.single (.call htodo hpending op)).tail
    (@ProcessStep.apply (s.call op) _ op rfl rfl)

/-- One user is inserted, and the call returns. -/
def oneUser : UserStore := { applied .empty (alice .user) with durable := 1, returned := 1 }

theorem oneUser_steps : ReflTransGen ProcessStep .empty oneUser :=
  ((applied_steps rfl rfl (alice .user)).tail (.sync 1 (by decide) (by decide))).tail
    (.ret rfl 0 rfl (by decide) le_rfl)

/-- A second user is inserted, and nothing is flushed before the crash. -/
theorem user_table_prefix_unflushed :
    ∃ recovered, recover replayer 0 (some ((applied oneUser bob).log.take 1))
        ((applied oneUser bob).crash 1) = (.ok (), recovered) ∧
      ∃ n, 1 ≤ n ∧ n ≤ 2 ∧ recovered.table =
        applyUsers (fun _ => none) (userOps ((applied oneUser bob).calls.take n)) := by
  have hsteps : ReflTransGen ProcessStep .empty (applied oneUser bob) :=
    oneUser_steps.trans (applied_steps rfl rfl bob)
  have hrun : ReflTransGen SparedStep .empty (applied oneUser bob) :=
    hsteps.lift id fun _ _ h => .process h
  have hspared : (applied oneUser bob).Spared 1 := by
    unfold Spared
    decide
  exact user_table_prefix hrun hspared

/-- Two calls that have not returned are applied, the first one on a user that is in the
    flushed part of the log. After a crash that leaves only that part, the table has the
    second call and not the first. -/
theorem user_table_no_prefix : ¬ ∀ s, ReflTransGen Step .empty s → ∀ keep,
    s.Survives keep →
    ∃ recovered, recover replayer s.checkpoint (some (s.log.take keep)) (s.crash keep) =
        (.ok (), recovered) ∧
      ∃ n, s.returned ≤ n ∧ n ≤ s.calls.length ∧
        recovered.table = applyUsers s.base (userOps (s.calls.take n)) := by
  intro hall
  let s := applied (applied oneUser (alice .admin)) bob
  have hsteps : ReflTransGen ProcessStep .empty s :=
    (oneUser_steps.trans (applied_steps rfl rfl (alice .admin))).trans (applied_steps rfl rfl bob)
  have hkeep : s.Survives 1 := by
    unfold Survives
    decide
  obtain ⟨recovered, hrecover, n, hreturned, hbound, htable⟩ :=
    hall s (hsteps.lift id fun _ _ h => .process h) 1 hkeep
  have hget (hash : String) : (recover replayer s.checkpoint (some (s.log.take 1))
      (s.crash 1)).2.table hash = applyUsers s.base (userOps (s.calls.take n)) hash := by
    rw [hrecover, htable]
  have ha := hget "a"
  have hb := hget "b"
  have hn : n = 1 ∨ n = 2 ∨ n = 3 := by
    have : 1 ≤ n := hreturned
    have : n ≤ 3 := hbound
    omega
  rcases hn with rfl | rfl | rfl
  · exact absurd hb (by decide +kernel)
  · exact absurd hb (by decide +kernel)
  · exact absurd ha (by decide +kernel)

end Samples

end FacetQL
