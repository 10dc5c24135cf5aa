import FacetQL.Storage.Wal

/-!
# Recovery

What `storage/recovery.rs` does with the records of the log, in two passes. The
first one decides which transactions have committed and touches nothing; the
second one walks the log and applies it to the engine, of which only two steps
matter here: applying a mutation, which can fail, and noting how far the log has
been replayed.

* `recovery_applies_committed`: what has committed is applied, or nothing at all.
-/

namespace FacetQL

variable {μ σ : Type}

/-! ## Validation -/

/-- The fields of every record are legal. -/
def validateRecords : List (WalRecord μ) → Except IoError Unit
  | [] => .ok ()
  | r :: rs =>
    if r.formatVersion ≠ walFormatVersion then
      .error ⟨.invalidData, "unsupported WAL format version " ++ toString r.formatVersion ++
        " at sequence " ++ toString r.sequence⟩
    else if r.sequence = 0 then .error ⟨.invalidData, "WAL record has invalid sequence 0"⟩
    else if r.operationId = 0 then
      .error ⟨.invalidData, "WAL record at sequence " ++ toString r.sequence ++
        " has invalid operation ID 0"⟩
    else validateRecords rs

variable {records : List (WalRecord μ)} (c : Nat)

theorem validateRecords_eq_ok : validateRecords records = .ok () ↔
    ∀ r ∈ records, r.formatVersion = walFormatVersion ∧ r.sequence ≠ 0 ∧ r.operationId ≠ 0 := by
  induction records with
  | nil => simp [validateRecords]
  | cons r rs ih =>
    rw [validateRecords, List.forall_mem_cons, ← ih]
    split_ifs with hversion hsequence hoperation
    · simp [hversion]
    · simp [hsequence]
    · simp [hoperation]
    · simp [not_not.1 hversion, hsequence, hoperation]

/-- The walk of `validateSequence`, after a record of sequence `previous`. -/
def validateSequenceFrom : (previous : Option Nat) → List (WalRecord μ) → Except IoError Unit
  | _, [] => .ok ()
  | previous, r :: rs =>
    match previous with
    | some p =>
      if r.sequence ≤ p then
        .error ⟨.invalidData, "WAL sequence violation: " ++ toString r.sequence ++ " follows " ++
          toString p⟩
      else validateSequenceFrom (some r.sequence) rs
    | none => validateSequenceFrom (some r.sequence) rs

/-- The sequence numbers are strictly increasing. -/
def validateSequence (records : List (WalRecord μ)) : Except IoError Unit :=
  validateSequenceFrom none records

/-! ## Pass 1: classifying transactions -/

/-- A control record outside a transaction. -/
def reservedTransactionIdError (sequence : Nat) : IoError :=
  ⟨.invalidData, "transaction control record " ++ toString sequence ++
    " uses reserved transaction ID 0"⟩

/-- An error about the lifecycle of a transaction. -/
def lifecycleError (transactionId : Nat) (detail : String) : IoError :=
  ⟨.invalidData, "transaction " ++ toString transactionId ++ " " ++ detail⟩

/-- A committed transaction whose first record is not BEGIN. -/
def missingBeginError (transactionId commitSequence firstSequence : Nat) : IoError :=
  ⟨.invalidData, "transaction " ++ toString transactionId ++ " has a durable COMMIT at sequence " ++
    toString commitSequence ++ " but no BEGIN record; its first surviving record is sequence " ++
    toString firstSequence ++ ". A committed transaction whose opening record is missing means " ++
    "the log was truncated through the middle of a frame, so replaying what is left would apply " ++
    "part of a batch and discarding it would silently lose one that was acknowledged. Recovery " ++
    "refuses both and must be resolved by an operator."⟩

/-- A record that does not belong to the transaction. -/
def foreignRecordError (transactionId : Nat) (r : WalRecord μ) : IoError :=
  lifecycleError transactionId ("contains record " ++ toString r.sequence ++
    " belonging to transaction " ++ toString r.transactionId)

/-- Walk the lifecycle of a transaction, past `index` records; `last` is the index of the last
    one. -/
def walkLifecycle (transactionId last : Nat) :
    (index : Nat) → (commitSequence : Option Nat) → (aborted : Bool) → List (WalRecord μ) →
    Except IoError (Option Nat)
  | _, commitSequence, _, [] => .ok commitSequence
  | index, commitSequence, aborted, r :: rs =>
    match r.operation with
    | .begin =>
      if index ≠ 0 then
        .error (lifecycleError transactionId "contains BEGIN after transaction start")
      else walkLifecycle transactionId last (index + 1) commitSequence aborted rs
    | .commit =>
      if aborted then .error (lifecycleError transactionId "contains COMMIT after ABORT")
      else if commitSequence.isSome then
        .error (lifecycleError transactionId "contains duplicate COMMIT")
      else if index ≠ last then
        .error (lifecycleError transactionId "contains records after COMMIT")
      else walkLifecycle transactionId last (index + 1) (some r.sequence) aborted rs
    | .abort =>
      if commitSequence.isSome then
        .error (lifecycleError transactionId "contains ABORT after COMMIT")
      else if aborted then .error (lifecycleError transactionId "contains duplicate ABORT")
      else if index ≠ last then
        .error (lifecycleError transactionId "contains records after ABORT")
      else walkLifecycle transactionId last (index + 1) commitSequence true rs
    | .mutation _ =>
      if index = 0 then
        .error (lifecycleError transactionId "begins with a mutation instead of BEGIN")
      else if commitSequence.isSome ∨ aborted then
        .error (lifecycleError transactionId "contains mutation after transaction termination")
      else walkLifecycle transactionId last (index + 1) commitSequence aborted rs

/-- Validate a transaction: the sequence of its COMMIT, or nothing when it has not committed. -/
def classifyTransaction (transactionId : Nat) (records : List (WalRecord μ)) :
    Except IoError (Option Nat) :=
  match records.mergeSort fun a b => a.sequence ≤ b.sequence with
  | [] => .ok none
  | first :: rest =>
    match first.operation with
    | .begin =>
      match (first :: rest).find? fun r => r.transactionId ≠ transactionId with
      | some r => .error (foreignRecordError transactionId r)
      | none => walkLifecycle transactionId rest.length 0 none false (first :: rest)
    | _ =>
      match (first :: rest).find? fun r => r.operation matches .commit with
      | some commit => .error (missingBeginError transactionId commit.sequence first.sequence)
      | none => .ok none

/-- The first control record outside a transaction. -/
def reservedControl (records : List (WalRecord μ)) : Option (WalRecord μ) :=
  records.find? fun r => r.transactionId = standaloneTransactionId ∧ r.operation.isControl

/-- The ids of the transactions of a log, in ascending order. -/
def transactionIds (records : List (WalRecord μ)) : List Nat :=
  (records.map WalRecord.transactionId).toFinset.sort (· ≤ ·) |>.filter
    (· ≠ standaloneTransactionId)

/-- The records of one transaction, in the order of the log. -/
def frameOf (records : List (WalRecord μ)) (transactionId : Nat) : List (WalRecord μ) :=
  records.filter fun r => r.transactionId = transactionId

/-- Classify transactions one after the other, up to the first error. -/
def classifyEach (records : List (WalRecord μ)) : List Nat → Except IoError (List (Nat × Nat))
  | [] => .ok []
  | id :: ids =>
    match classifyTransaction id (frameOf records id) with
    | .error e => .error e
    | .ok outcome =>
      (classifyEach records ids).map fun committed =>
        (outcome.map fun commitSequence => (id, commitSequence)).toList ++ committed

/-- The committed transactions of a log, each with the sequence of its COMMIT. -/
def classifyTransactions (records : List (WalRecord μ)) : Except IoError (List (Nat × Nat)) :=
  match reservedControl records with
  | some r => .error (reservedTransactionIdError r.sequence)
  | none => classifyEach records (transactionIds records)

/-! ## Pass 2: replaying -/

/-- What recovery does to the engine. -/
structure Replayer (μ σ : Type) where
  apply : μ → σ → Except IoError Unit × σ
  noteRecovered : Nat → σ → σ

/-- Apply mutations one after the other, up to the first error. -/
def Replayer.applyAll (engine : Replayer μ σ) : List μ → σ → Except IoError Unit × σ
  | [], s => (.ok (), s)
  | op :: ops, s =>
    match engine.apply op s with
    | (.error e, s') => (.error e, s')
    | (.ok (), s') => engine.applyAll ops s'

/-- A COMMIT that is not where the first pass has found it. -/
def commitMismatchError (transactionId sequence commitSequence : Nat) : IoError :=
  ⟨.invalidData, "transaction " ++ toString transactionId ++ " COMMIT at sequence " ++
    toString sequence ++ " disagrees with classified commit sequence " ++ toString commitSequence⟩

/-- Apply the log: a standalone mutation where it stands, a transaction at its COMMIT. -/
def replayInSequenceOrder (engine : Replayer μ σ) (committed : List (Nat × Nat)) :
    List (WalRecord μ) → (buffers : Nat → List μ) → σ → Except IoError Unit × σ
  | [], _, s => (.ok (), s)
  | r :: rs, buffers, s =>
    if r.transactionId = standaloneTransactionId then
      match r.operation with
      | .mutation op =>
        match engine.apply op s with
        | (.error e, s') => (.error e, s')
        | (.ok (), s') =>
          replayInSequenceOrder engine committed rs buffers (engine.noteRecovered r.sequence s')
      | _ => (.error (reservedTransactionIdError r.sequence), s)
    else
      match committed.lookup r.transactionId with
      | none => replayInSequenceOrder engine committed rs buffers s
      | some commitSequence =>
        match r.operation with
        | .begin => replayInSequenceOrder engine committed rs buffers s
        | .abort => replayInSequenceOrder engine committed rs buffers s
        | .commit =>
          if r.sequence ≠ commitSequence then
            (.error (commitMismatchError r.transactionId r.sequence commitSequence), s)
          else
            match engine.applyAll (buffers r.transactionId) s with
            | (.error e, s') => (.error e, s')
            | (.ok (), s') =>
              replayInSequenceOrder engine committed rs
                (Function.update buffers r.transactionId [])
                (engine.noteRecovered r.sequence s')
        | .mutation op =>
          replayInSequenceOrder engine committed rs
            (Function.update buffers r.transactionId (buffers r.transactionId ++ [op])) s

/-! ## The whole of it -/

/-- The counters after recovery has read the checkpoint and the log. -/
def recoveredCounters (checkpoint : Nat) (log : Option (List (WalRecord μ))) : Counters :=
  let floor := Counters.new.initializeCounters checkpoint 0 checkpoint
  match log with
  | none => floor
  | some records => floor.initializeCounters ((records.map WalRecord.sequence).foldl max 0)
      ((records.map WalRecord.transactionId).foldl max 0)
      ((records.map WalRecord.operationId).foldl max 0)

/-- The records recovery replays: those above the checkpoint. -/
def liveRecords (checkpoint : Nat) (records : List (WalRecord μ)) : List (WalRecord μ) :=
  records.filter fun r => checkpoint < r.sequence

theorem liveRecords_liveRecords (records : List (WalRecord μ)) :
    liveRecords c (liveRecords c records) = liveRecords c records := by
  simp [liveRecords]

theorem liveRecords_append (x y : List (WalRecord μ)) :
    liveRecords c (x ++ y) = liveRecords c x ++ liveRecords c y :=
  List.filter_append _ _

theorem mem_liveRecords {c : Nat} {r : WalRecord μ} :
    r ∈ liveRecords c records ↔ r ∈ records ∧ c < r.sequence := by
  simp [liveRecords]

theorem liveRecords_eq_nil {c : Nat} (h : ∀ r ∈ records, r.sequence ≤ c) :
    liveRecords c records = [] :=
  List.filter_eq_nil_iff.2 fun r hr => by simpa using h r hr

/-- Validate the log, if there is one, classify what lies above the checkpoint, and replay that. -/
def recover (engine : Replayer μ σ) (checkpoint : Nat) (log : Option (List (WalRecord μ))) (s : σ) :
    Except IoError Unit × σ :=
  match log with
  | none => (.ok (), s)
  | some records =>
    match validateRecords records with
    | .error e => (.error e, s)
    | .ok () =>
      match validateSequence records with
      | .error e => (.error e, s)
      | .ok () =>
        match classifyTransactions (liveRecords checkpoint records) with
        | .error e => (.error e, s)
        | .ok committed =>
          replayInSequenceOrder engine committed (liveRecords checkpoint records) (fun _ => []) s

/-! ## What the first pass accepts -/

/-- The records stand in strictly ascending order. -/
def Ascending (records : List (WalRecord μ)) : Prop :=
  records.Pairwise fun a b => a.sequence < b.sequence

theorem validateSequenceFrom_eq_ok {previous : Option Nat} :
    validateSequenceFrom previous records = .ok () ↔
      Ascending records ∧ ∀ p ∈ previous, ∀ r ∈ records, p < r.sequence := by
  induction records generalizing previous with
  | nil => simp [validateSequenceFrom, Ascending]
  | cons r rs ih =>
    have hrest : (Ascending rs ∧ ∀ x ∈ rs, r.sequence < x.sequence) ↔ Ascending (r :: rs) := by
      rw [Ascending, Ascending, List.pairwise_cons, and_comm]
    rcases previous with _ | p
    · simp [validateSequenceFrom, ih, hrest]
    rw [validateSequenceFrom]
    split_ifs with hle
    · simp only [Option.mem_def, Option.some.injEq, forall_eq', false_iff, not_and]
      exact fun _ h => absurd (h r List.mem_cons_self) hle.not_gt
    rw [ih]
    simp only [Option.mem_def, Option.some.injEq, forall_eq', hrest, List.mem_cons,
      forall_eq_or_imp]
    constructor
    · intro hasc
      have hlt := (List.pairwise_cons.1 hasc).1
      exact ⟨hasc, not_le.1 hle, fun x hx => (not_le.1 hle).trans (hlt x hx)⟩
    · exact And.left

theorem validateSequence_eq_ok : validateSequence records = .ok () ↔ Ascending records := by
  rw [validateSequence, validateSequenceFrom_eq_ok]
  simp

/-- Mutations, then nothing, a COMMIT or an ABORT; `outcome` is the sequence of the COMMIT. -/
def Closed (records : List (WalRecord μ)) (outcome : Option Nat) : Prop :=
  ∃ muts tail, records = muts ++ tail ∧ (∀ r ∈ muts, r.operation.isControl = false) ∧
    (tail = [] ∧ outcome = none ∨
      ∃ r, tail = [r] ∧ (r.operation = .commit ∧ outcome = some r.sequence ∨
        r.operation = .abort ∧ outcome = none))

/-- A transaction that is accepted: one closed after its BEGIN, or without BEGIN and COMMIT. -/
def Frame (records : List (WalRecord μ)) (outcome : Option Nat) : Prop :=
  (∃ b rest, records = b :: rest ∧ b.operation = .begin ∧ Closed rest outcome) ∨
  (∀ b ∈ records.head?, b.operation ≠ .begin) ∧ (∀ r ∈ records, r.operation ≠ .commit) ∧
    outcome = none

section Closed

variable {r : WalRecord μ} {records : List (WalRecord μ)} {outcome : Option Nat}

theorem closed_nil : Closed ([] : List (WalRecord μ)) outcome ↔ outcome = none := by
  constructor
  · rintro ⟨muts, tail, hnil, -, ⟨-, rfl⟩ | ⟨r, rfl, -⟩⟩
    · rfl
    · simp at hnil
  · rintro rfl
    exact ⟨[], [], rfl, by simp, .inl ⟨rfl, rfl⟩⟩

theorem closed_cons_mutation (hr : r.operation.isControl = false) :
    Closed (r :: records) outcome ↔ Closed records outcome := by
  constructor
  · rintro ⟨muts, tail, happ, hmuts, htail⟩
    rcases muts with _ | ⟨x, muts⟩
    · rcases htail with ⟨rfl, -⟩ | ⟨x, rfl, hx⟩
      · simp at happ
      · obtain ⟨rfl, -⟩ := List.cons.inj happ
        rcases hx with ⟨hx, -⟩ | ⟨hx, -⟩ <;> rw [hx] at hr <;> cases hr
    obtain ⟨rfl, rfl⟩ := List.cons.inj happ
    exact ⟨muts, tail, rfl, fun y hy => hmuts y (List.mem_cons_of_mem r hy), htail⟩
  · rintro ⟨muts, tail, rfl, hmuts, htail⟩
    exact ⟨r :: muts, tail, rfl, List.forall_mem_cons.2 ⟨hr, hmuts⟩, htail⟩

/-- A control record after BEGIN closes the transaction. -/
theorem closed_cons_control (hr : r.operation.isControl = true) :
    Closed (r :: records) outcome ↔ records = [] ∧
      (r.operation = .commit ∧ outcome = some r.sequence ∨ r.operation = .abort ∧ outcome = none) := by
  constructor
  · rintro ⟨muts, tail, happ, hmuts, htail⟩
    rcases muts with _ | ⟨x, muts⟩
    · rcases htail with ⟨rfl, -⟩ | ⟨x, rfl, hx⟩
      · simp at happ
      · obtain ⟨rfl, rfl⟩ := List.cons.inj happ
        exact ⟨rfl, hx⟩
    obtain ⟨rfl, -⟩ := List.cons.inj happ
    rw [hmuts r List.mem_cons_self] at hr
    cases hr
  · rintro ⟨rfl, hclose⟩
    exact ⟨[], [r], rfl, by simp, .inr ⟨r, rfl, hclose⟩⟩

end Closed

/-- The walk accepts what is closed. -/
theorem walkLifecycle_eq_ok {id last index : Nat} {outcome : Option Nat} (hindex : index ≠ 0)
    (hlast : last + 1 = index + records.length) :
    walkLifecycle id last index none false records = .ok outcome ↔ Closed records outcome := by
  induction records generalizing index with
  | nil =>
    rw [closed_nil, walkLifecycle, Except.ok.injEq, eq_comm]
  | cons r rs ih =>
    rw [List.length_cons] at hlast
    -- A COMMIT or an ABORT is the last record, or the walk stops at it.
    have hend : index ≠ last ↔ rs ≠ [] := by
      rw [← List.length_pos_iff]
      omega
    cases hop : r.operation with
    | begin =>
      rw [closed_cons_control (by rw [hop]; rfl)]
      simp [walkLifecycle, hop, hindex]
    | mutation op =>
      rw [closed_cons_mutation (by rw [hop]; rfl), ← ih (Nat.succ_ne_zero index) (by omega)]
      simp [walkLifecycle, hop, hindex]
    | commit | abort =>
      rw [closed_cons_control (by rw [hop]; rfl)]
      by_cases hrs : rs = []
      · simp [walkLifecycle, hop, hrs, not_ne_iff.1 (hend.not.2 (not_not.2 hrs)), eq_comm]
      · simp [walkLifecycle, hop, hrs, hend.2 hrs]

/-- What the first pass accepts of one transaction, and what it makes of it. -/
theorem classifyTransaction_eq_ok {id : Nat} {outcome : Option Nat} (hasc : Ascending records)
    (hid : ∀ r ∈ records, r.transactionId = id) :
    classifyTransaction id records = .ok outcome ↔ Frame records outcome := by
  have hsort : records.mergeSort (fun a b => a.sequence ≤ b.sequence) = records :=
    List.mergeSort_of_pairwise (hasc.imp fun hab => by simpa using hab.le)
  rw [classifyTransaction, hsort]
  rcases records with _ | ⟨first, rest⟩
  · simp [Frame, eq_comm]
  by_cases hbegin : first.operation = .begin
  · have hforeign : (first :: rest).find? (fun r => r.transactionId ≠ id) = none := by
      rw [List.find?_eq_none]
      exact fun r hr => by simp [hid r hr]
    have hwalk : walkLifecycle id rest.length 0 none false (first :: rest) =
        walkLifecycle id rest.length 1 none false rest := by
      simp [walkLifecycle, hbegin]
    simp only [hbegin, hforeign, hwalk]
    rw [walkLifecycle_eq_ok one_ne_zero (Nat.add_comm _ _)]
    simp [Frame, hbegin]
  · have hcommit : ((first :: rest).find? fun r => r.operation matches .commit) = none ↔
        ∀ r ∈ first :: rest, r.operation ≠ .commit := by
      rw [List.find?_eq_none]
      refine forall₂_congr fun r _ => ?_
      cases r.operation <;> simp
    have hframe : Frame (first :: rest) outcome ↔
        (∀ r ∈ first :: rest, r.operation ≠ .commit) ∧ outcome = none := by
      simp [Frame, hbegin]
    rw [hframe, ← hcommit]
    dsimp only
    split
    · exact absurd ‹_› hbegin
    · cases (first :: rest).find? fun r => r.operation matches .commit <;> simp [eq_comm]

section Frames

variable {records : List (WalRecord μ)}

theorem frameOf_ascending (hasc : Ascending records) (id : Nat) : Ascending (frameOf records id) :=
  hasc.filter _

theorem mem_frameOf {id : Nat} {r : WalRecord μ} :
    r ∈ frameOf records id ↔ r ∈ records ∧ r.transactionId = id := by simp [frameOf]

theorem mem_transactionIds {id : Nat} : id ∈ transactionIds records ↔
    id ≠ standaloneTransactionId ∧ ∃ r ∈ records, r.transactionId = id := by
  simp [transactionIds, and_comm]

theorem transactionIds_nodup : (transactionIds records).Nodup :=
  (Finset.sort_nodup _ _).filter _

/-- The first pass succeeds when it accepts each transaction. -/
theorem classifyEach_eq_ok {ids : List Nat} {committed : List (Nat × Nat)} (hids : ids.Nodup)
    (h : classifyEach records ids = .ok committed) :
    (∀ id ∈ ids, classifyTransaction id (frameOf records id) = .ok (committed.lookup id)) ∧
      ∀ id ∉ ids, committed.lookup id = none := by
  induction ids generalizing committed with
  | nil =>
    obtain rfl : [] = committed := by simpa [classifyEach] using h
    simp
  | cons id ids ih =>
    obtain ⟨hid, hids⟩ := List.nodup_cons.1 hids
    rw [classifyEach] at h
    rcases hc : classifyTransaction id (frameOf records id) with e | outcome
    · simp [hc] at h
    simp only [hc] at h
    rcases hrest : classifyEach records ids with e | rest
    · simp [hrest, Except.map] at h
    obtain rfl : _ = committed := by simpa [hrest, Except.map] using h
    obtain ⟨hin, hout⟩ := ih hids hrest
    have hself : ((outcome.map fun c => (id, c)).toList ++ rest).lookup id = outcome := by
      rcases outcome with _ | c
      · simpa using hout id hid
      · simp
    have hother : ∀ x, x ≠ id →
        ((outcome.map fun c => (id, c)).toList ++ rest).lookup x = rest.lookup x := by
      intro x hx
      have hbeq : (x == id) = false := by simpa using hx
      rcases outcome with _ | c
      · rfl
      · simp [List.lookup_cons, hbeq]
    refine ⟨List.forall_mem_cons.2 ⟨by rw [hself, hc], fun x hx => ?_⟩, fun x hx => ?_⟩
    · rw [hother x (by rintro rfl; exact hid hx)]
      exact hin x hx
    · obtain ⟨hne, hx⟩ := not_or.1 (List.mem_cons.not.1 hx)
      rw [hother x hne]
      exact hout x hx

/-- What the first pass finds out about each transaction of a log that it accepts. -/
theorem classifyTransactions_frame {committed : List (Nat × Nat)} (hasc : Ascending records)
    (h : classifyTransactions records = .ok committed) :
    (∀ r ∈ records, r.transactionId = standaloneTransactionId → r.operation.isControl = false) ∧
    ∀ id, id ≠ standaloneTransactionId → Frame (frameOf records id) (committed.lookup id) := by
  rw [classifyTransactions] at h
  rcases hres : reservedControl records with _ | r
  · simp only [hres] at h
    obtain ⟨hin, hout⟩ := classifyEach_eq_ok transactionIds_nodup h
    constructor
    · intro r hr hid
      have := List.find?_eq_none.1 hres r hr
      simpa [hid] using this
    intro id hid
    by_cases hmem : id ∈ transactionIds records
    · exact (classifyTransaction_eq_ok (frameOf_ascending hasc id)
        fun r hr => (mem_frameOf.1 hr).2).1 (hin id hmem)
    -- A transaction without records.
    have hempty : frameOf records id = [] := by
      rw [List.eq_nil_iff_forall_not_mem]
      exact fun r hr => hmem (mem_transactionIds.2 ⟨hid, r, mem_frameOf.1 hr⟩)
    rw [hempty, hout id hmem]
    exact .inr (by simp)
  · simp [hres] at h

end Frames

/-! ## What a log stands for -/

/-- A step of a replay. -/
inductive Effect (μ : Type)
  | apply (op : μ)
  | note (sequence : Nat)
  deriving DecidableEq, Repr

/-- Do the steps of a replay, up to the first error. -/
def Replayer.run (engine : Replayer μ σ) : List (Effect μ) → σ → Except IoError Unit × σ
  | [], s => (.ok (), s)
  | .apply op :: es, s =>
    match engine.apply op s with
    | (.error e, s') => (.error e, s')
    | (.ok (), s') => engine.run es s'
  | .note sequence :: es, s => engine.run es (engine.noteRecovered sequence s)

/-- The mutations of a transaction, in the order of the log. -/
def mutationsOf (records : List (WalRecord μ)) (id : Nat) : List μ :=
  (frameOf records id).filterMap fun r => r.operation.mutation?

/-- A transaction has a COMMIT and no ABORT. -/
def committedIn (records : List (WalRecord μ)) (id : Nat) : Bool :=
  (frameOf records id).any (fun r => r.operation matches .commit) &&
    !(frameOf records id).any fun r => r.operation matches .abort

/-- At a record, a standalone mutation is applied, and at a COMMIT those of its transaction. -/
def effectsAt (records : List (WalRecord μ)) (r : WalRecord μ) : List (Effect μ) :=
  if r.transactionId = standaloneTransactionId then
    match r.operation with
    | .mutation op => [.apply op, .note r.sequence]
    | _ => []
  else
    match r.operation with
    | .commit =>
      if committedIn records r.transactionId then
        (mutationsOf records r.transactionId).map .apply ++ [.note r.sequence]
      else []
    | _ => []

/-- What a log stands for, record by record. -/
def schedule (records : List (WalRecord μ)) : List (Effect μ) :=
  records.flatMap (effectsAt records)

section Replay

variable {engine : Replayer μ σ} {records fr x y : List (WalRecord μ)} {r : WalRecord μ}

theorem run_applies (ops : List μ) (es : List (Effect μ)) (s : σ) :
    engine.run (ops.map .apply ++ es) s =
      match engine.applyAll ops s with
      | (.error e, s') => (.error e, s')
      | (.ok (), s') => engine.run es s' := by
  induction ops generalizing s with
  | nil => rfl
  | cons op ops ih =>
    rw [List.map_cons, List.cons_append, Replayer.run, Replayer.applyAll]
    cases hop : engine.apply op s with
    | mk res s' =>
      rcases res with e | u
      · rfl
      · exact ih s'

/-- A transaction that has not committed holds no COMMIT. -/
theorem Frame.no_commit (hf : Frame fr none) : ∀ r ∈ fr, r.operation ≠ .commit := by
  rcases hf with ⟨b, rest, rfl, hb, muts, tail, rfl, hmuts, htail⟩ | ⟨-, hno, -⟩
  · have hmut : ∀ r ∈ muts, r.operation ≠ .commit := fun r hr hc => by
      have := hmuts r hr
      rw [hc] at this
      cases this
    rcases htail with ⟨rfl, -⟩ | ⟨c, rfl, ⟨-, hc⟩ | ⟨hc, -⟩⟩
    · simpa [hb] using hmut
    · cases hc
    simp only [List.mem_cons, List.mem_append, List.not_mem_nil, or_false]
    rintro r (rfl | hr | rfl)
    · simp [hb]
    · exact hmut r hr
    · simp [hc]
  · exact hno

/-- The COMMIT of a transaction is its last record, and there is no ABORT. -/
theorem Frame.commit_last {e : Nat} (hf : Frame fr (some e)) :
    ∃ body c, fr = body ++ [c] ∧ c.operation = .commit ∧ c.sequence = e ∧
      ∀ r ∈ body, r.operation ≠ .commit ∧ r.operation ≠ .abort := by
  rcases hf with ⟨b, rest, rfl, hb, muts, tail, rfl, hmuts, htail⟩ | ⟨-, -, hnone⟩
  · rcases htail with ⟨-, hc⟩ | ⟨c, rfl, ⟨hc, he⟩ | ⟨-, hc⟩⟩
    · cases hc
    · refine ⟨b :: muts, c, by simp, hc, (Option.some.inj he).symm, List.forall_mem_cons.2
        ⟨by simp [hb], fun r hr => ?_⟩⟩
      have := hmuts r hr
      constructor <;> (intro hop; rw [hop] at this; cases this)
    · cases hc
  · cases hnone

theorem frameOf_append (x y : List (WalRecord μ)) (id : Nat) :
    frameOf (x ++ y) id = frameOf x id ++ frameOf y id := List.filter_append _ _

theorem mutationsOf_append (x y : List (WalRecord μ)) (id : Nat) :
    mutationsOf (x ++ y) id = mutationsOf x id ++ mutationsOf y id := by
  rw [mutationsOf, frameOf_append, List.filterMap_append]
  rfl

theorem Frame.at_commit {e : Nat} (hf : Frame (frameOf (x ++ r :: y) r.transactionId) (some e))
    (hr : r.operation = .commit) : r.sequence = e ∧ frameOf y r.transactionId = [] ∧
      (∀ z ∈ frameOf x r.transactionId, z.operation ≠ .commit) ∧
      committedIn (x ++ r :: y) r.transactionId = true := by
  obtain ⟨body, c, heq, hc, hseq, hbody⟩ := hf.commit_last
  have hr' : frameOf (r :: y) r.transactionId = r :: frameOf y r.transactionId := by simp [frameOf]
  rw [frameOf_append, hr'] at heq
  have hlast : frameOf y r.transactionId = [] := by
    rcases List.eq_nil_or_concat (frameOf y r.transactionId) with hnil | ⟨init, last, hconcat⟩
    · exact hnil
    rw [hconcat, List.concat_eq_append, ← List.cons_append, ← List.append_assoc] at heq
    have hin : r ∈ body := by
      rw [← (List.append_inj' heq rfl).1]
      simp
    exact absurd hr (hbody r hin).1
  rw [hlast] at heq
  obtain ⟨hx, hrc⟩ := List.append_inj' heq rfl
  obtain rfl : r = c := (List.cons.inj hrc).1
  refine ⟨hseq, hlast, fun z hz => (hbody z (hx ▸ hz)).1, ?_⟩
  have hno : ∀ z ∈ body ++ [r], z.operation ≠ .abort := by
    simp only [List.mem_append, List.mem_singleton]
    rintro z (hz | rfl)
    · exact (hbody z hz).2
    · simp [hr]
  rw [committedIn, frameOf_append, hr', hlast, hx, Bool.and_eq_true, Bool.not_eq_true',
    List.any_eq_true, List.any_eq_false]
  refine ⟨⟨r, by simp, by simp [hr]⟩, fun z hz => ?_⟩
  have := hno z hz
  cases hz' : z.operation <;> simp_all

/-- The second pass does what the log stands for, past `x`, with what the buffers hold of it. -/
theorem replay_eq_effects {committed : List (Nat × Nat)}
    (hstand : ∀ r ∈ x ++ y, r.transactionId = standaloneTransactionId →
      r.operation.isControl = false)
    (hframe : ∀ id, id ≠ standaloneTransactionId → Frame (frameOf (x ++ y) id) (committed.lookup id))
    {buffers : Nat → List μ}
    (hbuf : ∀ id, id ≠ standaloneTransactionId → (∀ z ∈ frameOf x id, z.operation ≠ .commit) →
      committed.lookup id ≠ none → buffers id = mutationsOf x id) (s : σ) :
    replayInSequenceOrder engine committed y buffers s =
      engine.run (y.flatMap (effectsAt (x ++ y))) s := by
  induction y generalizing x buffers s with
  | nil => rfl
  | cons r y ih =>
    have happ : x ++ r :: y = x ++ [r] ++ y := by simp
    have hnext := @ih (x ++ [r]) (happ ▸ hstand) (happ ▸ hframe)
    rw [← happ] at hnext
    -- The buffers still hold what has been logged, when this record adds nothing.
    have hkeep : ∀ {bufs : Nat → List μ} (added : List μ),
        (∀ id, id ≠ standaloneTransactionId → id ≠ r.transactionId → bufs id = buffers id) →
        (r.transactionId ≠ standaloneTransactionId → r.operation ≠ .commit →
          committed.lookup r.transactionId ≠ none → r.operation.mutation?.toList = added ∧
          bufs r.transactionId = buffers r.transactionId ++ added) →
        ∀ id, id ≠ standaloneTransactionId → (∀ z ∈ frameOf (x ++ [r]) id, z.operation ≠ .commit) →
          committed.lookup id ≠ none → bufs id = mutationsOf (x ++ [r]) id := by
      intro bufs added hother hself id hid hno hlook
      have hno' : ∀ z ∈ frameOf x id, z.operation ≠ .commit := fun z hz =>
        hno z (by rw [frameOf_append]; exact List.mem_append_left _ hz)
      rw [mutationsOf_append, ← hbuf id hid hno' hlook]
      by_cases heq : id = r.transactionId
      · subst heq
        obtain ⟨hadd, hbufs⟩ := hself hid (hno r (by simp [frameOf])) hlook
        rw [hbufs, ← hadd]
        cases hm : r.operation.mutation? <;> simp [mutationsOf, frameOf, hm]
      · rw [hother id hid heq]
        simp [mutationsOf, frameOf, Ne.symm heq]
    rw [List.flatMap_cons]
    by_cases hid : r.transactionId = standaloneTransactionId
    · have hop := hstand r (by simp) hid
      cases hr : r.operation with
      | mutation op =>
        rw [replayInSequenceOrder, effectsAt, if_pos hid, if_pos hid]
        simp only [hr, List.cons_append, List.nil_append, Replayer.run]
        cases happly : engine.apply op s with
        | mk res s' =>
          rcases res with e | u
          · rfl
          · exact hnext (hkeep [] (fun _ _ _ => rfl) fun h => absurd hid h) _
      | _ => simp [hr, WalOperation.isControl] at hop
    · have hf := hframe r.transactionId hid
      rw [replayInSequenceOrder, effectsAt, if_neg hid, if_neg hid]
      rcases hlook : committed.lookup r.transactionId with _ | e
      · -- A transaction that has not committed contributes nothing.
        rw [hlook] at hf
        have hr := hf.no_commit r (by simp [frameOf])
        rw [hnext (hkeep [] (fun _ _ _ => rfl) fun _ _ h => absurd hlook h)]
        cases hop : r.operation with
        | commit => exact absurd hop hr
        | _ => rfl
      rw [hlook] at hf
      cases hop : r.operation with
      | begin | abort =>
        exact hnext (hkeep [] (fun _ _ _ => rfl)
          fun _ _ _ => ⟨by rw [hop]; rfl, (List.append_nil _).symm⟩) s
      | mutation op =>
        exact hnext (hkeep [op] (fun id _ hne => Function.update_of_ne hne _ _)
          fun _ _ _ => ⟨by rw [hop]; rfl, Function.update_self _ _ _⟩) s
      | commit =>
        obtain ⟨hseq, hrest, hno, hcom⟩ := hf.at_commit hop
        have hmuts : mutationsOf (x ++ r :: y) r.transactionId = buffers r.transactionId := by
          have hnone : mutationsOf (r :: y) r.transactionId = [] := by
            rw [mutationsOf, frameOf, List.filter_cons_of_pos (by simp), ← frameOf, hrest]
            simp [hop, WalOperation.mutation?]
          rw [hbuf _ hid hno (by simp [hlook]), mutationsOf_append, hnone, List.append_nil]
        simp only [hseq, ne_eq, not_true_eq_false, if_false, hcom, if_true, hmuts]
        rw [List.append_assoc, run_applies]
        cases happly : engine.applyAll (buffers r.transactionId) s with
        | mk res s' =>
          rcases res with err | u
          · rfl
          exact hnext (hkeep [] (fun id _ hne => Function.update_of_ne hne _ _)
            fun _ h _ => absurd hop h) _

theorem replay_eq_schedule {committed : List (Nat × Nat)} (hasc : Ascending records)
    (hc : classifyTransactions records = .ok committed) (s : σ) :
    replayInSequenceOrder engine committed records (fun _ => []) s =
      engine.run (schedule records) s := by
  obtain ⟨hstand, hframe⟩ := classifyTransactions_frame hasc hc
  exact replay_eq_effects (x := []) hstand hframe (fun _ _ _ _ => rfl) s

theorem recover_eq_run (engine : Replayer μ σ) {committed : List (Nat × Nat)} {checkpoint : Nat}
    (hrecords : validateRecords records = .ok ()) (hasc : Ascending records)
    (hc : classifyTransactions (liveRecords checkpoint records) = .ok committed) (s : σ) :
    recover engine checkpoint (some records) s =
      engine.run (schedule (liveRecords checkpoint records)) s := by
  simp only [recover, hrecords, validateSequence_eq_ok.2 hasc, hc]
  exact replay_eq_schedule (hasc.filter _) hc s

end Replay

/-- Recovery applies exactly the committed operations, each at its position, and
    nothing at all when the first pass fails. -/
theorem recovery_applies_committed (engine : Replayer μ σ) (records : List (WalRecord μ))
    (hrecords : validateRecords records = .ok ()) (hsequence : validateSequence records = .ok ())
    (s : σ) :
    (∀ committed, classifyTransactions records = .ok committed →
      replayInSequenceOrder engine committed records (fun _ => []) s =
        engine.run (schedule records) s) ∧
    (∀ checkpoint committed, classifyTransactions (liveRecords checkpoint records) = .ok committed →
      recover engine checkpoint (some records) s =
        engine.run (schedule (liveRecords checkpoint records)) s) ∧
    ∀ checkpoint e, classifyTransactions (liveRecords checkpoint records) = .error e →
      recover engine checkpoint (some records) s = (.error e, s) := by
  have hasc := validateSequence_eq_ok.1 hsequence
  refine ⟨fun committed hc => replay_eq_schedule hasc hc s,
    fun checkpoint committed hc => recover_eq_run engine hrecords hasc hc s, fun checkpoint e he => ?_⟩
  simp only [recover, hrecords, hsequence, he]

/-- A log with a standalone mutation between the records of a transaction. -/
def sampleLog : List (WalRecord Nat) :=
  [⟨3, 1, 7, 1, .begin⟩, ⟨3, 2, 7, 2, .mutation 10⟩, ⟨3, 3, 0, 3, .mutation 20⟩,
    ⟨3, 4, 7, 4, .mutation 30⟩, ⟨3, 5, 7, 5, .commit⟩]

/-- An engine that remembers what has been applied to it. -/
def sampleEngine : Replayer Nat (List Nat) := ⟨fun op s => (.ok (), s ++ [op]), fun _ s => s⟩

theorem recovery_applies_committed_sample :
    (∀ committed, classifyTransactions sampleLog = .ok committed →
      replayInSequenceOrder sampleEngine committed sampleLog (fun _ => []) [] =
        sampleEngine.run (schedule sampleLog) []) ∧
    (∀ checkpoint committed, classifyTransactions (liveRecords checkpoint sampleLog) = .ok committed →
      recover sampleEngine checkpoint (some sampleLog) [] =
        sampleEngine.run (schedule (liveRecords checkpoint sampleLog)) []) ∧
    ∀ checkpoint e, classifyTransactions (liveRecords checkpoint sampleLog) = .error e →
      recover sampleEngine checkpoint (some sampleLog) [] = (.error e, []) :=
  recovery_applies_committed sampleEngine sampleLog rfl rfl []

example : schedule sampleLog =
    [.apply 20, .note 3, .apply 10, .apply 30, .note 5] := rfl

end FacetQL
