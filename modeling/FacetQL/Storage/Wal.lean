import FacetQL.Storage.Page

/-!
# The write-ahead log

The records of `storage/wal.rs` and the counters their identifiers come from. The
mutations a record can carry are a parameter `μ`: the log and the recovery from
it only tell them from the records that open and close a transaction.
-/

namespace FacetQL

/-- The format of the records. -/
def walFormatVersion : Nat := 3

/-- The transaction id of a record that is not part of a transaction. -/
def standaloneTransactionId : Nat := 0

/-- A logged operation: a control record of a transaction, or a mutation. -/
inductive WalOperation (μ : Type)
  | begin
  | commit
  | abort
  | mutation (op : μ)
  deriving DecidableEq, Repr

/-- The record is a control record of a transaction. -/
def WalOperation.isControl {μ : Type} : WalOperation μ → Bool
  | begin => true
  | commit => true
  | abort => true
  | mutation _ => false

/-- The mutation an operation carries. -/
def WalOperation.mutation? {μ : Type} : WalOperation μ → Option μ
  | mutation op => some op
  | _ => none

/-- A record of the log. -/
structure WalRecord (μ : Type) where
  formatVersion : Nat
  sequence : Nat
  transactionId : Nat
  operationId : Nat
  operation : WalOperation μ
  deriving DecidableEq, Repr

/-- The next identifiers that are handed out. -/
structure Counters where
  sequence : Nat
  transactionId : Nat
  operationId : Nat
  deriving DecidableEq, Repr

namespace Counters

/-- The counters of a new process. -/
def new : Counters := ⟨1, 1, 1⟩

/-- Move a counter past a value that is in use. -/
def advanceCounter (counter observedMax : Nat) : Nat := max counter (observedMax + 1)

/-- Move the counters past values that are in use. -/
def initializeCounters (c : Counters) (maxSequence maxTransactionId maxOperationId : Nat) : Counters :=
  ⟨advanceCounter c.sequence maxSequence, advanceCounter c.transactionId maxTransactionId,
    advanceCounter c.operationId maxOperationId⟩

end Counters

/-- The log without the records at or below the durable checkpoint. -/
def rotate {μ : Type} (durableCheckpoint : Nat) (records : List (WalRecord μ)) : List (WalRecord μ) :=
  records.filter fun r => durableCheckpoint < r.sequence

end FacetQL
