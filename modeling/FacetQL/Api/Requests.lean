import FacetQL.Api.Handlers
import FacetQL.Storage.Uniqueness

/-!
# Requests side by side

Between two calls of a request any calls of others can fall. Each one does nothing to the database,
or applies a batch that the checks have admitted.

* `requests_keep_indexes`: the indexes hold what the nodes say, and the unique ones are unique.
-/

namespace FacetQL

open GraphStore (act)

variable {st : Settings}

namespace GraphStore

/-- A batch that passes the checks on its operations, on unique values and on references. -/
def Admits (st : Settings) (db : GraphStore) (ops : List Operation) : Prop :=
  db.checkBatch st ops = .ok () ∧ ∀ op ∈ ops, db.view.validate st op = .ok ()

/-- A call does nothing to the database, or applies a batch that is admitted. -/
theorem act_applied (db : GraphStore) (stamp : Stamp) (call : Call st) : ∃ batch,
    (db.act st stamp call).2 = db.applied st batch ∧ ∀ ops ∈ batch, db.Admits st ops := by
  have hmutate (m : Mutation st) (hm : (∀ decl, m ≠ .createIndex decl) ∧
      ∀ name, m ≠ .dropIndex name) : ∃ batch, db.mutate st stamp m = db.applied st batch ∧
        ∀ ops ∈ batch, db.Admits st ops :=
    ⟨_, mutate_eq_applied m hm, fun _ h => batch_checked h⟩
  cases call with
  | get | findEdge | deleteWhereTargets => exact ⟨none, rfl, by simp⟩
  | insert node => exact hmutate (.insert node) (by simp)
  | claim address worker => exact hmutate (.claim address worker) (by simp)
  | delete address => exact hmutate (.delete address) (by simp)
  | insertEdge edge =>
    -- A single edge is the one call that is not among the mutations.
    rw [act, insertEdge]
    repeat' split
    all_goals first
      | exact ⟨none, rfl, by simp⟩
      | refine ⟨_, applyAtomic_eq_applied _, fun ops h => ?_⟩
        obtain ⟨rfl, hchecks⟩ := admitted_some h
        exact hchecks
  | insertWithEdges node targets isAdmin =>
    exact hmutate (.insertWithEdges node targets isAdmin) (by simp)
  | executeTransaction ops => exact hmutate (.executeTransaction ops) (by simp)

end GraphStore

section

variable {ι : Type} [DecidableEq ι] {requests : ι → Request st} {db : GraphStore} {p : Server st ι}
  (hdb : MutationRun st db)
  (hrun : Pool.Steps (act st) (fun _ _ _ => True) (Server.start requests db) p)
include hdb hrun

/-- What every mutation keeps holds at every moment of the requests. -/
theorem Server.sound : p.store.Sound st := by
  refine hrun.invariant (I := fun p => p.store.Sound st) hdb.sound fun i p q hp hstep _ => ?_
  obtain ⟨-, stamp⟩ := hstep
  rename_i call _
  obtain ⟨_ | ops, heq, hadmits⟩ := p.store.act_applied stamp call
  · rwa [Pool.store_after, heq]
  · rw [Pool.store_after, heq]
    exact hp.applied (hadmits ops rfl).1 (hadmits ops rfl).2

/-- However requests interleave, the indexes hold just what the live nodes say, and no two of them share
    a value that is to be unique. -/
theorem requests_keep_indexes : p.store.view.Consistent st ∧ p.store.view.Unique st :=
  ⟨(Server.sound hdb hrun).consistent, (Server.sound hdb hrun).unique⟩

end

namespace Requests

open Uniqueness

/-- Two requests to delete the same node. -/
def rivals : Bool → Request .textual := fun _ => .deleteNode ⟨"alice", .user⟩ "a"

/-- Both have read the node that they are about to delete, and one of them has deleted it. -/
def raced : Server .textual Bool :=
  Pool.play (act .textual) [(false, ⟨0, 0⟩), (true, ⟨0, 0⟩), (false, ⟨0, 0⟩)] (Server.start rivals twoUsers)

theorem raced_run :
    Pool.Steps (act .textual) (fun _ _ _ => True) (Server.start rivals twoUsers) raced :=
  Pool.steps_play (Pool.meets_of_invariant (I := fun _ => True) trivial
    fun _ _ _ _ _ _ => ⟨trivial, trivial⟩)

theorem requests_keep_indexes_raced :
    raced.store.view.Consistent .textual ∧ raced.store.view.Unique .textual :=
  requests_keep_indexes twoUsers_run raced_run

end Requests

end FacetQL
