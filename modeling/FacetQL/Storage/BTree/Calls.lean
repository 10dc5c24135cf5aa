import FacetQL.Storage.BTree.Tree

/-!
# Runs of a tree

A tree is changed by one call after the other.
-/

namespace FacetQL

namespace BTree

open Machine SortedMap

/-- A call that changes a tree. -/
inductive Call
  | put (key value : Bytes)
  | remove (key : Bytes)
  | commit
  deriving DecidableEq

/-- What a call answers: a removal says whether the key was present. -/
inductive Reply
  | done
  | removed (present : Bool)
  deriving DecidableEq

namespace Call

/-- The program of a call. -/
def program : Call → TreeProgram Reply
  | put key value => do
    BTree.put key value
    return .done
  | remove key => do
    let present ← BTree.remove key
    return .removed present
  | commit => do
    BTree.commit
    return .done

/-- A put has a key and a value of legal length. -/
def Accepted : Call → Prop
  | put key value => Accepts key value
  | _ => True

instance (c : Call) : Decidable c.Accepted := by
  cases c <;> unfold Accepted <;> infer_instance

/-- Is this a put? -/
def isPut : Call → Bool
  | put _ _ => true
  | _ => false

/-- What a call does to the entries. -/
def edit : Call → List (Bytes × Bytes) → List (Bytes × Bytes)
  | put key value, l => SortedMap.insert key value l
  | remove key, l => SortedMap.erase key l
  | commit, l => l

/-- What a call answers, from the entries before it. -/
def replyOf : Call → List (Bytes × Bytes) → Reply
  | remove key, l => .removed (find key l).isSome
  | _, _ => .done

/-- The key a call descends to. -/
def key? : Call → Option Bytes
  | put key _ => some key
  | remove key => some key
  | commit => none

end Call

/-- Run calls one after the other, with what each of them answers. -/
def runCalls : List Call → Machine → List (Except IoError Reply) × Machine
  | [], m => ([], m)
  | c :: cs, m => ((m.run c.program).1 :: (runCalls cs (m.run c.program).2).1,
      (runCalls cs (m.run c.program).2).2)

/-- A call on a tree of level `h` has succeeded and left a tree of level `h'`. -/
structure CallOk (c : Call) (m : Machine) (h : Nat) (m' : Machine) (h' : Nat) : Prop where
  inv : TreeInv m' h'
  contents : contents m' h' = c.edit (contents m h)
  spent : spent m' h' ≤ spent m h + if c.isPut then maxBranchCell else 0
  level : ∀ k ∈ c.key?, h < maxTreeDepth
  moved : ∀ k ∈ c.key?, Moved m m' (inPlace m (pathAt m.pager.page? k h m.state.root))
    (treePages m h) (treePages m' h')
  committed : c = .commit → m' = committed m
  absent : ∀ k, c = .remove k → find k (BTree.contents m h) = none → m' = m

variable {m m' : Machine} {h h' : Nat}

/-- A put that is refused changes nothing. -/
theorem run_refused {c : Call} (hc : ¬ c.Accepted) : ∃ e, m.run c.program = (.error e, m) := by
  cases c with
  | put k v =>
    obtain ⟨e, hrun⟩ := run_put_refused (m := m) hc
    exact ⟨e, by rw [Call.program, run_bind_error hrun]⟩
  | _ => exact absurd trivial hc

/-- From a tree in order a call succeeds, or it is refused or too deep and changes nothing. -/
theorem run_call (hinv : TreeInv m h) (c : Call) :
    (∃ m' h', m.run c.program = (.ok (c.replyOf (contents m h)), m') ∧ CallOk c m h m' h') ∨
    (∃ e, m.run c.program = (.error e, m)) ∧ (¬ c.Accepted ∨ c ≠ .commit ∧ maxTreeDepth ≤ h) := by
  cases c with
  | put k v =>
    by_cases hkv : Accepts k v
    · rcases lt_or_ge h maxTreeDepth with hh | hh
      · obtain ⟨m', h', hrun, hinv', hcontents, hmoved, hspent⟩ := run_put hinv hh hkv
        refine .inl ⟨m', h', ?_, hinv', hcontents, hspent, fun _ _ => hh, ?_, by simp, by simp⟩
        · rw [Call.program, run_bind_ok hrun]
          rfl
        · rintro _ ⟨⟩
          exact hmoved
      · obtain ⟨e, hrun⟩ := run_put_deep (k := k) (v := v) hinv hh
        exact .inr ⟨⟨e, by rw [Call.program, run_bind_error hrun]⟩, .inr ⟨by simp, hh⟩⟩
    · exact .inr ⟨run_refused hkv, .inl hkv⟩
  | remove k =>
    rcases lt_or_ge h maxTreeDepth with hh | hh
    · obtain ⟨m', h', hrun, hinv', hcontents, hmoved, hspent, habsent⟩ := run_remove hinv hh k
      refine .inl ⟨m', h', ?_, hinv', hcontents, hspent, fun _ _ => hh, ?_, by simp, ?_⟩
      · rw [Call.program, run_bind_ok hrun]
        rfl
      · rintro _ ⟨⟩
        exact hmoved
      · rintro _ ⟨⟩
        exact habsent
    · exact .inr ⟨⟨_, by rw [Call.program, run_bind_error (run_remove_deep hinv hh k)]⟩,
        .inr ⟨by simp, hh⟩⟩
  | commit =>
    obtain ⟨hinv', hcontents, -, hspent⟩ := hinv.committed
    refine .inl ⟨committed m, h, ?_, hinv', hcontents, hspent.le, by simp [Call.key?],
      by simp [Call.key?], fun _ => rfl, by simp⟩
    rw [Call.program, run_bind_ok (run_commit m)]
    rfl

end BTree

end FacetQL
