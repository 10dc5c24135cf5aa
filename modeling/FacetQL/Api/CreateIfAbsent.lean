import FacetQL.Api.Handlers

/-!
# Creating a node if it is absent

`create_node` with `if_absent` looks for the node in one call and writes it in the next one. What the
second call refuses is to overwrite the node of another owner; a node of the same owner, or any node
if an admin asks, is replaced.

* `created_once`: at most one request is told that it has created the node.
-/

namespace FacetQL

open GraphStore (act empty_wellFormed)

namespace CreateIfAbsent

variable {st : Settings} {ι : Type} [DecidableEq ι]

/-- A request to create this node if it is absent. -/
def IsCreate (address : String) (request : Request st) : Prop :=
  ∃ identity payload, request = .createNode identity payload ∧ payload.address = address ∧
    payload.ifAbsent = true

/-- The next call writes a node. -/
def Inserting (handler : Handler st) : Prop :=
  ∃ node targets isAdmin next, handler = .call (.insertWithEdges node targets isAdmin) next

/-- A request has been told that it has created its node. -/
def Created (handler : Handler st) : Prop := ∃ response, handler = .done response ∧
  response.status = .created

/-- The address names a node that this identity may overwrite. -/
def Overwritable (identity : Identity) (address : String) (db : GraphStore) : Prop :=
  ∃ node, db.view.readNode address = .ok (some node) ∧
    (identity.isAdmin || node.canWrite identity.owner) = true

section Conditions

variable (address : String) (requests : ι → Request st) (i : ι) (p q : Server st ι)

/-- The node of the address is not deleted. -/
def Undeleted : Prop := p.store.view.containsNode address → q.store.view.containsNode address

/-- The step leaves no node that a requester who has found nothing there may overwrite. -/
def Unrivalled : Prop :=
  ∀ j, j ≠ i → IsCreate address (requests j) → Inserting (p.threads j) →
    ¬ Overwritable (requests j).identity address q.store

end Conditions

/-! ## What is asserted of the requests -/

variable {address : String}

/-- Where a request can be: before its first call or its write, or answered, and how it stands
    then. -/
inductive CreateAt (identity : Identity) (payload : CreateNodeRequest) (db : GraphStore) :
    Handler st → Prop
  | start : CreateAt identity payload db (createNode st identity payload)
  | inserting (h : ¬ Overwritable identity payload.address db) : CreateAt identity payload db
      (.call (.insertWithEdges (payload.node identity.owner) payload.edges identity.isAdmin)
        fun result => .done (createNode.answer payload.address result))
  | answered (response : Response)
      (h : response.status = .created → db.view.containsNode payload.address) :
      CreateAt identity payload db (.done response)

/-- What is asserted of a request, by what it is. -/
structure At (address : String) (request : Request st) (handler : Handler st) (db : GraphStore) :
    Prop where
  wellFormed : db.WellFormed
  create : ∀ identity payload, request = .createNode identity payload →
    payload.address = address → payload.ifAbsent = true → CreateAt identity payload db handler

/-! ## What a step does -/

variable {requests : ι → Request st} {i : ι} {p q : Server st ι}

theorem CreateAt.failed {identity : Identity} {payload : CreateNodeRequest} {db : GraphStore}
    {response : Response} (h : response.status ≠ .created) :
    CreateAt identity payload db (.done response : Handler st) ∧
      ¬ Created (.done response : Handler st) :=
  ⟨.answered response fun hcreated => absurd hcreated h,
    fun ⟨_, hdone, hcreated⟩ => h (Program.done.inj hdone ▸ hcreated)⟩

/-- A step of a request leaves the database as it was, or creates a node that was not there. -/
theorem CreateAt.step {identity : Identity} {payload : CreateNodeRequest}
    (habsent : payload.ifAbsent = true) (hdb : p.store.WellFormed)
    (hat : CreateAt identity payload p.store (p.threads i))
    (hstep : Pool.Step (act st) i p q) :
    (q.store = p.store ∧ CreateAt identity payload q.store (q.threads i) ∧
      ¬ Created (q.threads i)) ∨
    (¬ p.store.view.containsNode payload.address ∧ q.store.view.containsNode payload.address ∧
      CreateAt identity payload q.store (q.threads i)) := by
  generalize hthread : p.threads i = handler at hat
  cases hat with
  | start =>
    have hcall : p.threads i = .call (.get payload.address) _ := hthread
    obtain ⟨stamp, rfl⟩ := hstep.exists_after hcall
    refine .inl ⟨rfl, ?_⟩
    rw [Pool.threads_after, Pool.store_after]
    rcases hread : (act st stamp (.get payload.address) p.store).1 with e | _ | existing
    · exact CreateAt.failed (storageFailure_status e (by decide) (by decide))
    · simp only [Option.isSome_none, Bool.and_false, Bool.false_eq_true, if_false]
      have hnone : p.store.view.readNode payload.address = .ok none := hread
      refine ⟨.inserting fun ⟨node, hnode, _⟩ => ?_, fun ⟨_, hdone, _⟩ => by cases hdone⟩
      cases hnone.symm.trans hnode
    · simp only [habsent, Option.isSome_some, Bool.and_self, if_true]
      exact CreateAt.failed (by simp [Response.text])
  | inserting hfree =>
    obtain ⟨stamp, rfl⟩ := hstep.exists_after hthread
    rw [Pool.threads_after, Pool.store_after]
    rcases GraphStore.insertWithEdges_cases st hdb stamp (payload.node identity.owner) payload.edges
      identity.isAdmin with ⟨e, hinsert⟩ | ⟨previous, edges, db', hread, hallowed, hinsert, hwrote⟩
    · rw [show act st stamp (.insertWithEdges ..) _ = _ from hinsert]
      exact .inl ⟨rfl, CreateAt.failed createNode.answer_status⟩
    · rw [show act st stamp (.insertWithEdges ..) _ = _ from hinsert]
      have hcontains : db'.view.containsNode payload.address :=
        View.containsNode_of_readNode hwrote.written
      refine .inr ⟨?_, hcontains, .answered _ fun _ => hcontains⟩
      -- What the call would have replaced is a node that the requester may overwrite.
      rcases previous with _ | old
      · have hnone : SortedMap.find (utf8 payload.address) p.store.view.primary = none :=
          View.readNode_eq_none.1 hread
        rw [View.containsNode, hnone]
        simp
      · exact absurd ⟨old, hread, hallowed old rfl⟩ hfree
  | answered response h => exact absurd hthread (hstep.ne_done response)

theorem At.contains {request : Request st} {handler : Handler st} {db : GraphStore}
    (h : At address request handler db) (hcreate : IsCreate address request)
    (hcreated : Created handler) : db.view.containsNode address := by
  obtain ⟨identity, payload, hrequest, rfl, habsent⟩ := hcreate
  obtain ⟨response, rfl, hstatus⟩ := hcreated
  cases h.create identity payload hrequest rfl habsent with
  | answered _ h => exact h hstatus

theorem At.own (hA : ∀ j, At address (requests j) (p.threads j) p.store)
    (hstep : Pool.Step (act st) i p q) :
    At address (requests i) (q.threads i) q.store where
  wellFormed := Server.wellFormed (hA i).wellFormed hstep
  create identity payload hrequest haddress habsent := by
    rcases ((hA i).create identity payload hrequest haddress habsent).step habsent
      (hA i).wellFormed hstep with ⟨-, hat, -⟩ | ⟨-, -, hat⟩
    · exact hat
    · exact hat

theorem At.other {j : ι} (hj : j ≠ i) (hA : ∀ j, At address (requests j) (p.threads j) p.store)
    (hstep : Pool.Step (act st) i p q) (hundeleted : Undeleted address p q)
    (hunrivalled : Unrivalled address requests i p q) :
    At address (requests j) (p.threads j) q.store where
  wellFormed := Server.wellFormed (hA i).wellFormed hstep
  create identity payload hrequest haddress habsent := by
    have hat := (hA j).create identity payload hrequest haddress habsent
    have hfree := hunrivalled j hj ⟨identity, payload, hrequest, haddress, habsent⟩
    generalize p.threads j = handler at hat hfree ⊢
    subst haddress
    cases hat with
    | start => exact .start
    | inserting h =>
      rw [hrequest] at hfree
      exact .inserting (hfree ⟨_, _, _, _, rfl⟩)
    | answered response h => exact .answered response fun hstatus => hundeleted (h hstatus)

/-- A request creates its node only where there is none, and then no other one has created it. -/
theorem At.first (hA : ∀ j, At address (requests j) (p.threads j) p.store)
    (hstep : Pool.Step (act st) i p q) (hi : IsCreate address (requests i))
    (hcreated : Created (q.threads i)) : ¬ p.store.view.containsNode address := by
  obtain ⟨identity, payload, hrequest, rfl, habsent⟩ := hi
  rcases ((hA i).create identity payload hrequest rfl habsent).step habsent
    (hA i).wellFormed hstep with ⟨-, -, hfailed⟩ | ⟨hfree, -, -⟩
  · exact absurd hcreated hfailed
  · exact hfree

end CreateIfAbsent

open CreateIfAbsent

/-- However requests are interleaved that do not delete a node: if, while a request to create it if
    absent has found nothing and not yet written it, no other one leaves a node that the requester
    may overwrite, then at most one of these requests is told that it has created the node, and the
    node was not there when it was written. -/
theorem created_once {st : Settings} {ι : Type} [DecidableEq ι] (address : String)
    (requests : ι → Request st) {db : GraphStore} (hdb : db.WellFormed) {p : Server st ι}
    (hrun : Pool.Steps (act st)
      (fun i p q => Undeleted address p q ∧ Unrivalled address requests i p q)
      (Server.start requests db) p) :
    (∀ i j, IsCreate address (requests i) → IsCreate address (requests j) →
      Created (p.threads i) → Created (p.threads j) → i = j) ∧
    ∀ i q, IsCreate address (requests i) → Pool.Step (act st) i p q →
      Created (q.threads i) → ¬ p.store.view.containsNode address := by
  have hstart : ∀ j, At address (requests j) ((Server.start requests db).threads j) db := by
    refine fun j => ⟨hdb, fun identity payload hrequest _ _ => ?_⟩
    change CreateAt identity payload db (requests j).handler
    rw [hrequest]
    exact .start
  have hunstarted : (Server.start requests db).AtMostOne (fun i => IsCreate address (requests i))
      Created := by
    rintro i j ⟨identity, payload, hrequest, -⟩ - ⟨response, hdone, -⟩
    simp [Server.start, hrequest, Request.handler, createNode] at hdone
  obtain ⟨hA, hunique⟩ := hrun.invariant
    (I := fun p => (∀ j, At address (requests j) (p.threads j) p.store) ∧
      p.AtMostOne (fun i => IsCreate address (requests i)) Created) ⟨hstart, hunstarted⟩ (by
    intro i p q ⟨hA, hunique⟩ hstep ⟨hundeleted, hunrivalled⟩
    refine ⟨fun j => ?_, hunique.step hstep fun hi hcreated j _ hj hother => ?_⟩
    · by_cases hj : j = i
      · exact hj ▸ At.own hA hstep
      · rw [hstep.threads_of_ne hj]
        exact At.other hj hA hstep hundeleted hunrivalled
    · exact At.first hA hstep hi hcreated ((hA j).contains hj hother))
  exact ⟨hunique, fun i q hi hstep hcreated => At.first hA hstep hi hcreated⟩

namespace CreateIfAbsent

/-- A request to create a node only if there is none. -/
def tick : CreateNodeRequest := ⟨"tick", "tick", ⟨0, 0, 0, 0⟩, "", none, [], true⟩

/-- Two requests of one identity to create the same node. -/
def rivals : Bool → Request .plain := fun _ => .createNode ⟨"alice", .user⟩ tick

/-- Both find nothing, and then both write the node. -/
def bothLook : List (Bool × Stamp) := [(false, ⟨0, 0⟩), (true, ⟨0, 0⟩), (false, ⟨0, 0⟩), (true, ⟨0, 0⟩)]

/-- Both requests have looked, and neither has found a node. -/
def rivalled : Server .plain Bool :=
  Pool.play (act .plain) bothLook (Server.start rivals .empty)

instance (address : String) (p q : Server .plain Bool) : Decidable (Undeleted address p q) :=
  inferInstanceAs (Decidable (_ → _))

end CreateIfAbsent

theorem created_twice :
    Pool.Steps (act .plain) (fun _ p q => Undeleted "tick" p q)
      (Server.start rivals .empty) rivalled ∧
    IsCreate "tick" (rivals false) ∧ IsCreate "tick" (rivals true) ∧ Created (rivalled.threads false) ∧
    Created (rivalled.threads true) := by
  have hmeets : Pool.Meets (act .plain) (fun _ p q => Undeleted "tick" p q) bothLook
      (Server.start rivals .empty) := by decide +kernel
  have hfirst : Handler.response? (rivalled.threads false) = some ⟨.created, .created "tick" []⟩ := by
    decide +kernel
  have hsecond : Handler.response? (rivalled.threads true) = some ⟨.created, .created "tick" []⟩ := by
    decide +kernel
  refine ⟨Pool.steps_play hmeets, ⟨_, _, rfl, rfl, rfl⟩, ⟨_, _, rfl, rfl, rfl⟩, ?_, ?_⟩
  · exact ⟨_, Handler.eq_done hfirst, rfl⟩
  · exact ⟨_, Handler.eq_done hsecond, rfl⟩

namespace CreateIfAbsent

theorem meets_alone {i : Bool} {p : Server .plain Bool} (hdb : p.store.WellFormed)
    (hat : CreateAt ⟨"alice", .user⟩ tick p.store (p.threads i))
    (hothers : ∀ j, j ≠ i → ¬ Inserting (p.threads j)) {steps : List (Bool × Stamp)}
    (hsteps : ∀ entry ∈ steps, entry.1 = i) :
    Pool.Meets (act .plain)
      (fun i p q => Undeleted "tick" p q ∧ Unrivalled "tick" rivals i p q) steps p := by
  refine Pool.meets_of_invariant (I := fun p => p.store.WellFormed ∧
    CreateAt ⟨"alice", .user⟩ tick p.store (p.threads i) ∧
    ∀ j, j ≠ i → ¬ Inserting (p.threads j)) ⟨hdb, hat, hothers⟩ ?_
  rintro entry hentry p q ⟨hdb, hat, hothers⟩ hstep
  obtain rfl := hsteps entry hentry
  have hkept : ∀ j, j ≠ entry.1 → ¬ Inserting (q.threads j) := fun j hj =>
    hstep.threads_of_ne hj ▸ hothers j hj
  have hdb' := Server.wellFormed hdb hstep
  rcases hat.step rfl hdb hstep with ⟨hstore, hat', -⟩ | ⟨-, hcontains, hat'⟩
  · exact ⟨⟨fun h => hstore ▸ h, fun j hj _ hinserting => absurd hinserting (hothers j hj)⟩,
      hdb', hat', hkept⟩
  · exact ⟨⟨fun _ => hcontains, fun j hj _ hinserting => absurd hinserting (hothers j hj)⟩,
      hdb', hat', hkept⟩

/-- The first request is answered before the second one looks. -/
def answeredFirst : Server .plain Bool :=
  Pool.play (act .plain) [(false, ⟨0, 0⟩), (false, ⟨0, 0⟩)] (Server.start rivals .empty)

/-- The second request has been answered as well. -/
def answeredBoth : Server .plain Bool :=
  Pool.play (act .plain) [(true, ⟨0, 0⟩), (true, ⟨0, 0⟩)] answeredFirst

theorem answeredFirst_created :
    Handler.response? (answeredFirst.threads false) = some ⟨.created, .created "tick" []⟩ := by
  decide +kernel

theorem steps_answeredBoth : Pool.Steps (act .plain)
    (fun i p q => Undeleted "tick" p q ∧ Unrivalled "tick" rivals i p q)
    (Server.start rivals .empty) answeredBoth := by
  have hfirst : Pool.Steps (act .plain)
      (fun i p q => Undeleted "tick" p q ∧ Unrivalled "tick" rivals i p q)
      (Server.start rivals .empty) answeredFirst := by
    refine Pool.steps_play (meets_alone (i := false) empty_wellFormed .start ?_ (by simp))
    rintro j - ⟨node, targets, isAdmin, next, hinserting⟩
    cases j <;> cases hinserting
  have hdb : answeredFirst.store.WellFormed := by
    exact hfirst.invariant (I := fun p => p.store.WellFormed) empty_wellFormed
      fun _ _ _ hdb hstep _ => Server.wellFormed hdb hstep
  refine hfirst.trans (Pool.steps_play (meets_alone (i := true) hdb .start ?_ (by simp)))
  rintro j hj ⟨node, targets, isAdmin, next, hinserting⟩
  obtain rfl : j = false := by simpa using hj
  cases (Handler.eq_done answeredFirst_created).symm.trans hinserting

end CreateIfAbsent

theorem created_once_rivals :
    Created (answeredBoth.threads false) ∧ ¬ Created (answeredBoth.threads true) := by
  have hanswer : Handler.response? (answeredBoth.threads false) = some ⟨.created, .created "tick" []⟩ := by
    decide +kernel
  have hcreated : Created (answeredBoth.threads false) := ⟨_, Handler.eq_done hanswer, rfl⟩
  obtain ⟨honce, -⟩ := created_once "tick" rivals empty_wellFormed steps_answeredBoth
  refine ⟨hcreated, fun hother => ?_⟩
  exact absurd (honce false true ⟨_, _, rfl, rfl, rfl⟩ ⟨_, _, rfl, rfl, rfl⟩ hcreated hother) (by decide)

end FacetQL
