import FacetQL.Api.Handlers

/-!
# Leases

`claim_node` takes the lease on a node once: the engine reads the node and writes it back under one
lock. `update_node` does not: it writes back the node that an earlier call of it has read, lease
included. A lease that is taken in between is lost, and can be taken again.

* `lease_taken_once`: when a lease is taken at most once.
-/

namespace FacetQL

open GraphStore (act)
open Pool (Step Steps play steps_play store_after threads_after)

namespace Leases

variable {st : Settings} {ι : Type} [DecidableEq ι]

/-- A request to claim this node. -/
def IsClaim (address : String) (request : Request st) : Prop :=
  ∃ identity, request = .claimNode identity address

/-- A request to update this node. -/
def IsUpdate (address : String) (request : Request st) : Prop :=
  ∃ identity payload, request = .updateNode identity address payload

/-- The next call writes a node back. -/
def Writing (handler : Handler st) : Prop := ∃ node next, handler = .call (.insert node) next

/-- The next call takes a lease. -/
def Claiming (handler : Handler st) : Prop :=
  ∃ address worker next, handler = .call (.claim address worker) next

/-- A request has been answered with success. -/
def Succeeded (handler : Handler st) : Prop := ∃ response, handler = .done response ∧
  response.status = .ok

/-- Nobody holds the lease on a node that is there. -/
def Unclaimed (address : String) (db : GraphStore) : Prop :=
  ∃ node, db.view.readNode address = .ok (some node) ∧ node.claimedBy = none

section Conditions

variable (address : String) (requests : ι → Request st) (i : ι) (p q : Server st ι)

/-- No request but the claims and updates of a node touches it. -/
def Undisturbed : Prop :=
  ¬ IsClaim address (requests i) → ¬ IsUpdate address (requests i) →
    q.store.view.readNode address = p.store.view.readNode address

/-- No lease is taken while an update has read the node and not yet written it back. -/
def Unraced : Prop :=
  IsClaim address (requests i) → Claiming (p.threads i) → Unclaimed address p.store →
    ∀ j, IsUpdate address (requests j) → ¬ Writing (p.threads j)

end Conditions

/-! ## What is asserted of the requests -/

variable {address : String}

/-- Somebody holds the lease. -/
def Leased (address : String) (db : GraphStore) : Prop :=
  ∃ node, db.view.readNode address = .ok (some node) ∧ node.claimedBy ≠ none

/-- Where a claim can be. It is answered with success only if the lease is held. -/
inductive ClaimAt (identity : Identity) (address : String) (db : GraphStore) : Handler st → Prop
  | start : ClaimAt identity address db (claimNode st identity address)
  | claiming : ClaimAt identity address db
      (.call (.claim address identity.owner) fun result => .done (claimNode.answer result))
  | answered (response : Response) (h : response.status = .ok → Leased address db) :
      ClaimAt identity address db (.done response)

/-- Where an update can be. Before it writes the node back, it has the lease as it stands. -/
inductive UpdateAt (identity : Identity) (address : String) (payload : UpdateNodeRequest)
    (db : GraphStore) : Handler st → Prop
  | start : UpdateAt identity address payload db (updateNode st identity address payload)
  | writing {node current : Node} (haddress : node.address = address)
      (hread : db.view.readNode address = .ok (some current))
      (hclaimed : node.claimedBy = current.claimedBy) :
      UpdateAt identity address payload db
        (.call (.insert node) fun result => .done (updateNode.answer result))
  | answered (response : Response) : UpdateAt identity address payload db (.done response)

/-- What is asserted of a request, by what it is. -/
structure At (address : String) (request : Request st) (handler : Handler st) (db : GraphStore) :
    Prop where
  wellFormed : db.WellFormed
  claim : ∀ identity, request = .claimNode identity address → ClaimAt identity address db handler
  update : ∀ identity payload, request = .updateNode identity address payload →
    UpdateAt identity address payload db handler

/-! ## What a step does -/

variable {requests : ι → Request st} {i : ι} {p q : Server st ι}

theorem not_succeeded_refusal (node : Node) (requester : String) :
    (claimNode.refusal node requester).status ≠ .ok := by
  rw [claimNode.refusal]
  split <;> simp [Response.text]

theorem answer_status {e : ClaimError} : (claimNode.answer (.error e)).status ≠ .ok := by
  cases e <;> simp [claimNode.answer, Response.text]

theorem ClaimAt.failed {identity : Identity} {db : GraphStore} {response : Response}
    (h : response.status ≠ .ok) :
    ClaimAt identity address db (.done response : Handler st) ∧
      ¬ Succeeded (.done response : Handler st) :=
  ⟨.answered response fun hok => absurd hok h, fun ⟨_, hdone, hok⟩ => h (Program.done.inj hdone ▸ hok)⟩

theorem ClaimAt.step {identity : Identity} (hdb : p.store.WellFormed)
    (hat : ClaimAt identity address p.store (p.threads i))
    (hstep : Step (act st) i p q) :
    (q.store = p.store ∧ ClaimAt identity address q.store (q.threads i) ∧
      ¬ Succeeded (q.threads i)) ∨
    (Claiming (p.threads i) ∧ ∃ node, p.store.view.readNode address = .ok (some node) ∧
      node.claimedBy = none ∧
      p.store.Wrote { node with claimedBy := some identity.owner } q.store ∧
      q.threads i = .done (.text .ok "claimed")) := by
  generalize hthread : p.threads i = handler at hat
  cases hat with
  | start =>
    have hcall : p.threads i = .call (.get address) _ := hthread
    obtain ⟨stamp, rfl⟩ := hstep.exists_after hcall
    refine .inl ⟨rfl, ?_⟩
    rw [threads_after, store_after]
    rcases hread : (act st stamp (.get address) p.store).1 with e | existing
    · exact ClaimAt.failed (storageFailure_status e (by decide) (by decide))
    simp only
    split
    · exact ClaimAt.failed (not_succeeded_refusal _ _)
    · exact ⟨.claiming, fun ⟨_, hdone, _⟩ => by cases hdone⟩
  | claiming =>
    obtain ⟨stamp, rfl⟩ := hstep.exists_after hthread
    rw [threads_after, store_after]
    rcases GraphStore.claim_cases st hdb stamp address identity.owner with
      ⟨e, hclaim⟩ | ⟨node, db', hread, hunclaimed, hclaim, hwrote⟩
    · rw [show act st stamp (.claim ..) _ = _ from hclaim]
      exact .inl ⟨rfl, ClaimAt.failed answer_status⟩
    · rw [show act st stamp (.claim ..) _ = _ from hclaim]
      exact .inr ⟨⟨_, _, _, rfl⟩, node, hread, hunclaimed, hwrote, rfl⟩
  | answered response h => exact absurd hthread (hstep.ne_done response)

/-- A step of an update leaves the database, or writes the node back with the lease it has. -/
theorem UpdateAt.step {identity : Identity} {payload : UpdateNodeRequest}
    (hdb : p.store.WellFormed) (hat : UpdateAt identity address payload p.store (p.threads i))
    (hstep : Step (act st) i p q) :
    (q.store = p.store ∧ UpdateAt identity address payload q.store (q.threads i)) ∨
    ∃ node current, node.address = address ∧
      p.store.view.readNode address = .ok (some current) ∧ node.claimedBy = current.claimedBy ∧
      p.store.Wrote node q.store ∧ UpdateAt identity address payload q.store (q.threads i) := by
  generalize hthread : p.threads i = handler at hat
  cases hat with
  | start =>
    have hcall : p.threads i = .call (.get address) _ := hthread
    obtain ⟨stamp, rfl⟩ := hstep.exists_after hcall
    refine .inl ⟨rfl, ?_⟩
    rw [threads_after, store_after]
    rcases hread : (act st stamp (.get address) p.store).1 with e | _ | existing
    · exact .answered _
    · exact .answered _
    simp only
    split
    · exact .answered _
    · have haddress : existing.address = address := View.WellFormed.address_eq hdb hread
      exact .writing haddress hread rfl
  | writing haddress hread hclaimed =>
    obtain ⟨stamp, rfl⟩ := hstep.exists_after hthread
    rw [threads_after, store_after]
    rename_i node current
    rcases GraphStore.insert_cases st hdb stamp node with ⟨message, hinsert⟩ | ⟨db', hinsert, hwrote⟩
    · rw [show act st stamp (.insert _) _ = _ from hinsert]
      exact .inl ⟨rfl, .answered _⟩
    · rw [show act st stamp (.insert _) _ = _ from hinsert]
      exact .inr ⟨node, current, haddress, hread, hclaimed, hwrote, .answered _⟩
  | answered response => exact absurd hthread (hstep.ne_done response)

section

variable (hA : ∀ j, At address (requests j) (p.threads j) p.store)
include hA

/-- What a step does to the node: nothing, take its lease, or write it back with the lease it has. -/
theorem effect (hstep : Step (act st) i p q)
    (hC : Undisturbed address requests i p q) :
    q.store.view.readNode address = p.store.view.readNode address ∨
    (IsClaim address (requests i) ∧ Claiming (p.threads i) ∧ Unclaimed address p.store ∧
      Leased address q.store) ∨
    ∃ node current, p.store.view.readNode address = .ok (some current) ∧
      q.store.view.readNode address = .ok (some node) ∧ node.claimedBy = current.claimedBy := by
  have hdb := (hA i).wellFormed
  by_cases hclaim : IsClaim address (requests i)
  · obtain ⟨identity, hrequest⟩ := hclaim
    rcases ((hA i).claim identity hrequest).step hdb hstep with
      ⟨hstore, -, -⟩ | ⟨hclaiming, node, hread, hunclaimed, hwrote, -⟩
    · exact .inl (by rw [hstore])
    · obtain rfl : node.address = address := View.WellFormed.address_eq hdb hread
      exact .inr (.inl ⟨⟨identity, hrequest⟩, hclaiming, ⟨node, hread, hunclaimed⟩,
        ⟨_, hwrote.written, by simp⟩⟩)
  · by_cases hupdate : IsUpdate address (requests i)
    · obtain ⟨identity, payload, hrequest⟩ := hupdate
      rcases ((hA i).update identity payload hrequest).step hdb hstep with
        ⟨hstore, -⟩ | ⟨node, current, rfl, hread, hclaimed, hwrote, -⟩
      · exact .inl (by rw [hstore])
      · exact .inr (.inr ⟨node, current, hread, hwrote.written, hclaimed⟩)
    · exact .inl (hC hclaim hupdate)

/-- A lease that is held stays held. -/
theorem Leased.step (hstep : Step (act st) i p q)
    (hC : Undisturbed address requests i p q) (h : Leased address p.store) :
    Leased address q.store := by
  obtain ⟨current, hread, hclaimed⟩ := h
  rcases effect hA hstep hC with hsame | ⟨-, -, -, hleased⟩ | ⟨node, current', hread', hnode, hkept⟩
  · exact ⟨current, hsame ▸ hread, hclaimed⟩
  · exact hleased
  · obtain rfl := Option.some.inj (Except.ok.inj (hread.symm.trans hread'))
    exact ⟨node, hnode, hkept ▸ hclaimed⟩

theorem At.own (hstep : Step (act st) i p q) :
    At address (requests i) (q.threads i) q.store where
  wellFormed := Server.wellFormed (hA i).wellFormed hstep
  claim identity hrequest := by
    rcases ((hA i).claim identity hrequest).step (hA i).wellFormed hstep with
      ⟨-, hat, -⟩ | ⟨-, node, hread, -, hwrote, hdone⟩
    · exact hat
    · obtain rfl : node.address = address := View.WellFormed.address_eq (hA i).wellFormed hread
      exact hdone ▸ .answered _ fun _ => ⟨_, hwrote.written, by simp⟩
  update identity payload hrequest := by
    rcases ((hA i).update identity payload hrequest).step (hA i).wellFormed hstep with
      ⟨-, hat⟩ | ⟨_, _, _, _, _, _, hat⟩
    · exact hat
    · exact hat

end

/-- The steps of the others do not interfere. -/
theorem At.other {j : ι} (hA : ∀ j, At address (requests j) (p.threads j) p.store)
    (hstep : Step (act st) i p q) (hC : Undisturbed address requests i p q)
    (hraced : Unraced address requests i p) :
    At address (requests j) (p.threads j) q.store where
  wellFormed := Server.wellFormed (hA i).wellFormed hstep
  claim identity hrequest := by
    have hat := (hA j).claim identity hrequest
    generalize p.threads j = handler at hat ⊢
    cases hat with
    | start => exact .start
    | claiming => exact .claiming
    | answered response h => exact .answered response fun hok => (h hok).step hA hstep hC
  update identity payload hrequest := by
    have hat := (hA j).update identity payload hrequest
    generalize hthread : p.threads j = handler at hat ⊢
    cases hat with
    | start => exact .start
    | answered response => exact .answered response
    | writing haddress hread hclaimed =>
      rcases effect hA hstep hC with
        hsame | ⟨hclaim, hclaiming, hunclaimed, -⟩ | ⟨node, current, hread', hnode, hkept⟩
      · exact .writing haddress (hsame ▸ hread) hclaimed
      · exact absurd ⟨_, _, hthread⟩
          (hraced hclaim hclaiming hunclaimed j ⟨identity, payload, hrequest⟩)
      · obtain rfl := Option.some.inj (Except.ok.inj (hread.symm.trans hread'))
        exact .writing haddress hnode (hclaimed.trans hkept.symm)

theorem At.leased {request : Request st} {handler : Handler st} {db : GraphStore}
    (h : At address request handler db) (hclaim : IsClaim address request)
    (hsucceeded : Succeeded handler) : Leased address db := by
  obtain ⟨identity, hrequest⟩ := hclaim
  obtain ⟨response, rfl, hok⟩ := hsucceeded
  cases h.claim identity hrequest with
  | answered _ h => exact h hok

/-- Only an unclaimed node is claimed with success, and then nobody else has been successful. -/
theorem At.first (hA : ∀ j, At address (requests j) (p.threads j) p.store)
    (hstep : Step (act st) i p q) (hclaim : IsClaim address (requests i))
    (hsucceeded : Succeeded (q.threads i)) (j : ι) (hj : IsClaim address (requests j)) :
    ¬ Succeeded (p.threads j) := by
  obtain ⟨identity, hrequest⟩ := hclaim
  intro hother
  rcases ((hA i).claim identity hrequest).step (hA i).wellFormed hstep with
    ⟨-, -, hfailed⟩ | ⟨-, node, hread, hunclaimed, -, -⟩
  · exact hfailed hsucceeded
  · obtain ⟨node', hread', hclaimed⟩ := (hA j).leased hj hother
    obtain rfl := Option.some.inj (Except.ok.inj (hread.symm.trans hread'))
    exact hclaimed hunclaimed

end Leases

open Leases

/-- However requests are interleaved of which only claims and updates touch a node: if no lease is
    taken while an update has read the node and not yet written it back, then at most one claim
    succeeds, and no update changes the lease as it stands when it is applied. -/
theorem lease_taken_once {st : Settings} {ι : Type} [DecidableEq ι] (address : String)
    (requests : ι → Request st) {db : GraphStore} (hdb : db.WellFormed) {p : Server st ι}
    (hrun : Steps (act st)
      (fun i p q => Undisturbed address requests i p q ∧ Unraced address requests i p)
      (Server.start requests db) p) :
    (∀ i j, IsClaim address (requests i) → IsClaim address (requests j) →
      Succeeded (p.threads i) → Succeeded (p.threads j) → i = j) ∧
    ∀ i q, IsUpdate address (requests i) → Step (act st) i p q →
      ∀ node, p.store.view.readNode address = .ok (some node) →
        ∃ node', q.store.view.readNode address = .ok (some node') ∧
          node'.claimedBy = node.claimedBy := by
  have hstart : ∀ j, At address (requests j) ((Server.start requests db).threads j) db := by
    refine fun j => ⟨hdb, fun identity hrequest => ?_, fun identity payload hrequest => ?_⟩
    · change ClaimAt identity address db (requests j).handler
      rw [hrequest]
      exact .start
    · change UpdateAt identity address payload db (requests j).handler
      rw [hrequest]
      exact .start
  have hunstarted : (Server.start requests db).AtMostOne (fun i => IsClaim address (requests i))
      Succeeded := by
    rintro i j ⟨identity, hrequest⟩ - ⟨response, hdone, -⟩
    simp [Server.start, hrequest, Request.handler, claimNode] at hdone
  obtain ⟨hA, hunique⟩ := hrun.invariant
    (I := fun p => (∀ j, At address (requests j) (p.threads j) p.store) ∧
      p.AtMostOne (fun i => IsClaim address (requests i)) Succeeded) ⟨hstart, hunstarted⟩ (by
    intro i p q ⟨hA, hunique⟩ hstep ⟨hundisturbed, hunraced⟩
    refine ⟨fun j => ?_, hunique.step hstep fun hi hsucceeded j _ hj => ?_⟩
    · by_cases hj : j = i
      · exact hj ▸ At.own hA hstep
      · rw [hstep.threads_of_ne hj]
        exact At.other hA hstep hundisturbed hunraced
    · exact At.first hA hstep hi hsucceeded j hj)
  refine ⟨hunique, fun i q hupdate hstep node hread => ?_⟩
  obtain ⟨identity, payload, hrequest⟩ := hupdate
  rcases ((hA i).update identity payload hrequest).step (hA i).wellFormed hstep with
    ⟨hstore, -⟩ | ⟨written, current, rfl, hcurrent, hclaimed, hwrote, -⟩
  · exact ⟨node, hstore ▸ hread, rfl⟩
  · obtain rfl := Option.some.inj (Except.ok.inj (hread.symm.trans hcurrent))
    exact ⟨written, hwrote.written, hclaimed⟩

namespace Leases

def alice : Identity := ⟨"alice", .user⟩

def job : Node := ⟨"a", ⟨0, 0, 0, 0⟩, 0, "job", "", "alice", none, .priv⟩

/-- An update of the node, and two claims of it. -/
inductive Racer
  | update
  | first
  | second
  deriving DecidableEq

/-- An update and two claims of one node. -/
def race : Racer → Request .plain
  | .update => .updateNode alice "a" ⟨"done", none⟩
  | .first | .second => .claimNode alice "a"

/-- The operation id and the time of a call. -/
def now : Stamp := ⟨0, 0⟩

theorem race_undisturbed (i : Racer) (p q : Server .plain Racer) :
    Undisturbed "a" race i p q := by
  intro hclaim hupdate
  cases i with
  | update => exact absurd ⟨_, _, rfl⟩ hupdate
  | first | second => exact absurd ⟨_, rfl⟩ hclaim

/-- The first claim comes between the read and the write of the update, the second one after it. -/
def raced : Server .plain Racer :=
  play (act .plain) [(.update, now), (.first, now), (.first, now), (.update, now), (.second, now), (.second, now)]
    (Server.start race (.ofNodes [job]))

end Leases

theorem lease_taken_twice :
    Steps (act .plain) (fun i p q => Undisturbed "a" race i p q)
      (Server.start race (.ofNodes [job])) raced ∧
    IsClaim "a" (race .first) ∧ IsClaim "a" (race .second) ∧ Succeeded (raced.threads .first) ∧
    Succeeded (raced.threads .second) := by
  have hfirst : Handler.response? (raced.threads .first) = some (.text .ok "claimed") := by decide +kernel
  have hsecond : Handler.response? (raced.threads .second) = some (.text .ok "claimed") := by decide +kernel
  refine ⟨steps_play (Pool.meets_of_invariant (I := fun _ => True) trivial fun _ _ p q _ _ =>
    ⟨race_undisturbed _ p q, trivial⟩), ⟨_, rfl⟩, ⟨_, rfl⟩, ?_, ?_⟩
  · exact ⟨_, Handler.eq_done hfirst, rfl⟩
  · exact ⟨_, Handler.eq_done hsecond, rfl⟩

namespace Leases

/-- The update is done before the claims begin. -/
def updated : Server .plain Racer :=
  play (act .plain) [(.update, now), (.update, now)] (Server.start race (.ofNodes [job]))

/-- Then one of the claims reads the node and takes the lease. -/
def claimed : Server .plain Racer :=
  play (act .plain) [(.first, now), (.first, now)] updated

theorem updated_answered :
    Handler.response? (updated.threads .update) = some (.text .ok "Node updated") := by
  decide +kernel

theorem unraced_of_answered {i : Racer} {p : Server .plain Racer} {response : Response}
    (h : p.threads .update = .done response) : Unraced "a" race i p := by
  rintro - - - j ⟨identity, payload, hupdate⟩ ⟨node, next, hwriting⟩
  cases j with
  | update => cases h.symm.trans hwriting
  | first | second => cases hupdate

theorem steps_claimed : Steps (act .plain)
    (fun i p q => Undisturbed "a" race i p q ∧ Unraced "a" race i p)
    (Server.start race (.ofNodes [job])) claimed := by
  have hupdate : Steps (act .plain)
      (fun i p q => Undisturbed "a" race i p q ∧ Unraced "a" race i p)
      (Server.start race (.ofNodes [job])) updated := by
    refine steps_play (Pool.meets_of_invariant (I := fun _ => True) trivial
      fun entry hentry p q _ _ => ⟨⟨race_undisturbed _ p q, ?_⟩, trivial⟩)
    obtain rfl : entry = (.update, now) := by simpa using hentry
    rintro ⟨identity, hclaim⟩
    cases hclaim
  refine hupdate.trans (steps_play (Pool.meets_of_invariant
    (I := fun p => p.threads .update = .done _) (Handler.eq_done updated_answered)
    fun entry hentry p q hp hstep => ?_))
  obtain rfl : entry = (.first, now) := by simpa using hentry
  exact ⟨⟨race_undisturbed _ p q, unraced_of_answered hp⟩,
    (hstep.threads_of_ne (by decide)).trans hp⟩

end Leases

theorem lease_taken_once_race :
    Succeeded (claimed.threads .first) ∧
      ∀ j, IsClaim "a" (race j) → Succeeded (claimed.threads j) → j = .first := by
  have hanswer : Handler.response? (claimed.threads .first) = some (.text .ok "claimed") := by
    decide +kernel
  have hsucceeded : Succeeded (claimed.threads .first) := ⟨_, Handler.eq_done hanswer, rfl⟩
  obtain ⟨honce, -⟩ := lease_taken_once "a" race (GraphStore.ofNodes_wellFormed [job]) steps_claimed
  exact ⟨hsucceeded, fun j hclaim hj => honce j .first hclaim ⟨_, rfl⟩ hj hsucceeded⟩

end FacetQL
