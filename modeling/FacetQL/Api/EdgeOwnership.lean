import FacetQL.Api.Ownership

/-!
# Edges and their owners

`insert_edge` refuses to replace an edge of another owner, since the owner is who may retract it. The
two other ways to make edges, `insert_with_edges` and the `insert_edge` of a transaction, stage an edge
without looking for one that is there.

* `edge_not_taken_over`: when no edge passes to another owner.
-/

namespace FacetQL

open Ownership
open GraphStore (act applyAtomic_cases checkBatch commit insertEdge lowerInsert)
open Batch (archive drop push put putEdge replace start)

variable {st : Settings}

namespace GraphStore

/-- The operations that a call which makes edges comes to. -/
def lowered (stamp : Stamp) (db : GraphStore) : Call st → Option (List Operation)
  | .insertEdge edge => some [.insertEdge edge]
  | .insertWithEdges node targets isAdmin =>
    match db.lowerWithEdges stamp node targets isAdmin with
    | .ok (b, _) => some b.operations
    | .error _ => none
  | .executeTransaction ops => (db.view.lowerTransaction st db.references stamp ops).toOption
  | _ => none

end GraphStore

namespace EdgeOwnership

/-- Whatever edge has this identity is of this owner. -/
def Free (owner : String) (v : View) (id : EdgeId) : Prop :=
  ∃ slot, v.findEdge id = .ok slot ∧ ∀ edge ∈ slot, edge.owner = owner

/-- A call by which a user makes edges. -/
def EdgeCall (owner : String) : Call st → Prop
  | .insertEdge edge => edge.owner = owner
  | .insertWithEdges node _ isAdmin => node.owner = owner ∧ isAdmin = false
  | .executeTransaction ops => ∀ op ∈ ops, By owner op
  | _ => False

/-- Has a call that makes edges been accepted? -/
def accepted : (call : Call st) → call.Result → Bool
  | .insertEdge _, .ok _ => true
  | .insertWithEdges .., .ok _ => true
  | .executeTransaction _, .ok _ => true
  | _, _ => false

/-- The edges that a call writes without looking for ones that are there. -/
def unasked : Call st → List EdgeId
  | .insertWithEdges node targets _ => targets.map fun (target, kind) => ⟨node.address, target, kind⟩
  | .executeTransaction ops => ops.filterMap fun
    | .insertEdge edge => some edge.id
    | _ => none
  | _ => []

/-- Nobody else has an edge that the call does not ask for. -/
def Unclaimed (owner : String) (db : GraphStore) (call : Call st) : Prop :=
  ∀ id ∈ unasked call, Free owner db.view id

/-- `insert_edge` would accept this edge. -/
def Acceptable (st : Settings) (references : References) (v : View) (edge : Edge) : Prop :=
  ((⟨v, references⟩ : GraphStore).insertEdge st edge).1 = .ok ()

/-- Calls of users that make edges, one after the other, each of them as `C` says. -/
def EdgeRun (st : Settings) (C : String → GraphStore → Call st → Prop) : GraphStore → GraphStore → Prop :=
  Relation.ReflTransGen fun db db' => ∃ (owner : String) (call : Call st) (stamp : Stamp),
    EdgeCall owner call ∧ C owner db call ∧ db' = (act st stamp call db).2

/-! ## Operations on edges -/

variable {owner : String} {v v' : View} {id : EdgeId} {ops : List Operation}

theorem Free.apply (hv : v.WellFormed) {op : Operation}
    (hop : ∀ edge, op = .insertEdge edge → edge.owner = owner)
    (happly : v.apply st (.write op) = .ok v') (h : Free owner v id) : Free owner v' id := by
  rw [Free, View.findEdge_apply hv happly]
  rcases hwrite : op.edgeWrite with _ | ⟨touched, slot⟩
  · exact h
  simp only
  split
  · refine ⟨slot, rfl, fun edge hedge => hop edge ?_⟩
    rw [Option.mem_def] at hedge
    subst slot
    cases op <;> cases hwrite
    rfl
  · exact h

theorem Free.applyAll (hv : v.WellFormed)
    (hops : ∀ edge, .insertEdge edge ∈ ops → edge.owner = owner) (h : Free owner v id) :
    Free owner (v.applyAll st ops).2 id := by
  induction ops generalizing v with
  | nil => exact h
  | cons op ops ih =>
    rw [View.applyAll]
    split
    · exact h
    · rename_i next hnext
      refine ih (hv.apply hnext) (fun edge hedge => hops edge (List.mem_cons_of_mem _ hedge)) ?_
      exact h.apply hv (fun edge hedge => hops edge (hedge ▸ List.mem_cons_self)) hnext

/-- An edge that is not written stays or goes. -/
theorem findEdge_applyAll (hv : v.WellFormed)
    (hops : ∀ edge, .insertEdge edge ∈ ops → edge.id.outKey ≠ id.outKey) :
    (v.applyAll st ops).2.findEdge id = v.findEdge id ∨
      (v.applyAll st ops).2.findEdge id = .ok none := by
  induction ops generalizing v with
  | nil => exact .inl rfl
  | cons op ops ih =>
    rw [View.applyAll]
    split
    · exact .inl rfl
    rename_i next hnext
    have hlater := ih (hv.apply hnext) fun edge hedge => hops edge (List.mem_cons_of_mem _ hedge)
    have hnow := View.findEdge_apply hv hnext id
    rcases hwrite : op.edgeWrite with _ | ⟨touched, slot⟩ <;> rw [hwrite] at hnow <;>
      simp only at hnow
    · rwa [hnow] at hlater
    split at hnow
    · rename_i hkey
      rcases slot with _ | edge
      · exact .inr (hlater.elim (fun h => h.trans hnow) fun h => h)
      cases op <;> cases hwrite
      exact absurd hkey.symm (hops edge List.mem_cons_self)
    · rwa [hnow] at hlater

/-- Edges of one owner, written where nobody else has one, leave every edge with its owner. -/
theorem owner_applyAll (hv : v.WellFormed)
    (hops : ∀ edge, .insertEdge edge ∈ ops → edge.owner = owner ∧ Free owner v edge.id)
    {old new : Edge} (hold : v.findEdge id = .ok (some old))
    (hnew : (v.applyAll st ops).2.findEdge id = .ok (some new)) : new.owner = old.owner := by
  by_cases howner : old.owner = owner
  · have hfree : Free owner v id := ⟨_, hold, fun edge hedge => Option.some.inj hedge ▸ howner⟩
    have hlater : Free owner (v.applyAll st ops).2 id :=
      hfree.applyAll hv fun edge hedge => (hops edge hedge).1
    obtain ⟨slot, hslot, hslots⟩ := hlater
    rw [hnew] at hslot
    obtain rfl := Except.ok.inj hslot
    exact (hslots new rfl).trans howner.symm
  · -- The edge of somebody else has a key that is not written.
    have hkeys : ∀ edge, .insertEdge edge ∈ ops → edge.id.outKey ≠ id.outKey := by
      intro edge hedge hkey
      obtain ⟨slot, hslot, hslots⟩ := (hops edge hedge).2
      have hsame : v.findEdge edge.id = v.findEdge id := by rw [View.findEdge, View.findEdge, hkey]
      rw [hsame, hold] at hslot
      obtain rfl := Except.ok.inj hslot
      exact howner (hslots old rfl)
    have hlater : (v.applyAll st ops).2.findEdge id = v.findEdge id ∨
        (v.applyAll st ops).2.findEdge id = .ok none := findEdge_applyAll hv hkeys
    rcases hlater with h | h
    · rw [hnew, hold] at h
      rw [Option.some.inj (Except.ok.inj h)]
    · cases hnew.symm.trans h

/-- What holds along the edges can be strengthened by what nobody else comes to have. -/
theorem alongEdges_free {Q Q' : View → Edge → Prop} (hv : v.WellFormed)
    (hops : ∀ edge, .insertEdge edge ∈ ops → edge.owner = owner ∧ Free owner v edge.id)
    (himp : ∀ v' edge, .insertEdge edge ∈ ops → Free owner v' edge.id → Q v' edge → Q' v' edge)
    (h : AlongEdges st Q v ops) : AlongEdges st Q' v ops := by
  induction ops generalizing v with
  | nil => trivial
  | cons op ops ih =>
    refine ⟨fun edge hedge => ?_, fun next hnext => ?_⟩
    · have hmem : .insertEdge edge ∈ op :: ops := hedge ▸ List.mem_cons_self
      exact himp v edge hmem (hops edge hmem).2 (h.1 edge hedge)
    refine ih (hv.apply hnext) (fun edge hedge => ?_)
      (fun v' edge hedge => himp v' edge (List.mem_cons_of_mem _ hedge)) (h.2 next hnext)
    obtain ⟨howner, hfree⟩ := hops edge (List.mem_cons_of_mem _ hedge)
    exact ⟨howner, hfree.apply hv
      (fun edge hedge => (hops edge (hedge ▸ List.mem_cons_self)).1) hnext⟩

variable {references : References} {edge : Edge} {address : String}
  {targets : List (String × String)} {edges : List Edge} {b : Batch} {stamp : Stamp}

theorem acceptable_of_free (hsource : v.containsNode edge.source)
    (htarget : v.containsNode edge.target) (hfree : Free edge.owner v edge.id)
    (hvalid : (Operation.insertEdge edge).validate = .ok ()) : Acceptable st references v edge := by
  obtain ⟨slot, hslot, howners⟩ := hfree
  have hany : (slot.any fun existing => existing.owner != edge.owner) = false := by
    rcases slot with _ | existing
    · rfl
    · simpa using howners existing rfl
  have hview : v.validate st (.insertEdge edge) = .ok () :=
    Except.bind_eq_ok.2 ⟨(), hvalid, rfl⟩
  have hbatch : checkBatch st ⟨v, references⟩ [.insertEdge edge] = .ok () := by
    rw [checkBatch, View.checkReferences]
    split <;> rfl
  rw [Acceptable, insertEdge]
  simp only [hsource, htarget, hslot, hany, Bool.not_true, Bool.false_eq_true, if_false]
  rw [GraphStore.applyAtomic]
  simp only [hview, hbatch]
  rw [commit, List.forM_ok.2 (by simpa using hview)]
  rfl

/-! ## The calls -/

variable {db : GraphStore}

/-- Operations of one owner that take nobody's edge, and whose edges join nodes. -/
structure Lawful (st : Settings) (owner : String) (v : View) (ops : List Operation) : Prop where
  edges : ∀ edge, .insertEdge edge ∈ ops → edge.owner = owner ∧ Free owner v edge.id
  joins : AlongEdges st (fun v edge => v.containsNode edge.source ∧ v.containsNode edge.target) v ops

theorem Lawful.acceptable (hv : v.WellFormed) (h : Lawful st owner v ops)
    (hvalid : ∀ op ∈ ops, v.validate st op = .ok ()) :
    AlongEdges st (Acceptable st references) v ops := by
  refine alongEdges_free hv h.edges (fun v' edge hedge hfree hjoins => ?_) h.joins
  obtain ⟨⟨⟩, hvalid, -⟩ := Except.bind_eq_ok.1 (hvalid _ hedge)
  exact acceptable_of_free hjoins.1 hjoins.2 ((h.edges edge hedge).1.symm ▸ hfree) hvalid

variable (st db) in
/-- `insert_edge` refuses an edge, or it is of the only owner that such an edge has. -/
theorem insertEdge_cases (edge : Edge) :
    (∃ message, db.insertEdge st edge = (.error message, db)) ∨
      Lawful st edge.owner db.view [.insertEdge edge] ∧
        db.insertEdge st edge = db.applyAtomic st [.insertEdge edge] := by
  rw [insertEdge]
  split_ifs with hsource htarget
  · exact .inl ⟨_, rfl⟩
  · exact .inl ⟨_, rfl⟩
  split
  · exact .inl ⟨_, rfl⟩
  rename_i slot hslot
  split
  · exact .inl ⟨_, rfl⟩
  rename_i hany
  refine .inr ⟨⟨fun other hother => ?_, ⟨fun other hother => ?_, fun _ _ => trivial⟩⟩, rfl⟩
  · obtain rfl : other = edge := by simpa using hother
    refine ⟨rfl, slot, hslot, fun existing hexisting => ?_⟩
    rw [Option.mem_def] at hexisting
    simpa [hexisting] using hany
  · obtain rfl : edge = other := by simpa using hother
    exact ⟨by simpa using hsource, by simpa using htarget⟩

theorem containsNode_iff : v.containsNode address = true ↔ v.readNode address ≠ .ok none := by
  rw [Ne, View.readNode_eq_none, View.containsNode]
  cases SortedMap.find (utf8 address) v.primary <;> simp

/-- The edges of a new node, whose targets are the node itself or nodes that are there. -/
theorem linkTargets_ok (h : db.linkTargets address owner targets = .ok edges) :
    edges = targets.map (fun (target, kind) => ⟨address, target, kind, owner⟩) ∧
      ∀ target ∈ targets, target.1 = address ∨ db.view.containsNode target.1 := by
  induction targets generalizing edges with
  | nil =>
    obtain rfl := Except.ok.inj h
    exact ⟨rfl, by simp⟩
  | cons first targets ih =>
    obtain ⟨target, kind⟩ := first
    rw [GraphStore.linkTargets] at h
    split at h
    · cases h
    rename_i htarget
    obtain ⟨later, hlater, rfl⟩ := TreeStorage.exists_of_map_eq_ok h
    obtain ⟨rfl, hthere⟩ := ih hlater
    refine ⟨rfl, List.forall_mem_cons.2 ⟨?_, hthere⟩⟩
    simpa [or_iff_not_imp_left] using htarget

theorem mem_linkTargets (h : db.linkTargets address owner targets = .ok edges)
    (hedge : edge ∈ edges) :
    edge.source = address ∧ edge.owner = owner ∧ (edge.target, edge.kind) ∈ targets ∧
      (edge.target = address ∨ db.view.containsNode edge.target) := by
  obtain ⟨rfl, hthere⟩ := linkTargets_ok h
  obtain ⟨target, htarget, rfl⟩ := List.mem_map.1 hedge
  exact ⟨rfl, rfl, htarget, hthere target htarget⟩

/-- Edges are put after a batch that has reached a state in which they are as they should be. -/
theorem alongEdges_putEdges {Q : View → Edge → Prop} (hv : v.WellFormed) (happlies : Applies st v b)
    (h : AlongEdges st Q v b.operations)
    (hQ : ∀ b' v', b'.staged = b.staged → Reached st v b' v' → ∀ edge ∈ edges, Q v' edge) :
    AlongEdges st Q v (edges.foldl putEdge b).operations := by
  induction edges generalizing b with
  | nil => exact h
  | cons edge edges ih =>
    obtain ⟨v', hreached⟩ := happlies
    refine ih (Applies.putEdge hv ⟨v', hreached⟩ edge) ?_ fun b' v' hstaged hreached edge hedge =>
      hQ b' v' hstaged hreached edge (List.mem_cons_of_mem _ hedge)
    refine alongEdges_push h hreached.applied ?_
    rintro _ ⟨⟩
    exact hQ b v' rfl hreached edge List.mem_cons_self

theorem operations_putEdges (edges : List Edge) (b : Batch) :
    (edges.foldl putEdge b).operations = b.operations ++ edges.map .insertEdge := by
  induction edges generalizing b with
  | nil => simp
  | cons edge edges ih =>
    rw [List.foldl_cons, ih, putEdge]
    simp [push]

theorem insertEdge_not_mem_lowerInsert {previous : Option Node} {node : Node} (edge : Edge) :
    .insertEdge edge ∉ (lowerInsert stamp previous node).operations := by
  cases previous <;>
    simp [lowerInsert, put, replace, archive, push, start]

/-- A node with edges that nobody else has. -/
theorem lawful_lowerWithEdges (hdb : db.WellFormed) {node : Node} {isAdmin : Bool}
    (hlower : db.lowerWithEdges stamp node targets isAdmin = .ok (b, edges))
    (hunclaimed : Unclaimed node.owner db (.insertWithEdges node targets isAdmin : Call st)) :
    Lawful st node.owner db.view b.operations := by
  obtain ⟨previous, hread, -, hlink, rfl⟩ := GraphStore.lowerWithEdges_ok hlower
  have happlies : Applies st db.view (lowerInsert stamp previous node) :=
    GraphStore.lowerInsert_applies hdb hread stamp
  refine ⟨fun edge hedge => ?_, alongEdges_putEdges hdb happlies ?_ ?_⟩
  · rw [operations_putEdges, List.mem_append, or_iff_right (insertEdge_not_mem_lowerInsert edge)] at hedge
    obtain ⟨hsource, howner, hmem, -⟩ := mem_linkTargets hlink (by simpa using hedge)
    refine ⟨howner, hunclaimed _ (List.mem_map.2 ⟨_, hmem, ?_⟩)⟩
    rw [← hsource]
    rfl
  · exact alongEdges_of_no_edge insertEdge_not_mem_lowerInsert
  · intro b' v' hstaged hreached edge hedge
    rw [GraphStore.staged_lowerInsert] at hstaged
    have hwrote : db.Wrote node { db with view := v' } := GraphStore.wrote_of_reached hstaged hreached
    obtain ⟨hsource, -, -, hthere⟩ := mem_linkTargets hlink hedge
    have hnode : v'.containsNode node.address := View.containsNode_of_readNode hwrote.written
    refine ⟨hsource ▸ hnode, ?_⟩
    by_cases htarget : edge.target = node.address
    · exact htarget ▸ hnode
    · rw [containsNode_iff, hwrote.others _ htarget, ← containsNode_iff]
      exact hthere.resolve_left htarget

theorem keeps_edges (txs : List (TxOperation st.json)) :
    Keeps st references v txs
      (fun b => ∀ edge, .insertEdge edge ∈ b.operations → .insertEdge edge ∈ txs)
      (fun _ => True) fun _ _ => True where
  remove hb _ edge hedge := hb edge (by simpa [Batch.remove, drop, archive, push]
    using hedge)
  child _ _ _ _ _ _ := trivial
  loses _ _ _ _ _ _ := trivial
  clear hb _ _ edge hedge := hb edge (by simpa [replace, put, archive,
    push] using hedge)
  write hb _ _ edge hedge := hb edge (by simpa [put, push] using hedge)
  overwrite hb _ _ _ edge hedge := hb edge (by simpa [replace, put, archive,
    push] using hedge)
  set hb _ _ _ _ edge hedge := hb edge (by simpa [replace, put, archive,
    push] using hedge)
  named _ _ _ := trivial
  selected _ _ _ _ := trivial
  putEdge {b edge source target} hb hop _ _ other hother := by
    rcases List.mem_append.1 (show _ ∈ b.operations ++ [_] from hother) with hother | hother
    · exact hb other hother
    · cases List.mem_singleton.1 hother
      exact hop
  dropEdge hb _ _ _ edge hedge := hb edge (by simpa [Batch.dropEdge, push] using hedge)

/-- A transaction with edges that nobody else has. -/
theorem lawful_lowerTransaction (hdb : db.WellFormed) {txs : List (TxOperation st.json)}
    (hby : ∀ op ∈ txs, By owner op)
    (hunclaimed : Unclaimed owner db (.executeTransaction txs : Call st))
    (hlower : db.view.lowerTransaction st db.references stamp txs = .ok ops) :
    Lawful st owner db.view ops := by
  have happlies : Keeps st db.references db.view txs (Applies st db.view) _ _ := keeps_applies hdb txs
  have hkeeps := (happlies.and (keeps_edges txs)).along
    (Q := fun v edge => v.containsNode edge.source ∧ v.containsNode edge.target)
    (fun hb => hb.1) fun _ _ _ hsource htarget =>
      ⟨View.containsNode_of_readNode hsource, View.containsNode_of_readNode htarget⟩
  have hstart : (Applies st db.view (.start stamp) ∧
      ∀ edge, .insertEdge edge ∈ (start stamp).operations → .insertEdge edge ∈ txs) ∧
      AlongEdges st (fun v edge => v.containsNode edge.source ∧ v.containsNode edge.target) db.view
        (start stamp).operations :=
    ⟨⟨⟨_, .start stamp⟩, nofun⟩, trivial⟩
  obtain ⟨b, ⟨⟨-, hedges⟩, hjoins⟩, rfl⟩ := hkeeps.lowerTransaction hstart hlower
  refine ⟨fun edge hedge => ⟨hby _ (hedges edge hedge), hunclaimed _ ?_⟩, hjoins⟩
  exact List.mem_filterMap.2 ⟨_, hedges edge hedge, rfl⟩

/-- A call that makes edges is refused, or its operations are valid and take nobody's edge. -/
theorem act_lawful (hdb : db.WellFormed) {call : Call st} (hcall : EdgeCall owner call)
    (hunclaimed : Unclaimed owner db call) (stamp : Stamp) :
    (db.act st stamp call).2 = db ∧ accepted call (db.act st stamp call).1 = false ∨
      ∃ ops, db.lowered stamp call = some ops ∧ Lawful st owner db.view ops ∧
        (∀ op ∈ ops, db.view.validate st op = .ok ()) ∧
        (db.act st stamp call).2 = { db with view := (db.view.applyAll st ops).2 } := by
  cases call with
  | insertEdge edge =>
    obtain rfl := hcall
    rw [act]
    rcases insertEdge_cases st db edge with ⟨message, h⟩ | ⟨hlawful, h⟩
    · rw [h]
      exact .inl ⟨rfl, rfl⟩
    rw [h]
    rcases applyAtomic_cases st db [.insertEdge edge] with ⟨message, h⟩ | ⟨hvalid, h⟩
    · rw [h]
      exact .inl ⟨rfl, rfl⟩
    · exact .inr ⟨_, rfl, hlawful, hvalid, h⟩
  | insertWithEdges node targets isAdmin =>
    obtain ⟨rfl, rfl⟩ := hcall
    rw [act, GraphStore.insertWithEdges]
    rcases hlower : db.lowerWithEdges stamp node targets false with message | pair
    · exact .inl ⟨rfl, rfl⟩
    obtain ⟨b, edges⟩ := pair
    have hlawful : Lawful st node.owner db.view b.operations :=
      lawful_lowerWithEdges hdb hlower hunclaimed
    rcases applyAtomic_cases st db b.operations with ⟨message, h⟩ | ⟨hvalid, h⟩
    · simp only [h]
      exact .inl ⟨trivial, rfl⟩
    · exact .inr ⟨_, by rw [GraphStore.lowered, hlower], hlawful, hvalid, h⟩
  | executeTransaction txs =>
    rw [act, GraphStore.executeTransaction]
    split
    · exact .inl ⟨rfl, rfl⟩
    rename_i hlower
    obtain ⟨lowered, hlowered, hlower⟩ := Except.bind_eq_ok.1 hlower
    obtain ⟨⟨⟩, -, hlower⟩ := Except.bind_eq_ok.1 hlower
    obtain rfl := Except.ok.inj hlower
    have hlawful : Lawful st owner db.view lowered :=
      lawful_lowerTransaction hdb hcall hunclaimed hlowered
    rcases GraphStore.commit_cases st db lowered with ⟨message, h⟩ | ⟨hvalid, h⟩
    · simp only [h]
      exact .inl ⟨trivial, rfl⟩
    · exact .inr ⟨_, by rw [GraphStore.lowered, hlowered]; rfl, hlawful, hvalid, h⟩
  | _ => exact hcall.elim

theorem EdgeRun.wellFormed {C : String → GraphStore → Call st → Prop} {db db' : GraphStore}
    (h : EdgeRun st C db db') (hdb : db.WellFormed) : db'.WellFormed := by
  induction h with
  | refl => exact hdb
  | tail _ hstep ih =>
    obtain ⟨owner, call, stamp, -, -, rfl⟩ := hstep
    exact GraphStore.act_wellFormed ih stamp call

end EdgeOwnership

open EdgeOwnership

/-- In every run of calls by which users make edges, if nobody else has an edge that a call does not
    ask for, then no call makes an edge pass to another owner, and every edge of a call that is
    accepted would have been accepted by `insert_edge` in the state that the call had reached. -/
theorem edge_not_taken_over {db db' : GraphStore} (hdb : db.WellFormed)
    (hrun : EdgeRun st Unclaimed db db') {owner : String} {call : Call st}
    (hcall : EdgeCall owner call) (hunclaimed : Unclaimed owner db' call) (stamp : Stamp) :
    (∀ id old new, db'.view.findEdge id = .ok (some old) →
      (db'.act st stamp call).2.view.findEdge id = .ok (some new) → new.owner = old.owner) ∧
    (accepted call (db'.act st stamp call).1 = true → ∃ ops, db'.lowered stamp call = some ops ∧
      AlongEdges st (Acceptable st db'.references) db'.view ops) := by
  have hdb' := hrun.wellFormed hdb
  rcases act_lawful hdb' hcall hunclaimed stamp with
    ⟨hview, hrefused⟩ | ⟨ops, hlowered, hlawful, hvalid, hview⟩
  · refine ⟨fun id old new hold hnew => ?_, fun h => absurd h (by simp [hrefused])⟩
    rw [hview, hold] at hnew
    rw [Option.some.inj (Except.ok.inj hnew)]
  · refine ⟨fun id old new hold hnew => ?_, fun _ => ⟨ops, hlowered, hlawful.acceptable hdb' hvalid⟩⟩
    rw [hview] at hnew
    exact owner_applyAll hdb' hlawful.edges hold hnew

namespace EdgeOwnership

/-- Two nodes, and an edge between them that `bob` has made. -/
def joined : GraphStore :=
  (act .plain ⟨0, 0⟩ (.insertEdge ⟨"a", "b", "knows", "bob"⟩)
    (.ofNodes [nodeOf "a" "alice" "", nodeOf "b" "bob" ""])).2

theorem run_joined {C : String → GraphStore → Call .plain → Prop}
    (hC : ∀ db edge, C "bob" db (.insertEdge edge)) :
    EdgeRun .plain C (.ofNodes [nodeOf "a" "alice" "", nodeOf "b" "bob" ""]) joined :=
  .single ⟨"bob", .insertEdge ⟨"a", "b", "knows", "bob"⟩, ⟨0, 0⟩, rfl, hC _ _, rfl⟩

/-- `alice` makes an edge in a transaction. -/
def joinsToo (kind : String) : Call .plain :=
  .executeTransaction [.insertEdge ⟨"a", "b", kind, "alice"⟩]

theorem edgeCall_joinsToo (kind : String) : EdgeCall "alice" (joinsToo kind) := by
  intro op hop
  obtain rfl := List.mem_singleton.1 hop
  rfl

end EdgeOwnership

theorem edge_taken_over :
    EdgeRun .plain (fun _ _ _ => True) (.ofNodes [nodeOf "a" "alice" "", nodeOf "b" "bob" ""])
      joined ∧
    EdgeCall "alice" (joinsToo "knows") ∧
    joined.view.findEdge ⟨"a", "b", "knows"⟩ = .ok (some ⟨"a", "b", "knows", "bob"⟩) ∧
    (joined.act .plain ⟨0, 0⟩ (joinsToo "knows")).2.view.findEdge ⟨"a", "b", "knows"⟩ =
      .ok (some ⟨"a", "b", "knows", "alice"⟩) ∧
    (joined.insertEdge .plain ⟨"a", "b", "knows", "alice"⟩).1 =
      .error "edge a -[knows]-> b is owned by bob" :=
  ⟨run_joined fun _ _ => trivial, edgeCall_joinsToo "knows", by decide +kernel, by decide +kernel,
    by decide +kernel⟩

theorem edge_not_taken_over_joined :
    accepted (joinsToo "likes") (joined.act .plain ⟨0, 0⟩ (joinsToo "likes")).1 = true ∧
    ∃ ops, joined.lowered ⟨0, 0⟩ (joinsToo "likes") = some ops ∧
      AlongEdges .plain (Acceptable .plain joined.references) joined.view ops := by
  have haccepted : accepted (joinsToo "likes") (joined.act .plain ⟨0, 0⟩ (joinsToo "likes")).1 = true := by
    decide +kernel
  have hunclaimed : Unclaimed "alice" joined (joinsToo "likes") := by
    intro id hid
    obtain rfl : id = ⟨"a", "b", "likes"⟩ := by simpa [unasked, joinsToo, Edge.id] using hid
    exact ⟨none, by decide +kernel, by simp⟩
  have hrun : EdgeRun .plain Unclaimed (.ofNodes [nodeOf "a" "alice" "", nodeOf "b" "bob" ""])
      joined := run_joined nofun
  exact ⟨haccepted, (edge_not_taken_over (GraphStore.ofNodes_wellFormed _) hrun
    (edgeCall_joinsToo "likes") hunclaimed ⟨0, 0⟩).2 haccepted⟩

end FacetQL
