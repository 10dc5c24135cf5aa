import FacetQL.Storage.Batches

/-!
# Calls happen as a whole

A call of the engine is refused and leaves the database as it was, or all its operations are applied.
What a batch was judged by is what its operations meet, so that none of them can fail halfway.
-/

namespace FacetQL

variable {st : Settings}

namespace GraphStore

variable {db : GraphStore} {b : Batch} {v' : View}

/-- The keys and the references are as they should be for reads. -/
def WellFormed (db : GraphStore) : Prop := db.view.WellFormed

/-- A committed batch is refused or applied. -/
theorem commit_reached (h : Reached st db.view b v') :
    (∃ message, db.commit st b.operations = (.error message, db)) ∨
      db.commit st b.operations = (.ok (), { db with view := v' }) := by
  rw [commit]
  rcases b.operations.forM (db.view.validate st) with message | _
  · exact .inl ⟨message, rfl⟩
  refine .inr ?_
  simp only [h.applied]
  rfl

variable (st) (db) in
theorem applyAtomic_eq (ops : List Operation) :
    (∃ message, db.applyAtomic st ops = (.error message, db)) ∨
      db.applyAtomic st ops = db.commit st ops := by
  match ops with
  | [] => exact .inr rfl
  | [op] =>
    rw [applyAtomic]
    split
    · exact .inl ⟨_, rfl⟩
    · exact .inr rfl
  | op :: op' :: ops =>
    rw [applyAtomic]
    · split
      · exact .inl ⟨_, rfl⟩
      · exact .inr rfl
    · exact List.cons_ne_nil _ _
    · simp

/-- A batch that can be applied is refused as a whole or applied as a whole. -/
theorem applyAtomic_reached (h : Reached st db.view b v') :
    (∃ message, db.applyAtomic st b.operations = (.error message, db)) ∨
      db.applyAtomic st b.operations = (.ok (), { db with view := v' }) := by
  rcases applyAtomic_eq st db b.operations with hrefused | heq
  · exact .inl hrefused
  · exact heq ▸ commit_reached h

/-! ## Calls that write a node -/

/-- Another database in which this node has been written and every other one is as it was. -/
structure Wrote (db : GraphStore) (node : Node) (db' : GraphStore) : Prop where
  references : db'.references = db.references
  written : db'.view.readNode node.address = .ok (some node)
  others : ∀ address, address ≠ node.address →
    db'.view.readNode address = db.view.readNode address

variable (stamp : Stamp) {node : Node} (ops : List Operation)

theorem staged_lowerInsert (previous : Option Node) (node : Node) :
    (lowerInsert stamp previous node).staged = [(node.address, some node)] := by
  cases previous <;> rfl

theorem lowerInsert_applies (hdb : db.WellFormed) {previous : Option Node}
    (hread : db.view.readNode node.address = .ok previous) (stamp : Stamp) :
    Applies st db.view (lowerInsert stamp previous node) := by
  have hstart : Applies st db.view (.start stamp) := ⟨_, .start stamp⟩
  rcases previous with _ | old
  · exact hstart.put hdb ⟨_, hread⟩
  · exact (hstart.archive hdb old).put hdb ⟨_, hread⟩

theorem wrote_of_reached (hstaged : b.staged = [(node.address, some node)])
    (h : Reached st db.view b v') : db.Wrote node { db with view := v' } where
  references := rfl
  written := by
    rw [← h.nodes, View.stagedNode, hstaged]
    simp [SortedMap.find]
  others address hne := by
    rw [← h.nodes, View.stagedNode, hstaged]
    simp [SortedMap.find, Ne.symm hne]

variable (st) in
/-- A node is inserted, or nothing happens. -/
theorem insert_cases (hdb : db.WellFormed) (stamp : Stamp) (node : Node) :
    (∃ message, db.insert st stamp node = (.error message, db)) ∨
      ∃ db', db.insert st stamp node = (.ok (), db') ∧ db.Wrote node db' := by
  rw [insert]
  rcases hread : db.view.readNode node.address with e | previous
  · exact .inl ⟨_, rfl⟩
  obtain ⟨v', hreached⟩ : Applies st db.view _ := lowerInsert_applies hdb hread stamp
  refine (applyAtomic_reached hreached).imp_right fun happly => ⟨_, happly, ?_⟩
  exact wrote_of_reached (staged_lowerInsert stamp previous node) hreached

variable (st) in
theorem claim_cases (hdb : db.WellFormed) (stamp : Stamp) (address worker : String) :
    (∃ e, db.claim st stamp address worker = (.error e, db)) ∨
      ∃ node db', db.view.readNode address = .ok (some node) ∧ node.claimedBy = none ∧
        db.claim st stamp address worker = (.ok (), db') ∧
        db.Wrote { node with claimedBy := some worker } db' := by
  rw [claim]
  rcases hread : db.view.readNode address with e | _ | node
  · exact .inl ⟨_, rfl⟩
  · exact .inl ⟨_, rfl⟩
  simp only
  rcases hclaimed : node.claimedBy with _ | worker
  · rcases insert_cases st hdb stamp { node with claimedBy := some worker } with
      ⟨message, hinsert⟩ | ⟨db', hinsert, hwrote⟩
    · exact .inl ⟨.storageError message, by simp only [hinsert]; rfl⟩
    · exact .inr ⟨node, db', rfl, hclaimed, by simp only [hinsert]; rfl, hwrote⟩
  · exact .inl ⟨_, rfl⟩

theorem staged_putEdges (edges : List Edge) (b : Batch) :
    (edges.foldl Batch.putEdge b).staged = b.staged := by
  induction edges generalizing b with
  | nil => rfl
  | cons edge edges ih => exact ih _

theorem putEdges_applies (hdb : db.WellFormed) (h : Applies st db.view b) (edges : List Edge) :
    Applies st db.view (edges.foldl Batch.putEdge b) := by
  induction edges generalizing b with
  | nil => exact h
  | cons edge edges ih => exact ih (h.putEdge hdb edge)

/-- What a node with edges is lowered to. -/
theorem lowerWithEdges_ok {stamp : Stamp} {targets : List (String × String)} {isAdmin : Bool}
    {edges : List Edge} (h : db.lowerWithEdges stamp node targets isAdmin = .ok (b, edges)) :
    ∃ previous, db.view.readNode node.address = .ok previous ∧
      (∀ old ∈ previous, (isAdmin || old.canWrite node.owner) = true) ∧
      db.linkTargets node.address node.owner targets = .ok edges ∧
      b = edges.foldl Batch.putEdge (lowerInsert stamp previous node) := by
  rw [lowerWithEdges] at h
  rcases hread : db.view.readNode node.address with e | previous
  · simp [hread] at h
  simp only [hread] at h
  split at h
  · cases h
  rename_i hallowed
  obtain ⟨edges', hlink, hpair⟩ := TreeStorage.exists_of_map_eq_ok h
  obtain ⟨rfl, rfl⟩ := Prod.mk.inj hpair
  refine ⟨previous, rfl, fun old hold => ?_, hlink, rfl⟩
  rw [Option.mem_def] at hold
  simpa [hold, or_iff_not_imp_left] using hallowed

variable (st) in
/-- A node is written with its edges, or nothing happens. -/
theorem insertWithEdges_cases (hdb : db.WellFormed) (stamp : Stamp) (node : Node)
    (targets : List (String × String)) (isAdmin : Bool) :
    (∃ e, db.insertWithEdges st stamp node targets isAdmin = (.error e, db)) ∨
      ∃ previous edges db', db.view.readNode node.address = .ok previous ∧
        (∀ old ∈ previous, (isAdmin || old.canWrite node.owner) = true) ∧
        db.insertWithEdges st stamp node targets isAdmin = (.ok edges, db') ∧
        db.Wrote node db' := by
  rw [insertWithEdges]
  rcases hlower : db.lowerWithEdges stamp node targets isAdmin with message | pair
  · exact .inl ⟨_, rfl⟩
  obtain ⟨b, edges⟩ := pair
  obtain ⟨previous, hread, hallowed, -, hb⟩ := lowerWithEdges_ok hlower
  have hinsert : Applies st db.view (lowerInsert stamp previous node) :=
    lowerInsert_applies hdb hread stamp
  obtain ⟨v', hreached⟩ : Applies st db.view b := hb ▸ putEdges_applies hdb hinsert edges
  have hstaged : b.staged = [(node.address, some node)] := by
    rw [hb, staged_putEdges, staged_lowerInsert]
  rcases applyAtomic_reached hreached with ⟨message, happly⟩ | happly
  · exact .inl ⟨(message, []), by simp only [happly]; rfl⟩
  · exact .inr ⟨previous, edges, _, hread, hallowed, by simp only [happly]; rfl,
      wrote_of_reached hstaged hreached⟩

/-! ## Well-formedness -/

variable (st) (db) in
/-- Operations are refused, or they are valid and are applied as far as they can be. -/
theorem commit_cases :
    (∃ message, db.commit st ops = (.error message, db)) ∨
      (∀ op ∈ ops, db.view.validate st op = .ok ()) ∧
        (db.commit st ops).2 = { db with view := (db.view.applyAll st ops).2 } := by
  rw [commit]
  rcases hvalid : ops.forM (db.view.validate st) with message | _
  · exact .inl ⟨message, rfl⟩
  · exact .inr ⟨List.forM_ok.1 hvalid, rfl⟩

variable (st) (db) in
theorem applyAtomic_cases :
    (∃ message, db.applyAtomic st ops = (.error message, db)) ∨
      (∀ op ∈ ops, db.view.validate st op = .ok ()) ∧
        (db.applyAtomic st ops).2 = { db with view := (db.view.applyAll st ops).2 } := by
  rcases applyAtomic_eq st db ops with hrefused | heq
  · exact .inl hrefused
  · exact heq ▸ commit_cases st db ops

variable (st) (db) in
theorem commit_view :
    (db.commit st ops).2 = db ∨
      (db.commit st ops).2 = { db with view := (db.view.applyAll st ops).2 } :=
  (commit_cases st db ops).imp (fun ⟨_, h⟩ => congrArg Prod.snd h) And.right

variable (st) (db) in
theorem applyAtomic_view :
    (db.applyAtomic st ops).2 = db ∨
      (db.applyAtomic st ops).2 = { db with view := (db.view.applyAll st ops).2 } :=
  (applyAtomic_cases st db ops).imp (fun ⟨_, h⟩ => congrArg Prod.snd h) And.right

/-- The database that a call leaves comes from this one by operations, if it differs at all. -/
def Leads (st : Settings) (db db' : GraphStore) : Prop :=
  db' = db ∨ ∃ ops, db' = { db with view := (db.view.applyAll st ops).2 }

theorem insert_leads (node : Node) : db.Leads st (db.insert st stamp node).2 := by
  rw [insert]
  split
  · exact .inl rfl
  · exact (applyAtomic_view st db _).imp_right fun h => ⟨_, h⟩

/-- A call changes nothing but by operations that it applies. -/
theorem act_leads (call : Call st) (db : GraphStore) : db.Leads st (db.act st stamp call).2 := by
  have hatomic (ops : List Operation) : db.Leads st (db.applyAtomic st ops).2 :=
    (applyAtomic_view st db ops).imp_right fun h => ⟨_, h⟩
  cases call with
  | get address | findEdge id | deleteWhereTargets kind predicate owner isAdmin => exact .inl rfl
  | insert node => exact insert_leads stamp node
  | claim address worker =>
    rw [act, claim]
    split
    · exact .inl rfl
    · exact .inl rfl
    · split
      · exact .inl rfl
      · exact insert_leads stamp _
  | delete address =>
    rw [act, delete]
    split
    · exact .inl rfl
    · exact hatomic _
    · split
      · exact .inl rfl
      · exact hatomic _
  | insertEdge edge =>
    rw [act, insertEdge]
    split_ifs
    · exact .inl rfl
    · exact .inl rfl
    split
    · exact .inl rfl
    · split
      · exact .inl rfl
      · exact hatomic _
  | insertWithEdges node targets isAdmin =>
    rw [act, insertWithEdges]
    split
    · exact .inl rfl
    · exact hatomic _
  | executeTransaction ops =>
    rw [act, executeTransaction]
    split
    · exact .inl rfl
    · exact (commit_view st db _).imp_right fun h => ⟨_, h⟩

/-- A database stays well formed. -/
theorem act_wellFormed (hdb : db.WellFormed) (stamp : Stamp) (call : Call st) :
    (db.act st stamp call).2.WellFormed := by
  rcases act_leads stamp call db with h | ⟨ops, h⟩
  · rwa [h]
  · rw [h]
    exact View.WellFormed.applyAll hdb ops

/-- Nothing is stored and no reference is declared. -/
def empty : GraphStore := ⟨Trees.empty, []⟩

theorem empty_wellFormed : empty.WellFormed := View.WellFormed.empty

/-- A database with these nodes, inserted one after the other. -/
def ofNodes (nodes : List Node) : GraphStore :=
  nodes.foldl (fun db node => (db.insert .plain ⟨0, 0⟩ node).2) empty

theorem ofNodes_wellFormed (nodes : List Node) : (ofNodes nodes).WellFormed :=
  List.foldlRecOn nodes _ empty_wellFormed fun _ hdb node _ =>
    act_wellFormed hdb ⟨0, 0⟩ (.insert node : Call .plain)

end GraphStore

end FacetQL
