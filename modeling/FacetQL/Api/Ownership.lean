import FacetQL.Api.Handlers

/-!
# Ownership

Who may write a node is checked in one call of the engine and relied upon in a later one: by
`update_node` and `delete_node`, and by `execute_transaction` for the nodes that it deletes by name.
In between, the node may be deleted and its address taken by somebody else. And what the removal of a
node entails is decided by the declared references, with no regard to who owns the nodes that go, or
are rewritten, with it.

* `others_untouched`: when no request of a user changes a node of another owner.
-/

namespace FacetQL

open GraphStore (act delete ofNodes_wellFormed)

namespace Ownership

variable {st : Settings}

/-! ## What a request relies on -/

/-- Does a call write anything? -/
def writes : Call st → Bool
  | .get _ => false
  | .findEdge _ => false
  | .deleteWhereTargets .. => false
  | _ => true

/-- The addresses that a call writes without checking who owns what is there. -/
def unchecked : Call st → Set String
  | .insert node => {node.address}
  | .delete address => {address}
  | .executeTransaction ops => {address | .deleteNode address ∈ ops}
  | _ => ∅

/-- The answer says that an owner may write the node of the address that was asked for. -/
def Certifies (owner : String) : (call : Call st) → call.Result → String → Prop
  | .get address, answer, certified =>
    ∃ node : Node, answer = Except.ok (some node) ∧ node.owner = owner ∧
      (certified = address ∨ certified = node.address)
  | _, _, _ => False

/-- The addresses that what is left of a request writes without checking again. -/
def Relies (owner : String) : Handler st → Set String
  | .done _ => ∅
  | .fail _ => ∅
  | .call op next =>
    unchecked op ∪ {address | ∃ answer, address ∈ Relies owner (next answer) ∧
      ¬ Certifies owner op answer address}

/-- The address names a node of somebody else. -/
def Foreign (owner : String) (db : GraphStore) (address : String) : Prop :=
  ∃ node, db.view.readNode address = .ok (some node) ∧ node.owner ≠ owner

/-! ## What a request may remove -/

/-- Does an operation remove nodes? -/
def removes : TxOperation st.json → Bool
  | .deleteNode _ => true
  | .clearKind .. => true
  | .deleteWhere .. => true
  | _ => false

section Reaches

variable (st) (owner : String) (v : View) (references : References)
  (ops : List (TxOperation st.json))

/-- What operations may do with a node. -/
inductive Fate
  | hold
  | remove

/-- What operations may come to hold of this owner: the nodes that are there, that they insert,
    and what they make of these; and to remove: those they name or select, and those that go
    with them. -/
inductive Reaches : Fate → Node → Prop
  | live {address : String} {node : Node} :
      v.readNode address = .ok (some node) → node.owner = owner → Reaches .hold node
  | inserted {node : Node} : .insertNode node ∈ ops → Reaches .hold node
  | set {node next : Node} {field worker : String} {expect : Expectation st.json}
      {fields : List (String × st.json.Value)} {isAdmin : Bool} : Reaches .hold node →
      .setIf node.address field expect fields worker isAdmin ∈ ops →
      setIfNext st node field expect fields = .ok next → Reaches .hold next
  | cleared {parent child cleared : Node} {decl : ReferenceDef} : Reaches .remove parent →
      Reaches .hold child → decl ∈ references → decl.onDelete = .setNull →
      decl.Links st.json parent child → withFieldNull st.json child decl.field = .ok cleared →
      Reaches .hold cleared
  | named {node : Node} : Reaches .hold node → .deleteNode node.address ∈ ops → Reaches .remove node
  | selected {node : Node} {kind worker : String} {predicate : Option (Expr st.json.Number)}
      {isAdmin : Bool} : Reaches .hold node → TxOperation.Selects ops kind predicate worker isAdmin →
      selectionMatches st node kind predicate worker isAdmin = .ok true → Reaches .remove node
  | cascaded {parent child : Node} {decl : ReferenceDef} : Reaches .remove parent →
      Reaches .hold child → decl ∈ references → decl.onDelete = .cascade →
      decl.Links st.json parent child → Reaches .remove child

/-- Whatever goes or is rewritten with a node that the operations may remove has the same owner. -/
def SparesOthers : Prop :=
  ∀ parent, Reaches st owner v references ops .remove parent → ∀ decl ∈ references,
    decl.onDelete ≠ .restrict → ∀ address child, v.readNode address = .ok (some child) →
      decl.Links st.json parent child → child.owner = owner

end Reaches

/-- What a call may remove. -/
def removals : Call st → List (TxOperation st.json)
  | .delete address => [.deleteNode address]
  | .executeTransaction ops => ops
  | _ => []

/-- A call that removes nodes spares those of others. -/
def SparingCall (owner : String) (db : GraphStore) (call : Call st) : Prop :=
  (∃ op ∈ removals call, removes op) →
    SparesOthers st owner db.view db.references (removals call)

section Conditions

variable {ι : Type} [DecidableEq ι] (requests : ι → Request st) (i : ι) (p q : Server st ι)

/-- Where another request relies on having checked, this step leaves no node of a third party. -/
def Unrobbed : Prop :=
  ∀ j, j ≠ i → (requests j).identity.isAdmin = false →
    ∀ address ∈ Relies (requests j).identity.owner (p.threads j),
      ¬ Foreign (requests j).identity.owner q.store address

/-- The call of a user spares the nodes of others. -/
def Sparing : Prop :=
  (requests i).identity.isAdmin = false → ∀ call next, p.threads i = .call call next →
    SparingCall (requests i).identity.owner p.store call

end Conditions

/-! ## Batches of a user -/

/-- An operation of this user. -/
def By (owner : String) : TxOperation st.json → Prop
  | .insertNode node => node.owner = owner
  | .deleteNode _ => True
  | .insertEdge edge => edge.owner = owner
  | .deleteEdge _ requester isAdmin => requester = owner ∧ isAdmin = false
  | .clearKind _ requester isAdmin => requester = owner ∧ isAdmin = false
  | .deleteWhere _ _ requester isAdmin => requester = owner ∧ isAdmin = false
  | .setIf _ _ _ _ requester isAdmin => requester = owner ∧ isAdmin = false

variable {owner : String} {db : GraphStore} {ops : List (TxOperation st.json)}

theorem Reaches.owner_eq {v : View} {references : References} (hby : ∀ op ∈ ops, By owner op)
    {fate : Fate} {node : Node} (h : Reaches st owner v references ops fate node) :
    node.owner = owner := by
  induction h with
  | live _ howner => exact howner
  | inserted hop => exact hby _ hop
  | set _ _ hnext ih =>
    obtain ⟨data, rfl⟩ := setIfNext_ok hnext
    exact ih
  | cleared _ _ _ _ _ hcleared _ ih =>
    obtain ⟨data, rfl⟩ := withFieldNull_ok hcleared
    exact ih
  | named _ _ ih | selected _ _ _ ih | cascaded _ _ _ _ _ _ ih => exact ih

/-- A batch that has touched no node of another owner, and has staged nodes of its own only. -/
structure Own (owner : String) (db : GraphStore) (ops : List (TxOperation st.json)) (b : Batch) :
    Prop where
  applies : Applies st db.view b
  slots : ∀ address slot, SortedMap.find address b.staged = some slot →
    ¬ Foreign owner db address ∧ ∀ node ∈ slot, Reaches st owner db.view db.references ops .hold node
  touched : ∀ op ∈ b.operations, ∀ address slot, op.nodeWrite = some (address, slot) →
    ¬ Foreign owner db address

variable {b : Batch} {address : String} {node : Node}

/-- What is found is as it was, or the batch has written it. -/
theorem Own.staged_cases (h : Own owner db ops b) {slot : Option Node}
    (hstaged : db.view.stagedNode b address = .ok slot) : db.view.readNode address = .ok slot ∨
      ¬ Foreign owner db address ∧ ∀ node ∈ slot, Reaches st owner db.view db.references ops .hold node := by
  exact (stagedNode_cases hstaged).imp_right (h.slots address slot)

/-- What is found of this owner is within reach, and nothing of another owner is overwritten. -/
theorem Own.of_staged (h : Own owner db ops b)
    (hstaged : db.view.stagedNode b address = .ok (some node)) (howner : node.owner = owner) :
    ¬ Foreign owner db address ∧ Reaches st owner db.view db.references ops .hold node := by
  rcases h.staged_cases hstaged with hread | ⟨hforeign, hslot⟩
  · refine ⟨fun ⟨other, hother, hne⟩ => hne ?_, .live hread howner⟩
    obtain rfl := Option.some.inj (Except.ok.inj (hread.symm.trans hother))
    exact howner
  · exact ⟨hforeign, hslot node rfl⟩

theorem Own.of_absent (h : Own owner db ops b)
    (hstaged : db.view.stagedNode b address = .ok none) : ¬ Foreign owner db address := by
  rcases h.staged_cases hstaged with hread | ⟨hforeign, -⟩
  · rintro ⟨other, hother, -⟩
    cases hread.symm.trans hother
  · exact hforeign

/-- One more operation on a node that is nobody else's. -/
theorem Own.push (h : Own owner db ops b) {b' : Batch} (happlies : Applies st db.view b')
    {op : Operation} {slot : Option Node} (hops : b'.operations = b.operations ++ [op])
    (hwrite : op.nodeWrite = some (address, slot))
    (hstaged : b'.staged = SortedMap.insert address slot b.staged)
    (hforeign : ¬ Foreign owner db address)
    (hslot : ∀ node ∈ slot, Reaches st owner db.view db.references ops .hold node) :
    Own owner db ops b' where
  applies := happlies
  slots := h.applies.slots h.slots hstaged ⟨hforeign, hslot⟩
  touched := by
    rw [hops]
    refine List.forall_mem_append.2 ⟨h.touched, List.forall_mem_singleton.2 fun _ _ hwrite' => ?_⟩
    obtain ⟨rfl, -⟩ := Prod.mk.inj (Option.some.inj (hwrite.symm.trans hwrite'))
    exact hforeign

theorem Own.put (hdb : db.WellFormed) (h : Own owner db ops b)
    (hread : ∃ old, db.view.readNode node.address = .ok old)
    (hforeign : ¬ Foreign owner db node.address)
    (hnode : Reaches st owner db.view db.references ops .hold node) :
    Own owner db ops (b.put node.address node) :=
  h.push (h.applies.put hdb hread) rfl rfl rfl hforeign fun _ hslot => Option.some.inj hslot ▸ hnode

theorem Own.drop (hdb : db.WellFormed) (h : Own owner db ops b)
    (hread : ∃ old, db.view.readNode address = .ok old) (hforeign : ¬ Foreign owner db address) :
    Own owner db ops (b.drop address) :=
  h.push (h.applies.drop hdb hread) rfl rfl rfl hforeign fun _ hslot => by cases hslot

/-- Operations that touch no node. -/
theorem Own.edge (h : Own owner db ops b) {b' : Batch} (happlies : Applies st db.view b')
    {op : Operation} (hops : b'.operations = b.operations ++ [op]) (hstaged : b'.staged = b.staged)
    (hwrite : op.nodeWrite = none) : Own owner db ops b' where
  applies := happlies
  slots := hstaged ▸ h.slots
  touched := by
    rw [hops]
    exact List.forall_mem_append.2 ⟨h.touched, List.forall_mem_singleton.2 fun _ _ hwrite' =>
      nomatch hwrite.symm.trans hwrite'⟩

theorem Own.archive (hdb : db.WellFormed) (h : Own owner db ops b) (node : Node) :
    Own owner db ops (b.archive node) := h.edge (h.applies.archive hdb node) rfl rfl rfl

/-- What is known of the nodes that a batch writes because of their references. -/
structure Found (owner : String) (db : GraphStore) (ops : List (TxOperation st.json)) (node : Node) :
    Prop where
  held : Reaches st owner db.view db.references ops .hold node
  unforeign : ¬ Foreign owner db node.address
  readable : ∃ old, db.view.readNode node.address = .ok old

/-- What is known of the nodes that a batch removes. -/
structure Gone (owner : String) (db : GraphStore) (ops : List (TxOperation st.json)) (node : Node) :
    Prop extends Found owner db ops node where
  removed : Reaches st owner db.view db.references ops .remove node
  removes : ∃ op ∈ ops, removes op

/-- What is known of the nodes that lose the field of a reference. -/
structure Loses (owner : String) (db : GraphStore) (ops : List (TxOperation st.json))
    (decl : ReferenceDef) (node : Node) : Prop extends Found owner db ops node where
  cleared : ∀ cleared, withFieldNull st.json node decl.field = .ok cleared →
    Reaches st owner db.view db.references ops .hold cleared

theorem Own.found (hdb : db.WellFormed) (h : Own owner db ops b)
    (hstaged : db.view.stagedNode b address = .ok (some node)) (howner : node.owner = owner) :
    Found owner db ops node := by
  obtain ⟨hforeign, hheld⟩ := h.of_staged hstaged howner
  obtain rfl := h.applies.address_eq hdb hstaged
  exact ⟨hheld, hforeign, h.applies.readable hstaged⟩

/-- What references a node that the batch removes is of the same owner. -/
theorem Own.linked (hdb : db.WellFormed) (hby : ∀ op ∈ ops, By owner op) (h : Own owner db ops b)
    (hspares : SparesOthers st owner db.view db.references ops) {parent child : Node}
    (hparent : Gone owner db ops parent) {decl : ReferenceDef} (hdecl : decl ∈ db.references)
    (haction : decl.onDelete ≠ .restrict) (hlinks : decl.Links st.json parent child)
    (hstaged : db.view.stagedNode b address = .ok (some child)) : Found owner db ops child := by
  refine h.found hdb hstaged ?_
  rcases h.staged_cases hstaged with hread | ⟨-, hslot⟩
  · exact hspares parent hparent.removed decl hdecl haction address child hread hlinks
  · exact (hslot child rfl).owner_eq hby

/-- The lowering of a user's transaction touches no node of another owner. -/
theorem keeps_own (hdb : db.WellFormed) (hby : ∀ op ∈ ops, By owner op)
    (hdeletes : ∀ address, .deleteNode address ∈ ops → ¬ Foreign owner db address)
    (hspares : (∃ op ∈ ops, removes op) → SparesOthers st owner db.view db.references ops) :
    Keeps st db.references db.view ops (Own owner db ops) (Gone owner db ops) (Loses owner db ops) where
  remove hb hnode := (hb.archive hdb _).drop hdb hnode.readable hnode.unforeign
  child hb hparent hdecl haction hlinks hstaged := by
    have hfound := hb.linked hdb hby (hspares hparent.removes) hparent hdecl (by simp [haction]) hlinks
      hstaged
    exact ⟨hfound, .cascaded hparent.removed hfound.held hdecl haction hlinks, hparent.removes⟩
  loses hb hparent hdecl haction hlinks hstaged := by
    have hfound := hb.linked hdb hby (hspares hparent.removes) hparent hdecl (by simp [haction]) hlinks
      hstaged
    exact ⟨hfound, fun _ => .cleared hparent.removed hfound.held hdecl haction hlinks⟩
  clear hb hchild hcleared := by
    have hheld := hchild.cleared _ hcleared
    obtain ⟨data, rfl⟩ := withFieldNull_ok hcleared
    exact (hb.archive hdb _).put hdb hchild.readable hchild.unforeign hheld
  write hb hop hstaged := hb.put hdb (hb.applies.readable hstaged) (hb.of_absent hstaged) (.inserted hop)
  overwrite hb hop hstaged howner :=
    (hb.archive hdb _).put hdb (hb.applies.readable hstaged)
      (hb.of_staged hstaged (howner.trans (hby _ hop))).1 (.inserted hop)
  set hb hop hstaged hallowed hnext := by
    obtain ⟨rfl, rfl⟩ := hby _ hop
    have hfound := hb.found hdb hstaged (by simpa [Node.canWrite] using hallowed)
    obtain rfl := hb.applies.address_eq hdb hstaged
    have hset := Reaches.set hfound.held hop hnext
    obtain ⟨data, rfl⟩ := setIfNext_ok hnext
    exact (hb.archive hdb _).put hdb hfound.readable hfound.unforeign hset
  named {b node address} hb hop hstaged := by
    have hfound : Found owner db ops node := by
      refine hb.found hdb hstaged ?_
      rcases hb.staged_cases hstaged with hread | ⟨-, hslot⟩
      · by_contra hne
        exact hdeletes address hop ⟨node, hread, hne⟩
      · exact (hslot node rfl).owner_eq hby
    obtain rfl := hb.applies.address_eq hdb hstaged
    exact ⟨hfound, .named hfound.held hop, _, hop, rfl⟩
  selected {b node address kind worker isAdmin predicate} hb hop hstaged hmatches := by
    obtain ⟨⟨rfl, rfl⟩, hremoves⟩ : (worker = owner ∧ isAdmin = false) ∧ ∃ op ∈ ops, removes op := by
      rcases hop with ⟨-, hop⟩ | hop <;> exact ⟨hby _ hop, _, hop, rfl⟩
    have hwrite := canWrite_of_selectionMatches hmatches
    have hfound := hb.found hdb hstaged (by simpa [Node.canWrite] using hwrite)
    exact ⟨hfound, .selected hfound.held hop hmatches, hremoves⟩
  putEdge hb _ _ _ := hb.edge (hb.applies.putEdge hdb _) rfl rfl rfl
  dropEdge hb _ _ _ := hb.edge (hb.applies.dropEdge hdb _) rfl rfl rfl

theorem own_start (stamp : Stamp) : Own owner db ops (.start stamp) where
  applies := ⟨_, .start stamp⟩
  slots _ _ hfind := by cases hfind
  touched := nofun

/-! ## Calls of a user -/

/-- A call of this user. Claims are left aside. -/
def CallBy (owner : String) : Call st → Prop
  | .insertWithEdges node _ isAdmin => node.owner = owner ∧ isAdmin = false
  | .executeTransaction ops => ∀ op ∈ ops, By owner op
  | .claim .. => False
  | _ => True

/-- Every node of another owner is as it was. -/
def Untouched (owner : String) (db db' : GraphStore) : Prop :=
  ∀ address node, db.view.readNode address = .ok (some node) → node.owner ≠ owner →
    db'.view.readNode address = .ok (some node)

theorem Untouched.refl (owner : String) (db : GraphStore) : Untouched owner db db :=
  fun _ _ hread _ => hread

/-- Operations that touch no node of another owner leave them as they were, however far they get. -/
theorem untouched_applyAll (hdb : db.WellFormed) {lowered : List Operation}
    (htouched : ∀ op ∈ lowered, ∀ address slot, op.nodeWrite = some (address, slot) →
      ¬ Foreign owner db address) :
    Untouched owner db { db with view := (db.view.applyAll st lowered).2 } := by
  intro address node hread hne
  refine (View.readNode_applyAll hdb fun op hop slot hwrite => ?_).trans hread
  exact htouched op hop address slot hwrite ⟨node, hread, hne⟩

theorem untouched_applyAtomic (hdb : db.WellFormed) {lowered : List Operation}
    (htouched : ∀ op ∈ lowered, ∀ address slot, op.nodeWrite = some (address, slot) →
      ¬ Foreign owner db address) : Untouched owner db (db.applyAtomic st lowered).2 := by
  rcases GraphStore.applyAtomic_view st db lowered with h | h <;> rw [h]
  · exact .refl owner db
  · exact untouched_applyAll hdb htouched

theorem Wrote.untouched {db' : GraphStore} (h : db.Wrote node db')
    (hforeign : ¬ Foreign owner db node.address) : Untouched owner db db' := by
  intro address other hread hne
  refine (h.others address fun haddress => ?_).trans hread
  exact hforeign (haddress ▸ ⟨other, hread, hne⟩)

theorem delete_untouched (hdb : db.WellFormed) {address : String}
    (hforeign : ¬ Foreign owner db address)
    (hspares : SparesOthers st owner db.view db.references [.deleteNode address]) (stamp : Stamp) :
    Untouched owner db (db.delete st stamp address).2 := by
  have hkeeps : Keeps st db.references db.view [.deleteNode address] (Own owner db _) (Gone owner db _)
      (Loses owner db _) :=
    keeps_own hdb (fun op hop => List.mem_singleton.1 hop ▸ trivial)
      (fun deleted hop => by
        obtain rfl : deleted = address := by simpa using hop
        exact hforeign) fun _ => hspares
  rw [delete]
  rcases hread : db.view.readNode address with e | _ | node
  · exact .refl owner db
  · refine untouched_applyAtomic hdb fun op hop touched slot hwrite => ?_
    obtain rfl := List.mem_singleton.1 hop
    obtain ⟨rfl, -⟩ := Prod.mk.inj (Option.some.inj hwrite)
    exact hforeign
  · simp only
    split
    · exact .refl owner db
    rename_i b hlower
    have hnode : Gone owner db [.deleteNode address] node :=
      hkeeps.named (own_start stamp) (List.mem_singleton_self _) hread
    have hb := hkeeps.toKeepsRemoval.lowerDeleteClosure (by simpa using hnode) (own_start stamp)
      hlower
    exact untouched_applyAtomic hdb hb.touched

theorem executeTransaction_untouched (hdb : db.WellFormed) (hby : ∀ op ∈ ops, By owner op)
    (hdeletes : ∀ address, .deleteNode address ∈ ops → ¬ Foreign owner db address)
    (hspares : (∃ op ∈ ops, removes op) → SparesOthers st owner db.view db.references ops)
    (stamp : Stamp) : Untouched owner db (db.executeTransaction st stamp ops).2 := by
  rw [GraphStore.executeTransaction]
  split
  · exact .refl owner db
  rename_i lowered hlower
  obtain ⟨lowered', hlowered, hlower⟩ := Except.bind_eq_ok.1 hlower
  obtain ⟨⟨⟩, -, hlower⟩ := Except.bind_eq_ok.1 hlower
  obtain rfl := Except.ok.inj hlower
  obtain ⟨b, hb, rfl⟩ := (keeps_own hdb hby hdeletes hspares).lowerTransaction (own_start stamp)
    hlowered
  rcases GraphStore.commit_view st db b.operations with h | h <;> simp only [h]
  · exact .refl owner db
  · exact untouched_applyAll hdb hb.touched

variable {call : Call st} {α : Type} {Q : α → Prop}

/-- A call of a user changes no node of another owner, if none stands where it does not check. -/
theorem act_untouched (hdb : db.WellFormed) (hby : CallBy owner call)
    (hunchecked : ∀ address ∈ unchecked call, ¬ Foreign owner db address)
    (hspares : SparingCall owner db call) (stamp : Stamp) :
    Untouched owner db (act st stamp call db).2 := by
  cases call with
  | get address | findEdge id | deleteWhereTargets kind predicate requester isAdmin =>
    exact .refl owner db
  | claim address worker => exact hby.elim
  | insert node =>
    rw [act]
    rcases GraphStore.insert_cases st hdb stamp node with ⟨message, hinsert⟩ | ⟨db', hinsert, hwrote⟩ <;>
      rw [hinsert]
    · exact .refl owner db
    · exact Wrote.untouched hwrote (hunchecked _ rfl)
  | delete address =>
    exact delete_untouched hdb (hunchecked _ rfl) (hspares ⟨_, List.mem_singleton_self _, rfl⟩) stamp
  | insertEdge edge =>
    have hedge : Untouched owner db (db.applyAtomic st [.insertEdge edge]).2 :=
      untouched_applyAtomic hdb (by simp [Operation.nodeWrite])
    rw [act, GraphStore.insertEdge]
    repeat' split
    all_goals first | exact .refl owner db | exact hedge
  | insertWithEdges node targets isAdmin =>
    obtain ⟨rfl, rfl⟩ := hby
    rw [act]
    rcases GraphStore.insertWithEdges_cases st hdb stamp node targets false with
      ⟨e, hinsert⟩ | ⟨previous, edges, db', hread, hallowed, hinsert, hwrote⟩
    · rw [hinsert]
      exact .refl _ db
    · rw [hinsert]
      refine Wrote.untouched hwrote ?_
      rintro ⟨other, hother, hne⟩
      refine hne ?_
      have hprevious := Except.ok.inj (hread.symm.trans hother)
      simpa [Node.canWrite] using hallowed other hprevious
  | executeTransaction ops => exact executeTransaction_untouched hdb hby hunchecked hspares stamp

/-! ## Handlers of a user -/

/-- What is left of a request makes calls of this user only, and ends with the one that writes. -/
def Signed (owner : String) : Handler st → Prop
  | .done _ => True
  | .fail _ => True
  | .call op next =>
    CallBy owner op ∧ (writes op = true → ∀ answer, ∃ response, next answer = .done response) ∧
      ∀ answer, Signed owner (next answer)

/-- A computation that writes nothing, and whose results are as they should be. -/
def Reads {α : Type} (Q : α → Prop) : Calls st α → Prop
  | .done a => Q a
  | .fail _ => True
  | .call op next => writes op = false ∧ ∀ answer, Reads Q (next answer)

theorem callBy_of_reads (h : writes call = false) : CallBy owner call := by
  cases call <;> trivial

theorem unchecked_of_reads (h : writes call = false) : unchecked call = ∅ := by
  cases call <;> first | rfl | cases h

/-- What is left of a request makes calls of this user, and relies on no addresses but these. -/
def Trusts (owner : String) (S : Set String) (handler : Handler st) : Prop :=
  Signed owner handler ∧ Relies owner handler ⊆ S

section Trusts

variable {S : Set String}

theorem Trusts.done {response : Response} : Trusts owner S (.done response : Handler st) :=
  ⟨trivial, Set.empty_subset S⟩

/-- What an answer certifies may be relied upon from then on. -/
theorem Trusts.read {next : call.Result → Handler st} (hreads : writes call = false)
    (hnext : ∀ answer, Trusts owner (S ∪ {address | Certifies owner call answer address})
      (next answer)) : Trusts owner S (.call call next) := by
  refine ⟨⟨callBy_of_reads hreads, fun hwrites => ?_, fun answer => (hnext answer).1⟩, ?_⟩
  · simp [hreads] at hwrites
  · rintro address (h | ⟨answer, h, hcertified⟩)
    · rw [unchecked_of_reads hreads] at h
      exact h.elim
    · exact ((hnext answer).2 h).resolve_right hcertified

theorem Trusts.write {answer : call.Result → Response} (hby : CallBy owner call)
    (hS : unchecked call ⊆ S) : Trusts owner S (.call call fun result => .done (answer result)) := by
  refine ⟨⟨hby, fun _ _ => ⟨_, rfl⟩, fun _ => trivial⟩, ?_⟩
  rintro address (h | ⟨_, h, -⟩)
  · exact hS h
  · exact h.elim

theorem Trusts.bind {p : Calls st α} (hp : Reads Q p) {f : α → Handler st}
    (hf : ∀ a, Q a → Trusts owner S (f a)) : Trusts owner S (p >>= f) := by
  induction p with
  | done a => exact hf a hp
  | fail e => exact e.elim
  | call op next ih =>
    have hnext := fun answer => ih answer (hp.2 answer)
    exact .read hp.1 fun answer => ⟨(hnext answer).1, fun _ h => .inl ((hnext answer).2 h)⟩

end Trusts

theorem reads_bind {β : Type} {Q' : β → Prop} {p : Calls st α} (hp : Reads Q p) {f : α → Calls st β}
    (hf : ∀ a, Q a → Reads Q' (f a)) : Reads Q' (p >>= f) := by
  induction p with
  | done a => exact hf a hp
  | fail e => exact e.elim
  | call op next ih => exact ⟨hp.1, fun answer => ih answer (hp.2 answer)⟩

theorem reads_authorizeEdge (identity : Identity) (source target : String) :
    Reads (fun _ => True) (authorizeEdge st identity source target) := by
  rw [authorizeEdge]
  split
  · trivial
  refine ⟨rfl, fun answer => ?_⟩
  rcases answer with e | existing
  · trivial
  simp only
  split
  · trivial
  split
  · trivial
  refine ⟨rfl, fun answer => ?_⟩
  rcases answer with e | existing
  · trivial
  · simp only
    split <;> trivial

theorem reads_publicEndpoints (source target : String) :
    Reads (fun _ => True) (publicEndpoints st source target) := by
  refine ⟨rfl, fun answer => ?_⟩
  rcases answer with e | existing
  · trivial
  simp only
  split
  · refine ⟨rfl, fun answer => ?_⟩
    rcases answer with e | existing <;> trivial
  · trivial

section User

variable {identity : Identity} (huser : identity.isAdmin = false)

include huser

/-- The operations of a user are stamped with the user. -/
theorem reads_resolveOperation {request : TxOpRequest st} :
    Reads (fun result => ∀ op, result = .ok op → By identity.owner op ∧
      (∀ address, op = .deleteNode address → request = .deleteNode address) ∧
      ∀ edge, op = .insertEdge edge → ∃ id, request = .insertEdge id)
      (resolveOperation st identity request) := by
  cases request with
  | insertNode payload owner claimedBy =>
    rw [resolveOperation]
    split
    · rintro op ⟨⟩
    rename_i hplain
    have howner : owner = none := by
      rw [huser] at hplain
      rcases owner with _ | other
      · rfl
      · simp at hplain
    subst howner
    rintro op ⟨⟩
    exact ⟨rfl, by simp, by simp⟩
  | insertEdge id =>
    refine reads_bind (reads_authorizeEdge identity id.source id.target) fun refusal _ => ?_
    rcases refusal with _ | response
    · rintro op ⟨⟩
      exact ⟨rfl, by simp, fun _ _ => ⟨id, rfl⟩⟩
    · rintro op ⟨⟩
  | deleteEdge id | deleteNode id =>
    rw [resolveOperation, huser]
    refine ⟨rfl, fun answer => ?_⟩
    rcases answer with e | _ | found
    · rintro op ⟨⟩
    · rintro op ⟨⟩
    simp only
    split
    · rintro op ⟨⟩
    · rintro op ⟨⟩
      simp [By]
  | clearKind kind =>
    refine ⟨rfl, fun answer => ?_⟩
    rcases answer with message | addresses
    · rintro op ⟨⟩
    · rintro op ⟨⟩
      exact ⟨⟨rfl, huser⟩, by simp, by simp⟩
  | deleteWhere kind predicate =>
    rw [resolveOperation]
    split
    · rintro op ⟨⟩
    refine ⟨rfl, fun answer => ?_⟩
    rcases answer with message | addresses
    · rintro op ⟨⟩
    · rintro op ⟨⟩
      exact ⟨⟨rfl, huser⟩, by simp, by simp⟩
  | setIf address field expectLe expectEq expectAbsent set =>
    rw [resolveOperation]
    split
    · rintro op ⟨⟩
    · rintro op ⟨⟩
      exact ⟨⟨rfl, huser⟩, by simp, by simp⟩

theorem trusts_resolve (requests : List (TxOpRequest st)) (ops : List (TxOperation st.json))
    (hops : ∀ op ∈ ops, By identity.owner op) :
    Trusts identity.owner {address | .deleteNode address ∈ ops}
      (executeTransaction.resolve st identity requests ops) := by
  induction requests generalizing ops with
  | nil => exact .write hops subset_rfl
  | cons request requests ih =>
    have hstep {op : TxOperation st.json} {S : Set String} (hop : By identity.owner op)
        (hS : ∀ address, op = .deleteNode address → address ∈ S) :
        Trusts identity.owner ({address | .deleteNode address ∈ ops} ∪ S)
          (executeTransaction.resolve st identity requests (ops ++ [op])) := by
      obtain ⟨hsigned, hrelies⟩ := ih (ops ++ [op]) fun op' hop' => by
        rcases List.mem_append.1 hop' with hop' | hop'
        · exact hops op' hop'
        · exact List.mem_singleton.1 hop' ▸ hop
      refine ⟨hsigned, fun address h => (List.mem_append.1 (hrelies h)).imp_right fun h => ?_⟩
      exact hS address (List.mem_singleton.1 h).symm
    by_cases hdelete : ∃ address, request = .deleteNode address
    · obtain ⟨address, rfl⟩ := hdelete
      rw [executeTransaction.resolve, resolveOperation, huser]
      refine Trusts.read (show writes (.get address : Call st) = false from rfl) fun answer => ?_
      rcases answer with e | _ | node
      · exact .done
      · exact .done
      rcases howner : node.canWrite identity.owner with _ | _ <;> simp only [howner]
      · exact .done
      -- The address that the answer certifies is not relied upon any more.
      refine hstep trivial fun _ h => ⟨node, rfl, by simpa [Node.canWrite] using howner, .inl ?_⟩
      exact (TxOperation.deleteNode.inj h).symm
    · refine .bind (reads_resolveOperation huser) ?_
      rintro (refusal | op) hop
      · exact .done
      · obtain ⟨hby, hkind, -⟩ := hop op rfl
        exact Set.union_empty {address | .deleteNode address ∈ ops} ▸
          hstep hby fun address h => absurd ⟨address, hkind address h⟩ hdelete

theorem createNode_trusts (payload : CreateNodeRequest) :
    Trusts identity.owner ∅ (createNode st identity payload) := by
  refine .read rfl fun answer => ?_
  rcases answer with e | existing
  · exact .done
  simp only
  split
  · exact .done
  · exact .write ⟨rfl, huser⟩ (Set.empty_subset _)

theorem owner_of_allowed {existing : Node}
    (h : ¬ (!identity.isAdmin && !existing.canWrite identity.owner) = true) :
    existing.owner = identity.owner := by
  simpa [huser, Node.canWrite] using h

theorem updateNode_trusts (address : String) (payload : UpdateNodeRequest) :
    Trusts identity.owner ∅ (updateNode st identity address payload) := by
  refine .read rfl fun answer => ?_
  rcases answer with e | _ | existing
  · exact .done
  · exact .done
  simp only
  split_ifs with hallowed
  · exact .done
  · exact .write trivial fun _ h => .inr ⟨existing, rfl, owner_of_allowed huser hallowed, .inr h⟩

theorem deleteNode_trusts (address : String) :
    Trusts identity.owner ∅ (deleteNode st identity address) := by
  refine .read rfl fun answer => ?_
  rcases answer with e | _ | existing
  · exact .done
  · exact .done
  simp only
  split_ifs with hallowed
  · exact .done
  · exact .write trivial fun _ h => .inr ⟨existing, rfl, owner_of_allowed huser hallowed, .inl h⟩

omit huser in
theorem createEdge_trusts (id : EdgeId) :
    Trusts identity.owner ∅ (createEdge st identity id) := by
  refine .bind (reads_authorizeEdge identity _ _) fun refusal _ => ?_
  rcases refusal with _ | response
  · refine .bind (reads_publicEndpoints _ _) fun result _ => ?_
    rcases result with e | isPublic
    · exact .done
    · exact .write trivial (Set.empty_subset _)
  · exact .done

/-- A request begins without relying on anything, and makes calls of its own user. -/
theorem handler_trusts {request : Request st} (hidentity : request.identity = identity)
    (hclaim : ∀ identity address, request ≠ .claimNode identity address) :
    Trusts identity.owner ∅ request.handler := by
  subst hidentity
  cases request with
  | createNode identity payload => exact createNode_trusts huser payload
  | updateNode identity address payload => exact updateNode_trusts huser address payload
  | deleteNode identity address => exact deleteNode_trusts huser address
  | claimNode identity address => exact absurd rfl (hclaim identity address)
  | createEdge identity id => exact createEdge_trusts id
  | executeTransaction identity operations =>
    obtain ⟨hsigned, hrelies⟩ :=
      trusts_resolve huser operations [] nofun
    exact ⟨hsigned, fun address h => absurd (hrelies h) List.not_mem_nil⟩

end User

/-! ## Requests at the same time -/

theorem act_of_reads (h : writes call = false) (stamp : Stamp) (db : GraphStore) :
    (act st stamp call db).2 = db := by
  cases call <;> first | rfl | cases h

/-- What an answer certifies is so. -/
theorem Certifies.unforeign (hdb : db.WellFormed) {stamp : Stamp}
    (h : Certifies owner call (act st stamp call db).1 address) :
    ¬ Foreign owner db address := by
  cases call with
  | get asked =>
    obtain ⟨node, hanswer, howner, haddress⟩ := h
    have hread : db.view.readNode asked = .ok (some node) := hanswer
    rintro ⟨other, hother, hne⟩
    have hasked : address = asked :=
      haddress.elim id fun h => h.trans (View.WellFormed.address_eq hdb hread)
    rw [hasked, hread] at hother
    exact hne (Option.some.inj (Except.ok.inj hother) ▸ howner)
  | _ => exact h.elim

/-- What is left of a user's request is theirs, and no other's node stands where it has checked. -/
structure At (request : Request st) (handler : Handler st) (db : GraphStore) : Prop where
  wellFormed : db.WellFormed
  signed : request.identity.isAdmin = false →
    (∀ identity address, request ≠ .claimNode identity address) →
    Signed request.identity.owner handler ∧
      ∀ address ∈ Relies request.identity.owner handler, ¬ Foreign request.identity.owner db address

variable {ι : Type} {requests : ι → Request st}

theorem at_start (hdb : db.WellFormed) (j : ι) :
    At (requests j) ((Server.start requests db).threads j) db where
  wellFormed := hdb
  signed huser hclaim := by
    obtain ⟨hsigned, hrelies⟩ := handler_trusts huser rfl hclaim
    exact ⟨hsigned, fun address haddress => (hrelies haddress).elim⟩

variable [DecidableEq ι] {i : ι} {p q : Server st ι}

theorem At.own (hA : ∀ j, At (requests j) (p.threads j) p.store)
    (hstep : Pool.Step (act st) i p q) : At (requests i) (q.threads i) q.store := by
  cases hstep with
  | @call op next hcall stamp =>
    refine ⟨GraphStore.act_wellFormed (hA i).wellFormed stamp _, fun huser hclaim => ?_⟩
    obtain ⟨hsigned, hrelies⟩ := (hA i).signed huser hclaim
    rw [hcall] at hsigned hrelies
    obtain ⟨hby, hlast, hsigned⟩ := hsigned
    rw [Pool.threads_after, Pool.store_after]
    refine ⟨hsigned _, fun address haddress => ?_⟩
    cases hwrites : writes op with
    | true =>
      -- After the call that writes there is nothing left to rely on.
      obtain ⟨response, hdone⟩ := hlast hwrites (act st stamp op p.store).1
      rw [hdone] at haddress
      exact haddress.elim
    | false =>
      rw [act_of_reads hwrites]
      by_cases hcertified : Certifies (requests i).identity.owner op
          (act st stamp op p.store).1 address
      · exact hcertified.unforeign (hA i).wellFormed
      · exact hrelies address (.inr ⟨_, haddress, hcertified⟩)

theorem At.other {j : ι} (hj : j ≠ i) (hA : ∀ j, At (requests j) (p.threads j) p.store)
    (hstep : Pool.Step (act st) i p q) (hunrobbed : Unrobbed requests i p q) :
    At (requests j) (p.threads j) q.store := by
  exact ⟨Server.wellFormed (hA i).wellFormed hstep,
    fun huser hclaim => ⟨((hA j).signed huser hclaim).1, hunrobbed j hj huser⟩⟩

theorem at_of_steps (hdb : db.WellFormed)
    (hrun : Pool.Steps (act st)
      (fun i p q => Unrobbed requests i p q ∧ Sparing requests i p) (Server.start requests db) p) :
    ∀ j, At (requests j) (p.threads j) p.store :=
  hrun.assertions (A := fun j => At (requests j)) (at_start hdb)
    (fun _ _ _ hA hstep _ => At.own hA hstep)
    (fun _ _ _ _ hj hA hstep hC => At.other hj hA hstep hC.1)

end Ownership

open Ownership

/-- However requests are interleaved: if no step puts a node of another owner where a request of a
    user relies on having checked, and what users remove takes no node of another owner with it, then
    no step of a user's request changes or removes a node that belongs to somebody else at that
    moment. -/
theorem others_untouched {st : Settings} {ι : Type} [DecidableEq ι] (requests : ι → Request st)
    {db : GraphStore} (hdb : db.WellFormed) {p : Server st ι}
    (hrun : Pool.Steps (act st)
      (fun i p q => Unrobbed requests i p q ∧ Sparing requests i p) (Server.start requests db) p)
    {i : ι} {q : Server st ι} (hstep : Pool.Step (act st) i p q)
    (hsparing : Sparing requests i p) (huser : (requests i).identity.isAdmin = false)
    (hclaim : ∀ identity address, requests i ≠ .claimNode identity address) :
    ∀ address node, p.store.view.readNode address = .ok (some node) →
      node.owner ≠ (requests i).identity.owner →
      q.store.view.readNode address = .ok (some node) := by
  have hA := at_of_steps hdb hrun
  cases hstep with
  | @call op next hcall stamp =>
    obtain ⟨hsigned, hrelies⟩ := (hA i).signed huser hclaim
    rw [hcall] at hsigned hrelies
    exact act_untouched (hA i).wellFormed hsigned.1
      (fun address haddress => hrelies address (.inl haddress)) (hsparing huser op next hcall) stamp

namespace Ownership

def nodeOf (address owner data : String) : Node :=
  ⟨address, ⟨0, 0, 0, 0⟩, 0, "note", data, owner, none, .priv⟩

/-- One user updates a node and deletes it, and another one takes its address. -/
inductive Successor
  | update
  | delete
  | create
  deriving DecidableEq

/-- The requests: alice updates and deletes her node, and bob creates one in its place. -/
def succession : Successor → Request .plain
  | .update => .updateNode ⟨"alice", .user⟩ "a" ⟨"new", none⟩
  | .delete => .deleteNode ⟨"alice", .user⟩ "a"
  | .create => .createNode ⟨"bob", .user⟩ ⟨"a", "note", ⟨0, 0, 0, 0⟩, "mine", none, [], false⟩

/-- The update has read the node of `alice`, and then the address has come to be that of `bob`. -/
def succeeded : Server .plain Successor :=
  Pool.play (act .plain)
    [(.update, ⟨0, 0⟩), (.delete, ⟨0, 0⟩), (.delete, ⟨0, 0⟩), (.create, ⟨0, 0⟩), (.create, ⟨0, 0⟩)]
    (Server.start succession (.ofNodes [nodeOf "a" "alice" "old"]))

def usurped : Server .plain Successor :=
  Pool.play (act .plain) [(.update, ⟨0, 0⟩)] succeeded

end Ownership

theorem others_overwritten :
    Pool.Steps (act .plain) (fun _ _ _ => True)
      (Server.start succession (.ofNodes [nodeOf "a" "alice" "old"])) succeeded ∧
    Pool.Step (act .plain) .update succeeded usurped ∧
    (succession .update).identity = ⟨"alice", .user⟩ ∧
    succeeded.store.view.readNode "a" = .ok (some (nodeOf "a" "bob" "mine")) ∧
    usurped.store.view.readNode "a" = .ok (some (nodeOf "a" "alice" "new")) := by
  refine ⟨Pool.steps_play (Pool.meets_of_invariant (I := fun _ => True) trivial
    fun _ _ _ _ _ _ => ⟨trivial, trivial⟩), ?_, rfl, ?_, ?_⟩
  · exact Handler.step_play (by decide +kernel)
  · decide +kernel
  · decide +kernel

namespace Ownership

variable {st : Settings} {ι : Type} {requests : ι → Request st} {i : ι} {p q : Server st ι}

theorem unrobbed_of_reads (hA : ∀ j, At (requests j) (p.threads j) p.store)
    (hclaims : ∀ j identity address, requests j ≠ .claimNode identity address)
    (hstore : q.store = p.store) : Unrobbed requests i p q := by
  intro j _ huser address haddress
  rw [hstore]
  exact ((hA j).signed huser (hclaims j)).2 address haddress

theorem sparing_of_reads {op : Call st} {next : op.Result → Handler st}
    (hcall : p.threads i = .call op next) (hreads : writes op = false) :
    Sparing requests i p := by
  rintro - call next' hcall' ⟨removal, hremoval, -⟩
  rw [hcall] at hcall'
  cases hcall'
  cases op with
  | get | findEdge | deleteWhereTargets => cases hremoval
  | _ => cases hreads

/-- Two users, each of whom updates their own node. -/
def neighbours : Bool → Request .plain
  | false => .updateNode ⟨"alice", .user⟩ "a" ⟨"new", none⟩
  | true => .updateNode ⟨"bob", .user⟩ "b" ⟨"new", none⟩

def neighbourhood : GraphStore := .ofNodes [nodeOf "a" "alice" "old", nodeOf "b" "bob" "old"]

def bothRead : Server .plain Bool :=
  Pool.play (act .plain) [(true, ⟨0, 0⟩)]
    (Pool.play (act .plain) [(false, ⟨0, 0⟩)] (Server.start neighbours neighbourhood))

def firstWrote : Server .plain Bool :=
  Pool.play (act .plain) [(false, ⟨0, 0⟩)] bothRead

theorem steps_bothRead : Pool.Steps (act .plain)
    (fun i p q => Unrobbed neighbours i p q ∧ Sparing neighbours i p)
    (Server.start neighbours neighbourhood) bothRead := by
  have hdb : neighbourhood.WellFormed := ofNodes_wellFormed _
  have hclaims : ∀ j identity address, neighbours j ≠ .claimNode identity address := by
    intro j identity address h
    cases j <;> cases h
  have hfirst : Pool.Steps (act .plain)
      (fun i p q => Unrobbed neighbours i p q ∧ Sparing neighbours i p)
      (Server.start neighbours neighbourhood)
      (Pool.play (act .plain) [(false, ⟨0, 0⟩)] (Server.start neighbours neighbourhood)) :=
    .single ⟨false, Handler.step_play rfl, unrobbed_of_reads (at_start hdb) hclaims rfl,
      sparing_of_reads rfl rfl⟩
  exact hfirst.tail ⟨true, Handler.step_play rfl,
    unrobbed_of_reads (at_of_steps hdb hfirst) hclaims rfl, sparing_of_reads rfl rfl⟩

end Ownership

theorem others_untouched_neighbours :
    firstWrote.store.view.readNode "a" = .ok (some (nodeOf "a" "alice" "new")) ∧
    firstWrote.store.view.readNode "b" = .ok (some (nodeOf "b" "bob" "old")) := by
  have hread : bothRead.store.view.readNode "b" = .ok (some (nodeOf "b" "bob" "old")) := by
    decide +kernel
  have hsparing : Sparing neighbours false bothRead := by
    rintro - call next hcall ⟨removal, hremoval, -⟩
    cases hcall
    cases hremoval
  refine ⟨by decide +kernel, ?_⟩
  exact others_untouched neighbours (ofNodes_wellFormed _) steps_bothRead
    (Handler.step_play (by decide +kernel)) hsparing rfl (by rintro identity address h; cases h)
    "b" _ hread (by decide)

end FacetQL
