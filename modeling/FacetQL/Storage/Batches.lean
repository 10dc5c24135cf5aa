import FacetQL.Storage.Calls

/-!
# What a batch does

The overlay of a batch is what the reads would find after its operations: this is why a batch can be
judged before anything of it is written.
-/

namespace FacetQL

open SortedMap (Sorted erase find find_erase_self sorted_nil)
open Except (bind_eq_ok map mapError_bind_eq_ok ok)

variable {st : Settings}

/-! ## Reads after an operation -/

/-- What an operation does to the node of an address, if it touches one. -/
def Operation.nodeWrite : Operation → Option (String × Option Node)
  | .insert node => some (node.address, some node)
  | .delete address => some (address, none)
  | _ => none

theorem Operation.eq_insert_of_nodeWrite {op : Operation} {address : String} {node : Node}
    (h : op.nodeWrite = some (address, some node)) : op = .insert node := by
  cases op with
  | insert written =>
    simp only [nodeWrite, Option.some.injEq, Prod.mk.injEq] at h
    rw [h.2]
  | _ => simp [nodeWrite] at h

theorem Operation.address_of_nodeWrite {op : Operation} {address : String} {node : Node}
    (h : op.nodeWrite = some (address, some node)) : node.address = address := by
  obtain rfl := eq_insert_of_nodeWrite h
  exact (Prod.mk.inj (Option.some.inj h)).1

/-- What an operation does to an edge, if it touches one. -/
def Operation.edgeWrite : Operation → Option (EdgeId × Option Edge)
  | .insertEdge edge => some (edge.id, some edge)
  | .deleteEdge id => some (id, none)
  | _ => none

namespace View

/-- The entries stand in order, and one that leads to a node stands under its address. -/
structure WellFormed (v : View) : Prop where
  primary : Sorted v.primary
  address : ∀ {key : Bytes} {node : Node}, (key, .ok node) ∈ v.primary → key = utf8 node.address
  edgeOut : Sorted v.edgeOut

theorem WellFormed.empty : WellFormed (Trees.empty : View) where
  primary := sorted_nil
  address := nofun
  edgeOut := sorted_nil

variable {v v' : View} {op : Operation}

variable {address : String} {node : Node}

theorem readNode_eq_some :
    v.readNode address = .ok (some node) ↔
      find (utf8 address) v.primary = some (.ok node) := by
  rw [readNode]
  rcases find (utf8 address) v.primary with _ | entry
  · simp
  · cases entry <;> simp [map]

theorem WellFormed.address_eq (h : v.WellFormed) (hread : v.readNode address = .ok (some node)) :
    node.address = address := by
  have hmem := h.primary.find_eq_some.1 (readNode_eq_some.1 hread)
  exact (utf8_inj (h.address hmem)).symm

theorem readNode_eq_none :
    v.readNode address = .ok none ↔ find (utf8 address) v.primary = none := by
  rw [readNode]
  rcases find (utf8 address) v.primary with _ | entry
  · simp
  · cases entry <;> simp [map]

theorem containsNode_of_readNode (h : v.readNode address = .ok (some node)) :
    v.containsNode address := by
  rw [containsNode, readNode_eq_some.1 h]
  rfl

theorem apply_insert_ok (happly : v.apply st (.write (.insert node)) = .ok v') :
    ∃ previous, v.readNode node.address = .ok previous ∧
      v' = v.insertNode st previous node (.ok node) := by
  rw [apply] at happly
  rcases hread : v.readNode node.address with e | previous
  · simp [hread] at happly
  simp only [hread, ok.injEq] at happly
  exact ⟨previous, rfl, happly.symm⟩

theorem apply_delete_ok (happly : v.apply st (.write (.delete address)) = .ok v') :
    (v.readNode address = .ok none ∧ v' = v) ∨
      ∃ node, v.readNode address = .ok (some node) ∧ v' = v.deleteNode st address node := by
  rw [apply] at happly
  rcases hread : v.readNode address with e | _ | node
  · simp [hread] at happly
  · simp only [hread, ok.injEq] at happly
    exact .inl ⟨rfl, happly.symm⟩
  · simp only [hread, ok.injEq] at happly
    exact .inr ⟨node, rfl, happly.symm⟩

/-- What an operation that can be applied does to the two trees that nodes and edges are found by. -/
theorem apply_trees (happly : v.apply st (.write op) = .ok v') :
    (v'.primary = match op.nodeWrite with
      | some (address, some node) => SortedMap.insert (utf8 address) (.ok node) v.primary
      | some (address, none) => if v.readNode address = .ok none then v.primary
        else erase (utf8 address) v.primary
      | none => v.primary) ∧
    (v'.edgeOut = match op.edgeWrite with
      | some (id, some edge) => SortedMap.insert id.outKey (.ok edge) v.edgeOut
      | some (id, none) => erase id.outKey v.edgeOut
      | none => v.edgeOut) := by
  cases op with
  | archive entry | insertEdge edge | deleteEdge id =>
    obtain rfl := ok.inj happly
    exact ⟨rfl, rfl⟩
  | insert node =>
    obtain ⟨previous, -, rfl⟩ := apply_insert_ok happly
    obtain ⟨hprimary, hout, -, -⟩ := Trees.insertNode_frame st previous node (.ok node) v
    exact ⟨hprimary, hout⟩
  | delete address =>
    rcases apply_delete_ok happly with ⟨hread, rfl⟩ | ⟨node, hread, rfl⟩
    · simp [Operation.nodeWrite, Operation.edgeWrite, hread]
    simp [Operation.nodeWrite, Operation.edgeWrite, hread, Trees.deleteNode,
      Trees.retractDataKeys, Trees.retractTextKeys, Trees.mapData, Trees.mapText]

theorem WellFormed.apply (h : v.WellFormed) (happly : v.apply st (.write op) = .ok v') :
    v'.WellFormed := by
  obtain ⟨hprimary, hout⟩ := apply_trees happly
  refine ⟨?_, ?_, ?_⟩
  · rw [hprimary]
    split
    · exact h.primary.insert
    · split
      · exact h.primary
      · exact h.primary.erase
    · exact h.primary
  · intro key node hmem
    rw [hprimary] at hmem
    split at hmem
    · rename_i hwrite
      obtain ⟨hkey, hnode⟩ | hold := (SortedMap.mem_insert.1 hmem).imp_left Prod.mk.inj
      · rw [ok.inj hnode, Operation.address_of_nodeWrite hwrite]
        exact hkey
      · exact h.address hold.1
    · split at hmem
      · exact h.address hmem
      · exact h.address (SortedMap.mem_erase.1 hmem).1
    · exact h.address hmem
  · rw [hout]
    split
    · exact h.edgeOut.insert
    · exact h.edgeOut.erase
    · exact h.edgeOut

/-- An operation changes the node of the address it touches, and no other one. -/
theorem readNode_apply (h : v.WellFormed) (happly : v.apply st (.write op) = .ok v')
    (address : String) : v'.readNode address = match op.nodeWrite with
      | some (touched, slot) => if address = touched then .ok slot else v.readNode address
      | none => v.readNode address := by
  have hprimary := (apply_trees happly).1
  rcases hwrite : op.nodeWrite with _ | ⟨touched, _ | node⟩ <;> rw [hwrite] at hprimary <;>
    simp only at hprimary ⊢
  · rw [readNode, readNode, hprimary]
  · split
    · subst address
      rw [readNode_eq_none, hprimary]
      split
      · rwa [← readNode_eq_none]
      · exact find_erase_self
    · rename_i hne
      split at hprimary
      · rw [readNode, readNode, hprimary]
      · rw [readNode, readNode, hprimary, h.primary.find_erase_of_ne fun hkey => hne (utf8_inj hkey)]
  · split
    · subst address
      rw [readNode_eq_some, hprimary]
      exact h.primary.find_insert_self
    · rename_i hne
      rw [readNode, readNode, hprimary, h.primary.find_insert_of_ne fun hkey => hne (utf8_inj hkey)]

/-- An operation changes the edge it touches, and no edge with another key. -/
theorem findEdge_apply (h : v.WellFormed) (happly : v.apply st (.write op) = .ok v')
    (id : EdgeId) : v'.findEdge id = match op.edgeWrite with
      | some (touched, slot) => if id.outKey = touched.outKey then .ok slot else v.findEdge id
      | none => v.findEdge id := by
  have hout := (apply_trees happly).2
  rcases hwrite : op.edgeWrite with _ | ⟨touched, _ | edge⟩ <;> rw [hwrite] at hout <;>
    simp only at hout ⊢
  · rw [findEdge, findEdge, hout]
  · split
    · rename_i hkey
      rw [findEdge, hout, hkey, find_erase_self]
    · rename_i hne
      rw [findEdge, findEdge, hout, h.edgeOut.find_erase_of_ne hne]
  · split
    · rename_i hkey
      rw [findEdge, hout, hkey, h.edgeOut.find_insert_self]
      rfl
    · rename_i hne
      rw [findEdge, findEdge, hout, h.edgeOut.find_insert_of_ne hne]

theorem exists_apply {slot : Option Node}
    (hread : ∀ touched written, op.nodeWrite = some (touched, written) →
      v.readNode touched = .ok slot) : ∃ v', v.apply st (.write op) = .ok v' := by
  cases op with
  | archive entry | insertEdge edge | deleteEdge id => exact ⟨_, rfl⟩
  | insert node =>
    rw [apply, hread _ _ rfl]
    exact ⟨_, rfl⟩
  | delete address =>
    rw [apply, hread _ _ rfl]
    cases slot <;> exact ⟨_, rfl⟩

/-! ## Reads after operations -/

theorem applyAll_append (v : View) (ops more : List Operation) :
    v.applyAll st (ops ++ more) = match v.applyAll st ops with
      | (.ok (), v') => v'.applyAll st more
      | (.error e, v') => (.error e, v') := by
  induction ops generalizing v with
  | nil => rfl
  | cons op ops ih =>
    rw [List.cons_append, applyAll, applyAll]
    rcases v.apply st (.write op) with e | next
    · rfl
    · exact ih next

theorem applyAll_cons_ok {ops : List Operation} (h : v.applyAll st (op :: ops) = (.ok (), v')) :
    ∃ next, v.apply st (.write op) = .ok next ∧ next.applyAll st ops = (.ok (), v') := by
  rw [applyAll] at h
  split at h
  · cases h
  · exact ⟨_, by assumption, h⟩

theorem applyAll_append_ok {ops more : List Operation}
    (h : v.applyAll st (ops ++ more) = (.ok (), v')) :
    ∃ mid, v.applyAll st ops = (.ok (), mid) ∧ mid.applyAll st more = (.ok (), v') := by
  rw [applyAll_append] at h
  split at h
  · exact ⟨_, by assumption, h⟩
  · cases h

theorem WellFormed.applyAll (h : v.WellFormed) (ops : List Operation) :
    (v.applyAll st ops).2.WellFormed := by
  induction ops generalizing v with
  | nil => exact h
  | cons op ops ih =>
    rw [View.applyAll]
    rcases happly : v.apply st (.write op) with e | next
    · exact h
    · exact ih (h.apply happly)

/-- Operations leave the nodes alone that none of them touches, however far they get. -/
theorem readNode_applyAll (h : v.WellFormed) {ops : List Operation}
    (huntouched : ∀ op ∈ ops, ∀ slot, op.nodeWrite ≠ some (address, slot)) :
    (v.applyAll st ops).2.readNode address = v.readNode address := by
  induction ops generalizing v with
  | nil => rfl
  | cons op ops ih =>
    rw [View.applyAll]
    rcases happly : v.apply st (.write op) with e | next
    · rfl
    rw [ih (h.apply happly) fun op hop => huntouched op (List.mem_cons_of_mem _ hop),
      readNode_apply h happly]
    have hop := huntouched op List.mem_cons_self
    split
    · rename_i touched slot hwrite
      exact if_neg fun haddress : address = touched => hop slot (haddress ▸ hwrite)
    · rfl

end View

/-! ## The lowering, step by step -/

/-- A node references a value: it is of the kind, and holds an equal value in the field. -/
def ReferenceDef.refers (J : SerdeJson) (decl : ReferenceDef) (key : J.Value) (node : Node) : Bool :=
  node.kind == decl.kind &&
    (decl.referencingKey J node).any fun value => value.eq J.numberEq key

theorem ReferenceDef.refers_iff {J : SerdeJson} {decl : ReferenceDef} {key : J.Value} {node : Node} :
    decl.refers J key node = true ↔ node.kind = decl.kind ∧
      ∃ value, decl.referencingKey J node = some value ∧ value.eq J.numberEq key = true := by
  rw [refers, Bool.and_eq_true, beq_iff_eq, Option.any_eq_true]

/-- A node references another one, by a declared reference. -/
def ReferenceDef.Links (J : SerdeJson) (decl : ReferenceDef) (parent child : Node) : Prop :=
  decl.parentKind = parent.kind ∧
    ∃ key, decl.referencedKey J parent = some key ∧ decl.refers J key child = true

section Keeps

variable (st) (references : References) (v : View)

/-- What a property of batches has to survive: the removal of nodes of `R`, which passes on to
    those that go with them, and the loss of a field by nodes of `C`. -/
structure KeepsRemoval (P : Batch → Prop) (R : Node → Prop) (C : ReferenceDef → Node → Prop) : Prop
    where
  remove {b : Batch} {node : Node} : P b → R node → P (b.remove node)
  child {b : Batch} {parent child : Node} {decl : ReferenceDef} {address : String} : P b → R parent →
    decl ∈ references → decl.onDelete = .cascade → decl.Links st.json parent child →
    v.stagedNode b address = .ok (some child) → R child
  loses {b : Batch} {parent child : Node} {decl : ReferenceDef} {address : String} : P b → R parent →
    decl ∈ references → decl.onDelete = .setNull → decl.Links st.json parent child →
    v.stagedNode b address = .ok (some child) → C decl child
  clear {b : Batch} {child cleared : Node} {decl : ReferenceDef} : P b → C decl child →
    withFieldNull st.json child decl.field = .ok cleared → P (b.replace child cleared.address cleared)

/-- One of the operations is this bulk delete. -/
def TxOperation.Selects {J : SerdeJson} (ops : List (TxOperation J)) (kind : String)
    (predicate : Option (Expr J.Number)) (owner : String) (isAdmin : Bool) : Prop :=
  (predicate = none ∧ .clearKind kind owner isAdmin ∈ ops) ∨
    .deleteWhere kind predicate owner isAdmin ∈ ops

/-- What a property of batches has to survive for the operations of a transaction. -/
structure Keeps (ops : List (TxOperation st.json)) (P : Batch → Prop) (R : Node → Prop)
    (C : ReferenceDef → Node → Prop) : Prop extends KeepsRemoval st references v P R C where
  write {b : Batch} {node : Node} : P b → .insertNode node ∈ ops →
    v.stagedNode b node.address = .ok none → P (b.put node.address node)
  overwrite {b : Batch} {old node : Node} : P b → .insertNode node ∈ ops →
    v.stagedNode b node.address = .ok (some old) → old.owner = node.owner →
    P (b.replace old node.address node)
  set {b : Batch} {node next : Node} {address field owner : String} {isAdmin : Bool}
    {expect : Expectation st.json} {fields : List (String × st.json.Value)} : P b →
    .setIf address field expect fields owner isAdmin ∈ ops →
    v.stagedNode b address = .ok (some node) → (isAdmin || node.canWrite owner) = true →
    setIfNext st node field expect fields = .ok next → P (b.replace node address next)
  named {b : Batch} {node : Node} {address : String} : P b → .deleteNode address ∈ ops →
    v.stagedNode b address = .ok (some node) → R node
  selected {b : Batch} {node : Node} {address kind owner : String} {isAdmin : Bool}
    {predicate : Option (Expr st.json.Number)} : P b →
    TxOperation.Selects ops kind predicate owner isAdmin →
    v.stagedNode b address = .ok (some node) →
    selectionMatches st node kind predicate owner isAdmin = .ok true → R node
  putEdge {b : Batch} {edge : Edge} {source target : Node} : P b → .insertEdge edge ∈ ops →
    v.stagedNode b edge.source = .ok (some source) →
    v.stagedNode b edge.target = .ok (some target) → P (b.putEdge edge)
  dropEdge {b : Batch} {edge : Edge} {id : EdgeId} {owner : String} {isAdmin : Bool} : P b →
    .deleteEdge id owner isAdmin ∈ ops → v.stagedEdge b id = .ok (some edge) →
    (isAdmin || edge.canWrite owner) = true → P (b.dropEdge id)

variable {st references v} {P : Batch → Prop} {R : Node → Prop} {C : ReferenceDef → Node → Prop}

namespace View

/-- A node that references a value does so in the state that the batch has reached. -/
theorem mem_referencingNodes {decl : ReferenceDef} {key : st.json.Value} {b : Batch}
    {written nodes : List Node} (h : v.referencingNodes st decl key b written = .ok nodes)
    {child : Node} (hchild : child ∈ nodes) :
    ∃ address, v.stagedNode b address = .ok (some child) ∧ decl.refers st.json key child = true := by
  rw [referencingNodes] at h
  split at h
  · cases h
  obtain ⟨found, -, h⟩ := bind_eq_ok.1 h
  refine List.foldlM_ok (P := fun nodes : List Node => ∀ child ∈ nodes, ∃ address,
    v.stagedNode b address = .ok (some child) ∧ decl.refers st.json key child = true)
    (fun child hchild => absurd hchild List.not_mem_nil) ?_ h child hchild
  rintro address - nodes nodes' ih hstep child hchild
  obtain ⟨slot, hslot, hstep⟩ := mapError_bind_eq_ok.1 hstep
  rcases slot with _ | node
  · exact ih child (ok.inj hstep ▸ hchild)
  simp only at hstep
  split at hstep
  · rename_i hmatch
    obtain rfl := ok.inj hstep
    rcases List.mem_append.1 hchild with hold | hnew
    · exact ih child hold
    · obtain rfl := List.mem_singleton.1 hnew
      exact ⟨address, hslot, hmatch⟩
  · exact ih child (ok.inj hstep ▸ hchild)

/-- For a reference, other nodes that reference the removed one are queued or lose the field. -/
theorem actOnReference_cases {written : List Node} {node : Node} {decl : ReferenceDef}
    {c c' : Closure} (hact : v.actOnReference st written node c decl = .ok c') :
    (decl.referencedKey st.json node = none ∧ c' = c) ∨
      ∃ key nodes, decl.referencedKey st.json node = some key ∧
        v.referencingNodes st decl key c.batch written = .ok nodes ∧
        ((nodes.filter fun child => !c.removed.contains child.address) = [] ∧ c' = c ∨
          decl.onDelete = .cascade ∧ c' = { c with
            queue := c.queue ++ nodes.filter fun child => !c.removed.contains child.address } ∨
          decl.onDelete = .setNull ∧ ∃ batch,
            (nodes.filter fun child => !c.removed.contains child.address).foldlM
              (clearField st decl.field) c.batch = .ok batch ∧ c' = { c with batch := batch }) := by
  rw [actOnReference] at hact
  rcases hkey : decl.referencedKey st.json node with _ | key
  · rw [hkey] at hact
    exact .inl ⟨rfl, (ok.inj hact).symm⟩
  simp only [hkey] at hact
  obtain ⟨nodes, hnodes, hact⟩ := mapError_bind_eq_ok.1 hact
  refine .inr ⟨key, nodes, rfl, hnodes, ?_⟩
  generalize (nodes.filter fun child => !c.removed.contains child.address) = children at hact ⊢
  rcases children with _ | ⟨first, rest⟩
  · exact .inl ⟨rfl, (ok.inj hact).symm⟩
  cases haction : decl.onDelete with
  | restrict =>
    rw [haction] at hact
    cases hact
  | cascade =>
    rw [haction] at hact
    exact .inr (.inl ⟨rfl, (ok.inj hact).symm⟩)
  | setNull =>
    simp only [haction] at hact
    obtain ⟨batch, hbatch, hact⟩ := bind_eq_ok.1 hact
    exact .inr (.inr ⟨rfl, batch, hbatch, (ok.inj hact).symm⟩)

end View

namespace KeepsRemoval

variable (h : KeepsRemoval st references v P R C)

include h

theorem clearFields {decl : ReferenceDef} {children : List Node}
    (hchildren : ∀ child ∈ children, C decl child) {b b' : Batch} (hb : P b)
    (hclear : children.foldlM (View.clearField st decl.field) b = .ok b') : P b' := by
  refine List.foldlM_ok hb (fun child hchild b b' hb hstep => ?_) hclear
  obtain ⟨cleared, hcleared, hstep⟩ := mapError_bind_eq_ok.1 hstep
  exact ok.inj hstep ▸ h.clear hb (hchildren child hchild) hcleared

/-- One reference: the children it finds are known of, and go to the queue or lose the field. -/
theorem actOnReference {written : List Node} {node : Node} (hnode : R node)
    {decl : ReferenceDef} (hdecl : decl ∈ references) (hkind : decl.parentKind = node.kind)
    {c c' : View.Closure} (hc : P c.batch ∧ ∀ queued ∈ c.queue, R queued)
    (hact : v.actOnReference st written node c decl = .ok c') :
    P c'.batch ∧ ∀ queued ∈ c'.queue, R queued := by
  rcases View.actOnReference_cases hact with ⟨-, rfl⟩ | ⟨key, nodes, hkey, hnodes, hacted⟩
  · exact hc
  have hchildren (child : Node)
      (hchild : child ∈ nodes.filter fun child => !c.removed.contains child.address) :
      decl.Links st.json node child ∧ ∃ address, v.stagedNode c.batch address = .ok (some child) := by
    obtain ⟨address, hstaged, hrefers⟩ :=
      View.mem_referencingNodes hnodes (List.mem_filter.1 hchild).1
    exact ⟨⟨hkind, key, hkey, hrefers⟩, address, hstaged⟩
  rcases hacted with ⟨-, rfl⟩ | ⟨haction, rfl⟩ | ⟨haction, b, hb, rfl⟩
  · exact hc
  · refine ⟨hc.1, fun queued hqueued => (List.mem_append.1 hqueued).elim (hc.2 queued) fun hnew => ?_⟩
    obtain ⟨hlinks, address, hstaged⟩ := hchildren queued hnew
    exact h.child hc.1 hnode hdecl haction hlinks hstaged
  · refine ⟨h.clearFields (fun child hchild => ?_) hc.1 hb, hc.2⟩
    obtain ⟨hlinks, address, hstaged⟩ := hchildren child hchild
    exact h.loses hc.1 hnode hdecl haction hlinks hstaged

theorem actOnReferences {written : List Node} {node : Node} (hnode : R node) {c c' : View.Closure}
    (hc : P c.batch ∧ ∀ queued ∈ c.queue, R queued)
    (hacts : (references.forParent node.kind).foldlM (v.actOnReference st written node) c = .ok c') :
    P c'.batch ∧ ∀ queued ∈ c'.queue, R queued := by
  refine List.foldlM_ok (P := fun c : View.Closure => P c.batch ∧ ∀ queued ∈ c.queue, R queued) hc
    (fun decl hdecl _ _ hc hact => ?_) hacts
  obtain ⟨hdecl, hkind⟩ := List.mem_filter.1 hdecl
  exact h.actOnReference hnode hdecl (beq_iff_eq.1 hkind) hc hact

end KeepsRemoval

/-- The removal of nodes only adds operations. -/
theorem keepsRemoval_length (n : Nat) :
    KeepsRemoval st references v (fun b => n ≤ b.operations.length) (fun _ => True) fun _ _ => True
    where
  remove hb _ := by
    simp only [Batch.remove, Batch.drop, Batch.push, Batch.archive, List.length_append]
    omega
  child _ _ _ _ _ _ := trivial
  loses _ _ _ _ _ _ := trivial
  clear hb _ _ := by
    simp only [Batch.replace, Batch.put, Batch.push, Batch.archive, List.length_append]
    omega

namespace View

/-- What is left of the queue when the nodes that have been removed are passed over. -/
abbrev Closure.pending (c : Closure) : List Node :=
  c.queue.dropWhile fun node => c.removed.contains node.address

/-- The next node is removed, and its references have yet to act. -/
abbrev Closure.pop (c : Closure) (node : Node) (queue : List Node) : Closure :=
  ⟨c.batch.remove node, queue, node.address :: c.removed⟩

theorem Closure.mem_queue {c : Closure} {node queued : Node} {queue : List Node}
    (hdrop : c.pending = node :: queue) (hqueued : queued ∈ node :: queue) : queued ∈ c.queue :=
  (List.dropWhile_sublist _).subset (hdrop ▸ hqueued)

variable {written : List Node} {c c' : Closure} {node : Node} {queue : List Node}

theorem length_pop (hacts : (references.forParent node.kind).foldlM
      (v.actOnReference st written node) (c.pop node queue) = .ok c') :
    c.batch.operations.length + 2 ≤ c'.batch.operations.length := by
  have hlength := ((keepsRemoval_length (c.pop node queue).batch.operations.length).actOnReferences
    trivial ⟨le_rfl, fun _ _ => trivial⟩ hacts).1
  simpa [Batch.remove, Batch.drop, Batch.push, Batch.archive] using hlength

/-- A loop that ends well is done, or goes on within the bound after one more round. -/
theorem closeDeletes_eq_ok {rounds : Nat} {b : Batch}
    (hclose : v.closeDeletes st references written (rounds + 1) c = .ok b) :
    c.pending = [] ∧ c.batch = b ∨ ∃ node queue c', c.pending = node :: queue ∧
      (references.forParent node.kind).foldlM (v.actOnReference st written node)
        (c.pop node queue) = .ok c' ∧
      c'.batch.operations.length ≤ st.maxTransactionOps ∧
      v.closeDeletes st references written rounds c' = .ok b := by
  rw [closeDeletes] at hclose
  split at hclose
  · next hdrop => exact .inl ⟨hdrop, ok.inj hclose⟩
  next node queue hdrop =>
  obtain ⟨c', hacts, hclose⟩ := bind_eq_ok.1 hclose
  split at hclose
  · cases hclose
  next hbound => exact .inr ⟨node, queue, c', hdrop, hacts, not_lt.1 hbound, hclose⟩

theorem closeDeletes_congr {n m : Nat} (h : ∀ c' : Closure,
      c.batch.operations.length + 2 ≤ c'.batch.operations.length →
      c'.batch.operations.length ≤ st.maxTransactionOps →
      v.closeDeletes st references written n c' = v.closeDeletes st references written m c') :
    v.closeDeletes st references written (n + 1) c =
      v.closeDeletes st references written (m + 1) c := by
  rw [closeDeletes, closeDeletes]
  split
  · rfl
  next node queue hdrop =>
  rcases hacts : (references.forParent node.kind).foldlM (v.actOnReference st written node)
    (c.pop node queue) with e | c'
  · rfl
  change (if _ then _ else _) = (if _ then _ else _)
  split_ifs with hbound
  · rfl
  · exact h c' (length_pop hacts) (not_lt.1 hbound)

end View

theorem KeepsRemoval.closeDeletes (h : KeepsRemoval st references v P R C) {written : List Node}
    {rounds : Nat} {c : View.Closure} {b : Batch} (hc : P c.batch)
    (hqueue : ∀ queued ∈ c.queue, R queued)
    (hclose : v.closeDeletes st references written rounds c = .ok b) : P b := by
  induction rounds generalizing c with
  | zero => exact ok.inj hclose ▸ hc
  | succ rounds ih =>
    rcases View.closeDeletes_eq_ok hclose with
      ⟨-, rfl⟩ | ⟨node, queue, c', hdrop, hacts, -, hclose⟩
    · exact hc
    have hrest : ∀ queued ∈ node :: queue, R queued := fun queued hqueued =>
      hqueue queued (View.Closure.mem_queue hdrop hqueued)
    obtain ⟨hnode, hrest⟩ := List.forall_mem_cons.1 hrest
    obtain ⟨hc', hqueue'⟩ := h.actOnReferences hnode ⟨h.remove hc hnode, hrest⟩ hacts
    exact ih hc' hqueue' hclose

theorem KeepsRemoval.lowerDeleteClosure (h : KeepsRemoval st references v P R C) {seeds : List Node}
    (hseeds : ∀ seed ∈ seeds, R seed) {b b' : Batch}
    (hb : P b) (hlower : v.lowerDeleteClosure st references seeds b = .ok b') : P b' := by
  rw [View.lowerDeleteClosure] at hlower
  split at hlower
  · obtain rfl := ok.inj hlower
    clear hlower
    induction seeds generalizing b with
    | nil => exact hb
    | cons seed seeds ih =>
      exact ih (fun seed hseed => hseeds seed (List.mem_cons_of_mem _ hseed))
        (h.remove hb (hseeds seed List.mem_cons_self))
  · exact h.closeDeletes hb hseeds hlower

theorem closeDeletes_succ {written : List Node} {rounds : Nat} {c : View.Closure}
    (hrounds : st.maxTransactionOps < c.batch.operations.length + 2 * rounds + 2) :
    v.closeDeletes st references written (rounds + 2) c =
      v.closeDeletes st references written (rounds + 1) c := by
  induction rounds generalizing c with
  | zero => exact View.closeDeletes_congr fun c' hlength hbound => by omega
  | succ rounds ih => exact View.closeDeletes_congr fun c' hlength _ => ih (by omega)

theorem closeDeletes_rounds {written : List Node} {c : View.Closure} (more : Nat) :
    v.closeDeletes st references written (st.maxTransactionOps + 2 + more) c =
      v.closeDeletes st references written (st.maxTransactionOps + 2) c := by
  induction more with
  | zero => rfl
  | succ more ih =>
    rw [← ih, ← Nat.add_assoc, Nat.add_right_comm _ 2 more]
    exact closeDeletes_succ (by omega)

theorem canWrite_of_selectionMatches {node : Node} {kind owner : String} {isAdmin : Bool}
    {predicate : Option (Expr st.json.Number)}
    (h : selectionMatches st node kind predicate owner isAdmin = .ok true) :
    (isAdmin || node.canWrite owner) = true := by
  unfold selectionMatches at h
  split at h
  · cases h
  · split at h
    · cases h
    · rename_i hallowed
      simpa [or_iff_not_imp_left] using hallowed

namespace View

/-- What a bulk delete selects is there and may be written. -/
theorem mem_stagedSelection {b : Batch} {kind owner : String} {isAdmin : Bool}
    {predicate : Option (Expr st.json.Number)} {targets : List String}
    (h : v.stagedSelection st b kind predicate owner isAdmin = .ok targets) {address : String}
    (haddress : address ∈ targets) :
    ∃ node, v.stagedNode b address = .ok (some node) ∧
      selectionMatches st node kind predicate owner isAdmin = .ok true := by
  obtain ⟨found, -, h⟩ := bind_eq_ok.1 h
  refine List.foldlM_ok (P := fun targets : List String => ∀ address ∈ targets, ∃ node,
    v.stagedNode b address = .ok (some node) ∧
      selectionMatches st node kind predicate owner isAdmin = .ok true)
    (fun address haddress => absurd haddress List.not_mem_nil) ?_ h address haddress
  rintro candidate - targets targets' ih hstep address haddress
  obtain ⟨slot, hslot, hstep⟩ := mapError_bind_eq_ok.1 hstep
  rcases slot with _ | node
  · exact ih address (ok.inj hstep ▸ haddress)
  obtain ⟨selected, hselected, hstep⟩ := bind_eq_ok.1 hstep
  rcases selected with _ | _
  · exact ih address (ok.inj hstep ▸ haddress)
  obtain rfl := ok.inj hstep
  rcases List.mem_append.1 haddress with hold | hnew
  · exact ih address hold
  · exact List.mem_singleton.1 hnew ▸ ⟨node, hslot, hselected⟩

/-- Addresses that name nodes come to those nodes, and to no other change of the batch. -/
theorem selectSeeds {b b' : Batch} {targets : List String} {seeds : List Node}
    (htargets : ∀ address ∈ targets, ∃ node, v.stagedNode b address = .ok (some node))
    (h : targets.foldlM v.selectSeed (b, []) = .ok (b', seeds)) :
    b' = b ∧ ∀ seed ∈ seeds, ∃ address ∈ targets, v.stagedNode b address = .ok (some seed) := by
  refine List.foldlM_ok (P := fun c : Batch × List Node => c.1 = b ∧
    ∀ seed ∈ c.2, ∃ address ∈ targets, v.stagedNode b address = .ok (some seed))
    ⟨rfl, fun seed hseed => absurd hseed List.not_mem_nil⟩ ?_ h
  rintro address haddress ⟨b₁, seeds₁⟩ ⟨b₂, seeds₂⟩ ⟨rfl, ih⟩ hstep
  obtain ⟨node, hnode⟩ := htargets address haddress
  rw [selectSeed, hnode] at hstep
  obtain ⟨rfl, rfl⟩ := Prod.mk.inj (ok.inj hstep)
  refine ⟨rfl, fun seed hseed => ?_⟩
  rcases List.mem_append.1 hseed with hold | hnew
  · exact ih seed hold
  · exact ⟨address, haddress, List.mem_singleton.1 hnew ▸ hnode⟩

theorem exists_of_requireEndpoint {b : Batch} {endpoint label : String}
    (hrequire : v.requireEndpoint b endpoint label = .ok ()) :
    ∃ node, v.stagedNode b endpoint = .ok (some node) := by
  obtain ⟨slot, hslot, hrequire⟩ := mapError_bind_eq_ok.1 hrequire
  rcases slot with _ | node
  · cases hrequire
  · exact ⟨node, hslot⟩

/-- What an operation comes to when it is not refused. -/
def Lowers (st : Settings) (references : References) (v : View) (b b' : Batch) :
    TxOperation st.json → Prop
  | .insertNode node => (v.stagedNode b node.address = .ok none ∧ b.put node.address node = b') ∨
      ∃ old, v.stagedNode b node.address = .ok (some old) ∧ old.owner = node.owner ∧
        b.replace old node.address node = b'
  | .deleteNode address => (find address b.staged = some none ∧ b = b') ∨
      ∃ node, v.stagedNode b address = .ok (some node) ∧
        v.lowerDeleteClosure st references [node] b = .ok b'
  | .clearKind kind owner isAdmin =>
      v.lowerSelection st references b kind none owner isAdmin = .ok b'
  | .deleteWhere kind predicate owner isAdmin =>
      v.lowerSelection st references b kind predicate owner isAdmin = .ok b'
  | .setIf address field expect set owner isAdmin => ∃ node next,
      v.stagedNode b address = .ok (some node) ∧ (isAdmin || node.canWrite owner) = true ∧
        setIfNext st node field expect set = .ok next ∧ b.replace node address next = b'
  | .insertEdge edge => ∃ source target, v.stagedNode b edge.source = .ok (some source) ∧
      v.stagedNode b edge.target = .ok (some target) ∧ b.putEdge edge = b'
  | .deleteEdge id owner isAdmin => (b.stagedEdges id = some none ∧ b = b') ∨
      ∃ edge, v.stagedEdge b id = .ok (some edge) ∧ (isAdmin || edge.canWrite owner) = true ∧
        b.dropEdge id = b'

theorem lowers_of_lowerOperation {op : TxOperation st.json} {b b' : Batch}
    (hlower : v.lowerOperation st references b op = .ok b') : Lowers st references v b b' op := by
  cases op with
  | insertNode node =>
    obtain ⟨slot, hslot, hlower⟩ := mapError_bind_eq_ok.1 hlower
    rcases slot with _ | old
    · exact .inl ⟨hslot, ok.inj hlower⟩
    simp only at hlower
    split_ifs at hlower with howner
    exact .inr ⟨old, hslot, by simpa using howner, ok.inj hlower⟩
  | deleteNode address =>
    rw [lowerOperation] at hlower
    split_ifs at hlower with hgone
    · exact .inl ⟨hgone, ok.inj hlower⟩
    obtain ⟨slot, hslot, hlower⟩ := mapError_bind_eq_ok.1 hlower
    rcases slot with _ | node
    · cases hlower
    exact .inr ⟨node, hslot, hlower⟩
  | clearKind kind owner isAdmin | deleteWhere kind predicate owner isAdmin => exact hlower
  | setIf address field expect fields owner isAdmin =>
    obtain ⟨slot, hslot, hlower⟩ := mapError_bind_eq_ok.1 hlower
    rcases slot with _ | node
    · cases hlower
    simp only at hlower
    split_ifs at hlower with hallowed
    obtain ⟨next, hnext, hlower⟩ := bind_eq_ok.1 hlower
    exact ⟨node, next, hslot, by simpa [or_iff_not_imp_left] using hallowed, hnext,
      ok.inj hlower⟩
  | insertEdge edge =>
    obtain ⟨⟨⟩, hsource, hlower⟩ := bind_eq_ok.1 hlower
    obtain ⟨⟨⟩, htarget, hlower⟩ := bind_eq_ok.1 hlower
    obtain ⟨source, hsource⟩ := exists_of_requireEndpoint hsource
    obtain ⟨target, htarget⟩ := exists_of_requireEndpoint htarget
    exact ⟨source, target, hsource, htarget, ok.inj hlower⟩
  | deleteEdge id owner isAdmin =>
    rw [lowerOperation] at hlower
    split_ifs at hlower with hgone
    · exact .inl ⟨hgone, ok.inj hlower⟩
    obtain ⟨slot, hslot, hlower⟩ := mapError_bind_eq_ok.1 hlower
    rcases slot with _ | edge
    · cases hlower
    simp only at hlower
    split_ifs at hlower with hallowed
    exact .inr ⟨edge, hslot, by simpa [or_iff_not_imp_left] using hallowed, ok.inj hlower⟩

end View

namespace Keeps

variable {ops : List (TxOperation st.json)} (h : Keeps st references v ops P R C)

include h

theorem lowerSelection {kind owner : String} {isAdmin : Bool}
    {predicate : Option (Expr st.json.Number)}
    (hop : TxOperation.Selects ops kind predicate owner isAdmin) {b b' : Batch} (hb : P b)
    (hlower : v.lowerSelection st references b kind predicate owner isAdmin = .ok b') : P b' := by
  obtain ⟨targets, htargets, hrest⟩ := mapError_bind_eq_ok.1 hlower
  obtain ⟨⟨b₁, seeds⟩, hseeds, hclosure⟩ := bind_eq_ok.1 hrest
  have hselected : ∀ address ∈ targets, ∃ node, v.stagedNode b address = .ok (some node) ∧
      selectionMatches st node kind predicate owner isAdmin = .ok true :=
    fun _ => View.mem_stagedSelection htargets
  obtain ⟨rfl, hseeds⟩ := View.selectSeeds
    (fun address haddress => (hselected address haddress).imp fun _ => And.left) hseeds
  refine h.toKeepsRemoval.lowerDeleteClosure (fun seed hseed => ?_) hb hclosure
  obtain ⟨address, haddress, hstaged⟩ := hseeds seed hseed
  obtain ⟨node, hnode, hwrite⟩ := hselected address haddress
  obtain rfl : node = seed := Option.some.inj (ok.inj (hnode.symm.trans hstaged))
  exact h.selected hb hop hnode hwrite

theorem lowerOperation {op : TxOperation st.json} (hop : op ∈ ops) {b b' : Batch} (hb : P b)
    (hlower : v.lowerOperation st references b op = .ok b') : P b' := by
  have hlowers := View.lowers_of_lowerOperation hlower
  cases op with
  | insertNode node =>
    rcases hlowers with ⟨hslot, rfl⟩ | ⟨old, hslot, howner, rfl⟩
    · exact h.write hb hop hslot
    · exact h.overwrite hb hop hslot howner
  | deleteNode address =>
    rcases hlowers with ⟨-, rfl⟩ | ⟨node, hslot, hclosure⟩
    · exact hb
    have hnode : R node := h.named hb hop hslot
    exact h.toKeepsRemoval.lowerDeleteClosure (by simpa using hnode) hb hclosure
  | clearKind kind owner isAdmin => exact h.lowerSelection (.inl ⟨rfl, hop⟩) hb hlowers
  | deleteWhere kind predicate owner isAdmin => exact h.lowerSelection (.inr hop) hb hlowers
  | setIf address field expect fields owner isAdmin =>
    obtain ⟨node, next, hslot, hallowed, hnext, rfl⟩ := hlowers
    exact h.set hb hop hslot hallowed hnext
  | insertEdge edge =>
    obtain ⟨source, target, hsource, htarget, rfl⟩ := hlowers
    exact h.putEdge hb hop hsource htarget
  | deleteEdge id owner isAdmin =>
    rcases hlowers with ⟨-, rfl⟩ | ⟨edge, hslot, hallowed, rfl⟩
    · exact hb
    · exact h.dropEdge hb hop hslot hallowed

/-- Two properties that survive each step do so together. -/
theorem and {P' : Batch → Prop} {R' : Node → Prop} {C' : ReferenceDef → Node → Prop}
    (h' : Keeps st references v ops P' R' C') :
    Keeps st references v ops (fun b => P b ∧ P' b) (fun node => R node ∧ R' node)
      fun decl node => C decl node ∧ C' decl node where
  remove hb hnode := ⟨h.remove hb.1 hnode.1, h'.remove hb.2 hnode.2⟩
  child hb hparent hdecl haction hlinks hstaged :=
    ⟨h.child hb.1 hparent.1 hdecl haction hlinks hstaged,
      h'.child hb.2 hparent.2 hdecl haction hlinks hstaged⟩
  loses hb hparent hdecl haction hlinks hstaged :=
    ⟨h.loses hb.1 hparent.1 hdecl haction hlinks hstaged,
      h'.loses hb.2 hparent.2 hdecl haction hlinks hstaged⟩
  clear hb hchild hcleared := ⟨h.clear hb.1 hchild.1 hcleared, h'.clear hb.2 hchild.2 hcleared⟩
  write hb hop hstaged := ⟨h.write hb.1 hop hstaged, h'.write hb.2 hop hstaged⟩
  overwrite hb hop hstaged howner :=
    ⟨h.overwrite hb.1 hop hstaged howner, h'.overwrite hb.2 hop hstaged howner⟩
  set hb hop hstaged hallowed hnext :=
    ⟨h.set hb.1 hop hstaged hallowed hnext, h'.set hb.2 hop hstaged hallowed hnext⟩
  named hb hop hstaged := ⟨h.named hb.1 hop hstaged, h'.named hb.2 hop hstaged⟩
  selected hb hop hstaged hallowed :=
    ⟨h.selected hb.1 hop hstaged hallowed, h'.selected hb.2 hop hstaged hallowed⟩
  putEdge hb hop hsource htarget :=
    ⟨h.putEdge hb.1 hop hsource htarget, h'.putEdge hb.2 hop hsource htarget⟩
  dropEdge hb hop hstaged hallowed :=
    ⟨h.dropEdge hb.1 hop hstaged hallowed, h'.dropEdge hb.2 hop hstaged hallowed⟩

theorem lowerTransaction {stamp : Stamp} (hstart : P (.start stamp)) {lowered : List Operation}
    (hlower : v.lowerTransaction st references stamp ops = .ok lowered) :
    ∃ b, P b ∧ b.operations = lowered := by
  obtain ⟨b, hb, hlower⟩ := bind_eq_ok.1 hlower
  refine ⟨b, ?_, ok.inj hlower⟩
  exact List.foldlM_ok hstart (fun op hop b b' hb hstep => h.lowerOperation hop hb hstep) hb

end Keeps

end Keeps

/-! ## The state that a batch has reached -/

section Reached

variable (st) (v : View) (b : Batch) (v' : View)

/-- The operations of a batch lead to this state, and the overlay says what is in it. -/
structure Reached : Prop where
  applied : v.applyAll st b.operations = (.ok (), v')
  staged : Sorted b.staged
  nodes : ∀ address, v.stagedNode b address = v'.readNode address
  readable : ∀ address slot, find address b.staged = some slot →
    ∃ old, v.readNode address = .ok old

variable {st v b v'}

theorem Reached.start (stamp : Stamp) : Reached st v (.start stamp) v :=
  ⟨rfl, sorted_nil, fun _ => rfl, fun _ _ h => by cases h⟩

theorem Reached.wellFormed (h : Reached st v b v') (hv : v.WellFormed) : v'.WellFormed := by
  have hall : (v.applyAll st b.operations).2.WellFormed := hv.applyAll _
  rwa [h.applied] at hall

theorem Reached.address_eq (h : Reached st v b v') (hv : v.WellFormed) {address : String}
    {node : Node} (hstaged : v.stagedNode b address = .ok (some node)) : node.address = address :=
  (h.wellFormed hv).address_eq (h.nodes address ▸ hstaged)

theorem stagedNode_cases {address : String} {slot : Option Node}
    (h : v.stagedNode b address = .ok slot) :
    v.readNode address = .ok slot ∨ find address b.staged = some slot := by
  rw [View.stagedNode] at h
  split at h
  · obtain rfl := ok.inj h
    exact .inr (by assumption)
  · exact .inl h

theorem Reached.readable_of_staged (h : Reached st v b v') {address : String} {slot : Option Node}
    (hstaged : v.stagedNode b address = .ok slot) : ∃ old, v.readNode address = .ok old :=
  (stagedNode_cases hstaged).elim (fun hread => ⟨slot, hread⟩) (h.readable address slot)

/-- One more operation leads on, if what it touches could be read from the start. -/
theorem Reached.push (h : Reached st v b v') (hv : v.WellFormed) (op : Operation) (b' : Batch)
    (hops : b'.operations = b.operations ++ [op])
    (hstaged : b'.staged = match op.nodeWrite with
      | some (address, slot) => SortedMap.insert address slot b.staged
      | none => b.staged)
    (hread : ∀ address slot, op.nodeWrite = some (address, slot) →
      ∃ old, v.readNode address = .ok old) :
    ∃ next, v'.apply st (.write op) = .ok next ∧ Reached st v b' next := by
  have hcan : ∃ slot, ∀ touched written, op.nodeWrite = some (touched, written) →
      v'.readNode touched = .ok slot := by
    rcases hwrite : op.nodeWrite with _ | ⟨touched, written⟩
    · exact ⟨none, by simp⟩
    obtain ⟨slot, hslot⟩ : ∃ slot, v.stagedNode b touched = .ok slot := by
      rw [View.stagedNode]
      cases find touched b.staged
      · exact hread touched written hwrite
      · exact ⟨_, rfl⟩
    refine ⟨slot, fun _ _ heq => ?_⟩
    rw [← (Prod.mk.inj (Option.some.inj heq)).1, ← h.nodes, hslot]
  obtain ⟨slot, hcan⟩ := hcan
  obtain ⟨next, hnext⟩ : ∃ next, v'.apply st (.write op) = .ok next := View.exists_apply hcan
  refine ⟨next, hnext, ?_, ?_, fun address => ?_, fun address slot hfind => ?_⟩
  · rw [hops, View.applyAll_append, h.applied]
    simp only [View.applyAll, hnext]
  · rw [hstaged]
    split
    · exact h.staged.insert
    · exact h.staged
  · rw [View.readNode_apply (h.wellFormed hv) hnext, View.stagedNode, hstaged]
    rcases op.nodeWrite with _ | ⟨touched, written⟩
    · rw [← h.nodes, View.stagedNode]
    by_cases haddress : address = touched
    · subst address
      simp only [h.staged.find_insert_self, if_true]
    · simp only [h.staged.find_insert_of_ne haddress, haddress, if_false, ← h.nodes,
        View.stagedNode]
  · rw [hstaged] at hfind
    split at hfind
    · rename_i touched written hwrite
      by_cases haddress : address = touched
      · exact haddress ▸ hread touched written hwrite
      · exact h.readable address slot (h.staged.find_insert_of_ne haddress ▸ hfind)
    · exact h.readable address slot hfind

/-- A state that the batch reaches. -/
def Applies (st : Settings) (v : View) (b : Batch) : Prop := ∃ v', Reached st v b v'

namespace Applies

variable {address : String} {node : Node} (hv : v.WellFormed) (h : Applies st v b)

include h

theorem readable {slot : Option Node} (hstaged : v.stagedNode b address = .ok slot) :
    ∃ old, v.readNode address = .ok old :=
  h.elim fun _ h => h.readable_of_staged hstaged

/-- What holds of the slots of a batch holds with one more slot, if it holds of that one. -/
theorem slots {b' : Batch} {Φ : String → Option Node → Prop}
    (hb : ∀ address slot, find address b.staged = some slot → Φ address slot) {slot : Option Node}
    (hstaged : b'.staged = SortedMap.insert address slot b.staged) (hslot : Φ address slot)
    (touched : String) (slot' : Option Node) (hfind : find touched b'.staged = some slot') :
    Φ touched slot' := by
  obtain ⟨v', h⟩ := h
  rw [hstaged] at hfind
  by_cases haddress : touched = address
  · subst haddress
    rw [h.staged.find_insert_self] at hfind
    exact Option.some.inj hfind ▸ hslot
  · exact hb touched slot' (h.staged.find_insert_of_ne haddress ▸ hfind)

include hv

theorem address_eq (hstaged : v.stagedNode b address = .ok (some node)) : node.address = address :=
  h.elim fun _ h => h.address_eq hv hstaged

theorem readable_address (hstaged : v.stagedNode b address = .ok (some node)) :
    ∃ old, v.readNode node.address = .ok old :=
  h.address_eq hv hstaged ▸ h.readable hstaged

theorem push (op : Operation) {b' : Batch} (hops : b'.operations = b.operations ++ [op])
    (hstaged : b'.staged = match op.nodeWrite with
      | some (address, slot) => SortedMap.insert address slot b.staged
      | none => b.staged)
    (hread : ∀ address slot, op.nodeWrite = some (address, slot) →
      ∃ old, v.readNode address = .ok old) : Applies st v b' := by
  obtain ⟨v', h⟩ := h
  obtain ⟨next, -, hnext⟩ := h.push hv op b' hops hstaged hread
  exact ⟨next, hnext⟩

theorem archive (node : Node) : Applies st v (b.archive node) :=
  h.push hv _ rfl rfl fun _ _ h => by cases h

theorem put (hread : ∃ old, v.readNode node.address = .ok old) :
    Applies st v (b.put node.address node) :=
  h.push hv (.insert node) rfl rfl fun _ _ heq => (Prod.mk.inj (Option.some.inj heq)).1 ▸ hread

theorem drop (hread : ∃ old, v.readNode address = .ok old) : Applies st v (b.drop address) :=
  h.push hv (.delete address) rfl rfl fun _ _ heq => (Prod.mk.inj (Option.some.inj heq)).1 ▸ hread

theorem putEdge (edge : Edge) : Applies st v (b.putEdge edge) :=
  h.push hv _ rfl rfl fun _ _ h => by cases h

theorem dropEdge (id : EdgeId) : Applies st v (b.dropEdge id) :=
  h.push hv _ rfl rfl fun _ _ h => by cases h

end Applies

end Reached

theorem withFieldNull_ok {J : SerdeJson} {node cleared : Node} {field : String}
    (h : withFieldNull J node field = .ok cleared) : ∃ data, cleared = { node with data := data } := by
  unfold withFieldNull at h
  split at h
  · cases h
  · exact ⟨_, (ok.inj h).symm⟩
  · cases h

theorem setIfNext_ok {node next : Node} {field : String} {expect : Expectation st.json}
    {set : List (String × st.json.Value)} (h : setIfNext st node field expect set = .ok next) :
    ∃ data, next = { node with data := data } := by
  obtain ⟨fields, -, h⟩ := bind_eq_ok.1 h
  split at h
  · exact ⟨_, (ok.inj h).symm⟩
  · cases h

/-- A batch can be applied as it is lowered: each step of the lowering leads on. -/
theorem keeps_applies {references : References} {v : View} (hv : v.WellFormed)
    (ops : List (TxOperation st.json)) :
    Keeps st references v ops (Applies st v) (fun node => ∃ old, v.readNode node.address = .ok old)
      fun _ node => ∃ old, v.readNode node.address = .ok old where
  remove hb hnode := (hb.archive hv _).drop hv hnode
  child hb _ _ _ _ hstaged := hb.readable_address hv hstaged
  loses hb _ _ _ _ hstaged := hb.readable_address hv hstaged
  clear hb hchild hcleared := by
    obtain ⟨data, rfl⟩ := withFieldNull_ok hcleared
    exact (hb.archive hv _).put hv hchild
  write hb _ hstaged := hb.put hv (hb.readable hstaged)
  overwrite hb _ hstaged _ := (hb.archive hv _).put hv (hb.readable hstaged)
  set hb _ hstaged _ hnext := by
    obtain ⟨data, rfl⟩ := setIfNext_ok hnext
    obtain rfl := hb.address_eq hv hstaged
    exact (hb.archive hv _).put hv (hb.readable hstaged)
  named hb _ hstaged := hb.readable_address hv hstaged
  selected hb _ hstaged _ := hb.readable_address hv hstaged
  putEdge hb _ _ _ := hb.putEdge hv _
  dropEdge hb _ _ _ := hb.dropEdge hv _

/-! ## The edges of a batch -/

/-- Each edge that operations write is as it should be in the state reached by then. -/
def AlongEdges (st : Settings) (Q : View → Edge → Prop) : View → List Operation → Prop
  | _, [] => True
  | v, op :: ops =>
    (∀ edge, op = .insertEdge edge → Q v edge) ∧
      ∀ v', v.apply st (.write op) = .ok v' → AlongEdges st Q v' ops

section AlongEdges

variable {Q : View → Edge → Prop} {v v' : View} {ops : List Operation}

theorem alongEdges_push (h : AlongEdges st Q v ops) (hall : v.applyAll st ops = (.ok (), v'))
    {op : Operation} (hop : ∀ edge, op = .insertEdge edge → Q v' edge) :
    AlongEdges st Q v (ops ++ [op]) := by
  induction ops generalizing v with
  | nil =>
    obtain rfl := congrArg Prod.snd hall
    exact ⟨hop, fun _ _ => trivial⟩
  | cons first ops ih =>
    refine ⟨h.1, fun next hnext => ih (h.2 next hnext) ?_⟩
    rw [View.applyAll, hnext] at hall
    exact hall

theorem alongEdges_of_no_edge (hops : ∀ edge, .insertEdge edge ∉ ops) : AlongEdges st Q v ops := by
  induction ops generalizing v with
  | nil => trivial
  | cons op ops ih =>
    refine ⟨fun edge hedge => absurd (hedge ▸ List.mem_cons_self) (hops edge), fun next _ => ?_⟩
    exact ih fun edge hedge => hops edge (List.mem_cons_of_mem _ hedge)

/-- Operations without edges add nothing. -/
theorem alongEdges_append (h : AlongEdges st Q v ops) (more : List Operation)
    (hmore : ∀ edge, .insertEdge edge ∉ more) : AlongEdges st Q v (ops ++ more) := by
  induction ops generalizing v with
  | nil => exact alongEdges_of_no_edge hmore
  | cons first ops ih => exact ⟨h.1, fun next hnext => ih (h.2 next hnext)⟩

theorem AlongEdges.remove {b : Batch} (h : AlongEdges st Q v b.operations) (node : Node) :
    AlongEdges st Q v (b.remove node).operations := by
  rw [Batch.remove, Batch.drop, Batch.push, Batch.archive, Batch.push, List.append_assoc]
  exact alongEdges_append h _ (by simp)

theorem AlongEdges.replace {b : Batch} (h : AlongEdges st Q v b.operations) (old : Node)
    (address : String) (new : Node) : AlongEdges st Q v (b.replace old address new).operations := by
  rw [Batch.replace, Batch.put, Batch.push, Batch.archive, Batch.push, List.append_assoc]
  exact alongEdges_append h _ (by simp)

/-- What holds of each edge, when the lowering comes to it, holds along the whole batch. -/
theorem Keeps.along {references : References} {txs : List (TxOperation st.json)}
    {P : Batch → Prop} {R : Node → Prop} {C : ReferenceDef → Node → Prop}
    (h : Keeps st references v txs P R C)
    (happlies : ∀ {b}, P b → Applies st v b)
    (hedge : ∀ {b edge v' source target}, P b → .insertEdge edge ∈ txs → Reached st v b v' →
      v'.readNode edge.source = .ok (some source) → v'.readNode edge.target = .ok (some target) →
      Q v' edge) :
    Keeps st references v txs (fun b => P b ∧ AlongEdges st Q v b.operations) R C where
  remove hb hnode := ⟨h.remove hb.1 hnode, hb.2.remove _⟩
  child hb := h.child hb.1
  loses hb := h.loses hb.1
  clear hb hchild hcleared := ⟨h.clear hb.1 hchild hcleared, hb.2.replace _ _ _⟩
  write hb hop hstaged := ⟨h.write hb.1 hop hstaged, alongEdges_append hb.2 [_] (by simp)⟩
  overwrite hb hop hstaged howner := ⟨h.overwrite hb.1 hop hstaged howner, hb.2.replace _ _ _⟩
  set hb hop hstaged hallowed hnext := ⟨h.set hb.1 hop hstaged hallowed hnext, hb.2.replace _ _ _⟩
  named hb := h.named hb.1
  selected hb := h.selected hb.1
  putEdge hb hop hsource htarget := by
    obtain ⟨v', hreached⟩ := happlies hb.1
    refine ⟨h.putEdge hb.1 hop hsource htarget, alongEdges_push hb.2 hreached.applied ?_⟩
    rintro edge ⟨⟩
    exact hedge hb.1 hop hreached (hreached.nodes _ ▸ hsource) (hreached.nodes _ ▸ htarget)
  dropEdge hb hop hstaged hallowed :=
    ⟨h.dropEdge hb.1 hop hstaged hallowed, alongEdges_append hb.2 [_] (by simp)⟩

end AlongEdges

end FacetQL
