import FacetQL.Storage.DeleteClosure

/-!
# What a transaction archives

A write that supersedes a node stands behind the archive of the node in the list that a transaction is
lowered to. Walking the list, the archived node should be the one that is superseded. A delete closure
queues copies of nodes, and a copy can be outdated when its turn comes: a reference that sets its field to
null may have rewritten the node in the meantime.

* `superseded_archived_iff`: when everything that is superseded is archived as it was.
-/

namespace FacetQL

variable {st : Settings} {references : References} {v : View} {b : Batch} {ops : List Operation}

/-- Each write that supersedes a node comes right behind its archive, and each archive before
    one. -/
def Archived (st : Settings) (v : View) (ops : List Operation) : Prop :=
  ∀ before op after, ops = before ++ op :: after →
    (∀ address slot old, op.nodeWrite = some (address, slot) →
      (v.applyAll st before).2.readNode address = .ok (some old) →
      ∃ earlier entry, before = earlier ++ [.archive entry] ∧ entry.address = address ∧
        entry.node = old) ∧
    (∀ entry, op = .archive entry →
      ∃ write later slot, after = write :: later ∧ write.nodeWrite = some (entry.address, slot) ∧
        (v.applyAll st before).2.readNode entry.address = .ok (some entry.node))

/-- Something is archived that is not what its address names by then. -/
def Misarchives (st : Settings) (v : View) (ops : List Operation) : Prop :=
  ∃ before entry after, ops = before ++ .archive entry :: after ∧
    (v.applyAll st before).2.readNode entry.address ≠ .ok (some entry.node)

theorem Misarchives.not_archived (h : Misarchives st v ops) : ¬Archived st v ops := by
  intro harchived
  obtain ⟨before, entry, after, hops, hread⟩ := h
  obtain ⟨-, -, -, -, -, hold⟩ := (harchived before (.archive entry) after hops).2 entry rfl
  exact hread hold

theorem Misarchives.append (h : Misarchives st v ops) (more : List Operation) :
    Misarchives st v (ops ++ more) := by
  obtain ⟨before, entry, after, rfl, hread⟩ := h
  exact ⟨before, entry, after ++ more, by simp, hread⟩

/-- What has been archived wrongly stays so, whatever else is lowered. -/
theorem keeps_misarchives (txs : List (TxOperation st.json)) :
    Keeps st references v txs (fun b => Misarchives st v b.operations) (fun _ => True)
      fun _ _ => True where
  remove hb _ := (hb.append _).append _
  child _ _ _ _ _ _ := trivial
  loses _ _ _ _ _ _ := trivial
  clear hb _ _ := (hb.append _).append _
  write hb _ _ := hb.append _
  overwrite hb _ _ _ := (hb.append _).append _
  set hb _ _ _ _ := (hb.append _).append _
  named _ _ _ := trivial
  selected _ _ _ _ := trivial
  putEdge hb _ _ _ := hb.append _
  dropEdge hb _ _ _ := hb.append _

/-! ## One more write -/

theorem append_singleton_eq_append_cons {α : Type} {l before after : List α} {a x : α}
    (h : l ++ [x] = before ++ a :: after) :
    (l = before ∧ a = x ∧ after = []) ∨ ∃ rest, after = rest ++ [x] ∧ l = before ++ a :: rest := by
  rcases List.eq_nil_or_concat after with rfl | ⟨rest, y, rfl⟩
  · obtain ⟨rfl, heq⟩ := List.append_inj' h rfl
    exact .inl ⟨rfl, (List.cons.inj heq).1.symm, rfl⟩
  · rw [List.concat_eq_append, ← List.cons_append, ← List.append_assoc] at h
    obtain ⟨hl, heq⟩ := List.append_inj' h rfl
    exact .inr ⟨rest, by rw [List.concat_eq_append, (List.cons.inj heq).1], hl⟩

/-- An operation that is no archive and supersedes nothing. -/
theorem Archived.concat (h : Archived st v ops) {op : Operation} (harchive : ∀ entry, op ≠ .archive entry)
    (hwrite : ∀ address slot, op.nodeWrite = some (address, slot) →
      (v.applyAll st ops).2.readNode address = .ok none) : Archived st v (ops ++ [op]) := by
  intro before x after hsplit
  rcases append_singleton_eq_append_cons hsplit with ⟨rfl, rfl, rfl⟩ | ⟨rest, rfl, heq⟩
  · refine ⟨fun address slot old hx hold => ?_, fun entry hx => absurd hx (harchive entry)⟩
    rw [hwrite address slot hx] at hold
    cases hold
  · obtain ⟨hsupersedes, hentry⟩ := h before x rest heq
    refine ⟨hsupersedes, fun entry hx => ?_⟩
    obtain ⟨write, later, slot, rfl, hwritten⟩ := hentry entry hx
    exact ⟨write, later ++ [op], slot, rfl, hwritten⟩

theorem readNode_applyAll_archive (hv : v.WellFormed) (entry : HistoryEntry) (address : String) :
    (v.applyAll st (ops ++ [.archive entry])).2.readNode address =
      (v.applyAll st ops).2.readNode address := by
  have hall : (v.applyAll st ops).2.WellFormed := hv.applyAll ops
  rw [View.applyAll_append]
  rcases hops : v.applyAll st ops with ⟨_ | ⟨⟨⟩⟩, v'⟩
  · rfl
  · rw [hops] at hall
    refine View.readNode_applyAll hall fun op hop slot hwrite => ?_
    rw [List.mem_singleton.1 hop] at hwrite
    cases hwrite

/-- A node is archived and superseded. -/
theorem Archived.supersede (h : Archived st v ops) (hv : v.WellFormed) {entry : HistoryEntry}
    {write : Operation} {slot : Option Node} (hwrite : write.nodeWrite = some (entry.address, slot))
    (hread : (v.applyAll st ops).2.readNode entry.address = .ok (some entry.node)) :
    Archived st v (ops ++ [.archive entry] ++ [write]) := by
  intro before x after hsplit
  rcases append_singleton_eq_append_cons hsplit with ⟨rfl, rfl, rfl⟩ | ⟨rest, rfl, heq⟩
  · refine ⟨fun address slot' old hx hold => ⟨ops, entry, rfl, ?_⟩, fun entry' hx => ?_⟩
    · obtain ⟨rfl, rfl⟩ := Prod.mk.inj (Option.some.inj (hwrite.symm.trans hx))
      rw [readNode_applyAll_archive hv, hread] at hold
      exact ⟨rfl, Option.some.inj (Except.ok.inj hold)⟩
    · rw [hx] at hwrite
      cases hwrite
  · rcases append_singleton_eq_append_cons heq with ⟨rfl, rfl, rfl⟩ | ⟨rest', rfl, heq'⟩
    · refine ⟨fun address slot' old hx => (nomatch hx), fun entry' hx => ?_⟩
      obtain rfl := Operation.archive.inj hx
      exact ⟨write, [], slot, rfl, hwrite, hread⟩
    · obtain ⟨hsupersedes, hentry⟩ := h before x rest' heq'
      refine ⟨hsupersedes, fun entry' hx => ?_⟩
      obtain ⟨write', later, slot', rfl, hwritten⟩ := hentry entry' hx
      exact ⟨write', later ++ [.archive entry] ++ [write], slot', by simp, hwritten⟩

/-! ## Batches -/

namespace Applies

variable (h : Applies st v b) (hv : v.Consistent st)

include h hv

theorem keyed : b.Keyed := by
  obtain ⟨v', hreached⟩ := h
  refine ⟨hreached.staged, fun {address node} hmem => ?_⟩
  refine hreached.address_eq hv.toWellFormed ?_
  rw [View.stagedNode, hreached.staged.find_eq_some.2 hmem]

theorem readNode_eq (address : String) :
    (v.applyAll st b.operations).2.readNode address = .ok (v.overlay b address) := by
  obtain ⟨v', hreached⟩ := h
  rw [hreached.applied, ← hreached.nodes, hv.stagedNode_eq]

theorem remove (node : Node) : Applies st v (b.remove node) :=
  (h.archive hv.toWellFormed node).drop hv.toWellFormed (hv.exists_read _)

end Applies

/-- A batch that can be applied, and archives what it supersedes. -/
structure Archives (st : Settings) (v : View) (b : Batch) : Prop where
  applies : Applies st v b
  archived : Archived st v b.operations

namespace Archives

theorem start (stamp : Stamp) : Archives st v (.start stamp) where
  applies := ⟨v, .start stamp⟩
  archived before op after h := by cases before <;> cases h

variable (h : Archives st v b) (hv : v.Consistent st)

include h hv

theorem remove {node : Node} (hnode : v.overlay b node.address = some node) :
    Archives st v (b.remove node) where
  applies := h.applies.remove hv node
  archived := h.archived.supersede hv.toWellFormed rfl (by rw [h.applies.readNode_eq hv, hnode])

theorem replace {old node : Node} (hold : v.overlay b node.address = some old) :
    Archives st v (b.replace old node.address node) := by
  have haddress : old.address = node.address := View.overlay_address hv.toWellFormed (h.applies.keyed hv) hold
  refine ⟨(h.applies.archive hv.toWellFormed old).put hv.toWellFormed (hv.exists_read _),
    h.archived.supersede hv.toWellFormed (congrArg (fun a => some (a, some node)) haddress.symm) ?_⟩
  rw [h.applies.readNode_eq hv, haddress, hold]

theorem put {node : Node} (hnone : v.overlay b node.address = none) :
    Archives st v (b.put node.address node) where
  applies := h.applies.put hv.toWellFormed (hv.exists_read _)
  archived := by
    refine h.archived.concat (fun _ hop => (nomatch hop)) fun address slot hwrite => ?_
    obtain ⟨rfl, -⟩ := Prod.mk.inj (Option.some.inj hwrite)
    rw [h.applies.readNode_eq hv, hnone]

theorem putEdge (edge : Edge) : Archives st v (b.putEdge edge) where
  applies := h.applies.putEdge hv.toWellFormed edge
  archived := h.archived.concat (fun _ hop => (nomatch hop)) fun _ _ hwrite => (nomatch hwrite)

theorem dropEdge (id : EdgeId) : Archives st v (b.dropEdge id) where
  applies := h.applies.dropEdge hv.toWellFormed id
  archived := h.archived.concat (fun _ hop => (nomatch hop)) fun _ _ hwrite => (nomatch hwrite)

/-- Nodes that are there lose a field. -/
theorem clearFields {field : String} {children : List Node}
    (hchildren : ∀ child ∈ children, v.overlay b child.address = some child)
    (hnodup : (children.map Node.address).Nodup) {b' : Batch}
    (hclear : children.foldlM (View.clearField st field) b = .ok b') : Archives st v b' := by
  induction children generalizing b with
  | nil => exact Except.ok.inj hclear ▸ h
  | cons child children ih =>
    rw [List.foldlM_cons] at hclear
    obtain ⟨b₁, hstep, hclear⟩ := Except.bind_eq_ok.1 hclear
    obtain ⟨cleared, hcleared, hstep⟩ := Except.mapError_bind_eq_ok.1 hstep
    obtain rfl := Except.ok.inj hstep
    have haddress : cleared.address = child.address := by
      obtain ⟨data, rfl⟩ := withFieldNull_ok hcleared
      rfl
    rw [List.map_cons, List.nodup_cons] at hnodup
    have hchild : v.overlay b cleared.address = some child :=
      haddress ▸ hchildren child List.mem_cons_self
    refine ih (h.replace hv hchild) (fun other hother => ?_) hnodup.2 hclear
    -- The other children have other addresses.
    rw [View.overlay_replace (h.applies.keyed hv), haddress, if_neg]
    · exact hchildren other (List.mem_cons_of_mem _ hother)
    · intro heq
      exact hnodup.1 (List.mem_map.2 ⟨other, hother, heq⟩)

end Archives

/-! ## Closures -/

namespace View

section

variable (st references v)

/-- The nodes that lose a field by a reference of a node that has been removed. -/
def clearedBy (written : List Node) (node : Node) (c : Closure) (decl : ReferenceDef) : List Node :=
  if decl.onDelete = .setNull then
    match decl.referencedKey st.json node with
    | none => []
    | some key => ((v.referencingNodes st decl key c.batch written).toOption.getD []).filter
        fun child => !c.removed.contains child.address
  else []

/-- Whether one of them is queued, so that the copy in the queue is outdated. -/
def outdatesCopy (written : List Node) (node : Node) (c : Closure) (decl : ReferenceDef) : Bool :=
  (v.clearedBy st written node c decl).any fun child =>
    c.queue.any fun queued => queued.address == child.address

/-- Whether this happens while references act one after the other. -/
def outdatesIn (written : List Node) (node : Node) : List ReferenceDef → Closure → Bool
  | [], _ => false
  | decl :: decls, c => v.outdatesCopy st written node c decl ||
    (v.actOnReference st written node c decl).toOption.any fun c => outdatesIn written node decls c

/-- Whether this happens in the rounds of a closure. -/
def outdates (written : List Node) : (rounds : Nat) → Closure → Bool
  | 0, _ => false
  | rounds + 1, c =>
    match c.pending with
    | [] => false
    | node :: queue =>
      v.outdatesIn st written node (references.forParent node.kind) (c.pop node queue) ||
        ((references.forParent node.kind).foldlM (v.actOnReference st written node)
          (c.pop node queue)).toOption.any fun c => outdates written rounds c

/-- Whether this happens when nodes are removed with everything that this entails. -/
def closureOutdates (b : Batch) (seeds : List Node) : Bool :=
  v.outdates st references (b.staged.filterMap Prod.snd) (st.maxTransactionOps + 2) ⟨b, seeds, []⟩

end

variable {c c' : Closure} {written : List Node} {node copy : Node} {decl : ReferenceDef}
  {queue : List Node} {field : String}

/-- A closure whose copies are not outdated. -/
structure Current (st : Settings) (v : View) (c : Closure) : Prop where
  current : ∀ queued ∈ c.queue, queued.address ∉ c.removed →
    v.overlay c.batch queued.address = some queued
  archives : Archives st v c.batch

/-- The first copy of a node in the queue is outdated: the node has lost a field since. -/
structure Stale (st : Settings) (v : View) (copy : Node) (field : String) (c : Closure) : Prop where
  applies : Applies st v c.batch
  first : c.queue.find? (fun queued => queued.address == copy.address) = some copy
  kept : copy.address ∉ c.removed
  held : ∃ value, st.json.dataField copy.data field = some value ∧ value ≠ .null
  lost : ∃ node, v.overlay c.batch copy.address = some node ∧
    ∀ value ∈ st.json.dataField node.data field, value = .null

theorem notMem_removed_of_pending (hdrop : c.pending = node :: queue) :
    node.address ∉ c.removed := by
  have hhead := List.head?_dropWhile_not (fun node : Node => c.removed.contains node.address) c.queue
  rw [show c.queue.dropWhile _ = _ from hdrop] at hhead
  simpa using hhead

theorem clearedBy_eq (haction : decl.onDelete = .setNull) {key : st.json.Value}
    (hkey : decl.referencedKey st.json node = some key) {nodes : List Node}
    (hnodes : v.referencingNodes st decl key c.batch written = .ok nodes) :
    v.clearedBy st written node c decl =
      nodes.filter fun child => !c.removed.contains child.address := by
  rw [clearedBy, if_pos haction, hkey]
  dsimp only
  rw [hnodes]
  rfl

theorem Current.pop (h : Current st v c) (hv : v.Consistent st) (hdrop : c.pending = node :: queue) :
    Current st v (c.pop node queue) := by
  have hsub : ∀ queued ∈ node :: queue, queued ∈ c.queue := fun _ => Closure.mem_queue hdrop
  refine ⟨fun queued hqueued hkept => ?_, h.archives.remove hv
    (h.current node (hsub node List.mem_cons_self) (notMem_removed_of_pending hdrop))⟩
  obtain ⟨hne, hkept⟩ := not_or.1 (mt List.mem_cons.2 hkept)
  rw [overlay_remove (h.archives.applies.keyed hv), if_neg hne]
  exact h.current queued (hsub queued (List.mem_cons_of_mem _ hqueued)) hkept

theorem Current.act (h : Current st v c) (hv : v.Consistent st)
    (hact : v.actOnReference st written node c decl = .ok c')
    (hkeeps : v.outdatesCopy st written node c decl = false) : Current st v c' := by
  have hkeyed := h.archives.applies.keyed hv
  rcases actOnReference_cases hact with ⟨-, rfl⟩ | ⟨key, nodes, hkey, hnodes, hacted⟩
  · exact h
  obtain ⟨hchildren, hnodup⟩ := hv.children hkeyed hnodes
  rcases hacted with ⟨-, rfl⟩ | ⟨haction, rfl⟩ | ⟨haction, batch, hclear, rfl⟩
  · exact h
  · refine ⟨fun queued hqueued hkept => ?_, h.archives⟩
    rcases List.mem_append.1 hqueued with hold | hnew
    · exact h.current queued hold hkept
    · exact (hchildren queued hnew).1
  · obtain ⟨-, hframe, -⟩ := clearFields_ok (v := v) hkeyed hnodup hclear
    refine ⟨fun queued hqueued hkept => ?_,
      h.archives.clearFields hv (fun child hchild => (hchildren child hchild).1) hnodup hclear⟩
    change v.overlay batch queued.address = some queued
    rw [hframe, h.current queued hqueued hkept]
    intro hmem
    obtain ⟨child, hchild, haddress⟩ := List.mem_map.1 hmem
    rw [outdatesCopy, clearedBy_eq haction hkey hnodes] at hkeeps
    refine absurd (List.any_eq_true.2 ⟨child, hchild, ?_⟩) (Bool.not_eq_true _ ▸ hkeeps)
    exact List.any_eq_true.2 ⟨queued, hqueued, beq_iff_eq.2 haddress.symm⟩

/-- A field that is cleared is read as `null`, and what was so before stays so. -/
theorem null_withFieldNull (hJ : st.json.Ordered) (hnull : st.json.KeepsNulls) {cleared : Node}
    {name : String} (hclear : withFieldNull st.json node name = .ok cleared)
    (hfield : name = field ∨ ∀ value ∈ st.json.dataField node.data field, value = .null) :
    ∀ value ∈ st.json.dataField cleared.data field, value = .null := by
  obtain ⟨fields, hparse, hdata⟩ := withFieldNull_print hclear
  have hcanonical : (Json.object fields).Canonical := hJ hparse
  have hsorted : SortedMap.Sorted fields := hcanonical.1
  rw [hdata]
  refine hnull (hcanonical.insert_null name) fun value hvalue => ?_
  rw [lookup_eq_find] at hvalue
  by_cases heq : field = name
  · rw [heq, hsorted.find_insert_self] at hvalue
    exact (Option.some.inj hvalue).symm
  · rw [hsorted.find_insert_of_ne heq, ← lookup_eq_find] at hvalue
    refine hfield.resolve_left (Ne.symm heq) value ?_
    rw [SerdeJson.dataField, hparse]
    exact hvalue

/-- A reference that clears a queued node makes the copy in the queue stale. -/
theorem Current.stale (h : Current st v c) (hv : v.Consistent st) (hJ : st.json.Ordered)
    (hnull : st.json.KeepsNulls) (hact : v.actOnReference st written node c decl = .ok c')
    (houtdates : v.outdatesCopy st written node c decl = true) :
    ∃ copy field, Stale st v copy field c' := by
  have hkeyed := h.archives.applies.keyed hv
  obtain ⟨child, hchild, hqueue⟩ := List.any_eq_true.1 houtdates
  have hfirst : (c.queue.find? fun queued => queued.address == child.address).isSome :=
    List.find?_isSome.2 (List.any_eq_true.1 hqueue)
  obtain ⟨copy, hfirst⟩ := Option.isSome_iff_exists.1 hfirst
  have haction : decl.onDelete = .setNull := by
    by_contra hne
    rw [clearedBy, if_neg hne] at hchild
    exact absurd hchild List.not_mem_nil
  rcases actOnReference_cases hact with ⟨hnone, -⟩ | ⟨key, nodes, hkey, hnodes, hacted⟩
  · rw [clearedBy, if_pos haction, hnone] at hchild
    exact absurd hchild List.not_mem_nil
  rw [clearedBy_eq haction hkey hnodes] at hchild
  obtain ⟨hchildren, hnodup⟩ := hv.children hkeyed hnodes
  obtain ⟨hpresent, hrefers⟩ := hchildren child hchild
  have hkept : child.address ∉ c.removed := by simpa using (List.mem_filter.1 hchild).2
  -- The copy is what the address names, and so it is the node that is cleared.
  have haddress : copy.address = child.address := by simpa using List.find?_some hfirst
  obtain rfl : copy = child := by
    have hcurrent := h.current copy (List.mem_of_find?_eq_some hfirst) (haddress ▸ hkept)
    rw [haddress, hpresent] at hcurrent
    exact (Option.some.inj hcurrent).symm
  rcases hacted with ⟨hnone, -⟩ | ⟨hcascade, -⟩ | ⟨-, batch, hclear, rfl⟩
  · rw [hnone] at hchild
    exact absurd hchild List.not_mem_nil
  · rw [haction] at hcascade
    cases hcascade
  obtain ⟨-, -, hcleared, -⟩ := clearFields_ok (v := v) hkeyed hnodup hclear
  obtain ⟨cleared, hfield, hoverlay⟩ := hcleared copy hchild
  obtain ⟨-, value, hvalue, -⟩ := ReferenceDef.refers_iff.1 hrefers
  obtain ⟨hvalue, hnonnull⟩ := Option.filter_eq_some_iff.1 hvalue
  have happlies := (h.archives.clearFields hv
    (fun child hchild => (hchildren child hchild).1) hnodup hclear).applies
  refine ⟨copy, decl.field, happlies, hfirst, hkept, ⟨value, hvalue, ?_⟩, cleared, hoverlay,
    null_withFieldNull hJ hnull hfield (.inl rfl)⟩
  rintro rfl
  cases hnonnull

section Stale

variable (h : Stale st v copy field c) (hv : v.Consistent st)

include h hv

theorem Stale.act (hJ : st.json.Ordered) (hnull : st.json.KeepsNulls)
    (hact : v.actOnReference st written node c decl = .ok c') : Stale st v copy field c' := by
  rcases actOnReference_cases hact with ⟨-, rfl⟩ | ⟨key, nodes, hkey, hnodes, hacted⟩
  · exact h
  obtain ⟨hchildren, hnodup⟩ := hv.children (h.applies.keyed hv) hnodes
  rcases hacted with ⟨-, rfl⟩ | ⟨-, rfl⟩ | ⟨-, batch, hclear, rfl⟩
  · exact h
  · exact { h with first := by rw [List.find?_append, h.first, Option.some_or] }
  have hkeeps : Keeps st [] v [] (Applies st v) _ _ := keeps_applies hv.toWellFormed []
  have happlies : Applies st v batch :=
    hkeeps.toKeepsRemoval.clearFields (fun child _ => hv.exists_read child.address) h.applies hclear
  obtain ⟨-, hframe, hcleared, -⟩ := clearFields_ok (v := v) (h.applies.keyed hv) hnodup hclear
  obtain ⟨left, hleft, hlost⟩ := h.lost
  refine { h with applies := happlies, lost := ?_ }
  by_cases hmem : copy.address ∈ (nodes.filter fun child => !c.removed.contains child.address).map
      Node.address
  · obtain ⟨child, hchild, haddress⟩ := List.mem_map.1 hmem
    obtain ⟨cleared, hfield, hoverlay⟩ := hcleared child hchild
    have hpresent := (hchildren child hchild).1
    rw [haddress, hleft] at hpresent
    obtain rfl := Option.some.inj hpresent
    exact ⟨cleared, haddress ▸ hoverlay, null_withFieldNull hJ hnull hfield (.inr hlost)⟩
  · exact ⟨left, (hframe _ hmem).trans hleft, hlost⟩

/-- The next round archives the copy, or leaves it in the queue. -/
theorem Stale.pop (hdrop : c.pending = node :: queue) :
    Stale st v copy field (c.pop node queue) ∨
      Misarchives st v (c.pop node queue).batch.operations := by
  have hfirst : (node :: queue).find? (fun queued => queued.address == copy.address) = some copy := by
    -- What is passed over has been removed, and the copy has not.
    have hpassed : (c.queue.takeWhile fun node => c.removed.contains node.address).find?
        (fun queued => queued.address == copy.address) = none := by
      refine List.find?_eq_none.2 fun queued hqueued => ?_
      have hremoved := List.mem_takeWhile_imp hqueued
      rw [beq_iff_eq]
      exact fun heq => h.kept (heq ▸ List.contains_iff_mem.1 hremoved)
    have hfirst := h.first
    rw [← List.takeWhile_append_dropWhile (p := fun node : Node => c.removed.contains node.address)
      (l := c.queue), List.find?_append, hpassed, Option.none_or] at hfirst
    rwa [← hdrop]
  by_cases heq : node.address = copy.address
  · rw [List.find?_cons_of_pos (by simpa using heq)] at hfirst
    obtain rfl := Option.some.inj hfirst
    obtain ⟨left, hleft, hlost⟩ := h.lost
    obtain ⟨value, hvalue, hheld⟩ := h.held
    refine .inr (Misarchives.append ⟨c.batch.operations, _, [], rfl, ?_⟩ _)
    rw [h.applies.readNode_eq hv, hleft]
    intro hsame
    obtain rfl := Option.some.inj (Except.ok.inj hsame)
    exact hheld (hlost value hvalue)
  · rw [List.find?_cons_of_neg (by simpa using heq)] at hfirst
    obtain ⟨left, hleft, hlost⟩ := h.lost
    refine .inl ⟨h.applies.remove hv node, hfirst, ?_, h.held, left, ?_, hlost⟩
    · exact mt List.mem_cons.1 (not_or.2 ⟨Ne.symm heq, h.kept⟩)
    · rw [overlay_remove (h.applies.keyed hv), if_neg (Ne.symm heq), hleft]

/-- A stale copy is archived before the queue is empty. -/
theorem Stale.closeDeletes (hJ : st.json.Ordered) (hnull : st.json.KeepsNulls) {rounds : Nat}
    (hrounds : st.maxTransactionOps < c.batch.operations.length + 2 * (rounds + 1))
    (hclose : v.closeDeletes st references written (rounds + 1) c = .ok b) :
    Misarchives st v b.operations := by
  have hround (c : Closure) (node : Node) (queue : List Node) (c' : Closure)
      (hc : Stale st v copy field c ∨ Misarchives st v c.batch.operations)
      (hdrop : c.pending = node :: queue)
      (hacts : (references.forParent node.kind).foldlM (v.actOnReference st written node)
        (c.pop node queue) = .ok c') :
      Stale st v copy field c' ∨ Misarchives st v c'.batch.operations := by
    have hpop : Stale st v copy field (c.pop node queue) ∨
        Misarchives st v (c.pop node queue).batch.operations :=
      hc.elim (fun hstale => hstale.pop hv hdrop) fun hwrong => .inr ((hwrong.append _).append _)
    rcases hpop with hstale | hwrong
    · exact .inl (List.foldlM_ok hstale (fun _ _ _ _ hc hact =>
        hc.act hv hJ hnull hact) hacts)
    · exact .inr ((keeps_misarchives []).toKeepsRemoval.actOnReferences trivial
        ⟨hwrong, fun _ _ => trivial⟩ hacts).1
  obtain ⟨c', hc', rfl, hqueue, -⟩ := closeDeletes_rule (.inl h) hround hrounds hclose
  refine hc'.resolve_left fun hstale => hstale.kept ?_
  exact hqueue copy (List.mem_of_find?_eq_some hstale.first)

end Stale

/-- The references of a removed node keep the copies current unless one clears a queued node. -/
theorem Current.acts (h : Current st v c) (hv : v.Consistent st) (hJ : st.json.Ordered)
    (hnull : st.json.KeepsNulls) {decls : List ReferenceDef}
    (hacts : decls.foldlM (v.actOnReference st written node) c = .ok c') :
    (v.outdatesIn st written node decls c = true → ∃ copy field, Stale st v copy field c') ∧
      (v.outdatesIn st written node decls c = false → Current st v c') := by
  induction decls generalizing c with
  | nil => exact ⟨nofun, fun _ => Except.ok.inj hacts ▸ h⟩
  | cons decl decls ih =>
    rw [List.foldlM_cons] at hacts
    obtain ⟨next, hact, hacts⟩ := Except.bind_eq_ok.1 hacts
    rw [outdatesIn, hact]
    cases houtdates : v.outdatesCopy st written node c decl with
    | true =>
      refine ⟨fun _ => ?_, nofun⟩
      obtain ⟨copy, field, hstale⟩ := h.stale hv hJ hnull hact houtdates
      exact ⟨copy, field, List.foldlM_ok hstale (fun _ _ _ _ hc hact =>
        hc.act hv hJ hnull hact) hacts⟩
    | false => exact ih (h.act hv hact houtdates) hacts

theorem Current.closeDeletes (h : Current st v c) (hv : v.Consistent st) (hJ : st.json.Ordered)
    (hnull : st.json.KeepsNulls) {rounds : Nat}
    (hrounds : st.maxTransactionOps < c.batch.operations.length + 2 * (rounds + 1))
    (hclose : v.closeDeletes st references written (rounds + 1) c = .ok b) :
    (v.outdates st references written (rounds + 1) c = true → Misarchives st v b.operations) ∧
      (v.outdates st references written (rounds + 1) c = false → Archives st v b) := by
  induction rounds generalizing c with
  | zero =>
    rcases closeDeletes_eq_ok hclose with ⟨hdrop, rfl⟩ | ⟨node, queue, c', -, hacts, hbound, -⟩
    · rw [outdates, hdrop]
      exact ⟨nofun, fun _ => h.archives⟩
    have hlength := length_pop hacts
    omega
  | succ rounds ih =>
    rcases closeDeletes_eq_ok hclose with ⟨hdrop, rfl⟩ | ⟨node, queue, c', hdrop, hacts, -, hclose⟩
    · rw [outdates, hdrop]
      exact ⟨nofun, fun _ => h.archives⟩
    have hlength := length_pop hacts
    have hrest : st.maxTransactionOps < c'.batch.operations.length + 2 * (rounds + 1) := by omega
    rw [outdates, hdrop]
    dsimp only
    rw [hacts]
    obtain ⟨hstale, hcurrent⟩ :=
      (h.pop hv hdrop).acts hv hJ hnull hacts
    cases houtdates : v.outdatesIn st written node (references.forParent node.kind)
        (c.pop node queue) with
    | true =>
      obtain ⟨copy, field, hstale⟩ := hstale houtdates
      exact ⟨fun _ => hstale.closeDeletes hv hJ hnull hrest hclose, nofun⟩
    | false => exact ih (hcurrent houtdates) hrest hclose

theorem outdates_nil (written : List Node) (rounds : Nat) (c : Closure) :
    v.outdates st [] written rounds c = false := by
  induction rounds generalizing c with
  | zero => rfl
  | succ rounds ih =>
    rw [outdates]
    split
    · rfl
    · exact ih _

end View

/-- What the nodes that a delete selects come to. -/
theorem Archives.lowerDeleteClosure (h : Archives st v b) (hv : v.Consistent st)
    (hJ : st.json.Ordered) (hnull : st.json.KeepsNulls) {seeds : List Node}
    (hseeds : ∀ seed ∈ seeds, v.overlay b seed.address = some seed)
    (hnodup : (seeds.map Node.address).Nodup) {b' : Batch}
    (hlower : v.lowerDeleteClosure st references seeds b = .ok b') :
    (v.closureOutdates st references b seeds = true → Misarchives st v b'.operations) ∧
      (v.closureOutdates st references b seeds = false → Archives st v b') := by
  rw [View.lowerDeleteClosure] at hlower
  split at hlower
  · next hempty =>
    obtain rfl := Except.ok.inj hlower
    rw [List.isEmpty_iff.1 hempty, View.closureOutdates, View.outdates_nil]
    refine ⟨fun houtdates => absurd houtdates Bool.false_ne_true, fun _ => ?_⟩
    clear hlower
    induction seeds generalizing b with
    | nil => exact h
    | cons seed seeds ih =>
      rw [List.map_cons, List.nodup_cons] at hnodup
      refine ih (h.remove hv (hseeds seed List.mem_cons_self)) (fun other hother => ?_) hnodup.2
      rw [View.overlay_remove (h.applies.keyed hv), if_neg]
      · exact hseeds other (List.mem_cons_of_mem _ hother)
      · intro heq
        exact hnodup.1 (List.mem_map.2 ⟨other, hother, heq⟩)
  · have hstart : View.Current st v ⟨b, seeds, []⟩ := ⟨fun seed hseed _ => hseeds seed hseed, h⟩
    exact hstart.closeDeletes hv hJ hnull (by omega) hlower

/-! ## Transactions -/

/-- The nodes that an operation selects for removal, in the state that the batch has reached. -/
def View.selectedBy (st : Settings) (v : View) (b : Batch) : TxOperation st.json → List Node
  | .deleteNode address => (v.overlay b address).toList
  | .clearKind kind owner isAdmin => v.selectedNodes st b kind none owner isAdmin
  | .deleteWhere kind predicate owner isAdmin => v.selectedNodes st b kind predicate owner isAdmin
  | _ => []

/-- Whether a delete of a transaction clears a field of a node that is in the closure's queue. -/
def View.outdatesAlong (st : Settings) (references : References) (v : View) :
    List (TxOperation st.json) → Batch → Bool
  | [], _ => false
  | op :: ops, b => v.closureOutdates st references b (v.selectedBy st b op) ||
    (v.lowerOperation st references b op).toOption.any fun b => outdatesAlong st references v ops b

section

variable (hv : v.Consistent st) (hJ : st.json.Ordered) (hnull : st.json.KeepsNulls) {b' : Batch}

include hv hJ hnull

theorem Archives.lowerSelection (h : Archives st v b) {kind owner : String} {isAdmin : Bool}
    {predicate : Option (Expr st.json.Number)}
    (hlower : v.lowerSelection st references b kind predicate owner isAdmin = .ok b') :
    (v.closureOutdates st references b (v.selectedNodes st b kind predicate owner isAdmin) = true →
        Misarchives st v b'.operations) ∧
      (v.closureOutdates st references b (v.selectedNodes st b kind predicate owner isAdmin) = false →
        Archives st v b') := by
  obtain ⟨hlower, hsorted, hmem⟩ := hv.lowerSelection_ok (h.applies.keyed hv) hlower
  exact h.lowerDeleteClosure hv hJ hnull (fun seed hseed => ((hmem seed).1 hseed).1)
    (hsorted.imp fun hlt => ne_of_lt hlt) hlower

theorem Archives.lowerOperation (h : Archives st v b) {op : TxOperation st.json}
    (hlower : v.lowerOperation st references b op = .ok b') :
    (v.closureOutdates st references b (v.selectedBy st b op) = true →
        Misarchives st v b'.operations) ∧
      (v.closureOutdates st references b (v.selectedBy st b op) = false → Archives st v b') := by
  have hstaged {address : String} {slot : Option Node} (hslot : v.stagedNode b address = .ok slot) :
      v.overlay b address = slot := by
    rwa [hv.stagedNode_eq, Except.ok.injEq] at hslot
  -- An operation that selects nothing makes no closure.
  have hvain {P : Prop} (hb' : Archives st v b') : (v.closureOutdates st references b [] = true → P) ∧
      (v.closureOutdates st references b [] = false → Archives st v b') :=
    ⟨fun houtdates => absurd houtdates Bool.false_ne_true, fun _ => hb'⟩
  have hlowers := View.lowers_of_lowerOperation hlower
  cases op with
  | insertNode node =>
    refine hvain ?_
    rcases hlowers with ⟨hslot, rfl⟩ | ⟨existing, hslot, -, rfl⟩
    · exact h.put hv (hstaged hslot)
    · exact h.replace hv (hstaged hslot)
  | deleteNode address =>
    rcases hlowers with ⟨hgone, rfl⟩ | ⟨node, hslot, hclosure⟩
    · have hslot : v.overlay b address = none := hstaged (by rw [View.stagedNode, hgone])
      rw [View.selectedBy, hslot]
      exact hvain h
    have hslot := hstaged hslot
    obtain rfl := View.overlay_address hv.toWellFormed (h.applies.keyed hv) hslot
    rw [View.selectedBy, hslot]
    exact h.lowerDeleteClosure hv hJ hnull (List.forall_mem_singleton.2 hslot)
      (List.nodup_singleton _) hclosure
  | clearKind kind owner isAdmin | deleteWhere kind predicate owner isAdmin =>
    exact h.lowerSelection hv hJ hnull hlowers
  | setIf address field expect fields owner isAdmin =>
    refine hvain ?_
    obtain ⟨node, next, hslot, -, hnext, rfl⟩ := hlowers
    have hslot := hstaged hslot
    obtain rfl := View.overlay_address hv.toWellFormed (h.applies.keyed hv) hslot
    obtain ⟨data, rfl⟩ := setIfNext_ok hnext
    have hslot' : v.overlay b ({ node with data := data } : Node).address = some node := hslot
    exact h.replace hv hslot'
  | insertEdge edge =>
    refine hvain ?_
    obtain ⟨source, target, -, -, rfl⟩ := hlowers
    exact h.putEdge hv edge
  | deleteEdge id owner isAdmin =>
    refine hvain ?_
    rcases hlowers with ⟨-, rfl⟩ | ⟨edge, -, -, rfl⟩
    · exact h
    · exact h.dropEdge hv id

theorem Archives.lowerOperations (h : Archives st v b) {txs : List (TxOperation st.json)}
    (hlower : txs.foldlM (v.lowerOperation st references) b = .ok b') :
    (v.outdatesAlong st references txs b = true → Misarchives st v b'.operations) ∧
      (v.outdatesAlong st references txs b = false → Archives st v b') := by
  induction txs generalizing b with
  | nil => exact ⟨nofun, fun _ => Except.ok.inj hlower ▸ h⟩
  | cons op txs ih =>
    rw [List.foldlM_cons] at hlower
    obtain ⟨next, hnext, hlower⟩ := Except.bind_eq_ok.1 hlower
    obtain ⟨hwrong, hright⟩ := h.lowerOperation hv hJ hnull hnext
    rw [View.outdatesAlong, hnext]
    cases houtdates : v.closureOutdates st references b (v.selectedBy st b op) with
    | true =>
      refine ⟨fun _ => ?_, nofun⟩
      exact List.foldlM_ok (P := fun b => Misarchives st v b.operations) (hwrong houtdates)
        (fun op hop b b' hb hstep => (keeps_misarchives txs).lowerOperation hop hb hstep) hlower
    | false => exact ih (hright houtdates) hlower

end

/-- A transaction that is lowered archives everything that it supersedes just as it was, and nothing
    else, if and only if none of its closures clears a field of a node that is in its queue. -/
theorem superseded_archived_iff (hv : v.Consistent st) (hJ : st.json.Ordered)
    (hnull : st.json.KeepsNulls) {stamp : Stamp} {txs : List (TxOperation st.json)}
    {lowered : List Operation} (hlower : v.lowerTransaction st references stamp txs = .ok lowered) :
    Archived st v lowered ↔ v.outdatesAlong st references txs (.start stamp) = false := by
  obtain ⟨b', hfold, hend⟩ := Except.bind_eq_ok.1 hlower
  obtain ⟨hwrong, hright⟩ := (Archives.start stamp).lowerOperations hv hJ hnull hfold
  rw [← Except.ok.inj hend]
  constructor
  · intro harchived
    rw [← Bool.not_eq_true]
    exact fun houtdates => (hwrong houtdates).not_archived harchived
  · exact fun hkeeps => (hright hkeeps).archived

namespace Archives

open DeleteClosure

/-- Documents that name the one before them, which may go. -/
def chain : References := [⟨"before", "doc", "before", "doc", none, .setNull⟩]

def doc₁ : Node := sample "a" "doc" "\x7b\x7d"

/-- A document that names the first one. -/
def doc₂ : Node := sample "b" "doc" "\x7b\"before\":\"a\"\x7d"

/-- The second document without the name. -/
def doc₂Cleared : Node := sample "b" "doc" "\x7b\"before\":null\x7d"

/-- The two documents, with an index over the reference. -/
def chained : GraphStore :=
  built [.createIndex ⟨"by_before", "doc", "before", false⟩, .insert doc₁, .insert doc₂]

def clearDocs : List (TxOperation Settings.textual.json) := [.clearKind "doc" "alice" false]

/-- The first document names the second one, and so does one of another user name the first. -/
def docFirst : Node := sample "a" "doc" "\x7b\"before\":\"b\"\x7d"

def docLast : Node := sample "b" "doc" "\x7b\x7d"

/-- A document of bob that names the first one. -/
def docOther : Node := { sample "c" "doc" "\x7b\"before\":\"a\"\x7d" with owner := "bob" }

/-- The document of bob without the name. -/
def docOtherCleared : Node := { docOther with data := "\x7b\"before\":null\x7d" }

/-- A store in which each removal comes before the clearing. -/
def backwards : GraphStore :=
  built [.createIndex ⟨"by_before", "doc", "before", false⟩, .insert docFirst, .insert docLast,
    .insert docOther]

/-- The first document is gone before the second one could take its field. -/
def clearedBackwards : List Operation :=
  [.archive ⟨"a", 0, docFirst, 0⟩, .delete "a", .archive ⟨"c", 0, docOther, 1⟩,
    .insert docOtherCleared, .archive ⟨"b", 0, docLast, 2⟩, .delete "b"]

/-- The second document is queued, loses its field, and goes. -/
def clearedUntilLast : List Operation :=
  [.archive ⟨"a", 0, doc₁, 0⟩, .delete "a", .archive ⟨"b", 0, doc₂, 1⟩, .insert doc₂Cleared]

end Archives

open DeleteClosure Archives in
theorem superseded_archived_iff_backwards :
    backwards.view.lowerTransaction .textual chain ⟨0, 0⟩ clearDocs = .ok clearedBackwards ∧
      Archived .textual backwards.view clearedBackwards := by
  have hlower : backwards.view.lowerTransaction .textual chain ⟨0, 0⟩ clearDocs =
      .ok clearedBackwards := by decide +kernel
  exact ⟨hlower, (superseded_archived_iff (built_run _).sound.consistent JsonText.json_ordered
    JsonText.json_keepsNulls hlower).2 (by decide +kernel)⟩

open DeleteClosure Archives in
/-- A node that is queued and then loses a field is archived twice as it was, and never as it is when it
    goes. -/
theorem superseded_unarchived : ¬∀ (references : References) (v : View) (stamp : Stamp)
    (txs : List (TxOperation Settings.textual.json)) (lowered : List Operation),
    v.Consistent .textual → v.lowerTransaction .textual references stamp txs = .ok lowered →
    Archived .textual v lowered := by
  intro h
  have hlower : chained.view.lowerTransaction .textual chain ⟨0, 0⟩ clearDocs =
      .ok (clearedUntilLast ++ [.archive ⟨"b", 0, doc₂, 2⟩] ++ [.delete "b"]) := by decide +kernel
  have harchived := h chain chained.view ⟨0, 0⟩ clearDocs _ (built_run _).sound.consistent hlower
  obtain ⟨earlier, entry, hbefore, -, hentry⟩ := (harchived _ (.delete "b") [] rfl).1 "b" none doc₂Cleared
    rfl (by decide +kernel)
  obtain ⟨-, hlast⟩ := List.append_inj' hbefore rfl
  rw [← Operation.archive.inj (List.cons.inj hlast).1] at hentry
  exact absurd hentry (by decide)

end FacetQL
