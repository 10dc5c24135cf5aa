import FacetQL.Storage.Overlay
import FacetQL.Storage.Uniqueness

/-!
# Delete closures

`lower_delete_closure` of `storage/engine.rs` removes nodes with everything that the declared references
make the removal entail. Its work queue holds copies of nodes, and the state that the batch has reached
changes while the queue is worked off: fields are set to `null`.
-/

namespace FacetQL

variable {st : Settings} {references : References} {v : View}

/-- A node holds a value that is equal, and has the same encoding: the index over the field finds it. -/
def ReferenceDef.Finds (J : SerdeJson) (decl : ReferenceDef) (key : J.Value) (child : Node) : Prop :=
  child.kind = decl.kind ∧ ∃ value, decl.referencingKey J child = some value ∧
    value.eq J.numberEq key = true ∧ Keys.encodeOrderValue J (some value) = Keys.encodeOrderValue J (some key)

variable {J : SerdeJson} {decl : ReferenceDef} {child : Node} {lost : Set String} {parent : Node}

theorem ReferenceDef.Finds.refers {key : J.Value} (h : decl.Finds J key child) :
    decl.refers J key child = true := by
  obtain ⟨hkind, value, hvalue, heq, -⟩ := h
  exact refers_iff.2 ⟨hkind, value, hvalue, heq⟩

theorem Cleared.finds {node cleared : Node} {key : J.Value} (h : Cleared J lost node cleared)
    (hfinds : decl.Finds J key cleared) : decl.field ∉ lost ∧ decl.Finds J key node := by
  obtain ⟨hkind, value, hvalue, heq⟩ := hfinds
  obtain ⟨hfield, hvalue⟩ := h.referencingKey hvalue
  exact ⟨hfield, h.kind.symm.trans hkind, value, hvalue, heq⟩

theorem Cleared.links {lost' : Set String} {parent' child' : Node}
    (hparent : Cleared J lost parent parent') (hchild : Cleared J lost' child child')
    (h : decl.Links J parent' child') : decl.Links J parent child := by
  obtain ⟨hkind, key, hkey, hrefers⟩ := h
  exact ⟨hkind.trans hparent.kind, key, hparent.referencedKey hkey, (hchild.refers hrefers).2⟩

theorem Cleared.links_of_notMem {child' : Node} (hchild : Cleared J lost child child')
    (h : decl.Links J parent child) (hfield : decl.field ∉ lost) : decl.Links J parent child' := by
  obtain ⟨hkind, key, hkey, hrefers⟩ := h
  refine ⟨hkind, key, hkey, ?_⟩
  rw [ReferenceDef.refers, hchild.kind, hchild.referencingKey_of_notMem hfield]
  exact hrefers

section Doomed

variable (J : SerdeJson) (references : References) (present : String → Option Node) (seeds : Set Node)

/-- The nodes that go with the seeds: the least set closed under the references that cascade. -/
inductive Doomed : Node → Prop
  | seed {node : Node} : node ∈ seeds → Doomed node
  | cascade {parent child : Node} {decl : ReferenceDef} : Doomed parent → decl ∈ references →
    decl.onDelete = .cascade → decl.Links J parent child → present child.address = some child →
    Doomed child

/-- The fields that a node loses: those by which it references nodes that go. -/
def lostFields (node : Node) : Set String :=
  {field | ∃ decl ∈ references, decl.onDelete = .setNull ∧ decl.field = field ∧
    ∃ parent, Doomed J references present seeds parent ∧ decl.Links J parent node}

end Doomed

namespace View

/-! ## A closure in progress -/

variable (st references v) (origin : Batch) (seeds : List Node)

/-- A copy of a node that goes, as it was at the start or without some fields. -/
def Copy (copy : Node) : Prop :=
  ∃ old lost, v.overlay origin copy.address = some old ∧ Cleared st.json lost old copy ∧
    Doomed st.json references (v.overlay origin) {seed | seed ∈ seeds} old

/-- A node of the start, and what has become of it. -/
def Kept (old node : Node) : Prop :=
  ∃ lost, Cleared st.json lost old node ∧
    lost ⊆ lostFields st.json references (v.overlay origin) {seed | seed ∈ seeds} old ∧
    (lost.Nonempty → st.json.ReadsBack node.data)

/-- The nodes that lose a field have data that is read back. -/
def LosersReadBack : Prop :=
  ∀ node, v.overlay origin node.address = some node →
    (lostFields st.json references (v.overlay origin) {seed | seed ∈ seeds} node).Nonempty →
    st.json.ReadsBack node.data

/-- A closure that has removed these nodes, against the state that it started from. -/
structure Closing (dead : List Node) (c : Closure) : Prop where
  keyed : c.batch.Keyed
  removed : c.removed = dead.map Node.address
  gone {address : String} : address ∈ c.removed → v.overlay c.batch address = none
  kept {address : String} : address ∉ c.removed →
    Option.Rel (Kept st references v origin seeds) (v.overlay origin address) (v.overlay c.batch address)
  copies : ∀ node ∈ dead, Copy st references v origin seeds node
  queued : ∀ node ∈ c.queue, Copy st references v origin seeds node
  covered : ∀ seed ∈ seeds, seed.address ∈ c.removed ∨ ∃ node ∈ c.queue, node.address = seed.address
  deletes : ∃ added, c.batch.operations = origin.operations ++ added ∧
    ∀ address, .delete address ∈ added ↔ address ∈ c.removed

variable {st references v origin seeds} {dead : List Node} {c c' : Closure} {written : List Node}
  {node : Node} {decl : ReferenceDef}

theorem Closing.start (horigin : origin.Keyed)
    (hseeds : ∀ seed ∈ seeds, v.overlay origin seed.address = some seed) :
    Closing st references v origin seeds [] ⟨origin, seeds, []⟩ where
  keyed := horigin
  removed := rfl
  gone := nofun
  kept {address} _ := by
    rcases v.overlay origin address with _ | node
    · exact .none
    · exact .some ⟨∅, .refl node, Set.empty_subset _, fun h => absurd h Set.not_nonempty_empty⟩
  copies := nofun
  queued node h := ⟨node, ∅, hseeds node h, .refl node, .seed h⟩
  covered seed h := .inr ⟨seed, h, rfl⟩
  deletes := ⟨[], (List.append_nil _).symm, by simp⟩

variable {address : String} {queue : List Node} {b : Batch} {key : st.json.Value}

theorem exists_of_rel_some {α β : Type} {R : α → β → Prop} {a : Option α} {b : β}
    (h : Option.Rel R a (some b)) : ∃ x, a = some x ∧ R x b := by
  cases h with
  | some h => exact ⟨_, rfl, h⟩

/-- What is there has been there from the start. -/
theorem Closing.exists_kept (h : Closing st references v origin seeds dead c)
    (hnode : v.overlay c.batch address = some node) :
    address ∉ c.removed ∧
      ∃ old, v.overlay origin address = some old ∧ Kept st references v origin seeds old node := by
  have hkept : address ∉ c.removed := by
    intro hremoved
    rw [h.gone hremoved] at hnode
    cases hnode
  refine ⟨hkept, ?_⟩
  exact exists_of_rel_some (hnode ▸ h.kept hkept)

theorem Closing.exists_overlay (h : Closing st references v origin seeds dead c) {old : Node}
    (hold : v.overlay origin address = some old) (hkept : address ∉ c.removed) :
    ∃ node, v.overlay c.batch address = some node ∧ Kept st references v origin seeds old node := by
  have hrel := h.kept hkept
  rw [hold] at hrel
  generalize v.overlay c.batch address = found at hrel
  cases hrel with
  | some hrel => exact ⟨_, rfl, hrel⟩

/-- What is queued has been removed, or is what is removed next, or stays in the queue. -/
theorem mem_queue_cases (hdrop : c.pending = node :: queue) {queued : Node}
    (hqueued : queued ∈ c.queue) :
    queued.address ∈ node.address :: c.removed ∨ queued ∈ queue := by
  rw [← List.takeWhile_append_dropWhile (p := fun node : Node => c.removed.contains node.address)
    (l := c.queue), show c.queue.dropWhile _ = _ from hdrop, List.mem_append, List.mem_cons] at hqueued
  rcases hqueued with htaken | rfl | hqueued
  · have hremoved := List.mem_takeWhile_imp htaken
    exact .inl (List.mem_cons_of_mem _ (List.contains_iff_mem.1 hremoved))
  · exact .inl List.mem_cons_self
  · exact .inr hqueued

/-- The next node of the queue is removed. -/
theorem Closing.pop (h : Closing st references v origin seeds dead c)
    (hdrop : c.pending = node :: queue) :
    Closing st references v origin seeds (node :: dead) (c.pop node queue) := by
  have hsub : ∀ queued ∈ node :: queue, queued ∈ c.queue := fun _ => Closure.mem_queue hdrop
  have hnode : Copy st references v origin seeds node := h.queued node (hsub node List.mem_cons_self)
  refine ⟨h.keyed.remove node, ?_, fun {address} hmem => ?_, fun {address} hmem => ?_,
    List.forall_mem_cons.2 ⟨hnode, h.copies⟩, fun queued hqueued => ?_, fun seed hseed => ?_, ?_⟩
  · exact congrArg (node.address :: ·) h.removed
  · rw [overlay_remove h.keyed]
    split_ifs with haddress
    · rfl
    · exact h.gone ((List.mem_cons.1 hmem).resolve_left haddress)
  · obtain ⟨hne, hkept⟩ := not_or.1 (mt List.mem_cons.2 hmem)
    rw [overlay_remove h.keyed, if_neg hne]
    exact h.kept hkept
  · exact h.queued queued (hsub queued (List.mem_cons_of_mem _ hqueued))
  · -- A seed is passed over only if it has been removed.
    rcases h.covered seed hseed with hremoved | ⟨queued, hqueued, haddress⟩
    · exact .inl (List.mem_cons_of_mem _ hremoved)
    · rcases mem_queue_cases hdrop hqueued with hremoved | hqueued
      · exact .inl (haddress ▸ hremoved)
      · exact .inr ⟨queued, hqueued, haddress⟩
  · obtain ⟨added, hadded, hdeletes⟩ := h.deletes
    refine ⟨added ++ [.archive ⟨node.address, c.batch.stamp.archivedAtUnix, node,
      c.batch.stamp.operationId⟩, .delete node.address], ?_, fun address => ?_⟩
    · simp [Batch.remove, Batch.drop, Batch.push, Batch.archive, hadded]
    · simp [hdeletes, or_comm]

theorem clearFields_ok {field : String} {children : List Node} {b' : Batch} (hb : b.Keyed)
    (hnodup : (children.map Node.address).Nodup)
    (h : children.foldlM (clearField st field) b = .ok b') :
    b'.Keyed ∧ (∀ address ∉ children.map Node.address, v.overlay b' address = v.overlay b address) ∧
      (∀ child ∈ children, ∃ cleared, withFieldNull st.json child field = .ok cleared ∧
        v.overlay b' child.address = some cleared) ∧
      ∃ added, b'.operations = b.operations ++ added ∧ ∀ address, .delete address ∉ added := by
  induction children generalizing b with
  | nil =>
    obtain rfl := Except.ok.inj h
    exact ⟨hb, fun _ _ => rfl, nofun, [],
      (List.append_nil _).symm, fun _ => List.not_mem_nil⟩
  | cons child children ih =>
    rw [List.foldlM_cons] at h
    obtain ⟨b₁, hclear, h⟩ := Except.bind_eq_ok.1 h
    obtain ⟨cleared, hcleared, hclear⟩ := Except.mapError_bind_eq_ok.1 hclear
    obtain rfl := Except.ok.inj hclear
    rw [List.map_cons, List.nodup_cons] at hnodup
    obtain ⟨hkeyed, hframe, hall, added, hadded, hdeletes⟩ := ih (hb.replace child cleared) hnodup.2 h
    have haddress : cleared.address = child.address := by
      obtain ⟨data, rfl⟩ := withFieldNull_ok hcleared
      rfl
    refine ⟨hkeyed, fun address hmem => ?_, List.forall_mem_cons.2 ⟨⟨cleared, hcleared, ?_⟩, hall⟩, ?_⟩
    · obtain ⟨hne, hrest⟩ := not_or.1 (mt List.mem_cons.2 hmem)
      rw [hframe address hrest, overlay_replace hb, haddress, if_neg hne]
    · -- The other children have other addresses.
      rw [hframe _ hnodup.1, overlay_replace hb, if_pos haddress.symm]
    refine ⟨.archive ⟨child.address, b.stamp.archivedAtUnix, child, b.stamp.operationId⟩ ::
      .insert cleared :: added, ?_, fun address => ?_⟩
    · rw [hadded]
      simp [Batch.replace, Batch.put, Batch.push, Batch.archive]
    · simp [hdeletes]

/-- What one reference of a removed node does to a closure: nodes are queued or lose fields. -/
structure Onward (st : Settings) (v : View) (c c' : Closure) : Prop where
  removed : c'.removed = c.removed
  queue : ∀ node ∈ c.queue, node ∈ c'.queue
  overlay (address : String) : Option.Rel (fun old node => ∃ lost, Cleared st.json lost old node)
    (v.overlay c.batch address) (v.overlay c'.batch address)

theorem Onward.refl (c : Closure) : Onward st v c c where
  removed := rfl
  queue _ h := h
  overlay address := by
    rcases v.overlay c.batch address with _ | node
    · exact .none
    · exact .some ⟨∅, .refl node⟩

section

variable (h : Closing st references v origin seeds dead c) (hnode : node ∈ dead)
  (hdecl : decl ∈ references) (hkind : decl.parentKind = node.kind) {key : st.json.Value}
  (hkey : decl.referencedKey st.json node = some key) {children : List Node}
  (hchildren : ∀ child ∈ children,
    v.overlay c.batch child.address = some child ∧ decl.refers st.json key child = true)

include h hnode hkind hkey hchildren

theorem Closing.exists_link {child : Node} (hchild : child ∈ children) :
    ∃ parent old, Doomed st.json references (v.overlay origin) {seed | seed ∈ seeds} parent ∧
      parent.address ∈ c.removed ∧ v.overlay origin child.address = some old ∧
      Kept st references v origin seeds old child ∧ decl.Links st.json parent old := by
  obtain ⟨hpresent, hrefers⟩ := hchildren child hchild
  obtain ⟨parent, lost, -, hparent, hdoomed⟩ := h.copies node hnode
  obtain ⟨-, old, hold, lost', hcleared, hkept⟩ := h.exists_kept hpresent
  refine ⟨parent, old, hdoomed, ?_, hold, ⟨lost', hcleared, hkept⟩,
    hparent.links hcleared ⟨hkind, key, hkey, hrefers⟩⟩
  rw [h.removed, ← hparent.address]
  exact List.mem_map_of_mem hnode

include hdecl

theorem Closing.enqueue (haction : decl.onDelete = .cascade) :
    Closing st references v origin seeds dead { c with queue := c.queue ++ children } ∧
      Onward st v c { c with queue := c.queue ++ children } := by
  refine ⟨{ h with
    queued := fun queued hqueued => ?_
    covered := fun seed hseed => ?_ }, rfl, fun queued hqueued => List.mem_append_left _ hqueued,
    (Onward.refl c).overlay⟩
  · rcases List.mem_append.1 hqueued with hold | hnew
    · exact h.queued queued hold
    · obtain ⟨parent, old, hdoomed, -, hold, ⟨lost, hcleared, -⟩, hlinks⟩ :=
        h.exists_link hnode hkind hkey hchildren hnew
      refine ⟨old, lost, hold, hcleared, .cascade hdoomed hdecl haction hlinks ?_⟩
      rw [← hcleared.address, hold]
  · exact (h.covered seed hseed).imp id fun ⟨queued, hqueued, haddress⟩ =>
      ⟨queued, List.mem_append_left _ hqueued, haddress⟩

/-- A node that is about to lose a field has data that is read back. -/
theorem Closing.readsBack (hback : LosersReadBack st references v origin seeds)
    (haction : decl.onDelete = .setNull) {child : Node} (hchild : child ∈ children) :
    st.json.ReadsBack child.data := by
  obtain ⟨parent, old, hdoomed, -, hold, ⟨lost, hcleared, -, hkept⟩, hlinks⟩ :=
    h.exists_link hnode hkind hkey hchildren hchild
  rcases lost.eq_empty_or_nonempty with hempty | hlost
  · rw [hcleared.same hempty]
    exact hback old (hcleared.address ▸ hold)
      ⟨decl.field, decl, hdecl, haction, rfl, parent, hdoomed, hlinks⟩
  · exact hkept hlost

theorem Closing.clear (hJ : st.json.Ordered) (hback : LosersReadBack st references v origin seeds)
    (haction : decl.onDelete = .setNull)
    (hnodup : (children.map Node.address).Nodup) {batch : Batch}
    (hclear : children.foldlM (clearField st decl.field) c.batch = .ok batch) :
    Closing st references v origin seeds dead { c with batch := batch } ∧
      Onward st v c { c with batch := batch } := by
  obtain ⟨hkeyed, hframe, hcleared, added, hadded, hdeletes⟩ := clearFields_ok h.keyed hnodup hclear
  have hreads {child : Node} (hchild : child ∈ children) : st.json.ReadsBack child.data :=
    h.readsBack hnode hdecl hkind hkey hchildren hback haction hchild
  refine ⟨{ h with
    keyed := hkeyed
    gone := fun {address} hremoved => ?_
    kept := fun {address} hkept => ?_
    deletes := ?_ }, rfl, fun _ hqueued => hqueued, fun address => ?_⟩
  · -- The children are there, so that none of them has been removed.
    rw [hframe address fun hmem => ?_, h.gone hremoved]
    obtain ⟨child, hchild, rfl⟩ := List.mem_map.1 hmem
    exact (h.exists_kept (hchildren child hchild).1).1 hremoved
  · by_cases hmem : address ∈ children.map Node.address
    · obtain ⟨child, hchild, rfl⟩ := List.mem_map.1 hmem
      obtain ⟨parent, old, hdoomed, -, hold, ⟨lost, hcleared', hlost, -⟩, hlinks⟩ :=
        h.exists_link hnode hkind hkey hchildren hchild
      obtain ⟨cleared, hnull, hoverlay⟩ := hcleared child hchild
      rw [hold, hoverlay]
      refine .some ⟨_, hcleared'.step hJ (hreads hchild) hnull, Set.insert_subset ?_ hlost,
        fun _ => readsBack_withFieldNull (hreads hchild) hnull⟩
      exact ⟨decl, hdecl, haction, rfl, parent, hdoomed, hlinks⟩
    · rw [hframe address hmem]
      exact h.kept hkept
  · obtain ⟨before, hbefore, hdeletes'⟩ := h.deletes
    refine ⟨before ++ added, by rw [hadded, hbefore, List.append_assoc], fun address => ?_⟩
    rw [List.mem_append, hdeletes', or_iff_left (hdeletes address)]
  · by_cases hmem : address ∈ children.map Node.address
    · obtain ⟨child, hchild, rfl⟩ := List.mem_map.1 hmem
      obtain ⟨cleared, hnull, hoverlay⟩ := hcleared child hchild
      rw [(hchildren child hchild).1, hoverlay]
      exact .some ⟨_, (Cleared.refl child).step hJ (hreads hchild) hnull⟩
    · rw [hframe address hmem]
      exact (Onward.refl c).overlay address

end

/-- The children that a reference acts on: they are there and hold the value, at different addresses. -/
theorem Consistent.children (hv : v.Consistent st) (hb : c.batch.Keyed) {nodes : List Node}
    (hnodes : v.referencingNodes st decl key c.batch written = .ok nodes) :
    (∀ child ∈ nodes.filter fun child => !c.removed.contains child.address,
      v.overlay c.batch child.address = some child ∧ decl.refers st.json key child = true) ∧
    ((nodes.filter fun child => !c.removed.contains child.address).map Node.address).Nodup :=
  ⟨fun _ hchild => hv.overlay_of_referencing hnodes hb (List.mem_filter.1 hchild).1,
    (hv.nodup_referencing hnodes hb).sublist (List.filter_sublist.map _)⟩

theorem Closing.act (h : Closing st references v origin seeds dead c) (hv : v.Consistent st)
    (hJ : st.json.Ordered) (hback : LosersReadBack st references v origin seeds) (hnode : node ∈ dead)
    (hdecl : decl ∈ references) (hkind : decl.parentKind = node.kind)
    (hact : v.actOnReference st written node c decl = .ok c') :
    Closing st references v origin seeds dead c' ∧ Onward st v c c' := by
  rcases actOnReference_cases hact with ⟨-, rfl⟩ | ⟨key, nodes, hkey, hnodes, hacted⟩
  · exact ⟨h, .refl _⟩
  obtain ⟨hchildren, hnodup⟩ := hv.children h.keyed hnodes
  rcases hacted with ⟨-, rfl⟩ | ⟨haction, rfl⟩ | ⟨haction, batch, hclear, rfl⟩
  · exact ⟨h, .refl _⟩
  · exact h.enqueue hnode hdecl hkind hkey hchildren haction
  · exact h.clear hnode hdecl hkind hkey hchildren hJ hback haction hnodup hclear

/-! ## What is left to do -/

/-- What is left to do for a reference of a removed node: the nodes that hold its value are queued. -/
def Settled (st : Settings) (v : View) (c : Closure) (node : Node) (decl : ReferenceDef) : Prop :=
  ∀ key, decl.referencedKey st.json node = some key → ∀ address child,
    v.overlay c.batch address = some child → decl.Finds st.json key child →
      decl.onDelete = .cascade ∧ ∃ queued ∈ c.queue, queued.address = address

theorem Settled.onward (h : Settled st v c node decl) (hon : Onward st v c c') :
    Settled st v c' node decl := by
  intro key hkey address child hchild hfinds
  obtain ⟨old, hold, lost, hcleared⟩ := exists_of_rel_some (hchild ▸ hon.overlay address)
  obtain ⟨haction, queued, hqueued, haddress⟩ :=
    h key hkey address old hold (hcleared.finds hfinds).2
  exact ⟨haction, queued, hon.queue queued hqueued, haddress⟩

/-- The removal of a further node leaves nothing more to do for the earlier ones. -/
theorem Settled.pop {popped : Node} (h : Settled st v c node decl) (hc : c.batch.Keyed)
    (hgone : ∀ {address : String}, address ∈ c.removed → v.overlay c.batch address = none)
    (hdrop : c.pending = popped :: queue) :
    Settled st v ⟨c.batch.remove popped, queue, popped.address :: c.removed⟩ node decl := by
  intro key hkey address child hchild hfinds
  rw [overlay_remove hc] at hchild
  split_ifs at hchild with hne
  obtain ⟨haction, queued, hqueued, rfl⟩ := h key hkey address child hchild hfinds
  refine ⟨haction, queued, (mem_queue_cases hdrop hqueued).resolve_left fun hmem => ?_, rfl⟩
  rcases List.mem_cons.1 hmem with heq | hremoved
  · exact hne heq
  · rw [hgone hremoved] at hchild
    cases hchild

/-- The holders of a value are found: by the index, or as they were written before the closure. -/
theorem Closing.mem_referencing (h : Closing st references v origin seeds dead c)
    (hv : v.Consistent st) (horigin : origin.Keyed) {nodes : List Node}
    (hnodes : v.referencingNodes st decl key c.batch (origin.staged.filterMap Prod.snd) = .ok nodes)
    {child : Node} (hchild : v.overlay c.batch child.address = some child)
    (hfinds : decl.Finds st.json key child) : child ∈ nodes := by
  obtain ⟨-, old, hold, lost, hcleared, -⟩ := h.exists_kept hchild
  refine hv.mem_referencingNodes_of hnodes hchild hfinds.refers ?_
  have hkind : old.kind = decl.kind := hcleared.kind.symm.trans hfinds.1
  rw [overlay_eq_some, stagedNode] at hold
  split at hold
  · rename_i slot hslot
    left
    refine ⟨old, List.mem_filterMap.2 ⟨_, horigin.sorted.find_eq_some.1 hslot, Except.ok.inj hold⟩,
      hkind, hcleared.address.symm⟩
  · right
    obtain ⟨-, value, hvalue, -, hencoded⟩ := (hcleared.finds hfinds).2
    refine ⟨old, hv.mem_live_of_read hold, hkind, hcleared.address.symm, ?_⟩
    rw [(Option.filter_eq_some_iff.1 hvalue).1, hencoded]

/-- A reference leaves nothing to do for itself. -/
theorem Closing.settles (h : Closing st references v origin seeds dead c) (hv : v.Consistent st)
    (hJ : st.json.Ordered) (hback : LosersReadBack st references v origin seeds)
    (horigin : origin.Keyed) (hnode : node ∈ dead) (hdecl : decl ∈ references)
    (hkind : decl.parentKind = node.kind)
    (hact : v.actOnReference st (origin.staged.filterMap Prod.snd) node c decl = .ok c') :
    Settled st v c' node decl := by
  rcases actOnReference_cases hact with ⟨hnone, -⟩ | ⟨key, nodes, hkey, hnodes, hacted⟩
  · intro key hkey
    rw [hnone] at hkey
    cases hkey
  have hfound : ∀ {address : String} {child : Node}, v.overlay c.batch address = some child →
      decl.Finds st.json key child →
      child.address = address ∧ child ∈ nodes.filter fun child => !c.removed.contains child.address := by
    intro address child hchild hfinds
    obtain rfl := overlay_address hv.toWellFormed h.keyed hchild
    refine ⟨rfl, List.mem_filter.2 ⟨h.mem_referencing hv horigin hnodes hchild hfinds, ?_⟩⟩
    simpa using (h.exists_kept hchild).1
  obtain ⟨hchildren, hnodup⟩ := hv.children h.keyed hnodes
  intro key' hkey' address child hchild hfinds
  obtain rfl := Option.some.inj (hkey.symm.trans hkey')
  rcases hacted with ⟨hnone, rfl⟩ | ⟨haction, rfl⟩ | ⟨haction, batch, hclear, rfl⟩
  · obtain ⟨-, hmem⟩ := hfound hchild hfinds
    rw [hnone] at hmem
    exact absurd hmem List.not_mem_nil
  · obtain ⟨haddress, hmem⟩ := hfound hchild hfinds
    exact ⟨haction, child, List.mem_append_right _ hmem, haddress⟩
  · -- A child that has lost the field does not hold the value, and the other nodes did not before.
    obtain ⟨-, hframe, hcleared, -⟩ := clearFields_ok (v := v) h.keyed hnodup hclear
    exfalso
    by_cases hmem : address ∈ (nodes.filter fun child => !c.removed.contains child.address).map
        Node.address
    · obtain ⟨old, hold, rfl⟩ := List.mem_map.1 hmem
      obtain ⟨cleared, hnull, hoverlay⟩ := hcleared old hold
      obtain rfl := Option.some.inj (hoverlay.symm.trans hchild)
      have hreads := h.readsBack hnode hdecl hkind hkey hchildren hback haction hold
      exact (((Cleared.refl old).step hJ hreads hnull).finds hfinds).1 (Set.mem_insert _ _)
    · have hchild' : v.overlay batch address = some child := hchild
      rw [hframe address hmem] at hchild'
      obtain ⟨rfl, hmem'⟩ := hfound hchild' hfinds
      exact hmem (List.mem_map_of_mem hmem')

/-! ## The whole closure -/

/-- A closure between two of its rounds. -/
structure Underway (st : Settings) (references : References) (v : View) (origin : Batch)
    (seeds dead : List Node) (c : Closure) : Prop
    extends Closing st references v origin seeds dead c where
  settled : ∀ node ∈ dead, ∀ decl ∈ references, decl.parentKind = node.kind → Settled st v c node decl

/-- One round: the next node is removed, and each of its references acts. -/
theorem Underway.round (h : Underway st references v origin seeds dead c) (hv : v.Consistent st)
    (hJ : st.json.Ordered) (hback : LosersReadBack st references v origin seeds)
    (horigin : origin.Keyed)
    (hdrop : c.pending = node :: queue)
    (hacts : (references.forParent node.kind).foldlM
      (v.actOnReference st (origin.staged.filterMap Prod.snd) node)
      (c.pop node queue) = .ok c') :
    Underway st references v origin seeds (node :: dead) c' := by
  have hpop : Closing st references v origin seeds (node :: dead)
      (c.pop node queue) ∧ ∀ node' ∈ dead, ∀ decl ∈ references,
      decl.parentKind = node'.kind →
        Settled st v (c.pop node queue) node' decl :=
    ⟨h.toClosing.pop hdrop, fun node hnode decl hdecl hkind =>
      (h.settled node hnode decl hdecl hkind).pop h.keyed h.gone hdrop⟩
  -- The references act one after the other: each settles itself and leaves the others settled.
  obtain ⟨⟨hclosing, hold⟩, hnew⟩ := List.foldlM_ok_all
    (P := fun c => Closing st references v origin seeds (node :: dead) c ∧
      ∀ node ∈ dead, ∀ decl ∈ references, decl.parentKind = node.kind → Settled st v c node decl)
    (Q := fun decl c => Settled st v c node decl) hpop
    (fun decl hdecl c c' hc hact => by
      obtain ⟨hdecl, hkind⟩ := List.mem_filter.1 hdecl
      have hkind := beq_iff_eq.1 hkind
      obtain ⟨hclosing, hon⟩ := hc.1.act hv hJ hback List.mem_cons_self hdecl hkind hact
      exact ⟨⟨hclosing, fun node hnode decl hdecl hkind =>
          (hc.2 node hnode decl hdecl hkind).onward hon⟩,
        hc.1.settles hv hJ hback horigin List.mem_cons_self hdecl hkind hact, fun decl hsettled => hsettled.onward hon⟩) hacts
  refine ⟨hclosing, List.forall_mem_cons.2 ⟨fun decl hdecl hkind => ?_, hold⟩⟩
  exact hnew decl (List.mem_filter.2 ⟨hdecl, beq_iff_eq.2 hkind⟩)

/-- What every round keeps holds at the end, where all that is queued has been removed. -/
theorem closeDeletes_rule {I : Closure → Prop} {rounds : Nat} (hc : I c)
    (hround : ∀ c node queue c', I c →
      c.pending = node :: queue →
      (references.forParent node.kind).foldlM (v.actOnReference st written node)
        (c.pop node queue) = .ok c' → I c')
    (hrounds : st.maxTransactionOps < c.batch.operations.length + 2 * (rounds + 1))
    (hclose : v.closeDeletes st references written (rounds + 1) c = .ok b) :
    ∃ c', I c' ∧ c'.batch = b ∧ (∀ queued ∈ c'.queue, queued.address ∈ c'.removed) ∧
      (b.operations.length ≤ st.maxTransactionOps ∨ b = c.batch ∧
        c.pending = []) := by
  have hdone (c : Closure) (hdrop : c.pending = []) : ∀ queued ∈ c.queue, queued.address ∈ c.removed :=
    fun queued hqueued => List.contains_iff_mem.1 (List.dropWhile_eq_nil_iff.1 hdrop queued hqueued)
  induction rounds generalizing c with
  | zero =>
    rcases closeDeletes_eq_ok hclose with ⟨hdrop, rfl⟩ | ⟨node, queue, c', -, hacts, hbound, -⟩
    · exact ⟨c, hc, rfl, hdone c hdrop, .inr ⟨rfl, hdrop⟩⟩
    -- The two operations of this round already exceed the bound.
    have hlength := length_pop hacts
    omega
  | succ rounds ih =>
    rcases closeDeletes_eq_ok hclose with ⟨hdrop, rfl⟩ | ⟨node, queue, c', hdrop, hacts, hbound, hclose⟩
    · exact ⟨c, hc, rfl, hdone c hdrop, .inr ⟨rfl, hdrop⟩⟩
    have hlength := length_pop hacts
    obtain ⟨c'', hc'', hb, hqueue, hend⟩ := ih (hround c node queue c' hc hdrop hacts) (by omega) hclose
    exact ⟨c'', hc'', hb, hqueue, .inl (hend.elim id fun hsame => hsame.1 ▸ hbound)⟩

/-- A delete that is lowered, with references declared. -/
theorem lowerDeleteClosure_ok (hv : v.Consistent st) (hJ : st.json.Ordered)
    (hback : LosersReadBack st references v origin seeds) (hdeclared : references ≠ []) (horigin : origin.Keyed)
    (hseeds : ∀ seed ∈ seeds, v.overlay origin seed.address = some seed)
    (hlower : v.lowerDeleteClosure st references seeds origin = .ok b) :
    ∃ dead c, Underway st references v origin seeds dead c ∧ c.batch = b ∧
      (∀ queued ∈ c.queue, queued.address ∈ c.removed) ∧
      (b.operations.length ≤ st.maxTransactionOps ∨ b = origin ∧ seeds = []) := by
  have hempty : ¬references.isEmpty = true := mt List.isEmpty_iff.1 hdeclared
  have hstart : ∃ dead, Underway st references v origin seeds dead ⟨origin, seeds, []⟩ :=
    ⟨[], .start horigin hseeds, by simp⟩
  rw [lowerDeleteClosure, if_neg hempty] at hlower
  obtain ⟨c, ⟨dead, hc⟩, hb, hqueue, hend⟩ := closeDeletes_rule
    (I := fun c => ∃ dead, Underway st references v origin seeds dead c) hstart
    (fun c node queue c' hunderway hdrop hacts => hunderway.elim fun dead hc =>
      ⟨node :: dead, hc.round hv hJ hback horigin hdrop hacts⟩) (by omega) hlower
  refine ⟨dead, c, hc, hb, hqueue, hend.imp id fun hnone => ⟨hnone.1, ?_⟩⟩
  exact List.eq_nil_iff_forall_not_mem.2 fun seed hseed =>
    absurd (List.dropWhile_eq_nil_iff.1 hnone.2 seed hseed) (by simp)

end View

/-! ## References by address -/

theorem Json.eq_string {ν : Type} {numberEq : ν → ν → Bool} {value : Json ν} {text : String}
    (h : value.eq numberEq (.string text) = true) : value = .string text := by
  cases value with
  | string other => exact congrArg Json.string (beq_iff_eq.1 h)
  | _ => cases h

theorem ReferenceDef.Links.byAddress (h : decl.Links J parent child)
    (hfield : decl.parentField = none) : decl.Finds J (.string parent.address) child := by
  obtain ⟨-, key, hkey, hrefers⟩ := h
  obtain ⟨hkind, value, hvalue, heq⟩ := refers_iff.1 hrefers
  rw [referencedKey, hfield] at hkey
  obtain rfl := Option.some.inj hkey
  obtain rfl := Json.eq_string heq
  exact ⟨hkind, _, hvalue, heq, rfl⟩

namespace View

section ByAddress

variable {origin : Batch} {seeds dead : List Node} {c : Closure}
  (h : Underway st references v origin seeds dead c)
  (hqueue : ∀ queued ∈ c.queue, queued.address ∈ c.removed)
  (hbyAddress : ∀ decl ∈ references, decl.parentField = none)
  (hdistinct : ∀ decl ∈ references, ∀ decl' ∈ references, decl.kind = decl'.kind →
    decl.field = decl'.field → decl = decl')
  (hseeds : ∀ seed ∈ seeds, v.overlay origin seed.address = some seed)

include h hqueue hbyAddress

/-- At the end, no node that is left references a node whose address has been removed. -/
theorem Underway.not_links {parent left : Node} {decl : ReferenceDef} {address : String}
    (hparent : v.overlay origin parent.address = some parent) (hgone : parent.address ∈ c.removed)
    (hdecl : decl ∈ references) (hleft : v.overlay c.batch address = some left) :
    ¬decl.Links st.json parent left := by
  intro hlinks
  rw [h.removed] at hgone
  obtain ⟨copy, hcopy, haddress⟩ := List.mem_map.1 hgone
  obtain ⟨old, lost, hold, hcleared, -⟩ := h.copies copy hcopy
  obtain rfl := Option.some.inj (hparent.symm.trans (haddress ▸ hold))
  have hkey : decl.referencedKey st.json copy = some (.string parent.address) := by
    rw [ReferenceDef.referencedKey, hbyAddress decl hdecl, haddress]
  obtain ⟨-, queued, hqueued, hgone⟩ := h.settled copy hcopy decl hdecl
    (hlinks.1.trans hcleared.kind.symm) _ hkey _ _ hleft (hlinks.byAddress (hbyAddress decl hdecl))
  exact (h.exists_kept hleft).1 (hgone ▸ hqueue queued hqueued)

include hdistinct hseeds

/-- Every doomed node has been removed. -/
theorem Underway.removed_of_doomed {node : Node}
    (hdoomed : Doomed st.json references (v.overlay origin) {seed | seed ∈ seeds} node) :
    v.overlay origin node.address = some node ∧ node.address ∈ c.removed := by
  induction hdoomed with
  | @seed node hseed =>
    refine ⟨hseeds node hseed, (h.covered node hseed).elim id fun ⟨queued, hqueued, haddress⟩ => ?_⟩
    exact haddress ▸ hqueue queued hqueued
  | @cascade parent child decl _ hdecl haction hlinks hpresent ih =>
    refine ⟨hpresent, by_contra fun hkept => ?_⟩
    obtain ⟨left, hleft, lost, hcleared, hlost, -⟩ := h.exists_overlay hpresent hkept
    -- Only a reference that sets its field to null clears the field, and this one cascades.
    have hfield : decl.field ∉ lost := by
      intro hmem
      obtain ⟨decl', hdecl', hnull, hname, parent', -, -, key', -, hrefers'⟩ := hlost hmem
      obtain ⟨-, key, -, hrefers⟩ := hlinks
      have hkind : decl.kind = decl'.kind :=
        (ReferenceDef.refers_iff.1 hrefers).1.symm.trans (ReferenceDef.refers_iff.1 hrefers').1
      rw [← hdistinct decl hdecl decl' hdecl' hkind hname.symm, haction] at hnull
      cases hnull
    exact h.not_links hqueue hbyAddress ih.1 ih.2 hdecl hleft (hcleared.links_of_notMem hlinks hfield)

end ByAddress

end View

/-- A delete closure over references by address. More rounds than the model allows would change nothing,
    so that the loop ends. If it ends well, what it removes is the least set with the seeds that is closed
    under the references that cascade; what is left has lost exactly the fields by which it referenced a
    removed node through a reference that sets them to null, and references no removed node through any
    reference; and what has been lowered is within the bound, unless there was nothing to do. -/
theorem delete_closure_exact (hv : v.Consistent st) (hJ : st.json.Ordered)
    (hdeclared : references ≠ []) (hbyAddress : ∀ decl ∈ references, decl.parentField = none)
    (hdistinct : ∀ decl ∈ references, ∀ decl' ∈ references, decl.kind = decl'.kind →
      decl.field = decl'.field → decl = decl')
    {b : Batch} (hb : b.Keyed) {seeds : List Node}
    (hseeds : ∀ seed ∈ seeds, v.overlay b seed.address = some seed)
    (hback : View.LosersReadBack st references v b seeds) :
    (∀ more, v.closeDeletes st references (b.staged.filterMap Prod.snd)
      (st.maxTransactionOps + 2 + more) ⟨b, seeds, []⟩ = v.lowerDeleteClosure st references seeds b) ∧
    ∀ b', v.lowerDeleteClosure st references seeds b = .ok b' →
      (∃ added, b'.operations = b.operations ++ added ∧ ∀ address, .delete address ∈ added ↔
        ∃ node, Doomed st.json references (v.overlay b) {seed | seed ∈ seeds} node ∧
          node.address = address) ∧
      (∀ node, Doomed st.json references (v.overlay b) {seed | seed ∈ seeds} node →
        v.overlay b' node.address = none) ∧
      (∀ node, v.overlay b node.address = some node →
        ¬Doomed st.json references (v.overlay b) {seed | seed ∈ seeds} node →
        ∃ left, v.overlay b' node.address = some left ∧
          Cleared st.json (lostFields st.json references (v.overlay b) {seed | seed ∈ seeds} node)
            node left ∧
          ∀ decl ∈ references, decl.onDelete = .restrict →
            ∀ parent, Doomed st.json references (v.overlay b) {seed | seed ∈ seeds} parent →
              ¬decl.Links st.json parent left) ∧
      (seeds ≠ [] ∨ b.operations.length ≤ st.maxTransactionOps →
        b'.operations.length ≤ st.maxTransactionOps) := by
  have hempty : ¬references.isEmpty = true := mt List.isEmpty_iff.1 hdeclared
  constructor
  · intro more
    rw [View.lowerDeleteClosure, if_neg hempty, closeDeletes_rounds]
  intro b' hlower
  obtain ⟨dead, c, hc, rfl, hqueue, hend⟩ :=
    View.lowerDeleteClosure_ok hv hJ hback hdeclared hb hseeds hlower
  have hremoved {node : Node}
      (hdoomed : Doomed st.json references (v.overlay b) {seed | seed ∈ seeds} node) :=
    hc.removed_of_doomed hqueue hbyAddress hdistinct hseeds hdoomed
  have hdoomed {address : String} (hmem : address ∈ c.removed) : ∃ node,
      Doomed st.json references (v.overlay b) {seed | seed ∈ seeds} node ∧ node.address = address := by
    rw [hc.removed] at hmem
    obtain ⟨copy, hcopy, rfl⟩ := List.mem_map.1 hmem
    obtain ⟨old, lost, -, hcleared, hold⟩ := hc.copies copy hcopy
    exact ⟨old, hold, hcleared.address.symm⟩
  refine ⟨?_, fun node hnode => hc.gone (hremoved hnode).2, fun node hnode hkept => ?_, fun hbound => ?_⟩
  · obtain ⟨added, hadded, hdeletes⟩ := hc.deletes
    refine ⟨added, hadded, fun address => (hdeletes address).trans ⟨hdoomed, ?_⟩⟩
    rintro ⟨node, hnode, rfl⟩
    exact (hremoved hnode).2
  · have haddress : node.address ∉ c.removed := by
      intro hmem
      obtain ⟨other, hother, haddress⟩ := hdoomed hmem
      have hpresent := (hremoved hother).1
      rw [haddress, hnode] at hpresent
      exact hkept (Option.some.inj hpresent ▸ hother)
    obtain ⟨left, hleft, lost, hcleared, hlost, -⟩ := hc.exists_overlay hnode haddress
    have hnone {decl : ReferenceDef} (hdecl : decl ∈ references) {parent : Node}
        (hparent : Doomed st.json references (v.overlay b) {seed | seed ∈ seeds} parent) :
        ¬decl.Links st.json parent left :=
      hc.not_links hqueue hbyAddress (hremoved hparent).1 (hremoved hparent).2 hdecl hleft
    refine ⟨left, hleft, ?_, fun decl hdecl _ parent hparent => hnone hdecl hparent⟩
    -- A field that is to be lost and has been kept would still reference the removed node.
    rw [← hlost.antisymm fun field hfield => ?_]
    · exact hcleared
    · obtain ⟨decl, hdecl, -, rfl, parent, hparent, hlinks⟩ := hfield
      exact by_contra fun hmem => hnone hdecl hparent (hcleared.links_of_notMem hlinks hmem)
  · rcases hend with hlength | ⟨hsame, hseeds⟩
    · exact hlength
    · rw [hsame]
      exact hbound.resolve_left (absurd hseeds)

namespace DeleteClosure

def sample (address kind data : String) : Node :=
  { address := address, coordinate := ⟨0, 0, 0, 0⟩, value := 0, kind := kind, data := data,
    owner := "alice", claimedBy := none, visibility := .priv }

/-- The database after mutations, one after the other, with no references declared. -/
def built (mutations : List (Mutation .textual)) : GraphStore :=
  mutations.foldl (fun db m => db.mutate .textual ⟨0, 0⟩ m) .empty

theorem built_run (mutations : List (Mutation .textual)) : MutationRun .textual (built mutations) := by
  have hfold (db : GraphStore) (hdb : MutationRun .textual db) : MutationRun .textual
      (mutations.foldl (fun db m => db.mutate .textual ⟨0, 0⟩ m) db) := by
    induction mutations generalizing db with
    | nil => exact hdb
    | cons m mutations ih => exact ih _ (.mutate _ m hdb)
  exact hfold .empty .start

/-- Documents go with their parents, and notes lose the document they are about. -/
def documents : References :=
  [⟨"about", "note", "doc", "doc", none, .setNull⟩, ⟨"part", "doc", "parent", "doc", none, .cascade⟩]

def docA : Node := sample "a" "doc" "\x7b\"parent\":\"b\"\x7d"

def docB : Node := sample "b" "doc" "\x7b\"parent\":\"a\"\x7d"

def note : Node := sample "n" "note" "\x7b\"doc\":\"b\"\x7d"

/-- Two documents that are each other's parent, and a note about one of them. -/
def cycle : GraphStore :=
  built [.createIndex ⟨"by_doc", "note", "doc", false⟩, .createIndex ⟨"by_parent", "doc", "parent", false⟩,
    .insert docA, .insert docB, .insert note]

def oneAtMost : Settings := { Settings.textual with maxTransactionOps := 1 }

/-- A batch that writes both documents. -/
def twoWrites : Batch := ((Batch.start ⟨0, 0⟩).put "a" docA).put "b" docB

theorem twoWrites_keyed : twoWrites.Keyed := ((Batch.Keyed.start ⟨0, 0⟩).put docA).put docB

end DeleteClosure

open DeleteClosure in
theorem delete_closure_exact_cycle : ∃ b',
    cycle.view.lowerDeleteClosure .textual documents [docA] (.start ⟨0, 0⟩) = .ok b' ∧
    ∃ added, b'.operations = (Batch.start ⟨0, 0⟩).operations ++ added ∧
      ∀ address, .delete address ∈ added ↔ ∃ node, Doomed Settings.textual.json documents
        (cycle.view.overlay (.start ⟨0, 0⟩)) {seed | seed ∈ [docA]} node ∧ node.address = address := by
  have hv : cycle.view.Consistent .textual := (built_run _).sound.consistent
  have hdeclared : documents ≠ [] := List.cons_ne_nil _ _
  have hseeds : ∀ seed ∈ [docA], cycle.view.overlay (.start ⟨0, 0⟩) seed.address = some seed :=
    List.forall_mem_singleton.2 (by decide +kernel)
  have hexact := delete_closure_exact hv JsonText.json_ordered hdeclared (by decide) (by decide)
    (.start ⟨0, 0⟩) hseeds fun node _ _ => JsonText.json_readsBack node.data
  have hok : (cycle.view.lowerDeleteClosure .textual documents [docA] (.start ⟨0, 0⟩)).isOk = true := by
    decide +kernel
  cases hlower : cycle.view.lowerDeleteClosure .textual documents [docA] (.start ⟨0, 0⟩) with
  | error e =>
    rw [hlower] at hok
    cases hok
  | ok b' => exact ⟨b', rfl, (hexact.2 b' hlower).1⟩

open DeleteClosure in
/-- A closure of nothing does not look at what has been lowered before. -/
theorem delete_closure_overlong : ¬∀ (st : Settings) (references : References) (v : View) (b b' : Batch)
    (seeds : List Node), v.Consistent st → st.json.Ordered → references ≠ [] →
    (∀ decl ∈ references, decl.parentField = none) →
    (∀ decl ∈ references, ∀ decl' ∈ references, decl.kind = decl'.kind → decl.field = decl'.field →
      decl = decl') → b.Keyed →
    (∀ seed ∈ seeds, v.overlay b seed.address = some seed) →
    View.LosersReadBack st references v b seeds →
    v.lowerDeleteClosure st references seeds b = .ok b' →
    b'.operations.length ≤ st.maxTransactionOps := by
  intro h
  have hlength := h oneAtMost documents Trees.empty twoWrites twoWrites [] .empty
    JsonText.json_ordered (List.cons_ne_nil _ _) (by decide) (by decide) twoWrites_keyed
    nofun (fun node _ _ => JsonText.json_readsBack node.data) rfl
  exact absurd hlength (by decide)

end FacetQL
