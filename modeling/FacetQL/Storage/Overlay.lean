import FacetQL.Storage.Scans

/-!
# The state that a batch has reached

While a batch is lowered nothing is applied: a node is looked up in what the batch has staged, and behind
that in the store. This module says what is found there, and what a referential action does to it.
-/

namespace FacetQL

open SecondaryIndex
open SortedMap (Sorted find mem_insert sorted_nil)

variable {st : Settings}

/-! ## Fields of an object -/

section Cleared

variable {J : SerdeJson} {lost : Set String} {node cleared : Node} {decl : ReferenceDef} {field : String}

/-- Clearing a field prints the object with the field set to `null`. -/
theorem withFieldNull_print (h : withFieldNull J node field = .ok cleared) :
    ∃ fields, J.parse node.data = some (.object fields) ∧
      cleared.data = J.print (.object (SortedMap.insert field .null fields)) := by
  unfold withFieldNull at h
  split at h
  · cases h
  · rename_i fields hparse
    obtain rfl := Except.ok.inj h
    exact ⟨fields, hparse, rfl⟩
  · cases h

/-- Clearing a field of data that is read back sets it to `null` in the object. -/
theorem withFieldNull_parse (hback : J.ReadsBack node.data)
    (h : withFieldNull J node field = .ok cleared) :
    ∃ fields, J.parse node.data = some (.object fields) ∧
      J.parse cleared.data = some (.object (SortedMap.insert field .null fields)) := by
  obtain ⟨fields, hparse, hdata⟩ := withFieldNull_print h
  exact ⟨fields, hparse, hdata ▸ hback fields [field] hparse⟩

theorem readsBack_withFieldNull (hback : J.ReadsBack node.data)
    (h : withFieldNull J node field = .ok cleared) : J.ReadsBack cleared.data := by
  obtain ⟨fields, hparse, hcleared⟩ := withFieldNull_parse hback h
  intro fields' names hfields'
  obtain rfl := Json.object.inj (Option.some.inj (hcleared.symm.trans hfields'))
  have hnames := hback fields (names ++ [field]) hparse
  rwa [List.foldr_append] at hnames

/-- A node, and what is left of it when some fields of its data are set to `null`. -/
structure Cleared (J : SerdeJson) (lost : Set String) (node cleared : Node) : Prop where
  rest : ∃ data, cleared = { node with data := data }
  same : lost = ∅ → cleared = node
  object : lost.Nonempty → (∃ fields, J.parse node.data = some (.object fields)) ∧
    ∃ fields, J.parse cleared.data = some (.object fields)
  null {name : String} : name ∈ lost → J.dataField cleared.data name = some .null
  other {name : String} : name ∉ lost → J.dataField cleared.data name = J.dataField node.data name

namespace Cleared

theorem refl (node : Node) : Cleared J ∅ node node where
  rest := ⟨_, rfl⟩
  same _ := rfl
  object h := absurd h Set.not_nonempty_empty
  null h := absurd h (Set.notMem_empty _)
  other _ := rfl

/-- One more field is cleared. -/
theorem step (h : Cleared J lost node cleared) (hJ : J.Ordered) (hback : J.ReadsBack cleared.data)
    {next : Node} (hnext : withFieldNull J cleared field = .ok next) :
    Cleared J (insert field lost) node next := by
  obtain ⟨fields, hparse, hprinted⟩ := withFieldNull_parse hback hnext
  have hsorted : Sorted fields := (hJ hparse).1
  have hget (name : String) : J.dataField next.data name =
      if name = field then some .null else J.dataField cleared.data name := by
    rw [SerdeJson.dataField, SerdeJson.dataField, hprinted, hparse]
    change List.lookup name _ = if name = field then _ else List.lookup name _
    rw [lookup_eq_find, lookup_eq_find]
    split_ifs with hname
    · exact hname ▸ hsorted.find_insert_self
    · exact hsorted.find_insert_of_ne hname
  refine ⟨?_, fun hempty => ?_, fun _ => ⟨?_, _, hprinted⟩, fun {name} hname => ?_, fun {name} hname => ?_⟩
  · obtain ⟨data, rfl⟩ := h.rest
    obtain ⟨data', rfl⟩ := withFieldNull_ok hnext
    exact ⟨data', rfl⟩
  · exact absurd hempty (Set.insert_nonempty _ _).ne_empty
  · rcases lost.eq_empty_or_nonempty with hempty | hlost
    · exact h.same hempty ▸ ⟨fields, hparse⟩
    · exact (h.object hlost).1
  · rw [hget]
    split_ifs with heq
    · rfl
    · exact h.null (hname.resolve_left heq)
  · obtain ⟨hne, hkept⟩ := not_or.1 hname
    rw [hget, if_neg hne, h.other hkept]

variable (h : Cleared J lost node cleared)

include h

theorem address : cleared.address = node.address := by
  obtain ⟨data, rfl⟩ := h.rest
  rfl

theorem kind : cleared.kind = node.kind := by
  obtain ⟨data, rfl⟩ := h.rest
  rfl

/-- What is left has no value in a field it has lost, and the old values in the others. -/
theorem dataField_filter {name : String} {value : J.Value}
    (hvalue : (J.dataField cleared.data name).filter (fun value => !value.isNull) = some value) :
    name ∉ lost ∧ (J.dataField node.data name).filter (fun value => !value.isNull) = some value := by
  have hkept : name ∉ lost := by
    intro hname
    rw [h.null hname] at hvalue
    cases hvalue
  exact ⟨hkept, h.other hkept ▸ hvalue⟩

theorem referencingKey {value : J.Value} (hvalue : decl.referencingKey J cleared = some value) :
    decl.field ∉ lost ∧ decl.referencingKey J node = some value := h.dataField_filter hvalue

theorem referencingKey_of_notMem (hfield : decl.field ∉ lost) :
    decl.referencingKey J cleared = decl.referencingKey J node := by
  rw [ReferenceDef.referencingKey, ReferenceDef.referencingKey, h.other hfield]

theorem referencedKey {key : J.Value} (hkey : decl.referencedKey J cleared = some key) :
    decl.referencedKey J node = some key := by
  unfold ReferenceDef.referencedKey at hkey ⊢
  split at hkey
  · rw [← h.address, hkey]
  · exact (h.dataField_filter hkey).2

end Cleared

end Cleared

/-! ## The overlay -/

/-- What a batch has staged under an address is a node with this address, or the removal of it. -/
structure Batch.Keyed (b : Batch) : Prop where
  sorted : Sorted b.staged
  address {address : String} {node : Node} : (address, some node) ∈ b.staged → node.address = address

namespace Batch.Keyed

variable {b : Batch}

theorem start (stamp : Stamp) : (Batch.start stamp).Keyed :=
  ⟨sorted_nil, nofun⟩

theorem stage (h : b.Keyed) {b' : Batch} {address : String} {slot : Option Node}
    (hstaged : b'.staged = SortedMap.insert address slot b.staged)
    (hslot : ∀ node ∈ slot, node.address = address) : b'.Keyed := by
  refine ⟨hstaged ▸ h.sorted.insert, fun hmem => ?_⟩
  rcases mem_insert.1 (hstaged ▸ hmem) with heq | hold
  · obtain ⟨rfl, rfl⟩ := Prod.mk.inj heq
    exact hslot _ rfl
  · exact h.address hold.1

theorem put (h : b.Keyed) (node : Node) : (b.put node.address node).Keyed :=
  h.stage rfl fun _ hnode => Option.some.inj hnode ▸ rfl

theorem remove (h : b.Keyed) (node : Node) : (b.remove node).Keyed := h.stage rfl nofun

theorem replace (h : b.Keyed) (old node : Node) : (b.replace old node.address node).Keyed :=
  h.stage rfl fun _ hnode => Option.some.inj hnode ▸ rfl

end Batch.Keyed

namespace View

variable {v : View} {b : Batch} {address : String} {node : Node}

/-- The node that an address names, in the state that a batch has reached. -/
def overlay (v : View) (b : Batch) (address : String) : Option Node :=
  (v.stagedNode b address).toOption.join

theorem Consistent.stagedNode_eq (h : v.Consistent st) (b : Batch) (address : String) :
    v.stagedNode b address = .ok (v.overlay b address) := by
  rw [overlay, stagedNode]
  rcases find address b.staged with _ | slot
  · obtain ⟨slot, hslot⟩ := h.exists_read address
    simp only [hslot]
    rfl
  · rfl

theorem Consistent.readNode_eq (h : v.Consistent st) (stamp : Stamp) (address : String) :
    v.readNode address = .ok (v.overlay (.start stamp) address) := by
  rw [← h.stagedNode_eq]
  rfl

theorem overlay_eq_some : v.overlay b address = some node ↔
    v.stagedNode b address = .ok (some node) := by
  rw [overlay]
  rcases v.stagedNode b address with e | _ | other <;> simp [Except.toOption]

theorem overlay_address (hv : v.WellFormed) (hb : b.Keyed) (h : v.overlay b address = some node) :
    node.address = address := by
  rw [overlay_eq_some, stagedNode] at h
  split at h
  · rename_i slot hslot
    exact hb.address (hb.sorted.find_eq_some.1 (Except.ok.inj h ▸ hslot))
  · exact hv.address_eq h

theorem overlay_stage (hb : b.Keyed) {b' : Batch} {written : String} {slot : Option Node}
    (hstaged : b'.staged = SortedMap.insert written slot b.staged) :
    v.overlay b' address = if address = written then slot else v.overlay b address := by
  rw [overlay, stagedNode, hstaged]
  split_ifs with haddress
  · rw [haddress, hb.sorted.find_insert_self]
    rfl
  · rw [hb.sorted.find_insert_of_ne haddress]
    rfl

theorem overlay_remove (hb : b.Keyed) (node : Node) : v.overlay (b.remove node) address =
    if address = node.address then none else v.overlay b address := overlay_stage hb rfl

theorem overlay_replace (hb : b.Keyed) (old : Node) (written : String) (node : Node) :
    v.overlay (b.replace old written node) address =
      if address = written then some node else v.overlay b address := overlay_stage hb rfl

/-! ## The nodes that reference a value -/

theorem mem_addressSet {addresses : List String} : address ∈ addressSet addresses ↔ address ∈ addresses := by
  have hset (set : List (String × Unit)) : (∃ u, (address, u) ∈ addresses.foldl
      (fun set address => SortedMap.insert address () set) set) ↔
      address ∈ addresses ∨ ∃ u, (address, u) ∈ set := by
    induction addresses generalizing set with
    | nil => simp
    | cons first addresses ih =>
      rw [List.foldl_cons, ih, List.mem_cons]
      by_cases heq : address = first
      · simp [mem_insert, heq]
      · simp [mem_insert, heq]
  rw [addressSet, List.mem_map]
  constructor
  · rintro ⟨⟨_, u⟩, hmem, rfl⟩
    exact ((hset []).1 ⟨u, hmem⟩).resolve_right fun ⟨_, h⟩ => absurd h List.not_mem_nil
  · intro hmem
    obtain ⟨u, hu⟩ := (hset []).2 (.inl hmem)
    exact ⟨_, hu, rfl⟩

theorem sorted_addressSet (addresses : List String) : (addressSet addresses).Pairwise (· < ·) := by
  have hset (set : List (String × Unit)) (hsorted : Sorted set) : Sorted
      (addresses.foldl (fun set address => SortedMap.insert address () set) set) := by
    induction addresses generalizing set with
    | nil => exact hsorted
    | cons first addresses ih => exact ih _ hsorted.insert
  rw [addressSet, List.pairwise_map]
  exact hset [] sorted_nil

end View

theorem Cleared.refers {J : SerdeJson} {lost : Set String} {node cleared : Node} {decl : ReferenceDef}
    {key : J.Value} (h : Cleared J lost node cleared) (hrefers : decl.refers J key cleared = true) :
    decl.field ∉ lost ∧ decl.refers J key node = true := by
  obtain ⟨hkind, value, hvalue, heq⟩ := ReferenceDef.refers_iff.1 hrefers
  obtain ⟨hfield, hvalue⟩ := h.referencingKey hvalue
  exact ⟨hfield, ReferenceDef.refers_iff.2 ⟨h.kind.symm.trans hkind, value, hvalue, heq⟩⟩

namespace View

variable {v : View} {b : Batch} {decl : ReferenceDef} {key : st.json.Value} {written nodes : List Node}

/-- The addresses that an index proposes for a value. -/
def proposedBy (st : Settings) (index : DataIndex) (key : st.json.Value) : List String :=
  (index.tree.inRange (Keys.encodeOrderValue st.json (some key)) none false).flatMap fun e =>
    ((Keys.addressFromDataKey e.1).map st.fromUtf8Lossy).toList

/-- The nodes that reference a value now, among the proposed addresses. -/
theorem Consistent.referencingNodes_ok (h : v.Consistent st)
    (hnodes : v.referencingNodes st decl key b written = .ok nodes) :
    ∃ index, v.dataFind decl.kind decl.field = some index ∧
      nodes = (addressSet (proposedBy st index key ++
        (written.filter fun node => node.kind == decl.kind).map Node.address)).filterMap
          fun address => (v.overlay b address).filter (decl.refers st.json key) := by
  rw [referencingNodes] at hnodes
  split at hnodes
  · cases hnodes
  rename_i index hindex
  obtain ⟨found, hfound, hnodes⟩ := Except.bind_eq_ok.1 hnodes
  rw [ioMessage, Except.mapError_eq_ok, Entries.forEachRange,
    visitAll_gather fun key => ((Keys.addressFromDataKey key).map st.fromUtf8Lossy).toList] at hfound
  · obtain rfl := Except.ok.inj hfound
    refine ⟨index, hindex, ?_⟩
    rw [List.nil_append, ← proposedBy] at hnodes
    -- The nodes are gathered one address after the other.
    rw [List.foldlM_gather (fun address => ((v.overlay b address).filter
      (decl.refers st.json key)).toList) fun address _ nodes => ?_] at hnodes
    · rw [← Except.ok.inj hnodes, List.nil_append, List.filterMap_eq_flatMap_toList]
    rw [h.stagedNode_eq]
    rcases v.overlay b address with _ | node
    · simp [ioMessage, Except.mapError, bind, Except.bind]
    by_cases hrefers : decl.refers st.json key node = true
    · simp only [Option.filter, hrefers]
      exact if_pos hrefers
    · simp only [Option.filter, hrefers]
      rw [if_neg (by simp), Option.toList_none, List.append_nil]
      exact if_neg hrefers
  · intro key value found
    rcases Keys.addressFromDataKey key with _ | raw
    · simp
    · rfl

section

variable (h : v.Consistent st) (hnodes : v.referencingNodes st decl key b written = .ok nodes)

include h hnodes

theorem Consistent.overlay_of_referencing (hb : b.Keyed) {child : Node} (hchild : child ∈ nodes) :
    v.overlay b child.address = some child ∧ decl.refers st.json key child = true := by
  obtain ⟨index, -, rfl⟩ := h.referencingNodes_ok hnodes
  obtain ⟨address, -, hfound⟩ := List.mem_filterMap.1 hchild
  obtain ⟨hoverlay, hrefers⟩ := Option.filter_eq_some_iff.1 hfound
  exact ⟨overlay_address h.toWellFormed hb hoverlay ▸ hoverlay, hrefers⟩

/-- No two of the nodes that are found have the same address. -/
theorem Consistent.nodup_referencing (hb : b.Keyed) : (nodes.map Node.address).Nodup := by
  obtain ⟨index, -, rfl⟩ := h.referencingNodes_ok hnodes
  rw [List.nodup_iff_pairwise_ne, List.pairwise_map, List.pairwise_filterMap]
  refine (sorted_addressSet _).imp fun {a a'} hlt child hchild child' hchild' => ?_
  have haddress {address : String} {node : Node}
      (hnode : (v.overlay b address).filter (decl.refers st.json key) = some node) :
      node.address = address :=
    overlay_address h.toWellFormed hb (Option.filter_eq_some_iff.1 hnode).1
  rw [haddress hchild, haddress hchild']
  exact ne_of_lt hlt

/-- A referencing node is found if the batch wrote one there, or by its encoding in the store. -/
theorem Consistent.mem_referencingNodes_of {child : Node}
    (hoverlay : v.overlay b child.address = some child) (hrefers : decl.refers st.json key child = true)
    (hproposed : (∃ node ∈ written, node.kind = decl.kind ∧ node.address = child.address) ∨
      ∃ node ∈ v.live, node.kind = decl.kind ∧ node.address = child.address ∧
        Keys.encodeOrderValue st.json (st.json.dataField node.data decl.field) =
          Keys.encodeOrderValue st.json (some key)) : child ∈ nodes := by
  obtain ⟨index, hindex, rfl⟩ := h.referencingNodes_ok hnodes
  refine List.mem_filterMap.2 ⟨child.address, mem_addressSet.2 (List.mem_append.2 ?_), ?_⟩
  · rcases hproposed with ⟨node, hnode, hkind, haddress⟩ | ⟨node, hlive, hkind, haddress, hvalue⟩
    · refine .inr (List.mem_map.2 ⟨node, List.mem_filter.2 ⟨hnode, beq_iff_eq.2 hkind⟩, haddress⟩)
    left
    have hkey := (h.mem_inRange hindex (some key)).2 ⟨node, hlive, hkind, rfl, hvalue⟩
    refine List.mem_flatMap.2 ⟨_, hkey, ?_⟩
    rw [IndexDef.keyOf, Keys.addressFromDataKey_dataKey, Option.map_some,
      Settings.fromUtf8Lossy_utf8, haddress]
    exact Option.mem_toList.2 rfl
  · rw [hoverlay, Option.filter_some, if_pos hrefers]

end

end View

/-! ## What a bulk delete selects -/

namespace View

variable {v : View} {b : Batch} {kind owner : String} {isAdmin : Bool}
  {predicate : Option (Expr st.json.Number)} {targets : List String}

theorem kind_of_selectionMatches {node : Node}
    (h : selectionMatches st node kind predicate owner isAdmin = .ok true) : node.kind = kind := by
  unfold selectionMatches at h
  split at h
  · cases h
  · rename_i hkind
    simpa using hkind

/-- The addresses of the nodes of a kind in the store. -/
theorem Consistent.gather_kind (hv : v.Consistent st) (kind : String) :
    v.kind.forEachRange (Keys.kindPrefix kind) none false
      (fun key _ found => .ok (true, found ++ [addressFromKey st key (Keys.kindPrefix kind)])) [] =
      .ok ((v.nodes.filter fun node => node.kind == kind).map Node.address) := by
  rw [Entries.forEachRange, visitAll_gather (fun key => [addressFromKey st key (Keys.kindPrefix kind)])
    fun key value found => rfl]
  have hmembers := hv.members_eq hv.kind (fun node hnode => (hv.fits hnode).1) kind
  have hrange : v.kind.inRange (Keys.kindPrefix kind) none false =
      v.kind.filter fun e => (Keys.component kind).isPrefixOf e.1 := rfl
  have haddress (node : Node) :
      addressFromKey st (Keys.component kind ++ utf8 node.address) (Keys.kindPrefix kind) =
        node.address := by
    rw [addressFromKey, Keys.kindPrefix, List.drop_left, Settings.fromUtf8Lossy_utf8]
  rw [hrange, hmembers, List.nil_append, List.flatMap_map, List.map_eq_flatMap]
  simp only [haddress]

/-- A bulk delete selects the nodes it matches at that point, by address. -/
theorem Consistent.stagedSelection_ok (hv : v.Consistent st) (hb : b.Keyed)
    (h : v.stagedSelection st b kind predicate owner isAdmin = .ok targets) :
    targets.Pairwise (· < ·) ∧ ∀ address, address ∈ targets ↔ ∃ node, v.overlay b address = some node ∧
      selectionMatches st node kind predicate owner isAdmin = .ok true := by
  rw [stagedSelection, hv.gather_kind] at h
  obtain ⟨found, hfound, h⟩ := Except.bind_eq_ok.1 h
  obtain rfl := Except.ok.inj (Except.mapError_eq_ok.1 hfound)
  have htargets := List.foldlM_gather_ok (fun address => (Option.guard (fun address =>
    (v.overlay b address).any fun node =>
      selectionMatches st node kind predicate owner isAdmin = .ok true) address).toList)
    (fun address _ selected selected' hstep => ?_) h
  · rw [List.nil_append, ← List.filterMap_eq_flatMap_toList, List.filterMap_eq_filter] at htargets
    rw [htargets]
    refine ⟨(sorted_addressSet _).filter _, fun address => ?_⟩
    rw [List.mem_filter, Option.any_eq_true]
    simp only [decide_eq_true_eq]
    refine ⟨fun hmem => hmem.2, fun hmem => ⟨mem_addressSet.2 (List.mem_append.2 ?_), hmem⟩⟩
    -- A node that is matched is staged, or stored under its kind.
    obtain ⟨node, hnode, hmatches⟩ := hmem
    rw [overlay_eq_some, stagedNode] at hnode
    split at hnode
    · rename_i slot hslot
      exact .inr (List.mem_map.2 ⟨_, hb.sorted.find_eq_some.1 hslot, rfl⟩)
    · have hlive := hv.mem_live_of_read hnode
      refine .inl (List.mem_map.2 ⟨node, List.mem_filter.2 ⟨hv.mem_nodes.2 hlive, ?_⟩,
        hv.address_eq hnode⟩)
      exact beq_iff_eq.2 (kind_of_selectionMatches hmatches)
  · obtain ⟨slot, hslot, hstep⟩ := Except.bind_eq_ok.1 hstep
    rw [ioMessage, Except.mapError_eq_ok, hv.stagedNode_eq, Except.ok.injEq] at hslot
    rcases slot with _ | node
    · obtain rfl := Except.ok.inj hstep
      simp [Option.guard, hslot]
    obtain ⟨selects, hselects, hstep⟩ := Except.bind_eq_ok.1 hstep
    rcases selects with _ | _
    · obtain rfl := Except.ok.inj hstep
      simp [Option.guard, hslot, hselects]
    obtain rfl := Except.ok.inj hstep
    simp [Option.guard, hslot, hselects]

/-- Addresses that name nodes come to those nodes. -/
theorem Consistent.selectSeeds_eq (hv : v.Consistent st)
    (htargets : ∀ address ∈ targets, (v.overlay b address).isSome) (seeds : List Node) :
    targets.foldlM v.selectSeed (b, seeds) = .ok (b, seeds ++ targets.filterMap (v.overlay b)) := by
  induction targets generalizing seeds with
  | nil => simp [pure, Except.pure]
  | cons address targets ih =>
    obtain ⟨node, hnode⟩ := Option.isSome_iff_exists.1 (htargets address List.mem_cons_self)
    have hstep : v.selectSeed (b, seeds) address = .ok (b, seeds ++ [node]) := by
      rw [selectSeed, hv.stagedNode_eq, hnode]
      rfl
    have hrest := ih (fun address haddress => htargets address (List.mem_cons_of_mem _ haddress))
      (seeds ++ [node])
    rw [List.append_assoc, List.singleton_append] at hrest
    rw [List.foldlM_cons, hstep, List.filterMap_cons_some hnode]
    exact hrest

/-- The nodes that a bulk delete selects. -/
def selectedNodes (st : Settings) (v : View) (b : Batch) (kind : String)
    (predicate : Option (Expr st.json.Number)) (owner : String) (isAdmin : Bool) : List Node :=
  ((v.stagedSelection st b kind predicate owner isAdmin).toOption.getD []).filterMap (v.overlay b)

/-- A bulk delete removes the nodes that it matches, in the order of their addresses. -/
theorem Consistent.lowerSelection_ok (hv : v.Consistent st) (hb : b.Keyed) {references : References}
    {b' : Batch} (h : v.lowerSelection st references b kind predicate owner isAdmin = .ok b') :
    v.lowerDeleteClosure st references (v.selectedNodes st b kind predicate owner isAdmin) b = .ok b' ∧
      ((v.selectedNodes st b kind predicate owner isAdmin).map Node.address).Pairwise (· < ·) ∧
      ∀ node, node ∈ v.selectedNodes st b kind predicate owner isAdmin ↔
        v.overlay b node.address = some node ∧
          selectionMatches st node kind predicate owner isAdmin = .ok true := by
  obtain ⟨targets, htargets, h⟩ := Except.mapError_bind_eq_ok.1 h
  obtain ⟨hsorted, hmem⟩ := hv.stagedSelection_ok hb htargets
  have hpresent : ∀ address ∈ targets, (v.overlay b address).isSome := by
    intro address haddress
    obtain ⟨node, hnode, -⟩ := (hmem address).1 haddress
    exact Option.isSome_iff_exists.2 ⟨node, hnode⟩
  rw [hv.selectSeeds_eq hpresent, List.nil_append] at h
  rw [selectedNodes, htargets]
  refine ⟨h, ?_, fun node => ?_⟩
  · change ((targets.filterMap (v.overlay b)).map Node.address).Pairwise (· < ·)
    rw [List.pairwise_map, List.pairwise_filterMap]
    refine hsorted.imp fun {a a'} hlt node hnode node' hnode' => ?_
    rw [overlay_address hv.toWellFormed hb hnode, overlay_address hv.toWellFormed hb hnode']
    exact hlt
  change node ∈ targets.filterMap (v.overlay b) ↔ _
  rw [List.mem_filterMap]
  constructor
  · rintro ⟨address, haddress, hnode⟩
    obtain ⟨node', hnode', hmatches⟩ := (hmem address).1 haddress
    obtain rfl := Option.some.inj (hnode.symm.trans hnode')
    exact ⟨overlay_address hv.toWellFormed hb hnode ▸ hnode, hmatches⟩
  · rintro ⟨hnode, hmatches⟩
    exact ⟨node.address, (hmem _).2 ⟨node, hnode, hmatches⟩, hnode⟩

end View

end FacetQL
