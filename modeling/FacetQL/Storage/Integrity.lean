import FacetQL.Storage.DeleteClosure

/-!
# Referential integrity

A value that a node holds in a referencing field should name a live node of the parent kind: by its
address, or by the value of its parent field, where values are told apart by their encodings. A batch is
checked for the references of what it writes (`check_references`), and a delete takes care of the
references to what it removes.

* `writes_resolve_iff`: when an accepted batch leaves its own writes resolved;
* `overwrites_orphan_iff`: when it leaves the references of the other nodes resolved.
-/

namespace FacetQL

variable {st : Settings} {references : References} {decl : ReferenceDef}

/-! ## What a value names -/

/-- A value names a node, through a reference. -/
def ReferenceDef.Names (J : SerdeJson) (decl : ReferenceDef) (parent : Node) (key : J.Value) : Prop :=
  parent.kind = decl.parentKind ∧
    match decl.parentField with
    | none => key.asStr = some parent.address
    | some field => Keys.encodeOrderValue J (J.dataField parent.data field) =
        Keys.encodeOrderValue J (some key)

namespace View

variable {v v' : View} {ops : List Operation}

/-- Does this value name a live node of the referenced kind? -/
def resolvesLive (st : Settings) (v : View) (decl : ReferenceDef) (key : st.json.Value) :
    Except String Bool :=
  match decl.parentField with
  | none =>
    match key.asStr with
    | none => .ok false
    | some address =>
      match v.readNode address with
      | .error e => .error e.message
      | .ok node => .ok (node.any fun node => node.kind == decl.parentKind)
  | some field =>
    match v.dataFind decl.parentKind field with
    | none => .error ("reference " ++ st.json.debugStr decl.name ++
        " cannot be enforced: the unique index over " ++ decl.parentKind ++ "." ++ field ++
        " it resolves through is gone")
    | some index =>
      ioMessage (index.tree.forEachRange (Keys.encodeOrderValue st.json (some key)) none false
        (fun _ _ _ => .ok (false, true)) false)

/-- The index that a reference resolves through, if it does so by a field. -/
def CanResolve (v : View) (decl : ReferenceDef) : Prop :=
  ∀ field, decl.parentField = some field → (v.dataFind decl.parentKind field).isSome

variable {key : st.json.Value}

theorem WellFormed.names_address (hv : v.WellFormed) (hfield : decl.parentField = none)
    {address : String} (hkey : key.asStr = some address) {slot : Option Node}
    (hslot : v.readNode address = .ok slot) {parent : Node} :
    parent ∈ v.live ∧ decl.Names st.json parent key ↔ slot = some parent ∧ parent.kind = decl.parentKind := by
  simp only [ReferenceDef.Names, hfield, hkey, Option.some.injEq]
  constructor
  · rintro ⟨hlive, hkind, rfl⟩
    exact ⟨Except.ok.inj (hslot.symm.trans hlive), hkind⟩
  · rintro ⟨rfl, hkind⟩
    exact ⟨hv.mem_live_of_read hslot, hkind, (hv.address_eq hslot).symm⟩

/-- A value names, by a field, the nodes that the index finds. -/
theorem Consistent.names_field (hv : v.Consistent st) {field : String}
    (hfield : decl.parentField = some field) {index : DataIndex}
    (hindex : v.dataFind decl.parentKind field = some index) (key : st.json.Value) {entry : Bytes} :
    (entry, ()) ∈ index.tree.inRange (Keys.encodeOrderValue st.json (some key)) none false ↔
      ∃ parent ∈ v.live, decl.Names st.json parent key ∧ entry = index.decl.keyOf st parent := by
  rw [hv.mem_inRange hindex]
  simp only [ReferenceDef.Names, hfield]
  refine exists_congr fun parent => and_congr_right fun _ => ?_
  exact ⟨fun ⟨hkind, hentry, hvalue⟩ => ⟨⟨hkind, hvalue⟩, hentry⟩,
    fun ⟨⟨hkind, hvalue⟩, hentry⟩ => ⟨hkind, hentry, hvalue⟩⟩

/-- A value resolves if it names a node that is stored, and there is an index to find it. -/
theorem Consistent.resolvesLive_iff (hv : v.Consistent st) :
    v.resolvesLive st decl key = .ok true ↔
      v.CanResolve decl ∧ ∃ parent ∈ v.live, decl.Names st.json parent key := by
  rcases hfield : decl.parentField with _ | field
  · have hcan : v.CanResolve decl := fun field h => by rw [hfield] at h; cases h
    rw [and_iff_right hcan, resolvesLive]
    simp only [hfield]
    rcases hkey : key.asStr with _ | address
    · simp [ReferenceDef.Names, hfield, hkey]
    obtain ⟨slot, hslot⟩ := hv.exists_read address
    simp only [hv.names_address hfield hkey hslot, hslot, Except.ok.injEq, Option.any_eq_true,
      beq_iff_eq]
  rw [resolvesLive]
  simp only [hfield]
  rcases hindex : v.dataFind decl.parentKind field with _ | index
  · refine ⟨fun h => (nomatch h), fun ⟨hcan, _⟩ => ?_⟩
    have hsome := hcan field hfield
    rw [hindex] at hsome
    cases hsome
  have hcan : v.CanResolve decl := by
    intro field' hfield'
    rw [← Option.some.inj (hfield.symm.trans hfield'), hindex]
    rfl
  simp only [ioMessage, Entries.forEachRange]
  rw [visitAll_any (fun _ => true) fun _ _ _ => (if_pos rfl).symm, Except.mapError_eq_ok, Except.ok.injEq,
    List.any_eq_true, and_iff_right hcan]
  constructor
  · rintro ⟨⟨entry, ⟨⟩⟩, hentry, -⟩
    obtain ⟨parent, hlive, hnames, -⟩ := (hv.names_field hfield hindex key).1 hentry
    exact ⟨parent, hlive, hnames⟩
  · rintro ⟨parent, hlive, hnames⟩
    exact ⟨_, (hv.names_field hfield hindex key).2 ⟨parent, hlive, hnames, rfl⟩, rfl⟩

/-- What resolves in the store and is not removed. -/
theorem Consistent.resolvesCommitted_ok (hv : v.Consistent st) {deleted : List String}
    (h : v.resolvesCommitted st decl key deleted = .ok true) :
    ∃ parent ∈ v.live, decl.Names st.json parent key ∧ parent.address ∉ deleted := by
  rw [resolvesCommitted] at h
  rcases hfield : decl.parentField with _ | field
  · simp only [hfield] at h
    rcases hkey : key.asStr with _ | address
    · simp [hkey] at h
    simp only [hkey] at h
    split_ifs at h with hdeleted
    · cases h
    obtain ⟨slot, hslot⟩ := hv.exists_read address
    simp only [hslot, Except.ok.injEq, Option.any_eq_true, beq_iff_eq] at h
    obtain ⟨parent, rfl, hkind⟩ := h
    obtain ⟨hlive, hnames⟩ := (hv.names_address hfield hkey hslot).2 ⟨rfl, hkind⟩
    exact ⟨parent, hlive, hnames, hv.address_eq hslot ▸ hdeleted⟩
  simp only [hfield] at h
  rcases hindex : v.dataFind decl.parentKind field with _ | index
  · simp [hindex] at h
  simp only [hindex, ioMessage, Entries.forEachRange] at h
  rw [visitAll_any (fun entry => ((Keys.addressFromDataKey entry).map st.fromUtf8Lossy).any
    fun address => address ∉ deleted), Except.mapError_eq_ok, Except.ok.injEq, List.any_eq_true] at h
  · obtain ⟨⟨entry, ⟨⟩⟩, hentry, hkept⟩ := h
    obtain ⟨parent, hlive, hnames, rfl⟩ := (hv.names_field hfield hindex key).1 hentry
    refine ⟨parent, hlive, hnames, ?_⟩
    rw [IndexDef.keyOf, Keys.addressFromDataKey_dataKey, Option.map_some,
      Settings.fromUtf8Lossy_utf8] at hkept
    simpa using hkept
  · intro entry _ found
    rcases Keys.addressFromDataKey entry with _ | raw
    · rfl
    by_cases hdeleted : st.fromUtf8Lossy raw ∈ deleted <;> simp [hdeleted]

/-! ## The net effect of a batch -/

theorem exists_of_applyAll_concat {op : Operation}
    (hall : v.applyAll st (ops ++ [op]) = (.ok (), v')) :
    ∃ mid, v.applyAll st ops = (.ok (), mid) ∧ mid.apply st (.write op) = .ok v' := by
  obtain ⟨mid, hops, hall⟩ := applyAll_append_ok hall
  obtain ⟨next, happly, ⟨⟩⟩ := applyAll_cons_ok hall
  exact ⟨mid, hops, happly⟩

/-- What a batch has left present and gone, against what it has been applied to. -/
structure Nets (v : View) (ops : List Operation) (v' : View) (net : List (String × Node) × List String) :
    Prop where
  sorted : SortedMap.Sorted net.1
  keyed : ∀ entry ∈ net.1, entry.2.address = entry.1
  touched (address : String) :
    address ∈ releasedBy ops ↔ (∃ node, (address, node) ∈ net.1) ∨ address ∈ net.2
  live (node : Node) : node ∈ v'.live ↔
    (node.address, node) ∈ net.1 ∨ node ∈ v.live ∧ node.address ∉ releasedBy ops

theorem mem_releasedBy_concat {op : Operation} {address : String} :
    address ∈ releasedBy (ops ++ [op]) ↔
      address ∈ releasedBy ops ∨ ∃ slot, op.nodeWrite = some (address, slot) := by
  simp only [mem_releasedBy, List.mem_append, List.mem_singleton, or_and_right, exists_or,
    exists_eq_left]

section

variable {mid : View} {net : List (String × Node) × List String} (h : Nets v ops mid net)
  (hmid : mid.WellFormed)

include h hmid

theorem Nets.insert {node : Node} (happly : mid.apply st (.write (.insert node)) = .ok v') :
    Nets v (ops ++ [.insert node]) v' (SortedMap.insert node.address node net.1,
      net.2.filter fun a => a != node.address) := by
  have hreleased (address : String) : address ∈ releasedBy (ops ++ [.insert node]) ↔
      address ∈ releasedBy ops ∨ address = node.address := by
    rw [mem_releasedBy_concat]
    simp [Operation.nodeWrite, eq_comm]
  refine ⟨h.sorted.insert, fun entry hentry => ?_, fun address => ?_, fun other => ?_⟩
  · rcases SortedMap.mem_insert.1 hentry with rfl | hold
    · rfl
    · exact h.keyed entry hold.1
  · rw [hreleased, h.touched]
    by_cases haddress : address = node.address
    · simp [haddress, SortedMap.mem_insert]
    · simp [haddress, SortedMap.mem_insert]
  · have hlive : other ∈ v'.live ↔ other ∈ mid.live ∧ other.address ≠ node.address ∨ other = node := by
      rw [live_apply hmid happly]
      simp [liveAfter, Operation.nodeWrite, or_comm]
    rw [hlive, h.live, hreleased, SortedMap.mem_insert]
    by_cases haddress : other.address = node.address
    · simp [haddress]
    · have hne : other ≠ node := fun heq => haddress (congrArg Node.address heq)
      simp [haddress, hne]

theorem Nets.delete {address : String} (happly : mid.apply st (.write (.delete address)) = .ok v') :
    Nets v (ops ++ [.delete address]) v' (SortedMap.erase address net.1, address :: net.2) := by
  have hreleased (other : String) : other ∈ releasedBy (ops ++ [.delete address]) ↔
      other ∈ releasedBy ops ∨ other = address := by
    rw [mem_releasedBy_concat]
    simp [Operation.nodeWrite, eq_comm]
  refine ⟨h.sorted.erase, fun entry hentry => h.keyed entry (SortedMap.mem_erase.1 hentry).1,
    fun other => ?_, fun other => ?_⟩
  · rw [hreleased, h.touched]
    by_cases haddress : other = address
    · simp [haddress]
    · simp [haddress, SortedMap.mem_erase]
  · have hlive : other ∈ v'.live ↔ other ∈ mid.live ∧ other.address ≠ address := by
      rw [live_apply hmid happly]
      simp [liveAfter, Operation.nodeWrite]
    rw [hlive, h.live, hreleased, SortedMap.mem_erase]
    by_cases haddress : other.address = address
    · simp [haddress]
    · simp [haddress]

theorem Nets.other {op : Operation} (hop : op.nodeWrite = none)
    (happly : mid.apply st (.write op) = .ok v') : Nets v (ops ++ [op]) v' net := by
  have hreleased (address : String) : address ∈ releasedBy (ops ++ [op]) ↔ address ∈ releasedBy ops := by
    rw [mem_releasedBy_concat, hop]
    simp
  refine ⟨h.sorted, h.keyed, fun address => by rw [hreleased, h.touched], fun node => ?_⟩
  have hlive : v'.live = mid.live := by
    rw [live_apply hmid happly, hop]
  rw [hlive, h.live, hreleased]

end

/-- What is stored after a batch: what it leaves present, and what it does not touch. -/
theorem live_netEffect (hv : v.WellFormed) (hall : v.applyAll st ops = (.ok (), v')) :
    Nets v ops v' (netEffect ops) := by
  induction ops using List.reverseRecOn generalizing v' with
  | nil =>
    obtain rfl : v = v' := congrArg Prod.snd hall
    exact ⟨SortedMap.sorted_nil, nofun,
      by simp [releasedBy, netEffect], by simp [releasedBy, netEffect]⟩
  | append_singleton ops op ih =>
    obtain ⟨mid, hmid, happly⟩ := exists_of_applyAll_concat hall
    have hwell : (v.applyAll st ops).2.WellFormed := hv.applyAll ops
    rw [hmid] at hwell
    rw [netEffect, List.foldl_append, ← netEffect]
    cases op with
    | insert node => exact (ih hmid).insert hwell happly
    | delete address => exact (ih hmid).delete hwell happly
    | archive entry | insertEdge edge | deleteEdge id => exact (ih hmid).other hwell rfl happly

theorem Nets.live_of_mem {net : List (String × Node) × List String} (h : Nets v ops v' net)
    {entry : String × Node} (hentry : entry ∈ net.1) : entry.2 ∈ v'.live := by
  refine (h.live _).2 (.inl ?_)
  rw [h.keyed entry hentry]
  exact hentry

/-- What a batch leaves present it has inserted. -/
theorem insert_of_mem_netEffect {entry : String × Node} (hentry : entry ∈ (netEffect ops).1) :
    .insert entry.2 ∈ ops := by
  induction ops using List.reverseRecOn with
  | nil => exact absurd hentry List.not_mem_nil
  | append_singleton ops op ih =>
    rw [netEffect, List.foldl_append, ← netEffect] at hentry
    rw [List.mem_append, List.mem_singleton]
    cases op with
    | insert node =>
      rcases SortedMap.mem_insert.1 hentry with rfl | hold
      · exact .inr rfl
      · exact .inl (ih hold.1)
    | delete address => exact .inl (ih (SortedMap.mem_erase.1 hentry).1)
    | archive entry | insertEdge edge | deleteEdge id => exact .inl (ih hentry)

/-! ## The check of a batch -/

/-- Each value that is left inserted is that of a parent in the batch, or resolves in the store
    to a node that is not removed. -/
theorem checkReferences_ok (h : v.checkReferences st references ops = .ok ()) {node : Node}
    (hnode : (node.address, node) ∈ (netEffect ops).1) (hdecl : decl ∈ references)
    (hkind : decl.kind = node.kind) (hkey : decl.referencingKey st.json node = some key) :
    (∃ entry ∈ (netEffect ops).1, entry.2.kind = decl.parentKind ∧ ∃ key',
      decl.referencedKey st.json entry.2 = some key' ∧ st.json.print key = st.json.print key') ∨
    v.resolvesCommitted st decl key (netEffect ops).2 = .ok true := by
  rw [checkReferences, if_neg] at h
  · have hchild := List.forM_ok.1 (List.forM_ok.1 h _ hnode) decl
      (List.mem_filter.2 ⟨hdecl, beq_iff_eq.2 hkind⟩)
    simp only [hkey] at hchild
    split_ifs at hchild with hsatisfied
    · left
      obtain ⟨entry, hentry, hprinted⟩ := List.mem_filterMap.1 hsatisfied
      obtain ⟨hentry, hparent⟩ := List.mem_filter.1 hentry
      obtain ⟨key', hkey', hprint⟩ := Option.map_eq_some_iff.1 hprinted
      exact ⟨entry, hentry, beq_iff_eq.1 hparent, key', hkey', hprint.symm⟩
    · right
      obtain ⟨resolves, hresolves, hchild⟩ := Except.bind_eq_ok.1 hchild
      cases resolves with
      | false => cases hchild
      | true => exact hresolves
  · intro hempty
    rw [List.isEmpty_iff.1 hempty] at hdecl
    exact absurd hdecl List.not_mem_nil

end View

/-! ## Values that are printed -/

/-- A value that prints as the value of a node names it. -/
theorem ReferenceDef.names_of_print {J : SerdeJson} (hJ : J.Ordered) (hprints : J.PrintsApart)
    {node parent : Node} {key key' : J.Value} (hkey : decl.referencingKey J node = some key)
    (hkind : parent.kind = decl.parentKind) (hkey' : decl.referencedKey J parent = some key')
    (hprint : J.print key = J.print key') : decl.Names J parent key := by
  have hcanonical : key.Canonical := hJ.canonical_dataField (Option.filter_eq_some_iff.1 hkey).1
  refine ⟨hkind, ?_⟩
  rw [referencedKey] at hkey'
  rcases hfield : decl.parentField with _ | field
  · simp only [hfield, Option.some.injEq] at hkey'
    subst hkey'
    have haddress : (Json.string parent.address : J.Value).Canonical := trivial
    rw [hprints hcanonical haddress hprint]
    rfl
  simp only [hfield] at hkey'
  obtain ⟨hvalue, -⟩ := Option.filter_eq_some_iff.1 hkey'
  rw [hprints hcanonical (hJ.canonical_dataField hvalue) hprint]
  exact congrArg _ hvalue

/-! ## What a batch writes -/

/-- A batch that is accepted leaves the values of what it writes resolved if and only if it leaves some
    parent alone: a value that names nodes which the batch does not remove, and none that it writes, has
    to name one that the batch does not touch. -/
theorem writes_resolve_iff {v v' : View} {ops : List Operation} (hv : v.Consistent st)
    (hJ : st.json.Ordered) (hprints : st.json.PrintsApart)
    (haccepted : v.checkReferences st references ops = .ok ())
    (hall : v.applyAll st ops = (.ok (), v')) :
    (∀ node ∈ v'.live, .insert node ∈ ops → ∀ decl ∈ references, decl.kind = node.kind →
      ∀ key, decl.referencingKey st.json node = some key →
        ∃ parent ∈ v'.live, decl.Names st.json parent key) ↔
    (∀ entry ∈ (View.netEffect ops).1, ∀ decl ∈ references, decl.kind = entry.2.kind →
      ∀ key, decl.referencingKey st.json entry.2 = some key →
        (∃ parent ∈ v.live, decl.Names st.json parent key ∧ parent.address ∉ (View.netEffect ops).2) →
        (∀ written ∈ (View.netEffect ops).1, ¬decl.Names st.json written.2 key) →
        ∃ parent ∈ v.live, decl.Names st.json parent key ∧ parent.address ∉ View.releasedBy ops) := by
  have hnet := View.live_netEffect hv.toWellFormed hall
  constructor
  · intro hresolved entry hentry decl hdecl hkind key hkey _ hnone
    obtain ⟨parent, hparent, hnames⟩ := hresolved entry.2 (hnet.live_of_mem hentry)
      (View.insert_of_mem_netEffect hentry) decl hdecl hkind key hkey
    rcases (hnet.live parent).1 hparent with hwritten | ⟨hlive, huntouched⟩
    · exact absurd hnames (hnone _ hwritten)
    · exact ⟨parent, hlive, hnames, huntouched⟩
  · intro hkept node hnode hinsert decl hdecl hkind key hkey
    -- A node that is inserted and still there has been left inserted.
    have hentry : (node.address, node) ∈ (View.netEffect ops).1 := by
      refine ((hnet.live node).1 hnode).resolve_right fun hold => hold.2 ?_
      exact View.mem_releasedBy.2 ⟨_, hinsert, some node, rfl⟩
    by_cases hwritten : ∃ written ∈ (View.netEffect ops).1, decl.Names st.json written.2 key
    · obtain ⟨written, hmem, hnames⟩ := hwritten
      exact ⟨written.2, hnet.live_of_mem hmem, hnames⟩
    have hnone : ∀ written ∈ (View.netEffect ops).1, ¬decl.Names st.json written.2 key :=
      fun written hmem hnames => hwritten ⟨written, hmem, hnames⟩
    rcases View.checkReferences_ok haccepted hentry hdecl hkind hkey with
      ⟨parent, hmem, hparent, key', hkey', hprint⟩ | hcommitted
    · exact absurd (ReferenceDef.names_of_print hJ hprints hkey hparent hkey' hprint) (hnone parent hmem)
    · obtain ⟨parent, hlive, hnames, huntouched⟩ := hkept _ hentry decl hdecl hkind key hkey
        (hv.resolvesCommitted_ok hcommitted) hnone
      exact ⟨parent, (hnet.live parent).2 (.inr ⟨hlive, huntouched⟩), hnames⟩

/-! ## What a batch overwrites -/

/-- Every value that a node references resolves. -/
def View.Resolved (st : Settings) (references : References) (v : View) : Prop :=
  ∀ node ∈ v.live, ∀ decl ∈ references, decl.kind = node.kind →
    ∀ key, decl.referencingKey st.json node = some key → v.resolvesLive st decl key = .ok true

/-- Whether there is an index over a field is a matter of what is declared. -/
theorem View.isSome_dataFind {v : View} {kind field : String} : (v.dataFind kind field).isSome ↔
    ∃ entry ∈ v.decls, entry.2.kind = kind ∧ entry.2.field = field := by
  rw [dataFind, List.find?_isSome]
  simp only [List.mem_map, Bool.and_eq_true, beq_iff_eq]
  constructor
  · rintro ⟨_, ⟨⟨key, index⟩, hmem, rfl⟩, hdecl⟩
    exact ⟨(key, index.decl), mem_decls.2 ⟨index, hmem, rfl⟩, hdecl⟩
  · rintro ⟨⟨key, decl⟩, hmem, hdecl⟩
    obtain ⟨index, hindex, rfl⟩ := mem_decls.1 hmem
    exact ⟨index, ⟨_, hindex, rfl⟩, hdecl⟩

theorem View.canResolve_applyAll {v v' : View} {ops : List Operation}
    (hall : v.applyAll st ops = (.ok (), v')) (h : v.CanResolve decl) : v'.CanResolve decl := by
  intro field hfield
  have hdecls : (v.applyAll st ops).2.decls = v.decls := decls_applyAll v ops
  rw [hall] at hdecls
  rw [isSome_dataFind, hdecls, ← isSome_dataFind]
  exact h field hfield

/-- The operations of a mutation that is accepted are applied, all of them. -/
theorem GraphStore.mutate_of_batch {db : GraphStore} (hv : db.view.Consistent st) {stamp : Stamp}
    {m : Mutation st} {ops : List Operation} (hops : db.batch st stamp m = some ops) :
    db.view.applyAll st ops = (.ok (), (db.mutate st stamp m).view) ∧
      (db.mutate st stamp m).view.Consistent st := by
  obtain ⟨-, hvalid⟩ := batch_checked hops
  obtain ⟨v', hall, hv'⟩ := hv.exists_applyAll hvalid
  have hm : (∀ decl, m ≠ .createIndex decl) ∧ ∀ name, m ≠ .dropIndex name := by
    refine ⟨fun decl hm => ?_, fun name hm => ?_⟩ <;> rw [hm] at hops <;> cases hops
  have hview : (db.mutate st stamp m).view = v' := by
    rw [mutate_eq_applied m hm, hops, GraphStore.applied, hall]
  exact hview ▸ ⟨hall, hv'⟩

/-- A mutation that is accepted leaves the values of the nodes that it does not write resolved if and only
    if it does not overwrite all that such a value names, or writes something that it names. -/
theorem overwrites_orphan_iff {db : GraphStore} (hv : db.view.Consistent st)
    (hresolved : db.view.Resolved st db.references) {stamp : Stamp} {m : Mutation st}
    {ops : List Operation} (hops : db.batch st stamp m = some ops) :
    (∀ child ∈ db.view.live, child.address ∉ View.releasedBy ops → ∀ decl ∈ db.references,
      decl.kind = child.kind → ∀ key, decl.referencingKey st.json child = some key →
        (db.mutate st stamp m).view.resolvesLive st decl key = .ok true) ↔
    (∀ child ∈ db.view.live, child.address ∉ View.releasedBy ops → ∀ decl ∈ db.references,
      decl.kind = child.kind → ∀ key, decl.referencingKey st.json child = some key →
        (∀ parent ∈ db.view.live, decl.Names st.json parent key →
          parent.address ∈ View.releasedBy ops) →
        ∃ written ∈ (View.netEffect ops).1, decl.Names st.json written.2 key) := by
  obtain ⟨hall, hv'⟩ := GraphStore.mutate_of_batch hv hops
  have hnet := View.live_netEffect hv.toWellFormed hall
  constructor
  · intro hkept child hchild hunwritten decl hdecl hkind key hkey hoverwritten
    obtain ⟨-, parent, hparent, hnames⟩ :=
      hv'.resolvesLive_iff.1 (hkept child hchild hunwritten decl hdecl hkind key hkey)
    rcases (hnet.live parent).1 hparent with hwritten | ⟨hlive, huntouched⟩
    · exact ⟨_, hwritten, hnames⟩
    · exact absurd (hoverwritten parent hlive hnames) huntouched
  · intro hwritten child hchild hunwritten decl hdecl hkind key hkey
    obtain ⟨hcan, -⟩ := hv.resolvesLive_iff.1 (hresolved child hchild decl hdecl hkind key hkey)
    refine hv'.resolvesLive_iff.2 ⟨View.canResolve_applyAll hall hcan, ?_⟩
    by_cases hoverwritten : ∀ parent ∈ db.view.live, decl.Names st.json parent key →
        parent.address ∈ View.releasedBy ops
    · obtain ⟨written, hmem, hnames⟩ :=
        hwritten child hchild hunwritten decl hdecl hkind key hkey hoverwritten
      exact ⟨written.2, hnet.live_of_mem hmem, hnames⟩
    · push Not at hoverwritten
      obtain ⟨parent, hlive, hnames, huntouched⟩ := hoverwritten
      exact ⟨parent, (hnet.live parent).2 (.inr ⟨hlive, huntouched⟩), hnames⟩

namespace Integrity

open DeleteClosure

def authorship : ReferenceDef := ⟨"author", "post", "author", "user", none, .restrict⟩

/-- The index over the referencing field, without which the reference is not declared. -/
def byAuthor : IndexDef := ⟨"by_author", "post", "author", false⟩

def user : Node := sample "u" "user" "\x7b\x7d"

def former : Node := sample "u" "former" "\x7b\x7d"

def post : Node := sample "p" "post" "\x7b\"author\":\"u\"\x7d"

/-- The user, and an index over the authors of posts. -/
def oneUser : GraphStore := built [.createIndex byAuthor, .insert user]

theorem post_author : ∃ key : Settings.textual.json.Value,
    authorship.referencingKey Settings.textual.json post = some key ∧ key.asStr = some "u" :=
  Option.bind_eq_some_iff.1 (by decide +kernel)

def posted : List Operation := [.insert post]

/-- The user is overwritten, and a post of theirs is written. -/
def rekinded : List Operation := [.archive ⟨"u", 0, user, 0⟩, .insert former, .insert post]

theorem applyAll_eq {v : View} {ops : List Operation} (h : (v.applyAll .textual ops).1 = .ok ()) :
    v.applyAll .textual ops = (.ok (), (v.applyAll .textual ops).2) := Prod.ext h rfl

theorem not_names_former {v : View} (hread : v.readNode "u" = .ok (some former))
    {key : Settings.textual.json.Value} (hkey : key.asStr = some "u") :
    ¬∃ parent ∈ v.live, authorship.Names Settings.textual.json parent key := by
  rintro ⟨parent, hparent, hkind, haddress⟩
  rw [View.mem_live, ← Option.some.inj (hkey.symm.trans haddress), hread] at hparent
  rw [← Option.some.inj (Except.ok.inj hparent)] at hkind
  exact absurd hkind (by decide)

end Integrity

open DeleteClosure Integrity in
theorem writes_resolve_iff_post :
    oneUser.view.checkReferences .textual [authorship] posted = .ok () ∧
    ∀ node ∈ (oneUser.view.applyAll .textual posted).2.live, .insert node ∈ posted →
      ∀ decl ∈ [authorship], decl.kind = node.kind →
      ∀ key, decl.referencingKey Settings.textual.json node = some key →
        ∃ parent ∈ (oneUser.view.applyAll .textual posted).2.live,
          decl.Names Settings.textual.json parent key := by
  have hv : oneUser.view.Consistent .textual := (built_run _).sound.consistent
  have haccepted : oneUser.view.checkReferences .textual [authorship] posted = .ok () := by
    decide +kernel
  refine ⟨haccepted, (writes_resolve_iff hv JsonText.json_ordered JsonText.json_printsApart haccepted
    (applyAll_eq (by decide +kernel))).2 ?_⟩
  intro entry hentry decl hdecl _ key hkey _ _
  obtain rfl := List.mem_singleton.1 hdecl
  obtain rfl : entry = ("p", post) := List.mem_singleton.1 hentry
  obtain ⟨key', hkey', haddress⟩ := post_author
  obtain rfl := Option.some.inj (hkey'.symm.trans hkey)
  have hlive : user ∈ oneUser.view.live := View.mem_live.2 (by decide +kernel)
  exact ⟨user, hlive, ⟨rfl, haddress⟩, by decide⟩

open DeleteClosure Integrity in
/-- A value is taken to resolve to a node that the batch itself makes another kind of node. -/
theorem writes_dangle : ¬∀ (references : References) (v v' : View) (ops : List Operation),
    v.Consistent .textual → v.checkReferences .textual references ops = .ok () →
    v.applyAll .textual ops = (.ok (), v') →
    ∀ node ∈ v'.live, .insert node ∈ ops → ∀ decl ∈ references, decl.kind = node.kind →
      ∀ key, decl.referencingKey Settings.textual.json node = some key →
        ∃ parent ∈ v'.live, decl.Names Settings.textual.json parent key := by
  intro h
  have hlive : post ∈ (oneUser.view.applyAll .textual rekinded).2.live :=
    View.mem_live.2 (by decide +kernel)
  obtain ⟨key, hkey, hvalue⟩ := post_author
  exact not_names_former (by decide +kernel) hvalue (h [authorship] oneUser.view _ rekinded
    (built_run _).sound.consistent (by decide +kernel) (applyAll_eq (by decide +kernel)) post hlive
    (by decide) authorship List.mem_cons_self rfl key hkey)

namespace Integrity

open DeleteClosure

def renamed : Node := sample "u" "user" "\x7b\"name\":1\x7d"

/-- A user with a post, and the declared reference between them. -/
def authored : GraphStore :=
  { built [.createIndex byAuthor, .insert user, .insert post] with references := [authorship] }

theorem authored_run : MutationRun .textual authored := .declare _ (built_run _)

theorem authored_nodes {node : Node} : node ∈ authored.view.live ↔ node = post ∨ node = user := by
  have hnodes : authored.view.nodes = [post, user] := by decide +kernel
  rw [← authored_run.sound.consistent.mem_nodes, hnodes]
  simp

theorem authored_key {node : Node} (hnode : node ∈ authored.view.live)
    (hkind : authorship.kind = node.kind) {key : Settings.textual.json.Value}
    (hkey : authorship.referencingKey Settings.textual.json node = some key) :
    key.asStr = some "u" := by
  rcases authored_nodes.1 hnode with rfl | rfl
  · obtain ⟨key', hkey', haddress⟩ := post_author
    exact Option.some.inj (hkey'.symm.trans hkey) ▸ haddress
  · exact absurd hkind (by decide)

theorem authored_resolved : authored.view.Resolved .textual authored.references := by
  intro node hnode decl hdecl hkind key hkey
  obtain rfl := List.mem_singleton.1 hdecl
  refine authored_run.sound.consistent.resolvesLive_iff.2 ⟨fun field h => (nomatch h), ?_⟩
  exact ⟨user, authored_nodes.2 (.inr rfl), rfl, authored_key hnode hkind hkey⟩

end Integrity

open DeleteClosure Integrity in
theorem overwrites_orphan_iff_rename : ∃ ops,
    authored.batch .textual ⟨0, 0⟩ (.insert renamed) = some ops ∧
    ∀ child ∈ authored.view.live, child.address ∉ View.releasedBy ops → ∀ decl ∈ authored.references,
      decl.kind = child.kind → ∀ key, decl.referencingKey Settings.textual.json child = some key →
        (authored.mutate .textual ⟨0, 0⟩ (.insert renamed)).view.resolvesLive .textual decl key =
          .ok true := by
  have hops : authored.batch .textual ⟨0, 0⟩ (.insert renamed) =
      some [.archive ⟨"u", 0, user, 0⟩, .insert renamed] := by decide +kernel
  refine ⟨_, hops, (overwrites_orphan_iff authored_run.sound.consistent authored_resolved hops).2 ?_⟩
  intro child hchild _ decl hdecl hkind key hkey _
  obtain rfl := List.mem_singleton.1 hdecl
  exact ⟨("u", renamed), List.mem_singleton.2 rfl, rfl, authored_key hchild hkind hkey⟩

open DeleteClosure Integrity in
/-- A user who becomes another kind of node leaves their post behind. -/
theorem overwrites_orphan : ¬∀ (db : GraphStore) (stamp : Stamp) (m : Mutation .textual)
    (ops : List Operation), MutationRun .textual db → db.view.Resolved .textual db.references →
    db.batch .textual stamp m = some ops →
    ∀ child ∈ db.view.live, child.address ∉ View.releasedBy ops → ∀ decl ∈ db.references,
      decl.kind = child.kind → ∀ key, decl.referencingKey Settings.textual.json child = some key →
        (db.mutate .textual stamp m).view.resolvesLive .textual decl key = .ok true := by
  intro h
  have hops : authored.batch .textual ⟨0, 0⟩ (.insert former) =
      some [.archive ⟨"u", 0, user, 0⟩, .insert former] := by decide +kernel
  obtain ⟨key, hkey, hvalue⟩ := post_author
  have hresolves := h authored ⟨0, 0⟩ (.insert former) _ authored_run authored_resolved hops post
    (authored_nodes.2 (.inl rfl)) (by decide) authorship List.mem_cons_self rfl key hkey
  obtain ⟨-, hv'⟩ := GraphStore.mutate_of_batch authored_run.sound.consistent hops
  exact not_names_former (by decide +kernel) hvalue (hv'.resolvesLive_iff.1 hresolves).2

end FacetQL
