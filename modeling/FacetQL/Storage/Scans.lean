import FacetQL.Storage.Consistency

/-!
# What a scan visits

With consistent indexes a scan is a walk over a list of nodes: the stored ones that it is about, in the
order of its keys, beyond its cursor. The entries of the indexes and the records behind them are
no longer mentioned.
-/

namespace FacetQL

open SecondaryIndex
open Entries (forEachRange inRange past visitAll)

variable {st : Settings} {β : Type}

/-! ## Walks over nodes -/

/-- Visit nodes one after the other, until the visitor declines or fails. -/
def visitNodes (visit : Node → β → Except IoError (Bool × β)) : List Node → β → Except IoError β
  | [], b => .ok b
  | node :: nodes, b =>
    match visit node b with
    | .error e => .error e
    | .ok (true, b) => visitNodes visit nodes b
    | .ok (false, b) => .ok b

/-- A walk over entries whose visitor only looks at the node behind an entry. -/
theorem visitAll_eq_visitNodes {V : Type} {f : Bytes → V → β → Except IoError (Bool × β)}
    {visit : Node → β → Except IoError (Bool × β)} {entry : Node → Bytes × V} (nodes : List Node)
    (h : ∀ node ∈ nodes, ∀ b, f (entry node).1 (entry node).2 b = visit node b) (b : β) :
    visitAll f (nodes.map entry) b = visitNodes visit nodes b := by
  induction nodes generalizing b with
  | nil => rfl
  | cons node nodes ih =>
    have hrest := ih fun node hnode => h node (List.mem_cons_of_mem _ hnode)
    rcases hvisit : visit node b with e | ⟨_ | _, b'⟩ <;>
      simp only [List.map_cons, visitAll, visitNodes, h node List.mem_cons_self, hrest, hvisit]

/-- A walk that collects everything. -/
theorem visitNodes_collect (nodes found : List Node) :
    visitNodes (fun node found => .ok (true, found ++ [node])) nodes found = .ok (found ++ nodes) := by
  induction nodes generalizing found with
  | nil => rw [visitNodes, List.append_nil]
  | cons node nodes ih =>
    simp only [visitNodes, ih]
    rw [List.append_assoc, List.singleton_append]

theorem visitAll_search {V : Type} {visit : Bytes → V → β → Except IoError (Bool × β)}
    (answer : Bytes → Option β) (h : ∀ key value b, visit key value b =
      (answer key).elim (.ok (true, b)) fun found => .ok (false, found))
    (entries : Entries V) (b : β) :
    visitAll visit entries b = .ok ((entries.findSome? fun e => answer e.1).getD b) := by
  induction entries with
  | nil => rfl
  | cons e entries ih =>
    obtain ⟨key, value⟩ := e
    rw [visitAll, h, List.findSome?_cons]
    rcases answer key with _ | found
    · exact ih
    · rfl

theorem visitAll_any {V : Type} {visit : Bytes → V → Bool → Except IoError (Bool × Bool)}
    (p : Bytes → Bool)
    (h : ∀ key value b, visit key value b = if p key then .ok (false, true) else .ok (true, b))
    (entries : Entries V) : visitAll visit entries false = .ok (entries.any fun e => p e.1) := by
  induction entries with
  | nil => rfl
  | cons e entries ih =>
    obtain ⟨key, value⟩ := e
    rw [visitAll, h, List.any_cons]
    cases hp : p key with
    | false =>
      simp only [Bool.false_eq_true, if_false, Bool.false_or]
      exact ih
    | true => rfl

theorem visitAll_gather {V γ : Type} {visit : Bytes → V → List γ → Except IoError (Bool × List γ)}
    (take : Bytes → List γ) (h : ∀ key value found, visit key value found = .ok (true, found ++ take key))
    (entries : Entries V) (found : List γ) :
    visitAll visit entries found = .ok (found ++ entries.flatMap fun e => take e.1) := by
  induction entries generalizing found with
  | nil => simp [visitAll]
  | cons e entries ih =>
    obtain ⟨key, value⟩ := e
    rw [visitAll, h]
    simp only [ih, List.append_assoc, List.flatMap_cons]

/-- The nodes beyond a cursor, in the direction of a scan by this key. -/
def pastNodes (key : Node → Bytes) (cursor : Option Bytes) (reverse : Bool) (nodes : List Node) :
    List Node :=
  let found := nodes.filter fun node =>
    cursor.all fun c => if reverse then key node < c else c < key node
  if reverse then found.reverse else found

theorem inRange_eq_pastNodes {V : Type} {entries : Entries V} {pre : Bytes} {nodes : List Node}
    {entry : Node → Bytes × V}
    (h : (entries.filter fun e => pre.isPrefixOf e.1) = nodes.map entry)
    (cursor : Option Bytes) (reverse : Bool) :
    inRange pre cursor reverse entries =
      (pastNodes (fun node => (entry node).1) cursor reverse nodes).map entry := by
  have hfound : (past reverse cursor entries).filter (fun e => pre.isPrefixOf e.1) =
      (nodes.filter fun node => cursor.all fun c =>
        if reverse then (entry node).1 < c else c < (entry node).1).map entry := by
    rcases cursor with _ | c
    · rw [past, h]
      simp
    -- The two filters of the scan commute.
    have hcomm : (past reverse (some c) entries).filter (fun e => pre.isPrefixOf e.1) =
        past reverse (some c) (entries.filter fun e => pre.isPrefixOf e.1) := by
      cases reverse <;> exact List.filter_comm ..
    rw [hcomm, h]
    cases reverse <;>
    · simp only [past, SortedMap.above, SortedMap.below, List.filter_map,
        Function.comp_def, Option.all_some, Bool.false_eq_true, if_true, if_false]
      congr!
  rw [inRange, pastNodes, hfound]
  cases reverse with
  | false => rfl
  | true => exact List.map_reverse.symm

theorem mem_of_mem_pastNodes {key : Node → Bytes} {cursor : Option Bytes} {reverse : Bool}
    {nodes : List Node} {node : Node} (h : node ∈ pastNodes key cursor reverse nodes) :
    node ∈ nodes := by
  rw [pastNodes] at h
  split at h
  · exact List.mem_of_mem_filter (List.mem_reverse.1 h)
  · exact List.mem_of_mem_filter h

/-- The filter of a scan: the kind if there is one, else the owner. -/
def scanFilter (kind owner : Option String) (node : Node) : Bool :=
  match kind, owner with
  | some k, _ => node.kind == k
  | none, some o => node.owner == o
  | none, none => true

/-! ## The stored nodes -/

namespace View

variable {v : View}

/-- The stored nodes, in the order of their addresses. -/
def nodes (v : View) : List Node := v.primary.filterMap fun e => e.2.toOption

namespace Consistent

variable (h : v.Consistent st)

include h

theorem primary_eq : v.primary = v.nodes.map fun node => (utf8 node.address, .ok node) := by
  have haddress : ∀ {key : Bytes} {node : Node}, (key, .ok node) ∈ v.primary →
      key = utf8 node.address := h.address
  have hreadable : ∀ {key : Bytes} {entry : Except IoError Node}, (key, entry) ∈ v.primary →
      ∃ node, entry = .ok node := h.readable
  rw [nodes]
  generalize v.primary = entries at haddress hreadable
  induction entries with
  | nil => rfl
  | cons e entries ih =>
    obtain ⟨key, entry⟩ := e
    obtain ⟨node, rfl⟩ := hreadable List.mem_cons_self
    obtain rfl := haddress List.mem_cons_self
    have hrest := ih (fun hmem => haddress (List.mem_cons_of_mem _ hmem))
      fun hmem => hreadable (List.mem_cons_of_mem _ hmem)
    have hcons : List.filterMap (fun e => e.2.toOption)
        ((utf8 node.address, (.ok node : Except IoError Node)) :: entries) =
      node :: entries.filterMap fun e => e.2.toOption := rfl
    rw [hcons, List.map_cons, ← hrest]

theorem mem_nodes {node : Node} : node ∈ v.nodes ↔ node ∈ v.live := by
  rw [mem_live, readNode_eq_some, h.primary.find_eq_some, h.primary_eq, List.mem_map]
  constructor
  · exact fun hnode => ⟨node, hnode, rfl⟩
  · rintro ⟨other, hother, heq⟩
    exact Except.ok.inj (Prod.mk.inj heq).2 ▸ hother

theorem nodes_sorted : v.nodes.Pairwise fun a b => utf8 a.address < utf8 b.address := by
  have hsorted : SortedMap.Sorted v.primary := h.primary
  rw [h.primary_eq, SortedMap.Sorted, List.pairwise_map] at hsorted
  exact hsorted

/-- The part of an index by a value that is about one value. -/
theorem members_eq {value : Node → String} {tree : Entries Unit}
    (htree : Holds tree (keysOf (memberKeys value) v.live))
    (hfits : ∀ node ∈ v.live, FitsMember value node) (wanted : String) :
    (tree.filter fun e => (Keys.component wanted).isPrefixOf e.1) =
      (v.nodes.filter fun node => value node == wanted).map fun node =>
        (Keys.component wanted ++ utf8 node.address, ()) := by
  refine SortedMap.Sorted.ext (htree.sorted.filter _) ?_ fun e => ?_
  · rw [SortedMap.Sorted, List.pairwise_map]
    exact (h.nodes_sorted.filter _).imp fun hlt => (append_lt_append_iff _ _ _).2 hlt
  obtain ⟨key, ⟨⟩⟩ := e
  rw [List.mem_filter, htree.mem, List.mem_map]
  constructor
  · rintro ⟨⟨node, hnode, hkey⟩, hprefix⟩
    rw [memberKeys, List.mem_singleton] at hkey
    obtain ⟨rest, hrest⟩ := List.isPrefixOf_iff_prefix.1 hprefix
    have hwanted : Keys.FitsComponent wanted := by
      -- A value that does not fit is longer than any key.
      have hlength := (congrArg List.length (hrest.trans hkey)).trans_le (hfits node hnode)
      rw [Keys.component, List.length_append, List.length_append, BTree.maxKeyLen] at hlength
      rw [Keys.FitsComponent]
      omega
    rw [hkey, Keys.memberKey] at hrest
    obtain ⟨hvalue, -⟩ := Keys.component_append_inj hwanted (hfits node hnode).component hrest
    refine ⟨node, List.mem_filter.2 ⟨h.mem_nodes.2 hnode, beq_iff_eq.2 hvalue.symm⟩, ?_⟩
    rw [hkey, Keys.memberKey, hvalue]
  · rintro ⟨node, hnode, heq⟩
    obtain ⟨hnode, hvalue⟩ := List.mem_filter.1 hnode
    obtain ⟨rfl, -⟩ := Prod.mk.inj heq
    refine ⟨⟨node, h.mem_nodes.1 hnode, ?_⟩, ?_⟩
    · rw [memberKeys, List.mem_singleton, Keys.memberKey, beq_iff_eq.1 hvalue]
    · exact List.isPrefixOf_iff_prefix.2 (List.prefix_append _ _)

theorem scanMembers {value : Node → String} {tree : Entries Unit}
    (htree : Holds tree (keysOf (memberKeys value) v.live))
    (hfits : ∀ node ∈ v.live, FitsMember value node) (wanted : String) (startAfter : Option String)
    (reverse : Bool) (visit : Node → β → Except IoError (Bool × β)) (b : β) :
    v.scanMembers st tree (Keys.component wanted) startAfter reverse visit b =
      visitNodes visit (pastNodes (fun node => utf8 node.address) (startAfter.map utf8) reverse
        (v.nodes.filter fun node => value node == wanted)) b := by
  have hpast : pastNodes (fun node => Keys.component wanted ++ utf8 node.address)
      (startAfter.map fun address => Keys.component wanted ++ utf8 address) reverse =
      pastNodes (fun node => utf8 node.address) (startAfter.map utf8) reverse := by
    funext nodes
    rcases startAfter with _ | address
    · rfl
    · simp only [pastNodes, Option.map_some, Option.all_some, append_lt_append_iff]
  rw [View.scanMembers, forEachRange,
    inRange_eq_pastNodes (h.members_eq htree hfits wanted), hpast]
  refine visitAll_eq_visitNodes _ (fun node hnode b => ?_) b
  have hlive : node ∈ v.live :=
    h.mem_nodes.1 (List.mem_of_mem_filter (mem_of_mem_pastNodes hnode))
  have hread : v.readNode (addressFromKey st (Keys.component wanted ++ utf8 node.address)
      (Keys.component wanted)) = .ok (some node) := by
    rw [addressFromKey, List.drop_left, Settings.fromUtf8Lossy_utf8]
    exact hlive
  simp only [hread]

/-- A scan visits the nodes that its narrowest filter lets through, in the order of the addresses. -/
theorem scanCandidates (kind owner startAfter : Option String) (reverse : Bool)
    (visit : Node → β → Except IoError (Bool × β)) (b : β) :
    v.scanCandidates st kind owner startAfter reverse visit b =
      visitNodes visit (pastNodes (fun node => utf8 node.address) (startAfter.map utf8) reverse
        (v.nodes.filter (scanFilter kind owner))) b := by
  rcases kind with _ | k
  · rcases owner with _ | o
    · have hall : (v.primary.filter fun e => List.isPrefixOf [] e.1) =
          v.nodes.map fun node => (utf8 node.address, .ok node) := by
        rw [← h.primary_eq]
        simp
      have hkeep : v.nodes.filter (scanFilter none none) = v.nodes :=
        List.filter_eq_self.2 fun _ _ => rfl
      rw [View.scanCandidates, forEachRange, inRange_eq_pastNodes hall, hkeep]
      exact visitAll_eq_visitNodes _ (fun node _ b => rfl) b
    · exact h.scanMembers h.owner (fun node hnode => (h.fits hnode).2) o startAfter reverse visit b
  · exact h.scanMembers h.kind (fun node hnode => (h.fits hnode).1) k startAfter reverse visit b

/-- The part of an index over a field that is about one value: the keys of the nodes that hold it. -/
theorem mem_inRange {kind field : String} {index : DataIndex}
    (hindex : v.dataFind kind field = some index) (value : Option st.json.Value) {key : Bytes} :
    (key, ()) ∈ index.tree.inRange (Keys.encodeOrderValue st.json value) none false ↔
      ∃ node ∈ v.live, node.kind = kind ∧ key = index.decl.keyOf st node ∧
        Keys.encodeOrderValue st.json (st.json.dataField node.data field) =
          Keys.encodeOrderValue st.json value := by
  obtain ⟨hmem, hdecl⟩ := And.intro (List.mem_of_find?_eq_some hindex) (List.find?_some hindex)
  obtain ⟨⟨name, index⟩, hdata, rfl⟩ := List.mem_map.1 hmem
  rw [Bool.and_eq_true, beq_iff_eq, beq_iff_eq] at hdecl
  obtain ⟨rfl, rfl⟩ := hdecl
  have hrange : index.tree.inRange (Keys.encodeOrderValue st.json value) none false =
      index.tree.filter fun e => (Keys.encodeOrderValue st.json value).isPrefixOf e.1 := rfl
  rw [hrange, List.mem_filter, (h.data hdata).mem]
  constructor
  · rintro ⟨⟨node, hnode, hkey⟩, hprefix⟩
    obtain ⟨hkind, rfl⟩ := IndexDef.mem_keys.1 hkey
    exact ⟨node, hnode, hkind.symm, rfl, (Keys.encodeOrderValue_isPrefixOf.1 hprefix).symm⟩
  · rintro ⟨node, hnode, hkind, rfl, hvalue⟩
    exact ⟨⟨node, hnode, IndexDef.mem_keys.2 ⟨hkind.symm, rfl⟩⟩,
      Keys.encodeOrderValue_isPrefixOf.2 hvalue.symm⟩

theorem nodesOfKind (kind : String) :
    v.nodesOfKind st kind = .ok (v.nodes.filter fun node => node.kind == kind) := by
  rw [View.nodesOfKind, h.scanCandidates, visitNodes_collect, List.nil_append]
  simp [pastNodes, scanFilter]

end Consistent

end View

end FacetQL
