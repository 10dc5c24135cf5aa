import FacetQL.Core.JsonText
import FacetQL.Lib.SecondaryIndex
import FacetQL.Storage.Atomicity

/-!
# The indexes agree with the nodes

Beside the primary index stand the indexes over the kind, the owner and the declared fields. They
hold the keys of the nodes that are stored and no others, and every change keeps it that way: what
is stale of an overwritten or removed node is taken out before the new keys are put in.
-/

namespace FacetQL

open SecondaryIndex
open SortedMap (Sorted erase find mapValues mapValues_congr mem_erase mem_insert mem_mapValues
  sorted_nil)

variable {st : Settings}

/-- The default bounds, over texts that can be read back. -/
def Settings.textual : Settings := { Settings.plain with json := JsonText.json }

/-! ## The keys of a node -/

/-- The keys of a node in an index over a field: none if it is of another kind. -/
def IndexDef.keys (st : Settings) (decl : IndexDef) (node : Node) : List Bytes :=
  if decl.kind = node.kind then [decl.keyOf st node] else []

/-- The keys of a node in an inverted index. -/
def TextIndexDef.keys (st : Settings) (decl : TextIndexDef) (node : Node) : List Bytes :=
  if decl.kind = node.kind then decl.keysOf st node else []

variable {node : Node} {key : Bytes}

theorem IndexDef.mem_keys {decl : IndexDef} :
    key ∈ decl.keys st node ↔ decl.kind = node.kind ∧ key = decl.keyOf st node := by
  rw [keys]
  split
  · rename_i hkind
    simp [hkind]
  · rename_i hkind
    simp [hkind]

theorem IndexDef.address_of_keys {decl : IndexDef} {node' : Node} (h : key ∈ decl.keys st node)
    (h' : key ∈ decl.keys st node') : node.address = node'.address :=
  (Keys.dataKey_inj ((mem_keys.1 h).2.symm.trans (mem_keys.1 h').2)).2

theorem TextIndexDef.mem_keys {decl : TextIndexDef} (h : key ∈ decl.keys st node) :
    ∃ gram : Bytes, gram.length = Keys.gramLen ∧
      key = Keys.textKey gram node.address := by
  rw [keys] at h
  split at h
  · rw [keysOf] at h
    split at h
    · obtain ⟨gram, hgram, rfl⟩ := List.mem_map.1 h
      exact ⟨gram, Keys.length_of_mem_grams hgram, rfl⟩
    · cases h
  · cases h

theorem TextIndexDef.address_of_keys {decl : TextIndexDef} {node' : Node}
    (h : key ∈ decl.keys st node) (h' : key ∈ decl.keys st node') :
    node.address = node'.address := by
  obtain ⟨gram, hgram, hkey⟩ := mem_keys h
  obtain ⟨gram', hgram', hkey'⟩ := mem_keys h'
  exact utf8_inj (List.append_inj (hkey.symm.trans hkey') (hgram.trans hgram'.symm)).2

/-- The one key of a node in an index by a value of it. -/
def memberKeys (value : Node → String) (node : Node) : List Bytes :=
  [Keys.memberKey (value node) node.address]

/-- The keys of a node in an index by a value of it are not too long for a tree. -/
def FitsMember (value : Node → String) (node : Node) : Prop :=
  (Keys.memberKey (value node) node.address).length ≤ BTree.maxKeyLen

theorem FitsMember.component {value : Node → String} (h : FitsMember value node) :
    Keys.FitsComponent (value node) := by
  rw [FitsMember, Keys.memberKey, Keys.component] at h
  simp only [List.length_append, BTree.maxKeyLen] at h
  rw [Keys.FitsComponent]
  omega

theorem fitsMember_of_check {value : Node → String} {index : String}
    (h : checkKeyAdmissible index (componentLen (value node) + node.address.utf8ByteSize) = .ok ())
    : FitsMember value node := by
  rw [checkKeyAdmissible] at h
  split_ifs at h with hempty hlong
  rw [FitsMember, Keys.memberKey, Keys.component, List.length_append, List.length_append,
    length_beBytes, length_utf8, length_utf8]
  exact not_lt.1 hlong

/-! ## The indexes over fields, when nodes come and go -/

namespace Trees

variable {N E H : Type} (t : Trees N E H) (node : Node)

/-- A tree without the keys of the node that was stored, and with those of the one that is now. -/
def rekey (f : Node → List Bytes) (previous slot : Option Node) (tree : Entries Unit) :
    Entries Unit :=
  putAll (slot.toList.flatMap f) (eraseAll (previous.toList.flatMap f) tree)

theorem declared_keys :
    (t.assertDataKeys st node).data = mapValues (fun index =>
        { index with tree := putAll (index.decl.keys st node) index.tree }) t.data ∧
      (t.retractDataKeys st node).data = mapValues (fun index =>
        { index with tree := eraseAll (index.decl.keys st node) index.tree }) t.data ∧
      (t.assertTextKeys st node).text = mapValues (fun index =>
        { index with tree := putAll (index.decl.keys st node) index.tree }) t.text ∧
      (t.retractTextKeys st node).text = mapValues (fun index =>
        { index with tree := eraseAll (index.decl.keys st node) index.tree }) t.text := by
  simp only [assertDataKeys, retractDataKeys, assertTextKeys, retractTextKeys, mapData, mapText]
  refine ⟨mapValues_congr fun e _ => ?_, mapValues_congr fun e _ => ?_,
    mapValues_congr fun e _ => ?_, mapValues_congr fun e _ => ?_⟩
  all_goals
    simp only [IndexDef.keys, TextIndexDef.keys]
    split <;> rfl

variable (st) in
theorem insertNode_declared (previous : Option Node) (entry : N) :
    (t.insertNode st previous node entry).data = mapValues (fun index => { index with
        tree := rekey (index.decl.keys st) previous (some node) index.tree }) t.data ∧
      (t.insertNode st previous node entry).text = mapValues (fun index => { index with
        tree := rekey (index.decl.keys st) previous (some node) index.tree }) t.text := by
  simp only [rekey, Option.toList_some, List.flatMap_singleton]
  rcases previous with _ | old
  · exact ⟨(declared_keys t node).1, (declared_keys t node).2.2.1⟩
  have hsame : (t.insertNode st (some old) node entry).data =
        ((t.retractDataKeys st old).assertDataKeys st node).data ∧
      (t.insertNode st (some old) node entry).text =
        ((t.retractTextKeys st old).assertTextKeys st node).text := by
    simp only [insertNode, pointNode, assertDataKeys, assertTextKeys, retractDataKeys,
      retractTextKeys, mapData, mapText]
    split_ifs <;> exact ⟨rfl, rfl⟩
  simp [hsame, declared_keys, mapValues]

variable (st) in
theorem deleteNode_declared (address : String) :
    (t.deleteNode st address node).data = mapValues (fun index => { index with
        tree := rekey (index.decl.keys st) (some node) none index.tree }) t.data ∧
      (t.deleteNode st address node).text = mapValues (fun index => { index with
        tree := rekey (index.decl.keys st) (some node) none index.tree }) t.text := by
  simp only [rekey, Option.toList_some, List.flatMap_singleton]
  exact ⟨(declared_keys t node).2.1, (declared_keys t node).2.2.2⟩

/-- An index without the key an overwritten node leaves behind, unless the new node has it, too. -/
def withoutStale (value : Node → String) (previous : Option Node) (tree : Entries Unit) :
    Entries Unit :=
  match previous with
  | some old => if value old ≠ value node then
      erase (Keys.memberKey (value old) node.address) tree else tree
  | none => tree

variable (st) in
theorem insertNode_members (previous : Option Node) (entry : N) :
    (t.insertNode st previous node entry).kind = SortedMap.insert
        (Keys.kindKey node.kind node.address) () (withoutStale node Node.kind previous t.kind) ∧
      (t.insertNode st previous node entry).owner = SortedMap.insert
        (Keys.ownerKey node.owner node.address) () (withoutStale node Node.owner previous t.owner) := by
  rcases previous with _ | old
  · exact ⟨rfl, rfl⟩
  simp only [insertNode, pointNode, assertDataKeys, assertTextKeys, retractDataKeys,
    retractTextKeys, mapData, mapText, withoutStale]
  split_ifs <;> exact ⟨rfl, rfl⟩

end Trees

/-! ## The nodes that are stored -/

namespace View

variable {v v' : View} {op : Operation}

/-- The nodes that are stored. -/
def live (v : View) : Set Node := {node | v.readNode node.address = .ok (some node)}

theorem mem_live {node : Node} : node ∈ v.live ↔ v.readNode node.address = .ok (some node) := .rfl

theorem live_eq_of_address {node node' : Node} (h : node ∈ v.live) (h' : node' ∈ v.live)
    (haddress : node.address = node'.address) : node = node' := by
  rw [mem_live] at h h'
  exact Option.some.inj (Except.ok.inj (h.symm.trans (haddress ▸ h')))

variable {address : String} {previous : Option Node} {key : Bytes}

theorem WellFormed.mem_live_of_read (h : v.WellFormed) {node : Node}
    (hread : v.readNode address = .ok (some node)) : node ∈ v.live := by
  rw [mem_live, h.address_eq hread]
  exact hread

/-- The nodes that are stored when an address has come to name something else. -/
def liveAfter (v : View) (address : String) (slot : Option Node) : Set Node :=
  {node | node ∈ v.live ∧ node.address ≠ address} ∪ {node | some node = slot}

/-- What an operation does to the nodes that are stored. -/
theorem live_apply (h : v.WellFormed) (happly : v.apply st (.write op) = .ok v') :
    v'.live = match op.nodeWrite with
      | some (address, slot) => v.liveAfter address slot
      | none => v.live := by
  ext node
  rw [mem_live, readNode_apply h happly]
  rcases hwrite : op.nodeWrite with _ | ⟨address, slot⟩
  · rfl
  simp only [liveAfter, Set.mem_union, Set.mem_ofPred_eq]
  by_cases haddress : node.address = address
  · simp only [haddress, if_true, ne_eq, not_true_eq_false, and_false, false_or, Except.ok.injEq]
    exact eq_comm
  · rw [if_neg haddress]
    refine ⟨fun hnode => .inl ⟨hnode, haddress⟩, fun hnode => hnode.elim And.left fun hslot => ?_⟩
    exact absurd (Operation.address_of_nodeWrite (hslot ▸ hwrite)) haddress

theorem liveAfter_none (h : v.WellFormed) {previous : Option Node}
    (hread : v.readNode address = .ok previous) :
    v.liveAfter address none = v.live \ {node | some node = previous} := by
  ext node
  simp only [liveAfter, Set.mem_union, Set.mem_ofPred_eq, reduceCtorEq, or_false, Set.mem_sdiff]
  refine and_congr_right fun hnode => not_congr ⟨fun heq => ?_, fun heq => ?_⟩
  · exact Except.ok.inj ((mem_live.1 hnode).symm.trans (heq ▸ hread))
  · exact h.address_eq (heq ▸ hread)

theorem liveAfter_some (v : View) (address : String) (node : Node) :
    v.liveAfter address (some node) = insert node (v.liveAfter address none) := by
  ext other
  simp [liveAfter]

/-! ## Consistent indexes -/

/-- The primary entries can be read, and the other indexes hold the keys of the stored nodes. -/
structure Consistent (st : Settings) (v : View) : Prop extends WellFormed v where
  readable {key : Bytes} {entry : Except IoError Node} :
    (key, entry) ∈ v.primary → ∃ node, entry = .ok node
  fits {node : Node} : node ∈ v.live → FitsMember Node.kind node ∧ FitsMember Node.owner node
  kind : Holds v.kind (keysOf (memberKeys Node.kind) v.live)
  owner : Holds v.owner (keysOf (memberKeys Node.owner) v.live)
  declared : Sorted v.data
  name {key : Bytes} {index : DataIndex} : (key, index) ∈ v.data → key = utf8 index.decl.name
  data {key : Bytes} {index : DataIndex} : (key, index) ∈ v.data →
    Holds index.tree (keysOf (index.decl.keys st) v.live)
  declaredText : Sorted v.text
  text {key : Bytes} {index : TextIndex} : (key, index) ∈ v.text →
    Holds index.tree (keysOf (index.decl.keys st) v.live)

theorem live_empty : live (Trees.empty : View) = ∅ := by
  ext node
  simp [mem_live, readNode, Trees.empty, find]

theorem Consistent.empty : Consistent st (Trees.empty : View) where
  toWellFormed := .empty
  readable := nofun
  fits h := absurd (live_empty ▸ h) (Set.notMem_empty _)
  kind := live_empty ▸ .start
  owner := live_empty ▸ .start
  declared := sorted_nil
  name := nofun
  data := nofun
  declaredText := sorted_nil
  text := nofun

/-- Whatever is asked for, an answer can be read. -/
theorem Consistent.exists_read (h : v.Consistent st) (address : String) :
    ∃ slot, v.readNode address = .ok slot := by
  rw [readNode]
  rcases hfind : find (utf8 address) v.primary with _ | entry
  · exact ⟨none, rfl⟩
  obtain ⟨node, rfl⟩ := h.readable (h.primary.find_eq_some.1 hfind)
  exact ⟨some node, rfl⟩

/-! ### Writing and removing a node -/

variable {tree : Entries Unit} {old node : Node}

/-- A tree keeps the keys of the nodes if a write erases the old ones and puts the new ones in. -/
theorem holds_rekey {f : Node → List Bytes} (h : Holds tree (keysOf f v.live))
    (happart : ∀ {other old key}, other ∈ v.live → old ∈ v.live → key ∈ f other → key ∈ f old →
      other.address = old.address) (hv : v.WellFormed)
    (hread : v.readNode address = .ok previous) (slot : Option Node) :
    Holds (Trees.rekey f previous slot tree) (keysOf f (v.liveAfter address slot)) := by
  have herased : Holds (eraseAll (previous.toList.flatMap f) tree)
      (keysOf f (v.liveAfter address none)) := by
    rw [liveAfter_none hv hread]
    rcases previous with _ | old
    · simpa using h
    have hold := hv.mem_live_of_read hread
    simpa using h.remove old fun other hother key hkey hkey' =>
      live_eq_of_address hother hold (happart hother hold hkey hkey')
  rcases slot with _ | node
  · exact herased
  · rw [liveAfter_some]
    simpa [Trees.rekey] using herased.add node

theorem address_of_memberKeys {value : Node → String} (hfits : ∀ other ∈ v.live, FitsMember value other)
    {other old : Node} {key : Bytes} (hother : other ∈ v.live) (hold : old ∈ v.live)
    (hkey : key ∈ memberKeys value other) (hkey' : key ∈ memberKeys value old) :
    other.address = old.address := by
  rw [memberKeys, List.mem_singleton] at hkey hkey'
  exact utf8_inj (Keys.component_append_inj (hfits other hother).component (hfits old hold).component
    (hkey.symm.trans hkey')).2

theorem holds_member {value : Node → String} (h : Holds tree (keysOf (memberKeys value) v.live))
    (hfits : ∀ other ∈ v.live, FitsMember value other) (hv : v.WellFormed)
    (hread : v.readNode node.address = .ok previous) :
    Holds (SortedMap.insert (Keys.memberKey (value node) node.address) ()
        (Trees.withoutStale node value previous tree))
      (keysOf (memberKeys value) (v.liveAfter node.address (some node))) := by
  have hwrite : Holds (SortedMap.insert (Keys.memberKey (value node) node.address) ()
      (eraseAll (previous.toList.flatMap (memberKeys value)) tree))
      (keysOf (memberKeys value) (v.liveAfter node.address (some node))) :=
    holds_rekey h (address_of_memberKeys hfits) hv hread (some node)
  rcases previous with _ | old
  · exact hwrite
  rw [Option.toList_some, List.flatMap_singleton, memberKeys, hv.address_eq hread] at hwrite
  rw [Trees.withoutStale]
  split
  · exact hwrite
  -- The key is overwritten in place, so it does not matter that it was not erased.
  rename_i hsame
  rw [not_not.1 hsame] at hwrite
  change Holds (SortedMap.insert _ _ (erase _ _)) _ at hwrite
  refine ⟨h.insert.sorted, fun {k} => ?_⟩
  rw [← hwrite.mem, mem_insert, mem_insert, mem_erase]
  tauto

theorem holds_member_removal {value : Node → String}
    (h : Holds tree (keysOf (memberKeys value) v.live))
    (hfits : ∀ other ∈ v.live, FitsMember value other) (hv : v.WellFormed)
    (hread : v.readNode address = .ok (some old)) :
    Holds (erase (Keys.memberKey (value old) address) tree)
      (keysOf (memberKeys value) (v.liveAfter address none)) := by
  obtain rfl := hv.address_eq hread
  exact holds_rekey h (address_of_memberKeys hfits) hv hread none

/-- The declared indexes hold their keys after a write, if each of them is rekeyed. -/
theorem Consistent.rekey (h : v.Consistent st) (hwell : v'.WellFormed) {slot : Option Node}
    (hlive : v'.live = v.liveAfter address slot) (hread : v.readNode address = .ok previous)
    (hreadable : ∀ {key entry}, (key, entry) ∈ v'.primary → ∃ node, entry = .ok node)
    (hfits : ∀ node, some node = slot → FitsMember Node.kind node ∧ FitsMember Node.owner node)
    (hkind : Holds v'.kind (keysOf (memberKeys Node.kind) (v.liveAfter address slot)))
    (howner : Holds v'.owner (keysOf (memberKeys Node.owner) (v.liveAfter address slot)))
    (hdeclared : v'.data = mapValues (fun index => { index with
        tree := Trees.rekey (index.decl.keys st) previous slot index.tree }) v.data ∧
      v'.text = mapValues (fun index => { index with
        tree := Trees.rekey (index.decl.keys st) previous slot index.tree }) v.text) :
    v'.Consistent st := by
  obtain ⟨hdata, htext⟩ := hdeclared
  refine ⟨hwell, hreadable, fun {other} hother => ?_, hlive ▸ hkind, hlive ▸ howner,
    hdata ▸ h.declared.mapValues, ?_, ?_, htext ▸ h.declaredText.mapValues, ?_⟩
  · rw [hlive] at hother
    exact hother.elim (fun hother => h.fits hother.1) (hfits other)
  all_goals
    intro key index hmem
    first | rw [hdata] at hmem | rw [htext] at hmem
    obtain ⟨index, hindex, rfl⟩ := mem_mapValues.1 hmem
  · have hname := h.name hindex
    exact hname
  · rw [hlive]
    exact holds_rekey (h.data hindex) (fun _ _ => IndexDef.address_of_keys) h.toWellFormed hread slot
  · rw [hlive]
    exact holds_rekey (h.text hindex) (fun _ _ => TextIndexDef.address_of_keys) h.toWellFormed hread
      slot

theorem Consistent.insert (h : v.Consistent st) (hkind : FitsMember Node.kind node)
    (howner : FitsMember Node.owner node)
    (happly : v.apply st (.write (.insert node)) = .ok v') : v'.Consistent st := by
  have hlive := live_apply h.toWellFormed happly
  have hwell := h.toWellFormed.apply happly
  obtain ⟨previous, hread, rfl⟩ := apply_insert_ok happly
  obtain ⟨hkinds, howners⟩ := Trees.insertNode_members st v node previous (.ok node)
  refine h.rekey hwell hlive hread (fun {key entry} hmem => ?_) ?_ ?_ ?_
    (Trees.insertNode_declared st v node previous (.ok node))
  · rw [(Trees.insertNode_frame st previous node (.ok node) v).1] at hmem
    rcases mem_insert.1 hmem with heq | hold
    · exact ⟨node, (Prod.mk.inj heq).2⟩
    · exact h.readable hold.1
  · rintro _ ⟨⟩
    exact ⟨hkind, howner⟩
  · rw [hkinds]
    exact holds_member h.kind (fun other hother => (h.fits hother).1) h.toWellFormed hread
  · rw [howners]
    exact holds_member h.owner (fun other hother => (h.fits hother).2) h.toWellFormed hread

theorem Consistent.delete (h : v.Consistent st)
    (happly : v.apply st (.write (.delete address)) = .ok v') : v'.Consistent st := by
  have hlive := live_apply h.toWellFormed happly
  have hwell := h.toWellFormed.apply happly
  rcases apply_delete_ok happly with ⟨-, rfl⟩ | ⟨old, hread, rfl⟩
  · exact h
  exact h.rekey hwell hlive hread (fun hmem => h.readable (mem_erase.1 hmem).1) nofun
    (holds_member_removal h.kind (fun other hother => (h.fits hother).1) h.toWellFormed hread)
    (holds_member_removal h.owner (fun other hother => (h.fits hother).2) h.toWellFormed hread)
    (Trees.deleteNode_declared st v old address)

/-! ### Operations -/

/-- The keys of a node that passes its check fit. -/
theorem fits_of_validate (h : v.validate st (.insert node) = .ok ()) :
    FitsMember Node.kind node ∧ FitsMember Node.owner node := by
  obtain ⟨⟨⟩, hkeys, -⟩ := Except.bind_eq_ok.1 h
  obtain ⟨-, hkeys⟩ := TreeStorage.checkComponent_bind hkeys
  obtain ⟨-, hkeys⟩ := TreeStorage.checkComponent_bind hkeys
  obtain ⟨-, hkeys⟩ := TreeStorage.checkComponent_bind hkeys
  obtain ⟨⟨⟩, -, hkeys⟩ := Except.bind_eq_ok.1 hkeys
  obtain ⟨⟨⟩, hkind, hkeys⟩ := Except.bind_eq_ok.1 hkeys
  obtain ⟨⟨⟩, howner, -⟩ := Except.bind_eq_ok.1 hkeys
  exact ⟨fitsMember_of_check hkind, fitsMember_of_check howner⟩

/-- An operation keeps the indexes consistent. -/
theorem Consistent.apply (h : v.Consistent st) {w : View} (hvalid : w.validate st op = .ok ())
    (happly : v.apply st (.write op) = .ok v') : v'.Consistent st := by
  have hwell := h.toWellFormed.apply happly
  cases op with
  | insert node =>
    obtain ⟨hkind, howner⟩ := fits_of_validate hvalid
    exact h.insert hkind howner happly
  | delete address => exact h.delete happly
  | archive entry | insertEdge edge | deleteEdge id =>
    obtain rfl := Except.ok.inj happly
    exact ⟨hwell, h.readable, h.fits, h.kind, h.owner, h.declared, h.name, h.data, h.declaredText,
      h.text⟩

theorem Consistent.exists_apply (h : v.Consistent st) (op : Operation) :
    ∃ v', v.apply st (.write op) = .ok v' := by
  obtain ⟨slot, hslot⟩ : ∃ slot, ∀ touched written, op.nodeWrite = some (touched, written) →
      v.readNode touched = .ok slot := by
    rcases op.nodeWrite with _ | ⟨address, written⟩
    · exact ⟨none, fun touched written heq => by cases heq⟩
    · obtain ⟨slot, hread⟩ := h.exists_read address
      refine ⟨slot, fun touched written heq => ?_⟩
      rw [← (Prod.mk.inj (Option.some.inj heq)).1, hread]
  exact View.exists_apply hslot

/-- Operations that pass their checks can all be applied. -/
theorem Consistent.exists_applyAll (h : v.Consistent st) {w : View} {ops : List Operation}
    (hvalid : ∀ op ∈ ops, w.validate st op = .ok ()) :
    ∃ v', v.applyAll st ops = (.ok (), v') ∧ v'.Consistent st := by
  induction ops generalizing v with
  | nil => exact ⟨v, rfl, h⟩
  | cons op ops ih =>
    obtain ⟨next, hnext⟩ := h.exists_apply op
    obtain ⟨v', hall, hv'⟩ := ih (h.apply (hvalid op List.mem_cons_self) hnext)
      fun op hop => hvalid op (List.mem_cons_of_mem _ hop)
    exact ⟨v', by rw [View.applyAll, hnext]; exact hall, hv'⟩

/-! ### The declared indexes -/

/-- The declarations of the indexes over fields, by name. -/
def decls (v : View) : Entries IndexDef := mapValues DataIndex.decl v.data

theorem mem_decls {decl : IndexDef} :
    (key, decl) ∈ v.decls ↔ ∃ index, (key, index) ∈ v.data ∧ index.decl = decl :=
  mem_mapValues

/-- Operations declare nothing. -/
theorem decls_apply (happly : v.apply st (.write op) = .ok v') : v'.decls = v.decls := by
  have hkeep (f : DataIndex → Entries Unit) (data : Entries DataIndex) :
      mapValues DataIndex.decl (mapValues (fun index =>
        { index with tree := f index }) data) = mapValues DataIndex.decl data :=
    List.map_map ..
  cases op with
  | insert node =>
    obtain ⟨previous, -, rfl⟩ := apply_insert_ok happly
    rw [decls, (Trees.insertNode_declared st v node previous (.ok node)).1, hkeep, decls]
  | delete address =>
    rcases apply_delete_ok happly with ⟨-, rfl⟩ | ⟨old, -, rfl⟩
    · rfl
    · rw [decls, (Trees.deleteNode_declared st v old address).1, hkeep, decls]
  | _ =>
    obtain rfl := Except.ok.inj happly
    rfl

theorem decls_applyAll (v : View) (ops : List Operation) : (v.applyAll st ops).2.decls = v.decls := by
  induction ops generalizing v with
  | nil => rfl
  | cons op ops ih =>
    rw [View.applyAll]
    rcases happly : v.apply st (.write op) with e | next
    · rfl
    · exact (ih next).trans (decls_apply happly)

end View

end FacetQL
