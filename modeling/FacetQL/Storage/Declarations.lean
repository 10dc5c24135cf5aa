import FacetQL.Storage.Scans

/-!
# Declaring indexes, and sequences

The remaining calls of `storage/engine.rs` that a caller can change the database by: an index over a
field is declared or dropped, and a sequence hands out a block of numbers. An index that is declared
is filled from the nodes of its kind, and one that is to be unique is refused if two of them share a
value.
-/

namespace FacetQL

open SecondaryIndex
open SortedMap (erase find mem_erase mem_insert)

section Declarations

variable (st : Settings)

/-- The longest name of an index. -/
def maxIndexNameLen : Nat := 64

/-- Refuse a definition that the storage could not honour. -/
def IndexDef.validate (decl : IndexDef) : Except String Unit := do
  if decl.name.isEmpty || maxIndexNameLen < decl.name.utf8ByteSize then
    .error ("index name must be 1..=" ++ toString maxIndexNameLen ++ " bytes")
  if !decl.name.toList.all fun c => c.isAlphanum || c == '_' || c == '-' then
    .error "index name may contain only letters, digits, '_' and '-'"
  if decl.kind.isEmpty then .error "index kind must not be empty"
  if decl.field.isEmpty then .error "index field must not be empty"
  checkComponent "index kind" decl.kind
  checkComponent "index field" decl.field

/-- One node against an index to be declared. Each value stands with the first node that has it. -/
def backfillStep (decl : IndexDef) (node : Node) (seen : List (Bytes × String)) :
    Except String (List (Bytes × String)) :=
  match checkDataKeys st [decl] node.address node.data with
  | .error e =>
    .error ("cannot index " ++ decl.kind ++ "." ++ decl.field ++ ": node '" ++ node.address ++ "' " ++ e)
  | .ok () =>
    if decl.unique then
      let encoded := Keys.encodeOrderValue st.json (st.json.dataField node.data decl.field)
      match seen.find? fun e => e.1 == encoded with
      | some (_, first) =>
        .error ("cannot declare " ++ decl.kind ++ "." ++ decl.field ++ " unique: '" ++ first ++
          "' and '" ++ node.address ++ "' already share a value. Resolve the duplicates first — " ++
          "a constraint that is false when it is created is worse than none, because reads start " ++
          "trusting it.")
      | none => .ok (seen ++ [(encoded, node.address)])
    else .ok seen

namespace View

/-- Refuse a definition whose backfill could not be applied. -/
def checkBackfillAdmissible (v : View) (decl : IndexDef) : Except String Unit :=
  let walked := v.scanCandidates st (some decl.kind) none none false
    (fun node (seen, failure) =>
      match backfillStep st decl node seen with
      | .error e => .ok (false, seen, some e)
      | .ok seen => .ok (true, seen, failure)) (([] : List (Bytes × String)), (none : Option String))
  match walked with
  | .error e => .error e.message
  | .ok (_, some failure) => .error failure
  | .ok (_, none) => .ok ()

end View

/-- The references that depend on the index over a field, on either side. -/
def References.dependingOnIndex (references : References) (kind field : String) :
    List ReferenceDef :=
  references.filter fun decl => (decl.kind == kind && decl.field == field) ||
    (decl.parentKind == kind && decl.parentField == some field)

/-- The kind of the nodes that hold the sequences. -/
def sequenceKind : String := "__sequence"

/-- The longest name of a sequence. -/
def maxSequenceName : Nat := 128

/-- The most numbers that one call may take. -/
def maxSequenceBlock : Nat := 100000

namespace GraphStore

variable (db : GraphStore)

/-- Apply a declaration. -/
def applyDeclaration (change : Change) : Except String Unit × GraphStore :=
  match db.view.apply st change with
  | .error e => (.error e.message, db)
  | .ok v => (.ok (), { db with view := v })

/-- Declare an index over a field of a kind. -/
def createIndex (decl : IndexDef) : Except String Unit × GraphStore :=
  match decl.validate with
  | .error e => (.error e, db)
  | .ok () =>
    match find (utf8 decl.name) db.view.data with
    | some existing =>
      if existing.decl = decl then (.ok (), db)
      else (.error ("index '" ++ existing.decl.name ++ "' already exists, over " ++
        existing.decl.kind ++ "." ++ existing.decl.field ++
        " — drop it before                  redefining it"), db)
    | none =>
      match find (utf8 decl.name) db.view.text with
      | some existing => (.error ("index '" ++ existing.decl.name ++
          "' already exists as an inverted index over " ++ existing.decl.kind ++ "." ++
          existing.decl.field ++ " — one name names one index"), db)
      | none =>
        match db.view.dataFind decl.kind decl.field with
        | some other => (.error ("index '" ++ other.decl.name ++ "' already covers " ++ decl.kind ++
            "." ++ decl.field), db)
        | none =>
          match db.view.checkBackfillAdmissible st decl with
          | .error e => (.error e, db)
          | .ok () => db.applyDeclaration st (.createIndex decl)

/-- Drop a declared index, of either sort. -/
def dropIndex (name : String) : Except String Unit × GraphStore :=
  match find (utf8 name) db.view.data with
  | none =>
    if (find (utf8 name) db.view.text).isSome then
      db.applyDeclaration st (.dropTextIndex name)
    else (.error ("no index named '" ++ name ++ "'"), db)
  | some index =>
    match db.references.dependingOnIndex index.decl.kind index.decl.field with
    | first :: rest => (.error ("index '" ++ name ++ "' cannot be dropped: reference " ++
        st.json.debugStr first.name ++ " is enforced through it (" ++ toString (rest.length + 1) ++
        " in total). Drop the reference first."), db)
    | [] => db.applyDeclaration st (.dropIndex name)

/-- The node of a sequence after a block of numbers has been taken, and the first of them. -/
def sequenceBlock (name : String) (count : Nat) (owner : String) (isAdmin : Bool) :
    Except String (Node × Nat) :=
  let address := sequenceKind ++ ":" ++ name
  match db.view.readNode address with
  | .error e => .error e.message
  | .ok previous =>
    if previous.any fun node => !(isAdmin || node.canWrite owner) then
      .error ("not authorized to advance sequence " ++ st.json.debugStr name ++
        ": it belongs to another owner")
    else
      let held := previous.bind fun node => (st.json.dataField node.data "next").bind fun value =>
        match value with
        | .number n => st.json.asU64 n
        | _ => none
      let start := held.getD 1
      if 2 ^ 64 ≤ start + count then
        .error ("sequence " ++ st.json.debugStr name ++ " is exhausted at " ++ toString start)
      else
        .ok (
          { address := address
            coordinate := ⟨0, 0, 0, 0⟩
            value := 0
            kind := sequenceKind
            data := "\x7b\"next\":" ++ toString (start + count) ++ "\x7d"
            owner := (previous.map Node.owner).getD owner
            claimedBy := none
            visibility := .priv }, start)

/-- Take a block of numbers from a sequence: the first of them is the answer. -/
def sequenceNext (stamp : Stamp) (name : String) (count : Nat) (owner : String) (isAdmin : Bool) :
    Except String Nat × GraphStore :=
  if count = 0 ∨ maxSequenceBlock < count then
    (.error ("sequence block must be between 1 and " ++ toString maxSequenceBlock ++ ", got " ++
      toString count), db)
  else if name.isEmpty ∨ maxSequenceName < name.utf8ByteSize ∨ ':' ∈ name.toList then
    (.error ("sequence name must be 1..=" ++ toString maxSequenceName ++
      " characters and contain no ':', got " ++ st.json.debugStr name), db)
  else
    match db.sequenceBlock st name count owner isAdmin with
    | .error e => (.error e, db)
    | .ok (node, start) =>
      let (result, db) := db.insert st stamp node
      (result.map fun _ => start, db)

end GraphStore

end Declarations

/-! ## Declarations keep the indexes consistent -/

namespace View

variable {st : Settings} {v v' : View}

/-- Declaring an index keeps the indexes consistent. -/
theorem Consistent.createIndex (h : v.Consistent st) {decl : IndexDef}
    (hnew : find (utf8 decl.name) v.data = none)
    (happly : v.apply st (.createIndex decl) = .ok v') : v'.Consistent st := by
  rw [View.apply, h.nodesOfKind] at happly
  obtain rfl := Except.ok.inj happly
  have htree : Holds (putAll ((v.nodes.filter fun node => node.kind == decl.kind).map
      (decl.keyOf st)) []) (keysOf (decl.keys st) v.live) := by
    have hempty : Holds ([] : Entries Unit) ∅ := ⟨SortedMap.sorted_nil, by simp⟩
    convert hempty.putAll _ using 1
    ext key
    simp only [keysOf, Set.mem_ofPred_eq, IndexDef.mem_keys, Set.empty_union, List.mem_map,
      List.mem_filter, h.mem_nodes, beq_iff_eq]
    constructor
    · rintro ⟨node, hnode, hkind, rfl⟩
      exact ⟨node, ⟨hnode, hkind.symm⟩, rfl⟩
    · rintro ⟨node, ⟨hnode, hkind⟩, rfl⟩
      exact ⟨node, hnode, hkind.symm, rfl⟩
  have hdata : (v.openData st decl (v.nodes.filter fun node => node.kind == decl.kind)).data =
      SortedMap.insert (utf8 decl.name) ⟨decl, putAll ((v.nodes.filter fun node =>
        node.kind == decl.kind).map (decl.keyOf st)) []⟩ v.data := by
    rw [Trees.openData, hnew, putAll, List.foldl_map]
  refine ⟨⟨h.primary, h.address, h.edgeOut⟩, h.readable, h.fits, h.kind, h.owner, ?_, ?_, ?_,
    h.declaredText, h.text⟩
  · rw [hdata]
    exact h.declared.insert
  · intro key index hmem
    rw [hdata] at hmem
    rcases mem_insert.1 hmem with heq | hold
    · obtain ⟨rfl, rfl⟩ := Prod.mk.inj heq
      rfl
    · exact h.name hold.1
  · intro key index hmem
    rw [hdata] at hmem
    rcases mem_insert.1 hmem with heq | hold
    · obtain ⟨rfl, rfl⟩ := Prod.mk.inj heq
      exact htree
    · exact h.data hold.1

theorem Consistent.dropIndex (h : v.Consistent st) {name : String}
    (happly : v.apply st (.dropIndex name) = .ok v') : v'.Consistent st := by
  obtain rfl := Except.ok.inj happly
  exact ⟨⟨h.primary, h.address, h.edgeOut⟩, h.readable, h.fits, h.kind, h.owner, h.declared.erase,
    fun hmem => h.name (mem_erase.1 hmem).1,
    fun hmem => h.data (mem_erase.1 hmem).1, h.declaredText, h.text⟩

theorem Consistent.dropTextIndex (h : v.Consistent st) {name : String}
    (happly : v.apply st (.dropTextIndex name) = .ok v') : v'.Consistent st := by
  obtain rfl := Except.ok.inj happly
  exact ⟨⟨h.primary, h.address, h.edgeOut⟩, h.readable, h.fits, h.kind, h.owner, h.declared,
    h.name, h.data, h.declaredText.erase, fun hmem => h.text (mem_erase.1 hmem).1⟩

theorem decls_createIndex {decl : IndexDef} (happly : v.apply st (.createIndex decl) = .ok v') :
    v'.decls = SortedMap.insert (utf8 decl.name) decl v.decls ∧ v'.live = v.live := by
  obtain ⟨nodes, -, rfl⟩ := TreeStorage.exists_of_map_eq_ok happly
  exact ⟨SortedMap.insert_mapValues.symm, rfl⟩

theorem decls_dropIndex {name : String} (happly : v.apply st (.dropIndex name) = .ok v') :
    v'.decls = erase (utf8 name) v.decls ∧ v'.live = v.live := by
  obtain rfl := Except.ok.inj happly
  exact ⟨SortedMap.erase_mapValues.symm, rfl⟩

end View

end FacetQL
