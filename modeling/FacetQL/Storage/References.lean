import FacetQL.Lib.Fallible
import FacetQL.Storage.Query
import FacetQL.Storage.Compaction

/-!
# What is refused before it is logged

The declared references of `storage/reference.rs`, and the checks that operations pass before
they reach the log: the keys of the base indexes and of the declared ones, the unique indexes
(`check_unique`) and the references (`check_references` of `storage/engine.rs`).
-/

namespace FacetQL

/-- What the removal of a node does to the nodes that reference it. -/
inductive ReferentialAction
  | cascade
  | restrict
  | setNull
  deriving DecidableEq, Repr

/-- A field of a kind that references a node of the parent kind, by address or by a field. -/
structure ReferenceDef where
  name : String
  kind : String
  field : String
  parentKind : String
  parentField : Option String
  onDelete : ReferentialAction
  deriving DecidableEq, Repr

/-- The declared references, in the order of their names. -/
abbrev References := List ReferenceDef

namespace References

/-- The references that a node of this kind carries. -/
def forChild (references : References) (kind : String) : List ReferenceDef :=
  references.filter fun decl => decl.kind == kind

/-- The references that point at this kind. -/
def forParent (references : References) (kind : String) : List ReferenceDef :=
  references.filter fun decl => decl.parentKind == kind

end References

namespace ReferenceDef

variable (J : SerdeJson)

/-- The value that a node holds in the referencing field. Absent and `null` are the same. -/
def referencingKey (decl : ReferenceDef) (node : Node) : Option J.Value :=
  (J.dataField node.data decl.field).filter fun value => !value.isNull

/-- The value that a node is referenced by. -/
def referencedKey (decl : ReferenceDef) (node : Node) : Option J.Value :=
  match decl.parentField with
  | none => some (.string node.address)
  | some field => (J.dataField node.data field).filter fun value => !value.isNull

end ReferenceDef

/-- The node with one field of its data set to `null`. -/
def withFieldNull (J : SerdeJson) (node : Node) (field : String) : Except String Node :=
  match J.parse node.data with
  | none => .error ("cannot clear " ++ node.address ++ "." ++ field ++
      ": its data is not a JSON object (" ++ J.parseError node.data ++ ")")
  | some (.object fields) =>
    .ok { node with data := J.print (.object (SortedMap.insert field .null fields)) }
  | some _ => .error ("cannot clear " ++ node.address ++ "." ++ field ++
      ": its data is not a JSON object")

/-! ## Keys -/

/-- The longest that the encoding of a value can be in an index over a field. -/
def maxIndexValueLen : Nat := 512

/-- The longest text that an inverted index takes. -/
def maxTextValueLen : Nat := 16 * 1024

section Keys

variable (st : Settings)

/-- Refuse a node whose values are too long for the indexes. -/
def checkDataKeys (decls : List IndexDef) (address data : String) : Except String Unit :=
  decls.forM fun decl =>
    let encoded := Keys.encodeOrderValue st.json (st.json.dataField data decl.field)
    if maxIndexValueLen < encoded.length then
      .error ("field '" ++ decl.field ++ "' is " ++ toString encoded.length ++
        " bytes encoded, over the " ++ toString maxIndexValueLen ++ "-byte maximum for index '" ++
        decl.name ++ "'")
    else checkKeyAdmissible ("'" ++ decl.name ++ "'") (encoded.length + address.utf8ByteSize)

/-- Refuse a node whose texts are too long for the text indexes. -/
def checkTextKeys (decls : List TextIndexDef) (address data : String) : Except String Unit :=
  decls.forM fun decl =>
    match (st.json.dataField data decl.field).bind Json.asStr with
    | none => .ok ()
    | some raw =>
      let text := decl.indexedForm st raw
      if maxTextValueLen < text.utf8ByteSize then
        .error ("field '" ++ decl.field ++ "' holds " ++ toString text.utf8ByteSize ++
          " bytes of text, over the " ++ toString maxTextValueLen ++
          "-byte maximum for the inverted index '" ++ decl.name ++ "'. Every byte is a posting, " ++
          "so the bound is a bound on how much index writing one request may impose.")
      else if BTree.maxKeyLen < Keys.gramLen + address.utf8ByteSize then
        .error ("the '" ++ decl.name ++ "' index key would be " ++
          toString (Keys.gramLen + address.utf8ByteSize) ++ " bytes; the maximum is " ++
          toString BTree.maxKeyLen)
      else .ok ()

namespace View

/-- The indexes over fields that are declared for a kind. -/
def dataForKind (v : View) (kind : String) : List DataIndex :=
  (v.data.map Prod.snd).filter fun index => index.decl.kind == kind

/-- The text indexes over a kind. -/
def textForKind (v : View) (kind : String) : List TextIndex :=
  (v.text.map Prod.snd).filter fun index => index.decl.kind == kind

/-- `Operation::validate`, with the declared indexes. -/
def validate (v : View) (op : Operation) : Except String Unit := do
  op.validate
  match op with
  | .insert node =>
    checkDataKeys st ((v.dataForKind node.kind).map DataIndex.decl) node.address node.data
    checkTextKeys st ((v.textForKind node.kind).map TextIndex.decl) node.address node.data
  | _ => .ok ()

/-! ## Unique indexes -/

/-- The addresses whose values a batch frees. -/
def releasedBy (ops : List Operation) : List String :=
  ops.filterMap fun
    | .delete address => some address
    | .insert node => some node.address
    | _ => none

/-- Who, other than a node and the released ones, holds a value in an index. -/
def otherHolder (tree : Entries Unit) (pre : Bytes) (address : String) (released : List String) :
    Except IoError (Option String) :=
  tree.forEachRange pre none false
    (fun key _ found =>
      match (Keys.addressFromDataKey key).map st.fromUtf8Lossy with
      | some holder =>
        if holder = address ∨ holder ∈ released then .ok (true, found)
        else .ok (false, some holder)
      | none => .ok (true, found)) none

/-- What a batch has claimed so far: the name of an index, a value and the address. -/
abbrev Claimed := List (String × Bytes × String)

/-- A node claims its value in one unique index. -/
def claimValue (released : List String) (node : Node) (claimed : Claimed) (index : DataIndex) :
    Except String Claimed :=
  let pre := Keys.encodeOrderValue st.json (st.json.dataField node.data index.decl.field)
  match claimed.find? fun c => c.1 == index.decl.name && c.2.1 == pre with
  | some (_, _, other) =>
    .error ("unique index " ++ st.json.debugStr index.decl.name ++ ": this batch gives both " ++
      st.json.debugStr other ++ " and " ++ st.json.debugStr node.address ++
      "                          the same " ++ st.json.debugStr index.decl.field)
  | none =>
    match otherHolder st index.tree pre node.address released with
    | .error e => .error e.message
    | .ok (some holder) =>
      .error ("unique index " ++ st.json.debugStr index.decl.name ++ ": " ++
        st.json.debugStr index.decl.field ++ " is already held by " ++ st.json.debugStr holder)
    | .ok none => .ok (claimed ++ [(index.decl.name, pre, node.address)])

/-- Refuse a batch that would give two nodes one value of a unique index. -/
def checkUnique (v : View) (ops : List Operation) : Except String Unit := do
  let _ ← ops.foldlM (fun claimed op =>
    match op with
    | .insert node =>
      ((v.dataForKind node.kind).filter fun index => index.decl.unique).foldlM
        (claimValue st (releasedBy ops) node) claimed
    | _ => .ok claimed) ([] : Claimed)
  return ()

/-! ## References -/

/-- Does a value name a live node of the referenced kind, other than the removed ones? -/
def resolvesCommitted (v : View) (decl : ReferenceDef) (key : st.json.Value)
    (deleted : List String) : Except String Bool :=
  match decl.parentField with
  | none =>
    match key.asStr with
    | none => .ok false
    | some address =>
      if address ∈ deleted then .ok false
      else
        match v.readNode address with
        | .error e => .error e.message
        | .ok node => .ok (node.any fun node => node.kind == decl.parentKind)
  | some field =>
    match v.dataFind decl.parentKind field with
    | none => .error ("reference " ++ st.json.debugStr decl.name ++
        " cannot be enforced: the unique index over " ++ decl.parentKind ++ "." ++ field ++
        " it resolves through is gone")
    | some index =>
      ioMessage (index.tree.forEachRange (Keys.encodeOrderValue st.json (some key)) none false
        (fun entry _ found =>
          match Keys.addressFromDataKey entry with
          | none => .ok (true, found)
          | some raw =>
            if st.fromUtf8Lossy raw ∈ deleted then .ok (true, found) else .ok (false, true)) false)

/-- What a batch leaves present, and what it leaves gone. -/
def netEffect (ops : List Operation) : List (String × Node) × List String :=
  ops.foldl (fun (inserted, deleted) op =>
    match op with
    | .insert node =>
      (SortedMap.insert node.address node inserted, deleted.filter fun a => a != node.address)
    | .delete address => (SortedMap.erase address inserted, address :: deleted)
    | _ => (inserted, deleted)) ([], [])

/-- Refuse a batch that would leave a node referencing something that is not there. -/
def checkReferences (references : References) (v : View) (ops : List Operation) :
    Except String Unit :=
  if references.isEmpty then .ok ()
  else
    let (inserted, deleted) := netEffect ops
    inserted.forM fun (_, node) =>
      (references.forChild node.kind).forM fun decl =>
        match decl.referencingKey st.json node with
        | none => .ok ()
        | some key => do
          -- The parents that the batch itself writes.
          let satisfied := (inserted.filter fun e => e.2.kind == decl.parentKind).filterMap fun e =>
            (decl.referencedKey st.json e.2).map st.json.print
          if st.json.print key ∈ satisfied then return ()
          if ← v.resolvesCommitted st decl key deleted then return ()
          .error ("reference " ++ st.json.debugStr decl.name ++ ": " ++ node.address ++ " holds " ++
            decl.field ++ "=" ++ st.json.print key ++ " which is not a live " ++ decl.parentKind)

end View

end Keys

end FacetQL
