import FacetQL.Storage.View

/-!
# Queries

The reads of `storage/engine.rs`: a node, its history and its edges, the listing `query`, and
the filtered and ordered page `query_where` with its plans. A page is read through the index
that serves the predicate and the order, if there is one, and sorted in memory otherwise.
-/

namespace FacetQL

/-- Address knowledge alone grants no access. -/
def Node.canRead (node : Node) (requester : String) : Bool :=
  node.visibility == .pub || node.owner == requester

/-- Only the owner may change a node. -/
def Node.canWrite (node : Node) (requester : String) : Bool := node.owner == requester

/-- The refusal of a scan of too many rows. -/
def Settings.scanLimitExceeded (st : Settings) (what : String) : IoError :=
  ⟨.invalidInput, what ++ " would materialize more than " ++ toString st.maxScanRows ++
    " rows, the maximum one request may hold in memory. Narrow the query (a smaller " ++
    "`kind`/`owner` range, or a predicate), page through it, or " ++
    "raise FACETQL_MAX_SCAN_ROWS."⟩

/-- The refusal of an offset that is too large. -/
def Settings.offsetTooLarge (st : Settings) (offset : Nat) : IoError :=
  ⟨.invalidInput, "offset " ++ toString offset ++ " is above the maximum of " ++
    toString st.maxQueryOffset ++ ". Deep offset " ++
    "paging re-reads and discards every row before the page, so " ++
    "its cost grows with the page number; use the keyset cursor " ++
    "(`after`, from a previous page's `next`) on POST /nodes/query, " ++
    "which costs the same at any depth. Raise FACETQL_MAX_QUERY_OFFSET to override."⟩

namespace View

variable (st : Settings)

/-! ## Nodes, histories and edges -/

/-- The node at an address. -/
def get (v : View) (address : String) : Except IoError (Option Node) := v.readNode address

/-- The records under one beginning of a key. -/
def collectRange {α : Type} (what : String) (pre : Bytes) (entries : Entries (Except IoError α)) :
    Except IoError (List α) :=
  entries.forEachRange pre none false
    (fun _ entry found =>
      if st.maxScanRows ≤ found.length then .error (st.scanLimitExceeded what)
      else entry.map fun record => (true, found ++ [record])) []

/-- The history of a node. -/
def historyFor (v : View) (address : String) : Except IoError (List HistoryEntry) :=
  collectRange st "this node's history" (Keys.historyPrefix address) v.history

/-- The edges from a node. -/
def edgesFrom (v : View) (address : String) : Except IoError (List Edge) :=
  collectRange st "this node's edge list" (Keys.edgeOutPrefix address) v.edgeOut

/-- The edges to a node. -/
def edgesTo (v : View) (address : String) : Except IoError (List Edge) :=
  collectRange st "this node's edge list" (Keys.edgeInPrefix address) v.edgeIn

/-! ## The listing -/

/-- The filters of a query that need no predicate. A requester that is absent is an admin. -/
def passes (kind owner requester : Option String) (node : Node) : Bool :=
  kind.all (node.kind == ·) && owner.all (node.owner == ·) && requester.all node.canRead

/-- Nodes that pass the filters, in the order of their addresses. -/
def query (v : View) (kind owner requester : Option String) (limit offset : Nat) :
    Except IoError (List Node) :=
  if limit = 0 then .ok []
  else if st.maxQueryOffset < offset then .error (st.offsetTooLarge offset)
  else
    (v.scanCandidates st kind owner none false
      (fun node (skipped, nodes) =>
        if !passes kind owner requester node then .ok (true, skipped, nodes)
        else if skipped < offset then .ok (true, skipped + 1, nodes)
        else .ok (nodes.length + 1 < limit, skipped, nodes ++ [node]))
      (0, [])).map Prod.snd

end View

/-! ## Cursors -/

/-- The order value and the address of the last row of a page. -/
structure Cursor (J : SerdeJson) where
  o : Option J.Value
  a : String

/-- The longest cursor that is accepted. -/
def maxCursorLen : Nat := 4 * 1024

/-- The digits of base64 for URLs. -/
def b64url : List Char :=
  "ABCDEFGHIJKLMNOPQRSTUVWXYZabcdefghijklmnopqrstuvwxyz0123456789-_".toList

/-- The digit of six bits. -/
def b64digit (n : Nat) : Char := b64url.getD (n % 64) 'A'

/-- Three bytes as four digits; what is left over makes fewer of them. -/
def base64urlEncode : Bytes → List Char
  | [] => []
  | [b0] =>
    let n := b0.val * 65536
    [b64digit (n / 262144), b64digit (n / 4096)]
  | [b0, b1] =>
    let n := b0.val * 65536 + b1.val * 256
    [b64digit (n / 262144), b64digit (n / 4096), b64digit (n / 64)]
  | b0 :: b1 :: b2 :: rest =>
    let n := b0.val * 65536 + b1.val * 256 + b2.val
    b64digit (n / 262144) :: b64digit (n / 4096) :: b64digit (n / 64) :: b64digit n ::
      base64urlEncode rest

/-- The value of a digit. -/
def b64val (b : Byte) : Option Nat := b64url.findIdx? fun c => c.toNat == b.val

/-- The bytes that base64 digits stand for. -/
def base64urlDecode : Bytes → Option Bytes
  | [] => some []
  | [_] => none
  | [c0, c1] => do
    let n := (← b64val c0) * 262144 + (← b64val c1) * 4096
    return [Fin.ofNat 256 (n / 65536)]
  | [c0, c1, c2] => do
    let n := (← b64val c0) * 262144 + (← b64val c1) * 4096 + (← b64val c2) * 64
    return [Fin.ofNat 256 (n / 65536), Fin.ofNat 256 (n / 256)]
  | c0 :: c1 :: c2 :: c3 :: rest => do
    let n := (← b64val c0) * 262144 + (← b64val c1) * 4096 + (← b64val c2) * 64 + (← b64val c3)
    let bytes ← base64urlDecode rest
    return Fin.ofNat 256 (n / 65536) :: Fin.ofNat 256 (n / 256) :: Fin.ofNat 256 n :: bytes

namespace Cursor

variable {J : SerdeJson}

/-- The value of a field of a node by which it is ordered. -/
def orderKey (J : SerdeJson) (node : Node) (field : String) : Option J.Value :=
  J.dataField node.data field

/-- The cursor behind a row. -/
def fromNode (node : Node) (orderField : Option String) : Cursor J :=
  ⟨orderField.bind (orderKey J node), node.address⟩

/-- The text of a cursor. -/
def encode (c : Cursor J) : String := String.ofList (base64urlEncode (J.encodeCursor c.o c.a))

/-- The cursor of a text. -/
def decode (J : SerdeJson) (s : String) : Except String (Cursor J) :=
  let length := (utf8 s).length
  if maxCursorLen < length then
    .error ("invalid cursor: " ++ toString length ++ " bytes, over the " ++ toString maxCursorLen ++
      "-byte maximum — this is not a cursor this server issued")
  else
    match base64urlDecode (utf8 s) with
    | none => .error "invalid cursor: not valid base64url"
    | some bytes =>
      match J.decodeCursor bytes with
      | none => .error "invalid cursor: malformed payload"
      | some (o, a) => .ok ⟨o, a⟩

end Cursor

/-- A node against a cursor, in ascending order. -/
def cmpNodeToCursor (J : SerdeJson) (node : Node) (orderField : Option String) (c : Cursor J) :
    Ordering :=
  let tiebreak := cmp (utf8 node.address) (utf8 c.a)
  match orderField with
  | some field => (Keys.compareOrderValues J (Cursor.orderKey J node field) c.o).then tiebreak
  | none => tiebreak

/-! ## The page -/

/-- A page of rows, where the next one starts, and how many nodes have been looked at. -/
structure QueryPage where
  nodes : List Node
  next : String
  examined : Nat
  deriving DecidableEq, Repr

/-- A page that is being read. -/
structure Walk where
  nodes : List Node := []
  skipped : Nat := 0
  more : Bool := false
  failure : Option String := none
  examined : Nat := 0

namespace Walk

/-- One more candidate: it is tested, skipped, or taken, and one past the page ends the walk. -/
def visit (test : Node → Except String Bool) (limit toSkip : Nat) (node : Node) (w : Walk) :
    Bool × Walk :=
  let w := { w with examined := w.examined + 1 }
  match test node with
  | .error e => (false, { w with failure := some e })
  | .ok false => (true, w)
  | .ok true =>
    if w.skipped < toSkip then (true, { w with skipped := w.skipped + 1 })
    else if w.nodes.length = limit then (false, { w with more := true })
    else (true, { w with nodes := w.nodes ++ [node] })

/-- The page that has been read, with a cursor if there is more. -/
def page (J : SerdeJson) (orderField : Option String) (w : Walk) : Except String QueryPage :=
  match w.failure with
  | some e => .error e
  | none =>
    let next := match w.nodes.getLast? with
      | some last => if w.more then (Cursor.fromNode (J := J) last orderField).encode else ""
      | none => ""
    .ok ⟨w.nodes, next, w.examined⟩

end Walk

namespace View

variable (st : Settings)

/-- An I/O error, as its message. -/
def ioMessage {α : Type} (x : Except IoError α) : Except String α := x.mapError IoError.message

/-- Does a node match the query? -/
def matchesQuery (kind owner requester : Option String) (predicate : Option (Expr st.json.Number))
    (itemVar : String) (node : Node) : Except String Bool :=
  if !passes kind owner requester node then .ok false
  else
    match predicate with
    | none => .ok true
    | some expr =>
      let data := (st.json.parse node.data).getD .null
      match Predicate.eval st.json st.lowerTable expr itemVar data with
      | .ok (.bool true) => .ok true
      | .ok _ => .ok false
      | .error e => .error ("predicate evaluation failed: " ++ e)

/-- Visit the nodes with these addresses. -/
def walkAddresses {β : Type} (v : View) (visit : Node → β → Except IoError (Bool × β)) :
    List String → β → Except IoError β
  | [], b => .ok b
  | address :: addresses, b =>
    match v.readNode address with
    | .error e => .error e
    | .ok none => walkAddresses v visit addresses b
    | .ok (some node) =>
      match visit node b with
      | .error e => .error e
      | .ok (true, b) => walkAddresses v visit addresses b
      | .ok (false, b) => .ok b

/-- Visit the nodes under one beginning of a key of an index over a field. -/
def walkIndex {β : Type} (v : View) (tree : Entries Unit) (pre : Bytes) (after : Option Bytes)
    (desc : Bool) (visit : Node → β → Except IoError (Bool × β)) (b : β) : Except IoError β :=
  tree.forEachRange pre after desc
    (fun key _ b =>
      match Keys.addressFromDataKey key with
      | none => .ok (true, b)
      | some raw =>
        match v.readNode (st.fromUtf8Lossy raw) with
        | .error e => .error e
        | .ok none => .ok (true, b)
        | .ok (some node) => visit node b) b

section Plans

variable (v : View) (cursor : Option (Cursor st.json)) (desc : Bool) (limit offset : Nat)
  (test : Node → Except String Bool)

/-- How many rows a page skips: a cursor supersedes the offset. -/
def toSkip : Nat := if cursor.isSome then 0 else offset

/-- The page in the order of the addresses. -/
def queryByAddress (kind owner : Option String) : Except String QueryPage := do
  let w ← ioMessage (v.scanCandidates st kind owner (cursor.map Cursor.a) desc
    (fun node w => .ok (Walk.visit test limit (toSkip st cursor offset) node w)) {})
  w.page st.json none

/-- The page under one beginning of a key of an index. -/
def queryByKeyPrefix (index : DataIndex) (pre : Bytes) : Except String QueryPage := do
  let after := cursor.map fun c => Keys.dataKey st.json c.o c.a
  let w ← ioMessage (v.walkIndex st index.tree pre after desc
    (fun node w => .ok (Walk.visit test limit (toSkip st cursor offset) node w)) {})
  w.page st.json (some index.decl.field)

/-- The page under one value of an index. -/
def queryByDataPrefix (index : DataIndex) (literal : st.json.Value) : Except String QueryPage :=
  queryByKeyPrefix st v cursor desc limit offset test index
    (Keys.encodeOrderValue st.json (some literal))

/-- The index over exactly this field. -/
def dataFind (v : View) (kind field : String) : Option DataIndex :=
  (v.data.map Prod.snd).find? fun index => index.decl.kind == kind && index.decl.field == field

/-- The page in the order of an index. -/
def queryByDataIndex (kind field : String) : Except String QueryPage :=
  match v.dataFind kind field with
  | none => .error ("no index over " ++ kind ++ "." ++ field)
  | some index => do
    let after := cursor.map fun c => Keys.dataKey st.json c.o c.a
    let w ← ioMessage (v.walkIndex st index.tree [] after desc
      (fun node w => .ok (Walk.visit test limit (toSkip st cursor offset) node w)) {})
    w.page st.json (some field)

/-- The page over the candidates of an inverted index, which stand in ascending order. -/
def queryByText (candidates : List String) : Except String QueryPage := do
  let slice := match cursor with
    | some c =>
      if desc then candidates.takeWhile fun a => utf8 a < utf8 c.a
      else candidates.dropWhile fun a => utf8 a ≤ utf8 c.a
    | none => candidates
  let w ← ioMessage (v.walkAddresses
    (fun node w => .ok (Walk.visit test limit (toSkip st cursor offset) node w))
    (if desc then slice.reverse else slice) {})
  w.page st.json none

/-- The index and the value that the predicate pins a field to. -/
def equalitySelection (kind : Option String) (predicate : Option (Expr st.json.Number))
    (itemVar : String) : Option (DataIndex × st.json.Value) :=
  match kind, predicate with
  | some kind, some predicate =>
    (v.data.map Prod.snd).findSome? fun index =>
      if index.decl.kind ≠ kind then none
      else (Predicate.equalityLiteral st.json predicate itemVar index.decl.field).map (index, ·)
  | _, _ => none

/-- One more candidate of a page that is sorted in memory. -/
def takeCandidate (node : Node) (w : Walk) : Except IoError (Bool × Walk) :=
  let w := { w with examined := w.examined + 1 }
  match test node with
  | .ok true =>
    if st.maxScanRows ≤ w.nodes.length then
      .error (st.scanLimitExceeded "ordering by an unindexed field")
    else .ok (true, { w with nodes := w.nodes ++ [node] })
  | .ok false => .ok (true, w)
  | .error e => .ok (false, { w with failure := some e })

/-- The order of a page: by the value of a field, and then by address. -/
def comesBefore (orderField : Option String) (a b : Node) : Bool :=
  let base := match orderField with
    | some field =>
      Keys.compareOrderValues st.json (Cursor.orderKey st.json a field) (Cursor.orderKey st.json b field)
    | none => .eq
  base.then (cmp (utf8 a.address) (utf8 b.address)) != .gt

/-- Where a page starts among the rows. -/
def startOf (orderField : Option String) (rows : List Node) : Nat :=
  match cursor with
  | some c =>
    rows.findIdx fun node =>
      cmpNodeToCursor st.json node orderField c == if desc then .lt else .gt
  | none => min offset rows.length

/-- The page that is cut out of the rows once they are sorted. -/
def sortedPage (orderField : Option String) (w : Walk) : Except String QueryPage :=
  match w.failure with
  | some e => .error e
  | none =>
    let ascending := w.nodes.mergeSort (comesBefore st orderField)
    let rows := if desc then ascending.reverse else ascending
    let start := startOf st cursor desc offset orderField rows
    let page := (rows.drop start).take limit
    let next := match page.getLast? with
      | some last =>
        if start + page.length < rows.length then
          (Cursor.fromNode (J := st.json) last orderField).encode
        else ""
      | none => ""
    .ok ⟨page, next, w.examined⟩

/-- The page whose rows are read through whatever selects them, and sorted. -/
def querySorted (kind owner orderField : Option String) (predicate : Option (Expr st.json.Number))
    (itemVar : String) (textCandidates : Option (List String)) : Except String QueryPage := do
  let w ← match equalitySelection st v kind predicate itemVar with
    | some (index, literal) =>
      ioMessage (v.walkIndex st index.tree (Keys.encodeOrderValue st.json (some literal)) none false
        (takeCandidate st test) {})
    | none =>
      match textCandidates with
      | some addresses => ioMessage (v.walkAddresses (takeCandidate st test) addresses {})
      | none => ioMessage (v.scanCandidates st kind owner none false (takeCandidate st test) {})
  sortedPage st cursor desc limit offset orderField w

end Plans

/-! ## The postings of a substring -/

/-- The most grams that are tried as seeds. -/
def maxTextSeedGrams : Nat := 4

/-- So few candidates need no better seed. -/
def maxTextSeedEnough : Nat := 1024

/-- The most grams that candidates are probed with. -/
def maxTextProbeGrams : Nat := 16

/-- So few candidates need no more probing. -/
def maxTextProbeFloor : Nat := 64

/-- The hunt for a short list of postings: the shortest so far, and what may still be read. -/
structure Seed where
  best : Option (Entries String)
  bestLen : Nat
  budget : Nat

/-- The addresses under a trigram, how many were read, and whether there are more than `limit`. -/
def readPostings (tree : Entries Unit) (gram : Bytes) (limit : Nat) :
    Except IoError (Entries String × Nat × Bool) :=
  tree.forEachRange gram none false
    (fun key _ (list, read, exceeded) =>
      if limit ≤ read then .ok (false, list, read, true)
      else
        let list := match Keys.addressFromTextKey key with
          | some raw =>
            SortedMap.insert (utf8 (st.fromUtf8Lossy raw)) (st.fromUtf8Lossy raw) list
          | none => list
        .ok (true, list, read + 1, exceeded)) ([], 0, false)

/-- Find the gram with the fewest postings. -/
def seedHunt (tree : Entries Unit) : List Bytes → Seed → Except IoError Seed
  | [], s => .ok s
  | gram :: grams, s =>
    let limit := min s.bestLen s.budget
    if limit = 0 then .ok s
    else
      match readPostings st tree gram limit with
      | .error e => .error e
      | .ok (list, read, exceeded) =>
        let s := { s with budget := s.budget - read }
        if exceeded then seedHunt tree grams s
        else
          let s := { s with best := some list, bestLen := list.length }
          if list.length ≤ maxTextSeedEnough then .ok s else seedHunt tree grams s

/-- Keep the candidates that have the other trigrams too, while that is worth it. -/
def probeGrams (tree : Entries Unit) : List Bytes → (budget : Nat) → Entries String → Entries String
  | [], _, candidates => candidates
  | gram :: grams, budget, candidates =>
    if candidates.length ≤ maxTextProbeFloor ∨ budget < candidates.length then candidates
    else
      probeGrams tree grams (budget - candidates.length) (candidates.filter fun e =>
        (SortedMap.find (Keys.textKey gram e.2) tree).isSome)

/-- The addresses that have the trigrams, or none if every list of postings is too long. -/
def textCandidates (index : TextIndex) (grams : List Bytes) : Except IoError (Option (List String)) :=
  match seedHunt st index.tree (grams.take maxTextSeedGrams) ⟨none, st.maxScanRows, st.maxScanRows⟩ with
  | .error e => .error e
  | .ok ⟨none, _, _⟩ => .ok none
  | .ok ⟨some best, _, _⟩ =>
    .ok (some ((probeGrams index.tree (grams.take maxTextProbeGrams) st.maxScanRows best).map Prod.snd))

/-- The texts that a predicate requires of the field of an inverted index. -/
def requiredTexts (predicate : Expr st.json.Number) (itemVar : String) (decl : TextIndexDef) :
    List String :=
  if decl.folded then Predicate.loweredSubstringLiterals st.json predicate itemVar decl.field
  else Predicate.substringLiterals st.json predicate itemVar decl.field

/-- The distinct trigrams of some texts, in order. -/
def gramsOf (texts : List String) : List Bytes :=
  ((texts.flatMap Keys.grams).foldl (fun set gram => SortedMap.insert gram () set) []).map Prod.fst

/-- The rows that a substring predicate can match, from the first index that serves it. -/
def textPlanOf (kind : String) (predicate : Expr st.json.Number) (itemVar : String) :
    List TextIndex → Except IoError (Option (List String))
  | [] => .ok none
  | index :: indexes =>
    let grams := gramsOf (requiredTexts st predicate itemVar index.decl)
    if index.decl.kind ≠ kind ∨ grams = [] then textPlanOf kind predicate itemVar indexes
    else
      match textCandidates st index grams with
      | .error e => .error e
      | .ok (some candidates) => .ok (some candidates)
      | .ok none => textPlanOf kind predicate itemVar indexes

/-- The candidates of a predicate, from a text index. -/
def textCandidatePlan (v : View) (kind : Option String) (predicate : Option (Expr st.json.Number))
    (itemVar : String) : Except IoError (Option (List String)) :=
  match kind, predicate with
  | some kind, some predicate => textPlanOf st kind predicate itemVar (v.text.map Prod.snd)
  | _, _ => .ok none

/-! ## The plan of a query -/

/-- The index and the value for which the page under one value serves the order, too. -/
def equalityPrefixPlan (v : View) (kind orderField : Option String)
    (predicate : Option (Expr st.json.Number)) (itemVar : String) :
    Option (DataIndex × st.json.Value) :=
  (equalitySelection st v kind predicate itemVar).filter fun (index, _) =>
    orderField.all (· == index.decl.field)

/-- The index and the text for which the page under a beginning serves the order. -/
def stringPrefixPlan (v : View) (kind orderField : Option String)
    (predicate : Option (Expr st.json.Number)) (itemVar : String) : Option (DataIndex × String) := do
  let kind ← kind
  let predicate ← predicate
  let order ← orderField
  let index ← v.dataFind kind order
  let literal ← Predicate.prefixLiteral st.json predicate itemVar index.decl.field
  return (index, literal)

/-- Choose the plan and read the page. -/
def runPlan (v : View) (kind owner orderField : Option String)
    (predicate : Option (Expr st.json.Number)) (itemVar : String)
    (cursor : Option (Cursor st.json)) (desc : Bool) (limit offset : Nat)
    (test : Node → Except String Bool) : Except String QueryPage :=
  match equalityPrefixPlan st v kind orderField predicate itemVar with
  | some (index, literal) => queryByDataPrefix st v cursor desc limit offset test index literal
  | none =>
    match stringPrefixPlan st v kind orderField predicate itemVar with
    | some (index, literal) =>
      queryByKeyPrefix st v cursor desc limit offset test index
        (Keys.encodeStringPrefix st.json literal)
    | none =>
      match orderField with
      | none => do
        match ← ioMessage (textCandidatePlan st v kind predicate itemVar) with
        | some candidates => queryByText st v cursor desc limit offset test candidates
        | none => queryByAddress st v cursor desc limit offset test kind owner
      | some field =>
        match kind.bind fun k => (v.dataFind k field).map fun _ => k with
        | some k => queryByDataIndex st v cursor desc limit offset test k field
        | none => do
          let candidates ← match equalitySelection st v kind predicate itemVar with
            | some _ => pure none
            | none => ioMessage (textCandidatePlan st v kind predicate itemVar)
          querySorted st v cursor desc limit offset test kind owner (some field) predicate itemVar
            candidates

/-- A page of the nodes that match, in order. -/
def queryWhere (v : View) (kind owner requester : Option String)
    (predicate : Option (Expr st.json.Number)) (itemVar : String) (order : Option String)
    (desc : Bool) (after : Option String) (limit offset : Nat) : Except String QueryPage := do
  let after := after.filter (· ≠ "")
  if after.isNone ∧ st.maxQueryOffset < offset then throw (st.offsetTooLarge offset).message
  let orderField := order.filter (· ≠ "id")
  let cursor ← after.mapM (Cursor.decode st.json)
  runPlan st v kind owner orderField predicate itemVar cursor desc limit offset
    (matchesQuery st kind owner requester predicate itemVar)

end View

end FacetQL
