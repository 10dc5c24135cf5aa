import FacetQL.Storage.Consistency

/-!
# Cursors that come back

A page that is not the last one carries a cursor, the order value and the address of its last row in
base64 for URLs. The text that the server reads back is bounded, but nothing bounds the order value
that it is made from, and a null is read back as no value at all.

* `issued_cursor_decodes_iff`: when the cursor of a page comes back.
-/

namespace FacetQL

open JsonText (chars json json_ordered parse_print print textChars)

/-! ## Base64 for URLs -/

theorem b64digit_mod (n : Nat) : b64digit (n % 64) = b64digit n := by
  rw [b64digit, b64digit, Nat.mod_mod]

theorem b64val_b64digit (n : Nat) : b64val (Fin.ofNat 256 (b64digit n).toNat) = some (n % 64) := by
  have hall : ∀ d : Fin 64, b64val (Fin.ofNat 256 (b64digit d.val).toNat) = some d.val := by
    decide +kernel
  rw [← b64digit_mod]
  exact hall ⟨n % 64, Nat.mod_lt _ (by norm_num)⟩

theorem asBytes_b64digit (n : Nat) : asBytes [b64digit n] = [Fin.ofNat 256 (b64digit n).toNat] := by
  have hall : ∀ d : Fin 64,
      asBytes [b64digit d.val] = [Fin.ofNat 256 (b64digit d.val).toNat] := by decide +kernel
  rw [← b64digit_mod]
  exact hall ⟨n % 64, Nat.mod_lt _ (by norm_num)⟩

/-- Digits stand for themselves in UTF-8, so that a text of them has a byte a digit. -/
theorem asBytes_base64urlEncode (bytes : Bytes) :
    asBytes (base64urlEncode bytes) =
      (base64urlEncode bytes).map fun c => Fin.ofNat 256 c.toNat := by
  have hcons (n : Nat) (text : List Char) : asBytes (b64digit n :: text) =
      Fin.ofNat 256 (b64digit n).toNat :: asBytes text := by
    rw [← List.singleton_append, asBytes_append, asBytes_b64digit, List.singleton_append]
  induction bytes using base64urlEncode.induct <;>
    simp_all [base64urlEncode, asBytes_nil]

theorem length_base64urlEncode (bytes : Bytes) :
    (base64urlEncode bytes).length = (4 * bytes.length + 2) / 3 := by
  induction bytes using base64urlEncode.induct with
  | case1 => rfl
  | case2 | case3 => simp only [base64urlEncode, List.length_cons, List.length_nil]
  | case4 b0 b1 b2 rest ih =>
    simp only [base64urlEncode, List.length_cons, ih]
    omega

/-- The codec is lossless, for every length. -/
theorem base64urlDecode_base64urlEncode (bytes : Bytes) :
    base64urlDecode (asBytes (base64urlEncode bytes)) = some bytes := by
  rw [asBytes_base64urlEncode]
  induction bytes using base64urlEncode.induct with
  | case1 => rfl
  | case2 b0 =>
    simp only [base64urlEncode, List.map_cons, List.map_nil, base64urlDecode, b64val_b64digit,
      Option.bind_eq_bind, Option.bind_some, Option.pure_def, Option.some.injEq, List.cons.injEq,
      and_true]
    apply Fin.ext
    simp only [Fin.ofNat]
    omega
  | case3 b0 b1 =>
    simp only [base64urlEncode, List.map_cons, List.map_nil, base64urlDecode, b64val_b64digit,
      Option.bind_eq_bind, Option.bind_some, Option.pure_def, Option.some.injEq, List.cons.injEq,
      and_true]
    constructor <;>
    · apply Fin.ext
      simp only [Fin.ofNat]
      omega
  | case4 b0 b1 b2 rest ih =>
    simp only [base64urlEncode, List.map_cons, base64urlDecode, b64val_b64digit, ih,
      Option.bind_eq_bind, Option.bind_some, Option.pure_def, Option.some.injEq, List.cons.injEq,
      and_true]
    refine ⟨?_, ?_, ?_⟩ <;>
    · apply Fin.ext
      simp only [Fin.ofNat]
      omega

/-! ## A cursor that comes back -/

namespace Cursor

variable {J : SerdeJson}

theorem utf8_encode (c : Cursor J) :
    utf8 c.encode = asBytes (base64urlEncode (J.encodeCursor c.o c.a)) := by
  rw [utf8, encode, String.toList_ofList]

theorem length_utf8_encode (c : Cursor J) :
    (utf8 c.encode).length = (4 * (J.encodeCursor c.o c.a).length + 2) / 3 := by
  rw [utf8_encode, asBytes_base64urlEncode, List.length_map, length_base64urlEncode]

theorem decode_encode_of_long {c : Cursor J}
    (h : 3 * maxCursorLen < 4 * (J.encodeCursor c.o c.a).length) :
    ∃ e, decode J c.encode = .error e := by
  have hlong : maxCursorLen < (utf8 c.encode).length := by
    rw [length_utf8_encode]
    omega
  exact ⟨_, if_pos hlong⟩

theorem decode_encode_of_short (hJ : J.CursorRoundTrips) {c : Cursor J}
    (hcanonical : ∀ value ∈ c.o, value.Canonical)
    (h : 4 * (J.encodeCursor c.o c.a).length ≤ 3 * maxCursorLen) :
    decode J c.encode = .ok ⟨c.o.filter fun value => !value.isNull, c.a⟩ := by
  have hshort : ¬ maxCursorLen < (utf8 c.encode).length := by
    rw [length_utf8_encode]
    omega
  rw [decode, if_neg hshort, utf8_encode, base64urlDecode_base64urlEncode]
  simp only [hJ c.o c.a hcanonical]

/-- A cursor comes back as it was if its contents fit and it has no null for its order value. -/
theorem decode_encode_iff (hJ : J.CursorRoundTrips) {c : Cursor J}
    (hcanonical : ∀ value ∈ c.o, value.Canonical) :
    decode J c.encode = .ok c ↔
      4 * (J.encodeCursor c.o c.a).length ≤ 3 * maxCursorLen ∧
        ∀ value ∈ c.o, value.isNull = false := by
  rcases Nat.lt_or_ge (3 * maxCursorLen) (4 * (J.encodeCursor c.o c.a).length) with hlong | hshort
  · obtain ⟨e, he⟩ := decode_encode_of_long hlong
    simp [he, Nat.not_le.mpr hlong]
  · obtain ⟨o, a⟩ := c
    rw [decode_encode_of_short hJ hcanonical hshort]
    cases o <;> simp_all [Option.filter_some]

end Cursor

/-! ## The cursors of pages -/

/-- The page ends the answer, or its cursor is that of its last row, with the value of this field. -/
def QueryPage.Issues (J : SerdeJson) (field : Option String) (page : QueryPage) : Prop :=
  page.next = "" ∨ ∃ last, page.nodes.getLast? = some last ∧
    page.next = (Cursor.fromNode (J := J) last field).encode

theorem QueryPage.issues_of_last (J : SerdeJson) (nodes : List Node) (field : Option String)
    (more : Prop) [Decidable more] (examined : Nat) :
    QueryPage.Issues J field ⟨nodes, match nodes.getLast? with
      | some last => if more then (Cursor.fromNode (J := J) last field).encode else ""
      | none => "", examined⟩ := by
  rcases hlast : nodes.getLast? with _ | last
  · exact .inl rfl
  by_cases hmore : more
  · exact .inr ⟨last, hlast, if_pos hmore⟩
  · exact .inl (if_neg hmore)

theorem Walk.page_issues {J : SerdeJson} {field : Option String} {w : Walk} {page : QueryPage}
    (h : w.page J field = .ok page) : page.Issues J field := by
  unfold Walk.page at h
  split at h
  · cases h
  · cases h
    exact QueryPage.issues_of_last J w.nodes field _ w.examined

theorem Walk.issues_of_bind {J : SerdeJson} {field : Option String} {walk : Except String Walk}
    {page : QueryPage} (h : (walk >>= fun w => w.page J field) = .ok page) : page.Issues J field := by
  obtain ⟨w, -, hw⟩ := Except.bind_eq_ok.1 h
  exact Walk.page_issues hw

namespace View

variable {st : Settings} {v : View} {cursor : Option (Cursor st.json)} {desc : Bool}
  {limit offset : Nat} {test : Node → Except String Bool} {page : QueryPage}

theorem sortedPage_issues {field : Option String} {w : Walk}
    (h : sortedPage st cursor desc limit offset field w = .ok page) : page.Issues st.json field := by
  unfold sortedPage at h
  split at h
  · cases h
  · cases h
    exact QueryPage.issues_of_last ..

variable {kind owner : Option String} {predicate : Option (Expr st.json.Number)} {itemVar : String}

theorem querySorted_issues {orderField : Option String} {textCandidates : Option (List String)}
    (h : v.querySorted st cursor desc limit offset test kind owner orderField predicate itemVar
      textCandidates = .ok page) : page.Issues st.json orderField := by
  unfold querySorted at h
  dsimp only at h
  split at h
  · obtain ⟨w, -, hw⟩ := Except.bind_eq_ok.1 h
    exact sortedPage_issues hw
  split at h
  · obtain ⟨w, -, hw⟩ := Except.bind_eq_ok.1 h
    exact sortedPage_issues hw
  · obtain ⟨w, -, hw⟩ := Except.bind_eq_ok.1 h
    exact sortedPage_issues hw

/-- The field that cursors hold: that of a pinning index, or the one the query is ordered by. -/
def cursorField (st : Settings) (v : View) (kind orderField : Option String)
    (predicate : Option (Expr st.json.Number)) (itemVar : String) : Option String :=
  match equalityPrefixPlan st v kind orderField predicate itemVar with
  | some (index, _) => some index.decl.field
  | none => orderField

theorem field_of_stringPrefixPlan {orderField : Option String} {index : DataIndex} {literal : String}
    (h : stringPrefixPlan st v kind orderField predicate itemVar = some (index, literal)) :
    orderField = some index.decl.field := by
  obtain ⟨kind, -, h⟩ := Option.bind_eq_some_iff.1 h
  obtain ⟨predicate, -, h⟩ := Option.bind_eq_some_iff.1 h
  obtain ⟨order, horder, h⟩ := Option.bind_eq_some_iff.1 h
  obtain ⟨found, hfound, h⟩ := Option.bind_eq_some_iff.1 h
  obtain ⟨text, -, h⟩ := Option.bind_eq_some_iff.1 h
  obtain ⟨rfl, -⟩ := Prod.mk.inj (Option.some.inj h)
  have hfield := List.find?_some hfound
  rw [Bool.and_eq_true, beq_iff_eq, beq_iff_eq] at hfield
  rw [horder, hfield.2]

theorem runPlan_issues {orderField : Option String}
    (h : v.runPlan st kind owner orderField predicate itemVar cursor desc limit offset test =
      .ok page) : page.Issues st.json (v.cursorField st kind orderField predicate itemVar) := by
  unfold runPlan queryByDataPrefix queryByKeyPrefix at h
  split at h
  · next hplan =>
    rw [cursorField, hplan]
    exact Walk.issues_of_bind h
  next hnone =>
  rw [cursorField, hnone]
  split at h
  · next hplan => exact field_of_stringPrefixPlan hplan ▸ Walk.issues_of_bind h
  split at h
  · obtain ⟨candidates, -, h⟩ := Except.bind_eq_ok.1 h
    split at h
    · exact Walk.issues_of_bind h
    · exact Walk.issues_of_bind h
  split at h
  · unfold queryByDataIndex at h
    split at h
    · cases h
    · exact Walk.issues_of_bind h
  · dsimp only at h
    split at h <;>
    · obtain ⟨candidates, -, h⟩ := Except.bind_eq_ok.1 h
      exact querySorted_issues h

theorem queryWhere_issues {requester order after : Option String}
    (h : v.queryWhere st kind owner requester predicate itemVar order desc after limit offset =
      .ok page) :
    page.Issues st.json (v.cursorField st kind (order.filter (· ≠ "id")) predicate itemVar) := by
  unfold queryWhere at h
  dsimp only at h
  split at h
  · cases h
  · obtain ⟨cursor, -, h⟩ := Except.bind_eq_ok.1 h
    exact runPlan_issues h

/-- The cursor of a page is that of its last row, and it is accepted and comes back as it was made
    exactly if its contents fit and the order value of the row is not null. -/
theorem issued_cursor_decodes_iff {requester order after : Option String} (hJ : st.json.Ordered)
    (hcursor : st.json.CursorRoundTrips) {field : Option String}
    (hfield : field = v.cursorField st kind (order.filter (· ≠ "id")) predicate itemVar)
    (h : v.queryWhere st kind owner requester predicate itemVar order desc after limit offset =
      .ok page) (hnext : page.next ≠ "") :
    ∃ last, page.nodes.getLast? = some last ∧
      page.next = (Cursor.fromNode (J := st.json) last field).encode ∧
      (Cursor.decode st.json page.next = .ok (Cursor.fromNode last field) ↔
        4 * (st.json.encodeCursor (field.bind (Cursor.orderKey st.json last))
          last.address).length ≤ 3 * maxCursorLen ∧
        ∀ value ∈ field.bind (Cursor.orderKey st.json last), value.isNull = false) := by
  subst hfield
  obtain ⟨last, hlast, hencode⟩ := (queryWhere_issues h).resolve_left hnext
  refine ⟨last, hlast, hencode, ?_⟩
  rw [hencode]
  apply Cursor.decode_encode_iff hcursor
  intro value hvalue
  obtain ⟨field, -, hfield⟩ := Option.bind_eq_some_iff.1 hvalue
  exact hJ.canonical_dataField hfield

/-- A node that is no more than its data. -/
def named (data address : String) : Node :=
  ⟨address, ⟨0, 0, 0, 0⟩, 0, "user", data, "alice", none, .pub⟩

/-- Two nodes with the same data, and no declared index. -/
def twoNamed (data : String) : View :=
  { (Trees.empty : View) with
    primary := [(utf8 "a", .ok (named data "a")), (utf8 "b", .ok (named data "b"))] }

def nameData (name : String) : String := print (.object [("name", .string name)])

theorem orderKey_nameData (name address : String) :
    Cursor.orderKey json (named (nameData name) address) "name" = some (.string name) := by
  have hcanonical : Json.Canonical (.object [("name", .string name)] : Json Int) :=
    ⟨List.pairwise_singleton _ _, trivial, trivial⟩
  have hparse : json.parse (nameData name) = some (.object [("name", .string name)]) :=
    parse_print hcanonical
  have hdata : (named (nameData name) address).data = nameData name := rfl
  rw [Cursor.orderKey, SerdeJson.dataField, hdata, hparse]
  rfl

theorem orderKey_textual (name address : String) :
    Cursor.orderKey Settings.textual.json (named (nameData name) address) "name" =
      some (.string name) := orderKey_nameData name address

/-- Two nodes with names, and an index over the names. -/
def indexedNames : View :=
  (View.applyAll .textual
    { (Trees.empty : View) with data := [(utf8 "by_name", ⟨⟨"by_name", "user", "name", false⟩, []⟩)] }
    [.insert (named (nameData "x") "a"), .insert (named (nameData "y") "b")]).2

/-- The first of two pages, in the order of the names. -/
def firstOfTwo : QueryPage := ⟨[named (nameData "x") "a"], "eyJvIjoieCIsImEiOiJhIn0", 2⟩

theorem issued_cursor_decodes_iff_first :
    indexedNames.queryWhere .textual (some "user") none none none "" (some "name") false none 1 0 =
        .ok firstOfTwo ∧ firstOfTwo.next ≠ "" ∧
      Cursor.decode Settings.textual.json firstOfTwo.next = .ok ⟨some (.string "x"), "a"⟩ := by
  have hok : indexedNames.queryWhere .textual (some "user") none none none "" (some "name") false
      none 1 0 = .ok firstOfTwo := by decide +kernel
  have hnext : firstOfTwo.next ≠ "" := by decide
  have hfield : some "name" = indexedNames.cursorField .textual (some "user")
      ((some "name").filter (· ≠ "id")) none "" := by decide +kernel
  have hordered : Settings.textual.json.Ordered := json_ordered
  obtain ⟨last, hlast, -, hiff⟩ := issued_cursor_decodes_iff hordered JsonText.json_cursorRoundTrips
    hfield hok hnext
  have hlast : last = named (nameData "x") "a" := (Option.some.inj hlast).symm
  have horder : Cursor.orderKey Settings.textual.json last "name" = some (.string "x") := by
    rw [hlast, orderKey_textual]
  have haddress : last.address = "a" := by rw [hlast, named]
  rw [Cursor.fromNode, Option.bind_some, horder, haddress] at hiff
  exact ⟨hok, hnext, hiff.2 ⟨by decide +kernel, by simp [Json.isNull]⟩⟩

theorem length_le_encodeCursor (s a : String) :
    s.toList.length ≤ (json.encodeCursor (some (.string s)) a).length := by
  have hbytes (text : List Char) : text.length ≤ (asBytes text).length := by
    induction text with
    | nil => exact Nat.le_refl _
    | cons c text ih =>
      rw [← List.singleton_append, asBytes_append]
      have hpos := c.utf8Size_pos
      simp [asBytes, String.length_utf8EncodeChar] at ih ⊢
      omega
  have htext (text : List Char) : text.length ≤ (textChars text).length := by
    induction text with
    | nil => exact Nat.zero_le _
    | cons c text ih =>
      rw [textChars]
      split <;> simp only [List.length_cons] <;> omega
  refine le_trans ?_ (hbytes _)
  change _ ≤ (chars (.object [("o", .string s), ("a", .string a)])).length
  have hs := htext s.toList
  simp only [chars, JsonText.fieldChars, List.length_cons, List.length_append]
  omega

/-- The cursor of a page by a field with a long value is refused. -/
theorem long_cursor_refused :
    ∃ page, (twoNamed (nameData (String.ofList (List.replicate 3100 'x')))).queryWhere .textual none
        none none none "" (some "name") false none 1 0 = .ok page ∧ page.next ≠ "" ∧
      ∃ e, Cursor.decode json page.next = .error e := by
  obtain ⟨name, hname⟩ : ∃ name, name = String.ofList (List.replicate 3100 'x') := ⟨_, rfl⟩
  have hlong : 3072 < name.toList.length := by
    rw [hname, String.toList_ofList, List.length_replicate]
    norm_num
  rw [← hname]
  have hquery (data : String) : (twoNamed data).queryWhere .textual none none none none ""
      (some "name") false none 1 0 = sortedPage .textual none false 1 0 (some "name")
        ⟨[named data "a", named data "b"], 0, false, none, 2⟩ := rfl
  rw [hquery]
  have hperm := List.mergeSort_perm [named (nameData name) "a", named (nameData name) "b"]
    (comesBefore .textual (some "name"))
  -- Whichever of the two comes first ends the page, and they have the same name.
  obtain ⟨x, y, hxy⟩ := List.length_eq_two.1 hperm.length_eq
  have hx : ∃ address, x = named (nameData name) address := by
    have hmem : x ∈ [named (nameData name) "a", named (nameData name) "b"] :=
      hperm.mem_iff.1 (hxy ▸ List.mem_cons_self)
    rcases List.mem_pair.1 hmem with h | h
    · exact ⟨"a", h⟩
    · exact ⟨"b", h⟩
  obtain ⟨address, rfl⟩ := hx
  obtain ⟨c, hc⟩ : ∃ c : Cursor json,
      c = .fromNode (named (nameData name) address) (some "name") := ⟨_, rfl⟩
  have ho : c.o = some (.string name) := by
    simp only [hc, Cursor.fromNode, Option.bind_some, orderKey_nameData]
  have hlength : 3072 < (json.encodeCursor c.o c.a).length := by
    rw [ho]
    exact lt_of_lt_of_le hlong (length_le_encodeCursor name c.a)
  refine ⟨⟨[named (nameData name) address], c.encode, 2⟩, ?_, ?_, ?_⟩
  · subst hc
    rw [sortedPage]
    simp only [hxy]
    rfl
  · intro hempty
    have := c.length_utf8_encode
    rw [show c.encode = "" from hempty] at this
    change 0 = _ at this
    omega
  · exact Cursor.decode_encode_of_long (by rw [maxCursorLen]; omega)

end View

end FacetQL
