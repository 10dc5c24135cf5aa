import FacetQL.Core.Predicate
import FacetQL.Crypto
import FacetQL.Lib.SortedMap

/-!
# The keys of the indexes

The keys of `storage/index.rs` and `storage/text.rs`: components with their length in front
of them, values of a field encoded such that the order of the bytes is the order of the values,
and the trigrams of a text.
-/

namespace FacetQL

/-- The bytes of a string. -/
def utf8 (s : String) : Bytes := asBytes s.toList

theorem utf8_inj {a b : String} (h : utf8 a = utf8 b) : a = b := by
  have hlist := congrArg fromUtf8 h
  rw [utf8, utf8, fromUtf8_asBytes, fromUtf8_asBytes] at hlist
  exact String.toList_inj.1 (Option.some.inj hlist)

theorem length_utf8 (s : String) : (utf8 s).length = s.utf8ByteSize := by
  have hbytes : (s.toList.flatMap String.utf8EncodeChar).toByteArray = s.toByteArray :=
    String.utf8Encode_toList
  rw [utf8, asBytes, List.length_map, ← List.size_toByteArray, hbytes, String.size_toByteArray]

namespace Keys

/-! ## The base indexes -/

/-- A component of a key, with its length in two bytes in front of it. -/
def component (value : String) : Bytes := beBytes 2 (utf8 value).length ++ utf8 value

/-- A key that says that a node belongs to a value. -/
def memberKey (value address : String) : Bytes := component value ++ utf8 address

/-- The keys of one kind start with this. -/
def kindPrefix (kind : String) : Bytes := component kind

/-- The key of a node in the tree of kinds. -/
def kindKey (kind address : String) : Bytes := memberKey kind address

/-- The keys of one owner start with this. -/
def ownerPrefix (owner : String) : Bytes := component owner

/-- The key of a node in the tree of owners. -/
def ownerKey (owner address : String) : Bytes := memberKey owner address

/-- The key of an edge, seen from one of its ends. -/
def edgeKey (near kind far : String) : Bytes := component near ++ component kind ++ utf8 far

/-- The keys of the edges from a node start with this. -/
def edgeOutPrefix (source : String) : Bytes := component source

/-- The key of an edge in the tree of outgoing edges. -/
def edgeOutKey (source kind target : String) : Bytes := edgeKey source kind target

/-- The keys of the edges to a node start with this. -/
def edgeInPrefix (target : String) : Bytes := component target

/-- The key of an edge in the tree of incoming edges. -/
def edgeInKey (target kind source : String) : Bytes := edgeKey target kind source

/-- The keys of the history of a node start with this. -/
def historyPrefix (address : String) : Bytes := component address

/-- The version has its highest byte first, so that byte order is the order of the versions. -/
def historyKey (address : String) (version : Nat) : Bytes := component address ++ beBytes 8 version

/-- The length of a component fits in front of it. -/
def FitsComponent (value : String) : Prop := (utf8 value).length < 256 ^ 2

theorem component_append_inj {a b : String} {x y : Bytes} (ha : FitsComponent a)
    (hb : FitsComponent b) (h : component a ++ x = component b ++ y) : a = b ∧ x = y := by
  rw [component, component, List.append_assoc, List.append_assoc] at h
  obtain ⟨hlen, htext⟩ := List.append_inj h (by rw [length_beBytes, length_beBytes])
  obtain ⟨htext, hrest⟩ := List.append_inj htext (beBytes_inj ha hb hlen)
  exact ⟨utf8_inj htext, hrest⟩

theorem edgeKey_inj {near near' kind kind' far far' : String} (hn : FitsComponent near)
    (hn' : FitsComponent near') (hk : FitsComponent kind) (hk' : FitsComponent kind')
    (h : edgeKey near kind far = edgeKey near' kind' far') :
    near = near' ∧ kind = kind' ∧ far = far' := by
  rw [edgeKey, edgeKey, List.append_assoc, List.append_assoc] at h
  obtain ⟨hnear, hrest⟩ := component_append_inj hn hn' h
  obtain ⟨hkind, hfar⟩ := component_append_inj hk hk' hrest
  exact ⟨hnear, hkind, utf8_inj hfar⟩

/-! ## The values of a field -/

section Values

variable (J : SerdeJson)

/-- The rank of a value's type; a field that is absent comes last. -/
def typeRank : Option J.Value → Byte
  | some .null => 0x10
  | some (.bool _) => 0x20
  | some (.number _) => 0x30
  | some (.string _) => 0x40
  | some (.array _) => 0x50
  | some (.object _) => 0x50
  | none => 0xF0

/-- The float that a number is ordered by. -/
def orderFloat (n : J.Number) : J.F64 := (J.asF64 n).getD J.zero

/-- The order of the values of a field. -/
def compareOrderValues (a b : Option J.Value) : Ordering :=
  let rank := cmp (typeRank J a) (typeRank J b)
  if rank ≠ .eq then rank
  else
    match a, b with
    | some (.bool x), some (.bool y) => compare x y
    | some (.number x), some (.number y) =>
      (J.partialCmp (orderFloat J x) (orderFloat J y)).getD .eq
    | some (.string x), some (.string y) => cmp (utf8 x) (utf8 y)
    | some (.array x), some y => cmp (utf8 (J.print (.array x))) (utf8 (J.print y))
    | some (.object x), some y => cmp (utf8 (J.print (.object x))) (utf8 (J.print y))
    | _, _ => .eq

/-- A float as ordered bytes: a negative one has all bits flipped, any other one its sign. -/
def orderedBits (f : J.F64) : BitVec 64 :=
  if J.signNegative f then ~~~ J.toBits f else J.toBits f ^^^ (1#64 <<< 63)

/-- The bytes of a value, behind the rank of its type. -/
def encodeValueBody (value : Option J.Value) : Bytes :=
  typeRank J value ::
    match value with
    | some (.bool b) => [if b then 1 else 0]
    | some (.number n) => beBytes 8 (orderedBits J (orderFloat J n)).toNat
    | some (.string s) => utf8 s
    | some (.array items) => utf8 (J.print (.array items))
    | some (.object fields) => utf8 (J.print (.object fields))
    | some .null => []
    | none => []

end Values

/-- Bytes with each zero escaped. -/
def escape (bytes : Bytes) : Bytes := bytes.flatMap fun b => if b = 0 then [0, 255] else [b]

/-- Bytes within a key, ended by a terminator below everything that can stand there. -/
def appendEscaped (bytes : Bytes) : Bytes := escape bytes ++ [0, 0]

section Values

variable (J : SerdeJson)

/-- What the key of every text with this beginning starts with. -/
def encodeStringPrefix (text : String) : Bytes := typeRank J (some (.string "")) :: escape (utf8 text)

/-- The bytes of a value, in the order of the values. -/
def encodeOrderValue (value : Option J.Value) : Bytes := appendEscaped (encodeValueBody J value)

/-- The key of a node in an index over a field. -/
def dataKey (value : Option J.Value) (address : String) : Bytes :=
  encodeOrderValue J value ++ utf8 address

end Values

/-- The address in the key of an index over a field: what stands behind the terminator. -/
def addressFromDataKey : Bytes → Option Bytes
  | 0 :: 0 :: rest => some rest
  | 0 :: _ :: rest => addressFromDataKey rest
  | [] => none
  | [_] => none
  | _ :: b :: rest => addressFromDataKey (b :: rest)

/-! What stands in front of a terminator can be told from what stands behind it. -/

theorem prefix_of_escape_prefix {x y r : Bytes} (h : escape x <+: appendEscaped y ++ r) :
    x <+: y := by
  induction x generalizing y with
  | nil => exact List.nil_prefix
  | cons a x ih =>
    rcases y with _ | ⟨b, y⟩
    · by_cases ha : a = 0 <;> simp [appendEscaped, escape, ha, List.cons_prefix_cons] at h
    -- A zero is followed by a byte of its own, so the first bytes agree in both cases or in none.
    have hstep : a = b ∧ escape x <+: appendEscaped y ++ r := by
      by_cases ha : a = 0 <;> by_cases hb : b = 0 <;>
        simp_all [appendEscaped, escape, List.cons_prefix_cons, eq_comm]
    exact List.cons_prefix_cons.2 ⟨hstep.1, ih hstep.2⟩

theorem appendEscaped_append_inj {x y r s : Bytes}
    (h : appendEscaped x ++ r = appendEscaped y ++ s) : x = y ∧ r = s := by
  have hle : ∀ {x y r s : Bytes}, appendEscaped x ++ r = appendEscaped y ++ s → x <+: y := by
    intro x y r s h
    exact prefix_of_escape_prefix ⟨[0, 0] ++ r, by rw [← h, appendEscaped, List.append_assoc]⟩
  obtain rfl := (hle h).eq_of_length_le (hle h.symm).length_le
  exact ⟨rfl, List.append_cancel_left h⟩

theorem addressFromDataKey_appendEscaped (x r : Bytes) :
    addressFromDataKey (appendEscaped x ++ r) = some r := by
  induction x with
  | nil => rfl
  | cons a x ih =>
    by_cases ha : a = 0
    · have hcons : appendEscaped (a :: x) ++ r = 0 :: 255 :: (appendEscaped x ++ r) := by
        simp [appendEscaped, escape, ha]
      rw [hcons]
      exact ih
    have hcons : appendEscaped (a :: x) ++ r = a :: (appendEscaped x ++ r) := by
      simp [appendEscaped, escape, ha]
    obtain ⟨b, rest, hrest⟩ : ∃ b rest, appendEscaped x ++ r = b :: rest :=
      List.exists_cons_of_ne_nil (by simp [appendEscaped])
    rw [hcons, hrest, addressFromDataKey.eq_5, ← hrest, ih]
    · exact fun h _ => ha h
    · exact fun h => ha h

section Values

variable {J : SerdeJson} {value value' : Option J.Value} {address address' : String}

@[simp]
theorem addressFromDataKey_dataKey : addressFromDataKey (dataKey J value address) =
    some (utf8 address) := addressFromDataKey_appendEscaped _ _

theorem dataKey_inj (h : dataKey J value address = dataKey J value' address') :
    encodeOrderValue J value = encodeOrderValue J value' ∧ address = address' := by
  obtain ⟨hvalue, haddress⟩ := appendEscaped_append_inj h
  exact ⟨congrArg appendEscaped hvalue, utf8_inj haddress⟩

/-- The keys that start with the encoding of a value are those of the nodes that hold it. -/
theorem encodeOrderValue_isPrefixOf : (encodeOrderValue J value).isPrefixOf (dataKey J value' address)
    = true ↔ encodeOrderValue J value = encodeOrderValue J value' := by
  rw [List.isPrefixOf_iff_prefix]
  constructor
  · rintro ⟨rest, hrest⟩
    have hkeys : appendEscaped (encodeValueBody J value) ++ rest =
        appendEscaped (encodeValueBody J value') ++ utf8 address := hrest
    exact congrArg appendEscaped (appendEscaped_append_inj hkeys).1
  · intro h
    exact ⟨utf8 address, by rw [h, dataKey]⟩

end Values

/-! ## Trigrams -/

/-- The bytes of a gram. -/
def gramLen : Nat := 3

/-- A byte in lower case, if it is a letter of ASCII. -/
def toAsciiLowercase (b : Byte) : Byte := if 65 ≤ b ∧ b ≤ 90 then b + 32 else b

/-- The pieces of a length, at every position. -/
def windows {α : Type} (length : Nat) (l : List α) : List (List α) :=
  (l.tails.filter fun tail => length ≤ tail.length).map (List.take length)

/-- The distinct trigrams of a text, in order. -/
def grams (text : String) : List Bytes :=
  ((windows gramLen ((utf8 text).map toAsciiLowercase)).foldl
    (fun set gram => SortedMap.insert gram () set) []).map Prod.fst

/-- The key of a posting. -/
def textKey (gram : Bytes) (address : String) : Bytes := gram ++ utf8 address

theorem mem_windows {α : Type} {length : Nat} {piece l : List α} :
    piece ∈ windows length l ↔ piece.length = length ∧ piece <:+: l := by
  simp only [windows, List.mem_map, List.mem_filter, List.mem_tails, decide_eq_true_eq]
  constructor
  · rintro ⟨tail, ⟨htail, hlength⟩, rfl⟩
    exact ⟨List.length_take_of_le hlength, (List.take_prefix _ _).isInfix.trans htail.isInfix⟩
  · rintro ⟨rfl, hinfix⟩
    obtain ⟨tail, hpiece, htail⟩ := List.infix_iff_prefix_suffix.1 hinfix
    exact ⟨tail, ⟨htail, hpiece.length_le⟩, (List.prefix_iff_eq_take.1 hpiece).symm⟩

theorem mem_grams {text : String} {gram : Bytes} : gram ∈ grams text ↔
    gram.length = gramLen ∧ gram <:+: (utf8 text).map toAsciiLowercase := by
  have hfold : ∀ (found : List Bytes) (set : List (Bytes × Unit)),
      gram ∈ (found.foldl (fun set gram => SortedMap.insert gram () set) set).map Prod.fst ↔
        gram ∈ found ∨ gram ∈ set.map Prod.fst := by
    intro found
    induction found with
    | nil => simp
    | cons first found ih =>
      intro set
      rw [List.foldl_cons, ih, List.mem_cons, or_assoc, or_left_comm]
      refine or_congr_right ?_
      simp [SortedMap.mem_insert]
      tauto
  rw [← mem_windows, grams, hfold]
  simp

theorem length_of_mem_grams {text : String} {gram : Bytes} (h : gram ∈ grams text) :
    gram.length = gramLen := (mem_grams.1 h).1

/-- The address in the key of a posting. -/
def addressFromTextKey (key : Bytes) : Option Bytes :=
  if key.length ≤ gramLen then none else some (key.drop gramLen)

end Keys

end FacetQL
