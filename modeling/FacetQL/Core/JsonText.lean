import FacetQL.Core.Json
import FacetQL.Crypto
import FacetQL.Lib.SortedMap

/-!
# JSON texts

What is assumed of `serde_json`. Objects hold their fields in the order of the names, each name once;
this is so for every value that is read. A value that is printed need not be read back: the crate reads
some floats as neighbouring ones.

The assumptions can be met: `JsonText.json` reads and prints values without blanks, whose numbers are
integers and whose objects have their fields in order.
-/

namespace FacetQL

open SortedMap (Sorted find sorted_nil)

namespace Json

variable {ν : Type}

mutual

/-- Every object in the value has its fields in order. -/
def Canonical : Json ν → Prop
  | .array items => CanonicalItems items
  | .object fields => Sorted fields ∧ CanonicalFields fields
  | _ => True

def CanonicalItems : List (Json ν) → Prop
  | [] => True
  | item :: items => item.Canonical ∧ CanonicalItems items

/-- Every field holds a canonical value. -/
def CanonicalFields : List (String × Json ν) → Prop
  | [] => True
  | (_, value) :: fields => value.Canonical ∧ CanonicalFields fields

end

mutual

def decidableCanonical : (value : Json ν) → Decidable value.Canonical
  | .array items => decidableItems items
  | .object fields =>
    @instDecidableAnd _ _ (inferInstanceAs (Decidable (List.Pairwise _ fields))) (decidableFields fields)
  | .null | .bool _ | .number _ | .string _ => .isTrue trivial

def decidableItems : (items : List (Json ν)) → Decidable (CanonicalItems items)
  | [] => .isTrue trivial
  | item :: items => @instDecidableAnd _ _ item.decidableCanonical (decidableItems items)

/-- Whether fields hold canonical values. -/
def decidableFields : (fields : List (String × Json ν)) → Decidable (CanonicalFields fields)
  | [] => .isTrue trivial
  | (_, value) :: fields =>
    @instDecidableAnd _ _ value.decidableCanonical (decidableFields fields)

end

instance (value : Json ν) : Decidable value.Canonical := value.decidableCanonical

theorem canonicalFields_iff {fields : List (String × Json ν)} :
    CanonicalFields fields ↔ ∀ field ∈ fields, field.2.Canonical := by
  induction fields with
  | nil => simp [CanonicalFields]
  | cons field fields ih =>
    obtain ⟨name, value⟩ := field
    rw [CanonicalFields, ih, List.forall_mem_cons]

theorem Canonical.insert_null {fields : List (String × Json ν)} (h : (object fields).Canonical)
    (name : String) : (object (SortedMap.insert name .null fields)).Canonical := by
  refine ⟨h.1.insert, canonicalFields_iff.2 fun entry hentry => ?_⟩
  rcases SortedMap.mem_insert.1 hentry with rfl | hold
  · trivial
  · exact canonicalFields_iff.1 h.2 entry hold.1

end Json

namespace SerdeJson

variable (J : SerdeJson)

/-- What is read has the fields of its objects in order. -/
def Ordered : Prop := ∀ {text : String} {value : J.Value}, J.parse text = some value → value.Canonical

/-- Different values are printed differently. -/
def PrintsApart : Prop :=
  ∀ {a b : J.Value}, a.Canonical → b.Canonical → J.print a = J.print b → a = b

/-- The data is read back from its text with any of its fields set to `null`. This fails for a float
    that is printed and read back as a neighbouring one. -/
def ReadsBack (data : String) : Prop :=
  ∀ (fields : List (String × J.Value)) (names : List String), J.parse data = some (.object fields) →
    let cleared := names.foldr (fun name fields => SortedMap.insert name .null fields) fields
    J.parse (J.print (.object cleared)) = some (.object cleared)

/-- A field that an object does not have, or that is `null`, is read back as such. -/
def KeepsNulls : Prop :=
  ∀ {fields : List (String × J.Value)} {name : String}, (Json.object fields).Canonical →
    (∀ value ∈ fields.lookup name, value = .null) →
    ∀ value ∈ J.dataField (J.print (.object fields)) name, value = .null

end SerdeJson

theorem lookup_eq_find {V : Type} (name : String) (fields : List (String × V)) :
    fields.lookup name = find name fields := by
  induction fields with
  | nil => rfl
  | cons field fields ih =>
    obtain ⟨other, value⟩ := field
    by_cases hname : other = name
    · simp [List.lookup, find, hname]
    · have hne : (name == other) = false := beq_eq_false_iff_ne.2 (Ne.symm hname)
      rw [List.lookup, hne, ih]
      simp [find, hname]

theorem SerdeJson.Ordered.canonical_dataField {J : SerdeJson} (hJ : J.Ordered)
    {data field : String} {value : J.Value} (h : J.dataField data field = some value) :
    value.Canonical := by
  obtain ⟨whole, hparse, hget⟩ := Option.bind_eq_some_iff.1 h
  cases whole with
  | object fields =>
    obtain ⟨hsorted, hfields⟩ : Sorted fields ∧ Json.CanonicalFields fields :=
      hJ hparse
    have hlookup : fields.lookup field = some value := hget
    rw [lookup_eq_find, hsorted.find_eq_some] at hlookup
    exact Json.canonicalFields_iff.1 hfields _ hlookup
  | _ => cases hget

/-- A cursor that is printed is read back, except that a null is read as no value. -/
def SerdeJson.CursorRoundTrips (J : SerdeJson) : Prop :=
  ∀ (o : Option J.Value) (a : String), (∀ value ∈ o, value.Canonical) →
    J.decodeCursor (J.encodeCursor o a) = some (o.filter fun value => !value.isNull, a)

namespace JsonText

/-! ## Numbers -/

def numberChars (n : Int) : List Char :=
  if n < 0 then '-' :: Nat.toDigits 10 n.natAbs else Nat.toDigits 10 n.natAbs

/-- Read the digits of a number, whose sign has been read. -/
def readDigits (cs : List Char) : Option (Nat × List Char) :=
  if (cs.takeWhile Char.isDigit).isEmpty then none
  else some (Nat.ofDigitChars 10 (cs.takeWhile Char.isDigit) 0, cs.dropWhile Char.isDigit)

def readNumber : List Char → Option (Int × List Char)
  | '-' :: cs => (readDigits cs).map fun (n, rest) => (-n, rest)
  | cs => (readDigits cs).map fun (n, rest) => (n, rest)

/-- What follows a number is no digit. -/
def Ends (rest : List Char) : Prop := ∀ c ∈ rest.head?, c.isDigit = false

theorem isDigit_of_mem {n : Nat} {c : Char} (h : c ∈ Nat.toDigits 10 n) : c.isDigit = true :=
  Nat.isDigit_of_mem_toDigits (by decide) le_rfl h

theorem readDigits_toDigits (n : Nat) {rest : List Char} (hrest : Ends rest) :
    readDigits (Nat.toDigits 10 n ++ rest) = some (n, rest) := by
  have htake : (Nat.toDigits 10 n ++ rest).takeWhile Char.isDigit = Nat.toDigits 10 n := by
    rw [List.takeWhile_append_of_pos fun _ => isDigit_of_mem]
    rcases rest with _ | ⟨c, rest⟩
    · simp
    · rw [List.takeWhile_cons_of_neg (by simp [hrest c rfl]), List.append_nil]
  have hdrop : (Nat.toDigits 10 n ++ rest).dropWhile Char.isDigit = rest := by
    rw [List.dropWhile_append_of_pos fun _ => isDigit_of_mem]
    rcases rest with _ | ⟨c, rest⟩
    · rfl
    · rw [List.dropWhile_cons_of_neg (by simp [hrest c rfl])]
  simp only [readDigits, htake, hdrop, List.isEmpty_iff, Nat.toDigits_ne_nil, if_false,
    Nat.ofDigitChars_toDigits (by decide : 1 < 10) le_rfl]

theorem exists_cons_digits (n : Nat) (rest : List Char) :
    ∃ c cs, Nat.toDigits 10 n ++ rest = c :: cs ∧ c.isDigit = true := by
  obtain ⟨c, cs, hcs⟩ := List.exists_cons_of_ne_nil (Nat.toDigits_ne_nil (b := 10) (n := n))
  exact ⟨c, cs ++ rest, by rw [hcs, List.cons_append],
    isDigit_of_mem (hcs ▸ List.mem_cons_self)⟩

theorem exists_cons_number (n : Int) (rest : List Char) :
    ∃ c cs, numberChars n ++ rest = c :: cs ∧ (c = '-' ∨ c.isDigit = true) := by
  rw [numberChars]
  split
  · exact ⟨'-', _, List.cons_append .., .inl rfl⟩
  · obtain ⟨c, cs, hcs, hc⟩ := exists_cons_digits n.natAbs rest
    exact ⟨c, cs, hcs, .inr hc⟩

theorem readNumber_chars (n : Int) {rest : List Char} (hrest : Ends rest) :
    readNumber (numberChars n ++ rest) = some (n, rest) := by
  have hread := readDigits_toDigits n.natAbs hrest
  rw [numberChars]
  split
  · rw [List.cons_append, readNumber, hread, Option.map_some]
    simp only [show -(n.natAbs : Int) = n by omega]
  · obtain ⟨c, cs, hcs, hc⟩ := exists_cons_digits n.natAbs rest
    rw [hcs] at hread ⊢
    rw [readNumber.eq_2, hread, Option.map_some]
    · simp only [show (n.natAbs : Int) = n by omega]
    · rintro cs' heq
      rw [(List.cons.inj heq).1] at hc
      exact absurd hc (by decide)

/-! ## Values -/

/-- A text between quotes; a quote or a backslash in it is escaped. -/
def textChars : List Char → List Char
  | [] => ['"']
  | c :: cs => if c = '"' ∨ c = '\\' then '\\' :: c :: textChars cs else c :: textChars cs

mutual

def chars : Json Int → List Char
  | .null => ['n', 'u', 'l', 'l']
  | .bool true => ['t', 'r', 'u', 'e']
  | .bool false => ['f', 'a', 'l', 's', 'e']
  | .number n => numberChars n
  | .string s => '"' :: textChars s.toList
  | .array [] => ['[', ']']
  | .array (item :: items) => '[' :: (chars item ++ itemChars items)
  | .object [] => ['\x7b', '\x7d']
  | .object ((name, value) :: fields) =>
    '\x7b' :: '"' :: (textChars name.toList ++ ':' :: (chars value ++ fieldChars fields))

def itemChars : List (Json Int) → List Char
  | [] => [']']
  | item :: items => ',' :: (chars item ++ itemChars items)

def fieldChars : List (String × Json Int) → List Char
  | [] => ['\x7d']
  | (name, value) :: fields =>
    ',' :: '"' :: (textChars name.toList ++ ':' :: (chars value ++ fieldChars fields))

end

/-- Read a string up to its closing quote. -/
def readText : List Char → Option (List Char × List Char)
  | '"' :: rest => some ([], rest)
  | '\\' :: c :: rest => (readText rest).map fun (cs, rest) => (c :: cs, rest)
  | c :: rest => (readText rest).map fun (cs, rest) => (c :: cs, rest)
  | [] => none

mutual

def readValue : (rounds : Nat) → List Char → Option (Json Int × List Char)
  | 0, _ => none
  | _ + 1, 'n' :: 'u' :: 'l' :: 'l' :: rest => some (.null, rest)
  | _ + 1, 't' :: 'r' :: 'u' :: 'e' :: rest => some (.bool true, rest)
  | _ + 1, 'f' :: 'a' :: 'l' :: 's' :: 'e' :: rest => some (.bool false, rest)
  | _ + 1, '"' :: rest => (readText rest).map fun (cs, rest) => (.string (String.ofList cs), rest)
  | _ + 1, '[' :: ']' :: rest => some (.array [], rest)
  | rounds + 1, '[' :: rest => do
    let (item, rest) ← readValue rounds rest
    let (items, rest) ← readItems rounds rest
    return (.array (item :: items), rest)
  | _ + 1, '\x7b' :: '\x7d' :: rest => some (.object [], rest)
  | rounds + 1, '\x7b' :: rest => do
    let (field, rest) ← readField rounds rest
    let (fields, rest) ← readFields rounds rest
    return (.object (field :: fields), rest)
  | _ + 1, cs => (readNumber cs).map fun (n, rest) => (.number n, rest)

def readField : (rounds : Nat) → List Char → Option ((String × Json Int) × List Char)
  | rounds + 1, '"' :: rest =>
    match readText rest with
    | some (cs, ':' :: rest) =>
      (readValue rounds rest).map fun (value, rest) => ((String.ofList cs, value), rest)
    | _ => none
  | _, _ => none

def readItems : (rounds : Nat) → List Char → Option (List (Json Int) × List Char)
  | _ + 1, ']' :: rest => some ([], rest)
  | rounds + 1, ',' :: rest => do
    let (item, rest) ← readValue rounds rest
    let (items, rest) ← readItems rounds rest
    return (item :: items, rest)
  | _, _ => none

def readFields : (rounds : Nat) → List Char → Option (List (String × Json Int) × List Char)
  | _ + 1, '\x7d' :: rest => some ([], rest)
  | rounds + 1, ',' :: rest => do
    let (field, rest) ← readField rounds rest
    let (fields, rest) ← readFields rounds rest
    return (field :: fields, rest)
  | _, _ => none

end

def print (value : Json Int) : String := String.ofList (chars value)

/-- The value of a text, which has to be used up. -/
def read (text : String) : Option (Json Int) :=
  match readValue (text.toList.length + 1) text.toList with
  | some (value, []) => some value
  | _ => none

/-- The value of a text, if its fields are in order. -/
def parse (text : String) : Option (Json Int) := (read text).filter fun value => value.Canonical

/-! ## Round trips -/

theorem readText_textChars (cs rest : List Char) :
    readText (textChars cs ++ rest) = some (cs, rest) := by
  induction cs with
  | nil => rfl
  | cons c cs ih =>
    rw [textChars]
    split
    · rw [List.cons_append, List.cons_append, readText, ih]
      rfl
    rename_i hplain
    rw [not_or] at hplain
    rw [List.cons_append, readText.eq_3, ih]
    · rfl
    · exact fun h => hplain.1 h
    · rintro c' rest' rfl
      exact fun _ => hplain.2 rfl

variable {rest : List Char} {value : Json Int}

theorem ends_of_head {c : Char} (h : c.isDigit = false) : Ends (c :: rest) := by
  rintro c' ⟨⟩
  exact h

theorem ends_itemChars (items : List (Json Int)) (rest : List Char) :
    Ends (itemChars items ++ rest) := by
  cases items <;> exact ends_of_head (by decide)

theorem ends_fieldChars (fields : List (String × Json Int)) (rest : List Char) :
    Ends (fieldChars fields ++ rest) := by
  cases fields <;> exact ends_of_head (by decide)

/-- A number is not taken for anything else. -/
theorem readValue_number (n : Int) {rounds : Nat} (hrest : Ends rest) :
    readValue (rounds + 1) (numberChars n ++ rest) = some (.number n, rest) := by
  obtain ⟨c, cs, hcs, hc⟩ := exists_cons_number n rest
  have hne {c' : Char} (h : c' ≠ '-' ∧ c'.isDigit = false) : c ≠ c' := by
    rintro rfl
    rcases hc with rfl | hdigit
    · exact h.1 rfl
    · rw [h.2] at hdigit
      cases hdigit
  have hread := readNumber_chars n hrest
  rw [hcs] at hread ⊢
  rw [readValue.eq_def]
  split <;> simp_all

/-- No value begins with the end of an array. -/
theorem exists_cons_value (value : Json Int) (rest : List Char) :
    ∃ c cs, chars value ++ rest = c :: cs ∧ c ≠ ']' := by
  rw [chars.eq_def]
  split
  case h_4 n =>
    obtain ⟨c, cs, hcs, hc⟩ := exists_cons_number n rest
    refine ⟨c, cs, hcs, ?_⟩
    rintro rfl
    exact absurd hc (by decide)
  -- The other values begin with a letter, a quote or an opening bracket.
  all_goals exact ⟨_, _, List.cons_append .., by decide⟩

theorem readField_chars (name : String) {rounds : Nat}
    (hvalue : readValue rounds (chars value ++ rest) = some (value, rest)) :
    readField (rounds + 1) ('"' :: (textChars name.toList ++ ':' :: (chars value ++ rest))) =
      some ((name, value), rest) := by
  rw [readField, readText_textChars]
  simp only [hvalue, Option.map_some, String.ofList_toList]

theorem readValue_fields {name : String} {fields : List (String × Json Int)} {rounds : Nat}
    (hread : readField rounds ('"' :: (textChars name.toList ++ ':' ::
      (chars value ++ (fieldChars fields ++ rest)))) = some ((name, value), fieldChars fields ++ rest))
    (hrest : readFields rounds (fieldChars fields ++ rest) = some (fields, rest)) :
    readValue (rounds + 1) (chars (.object ((name, value) :: fields)) ++ rest) =
      some (.object ((name, value) :: fields), rest) := by
  simp only [chars, List.cons_append, List.append_assoc]
  rw [readValue.eq_9 _ _ (by simp), hread]
  simp only [Option.bind_eq_bind, Option.bind_some, hrest]
  rfl

mutual

theorem readValue_chars : ∀ (value : Json Int) (rounds : Nat) (rest : List Char),
    (chars value).length < rounds → Ends rest →
    readValue rounds (chars value ++ rest) = some (value, rest)
  | _, 0, _, h, _ => absurd h (Nat.not_lt_zero _)
  | .null, _ + 1, _, _, _ => rfl
  | .bool true, _ + 1, _, _, _ => rfl
  | .bool false, _ + 1, _, _, _ => rfl
  | .number n, _ + 1, _, _, hrest => readValue_number n hrest
  | .string s, rounds + 1, rest, _, _ => by
    rw [chars, List.cons_append, readValue, readText_textChars]
    simp only [Option.map_some, String.ofList_toList]
  | .array [], _ + 1, _, _, _ => rfl
  | .array (item :: items), rounds + 1, rest, hlength, hrest => by
    rw [chars, List.length_cons, List.length_append] at hlength
    have hitem := readValue_chars item rounds (itemChars items ++ rest) (by omega)
      (ends_itemChars items rest)
    have hitems := readItems_chars items rounds rest (by omega)
    obtain ⟨c, cs, hcs, hc⟩ := exists_cons_value item (itemChars items ++ rest)
    rw [chars, List.cons_append, List.append_assoc, hcs, readValue.eq_7 _ _ (by simpa using hc),
      ← hcs, hitem]
    simp only [Option.bind_eq_bind, Option.bind_some, hitems]
    rfl
  | .object [], _ + 1, _, _, _ => rfl
  | .object ((name, value) :: fields), rounds + 1, rest, hlength, hrest => by
    simp only [chars, List.length_cons, List.length_append] at hlength
    obtain ⟨rounds, rfl⟩ : ∃ n, rounds = n + 1 := ⟨rounds - 1, by omega⟩
    have hread := readField_chars name (readValue_chars value rounds
      (fieldChars fields ++ rest) (by omega) (ends_fieldChars fields rest))
    have hrest := readFields_chars fields (rounds + 1) rest (by omega)
    exact readValue_fields hread hrest

theorem readItems_chars : ∀ (items : List (Json Int)) (rounds : Nat) (rest : List Char),
    (itemChars items).length < rounds →
    readItems rounds (itemChars items ++ rest) = some (items, rest)
  | _, 0, _, h => absurd h (Nat.not_lt_zero _)
  | [], _ + 1, _, _ => rfl
  | item :: items, rounds + 1, rest, hlength => by
    rw [itemChars, List.length_cons, List.length_append] at hlength
    have hitem := readValue_chars item rounds (itemChars items ++ rest) (by omega)
      (ends_itemChars items rest)
    have hitems := readItems_chars items rounds rest (by omega)
    rw [itemChars, List.cons_append, List.append_assoc, readItems, hitem]
    simp only [Option.bind_eq_bind, Option.bind_some, hitems]
    rfl

theorem readFields_chars : ∀ (fields : List (String × Json Int)) (rounds : Nat) (rest : List Char),
    (fieldChars fields).length < rounds →
    readFields rounds (fieldChars fields ++ rest) = some (fields, rest)
  | _, 0, _, h => absurd h (Nat.not_lt_zero _)
  | [], _ + 1, _, _ => rfl
  | (name, value) :: fields, rounds + 1, rest, hlength => by
    simp only [fieldChars, List.length_cons, List.length_append] at hlength
    obtain ⟨rounds, rfl⟩ : ∃ n, rounds = n + 1 := ⟨rounds - 1, by omega⟩
    have hread := readField_chars name (readValue_chars value rounds
      (fieldChars fields ++ rest) (by omega) (ends_fieldChars fields rest))
    have hrest := readFields_chars fields (rounds + 1) rest (by omega)
    simp only [fieldChars, List.cons_append, List.append_assoc, readFields, hread,
      Option.bind_eq_bind, Option.bind_some, hrest]
    rfl

end

theorem read_print (value : Json Int) : read (print value) = some value := by
  have hread := readValue_chars value ((chars value).length + 1) [] (Nat.lt_succ_self _) nofun
  rw [List.append_nil] at hread
  rw [read, print, String.toList_ofList, hread]

theorem parse_print (h : value.Canonical) : parse (print value) = some value := by
  rw [parse, read_print, Option.filter_some, if_pos (decide_eq_true h)]

theorem canonical_parse {text : String} (h : parse text = some value) : value.Canonical :=
  of_decide_eq_true (Option.filter_eq_some_iff.1 h).2

/-! ## The assumptions can be met -/

/-- The object of a cursor, with its fields in the order of the source. -/
def cursorObject (o : Option (Json Int)) (a : String) : Json Int :=
  .object ((o.map (("o", ·))).toList ++ [("a", .string a)])

/-- Values without blanks, whose numbers are integers. -/
def json : SerdeJson where
  __ := SerdeJson.integers
  parse := parse
  parseError _ := "expected value at line 1 column 1"
  print := print
  encodeCursor o a := asBytes (chars (cursorObject o a))
  decodeCursor bytes := do
    let text ← fromUtf8 bytes
    let value ← read (String.ofList text)
    let a ← (value.get "a").bind Json.asStr
    -- As `serde` reads an `Option`, a null is no value.
    return ((value.get "o").filter fun o => !o.isNull, a)
  debug := print
  debugStr s := print (.string s)

theorem json_ordered : json.Ordered := canonical_parse

theorem json_printsApart : json.PrintsApart := by
  intro a b ha hb h
  have hparsed : parse (print a) = some a := parse_print ha
  rw [show print a = print b from h, parse_print hb] at hparsed
  exact (Option.some.inj hparsed).symm

theorem json_readsBack (data : String) : json.ReadsBack data := by
  intro fields names h
  have hcanonical : (Json.object (names.foldr
      (fun name fields => SortedMap.insert name .null fields) fields)).Canonical := by
    induction names with
    | nil => exact canonical_parse h
    | cons name names ih => exact ih.insert_null name
  exact parse_print hcanonical

theorem json_keepsNulls : json.KeepsNulls := by
  intro fields name hcanonical hnull value hvalue
  have hparse : json.parse (json.print (.object fields)) = some (.object fields) :=
    parse_print hcanonical
  rw [SerdeJson.dataField, hparse] at hvalue
  exact hnull value hvalue

theorem json_cursorRoundTrips : json.CursorRoundTrips := by
  intro o a _
  change (do
    let text ← fromUtf8 (asBytes (chars (cursorObject o a)))
    let value ← read (String.ofList text)
    let a ← (value.get "a").bind Json.asStr
    return ((value.get "o").filter fun o => !Json.isNull o, a)) = _
  have hread : read (String.ofList (chars (cursorObject o a))) = some (cursorObject o a) := read_print _
  simp only [fromUtf8_asBytes, Option.bind_eq_bind, Option.bind_some, hread]
  cases o <;> rfl

end JsonText

end FacetQL
