import FacetQL.Lib.Bytes
import FacetQL.Storage.Page

/-!
# Sealed records and their text

What the logs use of `crypto.rs`. The cipher and the serialisation of records are
parameters: a `Codec` is any pair of them that gives a record back. The hex codec
is the source's own.
-/

namespace FacetQL

/-! ## The cipher and the serialisation -/

/-- How records become bytes and back: by bincode, and a cipher under a random nonce. -/
structure Codec (ι α : Type) where
  serialize : α → Except String Bytes
  deserialize : Bytes → Except String α
  encrypt : ι → Bytes → Bytes
  decrypt : Bytes → Except String Bytes
  deserialize_serialize : ∀ a bytes, serialize a = .ok bytes → deserialize bytes = .ok a
  decrypt_encrypt : ∀ nonce bytes, decrypt (encrypt nonce bytes) = .ok bytes

def Codec.plain {α : Type} (serialize : α → Except String Bytes)
    (deserialize : Bytes → Except String α)
    (h : ∀ a bytes, serialize a = .ok bytes → deserialize bytes = .ok a) : Codec Unit α where
  serialize := serialize
  deserialize := deserialize
  encrypt _ bytes := bytes
  decrypt := .ok
  deserialize_serialize := h
  decrypt_encrypt _ _ := rfl

/-! ## Texts -/

/-- The bytes of a text. -/
def asBytes (text : List Char) : Bytes := (text.flatMap String.utf8EncodeChar).map UInt8.toFin

/-- The text that a byte string encodes, if it is well formed. -/
def fromUtf8 (bytes : Bytes) : Option (List Char) :=
  (bytes.map UInt8.ofFin).toByteArray.utf8Decode?.map Array.toList

theorem toByteArray_asBytes (text : List Char) :
    ((asBytes text).map UInt8.ofFin).toByteArray = text.utf8Encode := by
  rw [asBytes, List.map_map]
  exact congrArg List.toByteArray (List.map_id _)

theorem fromUtf8_asBytes (text : List Char) : fromUtf8 (asBytes text) = some text := by
  rw [fromUtf8, toByteArray_asBytes, List.utf8Decode?_utf8Encode]
  rfl

@[simp]
theorem asBytes_nil : asBytes [] = [] := rfl

theorem asBytes_append (s t : List Char) : asBytes (s ++ t) = asBytes s ++ asBytes t := by
  simp only [asBytes, List.flatMap_append, List.map_append]

/-- The white space that `trim` drops at the ends of a text. -/
def isWhitespace (c : Char) : Bool :=
  let n := c.toNat
  (9 ≤ n && n ≤ 13) || n == 0x20 || n == 0x85 || n == 0xA0 || n == 0x1680 ||
    (0x2000 ≤ n && n ≤ 0x200A) || n == 0x2028 || n == 0x2029 || n == 0x202F || n == 0x205F ||
    n == 0x3000

/-- A text without the white space at its ends. -/
def trim (text : List Char) : List Char := (text.dropWhile isWhitespace).rdropWhile isWhitespace

variable {text : List Char} {c : Char} (bytes : Bytes)

theorem trim_eq_self (h : ∀ c ∈ text, isWhitespace c = false) : trim text = text := by
  have hdrop : text.dropWhile isWhitespace = text := by
    refine List.dropWhile_eq_self_iff.2 fun hpos => ?_
    simp [h _ (List.getElem_mem hpos)]
  rw [trim, hdrop]
  refine List.rdropWhile_eq_self_iff.2 fun hne => ?_
  simp [h _ (List.getLast_mem hne)]

/-! ## The hex codec -/

/-- Why a text is not hex. A slice inside a character ends the process. -/
inductive HexError
  | oddLength
  | invalid (position : Nat)
  | panic
  deriving DecidableEq, Repr

/-- The text of an error. -/
def HexError.message : HexError → String
  | oddLength => "hex string has an odd number of characters"
  | invalid i => "invalid hex at position " ++ toString i ++ ": invalid digit found in string"
  | panic => "byte index is not a char boundary"

/-- The two hex digits of each byte. -/
def encodeHex (bytes : Bytes) : List Char :=
  bytes.flatMap fun b => [Nat.digitChar (b.val / 16), Nat.digitChar (b.val % 16)]

/-- The value of a hex digit, of either case. -/
def toDigit (c : Char) : Option Nat :=
  if '0' ≤ c ∧ c ≤ '9' then some (c.toNat - '0'.toNat)
  else if 'a' ≤ c ∧ c ≤ 'f' then some (c.toNat - 'a'.toNat + 10)
  else if 'A' ≤ c ∧ c ≤ 'F' then some (c.toNat - 'A'.toNat + 10)
  else none

/-- The value of two hex digits; the first one may be a plus sign. -/
def fromStrRadix (c d : Char) : Option Byte :=
  if c = '+' then (toDigit d).map (Fin.ofNat 256)
  else do
    let high ← toDigit c
    let low ← toDigit d
    return Fin.ofNat 256 (16 * high + low)

/-- The bytes of a text of even length, from `position` on. -/
def hexPairs : (position : Nat) → List Char → Except HexError Bytes
  | _, [] => .ok []
  | i, c :: rest =>
    if c.utf8Size = 1 then
      match rest with
      | [] => .error .panic
      | d :: rest =>
        -- The slice would end inside `d`.
        if d.utf8Size ≠ 1 then .error .panic
        else
          match fromStrRadix c d with
          | none => .error (.invalid i)
          | some b => (hexPairs (i + 2) rest).map (b :: ·)
    else if c.utf8Size = 2 then .error (.invalid i)
    else .error .panic

/-- The bytes of a hex text. -/
def decodeHex (text : List Char) : Except HexError Bytes :=
  let s := trim text
  if (asBytes s).length % 2 ≠ 0 then .error .oddLength else hexPairs 0 s

/-- A digit that `encodeHex` writes. -/
def IsHexDigit (c : Char) : Prop := ∃ d : Fin 16, c = Nat.digitChar d

theorem IsHexDigit.isWhitespace (h : IsHexDigit c) : isWhitespace c = false := by
  obtain ⟨d, rfl⟩ := h
  revert d
  decide

theorem IsHexDigit.asBytes (h : IsHexDigit c) : asBytes [c] = [Fin.ofNat 256 c.toNat] := by
  obtain ⟨d, rfl⟩ := h
  revert d
  decide

theorem IsHexDigit.utf8Size (h : IsHexDigit c) : c.utf8Size = 1 := by
  obtain ⟨d, rfl⟩ := h
  revert d
  decide

theorem fromStrRadix_digitChar (b : Byte) :
    fromStrRadix (Nat.digitChar (b.val / 16)) (Nat.digitChar (b.val % 16)) = some b := by
  revert b
  decide +kernel

theorem isHexDigit_encodeHex {bytes : Bytes} : ∀ c ∈ encodeHex bytes, IsHexDigit c := by
  intro c hc
  obtain ⟨b, -, hb⟩ := List.mem_flatMap.1 hc
  rcases List.mem_cons.1 hb with rfl | hb
  · exact ⟨⟨b.val / 16, Nat.div_lt_of_lt_mul b.isLt⟩, rfl⟩
  · exact ⟨⟨b.val % 16, Nat.mod_lt _ (by norm_num)⟩, List.mem_singleton.1 hb⟩

theorem length_encodeHex : (encodeHex bytes).length = 2 * bytes.length := by
  induction bytes with
  | nil => rfl
  | cons b bytes ih =>
    change (encodeHex bytes).length + 2 = _
    rw [ih, List.length_cons, Nat.mul_succ]

/-- Hex digits are one byte each. -/
theorem asBytes_hex (h : ∀ c ∈ text, IsHexDigit c) :
    asBytes text = text.map fun c => Fin.ofNat 256 c.toNat := by
  induction text with
  | nil => rfl
  | cons c text ih =>
    obtain ⟨hc, htext⟩ := List.forall_mem_cons.1 h
    rw [← List.singleton_append, asBytes_append, hc.asBytes, ih htext, List.map_append]
    rfl

theorem asBytes_take (h : ∀ c ∈ text, IsHexDigit c) (n : Nat) :
    asBytes (text.take n) = (asBytes text).take n := by
  rw [asBytes_hex h, asBytes_hex fun c hc => h c (List.mem_of_mem_take hc), List.map_take]

theorem length_asBytes (h : ∀ c ∈ text, IsHexDigit c) : (asBytes text).length = text.length := by
  rw [asBytes_hex h, List.length_map]

theorem hexPairs_encodeHex (i : Nat) : hexPairs i (encodeHex bytes) = .ok bytes := by
  induction bytes generalizing i with
  | nil => rfl
  | cons b bytes ih =>
    have hhex : ∀ c ∈ encodeHex (b :: bytes), IsHexDigit c := isHexDigit_encodeHex
    obtain ⟨hhigh, hlow, -⟩ : IsHexDigit _ ∧ IsHexDigit _ ∧ _ := by
      simpa only [encodeHex, List.flatMap_cons, List.cons_append, List.forall_mem_cons] using hhex
    change hexPairs i (_ :: _ :: encodeHex bytes) = _
    simp only [hexPairs, hhigh.utf8Size, hlow.utf8Size, fromStrRadix_digitChar, ih]
    rfl

theorem encodeHex_take (n : Nat) : (encodeHex bytes).take (2 * n) = encodeHex (bytes.take n) := by
  induction bytes generalizing n with
  | nil => simp [encodeHex]
  | cons b bytes ih =>
    rcases n with _ | n
    · rfl
    change _ :: _ :: (encodeHex bytes).take (2 * n) = _
    rw [ih]
    rfl

theorem decodeHex_encodeHex : decodeHex (encodeHex bytes) = .ok bytes := by
  have hhex : ∀ c ∈ encodeHex bytes, IsHexDigit c := isHexDigit_encodeHex
  have heven : ¬ (asBytes (encodeHex bytes)).length % 2 ≠ 0 := by
    rw [length_asBytes hhex, length_encodeHex, not_not, Nat.mul_mod_right]
  rw [decodeHex, trim_eq_self fun c hc => (hhex c hc).isWhitespace]
  exact (if_neg heven).trans (hexPairs_encodeHex bytes 0)

/-- A text of hex digits cut inside a byte. -/
theorem decodeHex_odd (h : ∀ c ∈ text, IsHexDigit c) (hodd : text.length % 2 = 1) :
    decodeHex text = .error .oddLength := by
  rw [decodeHex, trim_eq_self fun c hc => (h c hc).isWhitespace]
  exact if_pos (by rw [length_asBytes h, hodd]; exact one_ne_zero)

/-- The first digits of a hex text: the first bytes, or half a byte too much. -/
theorem decodeHex_take {n : Nat} (hn : n ≤ 2 * bytes.length) :
    decodeHex ((encodeHex bytes).take n) =
      if n % 2 = 0 then .ok (bytes.take (n / 2)) else .error .oddLength := by
  split_ifs with heven
  · rw [← Nat.mul_div_cancel' (Nat.dvd_of_mod_eq_zero heven), encodeHex_take, decodeHex_encodeHex,
      Nat.mul_div_cancel_left _ two_pos]
  · refine decodeHex_odd (fun c hc => isHexDigit_encodeHex c (List.mem_of_mem_take hc)) ?_
    rw [List.length_take_of_le (by rwa [length_encodeHex]), Nat.mod_two_ne_zero.1 heven]

/-! ### What is accepted -/

/-- Pairs of hex digits and their bytes; a plus sign counts as a zero in front of a digit. -/
inductive ReadsPairs : List Char → Bytes → Prop
  | nil : ReadsPairs [] []
  | cons {c d : Char} {high low : Nat} {rest : List Char} {bytes : Bytes} :
      (toDigit c = some high ∨ c = '+' ∧ high = 0) → toDigit d = some low →
      ReadsPairs rest bytes → ReadsPairs (c :: d :: rest) (Fin.ofNat 256 (16 * high + low) :: bytes)

/-- The next two bytes of a text end inside a character. -/
def CutsChar : List Char → Prop
  | [] => False
  | [c] => c.utf8Size ≠ 2
  | c :: d :: _ => 2 < c.utf8Size ∨ c.utf8Size = 1 ∧ d.utf8Size ≠ 1

theorem utf8Size_of_toDigit {n : Nat} (h : toDigit c = some n) : c.utf8Size = 1 := by
  have hle : c ≤ 'f' := by
    unfold toDigit at h
    split_ifs at h with hdigit hlower hupper
    exacts [hdigit.2.trans (by decide), hlower.2, hupper.2.trans (by decide)]
  exact if_pos (UInt32.le_trans hle (by decide))

theorem fromStrRadix_eq_some_iff {d : Char} {b : Byte} : fromStrRadix c d = some b ↔
    ∃ high low, (toDigit c = some high ∨ c = '+' ∧ high = 0) ∧ toDigit d = some low ∧
      Fin.ofNat 256 (16 * high + low) = b := by
  have hplus : toDigit '+' = none := rfl
  by_cases hc : c = '+'
  · simp [fromStrRadix, hc, hplus]
  · simp [fromStrRadix, hc, Option.bind_eq_some_iff]

theorem hexPairs_cons_cons {d : Char} {b : Byte} {i : Nat} (h : fromStrRadix c d = some b) :
    hexPairs i (c :: d :: text) = (hexPairs (i + 2) text).map (b :: ·) := by
  obtain ⟨high, low, hc, hd, -⟩ := fromStrRadix_eq_some_iff.1 h
  have hc : c.utf8Size = 1 := hc.elim utf8Size_of_toDigit fun hc => hc.1 ▸ rfl
  simp [hexPairs, hc, utf8Size_of_toDigit hd, h]

theorem hexPairs_eq_ok_iff {i : Nat} {bytes : Bytes} :
    hexPairs i text = .ok bytes ↔ ReadsPairs text bytes := by
  constructor
  · intro h
    fun_induction hexPairs i text generalizing bytes with
    | case1 =>
      cases h
      exact .nil
    | case5 i c hc d rest hd b hb ih =>
      rcases hrest : hexPairs (i + 2) rest with e | bytes <;> rw [hrest] at h <;> cases h
      obtain ⟨high, low, hhigh, hlow, rfl⟩ := fromStrRadix_eq_some_iff.1 hb
      exact .cons hhigh hlow (ih hrest)
    | _ => cases h
  · intro h
    induction h generalizing i with
    | nil => rfl
    | cons hhigh hlow _ ih =>
      rw [hexPairs_cons_cons (fromStrRadix_eq_some_iff.2 ⟨_, _, hhigh, hlow, rfl⟩), ih]
      rfl

theorem hexPairs_eq_panic_iff {i : Nat} : hexPairs i text = .error .panic ↔
    ∃ good rest bytes, text = good ++ rest ∧ ReadsPairs good bytes ∧ CutsChar rest := by
  constructor
  · intro h
    fun_induction hexPairs i text with
    | case2 i c hc => exact ⟨[], [c], [], rfl, .nil, by simp [CutsChar, hc]⟩
    | case3 i c hc d rest hd => exact ⟨[], _, [], rfl, .nil, .inr ⟨hc, hd⟩⟩
    | case5 i c hc d rest hd b hb ih =>
      rcases hrest : hexPairs (i + 2) rest with e | bytes <;> rw [hrest] at h <;> cases h
      obtain ⟨good, bad, bytes, rfl, hgood, hbad⟩ := ih hrest
      obtain ⟨high, low, hhigh, hlow, -⟩ := fromStrRadix_eq_some_iff.1 hb
      exact ⟨c :: d :: good, bad, _, rfl, .cons hhigh hlow hgood, hbad⟩
    | case7 i c rest hone htwo =>
      have hpos := c.utf8Size_pos
      refine ⟨[], _, [], rfl, .nil, ?_⟩
      rcases rest with _ | _
      · exact htwo
      · exact .inl (by omega)
    | _ => cases h
  · rintro ⟨good, rest, bytes, rfl, hgood, hrest⟩
    induction hgood generalizing i with
    | nil =>
      rcases rest with _ | ⟨c, _ | ⟨d, rest⟩⟩
      · cases hrest
      · by_cases hc : c.utf8Size = 1
        · simp [hexPairs, hc]
        · simp [hexPairs, hc, show c.utf8Size ≠ 2 from hrest]
      · rcases hrest with hc | ⟨hc, hd⟩
        · simp [hexPairs, show c.utf8Size ≠ 1 by omega, show c.utf8Size ≠ 2 by omega]
        · simp [hexPairs, hc, hd]
    | cons hhigh hlow _ ih =>
      rw [List.cons_append, List.cons_append,
        hexPairs_cons_cons (fromStrRadix_eq_some_iff.2 ⟨_, _, hhigh, hlow, rfl⟩), ih]
      rfl

theorem ReadsPairs.even {bytes : Bytes} (h : ReadsPairs text bytes) :
    (asBytes text).length % 2 = 0 := by
  induction h with
  | nil => rfl
  | cons hhigh hlow _ ih =>
    have hhigh := hhigh.elim utf8Size_of_toDigit fun hc => hc.1 ▸ rfl
    simpa [asBytes, hhigh, utf8Size_of_toDigit hlow, ← add_assoc] using ih

theorem ReadsPairs.digits_iff {bytes : Bytes} (h : ReadsPairs text bytes) :
    (∀ c ∈ text, (toDigit c).isSome) ↔ '+' ∉ text := by
  refine ⟨fun hdigits hplus => absurd (hdigits _ hplus) (by decide), fun hplus => ?_⟩
  induction h with
  | nil => exact List.forall_mem_nil _
  | cons hhigh hlow _ ih =>
    rw [List.mem_cons, List.mem_cons, not_or, not_or] at hplus
    refine List.forall_mem_cons.2 ⟨?_, List.forall_mem_cons.2 ⟨by rw [hlow]; rfl, ih hplus.2.2⟩⟩
    rcases hhigh with hhigh | hhigh
    · rw [hhigh]
      rfl
    · exact absurd hhigh.1.symm hplus.1

/-- Only hex digits are read, unless a pair cuts a character or starts with a plus sign. -/
theorem decodeHex_spec_iff : (decodeHex text ≠ .error .panic ∧
      ∀ bytes, decodeHex text = .ok bytes ↔
        ReadsPairs (trim text) bytes ∧ ∀ c ∈ trim text, (toDigit c).isSome) ↔
    (asBytes (trim text)).length % 2 ≠ 0 ∨
      ∀ good rest bytes, trim text = good ++ rest → ReadsPairs good bytes →
        ¬ CutsChar rest ∧ (rest = [] → '+' ∉ good) := by
  unfold decodeHex
  dsimp only
  split_ifs with hodd
  · exact iff_of_true ⟨nofun, fun bytes => iff_of_false nofun fun h => hodd h.1.even⟩ (.inl hodd)
  rw [or_iff_right hodd, ne_eq, hexPairs_eq_panic_iff]
  simp only [hexPairs_eq_ok_iff]
  constructor
  · rintro ⟨hpanic, hok⟩ good rest bytes heq hgood
    refine ⟨fun hcuts => hpanic ⟨good, rest, bytes, heq, hgood, hcuts⟩, ?_⟩
    rintro rfl
    rw [List.append_nil] at heq
    exact heq ▸ hgood.digits_iff.1 (heq ▸ ((hok bytes).1 (heq ▸ hgood)).2)
  · intro h
    refine ⟨?_, fun bytes => ⟨fun hreads => ⟨hreads, ?_⟩, And.left⟩⟩
    · rintro ⟨good, rest, bytes, heq, hgood, hcuts⟩
      exact (h good rest bytes heq hgood).1 hcuts
    · exact hreads.digits_iff.2 ((h _ [] _ (List.append_nil _).symm hreads).2 rfl)

end FacetQL
