import Mathlib

/-!
# Bytes

Numbers as little-endian bytes, and the checksum of a byte string.
-/

/-- The `width` lowest bytes of a number, the lowest first. -/
def leBytes : (width : Nat) → Nat → List (Fin 256)
  | 0, _ => []
  | width + 1, n => Fin.ofNat 256 n :: leBytes width (n / 256)

/-- The number that a list of bytes stands for, the lowest first. -/
def ofLeBytes : List (Fin 256) → Nat
  | [] => 0
  | b :: bs => b.val + 256 * ofLeBytes bs

@[simp]
theorem length_leBytes (width n : Nat) : (leBytes width n).length = width := by
  induction width generalizing n with
  | zero => rfl
  | succ width ih => rw [leBytes, List.length_cons, ih]

theorem ofLeBytes_leBytes {width n : Nat} (h : n < 256 ^ width) :
    ofLeBytes (leBytes width n) = n := by
  induction width generalizing n with
  | zero => exact (Nat.lt_one_iff.1 h).symm
  | succ width ih =>
    have hdiv : n / 256 < 256 ^ width := by
      rw [Nat.div_lt_iff_lt_mul (by norm_num), ← pow_succ]
      exact h
    rw [leBytes, ofLeBytes, ih hdiv]
    exact Nat.mod_add_div n 256

/-- The `width` lowest bytes of a number, the highest first. -/
def beBytes (width n : Nat) : List (Fin 256) := (leBytes width n).reverse

@[simp]
theorem length_beBytes (width n : Nat) : (beBytes width n).length = width := by
  rw [beBytes, List.length_reverse, length_leBytes]

theorem beBytes_inj {width m n : Nat} (hm : m < 256 ^ width) (hn : n < 256 ^ width)
    (h : beBytes width m = beBytes width n) : m = n := by
  have hle : leBytes width m = leBytes width n := List.reverse_injective h
  rw [← ofLeBytes_leBytes hm, hle, ofLeBytes_leBytes hn]

theorem append_lt_append_iff (pre a b : List (Fin 256)) : pre ++ a < pre ++ b ↔ a < b := by
  induction pre with
  | nil => rfl
  | cons c pre ih =>
    rw [List.cons_append, List.cons_append, List.cons_lt_cons_iff, ih]
    simp

/-- One bit of the checksum: shift it out, and fold the polynomial in if it was set. -/
def crcBit (crc : BitVec 32) : BitVec 32 :=
  let mask := -(crc &&& 1#32)
  (crc >>> 1) ^^^ (0xEDB88320#32 &&& mask)

/-- One byte of the checksum. -/
def crcByte (crc : BitVec 32) (b : Fin 256) : BitVec 32 :=
  crcBit^[8] (crc ^^^ BitVec.ofNat 32 b.val)

/-- The checksum of a byte string. -/
def crc32 (data : List (Fin 256)) : Nat :=
  (~~~ data.foldl crcByte 0xFFFFFFFF#32).toNat

theorem crc32_lt (data : List (Fin 256)) : crc32 data < 256 ^ 4 := BitVec.isLt _

-- The check value of the algorithm: the checksum of the digits from one to nine.
example : crc32 [0x31, 0x32, 0x33, 0x34, 0x35, 0x36, 0x37, 0x38, 0x39] = 0xCBF43926 := by
  decide +kernel
