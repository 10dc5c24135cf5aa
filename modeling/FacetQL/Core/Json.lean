import Mathlib.Data.Nat.Notation
import Mathlib.Order.Compare

/-!
# JSON values

The values that the data of a node decodes to. Parsing, printing and the numbers are those of
the crate `serde_json`, and the arithmetic is that of `f64`: all of it is a parameter.
-/

namespace FacetQL

/-- A JSON value over a type of numbers. -/
inductive Json (ν : Type)
  | null
  | bool (b : Bool)
  | number (n : ν)
  | string (s : String)
  | array (items : List (Json ν))
  | object (fields : List (String × Json ν))

namespace Json

variable {ν : Type}

/-- The value of a field; a value that is no object has none. -/
def get (field : String) : Json ν → Option (Json ν)
  | .object fields => fields.lookup field
  | _ => none

/-- The text of a string. -/
def asStr : Json ν → Option String
  | .string s => some s
  | _ => none

/-- The value of a boolean. -/
def asBool : Json ν → Option Bool
  | .bool b => some b
  | _ => none

/-- Is this `null`? -/
def isNull : Json ν → Bool
  | .null => true
  | _ => false

mutual

/-- Structural equality, with the equality of the numbers. -/
def eq (numberEq : ν → ν → Bool) : Json ν → Json ν → Bool
  | .null, .null => true
  | .bool a, .bool b => a == b
  | .number a, .number b => numberEq a b
  | .string a, .string b => a == b
  | .array a, .array b => eqItems numberEq a b
  | .object a, .object b => eqFields numberEq a b
  | _, _ => false

/-- The equality of arrays. -/
def eqItems (numberEq : ν → ν → Bool) : List (Json ν) → List (Json ν) → Bool
  | [], [] => true
  | a :: as, b :: bs => eq numberEq a b && eqItems numberEq as bs
  | _, _ => false

/-- The equality of objects. -/
def eqFields (numberEq : ν → ν → Bool) : List (String × Json ν) → List (String × Json ν) → Bool
  | [], [] => true
  | (k, a) :: as, (l, b) :: bs => k == l && eq numberEq a b && eqFields numberEq as bs
  | _, _ => false

end

variable {numberEq : ν → ν → Bool}

mutual

theorem eq_symm (h : ∀ m n, numberEq m n = numberEq n m) (v w : Json ν) :
    v.eq numberEq w = w.eq numberEq v := by
  cases v <;> cases w <;> try rfl
  · exact BEq.comm
  · exact h _ _
  · exact BEq.comm
  · exact eqItems_symm h _ _
  · exact eqFields_symm h _ _

theorem eqItems_symm (h : ∀ m n, numberEq m n = numberEq n m) :
    ∀ a b : List (Json ν), eqItems numberEq a b = eqItems numberEq b a
  | [], [] | [], _ :: _ | _ :: _, [] => rfl
  | v :: a, w :: b => congrArg₂ and (eq_symm h v w) (eqItems_symm h a b)

theorem eqFields_symm (h : ∀ m n, numberEq m n = numberEq n m) :
    ∀ a b : List (String × Json ν), eqFields numberEq a b = eqFields numberEq b a
  | [], [] | [], _ :: _ | _ :: _, [] => rfl
  | (_, v) :: a, (_, w) :: b =>
    congrArg₂ and (congrArg₂ and BEq.comm (eq_symm h v w)) (eqFields_symm h a b)

end

end Json

/-- The crate `serde_json` and the arithmetic of `f64`. -/
structure SerdeJson where
  /-- The numbers of JSON. -/
  Number : Type
  /-- The floats. -/
  F64 : Type
  /-- The value of a number as a float. -/
  asF64 : Number → Option F64
  /-- A number for a float that is finite. -/
  fromF64 : F64 → Option Number
  /-- Does the number fit in a signed word? -/
  isI64 : Number → Bool
  /-- Does the number fit in an unsigned word? -/
  isU64 : Number → Bool
  /-- The number as a signed word. -/
  asI64 : Number → Option Int
  /-- The number as an unsigned word. -/
  asU64 : Number → Option Nat
  /-- The number of an integer that fits in 64 bits, with or without a sign. -/
  fromInt : Int → Number
  /-- An integer as a float. -/
  ofInt : Int → F64
  /-- The equality of numbers. -/
  numberEq : Number → Number → Bool
  /-- The float zero. -/
  zero : F64
  /-- The negation of a float. -/
  neg : F64 → F64
  /-- The integral part of a float. -/
  trunc : F64 → F64
  /-- The sum of floats. -/
  add : F64 → F64 → F64
  /-- The difference of floats. -/
  sub : F64 → F64 → F64
  /-- The product of floats. -/
  mul : F64 → F64 → F64
  /-- The quotient of floats. -/
  div : F64 → F64 → F64
  /-- The remainder of floats. -/
  rem : F64 → F64 → F64
  /-- Are the floats equal? -/
  feq : F64 → F64 → Bool
  /-- Is the first float less? -/
  flt : F64 → F64 → Bool
  /-- Is the first float at most the second? -/
  fle : F64 → F64 → Bool
  /-- The order of floats, unless one is not a number. -/
  partialCmp : F64 → F64 → Option Ordering
  /-- Is the sign bit set? -/
  signNegative : F64 → Bool
  /-- The bits of a float. -/
  toBits : F64 → BitVec 64
  /-- What a text decodes to, if it is JSON. -/
  parse : String → Option (Json Number)
  /-- The message for a text that is no JSON. -/
  parseError : String → String
  /-- The text of a value. -/
  print : Json Number → String
  /-- The pair of an order value, if there is one, and an address, as `{o, a}`. -/
  encodeCursor : Option (Json Number) → String → List (Fin 256)
  /-- Such a pair, read back. -/
  decodeCursor : List (Fin 256) → Option (Option (Json Number) × String)
  /-- The text of a value in the format `{:?}`. -/
  debug : Json Number → String
  /-- The same format, of a text. -/
  debugStr : String → String

namespace SerdeJson

/-- The values over the numbers of the crate. -/
abbrev Value (J : SerdeJson) : Type := Json J.Number

variable (J : SerdeJson)

/-- A value as a float, if it is a number. -/
def valueAsF64 : J.Value → Option J.F64
  | .number n => J.asF64 n
  | _ => none

/-- A float as a value; one that is not finite has none. -/
def numberValue (f : J.F64) : J.Value :=
  match J.fromF64 f with
  | some n => .number n
  | none => .null

/-- The format `{:?}` of a text that may be absent. -/
def debugOpt : Option String → String
  | some s => "Some(" ++ J.debugStr s ++ ")"
  | none => "None"

/-- The value of a field of a node's data, which may be no JSON at all. -/
def dataField (data field : String) : Option J.Value := (J.parse data).bind (Json.get field)

/-- Numbers that are integers, and texts that are no values. -/
def integers : SerdeJson where
  Number := Int
  F64 := Int
  asF64 := some
  fromF64 := some
  isI64 _ := true
  isU64 n := 0 ≤ n
  asI64 := some
  asU64 := Int.toNat?
  fromInt := id
  ofInt := id
  numberEq := (· == ·)
  zero := 0
  neg := (- ·)
  trunc := id
  add := (· + ·)
  sub := (· - ·)
  mul := (· * ·)
  div := (· / ·)
  rem := (· % ·)
  feq := (· == ·)
  flt a b := a < b
  fle a b := a ≤ b
  partialCmp a b := some (compare a b)
  signNegative n := n < 0
  toBits := BitVec.ofInt 64
  parse _ := none
  parseError _ := ""
  print _ := ""
  encodeCursor _ _ := []
  decodeCursor _ := none
  debug _ := ""
  debugStr := id

end SerdeJson

end FacetQL
