import FacetQL.Core.Json
import Mathlib.Data.List.Infix
import Mathlib.Data.Option.Basic

/-!
# Predicates

The expressions of `core/predicate.rs` that a query filters by, their evaluation against the
data of one node, and the literals in them that an index can be asked for.

* `literals_sound`: every match meets what the literals require.
-/

namespace FacetQL

/-- An expression, as it comes over the wire. -/
inductive Expr (ν : Type)
  | mk (kind : String) (val : Option (Json ν)) (vtype name field : Option String)
    (obj key : Option (Expr ν)) (op : Option String) (args : Option (List (Expr ν)))
    (l r x : Option (Expr ν)) (var : Option String) (where_ : Option (Expr ν))

namespace Expr

variable {ν : Type}

/-- What sort of expression this is. -/
def kind : Expr ν → String
  | mk k _ _ _ _ _ _ _ _ _ _ _ _ _ => k

/-- The value of a literal. -/
def val : Expr ν → Option (Json ν)
  | mk _ v _ _ _ _ _ _ _ _ _ _ _ _ => v

/-- The type of a literal. -/
def vtype : Expr ν → Option String
  | mk _ _ t _ _ _ _ _ _ _ _ _ _ _ => t

/-- The name that is referenced. -/
def name : Expr ν → Option String
  | mk _ _ _ n _ _ _ _ _ _ _ _ _ _ => n

/-- The field that is accessed. -/
def field : Expr ν → Option String
  | mk _ _ _ _ f _ _ _ _ _ _ _ _ _ => f

/-- What a field or a key is taken of. -/
def obj : Expr ν → Option (Expr ν)
  | mk _ _ _ _ _ o _ _ _ _ _ _ _ _ => o

/-- The key of an access. -/
def key : Expr ν → Option (Expr ν)
  | mk _ _ _ _ _ _ k _ _ _ _ _ _ _ => k

/-- The operator. -/
def op : Expr ν → Option String
  | mk _ _ _ _ _ _ _ o _ _ _ _ _ _ => o

/-- The arguments of a call. -/
def args : Expr ν → Option (List (Expr ν))
  | mk _ _ _ _ _ _ _ _ a _ _ _ _ _ => a

/-- The left operand. -/
def l : Expr ν → Option (Expr ν)
  | mk _ _ _ _ _ _ _ _ _ l _ _ _ _ => l

/-- The right operand. -/
def r : Expr ν → Option (Expr ν)
  | mk _ _ _ _ _ _ _ _ _ _ r _ _ _ => r

/-- The operand of a unary operator. -/
def x : Expr ν → Option (Expr ν)
  | mk _ _ _ _ _ _ _ _ _ _ _ x _ _ => x

/-- A condition: it is validated, and no evaluation reads it. -/
def where_ : Expr ν → Option (Expr ν)
  | mk _ _ _ _ _ _ _ _ _ _ _ _ _ w => w

/-- The expressions that stand in the fields of one. -/
def children (e : Expr ν) : List (Expr ν) :=
  [e.obj, e.key, e.l, e.r, e.x, e.where_].reduceOption ++ e.args.getD []

end Expr

/-! ## Bounds -/

/-- The deepest that a predicate may nest. -/
def maxPredicateDepth : Nat := 64

/-- How many expressions a predicate may consist of. -/
def maxPredicateNodes : Nat := 256

/-- The longest text that an operator in a predicate may make. -/
def maxPredicateString : Nat := 64 * 1024

/-- How many values the set of an `in` may hold. -/
def maxInSet : Nat := 1000

/-- The refusal of a predicate that nests too deep. -/
def nestsTooDeep : String :=
  "predicate nests deeper than " ++ toString maxPredicateDepth ++ " levels; " ++
    "simplify it or split the query"

/-- The refusal of a predicate that is too large. -/
def tooManyNodes : String :=
  "predicate has more than " ++ toString maxPredicateNodes ++ " expression " ++
    "nodes. Every node is evaluated once per candidate row, so the " ++
    "work a single request can ask for is the node count times the " ++
    "row count; simplify the filter or narrow the query."

namespace Predicate

/-- Check an expression that may nest `levels` deep, and give back what is left of the budget. -/
def validateAt {ν : Type} : (levels : Nat) → Expr ν → (budget : Nat) → Except String Nat
  | 0, _, _ => .error nestsTooDeep
  | _ + 1, _, 0 => .error tooManyNodes
  | levels + 1, e, budget + 1 =>
    e.children.foldlM (fun budget child => validateAt levels child budget) budget

/-- Refuse a predicate that is too deep or too large. -/
def validate {ν : Type} (e : Expr ν) : Except String Unit :=
  (validateAt maxPredicateDepth e maxPredicateNodes).map fun _ => ()

/-! ## Evaluation -/

/-- The lower case of a character that is not ASCII, as the table `GO_LOWER` has it. -/
abbrev LowerTable := Char → Option Char

/-- The lower case of a text, character by character. -/
def goLower (table : LowerTable) (s : String) : String :=
  String.ofList (s.toList.map fun c =>
    if c.val < 128 then c.toLower else (table c).getD c)

variable (J : SerdeJson) (table : LowerTable)

/-- What counts as true: everything but `false` and `null`. -/
def truthy : J.Value → Bool
  | .bool b => b
  | .null => false
  | _ => true

/-- Numbers are compared by value, everything else by structure. -/
def valuesEqual (l r : J.Value) : Bool :=
  match l, r with
  | .number _, .number _ =>
    match J.valueAsF64 l, J.valueAsF64 r with
    | some a, some b => J.feq a b
    | none, none => true
    | _, _ => false
  | _, _ => l.eq J.numberEq r

/-- The value of a literal, in the type that it declares. -/
def litValue (e : Expr J.Number) : J.Value :=
  let val := e.val.getD .null
  match e.vtype with
  | some "int" =>
    match val with
    | .number n =>
      if J.isI64 n || J.isU64 n then val
      else ((J.asF64 n).map fun f => J.numberValue (J.trunc f)).getD .null
    | _ => .null
  | some "bool" => .bool (val.asBool.getD false)
  | some "text" =>
    match val with
    | .string _ => val
    | other => .string (J.print other)
  | _ => val

/-- Both operands as numbers. -/
def numericPair (l r : J.Value) (op : String) : Except String (J.F64 × J.F64) :=
  match J.valueAsF64 l, J.valueAsF64 r with
  | some lf, some rf => .ok (lf, rf)
  | _, _ => .error ("operator " ++ J.debugStr op ++ " requires numeric operands, got " ++
      J.debug l ++ " and " ++ J.debug r)

/-- Whether a text occurs in another one. -/
def contains (haystack needle : String) : Bool :=
  haystack.toList.tails.any fun tail => needle.toList.isPrefixOf tail

/-- The tests of one text against another. -/
def evalTextTest (op : String) (l r : J.Value) : J.Value :=
  match l, r with
  | .string haystack, .string needle =>
    .bool (if op = "starts_with" then needle.toList.isPrefixOf haystack.toList
      else if op = "ends_with" then needle.toList.isSuffixOf haystack.toList
      else contains haystack needle)
  | _, _ => .bool false

/-- The tests for membership in an array. -/
def evalMembership (op : String) (l r : J.Value) : Except String J.Value :=
  match r with
  | .array set =>
    if maxInSet < set.length then
      .error ("`" ++ op ++ "` set holds " ++
        toString set.length ++ " values; the maximum is " ++ toString maxInSet ++ "." ++
        "                      A set is compared against once per candidate row, so its" ++
        "                      size multiplies the scan.")
    else
      let found := set.any fun candidate => valuesEqual J l candidate
      .ok (.bool (if op = "in" then found else !found))
  | _ => .error ("operator " ++ J.debugStr op ++ " needs an array on the right, got " ++ J.debug r)

/-- The comparisons of numbers. -/
def evalOrdering (op : String) (l r : J.Value) : Except String J.Value := do
  let (lf, rf) ← numericPair J l r op
  return .bool (if op = "<" then J.flt lf rf
    else if op = "<=" then J.fle lf rf
    else if op = ">" then J.flt rf lf
    else J.fle rf lf)

/-- Addition, and the concatenation of texts. -/
def evalPlus (l r : J.Value) : Except String J.Value :=
  match l, r with
  | .string ls, .string rs =>
    let length := ls.utf8ByteSize + rs.utf8ByteSize
    if maxPredicateString < length then
      .error ("string concatenation inside a predicate would " ++
        "produce " ++ toString length ++ " bytes; the maximum is " ++
        toString maxPredicateString ++ ". A predicate decides whether " ++
        "one record matches — it is not a place to build a value.")
    else .ok (.string (ls ++ rs))
  | _, _ => do
    let (lf, rf) ← numericPair J l r "+"
    return J.numberValue (J.add lf rf)

/-- The arithmetic of numbers. -/
def evalArithmetic (op : String) (l r : J.Value) : Except String J.Value := do
  let (lf, rf) ← numericPair J l r op
  if op = "-" then return J.numberValue (J.sub lf rf)
  else if op = "*" then return J.numberValue (J.mul lf rf)
  else if op = "/" then
    if J.feq rf J.zero then throw "division by zero" else return J.numberValue (J.div lf rf)
  else if J.feq rf J.zero then throw "modulo by zero" else return J.numberValue (J.rem lf rf)

/-- A binary operator, on the values of its operands. -/
def evalBinOp (op : String) (l r : J.Value) : Except String J.Value :=
  if op = "==" then .ok (.bool (valuesEqual J l r))
  else if op = "!=" then .ok (.bool !(valuesEqual J l r))
  else if op = "starts_with" ∨ op = "ends_with" ∨ op = "contains" then .ok (evalTextTest J op l r)
  else if op = "in" ∨ op = "not in" then evalMembership J op l r
  else if op = "<" ∨ op = "<=" ∨ op = ">" ∨ op = ">=" then evalOrdering J op l r
  else if op = "+" then evalPlus J l r
  else if op = "-" ∨ op = "*" ∨ op = "/" ∨ op = "%" then evalArithmetic J op l r
  else .error ("cannot evaluate operator " ++ J.debugStr op)

/-- The text of a value, in lower case. -/
def lowerText : J.Value → String
  | .string s => goLower table s
  | .null => ""
  | .bool b => if b then "true" else "false"
  | other => goLower table (J.print other)

/-- Is this the variable that the predicate is about? -/
def isItemRef {ν : Type} (itemVar : String) (obj : Expr ν) : Bool :=
  obj.kind == "ref" && obj.name == some itemVar

/-- The value of an expression that may nest `levels` deep. -/
def evalAt (itemVar : String) (data : J.Value) :
    (levels : Nat) → Expr J.Number → Except String J.Value
  | 0, _ => .error nestsTooDeep
  | levels + 1, e =>
    let eval := evalAt itemVar data levels
    if e.kind = "lit" then .ok (litValue J e)
    else if e.kind = "get" then
      match e.obj with
      | none => .error "get expression missing obj"
      | some obj =>
        if !isItemRef itemVar obj then
          .error ("cannot evaluate field access " ++ J.debugOpt e.field ++
            ": not a reference to " ++ itemVar)
        else
          match e.field with
          | none => .error "get expression missing field"
          | some field => .ok ((data.get field).getD .null)
    else if e.kind = "un" then
      match e.x with
      | none => .error "un expression missing x"
      | some x =>
        match eval x with
        | .error err => .error err
        | .ok value =>
          if e.op = some "!" then .ok (.bool !(truthy J value))
          else if e.op = some "-" then
            match J.valueAsF64 value with
            | some n => .ok (J.numberValue (J.neg n))
            | none => .error "cannot negate a non-numeric value"
          else .error ("cannot evaluate unary operator " ++ J.debugOpt e.op)
    else if e.kind = "bin" then
      match e.l, e.r with
      | none, _ => .error "bin expression missing l"
      | some _, none => .error "bin expression missing r"
      | some l, some r =>
        match e.op with
        | none => .error "bin expression missing op"
        | some op =>
          match eval l with
          | .error err => .error err
          | .ok lv =>
            -- A right-hand side that the left one rules out is not evaluated.
            if op = "&&" && !(truthy J lv) then .ok (.bool false)
            else if op = "||" && truthy J lv then .ok (.bool true)
            else
              match eval r with
              | .error err => .error err
              | .ok rv =>
                if op = "&&" ∨ op = "||" then .ok (.bool (truthy J rv)) else evalBinOp J op lv rv
    else if e.kind = "call" then
      if e.name = some "lower" then
        match e.args.getD [] with
        | [arg] => (eval arg).map fun value => .string (lowerText J table value)
        | _ => .error "lower takes exactly one argument"
      else .error ("cannot evaluate a call to " ++ J.debugOpt e.name ++
        ": the only function a predicate may call is lower")
    else .error ("cannot evaluate " ++ J.debugStr e.kind ++ " expression")

/-- The value of a predicate on the data of a node. -/
def eval (e : Expr J.Number) (itemVar : String) (data : J.Value) : Except String J.Value :=
  evalAt J table itemVar data maxPredicateDepth e

/-! ## What an index can be asked for -/

/-- An access to this field. -/
def isFieldAccess {ν : Type} (e : Expr ν) (itemVar field : String) : Bool :=
  e.kind == "get" && e.field == some field && e.obj.any (isItemRef itemVar)

/-- The lower case of this field. -/
def isLoweredField {ν : Type} (e : Expr ν) (itemVar field : String) : Bool :=
  e.kind == "call" && e.name == some "lower" &&
    match e.args with
    | some [arg] => isFieldAccess arg itemVar field
    | _ => false

/-- A text that the field starts with whenever the predicate holds. -/
def prefixLiteralAt (itemVar field : String) : (levels : Nat) → Expr J.Number → Option String
  | 0, _ => none
  | levels + 1, e =>
    if e.kind ≠ "bin" then none
    else
      match e.l, e.r with
      | some l, some r =>
        if e.op = some "&&" then
          (prefixLiteralAt itemVar field levels l).orElse fun _ =>
            prefixLiteralAt itemVar field levels r
        else if e.op = some "starts_with" then
          if r.kind ≠ "lit" || !isFieldAccess l itemVar field then none
          else
            match litValue J r with
            | .string s => if s ≠ "" then some s else none
            | _ => none
        else none
      | _, _ => none

/-- The text that the field has to start with. -/
def prefixLiteral (e : Expr J.Number) (itemVar field : String) : Option String :=
  prefixLiteralAt J itemVar field maxPredicateDepth e

/-- Texts that the field contains whenever the predicate holds. -/
def substringLiteralsAt (itemVar field : String) (lowered : Bool) :
    (levels : Nat) → Expr J.Number → List String
  | 0, _ => []
  | levels + 1, e =>
    if e.kind ≠ "bin" then []
    else
      match e.l, e.r with
      | some l, some r =>
        if e.op = some "&&" then
          substringLiteralsAt itemVar field lowered levels l ++
            substringLiteralsAt itemVar field lowered levels r
        else if e.op = some "contains" ∨ e.op = some "starts_with" ∨ e.op = some "ends_with" then
          let target :=
            if lowered then isLoweredField l itemVar field else isFieldAccess l itemVar field
          if r.kind ≠ "lit" || !target then []
          else
            match litValue J r with
            | .string s => if s ≠ "" then [s] else []
            | _ => []
        else []
      | _, _ => []

/-- The texts that the field has to contain. -/
def substringLiterals (e : Expr J.Number) (itemVar field : String) : List String :=
  substringLiteralsAt J itemVar field false maxPredicateDepth e

/-- The texts that the field in lower case has to contain. -/
def loweredSubstringLiterals (e : Expr J.Number) (itemVar field : String) : List String :=
  substringLiteralsAt J itemVar field true maxPredicateDepth e

/-- `<field access> == <literal>`. Not for `null`, which is the value of an absent field, too. -/
def matchEquality (access literal : Expr J.Number) (itemVar field : String) : Option J.Value :=
  if access.kind ≠ "get" || literal.kind ≠ "lit" then none
  else if access.field ≠ some field then none
  else
    match access.obj with
    | none => none
    | some obj =>
      if !isItemRef itemVar obj then none
      else
        let value := litValue J literal
        if value.isNull then none else some value

/-- A value that the field is equal to whenever the predicate holds. -/
def equalityLiteralAt (itemVar field : String) : (levels : Nat) → Expr J.Number → Option J.Value
  | 0, _ => none
  | levels + 1, e =>
    if e.kind ≠ "bin" then none
    else
      match e.l, e.r with
      | some l, some r =>
        if e.op = some "&&" then
          (equalityLiteralAt itemVar field levels l).orElse fun _ =>
            equalityLiteralAt itemVar field levels r
        else if e.op = some "==" then
          (matchEquality J l r itemVar field).orElse fun _ => matchEquality J r l itemVar field
        else none
      | _, _ => none

/-- The value that the field has to be equal to. -/
def equalityLiteral (e : Expr J.Number) (itemVar field : String) : Option J.Value :=
  equalityLiteralAt J itemVar field maxPredicateDepth e

/-! ## What a match requires -/

/-- The value of the field, or its text in lower case. -/
def targetValue (data : J.Value) (field : String) : (lowered : Bool) → J.Value
  | false => (data.get field).getD .null
  | true => .string (lowerText J table ((data.get field).getD .null))

/-- The expression evaluates to something true. -/
def Matches (itemVar : String) (data : J.Value) (levels : Nat) (e : Expr J.Number) : Prop :=
  ∃ v, evalAt J table itemVar data levels e = .ok v ∧ truthy J v = true

section

variable {J table} {itemVar field : String} {data : J.Value} {levels : Nat}
  {e l r : Expr J.Number} {v w : J.Value} {op s : String}

theorem valuesEqual_symm (hnumber : ∀ m n, J.numberEq m n = J.numberEq n m)
    (hfloat : ∀ f g, J.feq f g = J.feq g f) : valuesEqual J v w = valuesEqual J w v := by
  cases v <;> cases w <;> try exact Json.eq_symm hnumber _ _
  rename_i m n
  simp only [valuesEqual, SerdeJson.valueAsF64]
  rcases J.asF64 m with _ | f <;> rcases J.asF64 n with _ | g <;> try rfl
  exact hfloat f g

theorem evalAt_lit (h : evalAt J table itemVar data levels e = .ok v) (hkind : e.kind = "lit") :
    v = litValue J e := by
  rcases levels with _ | levels
  · cases h
  rw [evalAt, if_pos hkind] at h
  exact (Except.ok.inj h).symm

theorem evalAt_field (h : evalAt J table itemVar data levels e = .ok v)
    (hfield : isFieldAccess e itemVar field = true) : v = targetValue J table data field false := by
  rcases levels with _ | levels
  · cases h
  simp only [isFieldAccess, Bool.and_eq_true, beq_iff_eq, Option.any_eq_true] at hfield
  obtain ⟨⟨hkind, hname⟩, obj, hobj, hitem⟩ := hfield
  simp [evalAt, hkind, hobj, hitem, hname] at h
  exact h.symm

theorem evalAt_lowered (h : evalAt J table itemVar data levels e = .ok v)
    (hlowered : isLoweredField e itemVar field = true) :
    v = targetValue J table data field true := by
  rcases levels with _ | levels
  · cases h
  simp only [isLoweredField, Bool.and_eq_true, beq_iff_eq] at hlowered
  obtain ⟨⟨hkind, hname⟩, harg⟩ := hlowered
  split at harg
  case h_2 => cases harg
  next arg hargs =>
  simp [evalAt, hkind, hname, hargs] at h
  rcases hvalue : evalAt J table itemVar data levels arg with err | value <;> rw [hvalue] at h
  · cases h
  rw [evalAt_field hvalue harg] at h
  exact (Except.ok.inj h).symm

theorem contains_iff {haystack needle : String} :
    contains haystack needle = true ↔ needle.toList <:+: haystack.toList := by
  simp [contains, List.infix_iff_prefix_suffix, and_comm]

theorem evalTextTest_true (h : truthy J (evalTextTest J op v (.string s)) = true) :
    ∃ text, v = .string text ∧ s.toList <:+: text.toList ∧
      (op = "starts_with" → s.toList <+: text.toList) := by
  rcases v with _ | _ | _ | text | _ | _
  case string =>
    refine ⟨text, rfl, ?_⟩
    simp only [evalTextTest, truthy] at h
    split at h
    · have hstarts := List.isPrefixOf_iff_prefix.1 h
      exact ⟨hstarts.isInfix, fun _ => hstarts⟩
    next hop =>
    refine ⟨?_, fun heq => absurd heq hop⟩
    split at h
    · exact (List.isSuffixOf_iff_suffix.1 h).isInfix
    · exact contains_iff.1 h
  all_goals cases h

section Bin

variable (h : Matches J table itemVar data (levels + 1) e) (hkind : ¬e.kind ≠ "bin")
  (hr : e.r = some r) (hl : e.l = some l)
include h hkind hr hl

theorem Matches.and (hop : e.op = some "&&") :
    Matches J table itemVar data levels l ∧ Matches J table itemVar data levels r := by
  obtain ⟨v, hv, htrue⟩ := h
  simp only [evalAt, not_not.1 hkind, hl, hr, hop, String.reduceEq, if_false, if_true] at hv
  split at hv
  · cases hv
  next lv hlv =>
  split at hv
  · obtain rfl := Except.ok.inj hv
    cases htrue
  next htruthy =>
  simp at htruthy hv
  split at hv
  · cases hv
  next rv hrv =>
  obtain rfl := Except.ok.inj hv
  exact ⟨⟨lv, hlv, htruthy⟩, rv, hrv, htrue⟩

theorem Matches.bin (hop : e.op = some op) (hand : op ≠ "&&") (hor : op ≠ "||") :
    ∃ lv rv v, evalAt J table itemVar data levels l = .ok lv ∧
      evalAt J table itemVar data levels r = .ok rv ∧ evalBinOp J op lv rv = .ok v ∧
      truthy J v = true := by
  obtain ⟨v, hv, htrue⟩ := h
  simp [evalAt, not_not.1 hkind, hl, hr, hop, hand, hor] at hv
  split at hv
  · cases hv
  next lv hlv =>
  split at hv
  · cases hv
  next rv hrv => exact ⟨lv, rv, v, hlv, hrv, hv, htrue⟩

/-- A test of the field's text against a literal finds it there. -/
theorem Matches.text (lowered : Bool) (hop : e.op = some op)
    (htext : op = "contains" ∨ op = "starts_with" ∨ op = "ends_with")
    (hleft : ¬(decide (r.kind ≠ "lit") || !if lowered then isLoweredField l itemVar field
      else isFieldAccess l itemVar field) = true) (hs : litValue J r = .string s) :
    ∃ text, targetValue J table data field lowered = .string text ∧ s.toList <:+: text.toList ∧
      (op = "starts_with" → s.toList <+: text.toList) := by
  have hshort : op ≠ "&&" ∧ op ≠ "||" := by
    rcases htext with rfl | rfl | rfl <;> decide
  obtain ⟨lv, rv, v, hlv, hrv, hv, htrue⟩ := h.bin hkind hr hl hop hshort.1 hshort.2
  simp at hleft
  obtain rfl : lv = targetValue J table data field lowered := by
    rcases lowered with _ | _
    · exact evalAt_field hlv hleft.2
    · exact evalAt_lowered hlv hleft.2
  obtain rfl := (evalAt_lit hrv hleft.1).trans hs
  refine evalTextTest_true (Eq.trans (congrArg (truthy J) (Except.ok.inj (Eq.trans ?_ hv))) htrue)
  rcases htext with rfl | rfl | rfl <;> rfl

end Bin

theorem matchEquality_eq_some {access literal : Expr J.Number}
    (h : matchEquality J access literal itemVar field = some v) :
    isFieldAccess access itemVar field = true ∧ literal.kind = "lit" ∧ litValue J literal = v := by
  simp only [matchEquality, isFieldAccess] at h ⊢
  grind

variable (h : Matches J table itemVar data levels e)
include h

theorem equalityLiteralAt_sound (hsymm : ∀ {v w}, valuesEqual J v w = valuesEqual J w v)
    (hv : equalityLiteralAt J itemVar field levels e = some v) :
    valuesEqual J (targetValue J table data field false) v = true := by
  fun_induction equalityLiteralAt J itemVar field levels e
  case case3 hkind _ _ hr hl hop ihl ihr =>
    obtain ⟨hleft, hright⟩ := h.and hkind hr hl hop
    exact ((Option.orElse_eq_some _ _ _).1 hv).elim (ihl hleft) fun hv => ihr hright hv.2
  case case4 hkind _ _ hr hl _ hop =>
    obtain ⟨lv, rv, w, hlv, hrv, hw, htrue⟩ := h.bin hkind hr hl hop (by decide) (by decide)
    obtain rfl := Except.ok.inj hw
    rcases (Option.orElse_eq_some _ _ _).1 hv with hv | ⟨-, hv⟩
    · obtain ⟨hfield, hlit, rfl⟩ := matchEquality_eq_some hv
      obtain rfl := evalAt_field hlv hfield
      obtain rfl := evalAt_lit hrv hlit
      exact htrue
    · obtain ⟨hfield, hlit, rfl⟩ := matchEquality_eq_some hv
      obtain rfl := evalAt_field hrv hfield
      obtain rfl := evalAt_lit hlv hlit
      exact hsymm.trans htrue
  all_goals cases hv

theorem prefixLiteralAt_sound (hs : prefixLiteralAt J itemVar field levels e = some s) :
    ∃ text, targetValue J table data field false = .string text ∧ s.toList <+: text.toList := by
  fun_induction prefixLiteralAt J itemVar field levels e
  case case3 hkind _ _ hr hl hop ihl ihr =>
    obtain ⟨hleft, hright⟩ := h.and hkind hr hl hop
    exact ((Option.orElse_eq_some _ _ _).1 hs).elim (ihl hleft) fun hs => ihr hright hs.2
  case case5 hkind _ _ hr hl _ hop hleft _ hlit _ =>
    obtain rfl := Option.some.inj hs
    obtain ⟨text, htext, -, hprefix⟩ := h.text hkind hr hl false hop (.inr (.inl rfl)) hleft hlit
    exact ⟨text, htext, hprefix rfl⟩
  all_goals cases hs

theorem substringLiteralsAt_sound {lowered : Bool}
    (hs : s ∈ substringLiteralsAt J itemVar field lowered levels e) :
    ∃ text, targetValue J table data field lowered = .string text ∧ s.toList <:+: text.toList := by
  fun_induction substringLiteralsAt J itemVar field lowered levels e
  case case3 hkind _ _ hr hl hop ihl ihr =>
    obtain ⟨hleft, hright⟩ := h.and hkind hr hl hop
    exact (List.mem_append.1 hs).elim (ihl hleft) (ihr hright)
  case case5 hkind _ _ hr hl _ hop _ hleft _ hlit _ =>
    obtain rfl := List.mem_singleton.1 hs
    rcases hop with hop | hop | hop <;>
      obtain ⟨text, htext, hinfix, -⟩ := h.text hkind hr hl lowered hop (by simp) hleft hlit <;>
      exact ⟨text, htext, hinfix⟩
  all_goals cases hs

end

/-- What the extracted literals say of the field holds of every node that the predicate matches. -/
theorem literals_sound (hnumber : ∀ m n, J.numberEq m n = J.numberEq n m)
    (hfloat : ∀ f g, J.feq f g = J.feq g f)
    (e : Expr J.Number) (itemVar field : String) (data : J.Value)
    (h : eval J table e itemVar data = .ok (.bool true)) :
    (∀ v, equalityLiteral J e itemVar field = some v →
        valuesEqual J ((data.get field).getD .null) v = true) ∧
      (∀ s, prefixLiteral J e itemVar field = some s →
        ∃ text, data.get field = some (.string text) ∧ s.toList <+: text.toList) ∧
      (∀ s ∈ substringLiterals J e itemVar field,
        ∃ text, data.get field = some (.string text) ∧ s.toList <:+: text.toList) ∧
      ∀ s ∈ loweredSubstringLiterals J e itemVar field,
        s.toList <:+: (lowerText J table ((data.get field).getD .null)).toList := by
  have hmatch : Matches J table itemVar data maxPredicateDepth e := ⟨_, h, rfl⟩
  have hpresent {text : String} (htext : targetValue J table data field false = .string text) :
      data.get field = some (.string text) := by
    rw [targetValue] at htext
    rcases hget : data.get field with _ | v <;> rw [hget] at htext
    · cases htext
    · exact congrArg some htext
  refine ⟨fun v => equalityLiteralAt_sound hmatch (valuesEqual_symm hnumber hfloat),
    fun s hs => ?_, fun s hs => ?_, fun s hs => ?_⟩
  · exact (prefixLiteralAt_sound hmatch hs).imp fun text => And.imp_left hpresent
  · exact (substringLiteralsAt_sound hmatch hs).imp fun text => And.imp_left hpresent
  · obtain ⟨text, htext, hinfix⟩ := substringLiteralsAt_sound hmatch hs
    exact Json.string.inj htext ▸ hinfix

/-- `item.name starts_with "Ab" && 3 == item.n`. -/
def sample : Expr Int :=
  let node (kind : String) (val : Option (Json Int)) (name field op : Option String)
    (obj l r : Option (Expr Int)) : Expr Int :=
    .mk kind val none name field obj none op none l r none none none
  let lit (v : Json Int) := node "lit" v none none none none none none
  let item (field : String) := node "get" none none field none
    (node "ref" none "item" none none none none none) none none
  let bin (op : String) (l r : Expr Int) := node "bin" none none none op none l r
  bin "&&" (bin "starts_with" (item "name") (lit (.string "Ab")))
    (bin "==" (lit (.number 3)) (item "n"))

/-- An object with a number and a text. -/
def sampleData : Json Int := .object [("n", .number 3), ("name", .string "Abc")]

theorem literals_sound_sample :
    valuesEqual .integers ((sampleData.get "n").getD .null) (.number (3 : Int)) = true ∧
      ∃ text, sampleData.get "name" = some (.string text) ∧ "Ab".toList <+: text.toList := by
  have h : eval .integers (fun _ => none) sample "item" sampleData = .ok (.bool true) := by rfl
  have hliterals (field : String) := literals_sound .integers _ (fun _ _ => BEq.comm)
    (fun _ _ => BEq.comm) sample "item" field sampleData h
  exact ⟨(hliterals "n").1 _ (by rfl), (hliterals "name").2.1 "Ab" (by rfl)⟩

end Predicate

end FacetQL
