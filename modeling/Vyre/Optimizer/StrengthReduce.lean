import Vyre.Optimizer.ConstFold
import Vyre.Optimizer.DivMagic

/-!
# Strength reduction

`reduce_expr` of `algebraic/strength_reduce`: multiplications, divisions and
remainders by constants become shifts, sums and multiply-highs, a polynomial in
one variable is put into Horner form, and what the identities of an operator
decide is decided. The rules stand in the order the source tries them; those of
one operator stand together.
-/

namespace Vyre

namespace Expr

abbrev reciprocal (operand : Expr) : Expr := .unOp .reciprocal operand

end Expr

namespace StrengthReduce

open ConstFold LiteralFold

def maxHornerDegree : Nat := 16

inductive IntKind where
  | u32
  | i32
deriving DecidableEq

def IntKind.lit : IntKind → UInt32 → Expr
  | .u32, bits => .u32 bits
  | .i32, bits => .i32 bits.toInt32

/-- The operands of a tree of one operator, from left to right. -/
def collectOperands (op : BinOp) : Expr → List Expr
  | .binOp op' left right =>
      if op' = op then collectOperands op left ++ collectOperands op right
      else [.binOp op' left right]
  | e => [e]

def collectAddTerms : Expr → List Expr := collectOperands .add

def collectMulFactors : Expr → List Expr := collectOperands .mul

/-- What `monomial_int_term` returns: a coefficient by its bits, a degree, the
variable and the kind of the literals, if there are any. -/
structure Monomial where
  coeff : UInt32
  degree : Nat
  var : Option Ident
  kind : Option IntKind

/-- What is known so far, and `x`, if they are the same. -/
def agree {α : Type} [DecidableEq α] (known : Option α) (x : α) : Option α :=
  match known with
  | none => some x
  | some y => if y = x then some x else none

def Monomial.factor (s : Monomial) : Expr → Option Monomial
  | .litU32 value =>
      (agree s.kind .u32).map fun k => { s with coeff := s.coeff * value, kind := some k }
  | .litI32 value =>
      (agree s.kind .i32).map fun k => { s with coeff := s.coeff * value.toUInt32, kind := some k }
  | .var name => (agree s.var name).map fun v => { s with degree := s.degree + 1, var := some v }
  | _ => none

def monomialIntTerm (e : Expr) : Option Monomial :=
  match e with
  | .litU32 value => some ⟨value, 0, none, some .u32⟩
  | .litI32 value => some ⟨value.toUInt32, 0, none, some .i32⟩
  | .var name => some ⟨1, 1, some name, none⟩
  | e =>
      if (collectMulFactors e).length < 2 then none
      else (collectMulFactors e).foldlM Monomial.factor ⟨1, 0, none, none⟩

/-- The variables of the loop of `horner_polynomial_int`: `coeffs[d]` is the
coefficient of degree `d`, once a term has it. -/
structure Polynomial where
  coeffs : List (Option UInt32)
  var : Option Ident
  kind : Option IntKind

/-- `known`, or the agreement of `known` and `new`. -/
def agreeWith {α : Type} [DecidableEq α] (known new : Option α) : Option (Option α) :=
  match new with
  | none => some known
  | some x => (agree known x).map some

/-- `coeffs[idx].replace(coeff)` after the list is made long enough, unless there
is a coefficient already. -/
def setCoeff (coeffs : List (Option UInt32)) (idx : Nat) (coeff : UInt32) :
    Option (List (Option UInt32)) :=
  let resized := coeffs ++ List.replicate (idx + 1 - coeffs.length) none
  match resized[idx]? with
  | some none => some (resized.set idx (some coeff))
  | _ => none

/-- One pass of the loop of `horner_polynomial_int`. -/
def Polynomial.term (p : Polynomial) (e : Expr) : Option Polynomial := do
  let t ← monomialIntTerm e
  if maxHornerDegree < t.degree then none
  let var ← agreeWith p.var t.var
  let kind ← agreeWith p.kind t.kind
  let coeffs ← setCoeff p.coeffs t.degree t.coeff
  return ⟨coeffs, var, kind⟩

/-- One pass of the Horner fold: a zero or absent coefficient adds nothing. -/
def hornerStep (kind : IntKind) (x : Expr) (acc : Expr) (coeff : Option UInt32) : Expr :=
  if coeff.getD 0 = 0 then .mul acc x else .add (.mul acc x) (kind.lit (coeff.getD 0))

def hornerFold (kind : IntKind) (x : Expr) (coeffs : List (Option UInt32)) : Option Expr :=
  match coeffs.reverse with
  | [] => none
  | top :: rest => some (rest.foldl (hornerStep kind x) (kind.lit (top.getD 0)))

def hornerPolynomialInt (e : Expr) : Option Expr := do
  if (collectAddTerms e).length < 2 then none
  let p ← (collectAddTerms e).foldlM Polynomial.term ⟨[], none, none⟩
  let kind ← p.kind
  if p.coeffs.length - 1 < 2 then none
  let name ← p.var
  hornerFold kind (.var name) p.coeffs

/-! ## Products with constants -/

def maxShiftAddChainCost : Nat := 4

def isPowerOfTwo (c : UInt32) : Bool := decide c.toNat.isPowerOfTwo

/-- `trailing_zeros` of a power of two. -/
def trailingZeros (c : UInt32) : UInt32 := UInt32.ofNat c.toNat.log2

def positiveU32Constant : Expr → Option UInt32
  | .litU32 v => some v
  | .litI32 v => if 0 < v then some v.toUInt32 else none
  | _ => none

def powerOfTwoShift : Expr → Option UInt32
  | .litU32 v => if isPowerOfTwo v then some (trailingZeros v) else none
  | .litI32 v =>
      if 0 < v ∧ isPowerOfTwo v.toUInt32 then some (trailingZeros v.toUInt32) else none
  | _ => none

/-- `SignedShiftTerm`; the sign is `1` or `-1`. -/
structure SignedShiftTerm where
  shift : Nat
  positive : Bool
deriving DecidableEq

theorem toNat_half (n : UInt32) : (n >>> 1).toNat = n.toNat / 2 := by
  exact Nat.shiftRight_eq_div_pow n.toNat 1

theorem toNat_sub_one {n : UInt32} (h : n ≠ 0) : (n - 1).toNat = n.toNat - 1 := by
  have hpos : 0 < n.toNat := Nat.pos_of_ne_zero fun hz => h (UInt32.toNat_inj.mp hz)
  exact UInt32.toNat_sub_of_le n 1 (UInt32.le_iff_toNat_le.mpr hpos)

theorem and_one_eq_zero_iff (n : UInt32) : n &&& 1 = 0 ↔ n.toNat % 2 = 0 := by
  rw [← UInt32.toNat_inj]
  exact iff_of_eq (congrArg (· = 0) (Nat.and_two_pow_sub_one_eq_mod n.toNat 1))

theorem and_three_eq_one_iff (n : UInt32) : n &&& 3 = 1 ↔ n.toNat % 4 = 1 := by
  rw [← UInt32.toNat_inj]
  exact iff_of_eq (congrArg (· = 1) (Nat.and_two_pow_sub_one_eq_mod n.toNat 2))

/-- The loop of `naf_terms`, at a digit of weight `2 ^ shift`. -/
def nafFrom (n : UInt32) (shift : Nat) : List SignedShiftTerm :=
  if hzero : n = 0 then []
  else if n &&& 1 = 0 then nafFrom (n >>> 1) (shift + 1)
  else if n &&& 3 = 1 ∨ n = 1 then ⟨shift, true⟩ :: nafFrom ((n - 1) >>> 1) (shift + 1)
  else ⟨shift, false⟩ :: nafFrom ((n + 1) >>> 1) (shift + 1)
termination_by n.toNat
decreasing_by
  all_goals
    have hne : n.toNat ≠ 0 := fun hz => hzero (UInt32.toNat_inj.mp hz)
    rw [toNat_half]
  · omega
  · rw [toNat_sub_one hzero]
    omega
  · rename_i hodd hthree
    rw [and_one_eq_zero_iff] at hodd
    rw [not_or, and_three_eq_one_iff] at hthree
    rw [UInt32.toNat_add]
    show (n.toNat + 1) % 2 ^ 32 / 2 < n.toNat
    omega

def nafTerms (n : UInt32) : List SignedShiftTerm := nafFrom n 0

def shiftAddCost (terms : List SignedShiftTerm) : Nat :=
  terms.countP (fun term => term.shift ≠ 0) + (terms.length - 1)

variable (x : Expr)

def shiftedTerm (shift : Nat) : Expr :=
  if shift = 0 then x else .shl x (.u32 (UInt32.ofNat shift))

def operandDuplicationCost : Expr → Nat
  | .litU32 _ | .litI32 _ | .litF32 _ | .litBool _ | .var _ | .invocationId _ | .workgroupId _
  | .localId _ | .subgroupLocalId | .subgroupSize => 0
  | .load _ _ | .bufLen _ => 1
  | _ => 2

def chainStart (term : SignedShiftTerm) : Expr :=
  if term.positive then shiftedTerm x term.shift else .sub (.u32 0) (shiftedTerm x term.shift)

def chainStep (acc : Expr) (term : SignedShiftTerm) : Expr :=
  if term.positive then .add acc (shiftedTerm x term.shift)
  else .sub acc (shiftedTerm x term.shift)

/-- `shift_add_chain`. The terms are collected by increasing weight, so sorting
them by decreasing weight reverses them. -/
def shiftAddChain (c : UInt32) : Option Expr :=
  if c ≤ 1 ∨ isPowerOfTwo c ∨ 1 < operandDuplicationCost x then none
  else if (nafTerms c).length < 2 then none
  else if maxShiftAddChainCost < shiftAddCost (nafTerms c) then none
  else
    match (nafTerms c).reverse with
    | [] => none
    | first :: rest => some (rest.foldl (chainStep x) (chainStart x first))

/-- `c = 2 ^ hi + 2 ^ lo`, by the first loop of `shift_add_decompose`. -/
def sumOfTwoPowers (c : UInt32) (hi : Nat) : Option Expr :=
  let high : UInt32 := 1 <<< UInt32.ofNat hi
  if c < high then none
  else if c - high = 0 then none
  else
    arm (isPowerOfTwo (c - high))
      (.add (.shl x (.u32 (UInt32.ofNat hi))) (shiftedTerm x (trailingZeros (c - high)).toNat))

/-- `c = 2 ^ hi - 2 ^ lo`, by the second one. -/
def differenceOfTwoPowers (c : UInt32) (hi : Nat) : Option Expr :=
  let high : UInt32 := 1 <<< UInt32.ofNat hi
  if high ≤ c then none
  else
    arm (isPowerOfTwo (high - c) && decide (high - c < high))
      (.sub (.shl x (.u32 (UInt32.ofNat hi))) (shiftedTerm x (trailingZeros (high - c)).toNat))

def shiftAddDecompose (x constant : Expr) : Option Expr :=
  match positiveU32Constant constant with
  | none => none
  | some c =>
      if c ≤ 1 ∨ isPowerOfTwo c then none
      else
        shiftAddChain x c
        <|> (List.range' 1 16).reverse.findSome? (sumOfTwoPowers x c)
        <|> (List.range' 2 15).reverse.findSome? (differenceOfTwoPowers x c)

/-- `x * -C` to `-(x * C)`; `-1` and the least integer are left. -/
def negatedProduct (x constant : Expr) : Option Expr :=
  match constant with
  | .litI32 c =>
      arm (decide (c < -1) && decide (c ≠ Reference.minI32)) (.negate (.mul x (.i32 (-c))))
  | _ => none

/-- `2.0`. -/
def twoF32 : UInt32 := 0x40000000

/-- `0.5`. -/
def halfF32 : UInt32 := 0x3F000000

/-- `v == 0.0`. -/
def isZeroF32 : Expr → Bool
  | .litF32 bits => bits &&& 0x7FFFFFFF == 0
  | _ => false

/-- `mul_terms` of a negation. -/
def negatedMulTerms : Expr → Option (Expr × Expr)
  | .unOp .negate operand => mulOperands operand
  | _ => none

def synthesizeFmaAdd (left right : Expr) : Option Expr :=
  ((mulOperands left).bind fun (a, b) => arm (isFloatExpr right) (.fma a b right))
  <|> ((mulOperands right).bind fun (a, b) => arm (isFloatExpr left) (.fma a b left))
  <|> ((negatedMulTerms left).bind fun (a, b) => arm (isFloatExpr right) (.fma (.negate a) b right))
  <|> ((negatedMulTerms right).bind fun (a, b) => arm (isFloatExpr left) (.fma (.negate a) b left))

def synthesizeFmaSub (left right : Expr) : Option Expr :=
  ((mulOperands left).bind fun (a, b) => arm (isFloatExpr right) (.fma a b (.negate right)))
  <|> ((mulOperands right).bind fun (a, b) => arm (isFloatExpr left) (.fma (.negate a) b left))

/-! ## The rules of each operator -/

section Rules

variable (fingerprint : Fingerprint) (fl : FoldFloats)

variable (left right : Expr)

/-- The `Mul` arm. -/
def reduceMul : Option Expr :=
  arm (isLitU32 0 right) (.u32 0) <|> arm (isLitU32 0 left) (.u32 0)
  <|> arm (isLitU32 1 right) left <|> arm (isLitU32 1 left) right
  <|> (powerOfTwoShift right).map (fun shift => .shl left (.u32 shift))
  <|> (powerOfTwoShift left).map (fun shift => .shl right (.u32 shift))
  <|> shiftAddDecompose left right <|> shiftAddDecompose right left
  <|> negatedProduct left right <|> negatedProduct right left
  <|> arm (isLitF32 twoF32 right) (.add left left) <|> arm (isLitF32 twoF32 left) (.add right right)
  <|> arm (isLitF32 oneF32 right) left <|> arm (isLitF32 oneF32 left) right

def reciprocalConstantFold : Option Expr :=
  match left, right with
  | .litF32 one, .litF32 c =>
      arm (one == oneF32 && c &&& 0x7FFFFFFF != 0 && isFiniteF32 c) (.f32 (fl.div oneF32 c))
  | _, _ => none

/-- The match on the divisor in the `Div` arm. -/
def reduceDivisor : Option Expr :=
  match right with
  | .litU32 d =>
      if d = 1 then some left
      else if isPowerOfTwo d then some (.shr left (.u32 (trailingZeros d)))
      else if 1 < d then granlundMontgomeryDiv left d
      else none
  | .litF32 v =>
      if v = twoF32 then some (.mul left (.f32 halfF32))
      else if v = oneF32 then some left
      else if isFiniteF32 v && v &&& 0x7FFFFFFF != 0 then some (.mul left (.f32 (fl.div oneF32 v)))
      else none
  | _ => none

def isLiteralF32 : Expr → Bool
  | .litF32 _ => true
  | _ => false

/-- The `Div` arm. -/
def reduceDiv : Option Expr :=
  reciprocalConstantFold fl left right
  <|> arm (isLitF32 oneF32 left && !isLiteralF32 right) (.reciprocal right)
  <|> reduceDivisor fl left right

/-- The `Mod` arm. -/
def reduceMod : Option Expr :=
  match right with
  | .litU32 d =>
      if d = 1 then some (.u32 0)
      else if isPowerOfTwo d then some (.bitand left (.u32 (d - 1)))
      else (granlundMontgomeryDiv left d).map fun quotient => .sub left (.mul quotient (.u32 d))
  | _ => none

/-- `x + (-y)` to `x - y`, `(-x) + y` to `y - x`. -/
def fuseNegation : Option Expr :=
  (match right with
    | .unOp .negate y => some (.sub left y)
    | _ => none)
  <|> (match left with
    | .unOp .negate x => some (.sub right x)
    | _ => none)

/-- The `Add` arm. -/
def reduceAdd : Option Expr :=
  synthesizeFmaAdd left right
  <|> arm (isZeroF32 right) left <|> arm (isZeroF32 left) right
  <|> arm (isLitU32 0 right) left <|> arm (isLitU32 0 left) right
  <|> fuseNegation left right

/-- The `Sub` arm. -/
def reduceSub : Option Expr :=
  synthesizeFmaSub left right
  <|> arm (isZeroF32 right) left <|> arm (isLitU32 0 right) left
  <|> (match right with
    | .unOp .negate y => some (.add left y)
    | _ => none)

/-- The `Shl` and `Shr` arm. -/
def reduceShift (op : BinOp) (left right : Expr) : Option Expr :=
  arm (isLitU32 0 left || isLitI32 0 left) left
  <|> arm (isLitU32 0 right) left
  <|> (match left, right with
    | .binOp op' x (.litU32 a), .litU32 b =>
        arm (decide (op' = op)) (.binOp op x (.u32 (fusedShift a b)))
    | _, _ => none)

/-- `negation` is `~e`. -/
def isComplementOf (e negation : Expr) : Bool :=
  match negation with
  | .unOp .bitNot inner => Expr.same fingerprint inner e
  | _ => false

/-- The arms of `x op ~x` and `~x op x`. -/
def reduceComplement (result : UInt32) (left right : Expr) : Option Expr :=
  arm (isComplementOf fingerprint left right) (.u32 result)
  <|> arm (isComplementOf fingerprint right left) (.u32 result)

/-- The match on the operator in `reduce_expr`. -/
def reduceByOperator (op : BinOp) (left right : Expr) : Option Expr :=
  match op with
  | .mul => reduceMul left right
  | .div => reduceDiv fl left right
  | .mod => reduceMod left right
  | .add => reduceAdd left right
  | .sub => reduceSub left right
  | .shl | .shr => reduceShift op left right
  | .bitAnd => reduceComplement fingerprint 0 left right
  | .bitOr | .bitXor => reduceComplement fingerprint maxU32 left right
  | .rotateLeft | .rotateRight => arm (isLitU32 0 right) left <|> arm (isLitU32 32 right) left
  | .absDiff => arm (Expr.same fingerprint left right) (.u32 0)
  | .min =>
      arm (isLitU32 0 right) (.u32 0) <|> arm (isLitU32 0 left) (.u32 0)
      <|> arm (isLitU32 maxU32 right) left <|> arm (isLitU32 maxU32 left) right
  | .max =>
      arm (isLitU32 0 right) left <|> arm (isLitU32 0 left) right
      <|> arm (isLitU32 maxU32 right) (.u32 maxU32) <|> arm (isLitU32 maxU32 left) (.u32 maxU32)
  | .lt => arm (isLitU32 0 right) (.bool false)
  | .ge => arm (isLitU32 0 right) (.bool true)
  | .gt => arm (isLitU32 0 left) (.bool false)
  | .le => arm (isLitU32 0 left) (.bool true)
  | _ => none

def reduceExpr (e : Expr) : Option Expr :=
  hornerPolynomialInt e
  <|> (match e with
    | .binOp op left right => reduceByOperator fingerprint fl op left right
    | _ => none)

end Rules

end StrengthReduce

end Vyre
