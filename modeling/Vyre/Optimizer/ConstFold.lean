import Vyre.Ir.Builder
import Vyre.Ir.Same
import Vyre.Optimizer.LiteralFold

/-!
# Constant folding

`fold_expr` of `algebraic/const_fold`: literal trees are evaluated, and what is
left is simplified by algebraic identities. The rules are those of
`algebraic_rules.rs`, `binop_identities.rs`, `unary_rules.rs`, `select_rules.rs`,
`fma_rules.rs` and `cast_rules.rs`, in the order the source tries them.

In the source an arm that does not fire falls through to the next; here such
arms are alternatives (`<|>`), and the arms of one operator stand together.
-/

namespace Vyre

open Vyre.Expr

namespace Expr

abbrev i32 (value : Int32) : Expr := .litI32 value

abbrev bool (value : Bool) : Expr := .litBool value

abbrev f32 (bits : UInt32) : Expr := .litF32 bits

abbrev negate (operand : Expr) : Expr := .unOp .negate operand

end Expr

namespace ConstFold

open LiteralFold

/-- `-1.0`. -/
def minusOneF32 : UInt32 := 0xBF800000

def maxU32 : UInt32 := 0xFFFFFFFF

/-- `ScalarLiteral`; a float by its bits. -/
inductive ScalarLiteral where
  | u32 (value : UInt32)
  | i32 (value : Int32)
  | f32 (bits : UInt32)
  | bool (value : Bool)

namespace ScalarLiteral

def isNumericZero : ScalarLiteral → Bool
  | .u32 v => v == 0
  | .i32 v => v == 0
  | .f32 bits => bits == 0
  | .bool _ => false

def isIntegerZero : ScalarLiteral → Bool
  | .u32 v => v == 0
  | .i32 v => v == 0
  | _ => false

def isNumericOne : ScalarLiteral → Bool
  | .u32 v => v == 1
  | .i32 v => v == 1
  | .f32 bits => bits == oneF32
  | .bool _ => false

def isBitAllOnes : ScalarLiteral → Bool
  | .u32 v => v == maxU32
  | .i32 v => v == -1
  | _ => false

def isTrue : ScalarLiteral → Bool
  | .bool v => v
  | _ => false

def isFalse : ScalarLiteral → Bool
  | .bool v => !v
  | _ => false

end ScalarLiteral

inductive IdentityReplacement where
  | left
  | right
deriving DecidableEq

def arm {α : Type} (condition : Bool) (result : α) : Option α :=
  if condition then some result else none

variable (op : BinOp)

def isIdempotent : Bool :=
  op = .bitAnd || op = .bitOr || op = .and || op = .or || op = .min || op = .max

def rightIdentityWhenZero : Bool :=
  op = .add || op = .sub || op = .wrappingAdd || op = .wrappingSub || op = .saturatingAdd ||
    op = .saturatingSub || op = .bitOr || op = .bitXor || op = .shl || op = .shr ||
    op = .rotateLeft || op = .rotateRight

def rightIdentityWhenOne : Bool := op = .mul || op = .div || op = .saturatingMul

def leftIdentityWhenZero : Bool :=
  op = .add || op = .wrappingAdd || op = .saturatingAdd || op = .bitOr || op = .bitXor

def leftIdentityWhenOne : Bool := op = .mul || op = .saturatingMul

def binopIdentityReplacement (lhsSameAsRhs : Bool) (lhs rhs : Option ScalarLiteral) :
    Option IdentityReplacement :=
  arm (lhsSameAsRhs && isIdempotent op) .left
  <|> (match op with
    | .and =>
        arm (rhs.any (·.isTrue)) .left <|> arm (lhs.any (·.isTrue)) .right
        <|> arm (rhs.any (·.isFalse)) .right <|> arm (lhs.any (·.isFalse)) .left
    | .or =>
        arm (rhs.any (·.isFalse)) .left <|> arm (lhs.any (·.isFalse)) .right
        <|> arm (rhs.any (·.isTrue)) .right <|> arm (lhs.any (·.isTrue)) .left
    | .bitAnd => arm (rhs.any (·.isBitAllOnes)) .left <|> arm (lhs.any (·.isBitAllOnes)) .right
    | .bitOr => arm (rhs.any (·.isBitAllOnes)) .right <|> arm (lhs.any (·.isBitAllOnes)) .left
    | _ => none)
  <|> arm (rightIdentityWhenZero op && rhs.any (·.isNumericZero)
      || rightIdentityWhenOne op && rhs.any (·.isNumericOne)) .left
  <|> arm (leftIdentityWhenZero op && lhs.any (·.isNumericZero)
      || leftIdentityWhenOne op && lhs.any (·.isNumericOne)) .right
  <|> arm ((op = .mul || op = .saturatingMul) && rhs.any (·.isIntegerZero)) .right
  <|> arm ((op = .mul || op = .saturatingMul) && lhs.any (·.isIntegerZero)) .left
  <|> arm (op = .bitAnd && rhs.any (·.isNumericZero)) .right
  <|> arm (op = .bitAnd && lhs.any (·.isNumericZero)) .left

def exprScalarLiteral : Expr → Option ScalarLiteral
  | .litU32 v => some (.u32 v)
  | .litI32 v => some (.i32 v)
  | .litF32 bits => some (.f32 bits)
  | .litBool v => some (.bool v)
  | _ => none

def isFloatExpr : Expr → Bool
  | .litF32 _ | .fma _ _ _ => true
  | .binOp _ left right => isFloatExpr left || isFloatExpr right
  | .unOp _ operand => isFloatExpr operand
  | .cast target _ => target = .f32 || target = .f64
  | _ => false

def mulOperands : Expr → Option (Expr × Expr)
  | .binOp .mul left right => some (left, right)
  | _ => none

def litInt : Expr → Bool
  | .litU32 _ | .litI32 _ => true
  | _ => false

def isSimplePure : Expr → Bool
  | .litU32 _ | .litI32 _ | .litF32 _ | .litBool _ | .var _ | .invocationId _ | .workgroupId _
  | .localId _ | .subgroupLocalId | .subgroupSize => true
  | _ => false

def isZero (e : Expr) : Bool := (exprScalarLiteral e).any (·.isNumericZero)

def isOne (e : Expr) : Bool := (exprScalarLiteral e).any (·.isNumericOne)

def isIntZero (e : Expr) : Bool := (exprScalarLiteral e).any (·.isIntegerZero)

def isLitU32 (value : UInt32) : Expr → Bool
  | .litU32 v => v == value
  | _ => false

def isLitI32 (value : Int32) : Expr → Bool
  | .litI32 v => v == value
  | _ => false

def isLitF32 (bits : UInt32) : Expr → Bool
  | .litF32 b => b == bits
  | _ => false

def isLitBool (value : Bool) : Expr → Bool
  | .litBool v => v == value
  | _ => false

/-- `checked_add` and its kin: the result, unless it leaves the range. -/
def checkedU32 (exact : Int) (result : UInt32) : Option UInt32 :=
  if 0 ≤ exact ∧ exact < 2 ^ 32 then some result else none

def checkedI32 (exact : Int) (result : Int32) : Option Int32 :=
  if -2 ^ 31 ≤ exact ∧ exact < 2 ^ 31 then some result else none

def onLiterals (u : UInt32 → UInt32 → Option UInt32) (i : Int32 → Int32 → Option Int32)
    (k₁ k₂ : Expr) : Option Expr :=
  match k₁, k₂ with
  | .litU32 a, .litU32 b => (u a b).map .litU32
  | .litI32 a, .litI32 b => (i a b).map .litI32
  | _, _ => none

def sumLiterals : Expr → Expr → Option Expr :=
  onLiterals (fun a b => checkedU32 (a.toNat + b.toNat) (a + b))
    (fun a b => checkedI32 (a.toInt + b.toInt) (a + b))

def differenceLiterals : Expr → Expr → Option Expr :=
  onLiterals (fun a b => checkedU32 ((a.toNat : Int) - b.toNat) (a - b))
    (fun a b => checkedI32 (a.toInt - b.toInt) (a - b))

def productLiterals : Expr → Expr → Option Expr :=
  onLiterals (fun a b => checkedU32 (a.toNat * b.toNat) (a * b))
    (fun a b => checkedI32 (a.toInt * b.toInt) (a * b))

/-- `(a op K1) op K2` to `a op K`. -/
def reassociate (combine : Expr → Expr → Option Expr) (left right : Expr) : Option Expr :=
  match left with
  | .binOp op' a k₁ => if op' = op then (combine k₁ right).map (.binOp op a) else none
  | _ => none

/-- `(K1 op a) op K2` to `a op K`. -/
def reassociateLeft (combine : Expr → Expr → Option Expr) (left right : Expr) :
    Option Expr :=
  match left with
  | .binOp op' k₁ a => if op' = op then (combine k₁ right).map (.binOp op a) else none
  | _ => none

/-- `c * (a op b)` to `(c * a) op (c * b)` and `(a op b) * c` to `(a * c) op (b * c)`,
for a literal `c` next to another. -/
def expand (left right : Expr) : Option Expr :=
  (match right with
    | .binOp op' a b =>
        arm (litInt left && decide (op' = op) && (litInt a || litInt b))
          (.binOp op (.mul left a) (.mul left b))
    | _ => none)
  <|> (match left with
    | .binOp op' a b =>
        arm (litInt right && decide (op' = op) && (litInt a || litInt b))
          (.binOp op (.mul a right) (.mul b right))
    | _ => none)

section Rules

variable (fingerprint : Fingerprint)

/-- `(x * K1) op (x * K2)` to `x * K`. -/
def factor (combine : Expr → Expr → Option Expr) (left right : Expr) : Option Expr :=
  match mulOperands left, mulOperands right with
  | some (x, k₁), some (y, k₂) =>
      if same fingerprint x y then (combine k₁ k₂).map (.mul x) else none
  | _, _ => none

/-! ## Binary operators -/

variable (left right : Expr)

/-- The `Add` arm. -/
def simplifyAdd : Option Expr :=
  ((mulOperands left).bind fun (a, b) => arm (isFloatExpr right) (.fma a b right))
  <|> ((mulOperands right).bind fun (a, b) => arm (isFloatExpr left) (.fma a b left))
  <|> arm (isZero right) left <|> arm (isZero left) right
  <|> reassociate .add sumLiterals left right
  <|> reassociateLeft .add sumLiterals left right
  <|> factor fingerprint sumLiterals left right

/-- The `Sub` arm. -/
def simplifySub : Option Expr :=
  arm (same fingerprint left right) (.u32 0)
  <|> ((mulOperands left).bind fun (a, b) => arm (isFloatExpr right) (.fma a b (.negate right)))
  <|> ((mulOperands right).bind fun (a, b) => arm (isFloatExpr left) (.fma (.negate a) b left))
  <|> arm (isZero right) left
  <|> factor fingerprint differenceLiterals left right

/-- The `Mul` arm. -/
def simplifyMul : Option Expr :=
  reassociate .mul productLiterals left right
  <|> reassociateLeft .mul productLiterals left right
  <|> expand .add left right
  <|> expand .sub left right
  <|> arm (isOne right) left <|> arm (isOne left) right
  <|> arm (isLitI32 (-1) right) (.negate left) <|> arm (isLitI32 (-1) left) (.negate right)
  <|> arm (isLitF32 minusOneF32 right) (.negate left)
  <|> arm (isLitF32 minusOneF32 left) (.negate right)
  <|> arm (isIntZero right) right <|> arm (isIntZero left) left

/-- `sin(x) / cos(x)` to `tan(x)`. -/
def tangent : Option Expr :=
  match left, right with
  | .unOp .sin x, .unOp .cos y => arm (same fingerprint x y) (.unOp .tan x)
  | _, _ => none

/-- The `Div` arms. -/
def simplifyDiv : Option Expr :=
  if isOne right then some left
  else if isLitI32 (-1) right then none
  else if isLitF32 oneF32 left then
    match right with
    | .unOp .sqrt operand => some (.unOp .inverseSqrt operand)
    | _ => none
  else
    tangent fingerprint left right
    <|> arm (same fingerprint left right && !isFloatExpr left) (.u32 1)

/-- The `BitAnd` arms. -/
def simplifyBitAnd : Option Expr :=
  arm (isIntZero right) right <|> arm (isIntZero left) left
  <|> arm (same fingerprint left right) left
  <|> arm (isLitU32 maxU32 right) left <|> arm (isLitU32 maxU32 left) right

/-- The `BitOr` arms. -/
def simplifyBitOr : Option Expr :=
  arm (isIntZero right) left <|> arm (isIntZero left) right
  <|> arm (same fingerprint left right) left
  <|> arm (isLitU32 maxU32 right) (.u32 maxU32) <|> arm (isLitU32 maxU32 left) (.u32 maxU32)

/-- The `BitXor` arms. -/
def simplifyBitXor : Option Expr :=
  arm (isIntZero right) left <|> arm (isIntZero left) right
  <|> arm (same fingerprint left right) (.u32 0)
  <|> arm (isLitU32 maxU32 right) (.unOp .bitNot left)
  <|> arm (isLitU32 maxU32 left) (.unOp .bitNot right)

/-- `a.saturating_add(b).min(31)`. -/
def fusedShift (a b : UInt32) : UInt32 := UInt32.ofNat (min (a.toNat + b.toNat) 31)

/-- The `Shl` and `Shr` arm. -/
def simplifyShift (op : BinOp) (left right : Expr) : Option Expr :=
  arm (isLitU32 0 right) left
  <|> (match left, right with
    | .binOp op' x (.litU32 a), .litU32 b =>
        arm (decide (op' = op)) (.binOp op x (.u32 (fusedShift a b)))
    | _, _ => none)

/-- The arms of a comparison: of an operand with itself, and with the least or
greatest `u32`. -/
def simplifyComparison (reflexive extreme : Bool) (least greatest : UInt32) (left right : Expr) :
    Option Expr :=
  arm (same fingerprint left right && isSimplePure left) (.bool reflexive)
  <|> arm (isLitU32 least right) (.bool extreme) <|> arm (isLitU32 greatest left) (.bool extreme)

/-- The `Mod` arms. -/
def simplifyMod : Option Expr :=
  arm (isOne right) (.u32 0) <|> arm (same fingerprint left right) (.u32 0)

/-- The `Min` arms. -/
def simplifyMin : Option Expr :=
  arm (same fingerprint left right) left
  <|> arm (isLitU32 maxU32 right) left <|> arm (isLitU32 maxU32 left) right
  <|> arm (isLitU32 0 right) (.u32 0) <|> arm (isLitU32 0 left) (.u32 0)

/-- The `Max` arms. -/
def simplifyMax : Option Expr :=
  arm (same fingerprint left right) left
  <|> arm (isLitU32 0 right) left <|> arm (isLitU32 0 left) right
  <|> arm (isLitU32 maxU32 right) (.u32 maxU32) <|> arm (isLitU32 maxU32 left) (.u32 maxU32)

/-- The `SaturatingMul` arms. -/
def simplifySaturatingMul : Option Expr :=
  arm (isOne right) left <|> arm (isOne left) right
  <|> arm (isZero right) (.u32 0) <|> arm (isZero left) (.u32 0)

/-- `x` and `!x`, in this order. -/
def isNegationOf (e negation : Expr) : Bool :=
  match negation with
  | .unOp .logicalNot operand => same fingerprint operand e
  | _ => false

/-- `whole` is `e op y` or `y op e`. -/
def hasOperand (op : BinOp) (e whole : Expr) : Bool :=
  match whole with
  | .binOp op' l r => decide (op' = op) && (same fingerprint l e || same fingerprint r e)
  | _ => false

/-- The arms of `And` and `Or`: `unit` is the literal that leaves the other
operand, `dual` the other operator. -/
def simplifyLogical (unit : Bool) (dual : BinOp) (left right : Expr) : Option Expr :=
  arm (isLitBool unit left) right <|> arm (isLitBool unit right) left
  <|> arm (isLitBool (!unit) left) (.bool (!unit)) <|> arm (isLitBool (!unit) right) (.bool (!unit))
  <|> arm (same fingerprint left right) left
  <|> arm (isNegationOf fingerprint left right) (.bool (!unit))
  <|> arm (isNegationOf fingerprint right left) (.bool (!unit))
  <|> arm (hasOperand fingerprint dual left right) left
  <|> arm (hasOperand fingerprint dual right left) right

/-- The match on the operator in `simplify_binop`. -/
def simplifyByOperator (op : BinOp) (left right : Expr) : Option Expr :=
  match op with
  | .add => simplifyAdd fingerprint left right
  | .sub => simplifySub fingerprint left right
  | .mul => simplifyMul left right
  | .div => simplifyDiv fingerprint left right
  | .bitAnd => simplifyBitAnd fingerprint left right
  | .bitOr => simplifyBitOr fingerprint left right
  | .bitXor => simplifyBitXor fingerprint left right
  | .shl | .shr => simplifyShift op left right
  | .eq => arm (same fingerprint left right && isSimplePure left) (.bool true)
  | .ne => arm (same fingerprint left right && isSimplePure left) (.bool false)
  | .lt => simplifyComparison fingerprint false false 0 maxU32 left right
  | .gt => simplifyComparison fingerprint false false maxU32 0 left right
  | .le => simplifyComparison fingerprint true true maxU32 0 left right
  | .ge => simplifyComparison fingerprint true true 0 maxU32 left right
  | .mod => simplifyMod fingerprint left right
  | .min => simplifyMin fingerprint left right
  | .max => simplifyMax fingerprint left right
  | .wrappingAdd => arm (isZero right) left <|> arm (isZero left) right
  | .wrappingSub => arm (isZero right) left <|> arm (same fingerprint left right) (.u32 0)
  | .saturatingAdd => arm (isZero right) left <|> arm (isZero left) right
  | .saturatingSub => arm (isZero right) left <|> arm (same fingerprint left right) (.u32 0)
  | .saturatingMul => simplifySaturatingMul left right
  | .and => simplifyLogical fingerprint true .or left right
  | .or => simplifyLogical fingerprint false .and left right
  | _ => none

def simplifyBinop (op : BinOp) (left right : Expr) : Option Expr :=
  match binopIdentityReplacement op (same fingerprint left right && isSimplePure left)
      (exprScalarLiteral left) (exprScalarLiteral right) with
  | some .left => some left
  | some .right => some right
  | none => simplifyByOperator fingerprint op left right

/-- The arms of `simplify_unop` for float literals at which the function is exact. -/
def exactUnary (op : UnOp) (bits : UInt32) : Option Expr :=
  match op with
  | .inverseSqrt | .reciprocal => arm (bits == oneF32) (.f32 oneF32)
  | .sqrt => arm (bits == oneF32) (.f32 oneF32) <|> arm (bits == 0) (.f32 0)
  | .sin | .tan | .asin | .atan | .tanh | .sinh => arm (bits == 0) (.f32 0)
  | .cos | .exp | .exp2 | .cosh => arm (bits == 0) (.f32 oneF32)
  | .log | .log2 | .acos => arm (bits == oneF32) (.f32 0)
  | _ => none

/-- The arms of `simplify_unop` for integer literals. -/
def integerUnary (op : UnOp) (operand : Expr) : Option Expr :=
  match op, operand with
  | .popcount, .litU32 v => some (.u32 (Reference.onBitsU32 .cpop v))
  | .clz, .litU32 v => some (.u32 (Reference.onBitsU32 .clz v))
  | .ctz, .litU32 v => some (.u32 (Reference.onBitsU32 .ctz v))
  | .reverseBits, .litU32 v => some (.u32 (Reference.onBitsU32 .reverse v))
  | .bitNot, .litU32 v => some (.u32 (~~~v))
  | .negate, .litI32 v => some (.i32 (0 - v))
  | .abs, .litU32 v => some (.u32 v)
  | .abs, .litI32 v => some (.i32 (if v < 0 then 0 - v else v))
  | _, _ => none

def isInvolution (op : UnOp) : Bool :=
  op = .logicalNot || op = .negate || op = .reverseBits || op = .bitNot

def isAbsorbed (outer inner : UnOp) : Bool :=
  (outer = inner && (outer = .abs || outer = .floor || outer = .ceil || outer = .round ||
      outer = .trunc || outer = .sign)) ||
    (inner = .trunc && (outer = .floor || outer = .ceil || outer = .round))

def simplifyUnop (op : UnOp) (operand : Expr) : Option Expr :=
  match operand with
  | .unOp inner x =>
      arm (decide (op = inner) && isInvolution op) x
      <|> arm (decide (op = .abs) && decide (inner = .negate)) (.unOp .abs x)
      <|> arm (isAbsorbed op inner) operand
  | .binOp .sub left right => arm (decide (op = .negate)) (.sub right left)
  | .litF32 bits => exactUnary op bits
  | operand => integerUnary op operand

def simplifySelect (cond trueVal falseVal : Expr) : Option Expr :=
  match cond with
  | .litBool value => some (if value then trueVal else falseVal)
  | .litU32 value => some (if value = 0 then falseVal else trueVal)
  | cond =>
      arm (same fingerprint trueVal falseVal) trueVal
      <|> (match cond with
        | .unOp .logicalNot inner => some (.select inner falseVal trueVal)
        | _ => none)
      <|> arm (isLitU32 1 trueVal && isLitU32 0 falseVal) (.cast .u32 cond)
      <|> arm (isLitU32 0 trueVal && isLitU32 1 falseVal) (.cast .u32 (.unOp .logicalNot cond))
      <|> (match trueVal with
        | .select inner innerTrue _ =>
            arm (same fingerprint inner cond) (.select cond innerTrue falseVal)
        | _ => none)
      <|> (match falseVal with
        | .select inner _ innerFalse =>
            arm (same fingerprint inner cond) (.select cond trueVal innerFalse)
        | _ => none)

variable (fl : FoldFloats)

def simplifyFma (a b c : Expr) : Option Expr :=
  foldFmaLiteral fl a b c
  <|> arm (isLitF32 oneF32 a) (.add b c) <|> arm (isLitF32 oneF32 b) (.add a c)
  <|> (match a, b with
    | .litF32 v, .litF32 other =>
        arm (v == 0 && isFiniteF32 other) c <|> arm (isFiniteF32 v && other == 0) c
    | _, _ => none)

def foldCast (target : DataType) (value : Expr) : Option Expr :=
  foldCastLiteral fl target value
  <|> (match value with
    | .cast innerTarget inner => arm (decide (innerTarget = target)) (.cast target inner)
    | _ => none)

def foldExpr (e : Expr) : Option Expr :=
  foldLiteralTree fl e
  <|> (match e with
    | .binOp op left right =>
        simplifyBinop fingerprint op left right <|> foldBinaryLiteral fl op left right
    | .unOp op operand => simplifyUnop op operand <|> foldUnaryLiteral fl op operand
    | .select cond trueVal falseVal => simplifySelect fingerprint cond trueVal falseVal
    | .fma a b c => simplifyFma fl a b c
    | .cast target value => foldCast fl target value
    | _ => none)

end Rules

end ConstFold

end Vyre
