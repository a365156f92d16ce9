import Vyre.Reference.Ops

/-!
# Literal evaluation

`runtime/ir_eval.rs`: the evaluation of literal expressions that the optimizer
and the lowerings share. Integers and booleans are computed here; the float
functions are the host's, as in the interpreter, with the remainder added that
only the folder uses.
-/

namespace Vyre

structure FoldFloats extends Reference.Floats where
  /-- `a % b` on `f32`. -/
  rem : UInt32 → UInt32 → UInt32

namespace LiteralFold

open Reference

/-- `1.0`. -/
def oneF32 : UInt32 := 0x3F800000

def foldU32Binary (op : BinOp) (a b : UInt32) : Option Expr :=
  match op with
  | .add | .wrappingAdd => some (.litU32 (a + b))
  | .sub | .wrappingSub => some (.litU32 (a - b))
  | .mul => some (.litU32 (a * b))
  | .div => some (.litU32 (if b = 0 then 0xFFFFFFFF else a / b))
  | .mod => some (.litU32 (if b = 0 then 0 else a % b))
  | .bitAnd => some (.litU32 (a &&& b))
  | .bitOr => some (.litU32 (a ||| b))
  | .bitXor => some (.litU32 (a ^^^ b))
  | .shl => some (.litU32 (a <<< (b % 32)))
  | .shr => some (.litU32 (a >>> (b % 32)))
  | .eq => some (.litBool (a = b))
  | .ne => some (.litBool (a ≠ b))
  | .lt => some (.litBool (a < b))
  | .gt => some (.litBool (b < a))
  | .le => some (.litBool (a ≤ b))
  | .ge => some (.litBool (b ≤ a))
  | .and => some (.litBool (a ≠ 0 ∧ b ≠ 0))
  | .or => some (.litBool (a ≠ 0 ∨ b ≠ 0))
  | .min => some (.litU32 (if a ≤ b then a else b))
  | .max => some (.litU32 (if a ≤ b then b else a))
  | .absDiff => some (.litU32 (if a ≤ b then b - a else a - b))
  | .saturatingAdd => some (.litU32 (UInt32.ofNat (min (a.toNat + b.toNat) 0xFFFFFFFF)))
  | .saturatingSub => some (.litU32 (UInt32.ofNat (a.toNat - b.toNat)))
  | .saturatingMul => some (.litU32 (UInt32.ofNat (min (a.toNat * b.toNat) 0xFFFFFFFF)))
  | .rotateLeft => some (.litU32 (UInt32.ofBitVec (a.toBitVec.rotateLeft (b % 32).toNat)))
  | .rotateRight => some (.litU32 (UInt32.ofBitVec (a.toBitVec.rotateRight (b % 32).toNat)))
  | .mulHigh => some (.litU32 (UInt32.ofNat (a.toNat * b.toNat / 2 ^ 32)))
  | _ => none

def foldI32Binary (op : BinOp) (a b : Int32) : Option Expr :=
  match op with
  | .add | .wrappingAdd => some (.litI32 (a + b))
  | .sub | .wrappingSub => some (.litI32 (a - b))
  | .mul => some (.litI32 (a * b))
  | .div => some (.litI32 (if b = 0 then 0 else a / b))
  | .mod => some (.litI32 (if b = 0 then 0 else a % b))
  | .bitAnd => some (.litI32 (a &&& b))
  | .bitOr => some (.litI32 (a ||| b))
  | .bitXor => some (.litI32 (a ^^^ b))
  | .shl => if b < 0 then none else some (.litI32 (a <<< (b.toUInt32 % 32).toInt32))
  | .shr => if b < 0 then none else some (.litI32 (a >>> (b.toUInt32 % 32).toInt32))
  | .eq => some (.litBool (a = b))
  | .ne => some (.litBool (a ≠ b))
  | .lt => some (.litBool (a < b))
  | .gt => some (.litBool (b < a))
  | .le => some (.litBool (a ≤ b))
  | .ge => some (.litBool (b ≤ a))
  | .and => some (.litBool (a ≠ 0 ∧ b ≠ 0))
  | .or => some (.litBool (a ≠ 0 ∨ b ≠ 0))
  | .min => some (.litI32 (if a ≤ b then a else b))
  | .max => some (.litI32 (if a ≤ b then b else a))
  | .absDiff => some (.litU32 (UInt32.ofNat (a.toInt - b.toInt).natAbs))
  | .saturatingAdd => some (.litI32 (saturateI32 (a.toInt + b.toInt)))
  | .saturatingSub => some (.litI32 (saturateI32 (a.toInt - b.toInt)))
  | .saturatingMul => some (.litI32 (saturateI32 (a.toInt * b.toInt)))
  | .rotateLeft =>
      some (.litI32 (Int32.ofBitVec (a.toBitVec.rotateLeft (b.toUInt32 % 32).toNat)))
  | .rotateRight =>
      some (.litI32 (Int32.ofBitVec (a.toBitVec.rotateRight (b.toUInt32 % 32).toNat)))
  | _ => none

def foldBoolBinary (op : BinOp) (a b : Bool) : Option Expr :=
  match op with
  | .and => some (.litBool (a && b))
  | .or => some (.litBool (a || b))
  | .bitXor => some (.litBool (a ^^ b))
  | .eq => some (.litBool (a == b))
  | .ne => some (.litBool (a != b))
  | _ => none

section Floats

variable (fl : FoldFloats)

def foldF32Binary (op : BinOp) (a b : UInt32) : Option Expr :=
  let a := canonicalF32 a
  let b := canonicalF32 b
  if isNanF32 a || isNanF32 b then none
  else
    match op with
    | .add => some (.litF32 (canonicalF32 (fl.add a b)))
    | .sub => some (.litF32 (canonicalF32 (fl.sub a b)))
    | .mul => some (.litF32 (canonicalF32 (fl.mul a b)))
    | .div => if fl.eq b 0 then none else some (.litF32 (canonicalF32 (fl.div a b)))
    | .mod => if fl.eq b 0 then none else some (.litF32 (canonicalF32 (fl.rem a b)))
    | .eq => some (.litBool (fl.eq a b))
    | .ne => some (.litBool (!fl.eq a b))
    | .lt => some (.litBool (fl.lt a b))
    | .gt => some (.litBool (fl.lt b a))
    | .le => some (.litBool (fl.le a b))
    | .ge => some (.litBool (fl.le b a))
    | .min => some (.litF32 (canonicalF32 (fl.min a b)))
    | .max => some (.litF32 (canonicalF32 (fl.max a b)))
    | _ => none

variable (op : UnOp)

/-- The functions of `libm` and the rounding functions, on an integer operand `v`
given as its `f32`: they are the same for `u32` and `i32`. -/
def foldIntegerMath (v : UInt32) : Option Expr :=
  match op with
  | .sqrt | .exp | .exp2 | .log | .log2 | .sin | .cos | .tan | .asin | .acos | .atan
  | .sinh | .cosh | .tanh => some (.litF32 (fl.unary op v))
  | .inverseSqrt => some (.litF32 (fl.div oneF32 (fl.unary .sqrt v)))
  | .reciprocal => some (.litF32 (fl.div oneF32 v))
  | .floor | .ceil | .round | .trunc => some (.litF32 v)
  | .isNan | .isInf => some (.litBool false)
  | .isFinite => some (.litBool true)
  | _ => none

def foldU32Unary (v : UInt32) : Option Expr :=
  match op with
  | .negate => some (.litU32 (0 - v))
  | .bitNot => some (.litU32 (~~~v))
  | .logicalNot => some (.litBool (v = 0))
  | .popcount => some (.litU32 (onBitsU32 .cpop v))
  | .clz => some (.litU32 (onBitsU32 .clz v))
  | .ctz => some (.litU32 (onBitsU32 .ctz v))
  | .reverseBits => some (.litU32 (onBitsU32 .reverse v))
  | .abs => some (.litU32 v)
  | .sign => some (.litF32 (if v = 0 then 0 else oneF32))
  | .unpack4Low => some (.litU32 (v &&& 0x0F))
  | .unpack4High => some (.litU32 ((v >>> 4) &&& 0x0F))
  | .unpack8Low => some (.litU32 (v &&& 0xFF))
  | .unpack8High => some (.litU32 ((v >>> 24) &&& 0xFF))
  | op => foldIntegerMath fl op (fl.ofU32 v)

/-- `fold_i32_unary`; `wrapping_abs` leaves the least value. -/
def foldI32Unary (v : Int32) : Option Expr :=
  match op with
  | .negate => some (.litI32 (0 - v))
  | .bitNot => some (.litI32 (~~~v))
  | .logicalNot => some (.litBool (v = 0))
  | .popcount => some (.litI32 (onBitsI32 .cpop v))
  | .clz => some (.litI32 (onBitsI32 .clz v))
  | .ctz => some (.litI32 (onBitsI32 .ctz v))
  | .reverseBits => some (.litI32 (onBitsI32 .reverse v))
  | .abs => some (.litI32 (if v < 0 then 0 - v else v))
  | .sign => some (.litF32 (if v = 0 then 0 else fl.ofI32 (if v < 0 then -1 else 1)))
  | op => foldIntegerMath fl op (fl.ofI32 v)

def foldBoolUnary (v : Bool) : Option Expr :=
  match op with
  | .logicalNot | .bitNot => some (.litBool (!v))
  | .isNan | .isInf => some (.litBool false)
  | .isFinite => some (.litBool true)
  | _ => none

def foldF32Unary (v : UInt32) : Option Expr :=
  let v := canonicalF32 v
  match op with
  | .isNan => some (.litBool (isNanF32 v))
  | .isInf => some (.litBool (isInfiniteF32 v))
  | .isFinite => some (.litBool (!isNanF32 v && !isInfiniteF32 v))
  | op =>
      if isNanF32 v then none
      else
        match op with
        | .negate => some (.litF32 (canonicalF32 (v ^^^ 0x80000000)))
        | .inverseSqrt => some (.litF32 (canonicalF32 (fl.div oneF32 (fl.unary .sqrt v))))
        | .reciprocal => some (.litF32 (canonicalF32 (fl.div oneF32 v)))
        | .abs => some (.litF32 (canonicalF32 (v &&& 0x7FFFFFFF)))
        | .sign => some (.litF32 (canonicalF32 (signF32 v)))
        | .logicalNot => some (.litBool (v &&& 0x7FFFFFFF == 0))
        | .sqrt | .exp | .exp2 | .log | .log2 | .sin | .cos | .tan | .asin | .acos | .atan
        | .sinh | .cosh | .tanh | .ceil | .floor | .round | .trunc =>
            some (.litF32 (canonicalF32 (fl.unary op v)))
        | _ => none

def foldBinaryLiteral (op : BinOp) (left right : Expr) : Option Expr :=
  match left, right with
  | .litU32 a, .litU32 b => foldU32Binary op a b
  | .litI32 a, .litI32 b => foldI32Binary op a b
  | .litBool a, .litBool b => foldBoolBinary op a b
  | .litF32 a, .litF32 b => foldF32Binary fl op a b
  | _, _ => none

def foldUnaryLiteral (operand : Expr) : Option Expr :=
  match operand with
  | .litU32 v => foldU32Unary fl op v
  | .litI32 v => foldI32Unary fl op v
  | .litBool v => foldBoolUnary op v
  | .litF32 v => foldF32Unary fl op v
  | _ => none

def isFiniteF32 (bits : UInt32) : Bool := !isNanF32 bits && !isInfiniteF32 bits

def foldCastLiteral (target : DataType) (value : Expr) : Option Expr :=
  match target with
  | .u32 =>
      match value with
      | .litU32 v => some (.litU32 v)
      | .litI32 v => some (.litU32 v.toUInt32)
      | .litF32 v => if isFiniteF32 v then some (.litU32 (fl.toU32 (fl.widen v))) else none
      | .litBool v => some (.litU32 (u32OfBool v))
      | _ => none
  | .i32 =>
      match value with
      | .litU32 v => some (.litI32 v.toInt32)
      | .litI32 v => some (.litI32 v)
      | .litF32 v => if isFiniteF32 v then some (.litI32 (fl.toI32 (fl.widen v))) else none
      | .litBool v => some (.litI32 (u32OfBool v).toInt32)
      | _ => none
  | .f32 =>
      match value with
      | .litU32 v => some (.litF32 (fl.ofU32 v))
      | .litI32 v => some (.litF32 (fl.ofI32 v))
      | .litF32 v => some (.litF32 v)
      | .litBool v => some (.litF32 (if v then oneF32 else 0))
      | _ => none
  | .bool =>
      match value with
      | .litU32 v => some (.litBool (v ≠ 0))
      | .litI32 v => some (.litBool (v ≠ 0))
      | .litF32 v => some (.litBool (!fl.eq v 0))
      | .litBool v => some (.litBool v)
      | _ => none
  | _ => none

def foldFmaLiteral (a b c : Expr) : Option Expr :=
  match a, b, c with
  | .litF32 a, .litF32 b, .litF32 c =>
      if isNanF32 a || isNanF32 b || isNanF32 c then none
      else some (.litF32 (canonicalF32 (fl.mulAdd a b c)))
  | _, _, _ => none

/-- `fold_literal_tree`: an operand that folds is replaced before the operation
itself is tried. -/
def foldLiteralTree : Expr → Option Expr
  | .binOp op left right =>
      foldBinaryLiteral fl op ((foldLiteralTree left).getD left)
        ((foldLiteralTree right).getD right)
  | .fma a b c =>
      foldFmaLiteral fl ((foldLiteralTree a).getD a) ((foldLiteralTree b).getD b)
        ((foldLiteralTree c).getD c)
  | .unOp op operand => foldUnaryLiteral fl op ((foldLiteralTree operand).getD operand)
  | .cast target value => foldCastLiteral fl target ((foldLiteralTree value).getD value)
  | _ => none

end Floats

end LiteralFold

end Vyre
