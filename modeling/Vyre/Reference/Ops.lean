import Vyre.Ir.Display
import Vyre.Reference.Value

/-!
# Primitive operations

Binary and unary operators (`typed_ops`), casts (`expr_cast.rs`) and atomic
read-modify-write functions (`atomics.rs`) of the reference interpreter, with
the errors the interpreter ends with.

The integer helpers the source generates by macro for `u32`, `i32` and `u64`
are one definition over the type; what the macro takes as arguments, the
definition takes as arguments.
-/

namespace Vyre.Reference

open ByteCodec UInt32

/-- The `Error::interp` diagnostics, by what went wrong where another part of
the development asks for it, and otherwise by their text. -/
inductive Error where
  | undeclaredVariable (name : Ident)
  | duplicateLocal (name : Ident)
  | assignUndeclared (name : Ident)
  | assignLoopVariable (name : Ident)
  | mismatchedOperands (op : BinOp) (left right : Value)
  | unknownBinOp (op : BinOp)
  | unknownUnOp (op : UnOp)
  | boolBinOp (op : BinOp)
  | boolUnOp (op : UnOp)
  | floatBinOp (op : BinOp)
  | floatUnOp (op : UnOp)
  | nonPrimitiveOperand (op : UnOp) (value : Value)
  | undefinedI32Division (kind : String) (left right : Int32)
  | invalidCast (target : DataType) (value : Value)
  | indexNotU32 (label : String) (value : Value)
  | atomicExpected (expected : Expr)
  | unsupportedAtomic (op : AtomicOp)
  | interp (message : String)

/-! ## Binary operators -/

/-- `int_bin_helpers!`: the operators every integer type has. -/
def binopInt {α : Type} [Add α] [Sub α] [Mul α] [AndOp α] [OrOp α] [XorOp α] [OfNat α 0]
    [DecidableEq α] [LT α] [DecidableLT α] [LE α] [DecidableLE α]
    (wrap : α → Value) (shift : α → α → Bool → α) (div rem : α → α → Except Error α)
    (op : BinOp) (left right : α) : Except Error Value :=
  match op with
  | .add => .ok (wrap (left + right))
  | .sub => .ok (wrap (left - right))
  | .mul => .ok (wrap (left * right))
  | .div => (div left right).map wrap
  | .mod => (rem left right).map wrap
  | .bitAnd => .ok (wrap (left &&& right))
  | .bitOr => .ok (wrap (left ||| right))
  | .bitXor => .ok (wrap (left ^^^ right))
  | .shl => .ok (wrap (shift left right true))
  | .shr => .ok (wrap (shift left right false))
  | .eq => .ok (.bool (left = right))
  | .ne => .ok (.bool (left ≠ right))
  | .lt => .ok (.bool (left < right))
  | .gt => .ok (.bool (right < left))
  | .le => .ok (.bool (left ≤ right))
  | .ge => .ok (.bool (right ≤ left))
  | .and => .ok (.bool (left ≠ 0 ∧ right ≠ 0))
  | .or => .ok (.bool (left ≠ 0 ∨ right ≠ 0))
  | op => .error (.unknownBinOp op)

def divU32 (left right : UInt32) : Except Error UInt32 :=
  .ok (if right = 0 then 0xFFFFFFFF else left / right)

def remU32 (left right : UInt32) : Except Error UInt32 :=
  .ok (if right = 0 then 0 else left % right)

/-- The shift amount is taken modulo the bit width. -/
def shiftU32 (left right : UInt32) (leftShift : Bool) : UInt32 :=
  if leftShift then left <<< (right &&& 31) else left >>> (right &&& 31)

def minI32 : Int32 := Int32.ofInt (-2147483648)

def divI32 (left right : Int32) : Except Error Int32 :=
  if right = 0 then .error (.undefinedI32Division "division" left right)
  else if left = minI32 ∧ right = -1 then
    .error (.undefinedI32Division "division overflow" left right)
  else .ok (left / right)

def remI32 (left right : Int32) : Except Error Int32 :=
  if right = 0 then .error (.undefinedI32Division "remainder" left right)
  else if left = minI32 ∧ right = -1 then
    .error (.undefinedI32Division "remainder overflow" left right)
  else .ok (left % right)

def shiftI32 (left right : Int32) (leftShift : Bool) : Int32 :=
  if leftShift then left <<< (right &&& 31) else left >>> (right &&& 31)

def divU64 (left right : UInt64) : Except Error UInt64 :=
  .ok (if right = 0 then 0xFFFFFFFFFFFFFFFF else left / right)

def remU64 (left right : UInt64) : Except Error UInt64 :=
  .ok (if right = 0 then 0 else left % right)

def shiftU64 (left right : UInt64) (leftShift : Bool) : UInt64 :=
  if leftShift then left <<< (right &&& 63) else left >>> (right &&& 63)

def binopU32 : BinOp → UInt32 → UInt32 → Except Error Value :=
  binopInt .u32 shiftU32 divU32 remU32

def binopI32 : BinOp → Int32 → Int32 → Except Error Value :=
  binopInt .i32 shiftI32 divI32 remI32

def binopU64 : BinOp → UInt64 → UInt64 → Except Error Value :=
  binopInt .u64 shiftU64 divU64 remU64

def binopBool (op : BinOp) (left right : Bool) : Except Error Value :=
  match op with
  | .eq => .ok (.bool (left == right))
  | .ne => .ok (.bool (left != right))
  | .and => .ok (.bool (left && right))
  | .or => .ok (.bool (left || right))
  | op => .error (.boolBinOp op)

/-- `u32_shared_binop`: the operators handled before the dispatch on types. -/
def u32SharedBinop (op : BinOp) (left right : UInt32) : Option Value :=
  match op with
  | .min => some (.u32 (if left ≤ right then left else right))
  | .max => some (.u32 (if left ≤ right then right else left))
  | .absDiff => some (.u32 (if left ≤ right then right - left else left - right))
  | .rotateLeft =>
      some (.u32 (ofBitVec (left.toBitVec.rotateLeft (right &&& 31).toNat)))
  | .rotateRight =>
      some (.u32 (ofBitVec (left.toBitVec.rotateRight (right &&& 31).toNat)))
  | .wrappingAdd => some (.u32 (left + right))
  | .wrappingSub => some (.u32 (left - right))
  | .saturatingAdd => some (.u32 (ofNat (min (left.toNat + right.toNat) 0xFFFFFFFF)))
  | .saturatingSub => some (.u32 (ofNat (left.toNat - right.toNat)))
  | .saturatingMul => some (.u32 (ofNat (min (left.toNat * right.toNat) 0xFFFFFFFF)))
  | .mulHigh => some (.u32 (ofNat (left.toNat * right.toNat / 2 ^ 32)))
  | _ => none

/-- An `i32` result clamped to its range. -/
def saturateI32 (value : Int) : Int32 :=
  Int32.ofInt (max (-2147483648) (min value 2147483647))

def i32SharedBinop (op : BinOp) (left right : Int32) : Option Value :=
  match op with
  | .min => some (.i32 (if left ≤ right then left else right))
  | .max => some (.i32 (if left ≤ right then right else left))
  | .absDiff => some (.u32 (ofNat (left.toInt - right.toInt).natAbs))
  | .wrappingAdd => some (.i32 (left + right))
  | .wrappingSub => some (.i32 (left - right))
  | .saturatingAdd => some (.i32 (saturateI32 (left.toInt + right.toInt)))
  | .saturatingSub => some (.i32 (saturateI32 (left.toInt - right.toInt)))
  | .saturatingMul => some (.i32 (saturateI32 (left.toInt * right.toInt)))
  | _ => none

def u64SharedBinop (op : BinOp) (left right : UInt64) : Option Value :=
  match op with
  | .min => some (.u64 (if left ≤ right then left else right))
  | .max => some (.u64 (if left ≤ right then right else left))
  | .absDiff => some (.u64 (if left ≤ right then right - left else left - right))
  | .wrappingAdd => some (.u64 (left + right))
  | .wrappingSub => some (.u64 (left - right))
  | .saturatingAdd =>
      some (.u64 (UInt64.ofNat (min (left.toNat + right.toNat) 0xFFFFFFFFFFFFFFFF)))
  | .saturatingSub => some (.u64 (UInt64.ofNat (left.toNat - right.toNat)))
  | .saturatingMul =>
      some (.u64 (UInt64.ofNat (min (left.toNat * right.toNat) 0xFFFFFFFFFFFFFFFF)))
  | .mulHigh => some (.u64 (UInt64.ofNat (left.toNat * right.toNat / 2 ^ 64)))
  | _ => none

section Floats

variable (fl : Floats)

/-- The `wrap` of `float_ops.rs`: a canonical `f32` as a value. -/
def floatValue (bits : UInt32) : Value := .float (fl.widen (canonicalF32 bits))

def binopF32 (op : BinOp) (left right : UInt32) : Except Error Value :=
  let left := canonicalF32 left
  let right := canonicalF32 right
  match op with
  | .add => .ok (floatValue fl (fl.add left right))
  | .sub => .ok (floatValue fl (fl.sub left right))
  | .mul => .ok (floatValue fl (fl.mul left right))
  | .div => .ok (floatValue fl (fl.div left right))
  | .min => .ok (floatValue fl (fl.min left right))
  | .max => .ok (floatValue fl (fl.max left right))
  | .eq => .ok (.bool (fl.eq left right))
  | .ne => .ok (.bool (!fl.eq left right))
  | .lt => .ok (.bool (fl.lt left right))
  | .gt => .ok (.bool (fl.lt right left))
  | .le => .ok (.bool (fl.le left right))
  | .ge => .ok (.bool (fl.le right left))
  | op => .error (.floatBinOp op)

/-- The operators `eval_binop` handles before it dispatches on the types. -/
def sharedBinop (op : BinOp) : Value → Value → Option Value
  | .u32 left, .u32 right => u32SharedBinop op left right
  | .i32 left, .i32 right => i32SharedBinop op left right
  | .u64 left, .u64 right => u64SharedBinop op left right
  | _, _ => none

def evalBinop (op : BinOp) (left right : Value) : Except Error Value :=
  match sharedBinop op left right with
  | some v => .ok v
  | none =>
      match left, right with
      | .u32 left, .u32 right => binopU32 op left right
      | .i32 left, .i32 right => binopI32 op left right
      | .u64 left, .u64 right => binopU64 op left right
      | .bool left, .bool right => binopBool op left right
      | .float left, .float right => binopF32 fl op (fl.narrow left) (fl.narrow right)
      | left, right => .error (.mismatchedOperands op left right)

/-- `int_un_helpers!`; `count_ones` and its kin are given on bit vectors. -/
def unopInt {α : Type} [Sub α] [Complement α] [OfNat α 0] [DecidableEq α] (wrap : α → Value)
    (popcount clz ctz reverseBits : α → α) (op : UnOp) (value : α) : Except Error Value :=
  match op with
  | .negate => .ok (wrap (0 - value))
  | .bitNot => .ok (wrap (~~~value))
  | .logicalNot => .ok (.bool (value = 0))
  | .popcount => .ok (wrap (popcount value))
  | .clz => .ok (wrap (clz value))
  | .ctz => .ok (wrap (ctz value))
  | .reverseBits => .ok (wrap (reverseBits value))
  | op => .error (.unknownUnOp op)

/-- A bit-vector function on `u32`. -/
def onBitsU32 (f : BitVec 32 → BitVec 32) (value : UInt32) : UInt32 :=
  ofBitVec (f value.toBitVec)

def onBitsI32 (f : BitVec 32 → BitVec 32) (value : Int32) : Int32 :=
  Int32.ofBitVec (f value.toBitVec)

def onBitsU64 (f : BitVec 64 → BitVec 64) (value : UInt64) : UInt64 :=
  UInt64.ofBitVec (f value.toBitVec)

def unopU32 : UnOp → UInt32 → Except Error Value :=
  unopInt .u32 (onBitsU32 .cpop) (onBitsU32 .clz) (onBitsU32 .ctz) (onBitsU32 .reverse)

def unopI32 : UnOp → Int32 → Except Error Value :=
  unopInt .i32 (onBitsI32 .cpop) (onBitsI32 .clz) (onBitsI32 .ctz) (onBitsI32 .reverse)

def unopU64 : UnOp → UInt64 → Except Error Value :=
  unopInt .u64 (onBitsU64 .cpop) (onBitsU64 .clz) (onBitsU64 .ctz) (onBitsU64 .reverse)

def unopBool (op : UnOp) (value : Bool) : Except Error Value :=
  match op with
  | .logicalNot => .ok (.bool (!value))
  | op => .error (.boolUnOp op)

/-- `float_ops::sign`. -/
def signF32 (bits : UInt32) : UInt32 :=
  if isNanF32 bits then 0x7FC00000
  else if bits &&& 0x7FFFFFFF = 0 then 0
  else if bits &&& 0x80000000 = 0 then 0x3F800000
  else 0xBF800000

def unopF32 (op : UnOp) (bits : UInt32) : Except Error Value :=
  let value := canonicalF32 bits
  match op with
  | .negate => .ok (floatValue fl (value ^^^ 0x80000000))
  | .abs => .ok (floatValue fl (value &&& 0x7FFFFFFF))
  | .sign => .ok (floatValue fl (signF32 value))
  | .isNan => .ok (.bool (isNanF32 value))
  | .isInf => .ok (.bool (isInfiniteF32 value))
  | .isFinite => .ok (.bool (!isNanF32 value && !isInfiniteF32 value))
  | .sqrt | .inverseSqrt | .reciprocal | .sin | .cos | .floor | .ceil | .round | .trunc
  | .exp | .log | .log2 | .exp2 | .tan | .acos | .asin | .atan | .tanh | .sinh | .cosh =>
      .ok (floatValue fl (fl.unary op value))
  | op => .error (.floatUnOp op)

def evalUnop (op : UnOp) (operand : Value) : Except Error Value :=
  match operand with
  | .u32 value => unopU32 op value
  | .i32 value => unopI32 op value
  | .u64 value => unopU64 op value
  | .bool value => unopBool op value
  | .float bits => unopF32 fl op (fl.narrow bits)
  | value => .error (.nonPrimitiveOperand op value)

/-- `Ok(x)` or the `invalid_cast` diagnostic. -/
def castOr (target : DataType) (value : Value) (result : Option Value) : Except Error Value :=
  match result with
  | some v => .ok v
  | none => .error (.invalidCast target value)

def castValue (target : DataType) (value : Value) : Except Error Value :=
  match target with
  | .u32 =>
      match value with
      | .i32 v => .ok (.u32 v.toUInt32)
      | .float bits => .ok (.u32 (fl.toU32 bits))
      | value => castOr .u32 value ((value.tryAsU32 fl).map .u32)
  | .i32 =>
      match value with
      | .i32 v => .ok (.i32 v)
      | .float bits => .ok (.i32 (fl.toI32 bits))
      | value => castOr .i32 value ((value.tryAsU32 fl).map fun v => .i32 v.toInt32)
  | .u64 => castOr .u64 value ((value.tryAsU64 fl).map .u64)
  | .f32 =>
      match value with
      | .u32 v => .ok (.float (fl.widen (fl.ofU32 v)))
      | .i32 v => .ok (.float (fl.widen (fl.ofI32 v)))
      | .u64 v => .ok (.float (fl.widen (fl.ofU64 v)))
      | .float bits => .ok (.float bits)
      | .bool b => .ok (.float (if b then 0x3FF0000000000000 else 0))
      | value =>
          castOr .f32 value ((value.tryAsU32 fl).map fun v => .float (fl.widen (fl.ofU32 v)))
  | .bool => .ok (.bool (value.truthy fl))
  | .bytes => .ok (.bytes value.toBytes)
  | .vec2U32 => .ok (.bytes (value.toSlot 8))
  | .vec4U32 => .ok (.bytes (value.toSlot 16))
  | _ => .ok (.bytes value.toBytes)

def specOutputValue (ty : DataType) (bytes : List UInt8) : Value :=
  match ty with
  | .u32 => .u32 (readU32Prefix bytes)
  | .i32 => .i32 (readU32Prefix bytes).toInt32
  | .bool => .bool (readU32Prefix bytes != 0)
  | .u64 => .u64 (readU64Prefix bytes)
  | .f32 => .float (fl.widen (readU32Prefix bytes))
  | .vec2U32 => .bytes (Value.toSlot 8 (.bytes bytes))
  | .vec4U32 => .bytes (Value.toSlot 16 (.bytes bytes))
  | _ => .bytes bytes

end Floats

/-- `atomics::apply`: the old word and the word written back. -/
def atomicApply (op : AtomicOp) (old : UInt32) (expected : Option UInt32) (value : UInt32) :
    Except Error (UInt32 × UInt32) :=
  match op with
  | .add => .ok (old, old + value)
  | .or => .ok (old, old ||| value)
  | .and => .ok (old, old &&& value)
  | .xor => .ok (old, old ^^^ value)
  | .min => .ok (old, if old ≤ value then old else value)
  | .max => .ok (old, if old ≤ value then value else old)
  | .exchange => .ok (old, value)
  | .compareExchange =>
      match expected with
      | none => .error (.interp "compare-exchange atomic is missing expected value. Fix: set Expr::Atomic.expected.")
      | some expected => .ok (old, if old = expected then value else old)
  | .lruUpdate => .ok (old, if old ≤ value then value else old)
  | op => .error (.unsupportedAtomic op)

end Vyre.Reference
