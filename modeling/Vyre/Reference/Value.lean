import Vyre.Ir.Program
import Vyre.Lib.ByteCodec

/-!
# Runtime values

`value.rs` of the reference interpreter: values, their little-endian bytes and
the conversions between them. A float is the bit pattern of its `f64`.

Float arithmetic is the host's. `Floats` lists what the interpreter asks of it,
on bit patterns of `f32` and `f64`; what only looks at bits (NaN and subnormal
tests, sign) is computed here.
-/

namespace Vyre.Reference

open ByteCodec

/-- Host float arithmetic; `f32` and `f64` are given by their bit patterns. -/
structure Floats where
  /-- `v as f32` for `v : f64`. -/
  narrow : UInt64 → UInt32
  /-- `f64::from(v)` for `v : f32`. -/
  widen : UInt32 → UInt64
  /-- `f64_to_u32`: the `u32` below a finite value in range. -/
  toU32Checked : UInt64 → Option UInt32
  /-- `f64_to_u64`. -/
  toU64Checked : UInt64 → Option UInt64
  /-- `v as u32`, saturating. -/
  toU32 : UInt64 → UInt32
  /-- `v as i32`, saturating. -/
  toI32 : UInt64 → Int32
  ofU32 : UInt32 → UInt32
  ofI32 : Int32 → UInt32
  ofU64 : UInt64 → UInt32
  add : UInt32 → UInt32 → UInt32
  sub : UInt32 → UInt32 → UInt32
  mul : UInt32 → UInt32 → UInt32
  div : UInt32 → UInt32 → UInt32
  min : UInt32 → UInt32 → UInt32
  max : UInt32 → UInt32 → UInt32
  eq : UInt32 → UInt32 → Bool
  lt : UInt32 → UInt32 → Bool
  le : UInt32 → UInt32 → Bool
  /-- `a.mul_add(b, c)`. -/
  mulAdd : UInt32 → UInt32 → UInt32 → UInt32
  /-- The rounding and transcendental functions of `f32` and `ieee754`. -/
  unary : UnOp → UInt32 → UInt32

/-- `f32::is_nan`, on bits. -/
def isNanF32 (bits : UInt32) : Bool := (bits >>> 23) &&& 0xFF == 0xFF && bits &&& 0x7FFFFF != 0

/-- `f32::is_subnormal`, on bits. -/
def isSubnormalF32 (bits : UInt32) : Bool := (bits >>> 23) &&& 0xFF == 0 && bits &&& 0x7FFFFF != 0

/-- `f32::is_infinite`, on bits. -/
def isInfiniteF32 (bits : UInt32) : Bool := bits &&& 0x7FFFFFFF == 0x7F800000

/-- `typed_ops::canonical_f32`: one NaN, subnormals flushed to a signed zero. -/
def canonicalF32 (bits : UInt32) : UInt32 :=
  if isNanF32 bits then 0x7FC00000
  else if isSubnormalF32 bits then bits &&& 0x80000000
  else bits

inductive Value where
  | u32 (value : UInt32)
  | i32 (value : Int32)
  | u64 (value : UInt64)
  | bool (value : Bool)
  | bytes (data : List UInt8)
  | float (bits : UInt64)
  | array (values : List Value)

/-- `u32::from(bool)`. -/
def u32OfBool (b : Bool) : UInt32 := if b then 1 else 0

/-- `read_u32_prefix`: missing bytes read as zero. -/
def readU32Prefix (bytes : List UInt8) : UInt32 := UInt32.ofNat (ofLeBytes (bytes.take 4))

def readU64Prefix (bytes : List UInt8) : UInt64 := UInt64.ofNat (ofLeBytes (bytes.take 8))

namespace Value

mutual

def toBytes : Value → List UInt8
  | .u32 value => leBytes 4 value.toNat
  | .i32 value => leBytes 4 value.toUInt32.toNat
  | .u64 value => leBytes 8 value.toNat
  | .bool value => leBytes 4 (u32OfBool value).toNat
  | .bytes data => data
  | .float bits => leBytes 8 bits.toNat
  | .array values => toBytesList values

def toBytesList : List Value → List UInt8
  | [] => []
  | v :: vs => v.toBytes ++ toBytesList vs

end

/-- `write_bytes_width_into` a slot of `width` bytes: the value's bytes, cut or
filled with zeros. -/
def toSlot (width : Nat) (v : Value) : List UInt8 :=
  v.toBytes.take width ++ List.replicate (width - v.toBytes.length) 0

/-- What `extend_bytes_width` appends: width 0 keeps the value's own width. -/
def toBytesWidth (width : Nat) (v : Value) : List UInt8 :=
  if width = 0 then v.toBytes else v.toSlot width

variable (fl : Floats)

def tryAsU32 : Value → Option UInt32
  | .u32 value => some value
  | .i32 value => if 0 ≤ value then some value.toUInt32 else none
  | .u64 value => if value.toNat < 2 ^ 32 then some (UInt32.ofNat value.toNat) else none
  | .bool value => some (u32OfBool value)
  | .bytes data => if data.length ≤ 4 then some (readU32Prefix data) else none
  | .float bits => fl.toU32Checked bits
  | .array _ => none

def tryAsU64 : Value → Option UInt64
  | .u32 value => some value.toUInt64
  | .i32 value => if 0 ≤ value then some value.toUInt32.toUInt64 else none
  | .u64 value => some value
  | .bool value => some (u32OfBool value).toUInt64
  | .bytes data => if data.length ≤ 8 then some (readU64Prefix data) else none
  | .float bits => fl.toU64Checked bits
  | .array _ => none

def tryAsF32 : Value → Option UInt32
  | .float bits => some (fl.narrow bits)
  | .u32 value => some value
  | _ => none

/-- `truthy`: a float is false only when it is a zero of either sign. -/
def truthy : Value → Bool
  | .array values => !values.isEmpty
  | .float bits => bits &&& 0x7FFFFFFFFFFFFFFF != 0
  | v => (v.tryAsU32 fl).getD 1 != 0

end Value

def fixedScalarStorageWidth : DataType → Option Nat
  | .u8 | .i8 | .f8e4m3 | .f8e5m2 | .i4 | .fp4 | .nf4 => some 1
  | .u16 | .i16 | .f16 | .bf16 => some 2
  | .handle _ | .deviceMesh _ => some 4
  | .i64 => some 8
  | .array elementSize => some elementSize.toNat
  | .vec element count =>
      match fixedScalarStorageWidth element with
      | some width => checkedMul width count.toNat
      | none => none
  | .tensorShaped element shape =>
      match fixedScalarStorageWidth element with
      | some width => shape.foldlM (fun width dim => checkedMul width dim.toNat) width
      | none => none
  | .quantized storage _ _ => fixedScalarStorageWidth storage
  | _ => none

namespace Value

def tryZeroFor : DataType → Option Value
  | .u32 => some (.u32 0)
  | .i32 => some (.i32 0)
  | .u64 => some (.u64 0)
  | .bool => some (.bool false)
  | .bytes => some (.bytes [])
  | .f32 | .f64 => some (.float 0)
  | .vec2U32 => some (.bytes (List.replicate 8 0))
  | .vec4U32 => some (.bytes (List.replicate 16 0))
  | ty => (fixedScalarStorageWidth ty).map fun width => .bytes (List.replicate width 0)

def zeroFor (ty : DataType) : Value := (tryZeroFor ty).getD (.bytes [])

def fromElementBytes (fl : Floats) (ty : DataType) (bytes : List UInt8) : Option Value :=
  match ty with
  | .u32 => if bytes.length < 4 then none else some (.u32 (readU32Prefix bytes))
  | .i32 => if bytes.length < 4 then none else some (.i32 (readU32Prefix bytes).toInt32)
  | .u64 => if bytes.length < 8 then none else some (.u64 (readU64Prefix bytes))
  | .bool => if bytes.length < 4 then none else some (.bool (readU32Prefix bytes != 0))
  | .vec2U32 => if bytes.length < 8 then none else some (.bytes (bytes.take 8))
  | .vec4U32 => if bytes.length < 16 then none else some (.bytes (bytes.take 16))
  | .f32 =>
      if bytes.length < 4 then none
      else some (.float (fl.widen (canonicalF32 (readU32Prefix bytes))))
  | .f64 => if bytes.length < 8 then none else some (.float (readU64Prefix bytes))
  | .bytes => some (.bytes bytes)
  | ty =>
      match fixedScalarStorageWidth ty with
      | some width => if bytes.length < width then none else some (.bytes (bytes.take width))
      | none => some (.bytes bytes)

end Value

end Vyre.Reference
