import Mathlib.Algebra.Order.Ring.Nat
import Mathlib.Data.List.Basic

/-!
# IR vocabulary

The closed enumerations shared by the wire codec, the validator and the
reference interpreter (`vyre-spec` and `runtime/memory_model.rs`). Names are
the source's, in lower camel case; an extension operator carries its `u32` id
and is the constructor `ext` of its enumeration.

`u8`, `u32`, `u64` and `i32` are Lean's fixed-width integers, `usize` is 64-bit.
-/

namespace Vyre

/-- Interned identifier (`Ident`, `Arc<str>`): compared by its text. -/
abbrev Ident := String

inductive QuantizationScale where
  | perTensor
  | perChannel (axis : UInt32)
  | perGroup (groupSize : UInt32)
  deriving DecidableEq

inductive QuantizationZeroPoint where
  | absent
  | perTensor
  | perChannel (axis : UInt32)
  | perGroup (groupSize : UInt32)
  deriving DecidableEq

inductive DataType where
  | u8 | u16 | u32 | i8 | i16 | i32 | i64 | u64
  | vec2U32 | vec4U32 | bool | bytes
  | array (elementSize : UInt64)
  | f16 | bf16 | f32 | f64 | tensor
  | handle (typeId : UInt32)
  | vec (element : DataType) (count : UInt8)
  | tensorShaped (element : DataType) (shape : List UInt32)
  | sparseCsr (element : DataType)
  | sparseCoo (element : DataType)
  | sparseBsr (element : DataType) (blockRows blockCols : UInt32)
  | f8e4m3 | f8e5m2 | i4 | fp4 | nf4
  | deviceMesh (axes : List UInt32)
  | quantized (storage : DataType) (scale : QuantizationScale)
      (zeroPoint : QuantizationZeroPoint)
  | ext (id : UInt32)
  deriving DecidableEq

inductive BinOp where
  | add | sub | mul | div | mod | wrappingAdd | wrappingSub
  | bitAnd | bitOr | bitXor | shl | shr
  | eq | ne | lt | gt | le | ge | and | or
  | absDiff | min | max
  | saturatingAdd | saturatingSub | saturatingMul
  | shuffle | ballot | waveReduce | waveBroadcast
  | rotateLeft | rotateRight | mulHigh
  | ext (id : UInt32)
  deriving DecidableEq

inductive UnOp where
  | negate | bitNot | logicalNot | popcount | clz | ctz | reverseBits
  | cos | sin | abs | sqrt | floor | ceil | round | trunc | sign
  | isNan | isInf | isFinite | exp | log | log2 | exp2
  | tan | acos | asin | atan | tanh | sinh | cosh | inverseSqrt
  | unpack4Low | unpack4High | unpack8Low | unpack8High | reciprocal
  | ext (id : UInt32)
  deriving DecidableEq

inductive AtomicOp where
  | add | or | and | xor | min | max | exchange
  | compareExchange | compareExchangeWeak | fetchNand | lruUpdate
  | ext (id : UInt32)
  deriving DecidableEq

inductive BufferAccess where
  | readOnly | readWrite | uniform | writeOnly | workgroup
  deriving DecidableEq

inductive CollectiveOp where
  | sum | min | max | bitAnd | bitOr | bitXor
  deriving DecidableEq

inductive MemoryOrdering where
  | relaxed | acquire | release | acqRel | seqCst | gridSync
  deriving DecidableEq

inductive MemoryKind where
  | global | shared | uniform | local | readonly | persistent | push
  deriving DecidableEq

inductive CacheLocality where
  | streaming | temporal | random
  deriving DecidableEq

structure MemoryHints where
  coalesceAxis : Option UInt8 := none
  preferredAlignment : UInt32 := 0
  cacheLocality : CacheLocality := .temporal
  deriving DecidableEq

inductive LinearType where
  | linear | affine | relevant | unrestricted
  deriving DecidableEq

inductive ShapePredicate where
  | atLeast (n : UInt32)
  | atMost (n : UInt32)
  | exactly (n : UInt32)
  | multipleOf (n : UInt32)
  | modEquals (modulus remainder : UInt32)
  | affineRange (scale offset min max : Int64)
  | and (a b : ShapePredicate)
  | or (a b : ShapePredicate)
  | not (inner : ShapePredicate)
  deriving DecidableEq

/-- Largest `usize` plus one: every host the crate supports is 64-bit. -/
def usizeLimit : Nat := 2 ^ 64

def checkedMul (a b : Nat) : Option Nat :=
  if a * b < usizeLimit then some (a * b) else none

/-- `DataType::size_bytes`: fixed element size, `none` when it varies. -/
def DataType.sizeBytes : DataType → Option Nat
  | .u8 | .i8 => some 1
  | .u16 | .i16 | .f16 | .bf16 => some 2
  | .bool | .u32 | .i32 | .f32 => some 4
  | .i64 | .u64 | .vec2U32 | .f64 => some 8
  | .vec4U32 => some 16
  | .handle _ => some 4
  | .bytes => some 1
  | .array elementSize => some elementSize.toNat
  | .vec element count =>
      match element.sizeBytes with
      | some size => checkedMul size count.toNat
      | none => none
  | .tensor | .tensorShaped _ _ => none
  | .f8e4m3 | .f8e5m2 => some 1
  | .i4 | .fp4 | .nf4 => some 1
  | .sparseCsr _ | .sparseCoo _ | .sparseBsr _ _ _ => none
  | .deviceMesh _ => some 4
  | .quantized storage _ _ => storage.sizeBytes
  | .ext _ => none

def DataType.isQuantizedStorage : DataType → Bool
  | .i4 | .i8 | .i16 | .u8 | .u16 | .f8e4m3 | .f8e5m2 | .fp4 | .nf4 => true
  | _ => false

def MemoryOrdering.isValidForAtomicRmw : MemoryOrdering → Bool
  | .gridSync => false
  | _ => true

def MemoryOrdering.isValidForBarrier : MemoryOrdering → Bool
  | .relaxed => false
  | _ => true

/-- `ShapePredicate::holds`; the affine test is computed in `i128`. -/
def ShapePredicate.holds (count : UInt32) : ShapePredicate → Bool
  | .atLeast n => n ≤ count
  | .atMost n => count ≤ n
  | .exactly n => count == n
  | .multipleOf n => n != 0 && count % n == 0
  | .modEquals modulus remainder =>
      modulus != 0 && remainder < modulus && count % modulus == remainder
  | .affineRange scale offset min max =>
      let value : Int := count.toNat * scale.toInt + offset.toInt
      min.toInt ≤ value && value ≤ max.toInt
  | .and a b => a.holds count && b.holds count
  | .or a b => a.holds count || b.holds count
  | .not inner => !inner.holds count

end Vyre
