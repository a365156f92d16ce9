import Vyre.Ir.Program

/-!
# Spellings of the IR vocabulary

How diagnostics print operators, accesses and data types: `Display` of
`DataType` (`vyre-spec/src/data_type/display.rs`), and the derived `Debug` of
the enumerations, which is the variant's name.
-/

namespace Vyre

/-- `{:#010x}`: `0x` and eight hexadecimal digits. -/
def hex32 (value : UInt32) : String :=
  let digits := Nat.toDigits 16 value.toNat
  "0x" ++ String.ofList (List.replicate (8 - digits.length) '0' ++ digits)

/-- Dimensions joined by `x`. -/
def joinDims (dims : List UInt32) : String := "x".intercalate (dims.map fun dim => toString dim)

def QuantizationScale.display : QuantizationScale → String
  | .perTensor => "scale:per_tensor"
  | .perChannel axis => s!"scale:per_channel(axis={axis})"
  | .perGroup groupSize => s!"scale:per_group(size={groupSize})"

def QuantizationZeroPoint.display : QuantizationZeroPoint → String
  | .absent => "zp:absent"
  | .perTensor => "zp:per_tensor"
  | .perChannel axis => s!"zp:per_channel(axis={axis})"
  | .perGroup groupSize => s!"zp:per_group(size={groupSize})"

def DataType.display : DataType → String
  | .u8 => "u8" | .u16 => "u16" | .u32 => "u32" | .i8 => "i8" | .i16 => "i16" | .i32 => "i32"
  | .i64 => "i64" | .u64 => "u64" | .vec2U32 => "vec2<u32>" | .vec4U32 => "vec4<u32>"
  | .bool => "bool" | .bytes => "bytes"
  | .array elementSize => s!"array<{elementSize}B>"
  | .f16 => "f16" | .bf16 => "bf16" | .f32 => "f32" | .f64 => "f64" | .tensor => "tensor"
  | .handle typeId => s!"handle<{hex32 typeId}>"
  | .vec element count => s!"vec<{element.display};{count}>"
  | .tensorShaped element shape => s!"tensor<{element.display};{joinDims shape}>"
  | .ext id => s!"opaque<{hex32 id}>"
  | .f8e4m3 => "f8e4m3" | .f8e5m2 => "f8e5m2" | .i4 => "i4" | .fp4 => "fp4" | .nf4 => "nf4"
  | .sparseCsr element => s!"sparse_csr<{element.display}>"
  | .sparseCoo element => s!"sparse_coo<{element.display}>"
  | .sparseBsr element blockRows blockCols =>
      s!"sparse_bsr<{element.display};{blockRows}x{blockCols}>"
  | .deviceMesh axes => s!"device_mesh<{joinDims axes}>"
  | .quantized storage scale zeroPoint =>
      s!"quantized<{storage.display};{scale.display};{zeroPoint.display}>"

def BinOp.debug : BinOp → String
  | .add => "Add" | .sub => "Sub" | .mul => "Mul" | .div => "Div" | .mod => "Mod"
  | .wrappingAdd => "WrappingAdd" | .wrappingSub => "WrappingSub"
  | .bitAnd => "BitAnd" | .bitOr => "BitOr" | .bitXor => "BitXor" | .shl => "Shl" | .shr => "Shr"
  | .eq => "Eq" | .ne => "Ne" | .lt => "Lt" | .gt => "Gt" | .le => "Le" | .ge => "Ge"
  | .and => "And" | .or => "Or" | .absDiff => "AbsDiff" | .min => "Min" | .max => "Max"
  | .saturatingAdd => "SaturatingAdd" | .saturatingSub => "SaturatingSub"
  | .saturatingMul => "SaturatingMul"
  | .shuffle => "Shuffle" | .ballot => "Ballot" | .waveReduce => "WaveReduce"
  | .waveBroadcast => "WaveBroadcast" | .rotateLeft => "RotateLeft"
  | .rotateRight => "RotateRight" | .mulHigh => "MulHigh"
  | .ext id => s!"Opaque(ExtensionBinOpId({id}))"

def UnOp.debug : UnOp → String
  | .negate => "Negate" | .bitNot => "BitNot" | .logicalNot => "LogicalNot"
  | .popcount => "Popcount" | .clz => "Clz" | .ctz => "Ctz" | .reverseBits => "ReverseBits"
  | .cos => "Cos" | .sin => "Sin" | .abs => "Abs" | .sqrt => "Sqrt" | .floor => "Floor"
  | .ceil => "Ceil" | .round => "Round" | .trunc => "Trunc" | .sign => "Sign"
  | .isNan => "IsNan" | .isInf => "IsInf" | .isFinite => "IsFinite"
  | .exp => "Exp" | .log => "Log" | .log2 => "Log2" | .exp2 => "Exp2"
  | .tan => "Tan" | .acos => "Acos" | .asin => "Asin" | .atan => "Atan" | .tanh => "Tanh"
  | .sinh => "Sinh" | .cosh => "Cosh" | .inverseSqrt => "InverseSqrt"
  | .unpack4Low => "Unpack4Low" | .unpack4High => "Unpack4High"
  | .unpack8Low => "Unpack8Low" | .unpack8High => "Unpack8High" | .reciprocal => "Reciprocal"
  | .ext id => s!"Opaque(ExtensionUnOpId({id}))"

def AtomicOp.debug : AtomicOp → String
  | .add => "Add" | .or => "Or" | .and => "And" | .xor => "Xor" | .min => "Min" | .max => "Max"
  | .exchange => "Exchange" | .compareExchange => "CompareExchange"
  | .compareExchangeWeak => "CompareExchangeWeak" | .fetchNand => "FetchNand"
  | .lruUpdate => "LruUpdate"
  | .ext id => s!"Opaque(ExtensionAtomicOpId({id}))"

def BufferAccess.debug : BufferAccess → String
  | .readOnly => "ReadOnly" | .readWrite => "ReadWrite" | .uniform => "Uniform"
  | .writeOnly => "WriteOnly" | .workgroup => "Workgroup"

def MemoryOrdering.debug : MemoryOrdering → String
  | .relaxed => "Relaxed" | .acquire => "Acquire" | .release => "Release"
  | .acqRel => "AcqRel" | .seqCst => "SeqCst" | .gridSync => "GridSync"

end Vyre
