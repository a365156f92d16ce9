import Vyre.Wire.Encode

/-!
# Wire decoder

`serial/wire/decode`, arm by arm. `node`, `expr` and `data_type` are recursive
in the source and take a number of call-stack frames here: a nested call has one
frame less, and a call that finds none left ends in `stackOverflow`. `fromWire`
gives them as many frames as the input has bytes, which is always enough since
every nested call has consumed a byte before it.

`node` and `expr` compare the reader's depth counter with `MAX_DECODE_DEPTH`
on entry; `data_type` does not, unless `Checks.guardTypes` makes it.
-/

namespace Vyre.Wire

open ByteCodec

namespace Reader

/-- `if self.depth >= MAX_DECODE_DEPTH { return Err(..) } self.depth += 1`. -/
def enter (tooDeep : DecodeFailure) : Read Unit := fun c =>
  if maxDecodeDepth ≤ c.depth then .error tooDeep
  else .ok ((), { c with depth := c.depth + 1 })

/-- `self.depth -= 1`. -/
def leave : Read Unit := fun c => .ok ((), { c with depth := c.depth - 1 })

/-- `decode_tag` over one of the operator tables. -/
def decodeTag {α : Type} (tag : UInt8) (table : List (UInt8 × α)) (kind : String) : Read α :=
  match table.find? (·.1 = tag) with
  | some (_, value) => pure value
  | none => err s!"Fix: unknown {kind} op tag {tag}; use a compatible IR serializer."

/-- `reject_reserved_extension_id`: dialect ids have the high bit. -/
def extensionId (surface : String) : Read UInt32 := do
  let raw ← u32
  ensure (raw &&& 0x80000000 != 0) s!"InvalidDiscriminant: {surface} opaque id {raw} collides with core IR. Fix: dialect extensions must use ids in 0x8000_0000..=0xffff_ffff."
  return raw

def binOp : Read BinOp := do
  let tag ← u8
  if tag = 0x80 then do
    let id ← extensionId "BinOp"
    return .ext id
  else decodeTag tag binOpTags "binary"

def unOp : Read UnOp := do
  let tag ← u8
  if tag = 0x80 then do
    let id ← extensionId "UnOp"
    return .ext id
  else decodeTag tag unOpTags "unary"

def atomicOp : Read AtomicOp := do
  let tag ← u8
  if tag = 0x80 then do
    let id ← extensionId "AtomicOp"
    return .ext id
  else decodeTag tag atomicOpTags "atomic"

/-- `MemoryOrdering::from_wire_tag`. -/
def ordering : Read MemoryOrdering := do
  let tag ← u8
  match tag with
  | 0 => pure .relaxed
  | 1 => pure .acquire
  | 2 => pure .release
  | 3 => pure .acqRel
  | 4 => pure .seqCst
  | 5 => pure .gridSync
  | other => err s!"InvalidDiscriminant: memory ordering tag {other} is unknown. Fix: reserialize with a compatible VYRE wire schema."

/-- `CollectiveOp::from_wire_tag`. -/
def collectiveOp : Read CollectiveOp := do
  let tag ← u8
  match tag with
  | 0x01 => pure .sum
  | 0x02 => pure .min
  | 0x03 => pure .max
  | 0x04 => pure .bitAnd
  | 0x05 => pure .bitOr
  | 0x06 => pure .bitXor
  | value => err s!"Fix: unknown CollectiveOp tag {value}; use a Program serializer compatible with this vyre version."

def quantizationScale : Read QuantizationScale := do
  let tag ← u8
  let param ← u32
  match tag with
  | 0 => do
      ensure (param == 0) s!"Fix: quantization PerTensor scale payload parameter must be 0, got {param}."
      return .perTensor
  | 1 => pure (.perChannel param)
  | 2 => do
      ensure (param != 0) "Fix: quantization PerGroup scale requires group_size > 0."
      return .perGroup param
  | other => err s!"Fix: unknown quantization scale tag {other}; use a compatible IR serializer."

def quantizationZeroPoint : Read QuantizationZeroPoint := do
  let tag ← u8
  let param ← u32
  match tag with
  | 0 => do
      ensure (param == 0) s!"Fix: quantization absent zero-point payload parameter must be 0, got {param}."
      return .absent
  | 1 => do
      ensure (param == 0) s!"Fix: quantization PerTensor zero-point payload parameter must be 0, got {param}."
      return .perTensor
  | 2 => pure (.perChannel param)
  | 3 => do
      ensure (param != 0) "Fix: quantization PerGroup zero-point requires group_size > 0."
      return .perGroup param
  | other => err s!"Fix: unknown quantization zero-point tag {other}; use a compatible IR serializer."

/-- `tags::data_type_from_tag`: the data types that are a bare tag. -/
def scalarFromTag (tag : UInt8) : Except String DataType :=
  match tag with
  | 0x01 => .ok .u32
  | 0x02 => .ok .i32
  | 0x03 => .ok .u64
  | 0x04 => .ok .vec2U32
  | 0x05 => .ok .vec4U32
  | 0x06 => .ok .bool
  | 0x07 => .ok .bytes
  | 0x09 => .ok .f16
  | 0x0A => .ok .bf16
  | 0x0B => .ok .f32
  | 0x0C => .ok .f64
  | 0x0D => .ok .tensor
  | 0x0E => .ok .u8
  | 0x0F => .ok .u16
  | 0x10 => .ok .i8
  | 0x11 => .ok .i16
  | 0x12 => .ok .i64
  | 0x19 => .ok .f8e4m3
  | 0x1A => .ok .f8e5m2
  | 0x1B => .ok .i4
  | 0x1C => .ok .fp4
  | 0x1D => .ok .nf4
  | tag => .error s!"Fix: unknown data type tag {tag}; use a compatible IR serializer."

/-- The arms of `data_type`, given the reader of a nested data type. -/
def dataTypeArm (nested : Read DataType) (tag : UInt8) : Read DataType :=
  match tag with
  | 0x08 => do
      let size ← u32
      return .array size.toUInt64
  | 0x13 => do
      let id ← u32
      return .handle id
  | 0x14 => do
      let element ← nested
      let count ← u8
      return .vec element count
  | 0x15 => do
      let element ← nested
      let len ← u32
      let shape ← many u32 len.toNat
      return .tensorShaped element shape
  | 0x16 => do
      let element ← nested
      return .sparseCsr element
  | 0x17 => do
      let element ← nested
      return .sparseCoo element
  | 0x18 => do
      let element ← nested
      let blockRows ← u32
      let blockCols ← u32
      return .sparseBsr element blockRows blockCols
  | 0x1E => do
      let len ← u32
      let axes ← many u32 len.toNat
      return .deviceMesh axes
  | 0x1F => do
      let storage ← nested
      ensure storage.isQuantizedStorage "Fix: DataType::Quantized storage is invalid; use I4/I8/I16/U8/U16/F8E4M3/F8E5M2/FP4/NF4 storage."
      let scale ← quantizationScale
      let zeroPoint ← quantizationZeroPoint
      return .quantized storage scale zeroPoint
  | 0x80 => do
      let id ← extensionId "DataType"
      return .ext id
  | tag => lift ((scalarFromTag tag).mapError .error)

/-- The body of `data_type`. -/
def dataTypeInner (nested : Read DataType) : Read DataType := do
  let tag ← u8
  dataTypeArm nested tag

/-- The depth guard of `data_type`: absent in the source. -/
def enterType (chk : Checks) : Read Unit :=
  if chk.guardTypes then enter .typeTooDeep else pure ()

def leaveType (chk : Checks) : Read Unit :=
  if chk.guardTypes then leave else pure ()

def dataType (chk : Checks) : Nat → Read DataType
  | 0 => do
      enterType chk
      fail .stackOverflow
  | stack + 1 => do
      enterType chk
      let result ← dataTypeInner (dataType chk stack)
      leaveType chk
      return result

/-! ## Expressions and statements -/

variable (host : Host) (chk : Checks)

/-- The payload of an extension, handed to its registered decoder. -/
def extensionPayload {α : Type} (decode : String → List UInt8 → Except String α)
    (label : String) : Read α := do
  let kind ← string
  let len ← boundedLen (maxArgs * 1024) label
  let payload ← take len
  lift ((decode kind payload).mapError .error)

/-- The literal of `f32::from_bits(self.u32()?)`. -/
def f32Bits : Read UInt32 := do
  let bits ← u32
  chk.require (canonicalF32Bits bits == bits)
  return bits

/-- `if self.u8()? == 0 { None } else { Some(self.expr()?) }`. -/
def expectedOperand (expr : Read Expr) : Read (Option Expr) := do
  let present ← flag chk
  if present then some <$> expr else pure none

/-- The arms of `expr_inner`, given the readers of nested expressions and data
types. -/
def exprArm (expr : Read Expr) (dataType : Read DataType) (tag : UInt8) : Read Expr :=
  match tag with
  | 0 => do
      let value ← u32
      return .litU32 value
  | 1 => do
      let value ← i32
      return .litI32 value
  | 2 => do
      let value ← flag chk
      return .litBool value
  | 15 => do
      let bits ← f32Bits chk
      return .litF32 bits
  | 3 => do
      let name ← string
      return .var name
  | 4 => do
      let buffer ← string
      let index ← expr
      return .load buffer index
  | 5 => do
      let buffer ← string
      return .bufLen buffer
  | 6 => do
      let axis ← u8
      return .invocationId axis
  | 7 => do
      let axis ← u8
      return .workgroupId axis
  | 8 => do
      let axis ← u8
      return .localId axis
  | 9 => do
      let op ← binOp
      let left ← expr
      let right ← expr
      return .binOp op left right
  | 10 => do
      let op ← unOp
      let operand ← expr
      return .unOp op operand
  | 11 => do
      let opId ← string
      let count ← boundedLen maxArgs "call argument count"
      let args ← many expr count
      return .call opId args
  | 12 => do
      let cond ← expr
      let trueVal ← expr
      let falseVal ← expr
      return .select cond trueVal falseVal
  | 13 => do
      let target ← dataType
      let value ← expr
      return .cast target value
  | 14 => do
      let op ← atomicOp
      let ordering ← ordering
      let buffer ← string
      let index ← expr
      let expected ← expectedOperand chk expr
      let value ← expr
      return .atomic op buffer index expected value ordering
  | 16 => do
      let a ← expr
      let b ← expr
      let c ← expr
      return .fma a b c
  | 17 => do
      let value ← expr
      return .subgroupAdd value
  | 18 => do
      let value ← expr
      let lane ← expr
      return .subgroupShuffle value lane
  | 19 => do
      let cond ← expr
      return .subgroupBallot cond
  | 20 => pure .subgroupLocalId
  | 21 => pure .subgroupSize
  | 0x80 => do
      let extension ← extensionPayload host.decodeOpaqueExpr "opaque expression payload"
      return .ext extension
  | tag => err s!"Fix: unknown IR expression tag {tag}; use a Program serializer compatible with this vyre version."

def exprInner (expr : Read Expr) (dataType : Read DataType) : Read Expr := do
  let tag ← u8
  exprArm host chk expr dataType tag

def exprTooDeep : DecodeFailure :=
  .error s!"Fix: IR wire format exceeds maximum decode depth {maxDecodeDepth}; flatten deeply nested Expr trees or reject this untrusted blob."

def expr : Nat → Read Expr
  | 0 => do
      enter exprTooDeep
      fail .stackOverflow
  | stack + 1 => do
      enter exprTooDeep
      let result ← exprInner host chk (expr stack) (dataType chk stack)
      leave
      return result

def nodes (node : Read Node) : Read (List Node) := do
  let count ← boundedLen maxNodes "node count"
  many node count

def sourceRegion : Read (Option String) := do
  let presence ← u8
  match presence with
  | 0 => pure none
  | 1 => some <$> string
  | other => err s!"Fix: Region source_region presence byte must be 0 or 1, got {other}"

/-- The arms of `node_inner`, given the readers of nested expressions and
statements. -/
def nodeArm (expr : Read Expr) (node : Read Node) (tag : UInt8) : Read Node :=
  match tag with
  | 0 => do
      let name ← string
      let value ← expr
      return .letBind name value
  | 1 => do
      let name ← string
      let value ← expr
      return .assign name value
  | 2 => do
      let buffer ← string
      let index ← expr
      let value ← expr
      return .store buffer index value
  | 3 => do
      let cond ← expr
      let thenNodes ← nodes node
      let otherwise ← nodes node
      return .ifThen cond thenNodes otherwise
  | 4 => do
      let var ← string
      let lo ← expr
      let hi ← expr
      let body ← nodes node
      return .loop var lo hi body
  | 5 => pure .ret
  | 6 => do
      let body ← nodes node
      return .block body
  | 7 => do
      let ordering ← ordering
      return .barrier ordering
  | 8 => do
      let countBuffer ← string
      let countOffset ← u64
      return .indirectDispatch countBuffer countOffset
  | 9 => do
      let source ← string
      let destination ← string
      let offset ← expr
      let size ← expr
      let tag ← string
      return .asyncLoad source destination offset size tag
  | 10 => do
      let tag ← string
      return .asyncWait tag
  | 12 => do
      let source ← string
      let destination ← string
      let offset ← expr
      let size ← expr
      let tag ← string
      return .asyncStore source destination offset size tag
  | 13 => do
      let address ← expr
      let tag ← string
      return .trap address tag
  | 14 => do
      let tag ← string
      return .resume tag
  | 15 => do
      let buffer ← string
      let op ← collectiveOp
      let group ← u32
      return .allReduce buffer op group
  | 16 => do
      let input ← string
      let output ← string
      let group ← u32
      return .allGather input output group
  | 17 => do
      let input ← string
      let output ← string
      let op ← collectiveOp
      let group ← u32
      return .reduceScatter input output op group
  | 18 => do
      let buffer ← string
      let root ← u32
      let group ← u32
      return .broadcast buffer root group
  | 11 => do
      let generator ← string
      let source ← sourceRegion
      let body ← nodes node
      return .region generator source body
  | 0x80 => do
      let extension ← extensionPayload host.decodeOpaqueNode "opaque node payload"
      return .ext extension
  | tag => err s!"Fix: unknown IR node tag {tag}; use a Program serializer compatible with this vyre version."

def nodeInner (expr : Read Expr) (node : Read Node) : Read Node := do
  let tag ← u8
  nodeArm host expr node tag

def nodeTooDeep : DecodeFailure :=
  .error s!"Fix: IR wire format exceeds maximum decode depth {maxDecodeDepth}; flatten deeply nested Block/If/Loop structures or reject this untrusted blob."

def node : Nat → Read Node
  | 0 => do
      enter nodeTooDeep
      fail .stackOverflow
  | stack + 1 => do
      enter nodeTooDeep
      let result ← nodeInner host (expr host chk stack) (node stack)
      leave
      return result

end Reader

/-! ## Programs -/

section Sections

open Reader

variable (host : Host) (chk : Checks)

/-- A presence byte that must be 0 or 1, and what follows it. -/
def optionally {α : Type} (field : String) (present : Read α) : Read (Option α) := do
  let tag ← u8
  match tag with
  | 0 => pure none
  | 1 => some <$> present
  | value => err s!"InvalidDiscriminant: field {field} has value {value}. Fix: reserialize with Program::to_wire()."

def strictFlag (field : String) : Read Bool := do
  let tag ← u8
  match tag with
  | 0 => pure false
  | 1 => pure true
  | value => err s!"InvalidDiscriminant: field {field} has value {value}. Fix: reserialize with Program::to_wire()."

def cacheLocality : Read CacheLocality := do
  let tag ← u8
  match tag with
  | 0 => pure .streaming
  | 1 => pure .temporal
  | 2 => pure .random
  | value => err s!"InvalidDiscriminant: field cache_locality has value {value}. Fix: reserialize with Program::to_wire()."

def readHints : Read MemoryHints := do
  let coalesceAxis ← optionally "coalesce_axis tag" u8
  let preferredAlignment ← u32
  let cacheLocality ← cacheLocality
  return { coalesceAxis, preferredAlignment, cacheLocality }

def validateWorkgroupSize (size : UInt32 × UInt32 × UInt32) : Read Unit := do
  ensure (size.1 != 0) "InvalidDiscriminant: workgroup_size[0] is 0. Fix: reject tampered Program bytes or reserialize with positive workgroup dimensions."
  ensure (size.2.1 != 0) "InvalidDiscriminant: workgroup_size[1] is 0. Fix: reject tampered Program bytes or reserialize with positive workgroup dimensions."
  ensure (size.2.2 != 0) "InvalidDiscriminant: workgroup_size[2] is 0. Fix: reject tampered Program bytes or reserialize with positive workgroup dimensions."

/-- The `start..end` of an output range, with `validate_output_range_order`. -/
def outputRange : Read (UInt64 × UInt64) := do
  let start ← lebU64 chk
  let stop ← lebU64 chk
  ensure (start ≤ stop) s!"InvalidDiscriminant: output range start {start} exceeds end {stop}. Fix: reserialize with Program::to_wire()."
  return (UInt64.ofNat start, UInt64.ofNat stop)

/-- One iteration of the buffer loop of `read_metadata`; access, kind and
element wait for the memory-region section. -/
def readBufferMetadata : Read BufferDecl := do
  let name ← string
  let binding ← u32
  let count ← u32
  let isOutput ← flag chk
  let pipelineLiveOut ← flag chk
  ensure (!(count == 0 && isOutput)) s!"InvalidDiscriminant: output buffer `{name}` has count 0. Fix: output buffers need a concrete positive element count before serialization."
  ensure (!(count == 0 && pipelineLiveOut)) s!"InvalidDiscriminant: live-out buffer `{name}` has count 0. Fix: externally-visible buffers need a concrete positive element count before serialization."
  let outputByteRange ← optionally "output range tag" (outputRange chk)
  let hints ← readHints
  return { name, binding, access := .readOnly, kind := .readonly, element := .u32, count,
           isOutput, pipelineLiveOut, outputByteRange, hints }

/-- What `read_metadata` returns. -/
structure Metadata where
  entryOpId : Option String
  workgroupSize : UInt32 × UInt32 × UInt32
  nonComposableWithSelf : Bool
  buffers : List BufferDecl

def readMetadata : Read Metadata := do
  let marker ← take 9
  ensure (marker == metadataMarker) "InvalidDiscriminant: metadata payload marker is invalid. Fix: serialize Program with Program::to_wire()."
  let entryOpId ← optionally "entry_op_id tag" string
  let x ← u32
  let y ← u32
  let z ← u32
  validateWorkgroupSize (x, y, z)
  let nonComposableWithSelf ← strictFlag "non_composable_with_self"
  let count ← lebLen chk maxBuffers "metadata buffer count"
  let buffers ← many (readBufferMetadata chk) count
  return { entryOpId, workgroupSize := (x, y, z), nonComposableWithSelf, buffers }

def readOperand (nodeIndex : Nat) : Read UInt32 := do
  let operand ← lebU32 chk
  ensure (operand.toNat < nodeIndex) s!"TruncatedPayload: operand id {operand} is not a prior node for node {nodeIndex}. Fix: topologically order operands and reject forward/self references."
  return operand

def readNodeRecord (nodeIndex : Nat) : Read (String × List UInt8 × List UInt32) := do
  let opId ← lebString chk
  let len ← lebLen chk (usizeLimit - 1) "node payload length"
  let payload ← take len
  let operandCount ← lebLen chk maxNodes "operand count"
  let operands ← many (readOperand chk nodeIndex) operandCount
  return (opId, payload, operands)

/-- One iteration of the node loop of `read_nodes`. -/
def readEntryNode (stack nodeIndex : Nat) : Read Node := do
  let (opId, payload, operands) ← readNodeRecord chk nodeIndex
  ensure operands.isEmpty s!"InvalidDiscriminant: node {nodeIndex} carries operand ids but legacy payload nodes are self-contained. Fix: reserialize with this Vyre version."
  let node ← within payload (node host chk stack) (.error s!"TruncatedPayload: node {nodeIndex} payload has trailing bytes. Fix: reject this non-canonical Program blob.")
  ensure (nodeOpId node == opId) s!"InvalidDiscriminant: node {nodeIndex} op_id `{opId}` does not match its payload. Fix: reject tampered wire bytes."
  return node

/-- The node loop of `read_nodes`: `left` records from `nodeIndex` on. -/
def readEntryNodes (stack : Nat) : (left nodeIndex : Nat) → Read (List Node)
  | 0, _ => pure []
  | left + 1, nodeIndex => do
      let node ← readEntryNode host chk stack nodeIndex
      let nodes ← readEntryNodes stack left (nodeIndex + 1)
      return node :: nodes

def readNodes (stack : Nat) : Read (Metadata × List Node) := do
  let count ← lebLen chk maxNodes "node count"
  ensure (count != 0) "TruncatedPayload: missing metadata node. Fix: serialize Program with Program::to_wire()."
  let (opId, payload, operands) ← readNodeRecord chk 0
  ensure (opId == metadataOpId) s!"UnknownOp: op_id `{opId}`. Fix: the first VYRE node must be `vyre.program.metadata` metadata from Program::to_wire()."
  ensure operands.isEmpty "InvalidDiscriminant: metadata node has operands. Fix: reserialize with Program::to_wire()."
  let metadata ← within payload (readMetadata chk) (.error "TruncatedPayload: metadata payload has trailing bytes. Fix: reject non-canonical Program bytes.")
  let entry ← readEntryNodes host chk stack (count - 1) 1
  return (metadata, entry)

def memoryKind : Read MemoryKind := do
  let tag ← u8
  match tag with
  | 0 => pure .global
  | 1 => pure .shared
  | 2 => pure .uniform
  | 3 => pure .local
  | 4 => pure .readonly
  | 5 => pure .push
  | 6 => pure .persistent
  | value => err s!"InvalidDiscriminant: field kind has value {value}. Fix: use a defined MemoryKind discriminant."

def bufferAccess : Read BufferAccess := do
  let tag ← u8
  match tag with
  | 0 => pure .readOnly
  | 1 => pure .readWrite
  | 2 => pure .uniform
  | 3 => pure .workgroup
  | 4 => pure .writeOnly
  | tag => err s!"Fix: unknown buffer access tag {tag}; use a compatible IR serializer."

/-- A LEB128 value that must fit `u32`, as `u32::try_from(leb_u64()?)`. -/
def lebParam (field : String) : Read UInt32 := do
  let value ← lebU64 chk
  ensure (value < 2 ^ 32) s!"TruncatedPayload: {field} cannot fit u32. Fix: reject this payload."
  return UInt32.ofNat value

def readDenseQuantizationScale : Read QuantizationScale := do
  let tag ← lebU64 chk
  let param ← lebParam chk "quantization scale parameter"
  match tag with
  | 0 => do
      ensure (param == 0) s!"InvalidDiscriminant: PerTensor quantization scale parameter must be 0, got {param}. Fix: reject non-canonical Program bytes."
      return .perTensor
  | 1 => pure (.perChannel param)
  | 2 => do
      ensure (param != 0) "InvalidDiscriminant: PerGroup quantization scale requires group_size > 0. Fix: reject non-canonical Program bytes."
      return .perGroup param
  | other => err s!"InvalidDiscriminant: unknown quantization scale tag {other}. Fix: use a compatible IR serializer."

def readDenseQuantizationZeroPoint : Read QuantizationZeroPoint := do
  let tag ← lebU64 chk
  let param ← lebParam chk "quantization zero-point parameter"
  match tag with
  | 0 => do
      ensure (param == 0) s!"InvalidDiscriminant: absent quantization zero-point parameter must be 0, got {param}. Fix: reject non-canonical Program bytes."
      return .absent
  | 1 => do
      ensure (param == 0) s!"InvalidDiscriminant: PerTensor quantization zero-point parameter must be 0, got {param}. Fix: reject non-canonical Program bytes."
      return .perTensor
  | 2 => pure (.perChannel param)
  | 3 => do
      ensure (param != 0) "InvalidDiscriminant: PerGroup quantization zero-point requires group_size > 0. Fix: reject non-canonical Program bytes."
      return .perGroup param
  | other => err s!"InvalidDiscriminant: unknown quantization zero-point tag {other}. Fix: use a compatible IR serializer."

/-- `payload::data_type_from_tag`: the scalar element types of a region are
the same as those of `tags::data_type_from_tag`. -/
def regionScalar (tag : UInt8) : Read DataType :=
  lift ((scalarFromTag tag).mapError fun _ =>
    .error s!"InvalidDiscriminant: field element has value {tag}. Fix: use a defined DataType discriminant.")

/-- The element type of a region, whose parameters are in the shape payload. -/
def readElement (tag : UInt8) : Read DataType :=
  match tag with
  | 0x08 => do
      let size ← lebU64 chk
      return .array (UInt64.ofNat size)
  | 0x13 => do
      let id ← lebParam chk "handle DataType id"
      return .handle id
  | 0x80 => do
      let id ← lebParam chk "opaque DataType id"
      ensure (id &&& 0x80000000 != 0) s!"InvalidDiscriminant: DataType opaque id {id} collides with core IR. Fix: dialect extensions must use ids in 0x8000_0000..=0xffff_ffff."
      return .ext id
  | 0x1F => do
      let storageTag ← lebU64 chk
      ensure (storageTag < 256) "TruncatedPayload: quantized storage DataType tag cannot fit u8. Fix: reject this payload."
      let storage ← regionScalar (UInt8.ofNat storageTag)
      ensure storage.isQuantizedStorage s!"InvalidDiscriminant: quantized storage tag {storageTag} is not a valid quantized storage type. Fix: reserialize with I4/I8/I16/U8/U16/F8/FP4/NF4 storage."
      let scale ← readDenseQuantizationScale chk
      let zeroPoint ← readDenseQuantizationZeroPoint chk
      return .quantized storage scale zeroPoint
  | tag => regionScalar tag

def readShape (elementTag : UInt8) : Read (UInt32 × DataType) := do
  let count ← lebParam chk "dense shape count"
  let element ← readElement chk elementTag
  return (count, element)

def validateOutputRangeFits (b : BufferDecl) (element : DataType) (count : UInt32) : Read Unit :=
  match b.outputByteRange with
  | none => pure ()
  | some range =>
      match element.sizeBytes with
      | none => err s!"InvalidDiscriminant: output range on buffer `{b.name}` uses variable-width element type. Fix: serialize only byte ranges over fixed-width buffers."
      | some size =>
          match checkedMul count.toNat size with
          | none => err s!"InvalidDiscriminant: output range full byte size overflows for buffer `{b.name}`. Fix: split the buffer or reject tampered Program bytes."
          | some fullSize =>
              ensure (range.2.toNat ≤ fullSize) s!"InvalidDiscriminant: output range end exceeds buffer `{b.name}` byte size {fullSize}. Fix: reserialize with Program::to_wire()."

/-- One iteration of `read_memory_regions`: `b` is the buffer as the metadata
section described it. -/
def readMemoryRegion (index : Nat) (b : BufferDecl) : Read BufferDecl := do
  let id ← lebU32 chk
  ensure (id.toNat == index) s!"InvalidDiscriminant: memory-region id {id} is out of canonical order at index {index}. Fix: reserialize with Program::to_wire()."
  let kind ← memoryKind
  let access ← bufferAccess
  let elementTag ← u8
  let shapeTag ← u8
  ensure (shapeTag == 0) s!"InvalidDiscriminant: field shape_tag has value {shapeTag}. Fix: this decoder supports Dense regions only in schema {wireFormatVersion}."
  let shapeLen ← lebLen chk 64 "shape payload length"
  let shapePayload ← take shapeLen
  let (count, element) ← within shapePayload (readShape chk elementTag) (.error "TruncatedPayload: shape payload has trailing bytes. Fix: reject non-canonical Program bytes.")
  let hintsLen ← lebLen chk 64 "hints payload length"
  let hintsPayload ← take hintsLen
  let hints ← within hintsPayload readHints (.error "TruncatedPayload: hints payload has trailing bytes. Fix: reject non-canonical Program bytes.")
  ensure (b.count == count) s!"InvalidDiscriminant: memory-region count {count} does not match metadata count {b.count} for buffer `{b.name}`. Fix: reserialize with Program::to_wire()."
  ensure (!(count == 0 && access == .workgroup)) s!"InvalidDiscriminant: workgroup buffer `{b.name}` has count 0. Fix: workgroup memory requires a concrete positive element count."
  ensure (!(count == 0 && b.isOutput)) s!"InvalidDiscriminant: output buffer `{b.name}` has count 0. Fix: output buffers need a concrete positive element count before serialization."
  ensure (!(count == 0 && b.pipelineLiveOut)) s!"InvalidDiscriminant: live-out buffer `{b.name}` has count 0. Fix: externally-visible buffers need a concrete positive element count before serialization."
  validateOutputRangeFits b element count
  chk.require (b.hints == hints)
  return { b with kind, access, element, count, hints }

/-- The loop of `read_memory_regions` from position `index` on. -/
def readMemoryRegionsFrom (index : Nat) : List BufferDecl → Read (List BufferDecl)
  | [] => pure []
  | b :: bs => do
      let region ← readMemoryRegion chk index b
      let regions ← readMemoryRegionsFrom (index + 1) bs
      return region :: regions

def readMemoryRegions (buffers : List BufferDecl) : Read (List BufferDecl) := do
  let count ← lebLen chk maxBuffers "memory-region count"
  ensure (count == buffers.length) s!"InvalidDiscriminant: memory-region count {count} does not match metadata buffer count. Fix: reject tampered Program bytes."
  readMemoryRegionsFrom chk 0 buffers

def canonicalOutputIndices (buffers : List BufferDecl) : List Nat :=
  (List.range buffers.length).filter fun i =>
    match buffers[i]? with
    | some b => isOutputAccess b.access
    | none => false

/-- The index loop of `OutputSet::decode_from`, after `previous`. -/
def readOutputIndices (buffers : List BufferDecl) : Nat → Option UInt32 → Read (List UInt32)
  | 0, _ => pure []
  | left + 1, previous => do
      let index ← lebU32 chk
      match buffers[index.toNat]? with
      | none => err s!"InvalidDiscriminant: output-set index {index} is out of bounds. Fix: reject tampered Program bytes."
      | some b => do
          ensure (isOutputAccess b.access) s!"InvalidDiscriminant: output-set index {index} names non-writable buffer `{b.name}`. Fix: reserialize with Program::to_wire()."
          ensure (previous.all (· < index)) s!"InvalidDiscriminant: output-set index {index} is not in strict declaration order. Fix: reserialize with Program::to_wire()."
          let tail ← readOutputIndices buffers left (some index)
          return index :: tail

/-- `OutputSet::decode_from`. -/
def readOutputSet (buffers : List BufferDecl) : Read (List UInt32) := do
  let count ← lebLen chk maxBuffers "output set count"
  let indices ← readOutputIndices chk buffers count none
  ensure (indices.map (·.toNat) == canonicalOutputIndices buffers) "InvalidDiscriminant: output-set does not match writable buffer indices. Fix: reject tampered Program bytes."
  return indices

/-- The body of `from_wire`, after the header. -/
def readBody (stack : Nat) : Read Program := do
  let (metadata, entry) ← readNodes host chk stack
  let buffers ← readMemoryRegions chk metadata.buffers
  let _ ← readOutputSet chk buffers
  return { entryOpId := metadata.entryOpId, buffers, workgroupSize := metadata.workgroupSize,
           entry, nonComposableWithSelf := metadata.nonComposableWithSelf }

end Sections

/-- `from_wire` with the given checks and call-stack frames. -/
def fromWireWith (host : Host) (chk : Checks) (stack : Nat) (bytes : List UInt8) :
    Except DecodeFailure Program :=
  if maxProgramBytes < bytes.length then
    .error (.error s!"Fix: wire blob is {bytes.length} bytes, exceeding the {maxProgramBytes}-byte IR framing cap. Reject this input or split the Program before serialization.")
  else if bytes.take 4 ≠ magic then
    .error (.error "invalid IR wire-format header. Fix: serialize Program with Program::to_wire().")
  else if bytes.length < 6 then
    .error (.error "IR wire-format truncated before schema version. Fix: serialize Program with Program::to_wire().")
  else if ofLeBytes ((bytes.drop 4).take 2) ≠ wireFormatVersion then
    .error (.versionMismatch wireFormatVersion (ofLeBytes ((bytes.drop 4).take 2)))
  else if bytes.length < 40 then
    .error (.error "TruncatedPayload: header requires 40 bytes. Fix: provide the complete Program bytes.")
  else
    let flags := ofLeBytes ((bytes.drop 6).take 2)
    -- of the sixteen flag bits only OPAQUE_ENDIAN_FIXED may be set, and it must be
    if flags &&& 0xFFF8 ≠ 0 ∨ flags &&& 3 ≠ 0 then
      .error (.error s!"InvalidDiscriminant: field flags has value {flags}. Fix: decode only uncompressed, unsigned schema-v1 Program bytes or enable the matching feature.")
    else if flags &&& flagOpaqueEndianFixed = 0 then
      .error (.error "InvalidDiscriminant: wire header is missing OPAQUE_ENDIAN_FIXED. Fix: reserialize with a producer that writes opaque payload numerics using little-endian bytes.")
    else
      let body := bytes.drop 40
      if host.blake3 body ≠ (bytes.drop 8).take 32 then
        .error (.error "IntegrityMismatch. Fix: reject the truncated or tampered Program bytes and re-fetch the payload.")
      else
        ((within body (readBody host chk stack) (.error "TruncatedPayload: trailing bytes after OutputSet. Fix: provide exactly one canonical VYRE Program blob.")).run ⟨[], 0⟩).map Prod.fst

def fromWire (host : Host) (bytes : List UInt8) : Except DecodeFailure Program :=
  fromWireWith host .source bytes.length bytes

end Vyre.Wire
