import Mathlib.Algebra.BigOperators.Ring.List
import Vyre.Lib.Worklist
import Vyre.Wire.Framing

/-!
# Wire encoder

`serial/wire/encode` and the tag tables of `serial/wire/tags`, arm by arm.
`put_expr` is the explicit-stack loop of the source: each step writes the header
bytes of one expression and pushes its operands.
-/

namespace Vyre.Wire

open ByteCodec Worklist

def atomicOpTags : List (UInt8 × AtomicOp) :=
  [(0x01, .add), (0x02, .or), (0x03, .and), (0x04, .xor), (0x05, .min), (0x06, .max),
   (0x07, .exchange), (0x08, .compareExchange), (0x09, .compareExchangeWeak),
   (0x0A, .fetchNand), (0x0B, .lruUpdate)]

def binOpTags : List (UInt8 × BinOp) :=
  [(0x01, .add), (0x02, .sub), (0x03, .mul), (0x04, .div), (0x05, .mod), (0x06, .bitAnd),
   (0x07, .bitOr), (0x08, .bitXor), (0x09, .shl), (0x0A, .shr), (0x0B, .eq), (0x0C, .ne),
   (0x0D, .lt), (0x0E, .gt), (0x0F, .le), (0x10, .ge), (0x11, .and), (0x12, .or),
   (0x13, .absDiff), (0x14, .min), (0x15, .max), (0x16, .saturatingAdd),
   (0x17, .saturatingSub), (0x18, .saturatingMul), (0x19, .shuffle), (0x1A, .ballot),
   (0x1B, .waveReduce), (0x1C, .waveBroadcast), (0x1D, .rotateLeft), (0x1E, .rotateRight),
   (0x1F, .wrappingAdd), (0x20, .wrappingSub), (0x21, .mulHigh)]

def unOpTags : List (UInt8 × UnOp) :=
  [(0x01, .negate), (0x02, .bitNot), (0x03, .logicalNot), (0x04, .popcount), (0x05, .clz),
   (0x06, .ctz), (0x07, .reverseBits), (0x08, .cos), (0x09, .sin), (0x0A, .abs),
   (0x0B, .sqrt), (0x0C, .floor), (0x0D, .ceil), (0x0E, .round), (0x0F, .trunc),
   (0x10, .sign), (0x11, .isNan), (0x12, .isInf), (0x13, .isFinite), (0x14, .exp),
   (0x15, .log), (0x16, .log2), (0x17, .exp2), (0x18, .tan), (0x19, .acos), (0x1A, .asin),
   (0x1B, .atan), (0x1C, .tanh), (0x1D, .sinh), (0x1E, .cosh), (0x1F, .inverseSqrt),
   (0x20, .unpack4Low), (0x21, .unpack4High), (0x22, .unpack8Low), (0x23, .unpack8High),
   (0x24, .reciprocal)]

/-- `find_tag` and `encode_tag`. -/
def encodeTag {α : Type} [DecidableEq α] (value : α) (table : List (UInt8 × α))
    (unknownVariant : String) : Except EncodeFailure UInt8 :=
  match table.find? (·.2 = value) with
  | some (tag, _) => .ok tag
  | none => .error (staticMsg unknownVariant)

/-- The operator byte of `Expr::BinOp`, with the id of an extension operator. -/
def putBinOp : BinOp → Put
  | .ext id => .ok (0x80 :: putU32 id)
  | op => do
      let tag ← encodeTag op binOpTags "unknown BinOp variant"
      return [tag]

def putUnOp : UnOp → Put
  | .ext id => .ok (0x80 :: putU32 id)
  | op => do
      let tag ← encodeTag op unOpTags "unknown UnOp variant"
      return [tag]

def putAtomicOp : AtomicOp → Put
  | .ext id => .ok (0x80 :: putU32 id)
  | op => do
      let tag ← encodeTag op atomicOpTags "unknown AtomicOp variant"
      return [tag]

/-- `MemoryOrdering::wire_tag`. -/
def orderingTag : MemoryOrdering → UInt8
  | .relaxed => 0
  | .acquire => 1
  | .release => 2
  | .acqRel => 3
  | .seqCst => 4
  | .gridSync => 5

/-- `CollectiveOp::builtin_wire_tag`. -/
def collectiveOpTag : CollectiveOp → UInt8
  | .sum => 0x01
  | .min => 0x02
  | .max => 0x03
  | .bitAnd => 0x04
  | .bitOr => 0x05
  | .bitXor => 0x06

/-- `tags::data_type_tag`: the tag a data type starts with. -/
def dataTypeTag : DataType → UInt8
  | .u32 => 0x01
  | .i32 => 0x02
  | .u64 => 0x03
  | .vec2U32 => 0x04
  | .vec4U32 => 0x05
  | .bool => 0x06
  | .bytes => 0x07
  | .array _ => 0x08
  | .f16 => 0x09
  | .bf16 => 0x0A
  | .f32 => 0x0B
  | .f64 => 0x0C
  | .tensor => 0x0D
  | .u8 => 0x0E
  | .u16 => 0x0F
  | .i8 => 0x10
  | .i16 => 0x11
  | .i64 => 0x12
  | .handle _ => 0x13
  | .vec _ _ => 0x14
  | .tensorShaped _ _ => 0x15
  | .sparseCsr _ => 0x16
  | .sparseCoo _ => 0x17
  | .sparseBsr _ _ _ => 0x18
  | .f8e4m3 => 0x19
  | .f8e5m2 => 0x1A
  | .i4 => 0x1B
  | .fp4 => 0x1C
  | .nf4 => 0x1D
  | .deviceMesh _ => 0x1E
  | .quantized _ _ _ => 0x1F
  | .ext _ => 0x80

/-- A `u32::try_from(len)` whose failure names the field. -/
def putRank (value : Nat) (before after : String) : Put :=
  if value < 2 ^ 32 then .ok (leBytes 4 value) else .error (fmtUsize before value after)

def putQuantizationScale : QuantizationScale → Put
  | .perTensor => .ok (0 :: putU32 0)
  | .perChannel axis => .ok (1 :: putU32 axis)
  | .perGroup groupSize =>
      if groupSize ≠ 0 then .ok (2 :: putU32 groupSize)
      else .error (staticMsg "Fix: quantized PerGroup scale requires group_size > 0.")

def putQuantizationZeroPoint : QuantizationZeroPoint → Put
  | .absent => .ok (0 :: putU32 0)
  | .perTensor => .ok (1 :: putU32 0)
  | .perChannel axis => .ok (2 :: putU32 axis)
  | .perGroup groupSize =>
      if groupSize ≠ 0 then .ok (3 :: putU32 groupSize)
      else .error (staticMsg "Fix: quantized PerGroup zero-point requires group_size > 0.")

def putDataType : DataType → Put
  | .array elementSize => do
      let size ← putRank elementSize.toNat "Fix: array element_size "
        " cannot fit the VIR0 u32 payload; cap the element size or extend the wire format."
      return 0x08 :: size
  | .ext id => .ok (0x80 :: putU32 id)
  | .handle id => .ok (0x13 :: putU32 id)
  | .vec element count => do
      let element ← putDataType element
      return 0x14 :: (element ++ [count])
  | .tensorShaped element shape => do
      let element ← putDataType element
      let len ← putRank shape.length "Fix: tensor shape rank "
        " cannot fit the VIR0 u32 payload; cap rank before serialization."
      return 0x15 :: (element ++ len ++ shape.flatMap putU32)
  | .sparseCsr element => do
      let element ← putDataType element
      return 0x16 :: element
  | .sparseCoo element => do
      let element ← putDataType element
      return 0x17 :: element
  | .sparseBsr element blockRows blockCols => do
      let element ← putDataType element
      return 0x18 :: (element ++ putU32 blockRows ++ putU32 blockCols)
  | .deviceMesh axes => do
      let len ← putRank axes.length "Fix: device-mesh axes count "
        " cannot fit the VIR0 u32 payload; cap mesh rank before serialization."
      return 0x1E :: (len ++ axes.flatMap putU32)
  | .quantized storage scale zeroPoint =>
      if storage.isQuantizedStorage then do
        let storage ← putDataType storage
        let scale ← putQuantizationScale scale
        let zeroPoint ← putQuantizationZeroPoint zeroPoint
        return 0x1F :: (storage ++ scale ++ zeroPoint)
      else .error (staticMsg "Fix: DataType::Quantized storage must be I4/I8/I16/U8/U16/F8E4M3/F8E5M2/FP4/NF4.")
  | scalar => .ok [dataTypeTag scalar]

/-! ## Expressions -/

/-- `canonical_f32_bits`, on the bit pattern: one NaN, no subnormals, no `-0.0`. -/
def canonicalF32Bits (bits : UInt32) : UInt32 :=
  let exponent := (bits >>> 23) &&& 0xFF
  let mantissa := bits &&& 0x7FFFFF
  if exponent = 0xFF ∧ mantissa ≠ 0 then 0x7FC00000
  else if exponent = 0 ∧ mantissa ≠ 0 then 0
  else if bits = 0x80000000 then 0
  else bits

/-- `Option<Expr>` in an atomic: the presence byte is written between `index`
and the operand. -/
inductive EncodeStep where
  | encode (e : Expr)
  | writeByte (b : UInt8)

def putPayload (payload : List UInt8) (before after label : String) : Put :=
  if payload.length ≤ maxOpaquePayloadLen then do
    let len ← putLenU32 payload.length label
    return len ++ payload
  else .error (fmtUsize before payload.length after)

/-- One iteration of `put_expr`: the pushed steps, in the order they pop, and
the bytes written. -/
def putExprStep : EncodeStep → Except EncodeFailure (List EncodeStep × List UInt8)
  | .writeByte b => .ok ([], [b])
  | .encode (.litU32 value) => .ok ([], 0 :: putU32 value)
  | .encode (.litI32 value) => .ok ([], 1 :: putU32 value.toUInt32)
  | .encode (.litBool value) => .ok ([], [2, flagByte value])
  | .encode (.litF32 bits) => .ok ([], 15 :: putU32 (canonicalF32Bits bits))
  | .encode (.var name) => do
      let name ← putString name
      return ([], 3 :: name)
  | .encode (.load buffer index) => do
      let buffer ← putString buffer
      return ([.encode index], 4 :: buffer)
  | .encode (.bufLen buffer) => do
      let buffer ← putString buffer
      return ([], 5 :: buffer)
  | .encode (.invocationId axis) => .ok ([], [6, axis])
  | .encode (.workgroupId axis) => .ok ([], [7, axis])
  | .encode (.localId axis) => .ok ([], [8, axis])
  | .encode (.binOp op left right) => do
      let op ← putBinOp op
      return ([.encode left, .encode right], 9 :: op)
  | .encode (.unOp op operand) => do
      let op ← putUnOp op
      return ([.encode operand], 10 :: op)
  | .encode (.call opId args) => do
      let opId ← putString opId
      let len ← putLenU32 args.length "call argument count"
      return (args.map .encode, 11 :: (opId ++ len))
  | .encode (.select cond trueVal falseVal) =>
      .ok ([.encode cond, .encode trueVal, .encode falseVal], [12])
  | .encode (.cast target value) => do
      let target ← putDataType target
      return ([.encode value], 13 :: target)
  | .encode (.fma a b c) => .ok ([.encode a, .encode b, .encode c], [16])
  | .encode (.atomic op buffer index expected value ordering) => do
      let op ← putAtomicOp op
      let buffer ← putString buffer
      let expectedSteps := match expected with
        | some e => [.writeByte 1, .encode e]
        | none => [.writeByte 0]
      return (.encode index :: (expectedSteps ++ [.encode value]),
        14 :: (op ++ orderingTag ordering :: buffer))
  | .encode (.subgroupAdd value) => .ok ([.encode value], [17])
  | .encode (.subgroupShuffle value lane) => .ok ([.encode value, .encode lane], [18])
  | .encode (.subgroupBallot cond) => .ok ([.encode cond], [19])
  | .encode .subgroupLocalId => .ok ([], [20])
  | .encode .subgroupSize => .ok ([], [21])
  | .encode (.ext extension) => do
      let kind ← putString extension.extensionKind
      let payload ← putPayload extension.wirePayload "opaque expression payload"
        s!" exceeds {maxOpaquePayloadLen}. Fix: split the payload across multiple opaque expressions or reduce the extension data size."
        "opaque expression payload length"
      return ([], 0x80 :: (kind ++ payload))

def EncodeStep.weight : EncodeStep → Nat
  | .encode e => 2 * e.size
  | .writeByte _ => 1

open EncodeStep

theorem putExprStep_decreases {s : EncodeStep} {items : List EncodeStep} {bytes : List UInt8}
    (h : putExprStep s = .ok (items, bytes)) :
    (items.map weight).sum < s.weight := by
  cases s with
  | writeByte b =>
    cases h
    simp [weight]
  | encode e =>
    cases e with
    | call opId args =>
      simp only [putExprStep, bind_eq_ok] at h
      obtain ⟨-, -, -, -, rfl, -⟩ := h
      have hsum : ((args.map encode).map weight).sum =
          2 * (args.map Expr.size).sum := by
        rw [List.map_map, ← List.sum_map_mul_left]
        rfl
      simp only [weight, Expr.size, Expr.sizeList_eq]
      omega
    | atomic _ _ _ expected _ _ =>
      simp only [putExprStep, bind_eq_ok] at h
      obtain ⟨-, -, -, -, rfl, -⟩ := h
      cases expected <;>
        simp [weight, Expr.size, Expr.sizeOption] <;> omega
    | _ =>
      simp only [putExprStep, bind_eq_ok] at h
      first
        | (obtain ⟨rfl, -⟩ := h; simp; omega)
        | (obtain ⟨-, -, rfl, -⟩ := h; simp [weight, Expr.size] <;> omega)
        | (obtain ⟨-, -, -, -, rfl, -⟩ := h; simp [weight, Expr.size])

/-- The loop of `put_expr` over its output buffer. -/
def putExprLoop : Loop EncodeStep (List UInt8) EncodeFailure where
  step s out := (putExprStep s).map fun r => (r.1, out ++ r.2)
  weight := weight
  decreases := by
    intro s out items out' h
    cases hs : putExprStep s with
    | error e => simp [hs, Except.map] at h
    | ok r =>
      simp only [hs, Except.map, Except.ok.injEq, Prod.mk.injEq] at h
      obtain ⟨rfl, -⟩ := h
      exact putExprStep_decreases hs

/-- `put_expr`, started on an empty buffer. -/
def putExpr (e : Expr) : Put := putExprLoop.run [.encode e] []

/-- The optional `source_region` of a region, behind a presence byte. -/
def putSourceRegion : Option String → Put
  | some name => do
      let name ← putString name
      return 1 :: name
  | none => .ok [0]

mutual

def putNode : Node → Put
  | .letBind name value => do
      let name ← putString name
      let value ← putExpr value
      return 0 :: (name ++ value)
  | .assign name value => do
      let name ← putString name
      let value ← putExpr value
      return 1 :: (name ++ value)
  | .store buffer index value => do
      let buffer ← putString buffer
      let index ← putExpr index
      let value ← putExpr value
      return 2 :: (buffer ++ index ++ value)
  | .ifThen cond thenNodes otherwise => do
      let cond ← putExpr cond
      let thenLen ← putLenU32 thenNodes.length "node count"
      let thenNodes ← putNodeList thenNodes
      let otherwiseLen ← putLenU32 otherwise.length "node count"
      let otherwise ← putNodeList otherwise
      return 3 :: (cond ++ (thenLen ++ thenNodes) ++ (otherwiseLen ++ otherwise))
  | .loop var lo hi body => do
      let var ← putString var
      let lo ← putExpr lo
      let hi ← putExpr hi
      let len ← putLenU32 body.length "node count"
      let body ← putNodeList body
      return 4 :: (var ++ lo ++ hi ++ (len ++ body))
  | .ret => .ok [5]
  | .block nodes => do
      let len ← putLenU32 nodes.length "node count"
      let nodes ← putNodeList nodes
      return 6 :: (len ++ nodes)
  | .barrier ordering => .ok [7, orderingTag ordering]
  | .indirectDispatch countBuffer countOffset => do
      let countBuffer ← putString countBuffer
      return 8 :: (countBuffer ++ putU64 countOffset)
  | .asyncLoad source destination offset size tag => do
      let source ← putString source
      let destination ← putString destination
      let offset ← putExpr offset
      let size ← putExpr size
      let tag ← putString tag
      return 9 :: (source ++ destination ++ offset ++ size ++ tag)
  | .asyncStore source destination offset size tag => do
      let source ← putString source
      let destination ← putString destination
      let offset ← putExpr offset
      let size ← putExpr size
      let tag ← putString tag
      return 12 :: (source ++ destination ++ offset ++ size ++ tag)
  | .trap address tag => do
      let address ← putExpr address
      let tag ← putString tag
      return 13 :: (address ++ tag)
  | .resume tag => do
      let tag ← putString tag
      return 14 :: tag
  | .allReduce buffer op group => do
      let buffer ← putString buffer
      return 15 :: (buffer ++ collectiveOpTag op :: putU32 group)
  | .allGather input output group => do
      let input ← putString input
      let output ← putString output
      return 16 :: (input ++ output ++ putU32 group)
  | .reduceScatter input output op group => do
      let input ← putString input
      let output ← putString output
      return 17 :: (input ++ output ++ collectiveOpTag op :: putU32 group)
  | .broadcast buffer root group => do
      let buffer ← putString buffer
      return 18 :: (buffer ++ putU32 root ++ putU32 group)
  | .asyncWait tag => do
      let tag ← putString tag
      return 10 :: tag
  | .region generator sourceRegion body => do
      let generator ← putString generator
      let source ← putSourceRegion sourceRegion
      let len ← putLenU32 body.length "node count"
      let body ← putNodeList body
      return 11 :: (generator ++ source ++ (len ++ body))
  | .ext extension => do
      let kind ← putString extension.extensionKind
      let payload ← putPayload extension.wirePayload "opaque node payload"
        s!" exceeds {maxOpaquePayloadLen}. Fix: split the payload across multiple opaque nodes or reduce the extension data size."
        "opaque node payload length"
      return 0x80 :: (kind ++ payload)

/-- The body of the loop of `put_nodes`, after its length prefix. -/
def putNodeList : List Node → Put
  | [] => .ok []
  | n :: ns => do
      let head ← putNode n
      let tail ← putNodeList ns
      return head ++ tail

end

/-! ## Programs -/

def metadataOpId : String := "vyre.program.metadata"

/-- The bytes of `MAGIC`. -/
def magic : List UInt8 := [86, 89, 82, 69]

def wireFormatVersion : Nat := 4
def flagOpaqueEndianFixed : Nat := 4

/-- The marker `VYRE-META`. -/
def metadataMarker : List UInt8 := utf8 "VYRE-META"

/-- `OutputSet`: the accesses whose buffers it lists. -/
def isOutputAccess : BufferAccess → Bool
  | .readWrite | .writeOnly => true
  | _ => false

/-- `reject_non_roundtrippable_shapes` for one workgroup dimension. -/
def rejectZeroAxis (axis : Nat) (size : UInt32) : Except EncodeFailure Unit :=
  if size ≠ 0 then .ok ()
  else .error (fmtUsize "Fix: workgroup_size[" axis
    "] is 0. Encode only programs whose workgroup dimensions are >= 1.")

theorem rejectZeroAxis_eq_ok {axis : Nat} {size : UInt32} {u : Unit} :
    rejectZeroAxis axis size = .ok u ↔ size ≠ 0 := by
  rw [rejectZeroAxis]
  simp

/-- The full byte size the output range is checked against; a count of 0 skips
the check (`u64::MAX`). -/
def outputFullSize (b : BufferDecl) : Except EncodeFailure Nat :=
  if b.count = 0 then .ok (2 ^ 64 - 1)
  else match b.element.sizeBytes with
    | none => .error (dynamicMsg ["Fix: static output buffer `", b.name,
        "` uses a runtime-sized element type. Lower it to a fixed-width GPU storage type before wire encoding."])
    | some size =>
      if b.count.toNat * size < 2 ^ 64 then .ok (b.count.toNat * size)
      else .error (dynamicMsg ["Fix: output buffer `", b.name,
        "` byte size overflows u64 during wire encoding. Split the buffer before serialization."])

def rejectOutputRange (b : BufferDecl) (range : UInt64 × UInt64) :
    Except EncodeFailure Unit := do
  let fullSize ← outputFullSize b
  if range.2 < range.1 then
    .error (dynamicMsg ["Fix: buffer `", b.name, "` output byte range has start (",
      toString range.1, ") > end (", toString range.2, "). Encode only valid ranges."])
  else if fullSize < range.2.toNat ∧ fullSize ≠ 2 ^ 64 - 1 then
    .error (dynamicMsg ["Fix: buffer `", b.name, "` output byte range end (", toString range.2,
      ") exceeds full buffer size (", toString fullSize,
      "). Encode only ranges that fit within the declared buffer size."])
  else .ok ()

/-- `reject_non_roundtrippable_shapes` for one buffer. -/
def rejectBufferShape (b : BufferDecl) : Except EncodeFailure Unit :=
  if b.count = 0 ∧ b.access = .workgroup then
    .error (dynamicMsg ["Fix: workgroup buffer `", b.name,
      "` has count 0. Encode only positive-length shared-memory buffers."])
  else if b.count = 0 ∧ b.pipelineLiveOut then
    .error (dynamicMsg ["Fix: live-out buffer `", b.name,
      "` has count 0. Encode only positive-length externally-visible buffers."])
  else match b.outputByteRange with
    | some range => rejectOutputRange b range
    | none => .ok ()

variable (p : Program)

def rejectNonRoundtrippableShapes (buffers : List BufferDecl) :
    Except EncodeFailure Unit := do
  rejectZeroAxis 0 p.workgroupSize.1
  rejectZeroAxis 1 p.workgroupSize.2.1
  rejectZeroAxis 2 p.workgroupSize.2.2
  buffers.forM rejectBufferShape

/-- Appends what `f` writes for every member in turn. -/
def putAll {α : Type} (f : α → Put) : List α → Put
  | [] => .ok []
  | x :: xs => do
      let head ← f x
      let tail ← putAll f xs
      return head ++ tail

def putLebStr (value : String) : Put := do
  let len ← putLebLen (utf8 value).length
    "Fix: string length cannot fit u64; shorten the identifier."
  return len ++ utf8 value

/-- `put_node_record`; the encoder never writes operands. -/
def putNodeRecord (opId : String) (payload : List UInt8) : Put := do
  let opId ← putLebStr opId
  let len ← putLebLen payload.length
    "Fix: node payload length cannot fit u64; split the Program."
  return opId ++ len ++ payload ++ lebBytes 10 0

def localityTag : CacheLocality → UInt8
  | .streaming => 0
  | .temporal => 1
  | .random => 2

def putHintsPayload (hints : MemoryHints) : List UInt8 :=
  (match hints.coalesceAxis with
    | some axis => [1, axis]
    | none => [0]) ++ putU32 hints.preferredAlignment ++ [localityTag hints.cacheLocality]

def putBufferMetadata (b : BufferDecl) : Put := do
  let name ← putString b.name
  let range := match b.outputByteRange with
    | some (start, stop) => 1 :: (putLebU64 start ++ putLebU64 stop)
    | none => [0]
  return name ++ putU32 b.binding ++ putU32 b.count ++
    [flagByte b.isOutput, flagByte b.pipelineLiveOut] ++ range ++ putHintsPayload b.hints

def putEntryOpId : Option String → Put
  | some opId => do
      let opId ← putString opId
      return 1 :: opId
  | none => .ok [0]

def putMetadataPayload (buffers : List BufferDecl) : Put := do
  let entryOpId ← putEntryOpId p.entryOpId
  let count ← putLebLen buffers.length
    "Fix: buffer metadata count cannot fit u64; split the Program."
  let table ← putAll putBufferMetadata buffers
  return metadataMarker ++ entryOpId ++ putU32 p.workgroupSize.1 ++
    putU32 p.workgroupSize.2.1 ++ putU32 p.workgroupSize.2.2 ++
    [flagByte p.nonComposableWithSelf] ++ count ++ table

def putEntryNode (node : Node) : Put := do
  let payload ← putNode node
  putNodeRecord (nodeOpId node) payload

def putNodesSection (buffers : List BufferDecl) : Put := do
  let count ← putLebLen (p.entry.length + 1)
    "Fix: node count cannot fit u64; split the Program before serialization."
  let payload ← putMetadataPayload p buffers
  let metadata ← putNodeRecord metadataOpId payload
  let nodes ← putAll putEntryNode p.entry
  return count ++ metadata ++ nodes

def memoryKindTag : MemoryKind → UInt8
  | .global => 0
  | .shared => 1
  | .uniform => 2
  | .local => 3
  | .readonly => 4
  | .push => 5
  | .persistent => 6

def accessTag : BufferAccess → UInt8
  | .readOnly => 0
  | .readWrite => 1
  | .uniform => 2
  | .workgroup => 3
  | .writeOnly => 4

/-- `to_wire::data_type_tag`: the element types of a memory region. The table
lists the vector types that its own diagnostic calls invalid. -/
def regionTypeTag : DataType → Except EncodeFailure UInt8
  | .sparseCsr _ | .sparseCoo _ | .sparseBsr _ _ _ | .deviceMesh _ =>
      .error (staticMsg "Fix: unknown DataType variant cannot be serialized into VYRE wire format. Sparse/Vec/TensorShaped/DeviceMesh types are not valid buffer elements in the dense memory-region encoder; lower to a supported scalar/array/handle/opaque first.")
  | element => .ok (dataTypeTag element)

def putDenseQuantizationScale : QuantizationScale → Put
  | .perTensor => .ok (lebBytes 10 0 ++ lebBytes 10 0)
  | .perChannel axis => .ok (lebBytes 10 1 ++ putLebU32 axis)
  | .perGroup groupSize =>
      if groupSize ≠ 0 then .ok (lebBytes 10 2 ++ putLebU32 groupSize)
      else .error (staticMsg "Fix: quantized PerGroup scale requires group_size > 0.")

def putDenseQuantizationZeroPoint : QuantizationZeroPoint → Put
  | .absent => .ok (lebBytes 10 0 ++ lebBytes 10 0)
  | .perTensor => .ok (lebBytes 10 1 ++ lebBytes 10 0)
  | .perChannel axis => .ok (lebBytes 10 2 ++ putLebU32 axis)
  | .perGroup groupSize =>
      if groupSize ≠ 0 then .ok (lebBytes 10 3 ++ putLebU32 groupSize)
      else .error (staticMsg "Fix: quantized PerGroup zero-point requires group_size > 0.")

/-- The part of the shape payload that follows the element count. -/
def putElementShape : DataType → Put
  | .array elementSize => .ok (putLebU64 elementSize)
  | .handle id => .ok (putLebU32 id)
  | .ext id => .ok (putLebU32 id)
  | .quantized storage scale zeroPoint =>
      if storage.isQuantizedStorage then do
        let tag ← regionTypeTag storage
        let scale ← putDenseQuantizationScale scale
        let zeroPoint ← putDenseQuantizationZeroPoint zeroPoint
        return lebBytes 10 tag.toNat ++ scale ++ zeroPoint
      else .error (staticMsg "Fix: quantized memory-region storage must be I4/I8/I16/U8/U16/F8E4M3/F8E5M2/FP4/NF4.")
  | _ => .ok []

/-- One iteration of `put_memory_regions_with_scratch`. -/
def putMemoryRegion (index : Nat) (b : BufferDecl) : Put :=
  if index < 2 ^ 32 then do
    let tag ← regionTypeTag b.element
    let element ← putElementShape b.element
    let shape := putLebU32 b.count ++ element
    let shapeLen ← putLebLen shape.length
      "Fix: shape payload length cannot fit u64; split the Program."
    let hints := putHintsPayload b.hints
    let hintsLen ← putLebLen hints.length
      "Fix: hints payload length cannot fit u64; split the Program."
    return lebBytes 10 index ++ [memoryKindTag b.kind, accessTag b.access, tag, 0] ++
      shapeLen ++ shape ++ hintsLen ++ hints
  else .error (fmtUsize "Fix: memory-region id " index " cannot fit u32; split the Program.")

/-- The loop over `buffers.iter().enumerate()` from position `index` on. -/
def putMemoryRegionsFrom (index : Nat) : List BufferDecl → Put
  | [] => .ok []
  | b :: bs => do
      let region ← putMemoryRegion index b
      let tail ← putMemoryRegionsFrom (index + 1) bs
      return region ++ tail

def putMemoryRegions (buffers : List BufferDecl) : Put := do
  let count ← putLebLen buffers.length
    "Fix: memory-region count cannot fit u64; split the Program."
  let regions ← putMemoryRegionsFrom 0 buffers
  return count ++ regions

/-- `OutputSet::encode_from_buffers_into`, the index loop from `index` on; its
error goes through `From<String>`, which keeps what fits 256 bytes. -/
def putOutputIndices (index : Nat) : List BufferDecl → Put
  | [] => .ok []
  | b :: bs =>
      if isOutputAccess b.access then
        if index < 2 ^ 32 then do
          let tail ← putOutputIndices (index + 1) bs
          return lebBytes 10 index ++ tail
        else .error (staticMsg "Fix: output-set index cannot fit u32; split the Program.")
      else putOutputIndices (index + 1) bs

def putOutputSet (buffers : List BufferDecl) : Put := do
  let count ← putLebLen (buffers.filter (fun b => isOutputAccess b.access)).length
    "Fix: output-set count cannot fit u64; split the Program."
  let indices ← putOutputIndices 0 buffers
  return count ++ indices

/-- The body behind the header of `to_wire_with_buffer_order_into`. -/
def putBody (buffers : List BufferDecl) : Put := do
  rejectNonRoundtrippableShapes p buffers
  let nodes ← putNodesSection p buffers
  let regions ← putMemoryRegions buffers
  let outputs ← putOutputSet buffers
  return nodes ++ regions ++ outputs

def putHeader (host : Host) (body : List UInt8) : List UInt8 :=
  magic ++ leBytes 2 wireFormatVersion ++ leBytes 2 flagOpaqueEndianFixed ++ host.blake3 body

def toWireWithBufferOrder (host : Host) (p : Program) (buffers : List BufferDecl) : Put := do
  let body ← putBody p buffers
  return putHeader host body ++ body

def toWire (host : Host) (p : Program) : Put := toWireWithBufferOrder host p p.buffers

def saturatingAdd (a b : Nat) : Nat := min (a + b) (2 ^ 64 - 1)

def saturatingMul (a b : Nat) : Nat := min (a * b) (2 ^ 64 - 1)

/-- `.sum::<usize>()`, built with overflow checks. -/
def sumUsize (values : List Nat) : Except EncodeFailure Nat :=
  if values.sum < 2 ^ 64 then .ok values.sum else .error .panicked

/-- `Vec::with_capacity`: a request above `isize::MAX` bytes panics. -/
def withCapacity (bytes : Nat) : Except EncodeFailure Unit :=
  if bytes < 2 ^ 63 then .ok () else .error .panicked

def estimatedBodyCapacity (buffers : List BufferDecl) :
    Except EncodeFailure Nat := do
  let nameBytes ← sumUsize (buffers.map fun b => (utf8 b.name).length)
  return saturatingAdd (saturatingAdd (saturatingAdd (saturatingAdd
    (saturatingMul p.entry.length 48) (saturatingMul buffers.length 40)) nameBytes)
    (saturatingMul buffers.length 2)) 256

def estimatedWireCapacity (buffers : List BufferDecl) :
    Except EncodeFailure Nat := do
  let body ← estimatedBodyCapacity p buffers
  return saturatingAdd (saturatingAdd (saturatingAdd (saturatingAdd magic.length 2) 2) 32) body

/-- `Program::to_wire` with the reservation it starts with; the vector of the
body, reserved later, asks for less. -/
def toWireReserved (host : Host) (p : Program) : Put := do
  let capacity ← estimatedWireCapacity p p.buffers
  withCapacity capacity
  toWire host p

end Vyre.Wire
