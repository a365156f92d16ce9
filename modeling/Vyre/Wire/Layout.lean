import Vyre.Wire.Encode

/-!
# The wire layout

What the encoder writes, as total functions: `exprBytes` and its likes are the
layout of a value, `EncodableExpr` and its likes the condition under which the
encoder accepts it. The spec
of every `put_*` function is that it succeeds exactly on encodable values and
then writes their layout; for `put_expr` this takes the explicit stack away.
-/

namespace Vyre.Wire

open ByteCodec Worklist List

def okBytes (p : Put) : List UInt8 := match p with
  | .ok bytes => bytes
  | .error _ => []

def binOpBytes (op : BinOp) : List UInt8 := okBytes (putBinOp op)
def unOpBytes (op : UnOp) : List UInt8 := okBytes (putUnOp op)
def atomicOpBytes (op : AtomicOp) : List UInt8 := okBytes (putAtomicOp op)

@[simp] theorem putBinOp_eq (op : BinOp) : putBinOp op = .ok (binOpBytes op) := by
  cases op <;> rfl

@[simp] theorem putUnOp_eq (op : UnOp) : putUnOp op = .ok (unOpBytes op) := by
  cases op <;> rfl

@[simp] theorem putAtomicOp_eq (op : AtomicOp) : putAtomicOp op = .ok (atomicOpBytes op) := by
  cases op <;> rfl

def scaleBytes : QuantizationScale → List UInt8
  | .perTensor => 0 :: putU32 0
  | .perChannel axis => 1 :: putU32 axis
  | .perGroup groupSize => 2 :: putU32 groupSize

def EncodableScale : QuantizationScale → Prop
  | .perGroup groupSize => groupSize ≠ 0
  | _ => True

def zeroPointBytes : QuantizationZeroPoint → List UInt8
  | .absent => 0 :: putU32 0
  | .perTensor => 1 :: putU32 0
  | .perChannel axis => 2 :: putU32 axis
  | .perGroup groupSize => 3 :: putU32 groupSize

def EncodableZeroPoint : QuantizationZeroPoint → Prop
  | .perGroup groupSize => groupSize ≠ 0
  | _ => True

variable {bs : List UInt8} {t : DataType} {b : BufferDecl} {p : Program} {index : Nat}

theorem putQuantizationScale_eq_ok {s : QuantizationScale} :
    putQuantizationScale s = .ok bs ↔ EncodableScale s ∧ bs = scaleBytes s := by
  cases s with
  | perGroup groupSize => exact ite_error_eq_ok
  | _ => simp [putQuantizationScale, EncodableScale, scaleBytes, eq_comm]

theorem putQuantizationZeroPoint_eq_ok {z : QuantizationZeroPoint} :
    putQuantizationZeroPoint z = .ok bs ↔ EncodableZeroPoint z ∧ bs = zeroPointBytes z := by
  cases z with
  | perGroup groupSize => exact ite_error_eq_ok
  | _ => simp [putQuantizationZeroPoint, EncodableZeroPoint, zeroPointBytes, eq_comm]

/-- `put_data_type`'s layout. -/
def typeBytes : DataType → List UInt8
  | .array elementSize => 0x08 :: leBytes 4 elementSize.toNat
  | .ext id => 0x80 :: putU32 id
  | .handle id => 0x13 :: putU32 id
  | .vec element count => 0x14 :: (typeBytes element ++ [count])
  | .tensorShaped element shape =>
      0x15 :: (typeBytes element ++ leBytes 4 shape.length ++ shape.flatMap putU32)
  | .sparseCsr element => 0x16 :: typeBytes element
  | .sparseCoo element => 0x17 :: typeBytes element
  | .sparseBsr element blockRows blockCols =>
      0x18 :: (typeBytes element ++ putU32 blockRows ++ putU32 blockCols)
  | .deviceMesh axes => 0x1E :: (leBytes 4 axes.length ++ axes.flatMap putU32)
  | .quantized storage scale zeroPoint =>
      0x1F :: (typeBytes storage ++ scaleBytes scale ++
        zeroPointBytes zeroPoint)
  | scalar => [dataTypeTag scalar]

def EncodableType : DataType → Prop
  | .array elementSize => elementSize.toNat < 2 ^ 32
  | .vec element _ => EncodableType element
  | .tensorShaped element shape => EncodableType element ∧ shape.length < 2 ^ 32
  | .sparseCsr element | .sparseCoo element | .sparseBsr element _ _ => EncodableType element
  | .deviceMesh axes => axes.length < 2 ^ 32
  | .quantized storage scale zeroPoint =>
      storage.isQuantizedStorage = true ∧ EncodableType storage ∧ EncodableScale scale ∧
        EncodableZeroPoint zeroPoint
  | _ => True

theorem putRank_eq_ok {n : Nat} {before after : String} :
    putRank n before after = .ok bs ↔ n < 2 ^ 32 ∧ bs = leBytes 4 n := by
  rw [putRank, ite_error_eq_ok]

theorem putDataType_eq_ok : putDataType t = .ok bs ↔ EncodableType t ∧ bs = typeBytes t := by
  induction t generalizing bs with
  | vec element count ih
  | sparseCsr element ih | sparseCoo element ih | sparseBsr element rows cols ih =>
    simp [putDataType, ih, EncodableType, typeBytes, eq_comm (a := bs)]
  | tensorShaped element shape ih =>
    simp [putDataType, ih, putRank_eq_ok, EncodableType, typeBytes, and_assoc, eq_comm (a := bs)]
  | quantized storage scale zeroPoint ih =>
    by_cases hq : storage.isQuantizedStorage <;>
      simp [putDataType, EncodableType, typeBytes, ih, putQuantizationScale_eq_ok,
        putQuantizationZeroPoint_eq_ok, hq, and_assoc, eq_comm (a := bs)]
  | array elementSize | deviceMesh axes =>
    simp [putDataType, putRank_eq_ok, EncodableType, typeBytes, eq_comm (a := bs)]
  | _ => simp [putDataType, EncodableType, typeBytes, eq_comm]

/-! ## Expressions -/

def payloadBytes (kind : String) (payload : List UInt8) : List UInt8 :=
  stringBytes kind ++ leBytes 4 payload.length ++ payload

def EncodablePayload (kind : String) (payload : List UInt8) : Prop :=
  StringFits kind ∧ payload.length ≤ maxOpaquePayloadLen

mutual

/-- `put_expr`'s layout. -/
def exprBytes : Expr → List UInt8
  | .litU32 value => 0 :: putU32 value
  | .litI32 value => 1 :: putU32 value.toUInt32
  | .litBool value => [2, flagByte value]
  | .litF32 bits => 15 :: putU32 (canonicalF32Bits bits)
  | .var name => 3 :: stringBytes name
  | .load buffer index => 4 :: (stringBytes buffer ++ exprBytes index)
  | .bufLen buffer => 5 :: stringBytes buffer
  | .invocationId axis => [6, axis]
  | .workgroupId axis => [7, axis]
  | .localId axis => [8, axis]
  | .binOp op left right => 9 :: (binOpBytes op ++ exprBytes left ++ exprBytes right)
  | .unOp op operand => 10 :: (unOpBytes op ++ exprBytes operand)
  | .call opId args =>
      11 :: (stringBytes opId ++ leBytes 4 args.length ++ exprsBytes args)
  | .select cond trueVal falseVal =>
      12 :: (exprBytes cond ++ exprBytes trueVal ++ exprBytes falseVal)
  | .cast target value => 13 :: (typeBytes target ++ exprBytes value)
  | .fma a b c => 16 :: (exprBytes a ++ exprBytes b ++ exprBytes c)
  | .atomic op buffer index expected value ordering =>
      14 :: (atomicOpBytes op ++ orderingTag ordering :: stringBytes buffer ++
        exprBytes index ++ expectedBytes expected ++ exprBytes value)
  | .subgroupAdd value => 17 :: exprBytes value
  | .subgroupShuffle value lane => 18 :: (exprBytes value ++ exprBytes lane)
  | .subgroupBallot cond => 19 :: exprBytes cond
  | .subgroupLocalId => [20]
  | .subgroupSize => [21]
  | .ext extension => 0x80 :: payloadBytes extension.extensionKind extension.wirePayload

def expectedBytes : Option Expr → List UInt8
  | none => [0]
  | some e => 1 :: exprBytes e

def exprsBytes : List Expr → List UInt8
  | [] => []
  | e :: es => exprBytes e ++ exprsBytes es

end

mutual

/-- The expressions `put_expr` accepts. -/
def EncodableExpr : Expr → Prop
  | .var name => StringFits name
  | .load buffer index => StringFits buffer ∧ EncodableExpr index
  | .bufLen buffer => StringFits buffer
  | .binOp _ left right => EncodableExpr left ∧ EncodableExpr right
  | .unOp _ operand => EncodableExpr operand
  | .call opId args => StringFits opId ∧ args.length < 2 ^ 32 ∧ EncodableExprs args
  | .select cond trueVal falseVal =>
      EncodableExpr cond ∧ EncodableExpr trueVal ∧ EncodableExpr falseVal
  | .cast target value => EncodableType target ∧ EncodableExpr value
  | .fma a b c => EncodableExpr a ∧ EncodableExpr b ∧ EncodableExpr c
  | .atomic _ buffer index expected value _ =>
      StringFits buffer ∧ EncodableExpr index ∧ EncodableExpected expected ∧
        EncodableExpr value
  | .subgroupAdd value => EncodableExpr value
  | .subgroupShuffle value lane => EncodableExpr value ∧ EncodableExpr lane
  | .subgroupBallot cond => EncodableExpr cond
  | .ext extension => EncodablePayload extension.extensionKind extension.wirePayload
  | _ => True

def EncodableExpected : Option Expr → Prop
  | none => True
  | some e => EncodableExpr e

def EncodableExprs : List Expr → Prop
  | [] => True
  | e :: es => EncodableExpr e ∧ EncodableExprs es

end

theorem encodableExprs_iff {es : List Expr} :
    EncodableExprs es ↔ ∀ e ∈ es, EncodableExpr e := by
  induction es with
  | nil => simp [EncodableExprs]
  | cons e es ih => simp [EncodableExprs, ih]

theorem exprsBytes_eq (es : List Expr) : exprsBytes es = es.flatMap exprBytes := by
  induction es with
  | nil => rfl
  | cons e es ih => simp [exprsBytes, ih]

theorem putPayload_eq_ok {payload : List UInt8} {before after label : String} :
    putPayload payload before after label = .ok bs ↔
      payload.length ≤ maxOpaquePayloadLen ∧ bs = leBytes 4 payload.length ++ payload := by
  have hmax : maxOpaquePayloadLen < 2 ^ 32 := by decide
  unfold putPayload
  split
  case isTrue hle =>
    have hlt : payload.length < 4294967296 := by omega
    simp [hle, hlt, eq_comm (a := bs)]
  case isFalse hle => simp [hle]

variable {out : List UInt8}

/-- One iteration of `put_expr`, and then the others. -/
theorem putExprLoop_cons {s : EncodeStep} {rest : List EncodeStep} :
    putExprLoop.run (s :: rest) out = .ok bs ↔
      ∃ r, putExprStep s = .ok r ∧ putExprLoop.run (r.1 ++ rest) (out ++ r.2) = .ok bs := by
  rw [Loop.run_cons]
  cases h : putExprStep s with
  | error e | ok r => simp [putExprLoop, h, Except.map]

theorem putExprLoop_args {args : List Expr} {rest : List EncodeStep}
    (h : ∀ e ∈ args, ∀ rest out, putExprLoop.run (.encode e :: rest) out = .ok bs ↔
      EncodableExpr e ∧ putExprLoop.run rest (out ++ exprBytes e) = .ok bs) :
    putExprLoop.run (args.map .encode ++ rest) out = .ok bs ↔
      EncodableExprs args ∧ putExprLoop.run rest (out ++ exprsBytes args) = .ok bs := by
  induction args generalizing out with
  | nil => simp [EncodableExprs, exprsBytes]
  | cons e args ih =>
    rw [map_cons, cons_append, h e (by simp), ih fun a ha => h a (by simp [ha])]
    simp [EncodableExprs, exprsBytes, and_assoc]

theorem putExprLoop_encode (e : Expr) (rest : List EncodeStep) (out : List UInt8) :
    putExprLoop.run (.encode e :: rest) out = .ok bs ↔
      EncodableExpr e ∧ putExprLoop.run rest (out ++ exprBytes e) = .ok bs := by
  induction e generalizing rest out with
  | call opId args ih =>
    simp [putExprLoop_cons, putExprStep, putExprLoop_args ih, EncodableExpr,
      exprBytes, and_assoc]
  | atomic _ _ _ expected _ _ ihi ihe ihv =>
    cases expected <;>
      simp [putExprLoop_cons, putExprStep, ihi, ihe, ihv, EncodableExpr, EncodableExpected,
        exprBytes, expectedBytes, and_assoc]
  | _ =>
    simp [putExprLoop_cons, putExprStep, putDataType_eq_ok, putPayload_eq_ok, EncodableExpr,
      EncodablePayload, exprBytes, payloadBytes, and_assoc, *]

/-- The spec of `put_expr`: the explicit stack writes the layout. -/
theorem putExpr_eq_ok {e : Expr} : putExpr e = .ok bs ↔ EncodableExpr e ∧ bs = exprBytes e := by
  rw [putExpr, putExprLoop_encode]
  simp [eq_comm]

/-! ## Statements -/

def sourceRegionBytes : Option String → List UInt8
  | some name => 1 :: stringBytes name
  | none => [0]

def EncodableName : Option String → Prop
  | some name => StringFits name
  | none => True

mutual

/-- `put_node`'s layout. -/
def nodeBytes : Node → List UInt8
  | .letBind name value => 0 :: (stringBytes name ++ exprBytes value)
  | .assign name value => 1 :: (stringBytes name ++ exprBytes value)
  | .store buffer index value =>
      2 :: (stringBytes buffer ++ exprBytes index ++ exprBytes value)
  | .ifThen cond thenNodes otherwise =>
      3 :: (exprBytes cond ++ (leBytes 4 thenNodes.length ++ nodesBytes thenNodes) ++
        (leBytes 4 otherwise.length ++ nodesBytes otherwise))
  | .loop var lo hi body =>
      4 :: (stringBytes var ++ exprBytes lo ++ exprBytes hi ++
        (leBytes 4 body.length ++ nodesBytes body))
  | .ret => [5]
  | .block body => 6 :: (leBytes 4 body.length ++ nodesBytes body)
  | .barrier ordering => [7, orderingTag ordering]
  | .indirectDispatch countBuffer countOffset =>
      8 :: (stringBytes countBuffer ++ putU64 countOffset)
  | .asyncLoad source destination offset size tag =>
      9 :: (stringBytes source ++ stringBytes destination ++ exprBytes offset ++
        exprBytes size ++ stringBytes tag)
  | .asyncStore source destination offset size tag =>
      12 :: (stringBytes source ++ stringBytes destination ++ exprBytes offset ++
        exprBytes size ++ stringBytes tag)
  | .trap address tag => 13 :: (exprBytes address ++ stringBytes tag)
  | .resume tag => 14 :: stringBytes tag
  | .allReduce buffer op group =>
      15 :: (stringBytes buffer ++ collectiveOpTag op :: putU32 group)
  | .allGather input output group =>
      16 :: (stringBytes input ++ stringBytes output ++ putU32 group)
  | .reduceScatter input output op group =>
      17 :: (stringBytes input ++ stringBytes output ++ collectiveOpTag op :: putU32 group)
  | .broadcast buffer root group => 18 :: (stringBytes buffer ++ putU32 root ++ putU32 group)
  | .asyncWait tag => 10 :: stringBytes tag
  | .region generator sourceRegion body =>
      11 :: (stringBytes generator ++ sourceRegionBytes sourceRegion ++
        (leBytes 4 body.length ++ nodesBytes body))
  | .ext extension => 0x80 :: payloadBytes extension.extensionKind extension.wirePayload

def nodesBytes : List Node → List UInt8
  | [] => []
  | n :: ns => nodeBytes n ++ nodesBytes ns

end

mutual

/-- The statements `put_node` accepts. -/
def EncodableNode : Node → Prop
  | .letBind name value | .assign name value => StringFits name ∧ EncodableExpr value
  | .store buffer index value =>
      StringFits buffer ∧ EncodableExpr index ∧ EncodableExpr value
  | .ifThen cond thenNodes otherwise =>
      EncodableExpr cond ∧ (thenNodes.length < 2 ^ 32 ∧ EncodableNodes thenNodes) ∧
        otherwise.length < 2 ^ 32 ∧ EncodableNodes otherwise
  | .loop var lo hi body =>
      StringFits var ∧ EncodableExpr lo ∧ EncodableExpr hi ∧ body.length < 2 ^ 32 ∧
        EncodableNodes body
  | .block body => body.length < 2 ^ 32 ∧ EncodableNodes body
  | .indirectDispatch countBuffer _ => StringFits countBuffer
  | .asyncLoad source destination offset size tag
  | .asyncStore source destination offset size tag =>
      StringFits source ∧ StringFits destination ∧ EncodableExpr offset ∧ EncodableExpr size ∧
        StringFits tag
  | .trap address tag => EncodableExpr address ∧ StringFits tag
  | .resume tag => StringFits tag
  | .allReduce buffer _ _ => StringFits buffer
  | .allGather input output _ | .reduceScatter input output _ _ =>
      StringFits input ∧ StringFits output
  | .broadcast buffer _ _ => StringFits buffer
  | .asyncWait tag => StringFits tag
  | .region generator sourceRegion body =>
      StringFits generator ∧ EncodableName sourceRegion ∧ body.length < 2 ^ 32 ∧
        EncodableNodes body
  | .ext extension => EncodablePayload extension.extensionKind extension.wirePayload
  | .ret | .barrier _ => True

def EncodableNodes : List Node → Prop
  | [] => True
  | n :: ns => EncodableNode n ∧ EncodableNodes ns

end

theorem encodableNodes_iff {ns : List Node} :
    EncodableNodes ns ↔ ∀ n ∈ ns, EncodableNode n := by
  induction ns with
  | nil => simp [EncodableNodes]
  | cons n ns ih => simp [EncodableNodes, ih]

theorem nodesBytes_eq (ns : List Node) : nodesBytes ns = ns.flatMap nodeBytes := by
  induction ns with
  | nil => rfl
  | cons n ns ih => simp [nodesBytes, ih]

theorem putSourceRegion_eq_ok {r : Option String} :
    putSourceRegion r = .ok bs ↔ EncodableName r ∧ bs = sourceRegionBytes r := by
  cases r <;> simp [putSourceRegion, EncodableName, sourceRegionBytes, eq_comm (a := bs)]

theorem putNodeList_eq_ok {ns : List Node}
    (h : ∀ n ∈ ns, ∀ bs, putNode n = .ok bs ↔ EncodableNode n ∧ bs = nodeBytes n) :
    putNodeList ns = .ok bs ↔ EncodableNodes ns ∧ bs = nodesBytes ns := by
  induction ns generalizing bs with
  | nil => simp [putNodeList, EncodableNodes, nodesBytes]
  | cons n ns ih =>
    have hn := h n (by simp)
    have ih' := fun bs => @ih bs fun m hm => h m (by simp [hm])
    simp [putNodeList, hn, ih', EncodableNodes, nodesBytes, and_assoc, eq_comm (a := bs)]

/-- The spec of `put_node`. -/
theorem putNode_eq_ok {n : Node} : putNode n = .ok bs ↔ EncodableNode n ∧ bs = nodeBytes n := by
  induction n generalizing bs with
  | ifThen cond thenNodes otherwise iht iho =>
    have ht := fun bs => @putNodeList_eq_ok bs thenNodes fun n hn _ => iht n hn
    have ho := fun bs => @putNodeList_eq_ok bs otherwise fun n hn _ => iho n hn
    simp [putNode, putExpr_eq_ok, ht, ho, EncodableNode, nodeBytes, and_assoc,
      eq_comm (a := bs)]
  | loop var lo hi body ih | block body ih | region _ _ body ih =>
    have hb := fun bs => @putNodeList_eq_ok bs body fun n hn _ => ih n hn
    simp [putNode, putExpr_eq_ok, putSourceRegion_eq_ok, hb, EncodableNode, nodeBytes, and_assoc,
      eq_comm (a := bs)]
  | _ =>
    simp [putNode, putExpr_eq_ok, putPayload_eq_ok, EncodableNode, EncodablePayload, nodeBytes,
      payloadBytes, and_assoc, eq_comm (a := bs)]

def recordBytes (opId : String) (payload : List UInt8) : List UInt8 :=
  lebBytes 10 (utf8 opId).length ++ utf8 opId ++ lebBytes 10 payload.length ++ payload ++
    lebBytes 10 0

theorem putNodeRecord_eq_ok {opId : String} {payload : List UInt8} :
    putNodeRecord opId payload = .ok bs ↔
      ((utf8 opId).length < 2 ^ 64 ∧ payload.length < 2 ^ 64) ∧
        bs = recordBytes opId payload := by
  simp [putNodeRecord, putLebStr, recordBytes, and_assoc, eq_comm (a := bs)]

def rangeBytes : Option (UInt64 × UInt64) → List UInt8
  | some (start, stop) => 1 :: (putLebU64 start ++ putLebU64 stop)
  | none => [0]

def bufferMetadataBytes (b : BufferDecl) : List UInt8 :=
  stringBytes b.name ++ putU32 b.binding ++ putU32 b.count ++
    [flagByte b.isOutput, flagByte b.pipelineLiveOut] ++ rangeBytes b.outputByteRange ++
    putHintsPayload b.hints

theorem putBufferMetadata_eq_ok :
    putBufferMetadata b = .ok bs ↔ StringFits b.name ∧ bs = bufferMetadataBytes b := by
  cases hrange : b.outputByteRange <;>
    simp [putBufferMetadata, bufferMetadataBytes, rangeBytes, hrange, eq_comm (a := bs)]

theorem putAll_eq_ok {α : Type} {f : α → Put} {ok : α → Prop} {bytes : α → List UInt8}
    (h : ∀ x bs, f x = .ok bs ↔ ok x ∧ bs = bytes x) {xs : List α} :
    putAll f xs = .ok bs ↔ (∀ x ∈ xs, ok x) ∧ bs = xs.flatMap bytes := by
  induction xs generalizing bs with
  | nil => simp [putAll]
  | cons x xs ih =>
    simp [putAll, h, ih, and_assoc, eq_comm (a := bs)]

theorem putEntryOpId_eq_ok {r : Option String} :
    putEntryOpId r = .ok bs ↔ EncodableName r ∧ bs = sourceRegionBytes r := by
  cases r <;> simp [putEntryOpId, EncodableName, sourceRegionBytes, eq_comm (a := bs)]

def metadataBytes (p : Program) : List UInt8 :=
  metadataMarker ++ sourceRegionBytes p.entryOpId ++ putU32 p.workgroupSize.1 ++
    putU32 p.workgroupSize.2.1 ++ putU32 p.workgroupSize.2.2 ++
    [flagByte p.nonComposableWithSelf] ++ lebBytes 10 p.buffers.length ++
    p.buffers.flatMap bufferMetadataBytes

def entryNodeBytes (n : Node) : List UInt8 := recordBytes (nodeOpId n) (nodeBytes n)

def EncodableEntryNode (n : Node) : Prop :=
  EncodableNode n ∧ (utf8 (nodeOpId n)).length < 2 ^ 64 ∧ (nodeBytes n).length < 2 ^ 64

theorem putEntryNode_eq_ok {n : Node} :
    putEntryNode n = .ok bs ↔ EncodableEntryNode n ∧ bs = entryNodeBytes n := by
  simp [putEntryNode, putNode_eq_ok, putNodeRecord_eq_ok, EncodableEntryNode, entryNodeBytes,
    and_assoc]

def nodesSectionBytes (p : Program) : List UInt8 :=
  lebBytes 10 (p.entry.length + 1) ++ recordBytes metadataOpId (metadataBytes p) ++
    p.entry.flatMap entryNodeBytes

@[mk_iff] structure EncodableNodesSection (p : Program) : Prop where
  entryOpId : EncodableName p.entryOpId
  names : ∀ b ∈ p.buffers, StringFits b.name
  bufferCount : p.buffers.length < 2 ^ 64
  nodeCount : p.entry.length + 1 < 2 ^ 64
  metadata : (metadataBytes p).length < 2 ^ 64
  entry : ∀ n ∈ p.entry, EncodableEntryNode n

theorem putMetadataPayload_eq_ok :
    putMetadataPayload p p.buffers = .ok bs ↔
      (EncodableName p.entryOpId ∧ (∀ b ∈ p.buffers, StringFits b.name) ∧
        p.buffers.length < 2 ^ 64) ∧ bs = metadataBytes p := by
  simp [putMetadataPayload, putEntryOpId_eq_ok,
    putAll_eq_ok fun _ _ => putBufferMetadata_eq_ok, metadataBytes]
  tauto

theorem metadataOpId_length : (utf8 metadataOpId).length < 2 ^ 64 := by decide

theorem putNodesSection_eq_ok :
    putNodesSection p p.buffers = .ok bs ↔
      EncodableNodesSection p ∧ bs = nodesSectionBytes p := by
  have hop := metadataOpId_length
  simp only [putNodesSection, bind_eq_ok, putLebLen_eq_ok, putMetadataPayload_eq_ok,
    putNodeRecord_eq_ok, putAll_eq_ok (fun _ _ => putEntryNode_eq_ok), pure_eq_ok,
    nodesSectionBytes, encodableNodesSection_iff]
  grind

/-! ## Memory regions -/

def denseScaleBytes : QuantizationScale → List UInt8
  | .perTensor => lebBytes 10 0 ++ lebBytes 10 0
  | .perChannel axis => lebBytes 10 1 ++ putLebU32 axis
  | .perGroup groupSize => lebBytes 10 2 ++ putLebU32 groupSize

def denseZeroPointBytes : QuantizationZeroPoint → List UInt8
  | .absent => lebBytes 10 0 ++ lebBytes 10 0
  | .perTensor => lebBytes 10 1 ++ lebBytes 10 0
  | .perChannel axis => lebBytes 10 2 ++ putLebU32 axis
  | .perGroup groupSize => lebBytes 10 3 ++ putLebU32 groupSize

theorem putDenseQuantizationScale_eq_ok {s : QuantizationScale} :
    putDenseQuantizationScale s = .ok bs ↔ EncodableScale s ∧ bs = denseScaleBytes s := by
  cases s with
  | perGroup groupSize => exact ite_error_eq_ok
  | _ => simp [putDenseQuantizationScale, EncodableScale, denseScaleBytes, eq_comm]

theorem putDenseQuantizationZeroPoint_eq_ok {z : QuantizationZeroPoint} :
    putDenseQuantizationZeroPoint z = .ok bs ↔
      EncodableZeroPoint z ∧ bs = denseZeroPointBytes z := by
  cases z with
  | perGroup groupSize => exact ite_error_eq_ok
  | _ => simp [putDenseQuantizationZeroPoint, EncodableZeroPoint, denseZeroPointBytes, eq_comm]

def elementShapeBytes : DataType → List UInt8
  | .array elementSize => putLebU64 elementSize
  | .handle id => putLebU32 id
  | .ext id => putLebU32 id
  | .quantized storage scale zeroPoint =>
      lebBytes 10 (dataTypeTag storage).toNat ++ denseScaleBytes scale ++
        denseZeroPointBytes zeroPoint
  | _ => []

def EncodableElement : DataType → Prop
  | .sparseCsr _ | .sparseCoo _ | .sparseBsr _ _ _ | .deviceMesh _ => False
  | .quantized storage scale zeroPoint =>
      storage.isQuantizedStorage = true ∧ EncodableScale scale ∧ EncodableZeroPoint zeroPoint
  | _ => True

theorem regionTypeTag_storage (h : t.isQuantizedStorage = true) :
    regionTypeTag t = .ok (dataTypeTag t) := by
  cases t <;> first | rfl | cases h

theorem putElement_eq_ok {tag : UInt8} :
    (regionTypeTag t = .ok tag ∧ putElementShape t = .ok bs) ↔
      EncodableElement t ∧ tag = dataTypeTag t ∧ bs = elementShapeBytes t := by
  cases t with
  | quantized storage scale zeroPoint =>
    have htag : regionTypeTag (.quantized storage scale zeroPoint) =
        .ok (dataTypeTag (.quantized storage scale zeroPoint)) := rfl
    simp only [htag, putElementShape, EncodableElement, elementShapeBytes]
    split
    case isTrue hq =>
      simp [regionTypeTag_storage hq, putDenseQuantizationScale_eq_ok,
        putDenseQuantizationZeroPoint_eq_ok]
      tauto
    case isFalse hq => simp [hq]
  | _ =>
    simp [regionTypeTag, putElementShape, EncodableElement, elementShapeBytes,
      eq_comm (b := tag), eq_comm (b := bs)]

def shapeBytes (b : BufferDecl) : List UInt8 := putLebU32 b.count ++ elementShapeBytes b.element

def regionBytes (index : Nat) (b : BufferDecl) : List UInt8 :=
  lebBytes 10 index ++ [memoryKindTag b.kind, accessTag b.access, dataTypeTag b.element, 0] ++
    lebBytes 10 (shapeBytes b).length ++ shapeBytes b ++
    lebBytes 10 (putHintsPayload b.hints).length ++ putHintsPayload b.hints

theorem lebBytes_length_lt (n : Nat) : (lebBytes 10 n).length < 11 :=
  Nat.lt_succ_of_le (lebBytes_length_le 10 n)

theorem shapeBytes_length (b : BufferDecl) : (shapeBytes b).length ≤ 60 := by
  have hleb := lebBytes_length_lt
  have hscale : ∀ s, (denseScaleBytes s).length ≤ 20 := by
    intro s
    cases s <;> simp only [denseScaleBytes, putLebU32] <;> grind
  have hzero : ∀ z, (denseZeroPointBytes z).length ≤ 20 := by
    intro z
    cases z <;> simp only [denseZeroPointBytes, putLebU32] <;> grind
  have helem : (elementShapeBytes b.element).length ≤ 50 := by
    cases b.element with
    | array size | handle id | ext id => exact le_trans (Nat.le_of_lt_succ (hleb _)) (by omega)
    | quantized storage scale zeroPoint =>
      have h1 := hleb (dataTypeTag storage).toNat
      have h2 := hscale scale
      have h3 := hzero zeroPoint
      simp only [elementShapeBytes, length_append]
      omega
    | _ => simp [elementShapeBytes]
  have hcount := hleb b.count.toNat
  simp only [shapeBytes, putLebU32, length_append]
  omega

theorem putHintsPayload_length (h : MemoryHints) : (putHintsPayload h).length ≤ 7 := by
  unfold putHintsPayload putU32
  cases h.coalesceAxis <;> simp

theorem putMemoryRegion_eq_ok :
    putMemoryRegion index b = .ok bs ↔
      (index < 2 ^ 32 ∧ EncodableElement b.element) ∧ bs = regionBytes index b := by
  have hshape : (shapeBytes b).length < 2 ^ 64 :=
    lt_of_le_of_lt (shapeBytes_length b) (by omega)
  have hhints : (putHintsPayload b.hints).length < 2 ^ 64 :=
    lt_of_le_of_lt (putHintsPayload_length b.hints) (by omega)
  unfold putMemoryRegion
  split
  · rename_i hi
    simp only [bind_eq_ok, putLebLen_eq_ok, pure_eq_ok, hi, true_and]
    constructor
    · rintro ⟨tag, ht, elem, he, _, ⟨-, rfl⟩, _, ⟨-, rfl⟩, rfl⟩
      obtain ⟨hok, rfl, rfl⟩ := putElement_eq_ok.mp ⟨ht, he⟩
      exact ⟨hok, rfl⟩
    · rintro ⟨hok, rfl⟩
      obtain ⟨ht, he⟩ := putElement_eq_ok.mpr ⟨hok, rfl, rfl⟩
      exact ⟨_, ht, _, he, _, ⟨hshape, rfl⟩, _, ⟨hhints, rfl⟩, rfl⟩
  · rename_i hi
    simp only [reduceCtorEq, false_iff]
    intro h
    exact hi h.1.1

def regionsBytes (index : Nat) : List BufferDecl → List UInt8
  | [] => []
  | b :: bs => regionBytes index b ++ regionsBytes (index + 1) bs

theorem putMemoryRegionsFrom_eq_ok {bs : List BufferDecl} :
    putMemoryRegionsFrom index bs = .ok out ↔
      ((bs = [] ∨ index + bs.length ≤ 2 ^ 32) ∧ ∀ b ∈ bs, EncodableElement b.element) ∧
        out = regionsBytes index bs := by
  induction bs generalizing index out with
  | nil => simp [putMemoryRegionsFrom, regionsBytes]
  | cons b bs ih =>
    simp only [putMemoryRegionsFrom, bind_eq_ok, putMemoryRegion_eq_ok, ih, pure_eq_ok,
      mem_cons, forall_eq_or_imp, length_cons, reduceCtorEq, false_or]
    constructor
    · rintro ⟨_, ⟨⟨hi, he⟩, rfl⟩, _, ⟨⟨hlen, hall⟩, rfl⟩, rfl⟩
      refine ⟨⟨?_, he, hall⟩, rfl⟩
      rcases hlen with rfl | hlen
      · simp only [length_nil]
        omega
      · omega
    · rintro ⟨⟨hlen, he, hall⟩, rfl⟩
      exact ⟨_, ⟨⟨by omega, he⟩, rfl⟩, _, ⟨⟨.inr (by omega), hall⟩, rfl⟩, rfl⟩

def outputIndexBytes (index : Nat) : List BufferDecl → List UInt8
  | [] => []
  | b :: bs =>
      (if isOutputAccess b.access then lebBytes 10 index else []) ++
        outputIndexBytes (index + 1) bs

theorem putOutputIndices_eq {bs : List BufferDecl} (h : bs = [] ∨ index + bs.length ≤ 2 ^ 32) :
    putOutputIndices index bs = .ok (outputIndexBytes index bs) := by
  induction bs generalizing index with
  | nil => rfl
  | cons b bs ih =>
    have hlen : index + (bs.length + 1) ≤ 2 ^ 32 := by simpa using h
    have ih' := @ih (index + 1) (.inr (by omega))
    by_cases hb : isOutputAccess b.access
    · rw [putOutputIndices, if_pos hb, if_pos (by omega), ih', outputIndexBytes, if_pos hb]
      rfl
    · rw [putOutputIndices, if_neg hb, ih', outputIndexBytes, if_neg hb]
      rfl

def outputCount (bs : List BufferDecl) : Nat :=
  (bs.filter (fun b => isOutputAccess b.access)).length

theorem outputCount_le (bs : List BufferDecl) : outputCount bs ≤ bs.length :=
  length_filter_le _ _

def outputSetBytes (bs : List BufferDecl) : List UInt8 :=
  lebBytes 10 (outputCount bs) ++ outputIndexBytes 0 bs

def EncodableRange (b : BufferDecl) : Prop :=
  ∀ range ∈ b.outputByteRange, range.1 ≤ range.2 ∧
    (b.count = 0 ∨ ∃ size ∈ b.element.sizeBytes, b.count.toNat * size < 2 ^ 64 ∧
      range.2.toNat ≤ b.count.toNat * size)

/-- `reject_non_roundtrippable_shapes` lets a buffer through. -/
@[mk_iff] structure EncodableShape (b : BufferDecl) : Prop where
  workgroup : ¬ (b.count = 0 ∧ b.access = .workgroup)
  liveOut : ¬ (b.count = 0 ∧ b.pipelineLiveOut = true)
  range : EncodableRange b

theorem rejectOutputRange_eq_ok {range : UInt64 × UInt64} :
    rejectOutputRange b range = .ok () ↔ range.1 ≤ range.2 ∧
      (b.count = 0 ∨ ∃ size ∈ b.element.sizeBytes, b.count.toNat * size < 2 ^ 64 ∧
        range.2.toNat ≤ b.count.toNat * size) := by
  have hend := range.2.toNat_lt
  have horder : (range.2 < range.1) ↔ ¬ range.1 ≤ range.2 := by
    rw [UInt64.not_le]
  unfold rejectOutputRange outputFullSize
  by_cases hc : b.count = 0
  · by_cases hle : range.1 ≤ range.2 <;> simp [hc]
  · simp only [hc, if_false, false_or]
    cases hs : b.element.sizeBytes with
    | none => simp
    | some size =>
      simp only [Option.mem_def, Option.some.injEq, exists_eq_left']
      by_cases hmul : b.count.toNat * size < 2 ^ 64
      · simp only [hmul, if_true, Bind.bind, Except.bind]
        by_cases hle : range.1 ≤ range.2
        · simp only [horder, hle, not_true_eq_false, if_false]
          by_cases hfit : range.2.toNat ≤ b.count.toNat * size
          · simp [hfit]
          · rw [if_pos (by omega)]
            simp [hfit]
        · simp [horder, hle]
      · rw [if_neg hmul]
        simp only [Bind.bind, Except.bind, reduceCtorEq, false_iff]
        intro h
        exact hmul h.2.1

theorem rejectBufferShape_eq_ok : rejectBufferShape b = .ok () ↔ EncodableShape b := by
  rw [rejectBufferShape, encodableShape_iff, EncodableRange]
  split_ifs with hw hl
  · simp [hw]
  · simp [hl]
  · cases b.outputByteRange <;> simp [hw, hl, rejectOutputRange_eq_ok]

theorem forM_eq_ok {ε α : Type} {f : α → Except ε Unit} {xs : List α} :
    forM xs f = .ok () ↔ ∀ x ∈ xs, f x = .ok () := by
  induction xs with
  | nil => simp
  | cons x xs ih =>
    rw [forM_cons, bind_eq_ok, forall_mem_cons, ← ih]
    exact ⟨fun ⟨_, hx, hxs⟩ => ⟨hx, hxs⟩, fun ⟨hx, hxs⟩ => ⟨(), hx, hxs⟩⟩

def PositiveWorkgroup (p : Program) : Prop :=
  p.workgroupSize.1 ≠ 0 ∧ p.workgroupSize.2.1 ≠ 0 ∧ p.workgroupSize.2.2 ≠ 0

theorem rejectNonRoundtrippableShapes_eq_ok :
    rejectNonRoundtrippableShapes p p.buffers = .ok () ↔
      PositiveWorkgroup p ∧ ∀ b ∈ p.buffers, EncodableShape b := by
  simp [rejectNonRoundtrippableShapes, rejectZeroAxis_eq_ok, forM_eq_ok, rejectBufferShape_eq_ok,
    PositiveWorkgroup, and_assoc]

def bodyBytes (p : Program) : List UInt8 :=
  nodesSectionBytes p ++ (lebBytes 10 p.buffers.length ++ regionsBytes 0 p.buffers) ++
    outputSetBytes p.buffers

def programBytes (host : Host) (p : Program) : List UInt8 :=
  putHeader host (bodyBytes p) ++ bodyBytes p

/-- The programs `to_wire` accepts. -/
structure EncodableProgram (p : Program) : Prop where
  workgroup : PositiveWorkgroup p
  shapes : ∀ b ∈ p.buffers, EncodableShape b
  nodes : EncodableNodesSection p
  regionIds : p.buffers.length ≤ 2 ^ 32
  elements : ∀ b ∈ p.buffers, EncodableElement b.element

theorem putBody_eq_ok : putBody p p.buffers = .ok bs ↔ EncodableProgram p ∧ bs = bodyBytes p := by
  simp only [putBody, bind_eq_ok, putNodesSection_eq_ok,
    putMemoryRegions, putMemoryRegionsFrom_eq_ok, putLebLen_eq_ok, putOutputSet, pure_eq_ok]
  constructor
  · rintro ⟨_, hreject, _, ⟨hn, rfl⟩, _, ⟨_, ⟨-, rfl⟩, _, ⟨⟨hids, he⟩, rfl⟩, rfl⟩, _,
      ⟨_, ⟨-, rfl⟩, _, ho, rfl⟩, rfl⟩
    obtain ⟨hw, hs⟩ := rejectNonRoundtrippableShapes_eq_ok.mp hreject
    rw [putOutputIndices_eq hids] at ho
    cases ho
    refine ⟨⟨hw, hs, hn, ?_, he⟩, rfl⟩
    rcases hids with hnil | hids
    · simp [hnil]
    · simpa using hids
  · rintro ⟨⟨hw, hs, hn, hids, he⟩, rfl⟩
    have hids' : p.buffers = [] ∨ 0 + p.buffers.length ≤ 2 ^ 32 := .inr (by simpa using hids)
    have hcount := outputCount_le p.buffers
    unfold outputCount at hcount
    exact ⟨(), rejectNonRoundtrippableShapes_eq_ok.mpr ⟨hw, hs⟩, _, ⟨hn, rfl⟩, _,
      ⟨_, ⟨hn.bufferCount, rfl⟩, _, ⟨⟨hids', he⟩, rfl⟩, rfl⟩,
      _, ⟨_, ⟨by omega, rfl⟩, _, putOutputIndices_eq hids', rfl⟩, rfl⟩

/-- The spec of `to_wire`. -/
theorem toWire_eq_ok {host : Host} :
    toWire host p = .ok bs ↔ EncodableProgram p ∧ bs = programBytes host p := by
  simp [toWire, toWireWithBufferOrder, putBody_eq_ok, programBytes, eq_comm (a := bs)]

end Vyre.Wire
