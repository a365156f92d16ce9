import Vyre.Wire.RoundTrip

/-!
# Decoding an encoded program

The sections of a body, read back one by one and put together: `fromWire` on
the bytes of an encodable program succeeds exactly when the program keeps the
decoder's limits (`DecodableProgram`), and then returns `decoded p`.
-/

namespace Vyre.Wire

open ByteCodec UInt32
open Reader

@[simps] def metadataBuffer (b : BufferDecl) : BufferDecl where
  name := b.name
  binding := b.binding
  access := .readOnly
  kind := .readonly
  element := .u32
  count := b.count
  isOutput := b.isOutput
  pipelineLiveOut := b.pipelineLiveOut
  outputByteRange := b.outputByteRange
  hints := b.hints

/-- A buffer with the fields the wire format does not carry reset. -/
def wireBuffer (b : BufferDecl) : BufferDecl :=
  { b with bytesExtraction := false, linearType := .unrestricted, shapePredicate := none }

/-- What decoding the bytes of `p` gives. -/
def decoded (p : Program) : Program :=
  { p with entry := p.entry.map canonNode, buffers := p.buffers.map wireBuffer }

def ReadableElement : DataType → Prop
  | .vec _ _ | .tensorShaped _ _ => False
  | .ext id => DialectId id
  | _ => True

def ReadableRange (b : BufferDecl) : Prop :=
  ∀ range ∈ b.outputByteRange, range.1 ≤ range.2 ∧
    ∃ size ∈ b.element.sizeBytes, b.count.toNat * size < 2 ^ 64 ∧
      range.2.toNat ≤ b.count.toNat * size

structure ReadableBuffer (b : BufferDecl) : Prop where
  output : ¬ (b.count = 0 ∧ b.isOutput = true)
  liveOut : ¬ (b.count = 0 ∧ b.pipelineLiveOut = true)
  workgroup : ¬ (b.count = 0 ∧ b.access = .workgroup)
  element : ReadableElement b.element
  range : ReadableRange b

/-- The limits `from_wire` puts on a program. -/
@[mk_iff] structure DecodableProgram (host : Host) (p : Program) : Prop where
  bufferCount : p.buffers.length ≤ maxBuffers
  nodeCount : p.entry.length + 1 ≤ maxNodes
  buffers : ∀ b ∈ p.buffers, ReadableBuffer b
  limits : ∀ n ∈ p.entry, n.Forall (exprLimit host) (nodeLimit host)
  nesting : ∀ n ∈ p.entry, nodeNesting n ≤ maxDecodeDepth

section Forward

variable {host : Host} {chk : Checks} {d : Nat} {rest : List UInt8} {c' : Cursor}

theorem reads_hints {h a : MemoryHints} :
    Reads readHints ⟨putHintsPayload h ++ rest, d⟩ a c' ↔ c' = ⟨rest, d⟩ ∧ a = h := by
  obtain ⟨axis, align, locality⟩ := h
  cases axis <;> cases locality <;>
    simp [readHints, putHintsPayload, optionally, cacheLocality, localityTag]

theorem reads_outputRange {range a : UInt64 × UInt64} :
    Reads (outputRange chk) ⟨putLebU64 range.1 ++ (putLebU64 range.2 ++ rest), d⟩ a c' ↔
      range.1 ≤ range.2 ∧ c' = ⟨rest, d⟩ ∧ a = range := by
  simp [outputRange, putLebU64, reads_lebU64 (UInt64.toNat_lt _), UInt64.le_iff_toNat_le,
    and_left_comm]

variable {a : UInt32} {field : String} {b : BufferDecl} {p : Program} {index stack : Nat}
  {bs : List BufferDecl}

theorem reads_rangeBytes {range a : Option (UInt64 × UInt64)} :
    Reads (optionally field (outputRange chk)) ⟨rangeBytes range ++ rest, d⟩ a c' ↔
      (∀ r ∈ range, r.1 ≤ r.2) ∧ c' = ⟨rest, d⟩ ∧ a = range := by
  cases range with
  | none => simp [optionally, rangeBytes]
  | some r => simp [optionally, rangeBytes, reads_outputRange, and_assoc]

theorem reads_entryOpId {r a : Option String} (h : EncodableName r) :
    Reads (optionally field string) ⟨sourceRegionBytes r ++ rest, d⟩ a c' ↔
      c' = ⟨rest, d⟩ ∧ a = r := by
  cases r with
  | none => simp [optionally, sourceRegionBytes]
  | some name => simp [optionally, sourceRegionBytes, reads_string h]

theorem reads_bufferMetadata {a : BufferDecl} (h : StringFits b.name) :
    Reads (readBufferMetadata chk) ⟨bufferMetadataBytes b ++ rest, d⟩ a c' ↔
      (¬ (b.count = 0 ∧ b.isOutput = true) ∧ ¬ (b.count = 0 ∧ b.pipelineLiveOut = true) ∧
        ∀ r ∈ b.outputByteRange, r.1 ≤ r.2) ∧ c' = ⟨rest, d⟩ ∧ a = metadataBuffer b := by
  simp [readBufferMetadata, bufferMetadataBytes, reads_string h, reads_rangeBytes, reads_hints,
    metadataBuffer, and_assoc, imp_iff_not_or, -Bool.exists_bool]

theorem reads_strictFlag {b a : Bool} :
    Reads (strictFlag field) ⟨flagByte b :: rest, d⟩ a c' ↔ c' = ⟨rest, d⟩ ∧ a = b := by
  cases b <;> simp [strictFlag, flagByte]

theorem reads_marker {a : List UInt8} :
    Reads (Reader.take 9) ⟨metadataMarker ++ rest, d⟩ a c' ↔
      c' = ⟨rest, d⟩ ∧ a = metadataMarker :=
  reads_take_append rfl

def MetadataFits (b : BufferDecl) : Prop :=
  ¬ (b.count = 0 ∧ b.isOutput = true) ∧ ¬ (b.count = 0 ∧ b.pipelineLiveOut = true) ∧
    ∀ r ∈ b.outputByteRange, r.1 ≤ r.2

def programMetadata (p : Program) : Metadata where
  entryOpId := p.entryOpId
  workgroupSize := p.workgroupSize
  nonComposableWithSelf := p.nonComposableWithSelf
  buffers := p.buffers.map metadataBuffer

theorem reads_metadata (hp : EncodableProgram p) {a : Metadata} :
    Reads (readMetadata chk) ⟨metadataBytes p ++ rest, d⟩ a c' ↔
      (p.buffers.length ≤ maxBuffers ∧ ∀ b ∈ p.buffers, MetadataFits b) ∧ c' = ⟨rest, d⟩ ∧
        a = programMetadata p := by
  obtain ⟨hx, hy, hz⟩ := hp.workgroup
  have hbuffers : ∀ b ∈ p.buffers, ∀ rest a c', Reads (readBufferMetadata chk)
      ⟨bufferMetadataBytes b ++ rest, d⟩ a c' ↔
        MetadataFits b ∧ c' = ⟨rest, d⟩ ∧ a = metadataBuffer b := by
    intro b hb rest a c'
    exact reads_bufferMetadata (hp.nodes.names b hb)
  simp [readMetadata, metadataBytes, reads_marker, reads_entryOpId hp.nodes.entryOpId,
    validateWorkgroupSize, hx, hy, hz, reads_strictFlag, reads_lebLen hp.nodes.bufferCount,
    reads_many_flatMap hbuffers, programMetadata, and_assoc, -Bool.exists_bool]

theorem reads_lebString {s a : String} (hs : StringFits s) :
    Reads (lebString chk) ⟨lebBytes 10 (utf8 s).length ++ (utf8 s ++ rest), d⟩ a c' ↔
      c' = ⟨rest, d⟩ ∧ a = s := by
  have hmax : maxStringLen < 2 ^ 64 := by decide
  have hs' : (utf8 s).length ≤ maxStringLen := hs
  have hlen : (utf8 s).length < 2 ^ 64 := by omega
  simp [lebString, reads_lebLen hlen, hs', Reader.take]

theorem reads_nodeRecord {opId : String} {payload : List UInt8} (hs : StringFits opId)
    (hp : payload.length < 2 ^ 64) {a : String × List UInt8 × List UInt32} :
    Reads (readNodeRecord chk index) ⟨recordBytes opId payload ++ rest, d⟩ a c' ↔
      c' = ⟨rest, d⟩ ∧ a = (opId, payload, []) := by
  have hle : payload.length ≤ usizeLimit - 1 := by
    unfold usizeLimit
    omega
  simp [readNodeRecord, recordBytes, reads_lebString hs, reads_lebLen hp, hle, Reader.take,
    reads_lebLen (show (0 : Nat) < 2 ^ 64 by omega)]

theorem nodeOpId_fits {n : Node} (h : EncodableNode n) : StringFits (nodeOpId n) := by
  cases n with
  | ext x => exact h.1
  | _ =>
    simp only [nodeOpId]
    decide

theorem reads_entryNode (hchk : chk.guardTypes = false) {n a : Node} (hn : EncodableEntryNode n)
    (hinv : n.Forall (exprInverts host) (nodeInverts host)) (hs : (nodeBytes n).length ≤ stack) :
    Reads (readEntryNode host chk stack index) ⟨entryNodeBytes n ++ rest, d⟩ a c' ↔
      (n.Forall (exprLimit host) (nodeLimit host) ∧ nodeNesting n ≤ maxDecodeDepth) ∧
        c' = ⟨rest, d⟩ ∧ a = canonNode n := by
  obtain ⟨hn, -, hlen⟩ := hn
  have hop : nodeOpId (canonNode n) = nodeOpId n := by cases n <;> rfl
  have hnode := fun c' a => @reads_node host chk 0 [] c' stack hchk n a hn hinv hs
  simp only [List.append_nil] at hnode
  simp [readEntryNode, entryNodeBytes, reads_nodeRecord (nodeOpId_fits hn) hlen, reads_within,
    hnode]
  grind

def DecodableEntry (host : Host) (n : Node) : Prop :=
  n.Forall (exprLimit host) (nodeLimit host) ∧ nodeNesting n ≤ maxDecodeDepth

theorem entryNodeBytes_length (n : Node) : (nodeBytes n).length ≤ (entryNodeBytes n).length := by
  simp only [entryNodeBytes, recordBytes, List.length_append]
  omega

theorem reads_entryNodes (hchk : chk.guardTypes = false) {ns a : List Node}
    (hn : ∀ n ∈ ns, EncodableEntryNode n)
    (hinv : ∀ n ∈ ns, n.Forall (exprInverts host) (nodeInverts host))
    (hs : (ns.flatMap entryNodeBytes).length ≤ stack) :
    Reads (readEntryNodes host chk stack ns.length index)
        ⟨ns.flatMap entryNodeBytes ++ rest, d⟩ a c' ↔
      (∀ n ∈ ns, DecodableEntry host n) ∧ c' = ⟨rest, d⟩ ∧ a = ns.map canonNode := by
  induction ns generalizing index a with
  | nil => simp [readEntryNodes]
  | cons n ns ih =>
    rw [List.flatMap_cons, List.length_append] at hs
    have hhead : (nodeBytes n).length ≤ stack := by
      have := entryNodeBytes_length n
      omega
    have hfirst := fun rest a c' => @reads_entryNode host chk d rest c' index stack hchk n a
      (hn n (by simp)) (hinv n (by simp)) hhead
    have htail := fun a => @ih (index + 1) a (fun m hm => hn m (by simp [hm]))
      (fun m hm => hinv m (by simp [hm])) (by omega)
    simp [readEntryNodes, hfirst, htail, DecodableEntry, and_assoc]

theorem metadataOpId_fits : StringFits metadataOpId := by decide

theorem reads_nodesSection (hchk : chk.guardTypes = false) (hp : EncodableProgram p)
    (hinv : ∀ n ∈ p.entry, n.Forall (exprInverts host) (nodeInverts host))
    (hs : (p.entry.flatMap entryNodeBytes).length ≤ stack) {a : Metadata × List Node} :
    Reads (readNodes host chk stack) ⟨nodesSectionBytes p ++ rest, d⟩ a c' ↔
      (p.entry.length + 1 ≤ maxNodes ∧ (p.buffers.length ≤ maxBuffers ∧
        ∀ b ∈ p.buffers, MetadataFits b) ∧ ∀ n ∈ p.entry, DecodableEntry host n) ∧
        c' = ⟨rest, d⟩ ∧ a = (programMetadata p, p.entry.map canonNode) := by
  have hmeta := fun c' a => @reads_metadata chk 0 [] c' p hp a
  simp only [List.append_nil] at hmeta
  simp [readNodes, nodesSectionBytes, reads_lebLen hp.nodes.nodeCount,
    reads_nodeRecord metadataOpId_fits hp.nodes.metadata, reads_within, hmeta,
    reads_entryNodes hchk hp.nodes.entry hinv hs, and_assoc]

/-! ## Memory regions -/

theorem reads_lebParam {v : UInt32} :
    Reads (lebParam chk field) ⟨putLebU32 v ++ rest, d⟩ a c' ↔ c' = ⟨rest, d⟩ ∧ a = v := by
  have hv : v.toNat < 2 ^ 32 := v.toNat_lt
  have hv' : v.toNat < 2 ^ 64 := by omega
  simp only [Nat.reducePow] at hv
  simp [lebParam, putLebU32, reads_lebU64 hv', hv]

theorem reads_lebParam_zero :
    Reads (lebParam chk field) ⟨lebBytes 10 0 ++ rest, d⟩ a c' ↔ c' = ⟨rest, d⟩ ∧ a = 0 :=
  reads_lebParam (v := 0)

theorem reads_denseScale {s a : QuantizationScale} (hs : EncodableScale s) :
    Reads (readDenseQuantizationScale chk) ⟨denseScaleBytes s ++ rest, d⟩ a c' ↔
      c' = ⟨rest, d⟩ ∧ a = s := by
  cases s <;>
    simp_all [readDenseQuantizationScale, denseScaleBytes, EncodableScale, reads_lebU64,
      reads_lebParam, reads_lebParam_zero]

theorem reads_denseZeroPoint {z a : QuantizationZeroPoint} (hz : EncodableZeroPoint z) :
    Reads (readDenseQuantizationZeroPoint chk) ⟨denseZeroPointBytes z ++ rest, d⟩ a c' ↔
      c' = ⟨rest, d⟩ ∧ a = z := by
  cases z <;>
    simp_all [readDenseQuantizationZeroPoint, denseZeroPointBytes, EncodableZeroPoint,
      reads_lebU64, reads_lebParam, reads_lebParam_zero]

theorem reads_regionScalar_storage {t a : DataType} (h : t.isQuantizedStorage = true)
    {c : Cursor} :
    Reads (regionScalar (dataTypeTag t)) c a c' ↔ c' = c ∧ a = t := by
  cases t <;> cases h <;>
    simp [regionScalar, dataTypeTag, scalarFromTag, Except.mapError, eq_comm (a := a)]

theorem reads_element {t a : DataType} (ht : EncodableElement t) :
    Reads (readElement chk (dataTypeTag t)) ⟨elementShapeBytes t ++ rest, d⟩ a c' ↔
      ReadableElement t ∧ c' = ⟨rest, d⟩ ∧ a = t := by
  cases t with
  | array elementSize =>
    simp [readElement, dataTypeTag, elementShapeBytes, ReadableElement, putLebU64,
      reads_lebU64 (UInt64.toNat_lt _)]
  | handle id =>
    simp [readElement, dataTypeTag, elementShapeBytes, ReadableElement, reads_lebParam]
  | ext id =>
    simp [readElement, dataTypeTag, elementShapeBytes, ReadableElement, reads_lebParam, DialectId,
      and_assoc]
  | quantized storage scale zeroPoint =>
    obtain ⟨hq, hs, hz⟩ := ht
    have htag : (dataTypeTag storage).toNat < 256 := UInt8.toNat_lt _
    have htag' : (dataTypeTag storage).toNat < 2 ^ 64 := by omega
    simp [readElement, show dataTypeTag (.quantized storage scale zeroPoint) = 0x1F from rfl,
      elementShapeBytes, ReadableElement, reads_lebU64 htag', htag,
      reads_regionScalar_storage hq, hq, reads_denseScale hs, reads_denseZeroPoint hz]
  | vec element count | tensorShaped element shape =>
    simp [readElement, dataTypeTag, regionScalar, scalarFromTag, Except.mapError, ReadableElement]
  | sparseCsr _ | sparseCoo _ | sparseBsr _ _ _ | deviceMesh _ => exact ht.elim
  | _ =>
    simp [readElement, dataTypeTag, regionScalar, scalarFromTag, Except.mapError, ReadableElement,
      elementShapeBytes, eq_comm (a := a)]

theorem reads_shape (hb : EncodableElement b.element) {a : UInt32 × DataType} :
    Reads (readShape chk (dataTypeTag b.element)) ⟨shapeBytes b ++ rest, d⟩ a c' ↔
      ReadableElement b.element ∧ c' = ⟨rest, d⟩ ∧ a = (b.count, b.element) := by
  simp [readShape, shapeBytes, reads_lebParam, reads_element hb, and_assoc]

theorem reads_memoryKind {k a : MemoryKind} :
    Reads memoryKind ⟨memoryKindTag k :: rest, d⟩ a c' ↔ c' = ⟨rest, d⟩ ∧ a = k := by
  cases k <;> simp [memoryKind, memoryKindTag]

theorem reads_bufferAccess {k a : BufferAccess} :
    Reads bufferAccess ⟨accessTag k :: rest, d⟩ a c' ↔ c' = ⟨rest, d⟩ ∧ a = k := by
  cases k <;> simp [bufferAccess, accessTag]

/-- `validate_output_range_fits` on an encoded buffer. -/
def RangeFits (b : BufferDecl) : Prop :=
  ∀ range ∈ b.outputByteRange, ∃ size ∈ b.element.sizeBytes, b.count.toNat * size < 2 ^ 64 ∧
    range.2.toNat ≤ b.count.toNat * size

theorem reads_validateOutputRangeFits {c : Cursor} {u : Unit} :
    Reads (validateOutputRangeFits (metadataBuffer b) b.element b.count) c u c' ↔
      RangeFits b ∧ c' = c := by
  unfold validateOutputRangeFits RangeFits metadataBuffer
  cases b.outputByteRange with
  | none => simp
  | some range =>
    cases hs : b.element.sizeBytes with
    | none => simp
    | some size =>
      by_cases hmul : b.count.toNat * size < 18446744073709551616 <;>
        simp [checkedMul, usizeLimit, hmul]

@[mk_iff] structure RegionFits (b : BufferDecl) : Prop where
  element : ReadableElement b.element
  workgroup : ¬ (b.count = 0 ∧ b.access = .workgroup)
  output : ¬ (b.count = 0 ∧ b.isOutput = true)
  liveOut : ¬ (b.count = 0 ∧ b.pipelineLiveOut = true)
  range : RangeFits b

theorem reads_lebU32_index (hi : index < 2 ^ 32) :
    Reads (lebU32 chk) ⟨lebBytes 10 index ++ rest, d⟩ a c' ↔
      c' = ⟨rest, d⟩ ∧ a = ofNat index := by
  rw [← reads_lebU32, putLebU32, toNat_ofNat', Nat.mod_eq_of_lt hi]

theorem reads_memoryRegion (hi : index < 2 ^ 32) {a : BufferDecl}
    (hb : EncodableElement b.element) :
    Reads (readMemoryRegion chk index (metadataBuffer b)) ⟨regionBytes index b ++ rest, d⟩ a c' ↔
      RegionFits b ∧ c' = ⟨rest, d⟩ ∧ a = wireBuffer b := by
  have hshapeLen := shapeBytes_length b
  have hhintsLen := putHintsPayload_length b.hints
  have hshape := fun c' a => @reads_shape chk 0 [] c' b hb a
  have hhints := fun c' a => @reads_hints 0 [] c' b.hints a
  simp only [List.append_nil] at hshape hhints
  have hs64 : (shapeBytes b).length ≤ 64 := by omega
  have hh64 : (putHintsPayload b.hints).length ≤ 64 := by omega
  have hmod : index % 4294967296 = index := Nat.mod_eq_of_lt hi
  have hs' : (shapeBytes b).length < 2 ^ 64 := by omega
  have hh' : (putHintsPayload b.hints).length < 2 ^ 64 := by omega
  simp [readMemoryRegion, regionBytes, reads_lebU32_index hi, hmod, reads_memoryKind,
    reads_bufferAccess, reads_lebLen hs', hs64, Reader.take, reads_within, hshape,
    reads_lebLen hh', hh64, hhints, reads_validateOutputRangeFits, wireBuffer, imp_iff_not_or,
    regionFits_iff, and_assoc]

theorem reads_memoryRegionsFrom {a : List BufferDecl} (hi : bs = [] ∨ index + bs.length ≤ 2 ^ 32)
    (hb : ∀ b ∈ bs, EncodableElement b.element) :
    Reads (readMemoryRegionsFrom chk index (bs.map metadataBuffer))
        ⟨regionsBytes index bs ++ rest, d⟩ a c' ↔
      (∀ b ∈ bs, RegionFits b) ∧ c' = ⟨rest, d⟩ ∧ a = bs.map wireBuffer := by
  induction bs generalizing index a with
  | nil => simp [readMemoryRegionsFrom, regionsBytes]
  | cons b bs ih =>
    have hlen : index + (bs.length + 1) ≤ 2 ^ 32 := by simpa using hi
    have htail := fun a => @ih (index + 1) a (.inr (by omega)) (fun x hx => hb x (by simp [hx]))
    have hhead := fun rest a c' => @reads_memoryRegion chk d rest c' b index (by omega) a
      (hb b (by simp))
    simp [readMemoryRegionsFrom, regionsBytes, hhead, htail, and_assoc]

/-! ## Output set -/

/-- The positions of the writable buffers, counted from `index`. -/
def outputIndices (index : Nat) : List BufferDecl → List Nat
  | [] => []
  | b :: bs => (if isOutputAccess b.access then [index] else []) ++ outputIndices (index + 1) bs

theorem outputIndexBytes_eq (index : Nat) (bs : List BufferDecl) :
    outputIndexBytes index bs = (outputIndices index bs).flatMap (lebBytes 10) := by
  induction bs generalizing index with
  | nil => rfl
  | cons b bs ih =>
    rw [outputIndexBytes, outputIndices, ih]
    split <;> simp

theorem outputCount_eq (index : Nat) (bs : List BufferDecl) :
    outputCount bs = (outputIndices index bs).length := by
  induction bs generalizing index with
  | nil => rfl
  | cons b bs ih =>
    rw [outputIndices, List.length_append, ← ih (index + 1)]
    by_cases hb : isOutputAccess b.access <;> simp [outputCount, hb]
    omega

theorem filter_range' (index : Nat) (bs : List BufferDecl) :
    ((List.range' index bs.length).filter fun i =>
      match bs[i - index]? with
      | some b => isOutputAccess b.access
      | none => false) = outputIndices index bs := by
  induction bs generalizing index with
  | nil => rfl
  | cons b bs ih =>
    rw [outputIndices, ← ih (index + 1), List.length_cons, List.range'_succ, List.filter_cons]
    have htail : ((List.range' (index + 1) bs.length).filter fun i =>
        match (b :: bs)[i - index]? with
        | some b => isOutputAccess b.access
        | none => false) = (List.range' (index + 1) bs.length).filter fun i =>
        match bs[i - (index + 1)]? with
        | some b => isOutputAccess b.access
        | none => false := by
      apply List.filter_congr
      intro i hi
      have hle : index + 1 ≤ i := (List.mem_range'_1.mp hi).1
      have hsub : i - index = i - (index + 1) + 1 := by omega
      rw [hsub, List.getElem?_cons_succ]
    rw [htail]
    by_cases hb : isOutputAccess b.access <;> simp [hb]

theorem canonicalOutputIndices_eq (bs : List BufferDecl) :
    canonicalOutputIndices bs = outputIndices 0 bs := by
  rw [← filter_range', canonicalOutputIndices, List.range_eq_range']
  rfl

theorem outputIndices_wireBuffer (index : Nat) (bs : List BufferDecl) :
    outputIndices index (bs.map wireBuffer) = outputIndices index bs := by
  induction bs generalizing index with
  | nil => rfl
  | cons b bs ih => simp [outputIndices, ih, wireBuffer]

theorem reads_outputIndices {buffers : List BufferDecl} {indices : List Nat}
    (hmem : ∀ i ∈ indices, i < 2 ^ 32 ∧ ∃ b, buffers[i]? = some b ∧ isOutputAccess b.access = true)
    (hsorted : indices.Pairwise (· < ·)) {previous : Option UInt32}
    (hprev : ∀ p ∈ previous, ∀ i ∈ indices, p.toNat < i) {a : List UInt32} :
    Reads (readOutputIndices chk buffers indices.length previous)
        ⟨indices.flatMap (lebBytes 10) ++ rest, d⟩ a c' ↔
      c' = ⟨rest, d⟩ ∧ a = indices.map ofNat := by
  induction indices generalizing previous a with
  | nil => simp [readOutputIndices]
  | cons i indices ih =>
    obtain ⟨hi, b, hb, hout⟩ := hmem i (by simp)
    have hmod : i % 4294967296 = i := Nat.mod_eq_of_lt hi
    obtain ⟨hlt, hrest⟩ := List.pairwise_cons.mp hsorted
    have htail := fun a => @ih (fun j hj => hmem j (by simp [hj])) hrest (some (ofNat i))
      (by
        intro p hp j hj
        cases hp
        rw [toNat_ofNat', Nat.mod_eq_of_lt hi]
        exact hlt j hj) a
    have hp : previous.all (· < ofNat i) = true := by
      cases previous with
      | none => rfl
      | some p =>
        have := hprev p rfl i (by simp)
        simpa [lt_iff_toNat_lt, hmod] using this
    simp [readOutputIndices, reads_lebU32_index hi, hmod, hb, hout, hp, htail]

theorem outputIndices_mem {i : Nat} (h : i ∈ outputIndices index bs) :
    index ≤ i ∧ i < index + bs.length ∧ ∃ b, bs[i - index]? = some b ∧
      isOutputAccess b.access = true := by
  rw [← filter_range', List.mem_filter, List.mem_range'_1] at h
  obtain ⟨⟨hle, hlt⟩, hout⟩ := h
  refine ⟨hle, hlt, ?_⟩
  split at hout
  · rename_i b hb
    exact ⟨b, hb, hout⟩
  · cases hout

theorem outputIndices_sorted (index : Nat) (bs : List BufferDecl) :
    (outputIndices index bs).Pairwise (· < ·) := by
  rw [← filter_range']
  exact List.Pairwise.filter _ List.pairwise_lt_range'

theorem reads_outputSet (hlen : bs.length ≤ 2 ^ 32) {a : List UInt32} :
    Reads (readOutputSet chk (bs.map wireBuffer)) ⟨outputSetBytes bs ++ rest, d⟩ a c' ↔
      outputCount bs ≤ maxBuffers ∧ c' = ⟨rest, d⟩ ∧ a = (outputIndices 0 bs).map ofNat := by
  have hsmall : ∀ i ∈ outputIndices 0 bs, i < 2 ^ 32 := by
    intro i hi
    have := (outputIndices_mem hi).2.1
    omega
  have hmem : ∀ i ∈ outputIndices 0 bs, i < 2 ^ 32 ∧
      ∃ b, (bs.map wireBuffer)[i]? = some b ∧ isOutputAccess b.access = true := by
    intro i hi
    rw [← outputIndices_wireBuffer] at hi
    obtain ⟨-, hlt, b, hb, hout⟩ := outputIndices_mem hi
    rw [outputIndices_wireBuffer] at hi
    exact ⟨hsmall i hi, b, hb, hout⟩
  have hcount : outputCount bs < 2 ^ 64 := by
    have := outputCount_le bs
    omega
  have hback : ((outputIndices 0 bs).map ofNat).map (·.toNat) = outputIndices 0 bs := by
    rw [List.map_map]
    refine (List.map_congr_left fun i hi => ?_).trans (List.map_id _)
    rw [Function.comp_apply, toNat_ofNat', Nat.mod_eq_of_lt (hsmall i hi)]
    rfl
  have hread := fun c' a => @reads_outputIndices chk d rest c' _ _ hmem
    (outputIndices_sorted 0 bs) none (by simp) a
  rw [← outputCount_eq] at hread
  have hcheck : (((outputIndices 0 bs).map ofNat).map (·.toNat) ==
      canonicalOutputIndices (bs.map wireBuffer)) = true := by
    rw [hback, canonicalOutputIndices_eq, outputIndices_wireBuffer]
    exact beq_self_eq_true _
  simp only [readOutputSet, outputSetBytes, outputIndexBytes_eq, List.append_assoc, reads_bind,
    reads_lebLen hcount]
  constructor
  · rintro ⟨_, _, ⟨hmax, rfl, rfl⟩, indices, m, hr, u, m', hc, hp⟩
    obtain ⟨rfl, rfl⟩ := (hread _ _).mp hr
    obtain ⟨-, rfl⟩ := reads_ensure.mp hc
    exact ⟨hmax, reads_pure.mp hp⟩
  · rintro ⟨hmax, rfl, rfl⟩
    exact ⟨_, _, ⟨hmax, rfl, rfl⟩, _, _, (hread _ _).mpr ⟨rfl, rfl⟩, (), _,
      reads_ensure.mpr ⟨hcheck, rfl⟩, reads_pure.mpr ⟨rfl, rfl⟩⟩

theorem readableBuffer_iff : ReadableBuffer b ↔ MetadataFits b ∧ RegionFits b := by
  constructor
  · intro h
    exact ⟨⟨h.output, h.liveOut, fun r hr => (h.range r hr).1⟩,
      ⟨h.element, h.workgroup, h.output, h.liveOut, fun r hr => (h.range r hr).2⟩⟩
  · rintro ⟨⟨-, -, horder⟩, h⟩
    exact ⟨h.output, h.liveOut, h.workgroup, h.element,
      fun r hr => ⟨horder r hr, h.range r hr⟩⟩

theorem reads_body (hchk : chk.guardTypes = false) {a : Program} (hp : EncodableProgram p)
    (hinv : ∀ n ∈ p.entry, n.Forall (exprInverts host) (nodeInverts host))
    (hs : (bodyBytes p).length ≤ stack) :
    Reads (readBody host chk stack) ⟨bodyBytes p ++ rest, d⟩ a c' ↔
      DecodableProgram host p ∧ c' = ⟨rest, d⟩ ∧ a = decoded p := by
  have hs' : (p.entry.flatMap entryNodeBytes).length ≤ stack := by
    simp only [bodyBytes, nodesSectionBytes, List.length_append] at hs
    omega
  have hids : p.buffers = [] ∨ 0 + p.buffers.length ≤ 2 ^ 32 := by
    have := hp.regionIds
    exact .inr (by omega)
  have hcount := outputCount_le p.buffers
  simp [readBody, bodyBytes, reads_nodesSection hchk hp hinv hs', programMetadata,
    readMemoryRegions, reads_lebLen hp.nodes.bufferCount, reads_memoryRegionsFrom hids hp.elements,
    reads_outputSet hp.regionIds, decoded, decodableProgram_iff, readableBuffer_iff, DecodableEntry]
  grind

end Forward

section Header

variable {host : Host} {chk : Checks}

theorem putHeader_length (host : Host) (body : List UInt8) : (putHeader host body).length = 40 := by
  simp [putHeader, host.blake3_length, magic]

variable {q : Program}

/-- `from_wire` behind the header that `to_wire` writes. -/
theorem fromWireWith_header {stack : Nat} {body : List UInt8} :
    fromWireWith host chk stack (putHeader host body ++ body) = .ok q ↔
      40 + body.length ≤ maxProgramBytes ∧
        ∃ d, Reads (readBody host chk stack) ⟨body, 0⟩ q ⟨[], d⟩ := by
  have hdigest := host.blake3_length body
  have hdrop : (putHeader host body ++ body).drop 40 = body :=
    List.drop_left' (putHeader_length host body)
  have hhash : ((putHeader host body ++ body).drop 8).take 32 = host.blake3 body := by
    simp [putHeader, magic, leBytes, ← hdigest]
  have hmagic : (putHeader host body ++ body).take 4 = magic := by
    simp [putHeader, magic]
  have hversion :
      ofLeBytes (((putHeader host body ++ body).drop 4).take 2) = wireFormatVersion := by
    simp [putHeader, magic, leBytes, ofLeBytes, wireFormatVersion]
  have hflags :
      ofLeBytes (((putHeader host body ++ body).drop 6).take 2) = flagOpaqueEndianFixed := by
    simp [putHeader, magic, leBytes, ofLeBytes, flagOpaqueEndianFixed]
  have hlen : (putHeader host body ++ body).length = 40 + body.length := by
    rw [List.length_append, putHeader_length]
  unfold fromWireWith
  rw [hlen]
  by_cases hmax : maxProgramBytes < 40 + body.length
  · rw [if_pos hmax]
    simp only [reduceCtorEq, false_iff]
    rintro ⟨h, -⟩
    omega
  · rw [if_neg hmax, if_neg (not_not.mpr hmagic), if_neg (by omega), if_neg (not_not.mpr hversion),
      if_neg (by omega), hflags, if_neg (by decide), if_neg (by decide), hdrop, hhash,
      if_neg (not_not.mpr rfl)]
    rw [run_fst_eq_ok]
    simp only [reads_within, exists_eq_left]
    exact ⟨fun h => ⟨by omega, h⟩, fun h => h.2⟩

/-- The spec of `from_wire` on encoded programs. -/
theorem fromWireWith_programBytes (hchk : chk.guardTypes = false) {stack : Nat} {p : Program}
    (hp : EncodableProgram p) (hinv : ∀ n ∈ p.entry, n.Forall (exprInverts host) (nodeInverts host))
    (hs : (bodyBytes p).length ≤ stack) :
    fromWireWith host chk stack (programBytes host p) = .ok q ↔
      (programBytes host p).length ≤ maxProgramBytes ∧ DecodableProgram host p ∧
        q = decoded p := by
  have hbody := fun d => @reads_body host chk 0 [] ⟨[], d⟩ p stack hchk q hp hinv hs
  simp only [List.append_nil] at hbody
  rw [programBytes, fromWireWith_header, List.length_append, putHeader_length]
  simp only [hbody]
  grind

theorem fromWire_programBytes {p : Program} (hp : EncodableProgram p)
    (hinv : ∀ n ∈ p.entry, n.Forall (exprInverts host) (nodeInverts host)) :
    fromWire host (programBytes host p) = .ok q ↔
      (programBytes host p).length ≤ maxProgramBytes ∧ DecodableProgram host p ∧
        q = decoded p := by
  refine fromWireWith_programBytes rfl hp hinv ?_
  rw [programBytes, List.length_append]
  omega

theorem Host.Inverts.node_forall (h : host.Inverts) (n : Node) :
    n.Forall (exprInverts host) (nodeInverts host) := by
  apply Node.forall_of_all
  · intro e
    cases e with
    | ext x => exact h.expr x
    | _ => trivial
  · intro n
    cases n with
    | ext x => exact h.node x
    | _ => trivial

/-- The buffer fields the wire format carries agree. -/
structure SameWireBuffer (a b : BufferDecl) : Prop where
  name : a.name = b.name
  binding : a.binding = b.binding
  access : a.access = b.access
  kind : a.kind = b.kind
  element : a.element = b.element
  count : a.count = b.count
  isOutput : a.isOutput = b.isOutput
  pipelineLiveOut : a.pipelineLiveOut = b.pipelineLiveOut
  outputByteRange : a.outputByteRange = b.outputByteRange
  hints : a.hints = b.hints

theorem sameWireBuffer_wireBuffer (b : BufferDecl) : SameWireBuffer (wireBuffer b) b :=
  ⟨rfl, rfl, rfl, rfl, rfl, rfl, rfl, rfl, rfl, rfl⟩

/-- Decoding what `to_wire` produced gives the program back. -/
theorem fromWire_toWire_lossless (host : Host) (hinv : host.Inverts) {p q : Program}
    {bytes : List UInt8} (henc : toWire host p = .ok bytes) (hdec : fromWire host bytes = .ok q) :
    q.entry.map canonNode = p.entry.map canonNode ∧ q.workgroupSize = p.workgroupSize ∧
      List.Forall₂ SameWireBuffer q.buffers p.buffers := by
  obtain ⟨hp, rfl⟩ := toWire_eq_ok.mp henc
  obtain ⟨-, -, rfl⟩ := (fromWire_programBytes hp fun n _ => hinv.node_forall n).mp hdec
  refine ⟨?_, rfl, ?_⟩
  · simp only [decoded, List.map_map]
    exact List.map_congr_left fun n _ => canonNode_idem n
  · rw [decoded, List.forall₂_map_left_iff]
    exact List.forall₂_same.mpr fun b _ => sameWireBuffer_wireBuffer b

def plainHost : Host where
  blake3 _ := List.replicate 32 0
  blake3_length _ := List.length_replicate
  decodeOpaqueExpr kind _ := .error s!"unknown extension {kind}"
  decodeOpaqueNode kind _ := .error s!"unknown extension {kind}"

theorem plainHost_inverts : plainHost.Inverts where
  expr _ _ h := by cases h
  node _ _ h := by cases h

def counterProgram : Program :=
  .newRaw [{ BufferDecl.readWrite "hits" 0 .u32 with count := 4, isOutput := true }] (64, 1, 1)
    [.ifThen (.binOp .lt (.invocationId 0) (.bufLen "hits"))
      [.letBind "old" (.atomic .add "hits" (.litU32 0) none (.invocationId 0) .seqCst),
        .store "hits" (.litU32 1) (.cast .u32 (.litF32 0x80000000))] []]

theorem counterProgram_encodable : EncodableProgram counterProgram where
  workgroup := ⟨by decide, by decide, by decide⟩
  shapes := List.forall_mem_singleton.mpr
    ⟨by decide, by decide, by simp [EncodableRange, BufferDecl.readWrite, BufferDecl.storage]⟩
  nodes := by
    have hhits : StringFits "hits" := by decide
    have hold : StringFits "old" := by decide
    refine ⟨trivial, List.forall_mem_singleton.mpr hhits, by decide, by decide, by decide,
      List.forall_mem_singleton.mpr ⟨?_, by decide, by decide⟩⟩
    simp [EncodableNode, EncodableNodes, EncodableExpr, EncodableExpected, EncodableType, hhits,
      hold]
  regionIds := by decide
  elements := List.forall_mem_singleton.mpr trivial

theorem counterProgram_decodable : DecodableProgram plainHost counterProgram where
  bufferCount := by decide
  nodeCount := by decide
  buffers := List.forall_mem_singleton.mpr ⟨by decide, by decide, by decide, trivial,
    by simp [ReadableRange, BufferDecl.readWrite, BufferDecl.storage]⟩
  limits := by
    refine List.forall_mem_singleton.mpr ?_
    simp [Node.Forall, Expr.Forall, exprLimit, nodeLimit,
      maxNodes, ReadableBinOp, ReadableAtomicOp, ReadableType]
  nesting := List.forall_mem_singleton.mpr (by decide)

theorem fromWire_toWire_lossless_counter : ∃ bytes q,
    toWire plainHost counterProgram = .ok bytes ∧ fromWire plainHost bytes = .ok q ∧
      q.entry.map canonNode = counterProgram.entry.map canonNode ∧
      q.workgroupSize = counterProgram.workgroupSize ∧
      List.Forall₂ SameWireBuffer q.buffers counterProgram.buffers := by
  have henc := @toWire_eq_ok _ _ plainHost |>.mpr ⟨counterProgram_encodable, rfl⟩
  have hdec := (fromWire_programBytes counterProgram_encodable
    fun n _ => plainHost_inverts.node_forall n).mpr
      ⟨by decide +kernel, counterProgram_decodable, rfl⟩
  exact ⟨_, _, henc, hdec, fromWire_toWire_lossless plainHost plainHost_inverts henc hdec⟩

end Header

end Vyre.Wire
