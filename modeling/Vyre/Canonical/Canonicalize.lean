import Mathlib.Data.List.Sort
import Vyre.Wire.Encode

/-!
# Canonicalization

`Program::canonicalized` of `ir_inner/model/program/canonical.rs`: buffer
declarations are sorted by `buffer_decl_canonical_key`, the operands of
commutative operators by the bytes `put_expr` writes for them, and blocks that
bind no name of their own are spliced into the list they stand in.

The module ends with the fixed point: canonicalizing twice is canonicalizing
once.
-/

namespace Vyre.Canonical

open ByteCodec Wire List

def isLiteral : Expr → Bool
  | .litU32 _ | .litI32 _ | .litF32 _ | .litBool _ => true
  | _ => false

def isCommutativeBinop : BinOp → Bool
  | .add | .wrappingAdd | .saturatingAdd | .mul | .saturatingMul | .bitAnd | .bitOr | .bitXor
  | .eq | .ne | .and | .or | .min | .max | .absDiff => true
  | _ => false

/-- The operators whose operands are sorted even when neither is a literal. -/
def canSortAllOperands : BinOp → Bool
  | .wrappingAdd | .saturatingAdd | .saturatingMul | .bitAnd | .bitOr | .bitXor
  | .eq | .ne | .and | .or | .absDiff => true
  | _ => false

/-- `append_expr_wire_key` on an empty key: the wire bytes, or a marker and the
diagnostic. `put_expr` does not panic (`Wire.putExpr_returns`). -/
def exprWireKey (e : Expr) : List UInt8 :=
  match putExpr e with
  | .ok bytes => bytes
  | .error (.error message) => utf8 "VYRE-CANONICAL-EXPR-WIRE-ERROR\x00" ++ utf8 message
  | .error .panicked => []

def shouldSwapOperands (op : BinOp) (left right : Expr) : Bool :=
  if isCommutativeBinop op then
    match isLiteral left, isLiteral right with
    | true, false => true
    | false, true => false
    | true, true => decide (exprWireKey right < exprWireKey left)
    | false, false => canSortAllOperands op && decide (exprWireKey right < exprWireKey left)
  else false

/-- The `BinOp` arm of `canonicalize_expr`, on canonical operands. -/
def sortOperands (op : BinOp) (left right : Expr) : Expr :=
  if shouldSwapOperands op left right then .binOp op right left else .binOp op left right

mutual

def canonicalizeExpr : Expr → Expr
  | .binOp op left right => sortOperands op (canonicalizeExpr left) (canonicalizeExpr right)
  | .unOp op operand => .unOp op (canonicalizeExpr operand)
  | .load buffer index => .load buffer (canonicalizeExpr index)
  | .call opId args => .call opId (canonicalizeArgs args)
  | .select cond trueVal falseVal =>
      .select (canonicalizeExpr cond) (canonicalizeExpr trueVal) (canonicalizeExpr falseVal)
  | .cast target value => .cast target (canonicalizeExpr value)
  | .fma a b c => .fma (canonicalizeExpr a) (canonicalizeExpr b) (canonicalizeExpr c)
  | .atomic op buffer index expected value ordering =>
      .atomic op buffer (canonicalizeExpr index) (canonicalizeExpected expected)
        (canonicalizeExpr value) ordering
  | .subgroupBallot cond => .subgroupBallot (canonicalizeExpr cond)
  | .subgroupShuffle value lane =>
      .subgroupShuffle (canonicalizeExpr value) (canonicalizeExpr lane)
  | .subgroupAdd value => .subgroupAdd (canonicalizeExpr value)
  | other => other

def canonicalizeExpected : Option Expr → Option Expr
  | none => none
  | some e => some (canonicalizeExpr e)

def canonicalizeArgs : List Expr → List Expr
  | [] => []
  | e :: es => canonicalizeExpr e :: canonicalizeArgs es

end

@[simp] theorem canonicalizeArgs_eq (es : List Expr) :
    canonicalizeArgs es = es.map canonicalizeExpr := by
  induction es with
  | nil => rfl
  | cons e es ih => rw [canonicalizeArgs, ih, map_cons]

@[simp] theorem canonicalizeExpected_eq (e : Option Expr) :
    canonicalizeExpected e = e.map canonicalizeExpr := by
  cases e <;> rfl

def isLet : Node → Bool
  | .letBind _ _ => true
  | _ => false

def canSpliceBlock (nodes : List Node) : Bool := nodes.all fun node => !isLet node

/-- `push_canonical_node`: what it appends. -/
def pushCanonicalNode : Node → List Node
  | .block children => if canSpliceBlock children then children else [.block children]
  | other => [other]

mutual

def canonicalizeNode : Node → Node
  | .letBind name value => .letBind name (canonicalizeExpr value)
  | .assign name value => .assign name (canonicalizeExpr value)
  | .store buffer index value => .store buffer (canonicalizeExpr index) (canonicalizeExpr value)
  | .ifThen cond thenNodes otherwise =>
      .ifThen (canonicalizeExpr cond) (canonicalizeNodes thenNodes) (canonicalizeNodes otherwise)
  | .loop var lo hi body =>
      .loop var (canonicalizeExpr lo) (canonicalizeExpr hi) (canonicalizeNodes body)
  | .block children => .block (canonicalizeNodes children)
  | .region generator sourceRegion body => .region generator sourceRegion (canonicalizeNodes body)
  | .asyncLoad source destination offset size tag =>
      .asyncLoad source destination (canonicalizeExpr offset) (canonicalizeExpr size) tag
  | .asyncStore source destination offset size tag =>
      .asyncStore source destination (canonicalizeExpr offset) (canonicalizeExpr size) tag
  | .trap address tag => .trap (canonicalizeExpr address) tag
  | other => other

def canonicalizeNodes : List Node → List Node
  | [] => []
  | node :: nodes => pushCanonicalNode (canonicalizeNode node) ++ canonicalizeNodes nodes

end

/-! ## Buffers -/

/-- What a writer has appended to its output when it returns, and whether it
went through. -/
abbrev Written := List UInt8 × Except EncodeFailure Unit

/-- A writer that checks before it appends. -/
def Written.ofPut : Put → Written
  | .ok bytes => (bytes, .ok ())
  | .error e => ([], .error e)

def Written.bytes (bytes : List UInt8) : Written := (bytes, .ok ())

/-- `first?; second`. -/
def Written.andThen (first second : Written) : Written :=
  match first.2 with
  | .ok () => (first.1 ++ second.1, second.2)
  | .error e => (first.1, .error e)

open Written

/-- `put_data_type` with the bytes it leaves behind when it fails. -/
def writeDataType : DataType → Written
  | .array elementSize => (bytes [0x08]).andThen (.ofPut (putRank elementSize.toNat
      "Fix: array element_size "
      " cannot fit the VIR0 u32 payload; cap the element size or extend the wire format."))
  | .vec element count =>
      ((bytes [0x14]).andThen (writeDataType element)).andThen (.bytes [count])
  | .tensorShaped element shape =>
      (((bytes [0x15]).andThen (writeDataType element)).andThen
        (.ofPut (putRank shape.length "Fix: tensor shape rank "
          " cannot fit the VIR0 u32 payload; cap rank before serialization."))).andThen
        (.bytes (shape.flatMap putU32))
  | .sparseCsr element => (bytes [0x16]).andThen (writeDataType element)
  | .sparseCoo element => (bytes [0x17]).andThen (writeDataType element)
  | .sparseBsr element blockRows blockCols =>
      ((bytes [0x18]).andThen (writeDataType element)).andThen
        (.bytes (putU32 blockRows ++ putU32 blockCols))
  | .deviceMesh axes =>
      ((bytes [0x1E]).andThen (.ofPut (putRank axes.length "Fix: device-mesh axes count "
        " cannot fit the VIR0 u32 payload; cap mesh rank before serialization."))).andThen
        (.bytes (axes.flatMap putU32))
  | .quantized storage scale zeroPoint =>
      if storage.isQuantizedStorage then
        (((bytes [0x1F]).andThen (writeDataType storage)).andThen
          (.ofPut (putQuantizationScale scale))).andThen
          (.ofPut (putQuantizationZeroPoint zeroPoint))
      else (bytes [0x1F]).andThen (.ofPut (.error (staticMsg
        "Fix: DataType::Quantized storage must be I4/I8/I16/U8/U16/F8E4M3/F8E5M2/FP4/NF4.")))
  | scalar => .ofPut (putDataType scalar)

/-- The result of a writer, once what it appended before a failure is dropped. -/
def Written.toPut (w : Written) : Put := w.2.map fun _ => w.1

theorem Written.toPut_andThen (first second : Written) :
    (first.andThen second).toPut =
      (do let bytes ← first.toPut; let bytes' ← second.toPut; return bytes ++ bytes') := by
  obtain ⟨bytes, result⟩ := first
  obtain ⟨bytes', result'⟩ := second
  cases result <;> cases result' <;> rfl

@[simp] theorem Written.toPut_ofPut (p : Put) : (ofPut p).toPut = p := by
  cases p <;> rfl

/-- `writeDataType` is `put_data_type` of the encoder. -/
theorem toPut_writeDataType (t : DataType) : (writeDataType t).toPut = putDataType t := by
  induction t with try simp only [writeDataType, putDataType, toPut_andThen, toPut_ofPut, *]
  | vec element count ih | sparseCsr element ih | sparseCoo element ih =>
    cases putDataType element <;> rfl
  | tensorShaped element shape ih =>
    generalize putRank shape.length _ _ = rank
    cases putDataType element <;> cases rank <;> rfl
  | sparseBsr element blockRows blockCols ih =>
    cases putDataType element <;>
      simp [Bind.bind, Except.bind, pure, Except.pure, toPut, Written.bytes, Except.map]
  | deviceMesh axes =>
    generalize putRank axes.length _ _ = rank
    cases rank <;> rfl
  | quantized storage scale zeroPoint ih =>
    split
    · simp only [toPut_andThen, ih]
      cases putDataType storage <;> cases putQuantizationScale scale <;>
        cases putQuantizationZeroPoint zeroPoint <;> rfl
    · rfl
  | _ => rfl

/-- The diagnostic as bytes; the writers used here do not panic. -/
def failureBytes : EncodeFailure → List UInt8
  | .error message => utf8 message
  | .panicked => []

/-- `u32::try_from`, its failure kept as `u32::MAX` and the text of
`TryFromIntError`. -/
def keyRangeEnd (value : UInt64) : List UInt8 :=
  if value.toNat < 2 ^ 32 then leBytes 4 value.toNat
  else putU32 0xFFFFFFFF ++ utf8 "out of range integral type conversion attempted"

def keyKind : MemoryKind → UInt8
  | .global => 0
  | .shared => 1
  | .uniform => 2
  | .local => 3
  | .readonly => 4
  | .persistent => 5
  | .push => 6

def keyName (name : Ident) : List UInt8 :=
  (match putLenU32 (utf8 name).length "buffer name length" with
    | .ok bytes => bytes
    | .error e => utf8 "\x00name-length-error\x00" ++ failureBytes e) ++ utf8 name

def keyElement (element : DataType) : List UInt8 :=
  match writeDataType element with
  | (bytes, .ok ()) => bytes
  | (bytes, .error e) => bytes ++ utf8 "\x00dtype-error\x00" ++ failureBytes e

def keyRange : Option (UInt64 × UInt64) → List UInt8
  | some range => 1 :: (keyRangeEnd range.1 ++ keyRangeEnd range.2)
  | none => [0]

def bufferDeclCanonicalKey (b : BufferDecl) : List UInt8 :=
  keyName b.name ++ putU32 b.binding ++ [accessTag b.access, keyKind b.kind] ++
    keyElement b.element ++ putU32 b.count ++ [flagByte b.isOutput, flagByte b.pipelineLiveOut] ++
    keyRange b.outputByteRange ++ putHintsPayload b.hints ++ [flagByte b.bytesExtraction]

/-- `sort_buffers`, a stable sort. -/
def sortBuffers (buffers : List BufferDecl) : List BufferDecl :=
  buffers.insertionSort fun a b => bufferDeclCanonicalKey a ≤ bufferDeclCanonicalKey b

def canonicalized (p : Program) : Program :=
  { p with entry := canonicalizeNodes p.entry, buffers := sortBuffers p.buffers }

def canonicalWireBytes (host : Host) (p : Program) : Put := toWire host (canonicalized p)

/-! ## The fixed point -/

theorem isLiteral_canonicalizeExpr (e : Expr) : isLiteral (canonicalizeExpr e) = isLiteral e := by
  cases e with
  | binOp op left right =>
    rw [canonicalizeExpr, sortOperands]
    split <;> rfl
  | _ => rfl

theorem shouldSwapOperands_swap {op : BinOp} {left right : Expr}
    (h : shouldSwapOperands op left right = true) : shouldSwapOperands op right left = false := by
  unfold shouldSwapOperands at h ⊢
  by_cases hop : isCommutativeBinop op = true
  · rw [if_pos hop] at h ⊢
    cases hl : isLiteral left <;> cases hr : isLiteral right <;>
      simp only [hl, hr, Bool.and_eq_true, decide_eq_true_eq] at h ⊢
    · simp [List.lt_asymm h.2]
    · cases h
    · simp [List.lt_asymm h]
  · rw [if_neg hop]

theorem sortOperands_idem {op : BinOp} {left right : Expr}
    (hleft : canonicalizeExpr left = left) (hright : canonicalizeExpr right = right) :
    canonicalizeExpr (sortOperands op left right) = sortOperands op left right := by
  by_cases h : shouldSwapOperands op left right = true
  · have hswap := shouldSwapOperands_swap h
    rw [sortOperands, if_pos h, canonicalizeExpr, hleft, hright, sortOperands, hswap]
    rfl
  · rw [sortOperands, if_neg h, canonicalizeExpr, hleft, hright, sortOperands, if_neg h]

theorem canonicalizeExpr_idem (e : Expr) :
    canonicalizeExpr (canonicalizeExpr e) = canonicalizeExpr e := by
  induction e with
  | binOp op left right ihl ihr =>
    exact sortOperands_idem ihl ihr
  | call opId args ih => simpa [canonicalizeExpr] using ih
  | atomic _ _ _ expected _ _ ihi ihe ihv =>
    cases expected with
    | none => simp [canonicalizeExpr, ihi, ihv]
    | some e => simp [canonicalizeExpr, ihi, ihv, ihe e rfl]
  | _ => simp_all [canonicalizeExpr]

/-- A list that splicing and canonicalizing leave alone. -/
def Settled (nodes : List Node) : Prop :=
  ∀ n ∈ nodes, canonicalizeNode n = n ∧ pushCanonicalNode n = [n]

theorem canonicalizeNodes_of_settled {nodes : List Node} (h : Settled nodes) :
    canonicalizeNodes nodes = nodes := by
  induction nodes with
  | nil => rfl
  | cons n ns ih =>
    obtain ⟨hn, hpush⟩ := h n mem_cons_self
    have hns := ih fun m hm => h m (mem_cons_of_mem n hm)
    rw [canonicalizeNodes, hn, hpush, hns, singleton_append]

theorem settled_push {n : Node} (hn : canonicalizeNode n = n)
    (hchildren : ∀ children, n = .block children → Settled children) :
    Settled (pushCanonicalNode n) := by
  have hself : pushCanonicalNode n = [n] → Settled (pushCanonicalNode n) := by
    intro hpush m hm
    rw [hpush, mem_singleton] at hm
    subst hm
    exact ⟨hn, hpush⟩
  cases n with
  | block children =>
    by_cases hsplice : canSpliceBlock children = true
    · rw [pushCanonicalNode, if_pos hsplice]
      exact hchildren children rfl
    · exact hself (if_neg hsplice)
  | _ => exact hself rfl

theorem settled_canonicalizeNodes {nodes : List Node}
    (h : ∀ n ∈ nodes, Settled (pushCanonicalNode (canonicalizeNode n))) :
    Settled (canonicalizeNodes nodes) := by
  induction nodes with
  | nil => exact fun n hn => absurd hn not_mem_nil
  | cons n ns ih =>
    intro m hm
    rcases mem_append.mp hm with hm | hm
    · exact h n mem_cons_self m hm
    · exact ih (fun m hm => h m (mem_cons_of_mem n hm)) m hm

theorem settled_canonicalizeNode (n : Node) :
    Settled (pushCanonicalNode (canonicalizeNode n)) := by
  induction n with
  | ifThen cond thenNodes otherwise iht iho =>
    have ht := canonicalizeNodes_of_settled (settled_canonicalizeNodes iht)
    have ho := canonicalizeNodes_of_settled (settled_canonicalizeNodes iho)
    refine settled_push ?_ nofun
    simp [canonicalizeNode, canonicalizeExpr_idem, ht, ho]
  | loop var lo hi body ih | region _ _ body ih =>
    have hb := canonicalizeNodes_of_settled (settled_canonicalizeNodes ih)
    refine settled_push ?_ nofun
    simp [canonicalizeNode, canonicalizeExpr_idem, hb]
  | block body ih =>
    have hsettled := settled_canonicalizeNodes ih
    have hb := canonicalizeNodes_of_settled hsettled
    apply settled_push
    · simp [canonicalizeNode, hb]
    · rintro children ⟨⟩
      exact hsettled
  | _ =>
    refine settled_push ?_ nofun
    simp [canonicalizeNode, canonicalizeExpr_idem]

theorem canonicalizeNodes_idem (nodes : List Node) :
    canonicalizeNodes (canonicalizeNodes nodes) = canonicalizeNodes nodes :=
  canonicalizeNodes_of_settled (settled_canonicalizeNodes fun n _ => settled_canonicalizeNode n)

instance : Std.Total fun a b : BufferDecl => bufferDeclCanonicalKey a ≤ bufferDeclCanonicalKey b :=
  ⟨fun _ _ => List.le_total _ _⟩

instance : IsTrans BufferDecl fun a b => bufferDeclCanonicalKey a ≤ bufferDeclCanonicalKey b :=
  ⟨fun _ _ _ => List.le_trans⟩

theorem pairwise_sortBuffers (buffers : List BufferDecl) :
    (sortBuffers buffers).Pairwise fun a b => bufferDeclCanonicalKey a ≤ bufferDeclCanonicalKey b :=
  pairwise_insertionSort _ buffers

theorem sortBuffers_idem (buffers : List BufferDecl) :
    sortBuffers (sortBuffers buffers) = sortBuffers buffers :=
  List.Pairwise.insertionSort_eq (pairwise_sortBuffers buffers)

theorem canonicalized_idem (p : Program) : canonicalized (canonicalized p) = canonicalized p := by
  simp only [canonicalized, canonicalizeNodes_idem, sortBuffers_idem]

end Vyre.Canonical
