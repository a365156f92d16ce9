import Vyre.Wire.ProgramRoundTrip

/-!
# What the encoder accepts and the decoder refuses

The decoder caps nesting, list lengths and buffer counts; the encoder does not.
For programs of built-in parts whose buffers have a shape both sides agree on,
these caps are the only difference.
-/

namespace Vyre.Wire

open ByteCodec

def BuiltInType : DataType → Prop
  | .ext _ => False
  | .vec element _ => BuiltInType element
  | .tensorShaped element _ => BuiltInType element
  | .sparseCsr element => BuiltInType element
  | .sparseCoo element => BuiltInType element
  | .sparseBsr element _ _ => BuiltInType element
  | .quantized storage _ _ => BuiltInType storage
  | _ => True

def builtInExpr : Expr → Prop
  | .ext _ => False
  | .binOp (.ext _) _ _ => False
  | .unOp (.ext _) _ => False
  | .atomic (.ext _) _ _ _ _ _ => False
  | .cast target _ => BuiltInType target
  | _ => True

def builtInNode : Node → Prop
  | .ext _ => False
  | _ => True

/-- Built only from built-in nodes, expressions and types. -/
structure BuiltIn (p : Program) : Prop where
  entry : ∀ n ∈ p.entry, n.Forall builtInExpr builtInNode
  buffers : ∀ b ∈ p.buffers, BuiltInType b.element

/-- `MAX_ARGS` is kept. -/
def argLimit : Expr → Prop
  | .call _ args => args.length ≤ maxArgs
  | _ => True

/-- `MAX_NODES` is kept by the lists of a statement. -/
def listLimit : Node → Prop
  | .ifThen _ thenNodes otherwise => thenNodes.length ≤ maxNodes ∧ otherwise.length ≤ maxNodes
  | .loop _ _ _ body | .block body | .region _ _ body => body.length ≤ maxNodes
  | _ => True

/-- The caps of the decoder: buffers, entry statements (the metadata record is
one more), lists, call arguments and nesting. -/
structure WithinLimits (p : Program) : Prop where
  bufferCount : p.buffers.length ≤ maxBuffers
  nodeCount : p.entry.length + 1 ≤ maxNodes
  lists : ∀ n ∈ p.entry, n.Forall argLimit listLimit
  nesting : ∀ n ∈ p.entry, nodeNesting n ≤ maxDecodeDepth

/-- Buffer shapes on which encoder and decoder agree: an output buffer has a
count, an output range is over a counted buffer, and the element is not one of
the two wrappers the region section cannot carry. -/
structure RegularBuffer (b : BufferDecl) : Prop where
  output : b.isOutput = true → b.count ≠ 0
  range : b.outputByteRange ≠ none → b.count ≠ 0
  vec : ∀ element count, b.element ≠ .vec element count
  tensor : ∀ element shape, b.element ≠ .tensorShaped element shape

theorem ReadableType.of_builtIn {t : DataType} (h : BuiltInType t) : ReadableType t := by
  induction t with
  | ext id => exact h.elim
  | vec _ _ ih | tensorShaped _ _ ih | sparseCsr _ ih | sparseCoo _ ih | sparseBsr _ _ _ ih
  | quantized _ _ _ ih => exact ih h
  | _ => trivial

variable (host : Host)

theorem exprInverts_of_builtIn {e : Expr} (h : builtInExpr e) :
    exprInverts host e := by
  cases e with
  | ext x => exact h.elim
  | _ => trivial

theorem nodeInverts_of_builtIn {n : Node} (h : builtInNode n) :
    nodeInverts host n := by
  cases n with
  | ext x => exact h.elim
  | _ => trivial

theorem exprLimit_iff_of_builtIn {e : Expr} (h : builtInExpr e) :
    exprLimit host e ↔ argLimit e := by
  cases e with
  | ext x => exact h.elim
  | binOp op _ _ | unOp op _ | atomic op _ _ _ _ _ =>
    cases op <;> first | exact h.elim | exact Iff.rfl
  | cast target value => exact iff_of_true (ReadableType.of_builtIn h) trivial
  | _ => exact Iff.rfl

theorem nodeLimit_iff_of_builtIn {n : Node} (h : builtInNode n) :
    nodeLimit host n ↔ listLimit n := by
  cases n with
  | ext x => exact h.elim
  | _ => exact Iff.rfl

theorem forall_limit_iff_of_builtIn {n : Node}
    (h : n.Forall builtInExpr builtInNode) :
    n.Forall (exprLimit host) (nodeLimit host) ↔ n.Forall argLimit listLimit := by
  constructor <;> intro hn <;> refine (h.and hn).imp (fun e he => ?_) fun n hn => ?_
  · exact (exprLimit_iff_of_builtIn host he.1).mp he.2
  · exact (nodeLimit_iff_of_builtIn host hn.1).mp hn.2
  · exact (exprLimit_iff_of_builtIn host he.1).mpr he.2
  · exact (nodeLimit_iff_of_builtIn host hn.1).mpr hn.2

theorem ReadableBuffer.of_regular {b : BufferDecl} (hshape : EncodableShape b)
    (hb : RegularBuffer b) (hbuilt : BuiltInType b.element) : ReadableBuffer b where
  output := fun h => hb.output h.2 h.1
  liveOut := hshape.liveOut
  workgroup := hshape.workgroup
  element := by
    cases he : b.element with
    | ext id =>
      rw [he] at hbuilt
      exact hbuilt.elim
    | vec element count => exact (hb.vec element count he).elim
    | tensorShaped element shape => exact (hb.tensor element shape he).elim
    | _ => trivial
  range := by
    intro range hr
    obtain ⟨hle, hfit⟩ := hshape.range range hr
    have hne : b.outputByteRange ≠ none := by
      rw [Option.mem_def] at hr
      simp [hr]
    exact ⟨hle, hfit.resolve_left (hb.range hne)⟩

/-- On regular programs the decoder accepts what the encoder wrote exactly when
its caps are kept. -/
theorem fromWire_accepts_iff_withinLimits (host : Host) {p : Program} {bytes : List UInt8}
    (hbuilt : BuiltIn p) (hregular : ∀ b ∈ p.buffers, RegularBuffer b)
    (henc : toWire host p = .ok bytes) (hsize : bytes.length ≤ maxProgramBytes) :
    (∃ q, fromWire host bytes = .ok q) ↔ WithinLimits p := by
  obtain ⟨hp, rfl⟩ := toWire_eq_ok.mp henc
  have hinv : ∀ n ∈ p.entry, n.Forall (exprInverts host) (nodeInverts host) := fun n hn =>
    (hbuilt.entry n hn).imp (fun _ => exprInverts_of_builtIn host)
      fun _ => nodeInverts_of_builtIn host
  have hlimit := fun n hn => forall_limit_iff_of_builtIn host (hbuilt.entry n hn)
  simp only [fromWire_programBytes hp hinv, hsize, true_and, exists_and_left, exists_eq, and_true]
  constructor
  · intro h
    exact ⟨h.bufferCount, h.nodeCount, fun n hn => (hlimit n hn).mp (h.limits n hn), h.nesting⟩
  · intro h
    exact ⟨h.bufferCount, h.nodeCount,
      fun b hb => .of_regular (hp.shapes b hb) (hregular b hb) (hbuilt.buffers b hb),
      fun n hn => (hlimit n hn).mpr (h.lists n hn), h.nesting⟩

theorem fromWire_accepts_counter : ∃ bytes, toWire plainHost counterProgram = .ok bytes ∧
    BuiltIn counterProgram ∧ (∀ b ∈ counterProgram.buffers, RegularBuffer b) ∧
    bytes.length ≤ maxProgramBytes ∧
    ((∃ q, fromWire plainHost bytes = .ok q) ↔ WithinLimits counterProgram) := by
  have henc := (@toWire_eq_ok _ _ plainHost).mpr ⟨counterProgram_encodable, rfl⟩
  have hbuilt : BuiltIn counterProgram := by
    refine ⟨List.forall_mem_singleton.mpr ?_, List.forall_mem_singleton.mpr trivial⟩
    simp [Node.Forall, Node.ForallList, Expr.Forall, Expr.ForallExpected, builtInExpr, builtInNode,
      BuiltInType]
  have hregular : ∀ b ∈ counterProgram.buffers, RegularBuffer b :=
    List.forall_mem_singleton.mpr ⟨by decide, by decide,
      (fun _ _ h => by cases h), fun _ _ h => by cases h⟩
  have hsize : (programBytes plainHost counterProgram).length ≤ maxProgramBytes := by
    decide +kernel
  exact ⟨_, henc, hbuilt, hregular, hsize,
    fromWire_accepts_iff_withinLimits plainHost hbuilt hregular henc hsize⟩

/-- `n` blocks around a return. -/
def nestedBlocks : Nat → Node
  | 0 => .ret
  | n + 1 => .block [nestedBlocks n]

theorem nestedBlocks_builtIn (n : Nat) : (nestedBlocks n).Forall builtInExpr builtInNode := by
  induction n with
  | zero => trivial
  | succ n ih => exact ⟨trivial, ih, trivial⟩

theorem nestedBlocks_encodable (n : Nat) : EncodableNode (nestedBlocks n) := by
  induction n with
  | zero => trivial
  | succ n ih => exact ⟨by simp, ih, trivial⟩

theorem nestedBlocks_nesting (n : Nat) : nodeNesting (nestedBlocks n) = n + 1 := by
  induction n with
  | zero => rfl
  | succ n ih => simp [nestedBlocks, nodeNesting, nodesNesting, ih]

def deepProgram : Program := .newRaw [] (1, 1, 1) [nestedBlocks maxDecodeDepth]

theorem deepProgram_encodable : EncodableProgram deepProgram where
  workgroup := ⟨by decide, by decide, by decide⟩
  shapes := by simp [deepProgram, Program.newRaw]
  nodes := by
    refine ⟨trivial, by simp [deepProgram, Program.newRaw], by decide, by decide,
      by decide, ?_⟩
    exact List.forall_mem_singleton.mpr
      ⟨nestedBlocks_encodable _, by decide +kernel, by decide +kernel⟩
  regionIds := by decide
  elements := by simp [deepProgram, Program.newRaw]

theorem deepProgram_rejected : ∃ bytes, BuiltIn deepProgram ∧
    toWire plainHost deepProgram = .ok bytes ∧ bytes.length ≤ maxProgramBytes ∧
    ¬ ∃ q, fromWire plainHost bytes = .ok q := by
  refine ⟨_, ⟨List.forall_mem_singleton.mpr (nestedBlocks_builtIn _),
    by simp [deepProgram, Program.newRaw]⟩,
    toWire_eq_ok.mpr ⟨deepProgram_encodable, rfl⟩, by decide +kernel, ?_⟩
  rintro ⟨q, hq⟩
  rw [fromWire_programBytes deepProgram_encodable fun n _ => plainHost_inverts.node_forall n] at hq
  have hdepth := hq.2.1.nesting _ (List.mem_singleton.mpr rfl)
  rw [nestedBlocks_nesting] at hdepth
  omega

end Vyre.Wire
