import Vyre.Wire.Layout
import Vyre.Wire.Decode

/-!
# Decoding what was encoded

The decoder, run on the layout of an encodable value, succeeds exactly when the
value keeps the decoder's own limits, and then returns the value with its `f32`
literals in canonical form. The lemmas hold for every decoder whose depth guard
is the source's, with or without the canonical-spelling checks.
-/

namespace Vyre.Wire

open ByteCodec List

mutual

/-- Replaces every `f32` literal by its canonical bits. -/
def canonExpr : Expr → Expr
  | .litF32 bits => .litF32 (canonicalF32Bits bits)
  | .load buffer index => .load buffer (canonExpr index)
  | .binOp op left right => .binOp op (canonExpr left) (canonExpr right)
  | .unOp op operand => .unOp op (canonExpr operand)
  | .call opId args => .call opId (canonExprs args)
  | .select cond trueVal falseVal =>
      .select (canonExpr cond) (canonExpr trueVal) (canonExpr falseVal)
  | .cast target value => .cast target (canonExpr value)
  | .fma a b c => .fma (canonExpr a) (canonExpr b) (canonExpr c)
  | .atomic op buffer index expected value ordering =>
      .atomic op buffer (canonExpr index) (canonExpected expected) (canonExpr value) ordering
  | .subgroupBallot cond => .subgroupBallot (canonExpr cond)
  | .subgroupShuffle value lane => .subgroupShuffle (canonExpr value) (canonExpr lane)
  | .subgroupAdd value => .subgroupAdd (canonExpr value)
  | e => e

def canonExpected : Option Expr → Option Expr
  | none => none
  | some e => some (canonExpr e)

def canonExprs : List Expr → List Expr
  | [] => []
  | e :: es => canonExpr e :: canonExprs es

end

mutual

def canonNode : Node → Node
  | .letBind name value => .letBind name (canonExpr value)
  | .assign name value => .assign name (canonExpr value)
  | .store buffer index value => .store buffer (canonExpr index) (canonExpr value)
  | .ifThen cond thenNodes otherwise =>
      .ifThen (canonExpr cond) (canonNodes thenNodes) (canonNodes otherwise)
  | .loop var lo hi body => .loop var (canonExpr lo) (canonExpr hi) (canonNodes body)
  | .asyncLoad source destination offset size tag =>
      .asyncLoad source destination (canonExpr offset) (canonExpr size) tag
  | .asyncStore source destination offset size tag =>
      .asyncStore source destination (canonExpr offset) (canonExpr size) tag
  | .trap address tag => .trap (canonExpr address) tag
  | .block body => .block (canonNodes body)
  | .region generator sourceRegion body => .region generator sourceRegion (canonNodes body)
  | n => n

def canonNodes : List Node → List Node
  | [] => []
  | n :: ns => canonNode n :: canonNodes ns

end

theorem canonExprs_eq (es : List Expr) : canonExprs es = es.map canonExpr := by
  induction es with
  | nil => rfl
  | cons e es ih => rw [canonExprs, ih, map_cons]

theorem canonNodes_eq (ns : List Node) : canonNodes ns = ns.map canonNode := by
  induction ns with
  | nil => rfl
  | cons n ns ih => rw [canonNodes, ih, map_cons]

theorem canonicalF32Bits_idem (bits : UInt32) :
    canonicalF32Bits (canonicalF32Bits bits) = canonicalF32Bits bits := by
  have hcases : canonicalF32Bits bits = 0x7FC00000 ∨ canonicalF32Bits bits = 0 ∨
      canonicalF32Bits bits = bits := by
    simp only [canonicalF32Bits]
    split_ifs
    exacts [.inl rfl, .inr (.inl rfl), .inr (.inl rfl), .inr (.inr rfl)]
  rcases hcases with h | h | h <;> rw [h]
  · rfl
  · rfl
  · exact h

theorem canonExpr_idem (e : Expr) : canonExpr (canonExpr e) = canonExpr e := by
  induction e with
  | litF32 bits => simp only [canonExpr, canonicalF32Bits_idem]
  | call opId args ih =>
    simp only [canonExpr, canonExprs_eq, map_map]
    congr 1
    exact map_congr_left fun e he => ih e he
  | atomic _ _ _ expected _ _ ihi ihe ihv =>
    cases expected with
    | none => simp only [canonExpr, canonExpected, ihi, ihv]
    | some e => simp only [canonExpr, canonExpected, ihi, ihv, ihe e rfl]
  | _ => simp_all only [canonExpr]

theorem canonNode_idem (n : Node) : canonNode (canonNode n) = canonNode n := by
  have hlist : ∀ ns : List Node, (∀ n ∈ ns, canonNode (canonNode n) = canonNode n) →
      canonNodes (canonNodes ns) = canonNodes ns := by
    intro ns h
    simp only [canonNodes_eq, map_map]
    exact map_congr_left h
  induction n with
  | ifThen cond thenNodes otherwise iht iho =>
    simp only [canonNode, canonExpr_idem, hlist _ iht, hlist _ iho]
  | loop var lo hi body ih => simp only [canonNode, canonExpr_idem, hlist _ ih]
  | block body ih | region _ _ body ih => simp only [canonNode, hlist _ ih]
  | _ => simp only [canonNode, canonExpr_idem]

mutual

def exprNesting : Expr → Nat
  | .load _ index => exprNesting index + 1
  | .binOp _ left right => max (exprNesting left) (exprNesting right) + 1
  | .unOp _ operand => exprNesting operand + 1
  | .call _ args => exprsNesting args + 1
  | .select cond trueVal falseVal =>
      max (exprNesting cond) (max (exprNesting trueVal) (exprNesting falseVal)) + 1
  | .cast _ value => exprNesting value + 1
  | .fma a b c => max (exprNesting a) (max (exprNesting b) (exprNesting c)) + 1
  | .atomic _ _ index expected value _ =>
      max (exprNesting index) (max (expectedNesting expected) (exprNesting value)) + 1
  | .subgroupBallot cond => exprNesting cond + 1
  | .subgroupShuffle value lane => max (exprNesting value) (exprNesting lane) + 1
  | .subgroupAdd value => exprNesting value + 1
  | _ => 1

def expectedNesting : Option Expr → Nat
  | none => 0
  | some e => exprNesting e

def exprsNesting : List Expr → Nat
  | [] => 0
  | e :: es => max (exprNesting e) (exprsNesting es)

end

mutual

def nodeNesting : Node → Nat
  | .letBind _ value | .assign _ value => exprNesting value + 1
  | .store _ index value => max (exprNesting index) (exprNesting value) + 1
  | .ifThen cond thenNodes otherwise =>
      max (exprNesting cond) (max (nodesNesting thenNodes) (nodesNesting otherwise)) + 1
  | .loop _ lo hi body => max (exprNesting lo) (max (exprNesting hi) (nodesNesting body)) + 1
  | .asyncLoad _ _ offset size _ | .asyncStore _ _ offset size _ =>
      max (exprNesting offset) (exprNesting size) + 1
  | .trap address _ => exprNesting address + 1
  | .block body | .region _ _ body => nodesNesting body + 1
  | _ => 1

def nodesNesting : List Node → Nat
  | [] => 0
  | n :: ns => max (nodeNesting n) (nodesNesting ns)

end

theorem add_exprsNesting_le {es : List Expr} {d k : Nat} :
    d + exprsNesting es ≤ k ↔ d ≤ k ∧ ∀ e ∈ es, d + exprNesting e ≤ k := by
  induction es with
  | nil => simp [exprsNesting]
  | cons e es ih =>
    rw [exprsNesting, ← Nat.add_max_add_left, Nat.max_le, ih, forall_mem_cons, and_left_comm]

theorem add_nodesNesting_le {ns : List Node} {d k : Nat} :
    d + nodesNesting ns ≤ k ↔ d ≤ k ∧ ∀ n ∈ ns, d + nodeNesting n ≤ k := by
  induction ns with
  | nil => simp [nodesNesting]
  | cons n ns ih =>
    rw [nodesNesting, ← Nat.add_max_add_left, Nat.max_le, ih, forall_mem_cons, and_left_comm]

def DialectId (id : UInt32) : Prop := id &&& 0x80000000 ≠ 0

def ReadableBinOp : BinOp → Prop
  | .ext id => DialectId id
  | _ => True

def ReadableUnOp : UnOp → Prop
  | .ext id => DialectId id
  | _ => True

def ReadableAtomicOp : AtomicOp → Prop
  | .ext id => DialectId id
  | _ => True

def ReadableType : DataType → Prop
  | .ext id => DialectId id
  | .vec element _ | .tensorShaped element _ | .sparseCsr element | .sparseCoo element
  | .sparseBsr element _ _ => ReadableType element
  | .quantized storage _ _ => ReadableType storage
  | _ => True

/-- The limits the decoder puts on an expression, its operands apart. -/
def exprLimit (host : Host) : Expr → Prop
  | .binOp op _ _ => ReadableBinOp op
  | .unOp op _ => ReadableUnOp op
  | .call _ args => args.length ≤ maxArgs
  | .cast target _ => ReadableType target
  | .atomic op _ _ _ _ _ => ReadableAtomicOp op
  | .ext x => host.decodeOpaqueExpr x.extensionKind x.wirePayload = .ok x
  | _ => True

/-- The limits the decoder puts on a statement, its parts apart. -/
def nodeLimit (host : Host) : Node → Prop
  | .ifThen _ thenNodes otherwise => thenNodes.length ≤ maxNodes ∧ otherwise.length ≤ maxNodes
  | .loop _ _ _ body | .block body | .region _ _ body => body.length ≤ maxNodes
  | .ext x => host.decodeOpaqueNode x.extensionKind x.wirePayload = .ok x
  | _ => True

def exprInverts (host : Host) : Expr → Prop
  | .ext x => ∀ y, host.decodeOpaqueExpr x.extensionKind x.wirePayload = .ok y → y = x
  | _ => True

def nodeInverts (host : Host) : Node → Prop
  | .ext x => ∀ y, host.decodeOpaqueNode x.extensionKind x.wirePayload = .ok y → y = x
  | _ => True

section Forward

open Reader

variable {host : Host} {chk : Checks} {d : Nat} {rest : List UInt8} {c' : Cursor}

theorem reads_extensionId {id raw : UInt32} {surface : String} :
    Reads (extensionId surface) ⟨putU32 id ++ rest, d⟩ raw c' ↔
      DialectId id ∧ c' = ⟨rest, d⟩ ∧ raw = id := by
  simp [extensionId, DialectId, and_assoc]

/-- A built-in operator is found in its table by its tag. -/
theorem reads_builtin {α : Type} {table : List (UInt8 × α)} {kind : String} {ext : Read α}
    {op a : α}
    (htag : tag ≠ 0x80) (hfind : table.find? (·.1 = tag) = some (tag, op)) :
    Reads (u8 >>= fun tag => if tag = 0x80 then ext else decodeTag tag table kind)
      ⟨tag :: rest, d⟩ a c' ↔ True ∧ c' = ⟨rest, d⟩ ∧ a = op := by
  simp [htag, decodeTag, hfind]

theorem reads_binOp {op a : BinOp} :
    Reads binOp ⟨binOpBytes op ++ rest, d⟩ a c' ↔ ReadableBinOp op ∧ c' = ⟨rest, d⟩ ∧ a = op := by
  cases op with
  | ext id => simp [binOp, binOpBytes, okBytes, putBinOp, ReadableBinOp, reads_extensionId,
      and_assoc]
  | _ => exact reads_builtin (by decide) rfl

theorem reads_unOp {op a : UnOp} :
    Reads unOp ⟨unOpBytes op ++ rest, d⟩ a c' ↔ ReadableUnOp op ∧ c' = ⟨rest, d⟩ ∧ a = op := by
  cases op with
  | ext id => simp [unOp, unOpBytes, okBytes, putUnOp, ReadableUnOp, reads_extensionId,
      and_assoc]
  | _ => exact reads_builtin (by decide) rfl

theorem reads_atomicOp {op a : AtomicOp} :
    Reads atomicOp ⟨atomicOpBytes op ++ rest, d⟩ a c' ↔
      ReadableAtomicOp op ∧ c' = ⟨rest, d⟩ ∧ a = op := by
  cases op with
  | ext id =>
    simp [atomicOp, atomicOpBytes, okBytes, putAtomicOp, ReadableAtomicOp, reads_extensionId,
      and_assoc]
  | _ => exact reads_builtin (by decide) rfl

theorem reads_ordering {o a : MemoryOrdering} :
    Reads ordering ⟨orderingTag o :: rest, d⟩ a c' ↔ c' = ⟨rest, d⟩ ∧ a = o := by
  cases o <;> simp [ordering, orderingTag]

theorem reads_collectiveOp {o a : CollectiveOp} :
    Reads collectiveOp ⟨collectiveOpTag o :: rest, d⟩ a c' ↔ c' = ⟨rest, d⟩ ∧ a = o := by
  cases o <;> simp [collectiveOp, collectiveOpTag]

theorem reads_quantizationScale {s a : QuantizationScale} (hs : EncodableScale s) :
    Reads quantizationScale ⟨scaleBytes s ++ rest, d⟩ a c' ↔ c' = ⟨rest, d⟩ ∧ a = s := by
  cases s <;> simp_all [quantizationScale, scaleBytes, EncodableScale]

theorem reads_quantizationZeroPoint {z a : QuantizationZeroPoint} (hz : EncodableZeroPoint z) :
    Reads quantizationZeroPoint ⟨zeroPointBytes z ++ rest, d⟩ a c' ↔ c' = ⟨rest, d⟩ ∧ a = z := by
  cases z <;> simp_all [quantizationZeroPoint, zeroPointBytes, EncodableZeroPoint]

theorem typeBytes_pos (t : DataType) : 0 < (typeBytes t).length := by
  cases t <;> simp [typeBytes]

theorem reads_u32s {xs a : List UInt32} :
    Reads (many u32 xs.length) ⟨xs.flatMap putU32 ++ rest, d⟩ a c' ↔ c' = ⟨rest, d⟩ ∧ a = xs := by
  have h : ∀ x ∈ xs, ∀ rest a c', Reads u32 ⟨putU32 x ++ rest, d⟩ a c' ↔
      True ∧ c' = ⟨rest, d⟩ ∧ a = id x := by simp
  rw [reads_many_flatMap h]
  simp

theorem reads_u32_leBytes {n : Nat} {a : UInt32} (hn : n < 2 ^ 32) :
    Reads u32 ⟨leBytes 4 n ++ rest, d⟩ a c' ↔ c' = ⟨rest, d⟩ ∧ a = UInt32.ofNat n := by
  rw [← reads_u32, putU32, UInt32.toNat_ofNat', Nat.mod_eq_of_lt hn]

variable {stack : Nat} {tag : UInt8}

theorem reads_dataType_succ (hchk : chk.guardTypes = false) {a : DataType} :
    Reads (dataType chk (stack + 1)) ⟨tag :: rest, d⟩ a c' ↔
      Reads (dataTypeArm (dataType chk stack) tag) ⟨rest, d⟩ a c' := by
  simp [dataType, dataTypeInner, enterType, leaveType, hchk]

attribute [local simp] dataTypeArm ReadableType in
theorem reads_dataType (hchk : chk.guardTypes = false) {t a : DataType} (ht : EncodableType t)
    (hs : (typeBytes t).length ≤ stack) :
    Reads (dataType chk stack) ⟨typeBytes t ++ rest, d⟩ a c' ↔
      ReadableType t ∧ c' = ⟨rest, d⟩ ∧ a = t := by
  -- induction on the frames: every nested type is laid out in fewer bytes
  induction stack generalizing t rest a c' with
  | zero =>
    have := typeBytes_pos t
    omega
  | succ stack ih =>
    have nested : ∀ element, EncodableType element →
        (typeBytes element).length ≤ stack → ∀ rest a c',
        Reads (dataType chk stack) ⟨typeBytes element ++ rest, d⟩ a c' ↔
          ReadableType element ∧ c' = ⟨rest, d⟩ ∧ a = element :=
      fun element he hle rest a c' => ih he hle
    cases t <;> simp only [typeBytes, length_cons, length_append] at hs <;>
      rw [typeBytes, cons_append, reads_dataType_succ hchk]
    case array elementSize =>
      have hmod : elementSize % 4294967296 = elementSize := by
        apply UInt64.toNat_inj.mp
        exact Nat.mod_eq_of_lt ht
      simp [reads_u32_leBytes ht, hmod]
    case ext id =>
      simp [reads_extensionId, and_assoc]
    case vec element count | sparseCsr element | sparseCoo element |
        sparseBsr element blockRows blockCols =>
      have he := nested element ht (by omega)
      simp [he, and_assoc]
    case tensorShaped element shape =>
      have he := nested element ht.1 (by omega)
      have hlen : (UInt32.ofNat shape.length).toNat = shape.length := by
        rw [UInt32.toNat_ofNat', Nat.mod_eq_of_lt ht.2]
      simp [he, reads_u32_leBytes ht.2, hlen, reads_u32s, and_assoc]
    case deviceMesh axes =>
      have hlen : (UInt32.ofNat axes.length).toNat = axes.length := by
        rw [UInt32.toNat_ofNat', Nat.mod_eq_of_lt ht]
      simp [reads_u32_leBytes ht, hlen, reads_u32s]
    case quantized storage scale zeroPoint =>
      obtain ⟨hq, hst, hsc, hz⟩ := ht
      have he := nested storage hst (by omega)
      simp [he, hq, reads_quantizationScale hsc, reads_quantizationZeroPoint hz, and_assoc]
    all_goals
      simp [dataTypeTag, scalarFromTag, Except.mapError, eq_comm (a := a)]

/-! ## Expressions -/

@[simp] theorem reads_enter {tooDeep : DecodeFailure} {c : Cursor} {u : Unit} :
    Reads (enter tooDeep) c u c' ↔
      c.depth < maxDecodeDepth ∧ c' = ⟨c.rest, c.depth + 1⟩ := by
  simp only [Reads, enter, StateT.run]
  split
  · rename_i h
    simp [Nat.not_lt.mpr h]
  · rename_i h
    simp [Nat.not_le.mp h, eq_comm]

@[simp] theorem reads_leave {c : Cursor} {u : Unit} :
    Reads leave c u c' ↔ c' = ⟨c.rest, c.depth - 1⟩ := by
  simp [Reads, leave, StateT.run, eq_comm]

theorem add_max_le {m k j n : Nat} : m + max k j ≤ n ↔ m + k ≤ n ∧ m + j ≤ n := by
  rw [← Nat.add_max_add_left, Nat.max_le]

/-- One frame of the decoder, given how its arm reads what follows the tag. -/
theorem reads_frame {α : Type} {arm : Read α} {bytes : List UInt8} {value a : α} {ok : Prop}
    {k : Nat}
    (harm : d + 1 ≤ maxDecodeDepth → ∀ m, Reads arm ⟨bytes, d + 1⟩ a m ↔
      (ok ∧ d + 1 + k ≤ maxDecodeDepth) ∧ m = ⟨rest, d + 1⟩ ∧ a = value) :
    (d < maxDecodeDepth ∧ ∃ m, Reads arm ⟨bytes, d + 1⟩ a m ∧ c' = ⟨m.rest, m.depth - 1⟩) ↔
      (ok ∧ d + (k + 1) ≤ maxDecodeDepth) ∧ c' = ⟨rest, d⟩ ∧ a = value := by
  rw [show d + (k + 1) = d + 1 + k by omega]
  constructor
  · rintro ⟨hd, m, hread, hend⟩
    obtain ⟨hok, rfl, hvalue⟩ := (harm hd m).mp hread
    exact ⟨hok, hend, hvalue⟩
  · rintro ⟨hok, hend, hvalue⟩
    have hd : d + 1 ≤ maxDecodeDepth := by omega
    exact ⟨hd, _, (harm hd _).mpr ⟨hok, rfl, hvalue⟩, hend⟩

theorem reads_expr_succ {a : Expr} :
    Reads (expr host chk (stack + 1)) ⟨tag :: rest, d⟩ a c' ↔ d < maxDecodeDepth ∧ ∃ m,
      Reads (exprArm host chk (expr host chk stack) (dataType chk stack) tag) ⟨rest, d + 1⟩ a m ∧
        c' = ⟨m.rest, m.depth - 1⟩ := by
  simp [expr, exprInner]

theorem exprBytes_pos (e : Expr) : 0 < (exprBytes e).length := by
  cases e <;> simp [exprBytes]

theorem reads_extensionPayload {α : Type} {decode : String → List UInt8 → Except String α}
    {label kind : String} {payload : List UInt8} {a : α} (h : EncodablePayload kind payload) :
    Reads (extensionPayload decode label) ⟨payloadBytes kind payload ++ rest, d⟩ a c' ↔
      c' = ⟨rest, d⟩ ∧ decode kind payload = .ok a := by
  obtain ⟨hk, hp⟩ := h
  have hlen : payload.length < 2 ^ 32 := by
    have : maxOpaquePayloadLen < 2 ^ 32 := by decide
    omega
  have hmax : payload.length ≤ maxArgs * 1024 := hp
  have hlift : ∀ r : Except String α, r.mapError DecodeFailure.error = .ok a ↔ r = .ok a := by
    intro r
    cases r <;> simp [Except.mapError]
  simp [extensionPayload, payloadBytes, reads_string hk, reads_boundedLen hlen, Reader.take, hmax,
    hlift]

theorem reads_expectedOperand {sub : Read Expr} {x a : Option Expr} {ok : Expr → Prop}
    (h : ∀ e ∈ x, ∀ rest a c', Reads sub ⟨exprBytes e ++ rest, d⟩ a c' ↔
      ok e ∧ c' = ⟨rest, d⟩ ∧ a = canonExpr e) :
    Reads (expectedOperand chk sub) ⟨expectedBytes x ++ rest, d⟩ a c' ↔
      (∀ e ∈ x, ok e) ∧ c' = ⟨rest, d⟩ ∧ a = canonExpected x := by
  cases x with
  | none => simp [expectedOperand, expectedBytes, canonExpected]
  | some e =>
    have he := h e rfl
    simp [expectedOperand, expectedBytes, canonExpected, he, and_assoc]

theorem exprBytes_le_exprsBytes {x : Expr} {es : List Expr} (h : x ∈ es) :
    (exprBytes x).length ≤ (exprsBytes es).length := by
  rw [exprsBytes_eq]
  exact (sublist_flatten_of_mem (mem_map_of_mem h)).length_le

attribute [local simp] exprArm Expr.Forall exprLimit canonExpr in
theorem reads_expr (hchk : chk.guardTypes = false) {e a : Expr} (he : EncodableExpr e)
    (hinv : e.Forall (exprInverts host)) (hs : (exprBytes e).length ≤ stack) :
    Reads (expr host chk stack) ⟨exprBytes e ++ rest, d⟩ a c' ↔
      (e.Forall (exprLimit host) ∧ d + exprNesting e ≤ maxDecodeDepth) ∧ c' = ⟨rest, d⟩ ∧
        a = canonExpr e := by
  induction stack generalizing e d rest a c' with
  | zero =>
    have := exprBytes_pos e
    omega
  | succ stack ih =>
    have nested : ∀ x, EncodableExpr x → x.Forall (exprInverts host) →
        (exprBytes x).length ≤ stack → ∀ rest a c',
        Reads (expr host chk stack) ⟨exprBytes x ++ rest, d + 1⟩ a c' ↔
          (x.Forall (exprLimit host) ∧ d + 1 + exprNesting x ≤ maxDecodeDepth) ∧
            c' = ⟨rest, d + 1⟩ ∧ a = canonExpr x :=
      fun x hx hinv hle rest a c' => ih hx hinv hle
    cases e <;> simp only [exprBytes, length_cons, length_append] at hs <;>
      rw [exprBytes, cons_append, reads_expr_succ] <;> simp only [exprNesting] <;>
      refine reads_frame fun hd m => ?_
    case var name | bufLen buffer =>
      simp [reads_string he, hd]
    case load buffer index =>
      have hi := nested index he.2 hinv.2 (by omega)
      simp [reads_string he.1, hi, and_assoc, and_left_comm]
    case binOp op left right =>
      have hl := nested left he.1 hinv.2.1 (by omega)
      have hr := nested right he.2 hinv.2.2 (by omega)
      simp [reads_binOp, hl, hr, add_max_le, and_assoc, and_left_comm]
    case unOp op operand =>
      have ho := nested operand he hinv.2 (by omega)
      simp [reads_unOp, ho, and_assoc, and_left_comm]
    case call opId args =>
      obtain ⟨hname, hlen, hargs⟩ := he
      obtain ⟨-, hinv⟩ := hinv
      rw [encodableExprs_iff] at hargs
      rw [Expr.forallArgs_iff] at hinv
      have hmany := fun x (hx : x ∈ args) => nested x (hargs x hx) (hinv x hx)
        ((exprBytes_le_exprsBytes hx).trans (by omega))
      simp [reads_string hname, reads_boundedLen hlen, exprsBytes_eq, reads_many_flatMap hmany,
        canonExprs_eq, add_exprsNesting_le, hd, forall_and, and_assoc]
    case select x y z | fma x y z =>
      have hx := nested x he.1 hinv.2.1 (by omega)
      have hy := nested y he.2.1 hinv.2.2.1 (by omega)
      have hz := nested z he.2.2 hinv.2.2.2 (by omega)
      simp [hx, hy, hz, add_max_le, and_assoc, and_left_comm]
    case cast target value =>
      have hv := nested value he.2 hinv.2 (by omega)
      have ht : (typeBytes target).length ≤ stack := by omega
      simp [reads_dataType hchk he.1 ht, hv, and_assoc, and_left_comm]
    case atomic op buffer index expected value ordering =>
      obtain ⟨hname, hi, hx, hv⟩ := he
      obtain ⟨-, hii, hxi, hvi⟩ := hinv
      have hindex := nested index hi hii (by omega)
      have hvalue := nested value hv hvi (by omega)
      have hexpected := fun x (hmem : expected = some x) =>
        nested x (show EncodableExpected (some x) from hmem ▸ hx)
          (show Expr.ForallExpected _ (some x) from hmem ▸ hxi) (by
            rw [hmem, expectedBytes, length_cons] at hs
            omega)
      simp [reads_atomicOp, reads_ordering, reads_string hname, hindex,
        reads_expectedOperand hexpected, hvalue, add_max_le, and_assoc, and_left_comm]
      cases expected with
      | none | some x => grind [expectedNesting]
    case subgroupBallot value | subgroupAdd value =>
      have hv := nested value he hinv.2 (by omega)
      simp [hv, and_assoc, and_left_comm]
    case subgroupShuffle value lane =>
      have hv := nested value he.1 hinv.2.1 (by omega)
      have hl := nested lane he.2 hinv.2.2 (by omega)
      simp [hv, hl, add_max_le, and_assoc, and_left_comm]
    case ext x =>
      have hback : ∀ y, host.decodeOpaqueExpr x.extensionKind x.wirePayload = .ok y → y = x := hinv
      simp [reads_extensionPayload he, hd]
      grind
    case litBool value =>
      cases value with
      | false | true =>
        simp [exprArm, flagByte, Expr.Forall, exprLimit, canonExpr, hd]
    case litF32 bits =>
      simp [f32Bits, canonicalF32Bits_idem, hd]
    all_goals simp [hd]

/-! ## Statements -/

theorem nodeBytes_pos (n : Node) : 0 < (nodeBytes n).length := by
  cases n <;> simp [nodeBytes]

theorem nodeBytes_le_nodesBytes {n : Node} {ns : List Node} (h : n ∈ ns) :
    (nodeBytes n).length ≤ (nodesBytes ns).length := by
  rw [nodesBytes_eq]
  exact (sublist_flatten_of_mem (mem_map_of_mem h)).length_le

theorem reads_node_succ {a : Node} :
    Reads (node host chk (stack + 1)) ⟨tag :: rest, d⟩ a c' ↔ d < maxDecodeDepth ∧ ∃ m,
      Reads (nodeArm host (expr host chk stack) (node host chk stack) tag) ⟨rest, d + 1⟩ a m ∧
        c' = ⟨m.rest, m.depth - 1⟩ := by
  simp [node, nodeInner]

theorem reads_sourceRegion {r a : Option String} (h : EncodableName r) :
    Reads sourceRegion ⟨sourceRegionBytes r ++ rest, d⟩ a c' ↔ c' = ⟨rest, d⟩ ∧ a = r := by
  cases r with
  | none => simp [sourceRegion, sourceRegionBytes]
  | some name => simp [sourceRegion, sourceRegionBytes, reads_string h]

/-- A statement list below depth `d`, given how its members are read. -/
theorem reads_nodes {sub : Read Node} {ns a : List Node} (hd : d ≤ maxDecodeDepth)
    (hlen : ns.length < 2 ^ 32)
    (h : ∀ n ∈ ns, ∀ rest a c', Reads sub ⟨nodeBytes n ++ rest, d⟩ a c' ↔
      (n.Forall (exprLimit host) (nodeLimit host) ∧ d + nodeNesting n ≤ maxDecodeDepth) ∧
        c' = ⟨rest, d⟩ ∧ a = canonNode n) :
    Reads (nodes sub) ⟨leBytes 4 ns.length ++ (nodesBytes ns ++ rest), d⟩ a c' ↔
      (ns.length ≤ maxNodes ∧ (∀ n ∈ ns, n.Forall (exprLimit host) (nodeLimit host)) ∧
        d + nodesNesting ns ≤ maxDecodeDepth) ∧ c' = ⟨rest, d⟩ ∧ a = canonNodes ns := by
  have hmany : Reads (many sub ns.length) ⟨nodesBytes ns ++ rest, d⟩ a c' ↔
      (∀ n ∈ ns, n.Forall (exprLimit host) (nodeLimit host) ∧
        d + nodeNesting n ≤ maxDecodeDepth) ∧ c' = ⟨rest, d⟩ ∧ a = ns.map canonNode := by
    rw [nodesBytes_eq]
    exact reads_many_flatMap h
  simp [nodes, reads_boundedLen hlen, hmany, canonNodes_eq, add_nodesNesting_le, hd,
    forall_and, and_assoc]

attribute [local simp] nodeArm Node.Forall nodeLimit canonNode in
theorem reads_node (hchk : chk.guardTypes = false) {n a : Node} (hn : EncodableNode n)
    (hinv : n.Forall (exprInverts host) (nodeInverts host)) (hs : (nodeBytes n).length ≤ stack) :
    Reads (node host chk stack) ⟨nodeBytes n ++ rest, d⟩ a c' ↔
      (n.Forall (exprLimit host) (nodeLimit host) ∧ d + nodeNesting n ≤ maxDecodeDepth) ∧
        c' = ⟨rest, d⟩ ∧ a = canonNode n := by
  induction stack generalizing n d rest a c' with
  | zero =>
    have := nodeBytes_pos n
    omega
  | succ stack ih =>
    have operand : ∀ e, EncodableExpr e → e.Forall (exprInverts host) →
        (exprBytes e).length ≤ stack → ∀ rest a c',
        Reads (expr host chk stack) ⟨exprBytes e ++ rest, d + 1⟩ a c' ↔
          (e.Forall (exprLimit host) ∧ d + 1 + exprNesting e ≤ maxDecodeDepth) ∧
            c' = ⟨rest, d + 1⟩ ∧ a = canonExpr e :=
      fun e he hinv hle rest a c' => reads_expr hchk he hinv hle
    have body : d + 1 ≤ maxDecodeDepth → ∀ ns, ns.length < 2 ^ 32 → EncodableNodes ns →
        Node.ForallList (exprInverts host) (nodeInverts host) ns →
        (nodesBytes ns).length ≤ stack → ∀ rest a c',
        Reads (nodes (node host chk stack))
          ⟨leBytes 4 ns.length ++ (nodesBytes ns ++ rest), d + 1⟩ a c' ↔
          (ns.length ≤ maxNodes ∧ (∀ n ∈ ns, n.Forall (exprLimit host) (nodeLimit host)) ∧
            d + 1 + nodesNesting ns ≤ maxDecodeDepth) ∧ c' = ⟨rest, d + 1⟩ ∧
              a = canonNodes ns := by
      intro hd ns hlen hns hinv hlt rest a c'
      rw [encodableNodes_iff] at hns
      rw [Node.forallList_iff] at hinv
      exact reads_nodes hd hlen fun m hm rest a c' => ih (hns m hm) (hinv m hm)
        ((nodeBytes_le_nodesBytes hm).trans hlt)
    cases n <;> simp only [nodeBytes, length_cons, length_append] at hs <;>
      rw [nodeBytes, cons_append, reads_node_succ] <;> simp only [nodeNesting] <;>
      refine reads_frame fun hd m => ?_
    case letBind name value | assign name value =>
      have hv := operand value hn.2 hinv.2 (by omega)
      simp [reads_string hn.1, hv, and_assoc, and_left_comm]
    case store buffer index value =>
      have hi := operand index hn.2.1 hinv.2.1 (by omega)
      have hv := operand value hn.2.2 hinv.2.2 (by omega)
      simp [reads_string hn.1, hi, hv, add_max_le, and_assoc, and_left_comm]
    case ifThen cond thenNodes otherwise =>
      obtain ⟨hc, ⟨htlen, ht⟩, holen, ho⟩ := hn
      obtain ⟨-, hci, hti, hoi⟩ := hinv
      have hcond := operand cond hc hci (by omega)
      have hthen := body hd thenNodes htlen ht hti (by omega)
      have helse := body hd otherwise holen ho hoi (by omega)
      simp [hcond, hthen, helse, add_max_le, and_assoc, and_left_comm]
    case loop var lo hi body' =>
      obtain ⟨hname, hl, hh, hlen, hb⟩ := hn
      obtain ⟨-, hli, hhi, hbi⟩ := hinv
      have hlo := operand lo hl hli (by omega)
      have hhigh := operand hi hh hhi (by omega)
      have hbody := body hd body' hlen hb hbi (by omega)
      simp [reads_string hname, hlo, hhigh, hbody, add_max_le, and_assoc, and_left_comm]
    case indirectDispatch countBuffer countOffset | asyncWait tag | resume tag |
        broadcast buffer root group | allReduce buffer op group =>
      simp [reads_string hn, reads_collectiveOp, hd]
    case asyncLoad source destination offset size tag |
        asyncStore source destination offset size tag =>
      obtain ⟨hsrc, hdst, ho, hz, htag⟩ := hn
      have hoff := operand offset ho hinv.2.1 (by omega)
      have hsize := operand size hz hinv.2.2 (by omega)
      simp [reads_string hsrc, reads_string hdst, reads_string htag, hoff, hsize, add_max_le,
        and_assoc, and_left_comm]
    case trap address tag =>
      have ha := operand address hn.1 hinv.2 (by omega)
      simp [reads_string hn.2, ha, and_assoc, and_left_comm]
    case allGather input output group | reduceScatter input output op group =>
      simp [reads_string hn.1, reads_string hn.2, reads_collectiveOp, hd]
    case ret | barrier ordering =>
      simp [reads_ordering, hd]
    case block body' =>
      have hbody := body hd body' hn.1 hn.2 hinv.2 (by omega)
      simp [hbody, and_assoc, and_left_comm]
    case region generator source body' =>
      obtain ⟨hname, hsrc, hlen, hb⟩ := hn
      have hbody := body hd body' hlen hb hinv.2 (by omega)
      simp [reads_string hname, reads_sourceRegion hsrc, hbody, and_assoc, and_left_comm]
    case ext x =>
      have hback : ∀ y, host.decodeOpaqueNode x.extensionKind x.wirePayload = .ok y → y = x := hinv
      simp [reads_extensionPayload hn, hd]
      grind

end Forward

end Vyre.Wire
