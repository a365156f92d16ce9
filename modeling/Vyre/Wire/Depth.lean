import Vyre.Lib.Lockstep
import Vyre.Wire.ProgramRoundTrip

/-!
# Recursion depth of the decoder

A call stack of `MAX_DECODE_DEPTH` frames is one that overflows exactly when a
chain of nested decoder calls is deeper than that. `node` and `expr` count
themselves and refuse in time; `data_type` does not count. The decoder whose
guard covers data types too never overflows, and runs in lockstep with the
source's: where it refuses a type as too deep, the source's has used up its
stack.
-/

namespace Vyre.Wire

open ByteCodec
open Reader

/-- The guarded decoder never overflows; its refusal of a deep type is an
overflow of the source's decoder. -/
def typeGuard : ErrorMap DecodeFailure where
  relabel
    | .typeTooDeep => .stackOverflow
    | e => e
  allowed e := e ≠ .stackOverflow

theorem typeGuard_fixes_error (message : String) : typeGuard.Fixes (.error message) :=
  ⟨by simp [typeGuard], rfl⟩

theorem typeGuard_fixes_nonCanonical : typeGuard.Fixes .nonCanonical :=
  ⟨by simp [typeGuard], rfl⟩

/-- A reader of the source's decoder and the guarded one's are in step. -/
abbrev Guarded {α : Type} (d d' : Nat) (p q : Read α) : Prop := InStep typeGuard d d' p q

section Primitives

variable {d d' : Nat} {α : Type}

instance {message : String} : Guarded d d' (err message : Read α) (err message) :=
  ⟨.fail (typeGuard_fixes_error _)⟩

instance {ok : Bool} {message : String} :
    Guarded d d' (ensure ok message) (ensure ok message) :=
  ⟨.check (typeGuard_fixes_error _)⟩

instance {ok : Bool} :
    Guarded d d' (Checks.source.require ok) (Checks.guarded.require ok) :=
  ⟨.check typeGuard_fixes_nonCanonical⟩

instance {n : Nat} : Guarded d d' (Reader.take n) (Reader.take n) :=
  ⟨.take (typeGuard_fixes_error _)⟩

instance : Guarded d d' u8 u8 := ⟨.byte (typeGuard_fixes_error _)⟩

instance : Guarded d d' u32 u32 := by unfold u32; infer_instance

instance : Guarded d d' u64 u64 := by unfold u64; infer_instance

instance : Guarded d d' i32 i32 := by unfold i32; infer_instance

instance {max : Nat} {label : String} :
    Guarded d d' (boundedLen max label) (boundedLen max label) := by
  unfold boundedLen; infer_instance

instance {bs : List UInt8} {message : String} :
    Guarded d d' (utf8Text bs message) (utf8Text bs message) := by
  unfold utf8Text
  split <;> infer_instance

instance : Guarded d d' string string := by unfold string; infer_instance

instance : Guarded d d' (flag .source) (flag .guarded) := by unfold flag; infer_instance

instance : Guarded d d' (lebU64 .source) (lebU64 .guarded) :=
  ⟨.leb (typeGuard_fixes_error _) (typeGuard_fixes_error _) (typeGuard_fixes_error _)
    typeGuard_fixes_nonCanonical⟩

instance : Guarded d d' (lebU32 .source) (lebU32 .guarded) := by
  unfold lebU32; infer_instance

instance {max : Nat} {label : String} :
    Guarded d d' (lebLen .source max label) (lebLen .guarded max label) := by
  unfold lebLen; infer_instance

instance {field : String} :
    Guarded d d' (lebParam .source field) (lebParam .guarded field) := by
  unfold lebParam; infer_instance

instance : Guarded d d' (lebString .source) (lebString .guarded) := by
  unfold lebString; infer_instance

instance {tag : UInt8} {table : List (UInt8 × α)} {kind : String} :
    Guarded d d' (decodeTag tag table kind) (decodeTag tag table kind) := by
  unfold decodeTag
  split <;> infer_instance

instance {surface : String} :
    Guarded d d' (extensionId surface) (extensionId surface) := by
  unfold extensionId; infer_instance

instance : Guarded d d' binOp binOp := by unfold binOp; infer_instance

instance : Guarded d d' unOp unOp := by unfold unOp; infer_instance

instance : Guarded d d' atomicOp atomicOp := by unfold atomicOp; infer_instance

instance : Guarded d d' ordering ordering :=
  .andThen fun tag => by split <;> infer_instance

instance : Guarded d d' collectiveOp collectiveOp :=
  .andThen fun tag => by split <;> infer_instance

instance : Guarded d d' quantizationScale quantizationScale :=
  .andThen fun tag => .andThen fun param => by split <;> infer_instance

instance : Guarded d d' quantizationZeroPoint quantizationZeroPoint :=
  .andThen fun tag => .andThen fun param => by split <;> infer_instance

theorem inStep_mapError {ε : Type} {r : Except ε α} (text : ε → String) :
    Guarded d d' (lift (r.mapError fun e => .error (text e)))
      (lift (r.mapError fun e => .error (text e))) := by
  refine ⟨.lift fun e he => ?_⟩
  cases r with
  | error cause =>
    cases he
    exact typeGuard_fixes_error _
  | ok a => cases he

instance {r : Except String α} :
    Guarded d d' (lift (r.mapError .error)) (lift (r.mapError .error)) :=
  inStep_mapError id

end Primitives

/-! ## Data types, expressions and statements -/

section Trees

variable {d d' : Nat}

instance {p q : Read DataType} [Guarded d d' p q] {tag : UInt8} :
    Guarded d d' (dataTypeArm p tag) (dataTypeArm q tag) := by
  unfold dataTypeArm
  split <;> infer_instance

/-- A guarded reader inside `enter` and `leave`, against an unguarded one. -/
theorem run_enter_leave {α : Type} {tooDeep : DecodeFailure} {q : Read α} {rest : List UInt8}
    (hd : d < maxDecodeDepth) :
    (do enter tooDeep; let result ← q; leave; return result : Read α).run ⟨rest, d⟩ =
      match q.run ⟨rest, d + 1⟩ with
      | .ok (a, c') => .ok (a, ⟨c'.rest, c'.depth - 1⟩)
      | .error e => .error e := by
  have henter : (enter tooDeep).run ⟨rest, d⟩ = .ok ((), ⟨rest, d + 1⟩) :=
    if_neg (Nat.not_le.mpr hd)
  rw [StateT.run_bind, henter]
  show (do let result ← q; leave; return result : Read α).run ⟨rest, d + 1⟩ = _
  rw [StateT.run_bind]
  cases q.run ⟨rest, d + 1⟩ with
  | error e | ok r => rfl

theorem inStep_guarded {α : Type} {p q : Read α} {tooDeep : DecodeFailure}
    (hd : d' < maxDecodeDepth) (h : Guarded d (d' + 1) p q) :
    Guarded d d' p (do enter tooDeep; let result ← q; leave; return result) := by
  refine ⟨fun rest => ?_⟩
  rw [run_enter_leave hd]
  rcases h.lockstep rest with ⟨a, rest', hq, hp⟩ | ⟨e, hok, hq, hp⟩
  · exact .inl ⟨a, rest', by rw [hq]; rfl, hp⟩
  · exact .inr ⟨e, hok, by rw [hq], hp⟩

/-- With no frame left, `enter` refuses on both sides. -/
theorem inStep_refused {α : Type} {p q : Unit → Read α} {message : String}
    (hd : maxDecodeDepth ≤ d) :
    Guarded d d (enter (.error message) >>= p) (enter (.error message) >>= q) := by
  refine ⟨fun rest => ?_⟩
  have henter : (enter (.error message)).run ⟨rest, d⟩ = .error (.error message) := if_pos hd
  rw [StateT.run_bind, StateT.run_bind, henter]
  exact .inr ⟨.error message, (typeGuard_fixes_error _).1, rfl, rfl⟩

theorem inStep_entered {α : Type} {p q : Read α} {message : String}
    (h : d < maxDecodeDepth → Guarded (d + 1) (d + 1) p q) :
    Guarded d d
      (do enter (.error message); let result ← p; leave; return result)
      (do enter (.error message); let result ← q; leave; return result) := by
  by_cases hd : d < maxDecodeDepth
  · refine ⟨fun rest => ?_⟩
    rw [run_enter_leave hd, run_enter_leave hd]
    rcases (h hd).lockstep rest with ⟨a, rest', hq, hp⟩ | ⟨e, hok, hq, hp⟩
    · exact .inl ⟨a, rest', by rw [hq]; rfl, by rw [hp]; rfl⟩
    · exact .inr ⟨e, hok, by rw [hq], by rw [hp]⟩
  · exact inStep_refused (Nat.not_lt.mp hd)

/-- With as many frames as levels are left, `data_type` overflows where the
guarded one refuses. -/
theorem inStep_dataType {stack : Nat} (hs : stack ≤ maxDecodeDepth) :
    Guarded d (maxDecodeDepth - stack) (dataType .source stack)
      (dataType .guarded stack) := by
  induction stack with
  | zero => exact ⟨fun rest => .inr ⟨.typeTooDeep, by simp [typeGuard], rfl, rfl⟩⟩
  | succ stack ih =>
    have hlevel : maxDecodeDepth - (stack + 1) + 1 = maxDecodeDepth - stack := by omega
    have := ih (by omega)
    have hinner : Guarded d (maxDecodeDepth - stack)
        (dataTypeInner (dataType .source stack)) (dataTypeInner (dataType .guarded stack)) := by
      unfold dataTypeInner
      infer_instance
    rw [← hlevel] at hinner
    have hsource : dataType .source (stack + 1) = dataTypeInner (dataType .source stack) := by
      simp [dataType, enterType, leaveType, Checks.source]
    rw [hsource]
    exact inStep_guarded (by omega) hinner

instance {p q : Read Expr} [Guarded d d' p q] :
    Guarded d d' (expectedOperand .source p) (expectedOperand .guarded q) := by
  unfold expectedOperand; infer_instance

instance {α : Type} {decode : String → List UInt8 → Except String α} {label : String} :
    Guarded d d' (extensionPayload decode label) (extensionPayload decode label) := by
  unfold extensionPayload; infer_instance

instance : Guarded d d' (f32Bits .source) (f32Bits .guarded) := by
  unfold f32Bits; infer_instance

variable {host : Host}

instance {p q : Read Expr} {t u : Read DataType} [Guarded d d' p q]
    [Guarded d d' t u] {tag : UInt8} :
    Guarded d d' (exprArm host .source p t tag) (exprArm host .guarded q u tag) := by
  unfold exprArm
  split <;> infer_instance

theorem inStep_expr {stack : Nat} (hs : d + stack = maxDecodeDepth) :
    Guarded d d (expr host .source stack) (expr host .guarded stack) := by
  induction stack generalizing d with
  | zero => exact inStep_refused (by omega)
  | succ stack ih =>
    refine inStep_entered fun hd => ?_
    have htype := @inStep_dataType (d + 1) stack (by omega)
    rw [show maxDecodeDepth - stack = d + 1 by omega] at htype
    have := @ih (d + 1) (by omega)
    unfold exprInner
    infer_instance

instance : Guarded d d' sourceRegion sourceRegion :=
  .andThen fun tag => by split <;> infer_instance

instance {p q : Read Node} [Guarded d d' p q] :
    Guarded d d' (nodes p) (nodes q) := by
  unfold nodes; infer_instance

instance {p q : Read Expr} {r s : Read Node} [Guarded d d' p q]
    [Guarded d d' r s] {tag : UInt8} :
    Guarded d d' (nodeArm host p r tag) (nodeArm host q s tag) := by
  unfold nodeArm
  split <;> infer_instance

theorem inStep_node {stack : Nat} (hs : d + stack = maxDecodeDepth) :
    Guarded d d (node host .source stack) (node host .guarded stack) := by
  induction stack generalizing d with
  | zero => exact inStep_refused (by omega)
  | succ stack ih =>
    refine inStep_entered fun hd => ?_
    have := @inStep_expr (d + 1) host stack (by omega)
    have := @ih (d + 1) (by omega)
    unfold nodeInner
    infer_instance

end Trees

/-! ## Sections -/

section Sections

variable {d d' : Nat}

instance {α : Type} {field : String} {p q : Read α} [Guarded d d' p q] :
    Guarded d d' (optionally field p) (optionally field q) :=
  .andThen fun tag => by split <;> infer_instance

instance {field : String} : Guarded d d' (strictFlag field) (strictFlag field) :=
  .andThen fun tag => by split <;> infer_instance

instance : Guarded d d' cacheLocality cacheLocality :=
  .andThen fun tag => by split <;> infer_instance

instance : Guarded d d' readHints readHints := by unfold readHints; infer_instance

instance {size : UInt32 × UInt32 × UInt32} :
    Guarded d d' (validateWorkgroupSize size) (validateWorkgroupSize size) := by
  unfold validateWorkgroupSize; infer_instance

instance : Guarded d d' (outputRange .source) (outputRange .guarded) := by
  unfold outputRange; infer_instance

instance : Guarded d d' (readBufferMetadata .source) (readBufferMetadata .guarded) := by
  unfold readBufferMetadata; infer_instance

instance : Guarded d d' (readMetadata .source) (readMetadata .guarded) := by
  unfold readMetadata; infer_instance

instance {nodeIndex : Nat} :
    Guarded d d' (readOperand .source nodeIndex) (readOperand .guarded nodeIndex) := by
  unfold readOperand; infer_instance

instance {nodeIndex : Nat} :
    Guarded d d' (readNodeRecord .source nodeIndex)
      (readNodeRecord .guarded nodeIndex) := by
  unfold readNodeRecord; infer_instance

instance : Guarded d d' memoryKind memoryKind :=
  .andThen fun tag => by split <;> infer_instance

instance : Guarded d d' bufferAccess bufferAccess :=
  .andThen fun tag => by split <;> infer_instance

instance : Guarded d d' (readDenseQuantizationScale .source)
    (readDenseQuantizationScale .guarded) :=
  .andThen fun tag => .andThen fun param => by split <;> infer_instance

instance : Guarded d d' (readDenseQuantizationZeroPoint .source)
    (readDenseQuantizationZeroPoint .guarded) :=
  .andThen fun tag => .andThen fun param => by split <;> infer_instance

instance {tag : UInt8} : Guarded d d' (regionScalar tag) (regionScalar tag) :=
  inStep_mapError _

instance {tag : UInt8} :
    Guarded d d' (readElement .source tag) (readElement .guarded tag) := by
  unfold readElement
  split <;> infer_instance

instance {b : BufferDecl} {element : DataType} {count : UInt32} :
    Guarded d d' (validateOutputRangeFits b element count)
      (validateOutputRangeFits b element count) := by
  unfold validateOutputRangeFits
  split
  · infer_instance
  split
  · infer_instance
  split <;> infer_instance

instance {α : Type} {slice : List UInt8} {message : String} {p q : Read α}
    [hp : Guarded 0 0 p q] :
    Guarded d d' (within slice p (.error message)) (within slice q (.error message)) :=
  ⟨.within (typeGuard_fixes_error _) hp.lockstep⟩

instance {tag : UInt8} :
    Guarded d d' (readShape .source tag) (readShape .guarded tag) := by
  unfold readShape; infer_instance

instance {index : Nat} {b : BufferDecl} :
    Guarded d d' (readMemoryRegion .source index b)
      (readMemoryRegion .guarded index b) := by
  unfold readMemoryRegion
  iterate 9 refine .andThen fun _ => ?_
  refine .andThen fun shape => ?_
  obtain ⟨count, element⟩ := shape
  dsimp only
  iterate 4 refine .andThen fun _ => ?_
  infer_instance

instance {buffers : List BufferDecl} :
    Guarded d d' (readMemoryRegions .source buffers)
      (readMemoryRegions .guarded buffers) := by
  refine .andThen fun _ => .andThen fun _ => ?_
  generalize 0 = index
  induction buffers generalizing index with
  | nil =>
    unfold readMemoryRegionsFrom
    infer_instance
  | cons b bs ih =>
    unfold readMemoryRegionsFrom
    have := ih (index + 1)
    infer_instance

instance {buffers : List BufferDecl} {left : Nat} {previous : Option UInt32} :
    Guarded d d' (readOutputIndices .source buffers left previous)
      (readOutputIndices .guarded buffers left previous) := by
  induction left generalizing previous with
  | zero =>
    unfold readOutputIndices
    infer_instance
  | succ left ih =>
    refine .andThen fun index => ?_
    split
    · infer_instance
    · exact .andThen fun _ => .andThen fun _ => inferInstance

instance {buffers : List BufferDecl} :
    Guarded d d' (readOutputSet .source buffers) (readOutputSet .guarded buffers) := by
  unfold readOutputSet; infer_instance

variable {host : Host}

/-- Each record's payload is decoded at depth 0, with the whole stack. -/
instance {nodeIndex : Nat} :
    Guarded d d' (readEntryNode host .source maxDecodeDepth nodeIndex)
      (readEntryNode host .guarded maxDecodeDepth nodeIndex) := by
  have := @inStep_node 0 host maxDecodeDepth rfl
  unfold readEntryNode
  infer_instance

instance {left nodeIndex : Nat} :
    Guarded d d' (readEntryNodes host .source maxDecodeDepth left nodeIndex)
      (readEntryNodes host .guarded maxDecodeDepth left nodeIndex) := by
  induction left generalizing nodeIndex with
  | zero | succ left ih =>
    unfold readEntryNodes
    infer_instance

theorem inStep_readBody :
    Guarded d d' (readBody host .source maxDecodeDepth)
      (readBody host .guarded maxDecodeDepth) := by
  have hnodes : Guarded d d' (readNodes host .source maxDecodeDepth)
      (readNodes host .guarded maxDecodeDepth) := by
    refine .andThen fun _ => .andThen fun _ => .andThen fun record => ?_
    infer_instance
  refine .andThen fun parts => ?_
  infer_instance

end Sections

/-- `from_wire` on `MAX_DECODE_DEPTH` frames fails as the guarded decoder does,
up to what the guard relabels. -/
theorem fromWireWith_lockstep (host : Host) (bytes : List UInt8) :
    (∃ p, fromWireWith host .guarded maxDecodeDepth bytes = .ok p ∧
      fromWireWith host .source maxDecodeDepth bytes = .ok p) ∨
    ∃ e, e ≠ .stackOverflow ∧ fromWireWith host .guarded maxDecodeDepth bytes = .error e ∧
      fromWireWith host .source maxDecodeDepth bytes = .error (typeGuard.relabel e) := by
  unfold fromWireWith
  dsimp only
  split_ifs
  any_goals exact .inr ⟨_, by simp, rfl, rfl⟩
  rcases Lockstep.within (typeGuard_fixes_error _) (@inStep_readBody 0 0 host).lockstep [] with
    ⟨p, rest', hq, hp⟩ | ⟨e, hok, hq, hp⟩
  · exact .inl ⟨p, by rw [hq]; rfl, by rw [hp]; rfl⟩
  · exact .inr ⟨e, hok, by rw [hq]; rfl, by rw [hp]; rfl⟩

/-- No chain of nested decoder calls is deeper than `MAX_DECODE_DEPTH` exactly
when no data type is too deep for the expression it stands in. -/
theorem fromWire_depth_bounded_iff (host : Host) (bytes : List UInt8) :
    fromWireWith host .source maxDecodeDepth bytes ≠ .error .stackOverflow ↔
      fromWireWith host .guarded maxDecodeDepth bytes ≠ .error .typeTooDeep := by
  rcases fromWireWith_lockstep host bytes with ⟨p, hq, hp⟩ | ⟨e, hok, hq, hp⟩
  · simp [hq, hp]
  · cases e <;> simp_all [typeGuard]

/-- `u32` inside `n` vector types. -/
def nestedVec : Nat → DataType
  | 0 => .u32
  | n + 1 => .vec (nestedVec n) 1

/-- A cast to a vector of vectors of … of `u32`, seventy deep. -/
def deepCast : Program :=
  .newRaw [] (1, 1, 1) [.letBind "x" (.cast (nestedVec 70) (.litU32 0))]

theorem deepCast_overflows :
    fromWireWith plainHost .source maxDecodeDepth (programBytes plainHost deepCast) =
      .error .stackOverflow := by
  have hrun : (match fromWireWith plainHost .source maxDecodeDepth
      (programBytes plainHost deepCast) with
    | .error .stackOverflow => true
    | _ => false) = true := by
    decide +kernel
  split at hrun
  case h_1 h => exact h
  case h_2 => cases hrun

end Vyre.Wire
