import Vyre.Ir.Types
import Mathlib.Tactic.Common

/-!
# Kernel descriptors

`vyre-lower/src/descriptor.rs`: the result-id form between the optimizer and
the emitters, with the operand classes of `operand_semantics.rs`. An op names
its operands by number, and what a number means (result id, binding slot, pool
index, child body) depends on the op's kind and the position.
-/

namespace Vyre.Lower

open List

inductive MatrixMmaShape where
  | m16n8k16
  deriving DecidableEq

inductive MatrixMmaElement where
  | f16 | bf16 | tf32 | f32
  deriving DecidableEq

inductive MatrixMmaLayout where
  | rowMajor | colMajor
  deriving DecidableEq

inductive KernelOpKind where
  | literal
  | copy
  | localInvocationId
  | globalInvocationId
  | workgroupId
  | subgroupLocalId
  | subgroupSize
  | loopIndex (loopVar : Ident)
  | loopCarrierInit (name : Ident)
  | loopCarrier (name : Ident)
  | loopCarrierEnd (name : Ident)
  | loadGlobal
  | loadShared
  | loadConstant
  | bufferLength
  | storeGlobal
  | storeShared
  | binOpKind (op : BinOp)
  | unOpKind (op : UnOp)
  | fma
  | matrixMma (shape : MatrixMmaShape) (aLayout bLayout : MatrixMmaLayout)
      (aType bType accumType : MatrixMmaElement)
  | select
  | cast (target : DataType)
  | atomic (op : AtomicOp) (ordering : MemoryOrdering)
  | subgroupBallot
  | subgroupShuffle
  | subgroupAdd
  | structuredIfThen
  | structuredIfThenElse
  | structuredForLoop (loopVar : Ident)
  | structuredBlock
  | ret
  | barrier (ordering : MemoryOrdering)
  | region (generator : Ident)
  | asyncLoad (tag : Ident)
  | asyncStore (tag : Ident)
  | asyncWait (tag : Ident)
  | trap (tag : Ident)
  | resume (tag : Ident)
  | indirectDispatch (countOffset : UInt64)
  | call (opId : Ident)
  | opaqueExpr (extensionId : UInt32) (extensionKind : String) (payload : List UInt8)
  | opaqueNode (extensionKind : String) (payload : List UInt8)
  deriving DecidableEq

/-- `LiteralValue`; an `f32` is its bit pattern. -/
inductive LiteralValue where
  | u32 (value : UInt32)
  | i32 (value : Int32)
  | f32 (bits : UInt32)
  | bool (value : Bool)
  deriving DecidableEq

structure KernelOp where
  kind : KernelOpKind
  operands : List UInt32
  result : Option UInt32
  deriving DecidableEq

structure KernelBody where
  ops : List KernelOp
  childBodies : List KernelBody
  literals : List LiteralValue

inductive MemoryClass where
  | global | shared | constant | uniform | scratch
  deriving DecidableEq

inductive BindingVisibility where
  | readOnly | writeOnly | readWrite
  deriving DecidableEq

structure BindingSlot where
  slot : UInt32
  elementType : DataType
  elementCount : Option UInt32
  memoryClass : MemoryClass
  visibility : BindingVisibility
  name : String
  deriving DecidableEq

/-- `KernelDescriptor`; the layout is its list of slots and the dispatch its
workgroup size. -/
structure KernelDescriptor where
  id : String
  bindings : List BindingSlot
  workgroupSize : UInt32 × UInt32 × UInt32
  body : KernelBody

def operandIsResultReference (kind : KernelOpKind) (pos : Nat) : Bool :=
  match kind with
  | .literal => false
  | .localInvocationId | .globalInvocationId | .workgroupId => false
  | .subgroupLocalId | .subgroupSize | .loopIndex _ => false
  | .loopCarrierInit _ | .loopCarrier _ | .loopCarrierEnd _ => pos == 0
  | .loadGlobal | .loadShared | .loadConstant => pos != 0
  | .bufferLength => false
  | .storeGlobal | .storeShared => pos != 0
  | .copy | .binOpKind _ | .unOpKind _ | .fma | .matrixMma .. | .select | .cast _ => true
  | .atomic _ _ => pos != 0
  | .subgroupBallot | .subgroupShuffle | .subgroupAdd => true
  | .structuredIfThen | .structuredIfThenElse => pos == 0
  | .structuredForLoop _ => pos != 2
  | .structuredBlock | .region _ => false
  | .ret | .barrier _ => false
  | .asyncLoad _ | .asyncStore _ => 2 ≤ pos
  | .asyncWait _ => false
  | .trap _ => pos == 0
  | .resume _ => false
  | .indirectDispatch _ => false
  | .call _ => true
  | .opaqueExpr .. | .opaqueNode .. => true

variable {b b' c : KernelBody}

@[induction_eliminator]
theorem KernelBody.induction {motive : KernelBody → Prop}
    (mk : ∀ ops childBodies literals, (∀ c ∈ childBodies, motive c) →
      motive ⟨ops, childBodies, literals⟩) (b : KernelBody) : motive b :=
  @KernelBody.rec motive (fun cs => ∀ c ∈ cs, motive c) mk
    (by simp) (fun head tail hh ht => by simpa using ⟨hh, ht⟩) b

mutual

/-- The bodies of a tree, the root first. -/
def KernelBody.bodies : KernelBody → List KernelBody
  | ⟨ops, childBodies, literals⟩ =>
    ⟨ops, childBodies, literals⟩ :: bodiesList childBodies

def KernelBody.bodiesList : List KernelBody → List KernelBody
  | [] => []
  | c :: cs => c.bodies ++ bodiesList cs

end

theorem KernelBody.mem_bodiesList {cs : List KernelBody} :
    b ∈ bodiesList cs ↔ ∃ c ∈ cs, b ∈ c.bodies := by
  induction cs with
  | nil => simp [bodiesList]
  | cons c cs ih => simp [bodiesList, ih]

theorem KernelBody.mem_bodies : b' ∈ b.bodies ↔ b' = b ∨ ∃ c ∈ b.childBodies, b' ∈ c.bodies := by
  cases b
  rw [bodies, mem_cons, mem_bodiesList]

theorem KernelBody.self_mem_bodies (b : KernelBody) : b ∈ b.bodies :=
  mem_bodies.mpr (.inl rfl)

theorem KernelBody.mem_bodies_of_child (hc : c ∈ b.childBodies) (h : b' ∈ c.bodies) :
    b' ∈ b.bodies :=
  mem_bodies.mpr (.inr ⟨c, hc, h⟩)

end Vyre.Lower
