import Vyre.Ir.Types

/-!
# Expressions, statements, programs

`Expr` and `Node` follow `ir_inner/model/generated.rs` constructor by
constructor; `BufferDecl` and `Program` keep the fields the wire codec, the
validator and the reference interpreter read. `f32` literals are their bit
patterns: no modelled function looks at an `f32` other than through its bits
or through the host's float arithmetic.

A trait object (`Arc<dyn ExprNode>`, `Arc<dyn NodeExtension>`) is the record of
what its methods return.
-/

namespace Vyre

/-- `dyn ExprNode`: an expression extension seen through its trait methods. -/
structure ExprExtension where
  extensionKind : String
  debugIdentity : String
  resultType : Option DataType
  validateExtension : Option String
  wirePayload : List UInt8
  deriving DecidableEq

/-- `dyn NodeExtension`: a statement extension seen through its trait methods. -/
structure NodeExtension where
  extensionKind : String
  debugIdentity : String
  validateExtension : Option String
  wirePayload : List UInt8
  deriving DecidableEq

inductive Expr where
  | litU32 (value : UInt32)
  | litI32 (value : Int32)
  | litF32 (bits : UInt32)
  | litBool (value : Bool)
  | var (name : Ident)
  | load (buffer : Ident) (index : Expr)
  | bufLen (buffer : Ident)
  | invocationId (axis : UInt8)
  | workgroupId (axis : UInt8)
  | localId (axis : UInt8)
  | binOp (op : BinOp) (left right : Expr)
  | unOp (op : UnOp) (operand : Expr)
  | call (opId : Ident) (args : List Expr)
  | select (cond trueVal falseVal : Expr)
  | cast (target : DataType) (value : Expr)
  | fma (a b c : Expr)
  | atomic (op : AtomicOp) (buffer : Ident) (index : Expr) (expected : Option Expr)
      (value : Expr) (ordering : MemoryOrdering)
  | subgroupBallot (cond : Expr)
  | subgroupShuffle (value lane : Expr)
  | subgroupAdd (value : Expr)
  | subgroupLocalId
  | subgroupSize
  | ext (extension : ExprExtension)

mutual

/-- Number of constructors, the measure of the loops that walk an expression
with an explicit stack. -/
def Expr.size : Expr → Nat
  | .load _ index => index.size + 1
  | .binOp _ left right => left.size + right.size + 1
  | .unOp _ operand => operand.size + 1
  | .call _ args => Expr.sizeList args + 1
  | .select cond trueVal falseVal => cond.size + trueVal.size + falseVal.size + 1
  | .cast _ value => value.size + 1
  | .fma a b c => a.size + b.size + c.size + 1
  | .atomic _ _ index expected value _ =>
      index.size + Expr.sizeOption expected + value.size + 1
  | .subgroupBallot cond => cond.size + 1
  | .subgroupShuffle value lane => value.size + lane.size + 1
  | .subgroupAdd value => value.size + 1
  | _ => 1

def Expr.sizeOption : Option Expr → Nat
  | none => 1
  | some e => e.size + 1

def Expr.sizeList : List Expr → Nat
  | [] => 0
  | e :: es => e.size + Expr.sizeList es

end

theorem Expr.sizeList_eq (es : List Expr) : Expr.sizeList es = (es.map Expr.size).sum := by
  induction es with
  | nil => rfl
  | cons e es ih => simp [Expr.sizeList, ih]

theorem Expr.size_pos (e : Expr) : 0 < e.size := by
  cases e <;> simp [Expr.size]

theorem Expr.size_le_sizeList {es : List Expr} {e : Expr} (he : e ∈ es) :
    e.size ≤ Expr.sizeList es := by
  induction es with
  | nil => cases he
  | cons x es ih =>
    rw [Expr.sizeList]
    rcases List.mem_cons.mp he with rfl | he
    · omega
    · have := ih he
      omega

theorem Expr.size_lt_call {opId : Ident} {args : List Expr} {a : Expr} (ha : a ∈ args) :
    a.size < (Expr.call opId args).size := by
  have := Expr.size_le_sizeList ha
  rw [Expr.size]
  omega

inductive Node where
  | letBind (name : Ident) (value : Expr)
  | assign (name : Ident) (value : Expr)
  | store (buffer : Ident) (index value : Expr)
  | ifThen (cond : Expr) (thenNodes otherwise : List Node)
  | loop (var : Ident) (lo hi : Expr) (body : List Node)
  | indirectDispatch (countBuffer : Ident) (countOffset : UInt64)
  | asyncLoad (source destination : Ident) (offset size : Expr) (tag : Ident)
  | asyncStore (source destination : Ident) (offset size : Expr) (tag : Ident)
  | asyncWait (tag : Ident)
  | trap (address : Expr) (tag : Ident)
  | resume (tag : Ident)
  | allReduce (buffer : Ident) (op : CollectiveOp) (group : UInt32)
  | allGather (input output : Ident) (group : UInt32)
  | reduceScatter (input output : Ident) (op : CollectiveOp) (group : UInt32)
  | broadcast (buffer : Ident) (root group : UInt32)
  | ret
  | barrier (ordering : MemoryOrdering)
  | block (body : List Node)
  | region (generator : Ident) (sourceRegion : Option String) (body : List Node)
  | ext (extension : NodeExtension)

/-- Structural induction with the operands of a call and the expected operand
of an atomic given as hypotheses over their members. -/
@[induction_eliminator]
theorem Expr.induction {P : Expr → Prop}
    (litU32 : ∀ value, P (.litU32 value))
    (litI32 : ∀ value, P (.litI32 value))
    (litF32 : ∀ bits, P (.litF32 bits))
    (litBool : ∀ value, P (.litBool value))
    (var : ∀ name, P (.var name))
    (load : ∀ buffer index, P index → P (.load buffer index))
    (bufLen : ∀ buffer, P (.bufLen buffer))
    (invocationId : ∀ axis, P (.invocationId axis))
    (workgroupId : ∀ axis, P (.workgroupId axis))
    (localId : ∀ axis, P (.localId axis))
    (binOp : ∀ op left right, P left → P right → P (.binOp op left right))
    (unOp : ∀ op operand, P operand → P (.unOp op operand))
    (call : ∀ opId args, (∀ arg ∈ args, P arg) → P (.call opId args))
    (select : ∀ cond trueVal falseVal, P cond → P trueVal → P falseVal →
      P (.select cond trueVal falseVal))
    (cast : ∀ target value, P value → P (.cast target value))
    (fma : ∀ a b c, P a → P b → P c → P (.fma a b c))
    (atomic : ∀ op buffer index expected value ordering, P index →
      (∀ e ∈ expected, P e) → P value →
      P (.atomic op buffer index expected value ordering))
    (subgroupBallot : ∀ cond, P cond → P (.subgroupBallot cond))
    (subgroupShuffle : ∀ value lane, P value → P lane → P (.subgroupShuffle value lane))
    (subgroupAdd : ∀ value, P value → P (.subgroupAdd value))
    (subgroupLocalId : P .subgroupLocalId)
    (subgroupSize : P .subgroupSize)
    (ext : ∀ extension, P (.ext extension))
    (e : Expr) : P e :=
  @Expr.rec P (fun es => ∀ e ∈ es, P e) (fun o => ∀ e ∈ o, P e)
    litU32 litI32 litF32 litBool var load bufLen invocationId workgroupId localId
    binOp unOp call select cast fma
    (fun op buffer index expected value ordering hi he hv =>
      atomic op buffer index expected value ordering hi he hv)
    subgroupBallot subgroupShuffle subgroupAdd subgroupLocalId subgroupSize ext
    (by simp) (fun head tail hh ht => by simpa using ⟨hh, ht⟩)
    (by simp) (fun val hv => by simpa using hv) e

/-- Structural induction with nested bodies given as hypotheses over their
members. -/
@[induction_eliminator]
theorem Node.induction {P : Node → Prop}
    (letBind : ∀ name value, P (.letBind name value))
    (assign : ∀ name value, P (.assign name value))
    (store : ∀ buffer index value, P (.store buffer index value))
    (ifThen : ∀ cond thenNodes otherwise, (∀ n ∈ thenNodes, P n) →
      (∀ n ∈ otherwise, P n) → P (.ifThen cond thenNodes otherwise))
    (loop : ∀ var lo hi body, (∀ n ∈ body, P n) → P (.loop var lo hi body))
    (indirectDispatch : ∀ buffer offset, P (.indirectDispatch buffer offset))
    (asyncLoad : ∀ source destination offset size tag,
      P (.asyncLoad source destination offset size tag))
    (asyncStore : ∀ source destination offset size tag,
      P (.asyncStore source destination offset size tag))
    (asyncWait : ∀ tag, P (.asyncWait tag))
    (trap : ∀ address tag, P (.trap address tag))
    (resume : ∀ tag, P (.resume tag))
    (allReduce : ∀ buffer op group, P (.allReduce buffer op group))
    (allGather : ∀ input output group, P (.allGather input output group))
    (reduceScatter : ∀ input output op group, P (.reduceScatter input output op group))
    (broadcast : ∀ buffer root group, P (.broadcast buffer root group))
    (ret : P .ret)
    (barrier : ∀ ordering, P (.barrier ordering))
    (block : ∀ body, (∀ n ∈ body, P n) → P (.block body))
    (region : ∀ generator sourceRegion body, (∀ n ∈ body, P n) →
      P (.region generator sourceRegion body))
    (ext : ∀ extension, P (.ext extension))
    (n : Node) : P n :=
  @Node.rec P (fun ns => ∀ n ∈ ns, P n)
    letBind assign store ifThen loop indirectDispatch asyncLoad asyncStore asyncWait
    trap resume allReduce allGather reduceScatter broadcast ret barrier block region ext
    (by simp) (fun head tail hh ht => by simpa using ⟨hh, ht⟩) n

mutual

/-- `P` holds of the expression and of every expression inside it. -/
def Expr.Forall (P : Expr → Prop) : Expr → Prop
  | .load buffer index => P (.load buffer index) ∧ index.Forall P
  | .binOp op left right => P (.binOp op left right) ∧ left.Forall P ∧ right.Forall P
  | .unOp op operand => P (.unOp op operand) ∧ operand.Forall P
  | .call opId args => P (.call opId args) ∧ Expr.ForallArgs P args
  | .select cond trueVal falseVal => P (.select cond trueVal falseVal) ∧
      cond.Forall P ∧ trueVal.Forall P ∧ falseVal.Forall P
  | .cast target value => P (.cast target value) ∧ value.Forall P
  | .fma a b c => P (.fma a b c) ∧ a.Forall P ∧ b.Forall P ∧ c.Forall P
  | .atomic op buffer index expected value ordering =>
      P (.atomic op buffer index expected value ordering) ∧
        index.Forall P ∧ Expr.ForallExpected P expected ∧ value.Forall P
  | .subgroupBallot cond => P (.subgroupBallot cond) ∧ cond.Forall P
  | .subgroupShuffle value lane => P (.subgroupShuffle value lane) ∧ value.Forall P ∧ lane.Forall P
  | .subgroupAdd value => P (.subgroupAdd value) ∧ value.Forall P
  | e => P e

def Expr.ForallExpected (P : Expr → Prop) : Option Expr → Prop
  | none => True
  | some e => e.Forall P

def Expr.ForallArgs (P : Expr → Prop) : List Expr → Prop
  | [] => True
  | e :: es => e.Forall P ∧ Expr.ForallArgs P es

end

mutual

/-- `Q` holds of the statement and of every statement inside it, `P` of every
expression inside it. -/
def Node.Forall (P : Expr → Prop) (Q : Node → Prop) : Node → Prop
  | .letBind name value => Q (.letBind name value) ∧ value.Forall P
  | .assign name value => Q (.assign name value) ∧ value.Forall P
  | .store buffer index value => Q (.store buffer index value) ∧ index.Forall P ∧ value.Forall P
  | .ifThen cond thenNodes otherwise => Q (.ifThen cond thenNodes otherwise) ∧
      cond.Forall P ∧ Node.ForallList P Q thenNodes ∧ Node.ForallList P Q otherwise
  | .loop var lo hi body => Q (.loop var lo hi body) ∧
      lo.Forall P ∧ hi.Forall P ∧ Node.ForallList P Q body
  | .asyncLoad source destination offset size tag =>
      Q (.asyncLoad source destination offset size tag) ∧ offset.Forall P ∧ size.Forall P
  | .asyncStore source destination offset size tag =>
      Q (.asyncStore source destination offset size tag) ∧ offset.Forall P ∧ size.Forall P
  | .trap address tag => Q (.trap address tag) ∧ address.Forall P
  | .block body => Q (.block body) ∧ Node.ForallList P Q body
  | .region generator sourceRegion body =>
      Q (.region generator sourceRegion body) ∧ Node.ForallList P Q body
  | n => Q n

def Node.ForallList (P : Expr → Prop) (Q : Node → Prop) : List Node → Prop
  | [] => True
  | n :: ns => n.Forall P Q ∧ Node.ForallList P Q ns

end

section Forall

variable {P P' : Expr → Prop} {Q Q' : Node → Prop}

@[simp] theorem Expr.forallArgs_iff {es : List Expr} :
    Expr.ForallArgs P es ↔ ∀ e ∈ es, e.Forall P := by
  induction es with
  | nil => simp [Expr.ForallArgs]
  | cons e es ih => simp [Expr.ForallArgs, ih]

@[simp] theorem Expr.forallExpected_iff {e : Option Expr} :
    Expr.ForallExpected P e ↔ ∀ x ∈ e, x.Forall P := by
  cases e <;> simp [Expr.ForallExpected]

@[simp] theorem Node.forallList_iff {ns : List Node} :
    Node.ForallList P Q ns ↔ ∀ n ∈ ns, n.Forall P Q := by
  induction ns with
  | nil => simp [Node.ForallList]
  | cons n ns ih => simp [Node.ForallList, ih]

theorem Expr.forall_of_all (h : ∀ e, P e) (e : Expr) : e.Forall P := by
  induction e with
  | call opId args ih =>
    simp only [Expr.Forall, Expr.forallArgs_iff]
    exact ⟨h _, ih⟩
  | atomic _ _ _ _ _ _ ihi ihe ihv =>
    simp only [Expr.Forall, Expr.forallExpected_iff]
    exact ⟨h _, ihi, ihe, ihv⟩
  | _ => simp_all [Expr.Forall]

theorem Expr.Forall.mp {e : Expr} : (e.Forall fun e => P e → P' e) → e.Forall P → e.Forall P' := by
  induction e with
  | call opId args ih =>
    simp only [Expr.Forall, Expr.forallArgs_iff]
    exact fun ⟨h, hargs⟩ ⟨he, hargs'⟩ => ⟨h he, fun a ha => ih a ha (hargs a ha) (hargs' a ha)⟩
  | atomic _ _ _ _ _ _ ihi ihe ihv =>
    simp only [Expr.Forall, Expr.forallExpected_iff]
    exact fun ⟨h, hi, hx, hv⟩ ⟨he, hi', hx', hv'⟩ =>
      ⟨h he, ihi hi hi', fun x hm => ihe x hm (hx x hm) (hx' x hm), ihv hv hv'⟩
  | _ => simp_all [Expr.Forall]

theorem Expr.Forall.imp (h : ∀ e, P e → P' e) {e : Expr} : e.Forall P → e.Forall P' :=
  (Expr.forall_of_all h e).mp

theorem Expr.Forall.and {e : Expr} (h : e.Forall P) : e.Forall P' →
    e.Forall fun e => P e ∧ P' e :=
  (h.imp fun _ => And.intro).mp

theorem Expr.Forall.nested {e : Expr} : e.Forall P → e.Forall fun x => x.Forall P := by
  induction e with
  | call opId args ih =>
    intro h
    refine ⟨h, Expr.forallArgs_iff.mpr fun a ha => ih a ha ?_⟩
    exact Expr.forallArgs_iff.mp h.2 a ha
  | atomic _ _ _ _ _ _ ihi ihe ihv =>
    intro h
    refine ⟨h, ihi h.2.1, Expr.forallExpected_iff.mpr fun x hx => ihe x hx ?_, ihv h.2.2.2⟩
    exact Expr.forallExpected_iff.mp h.2.2.1 x hx
  | _ => simp_all [Expr.Forall]

theorem Node.forall_of_all (hP : ∀ e, P e) (hQ : ∀ n, Q n) (n : Node) : n.Forall P Q := by
  have he := Expr.forall_of_all hP
  induction n with
  | ifThen cond thenNodes otherwise iht iho =>
    simp only [Node.Forall, Node.forallList_iff]
    exact ⟨hQ _, he _, iht, iho⟩
  | _ => simp_all [Node.Forall]

theorem Node.Forall.mp {n : Node} : n.Forall (fun e => P e → P' e) (fun n => Q n → Q' n) →
    n.Forall P Q → n.Forall P' Q' := by
  have he : ∀ {e : Expr}, (e.Forall fun e => P e → P' e) → e.Forall P → e.Forall P' :=
    Expr.Forall.mp
  induction n with
  | ifThen cond thenNodes otherwise iht iho =>
    simp only [Node.Forall, Node.forallList_iff]
    exact fun ⟨h, hc, ht, ho⟩ ⟨hn, hc', ht', ho'⟩ => ⟨h hn, he hc hc',
      fun m hm => iht m hm (ht m hm) (ht' m hm), fun m hm => iho m hm (ho m hm) (ho' m hm)⟩
  | loop var lo hi body ih =>
    simp only [Node.Forall, Node.forallList_iff]
    exact fun ⟨h, hl, hh, hb⟩ ⟨hn, hl', hh', hb'⟩ =>
      ⟨h hn, he hl hl', he hh hh', fun m hm => ih m hm (hb m hm) (hb' m hm)⟩
  | block body ih | region _ _ body ih =>
    simp only [Node.Forall, Node.forallList_iff]
    exact fun ⟨h, hb⟩ ⟨hn, hb'⟩ => ⟨h hn, fun m hm => ih m hm (hb m hm) (hb' m hm)⟩
  | _ => simp_all [Node.Forall]

theorem Node.Forall.imp (hP : ∀ e, P e → P' e) (hQ : ∀ n, Q n → Q' n) {n : Node} :
    n.Forall P Q → n.Forall P' Q' :=
  (Node.forall_of_all hP hQ n).mp

theorem Node.Forall.and {n : Node} (h : n.Forall P Q) : n.Forall P' Q' →
    n.Forall (fun e => P e ∧ P' e) fun n => Q n ∧ Q' n :=
  (h.imp (fun _ => And.intro) fun _ => And.intro).mp

end Forall

def nodeOpId : Node → String
  | .letBind _ _ => "vyre.node.let"
  | .assign _ _ => "vyre.node.assign"
  | .store _ _ _ => "vyre.node.store"
  | .ifThen _ _ _ => "vyre.node.if"
  | .loop _ _ _ _ => "vyre.node.loop"
  | .ret => "vyre.node.return"
  | .block _ => "vyre.node.block"
  | .barrier _ => "vyre.node.barrier"
  | .region _ _ _ => "vyre.node.region"
  | .indirectDispatch _ _ => "vyre.node.indirect_dispatch"
  | .asyncLoad _ _ _ _ _ => "vyre.node.async_load"
  | .asyncStore _ _ _ _ _ => "vyre.node.async_store"
  | .asyncWait _ => "vyre.node.async_wait"
  | .trap _ _ => "vyre.node.trap"
  | .resume _ => "vyre.node.resume"
  | .allReduce _ _ _ => "vyre.node.all_reduce"
  | .allGather _ _ _ => "vyre.node.all_gather"
  | .reduceScatter _ _ _ _ => "vyre.node.reduce_scatter"
  | .broadcast _ _ _ => "vyre.node.broadcast"
  | .ext extension => extension.extensionKind

structure BufferDecl where
  name : Ident
  binding : UInt32
  access : BufferAccess
  kind : MemoryKind
  element : DataType
  count : UInt32 := 0
  isOutput : Bool := false
  pipelineLiveOut : Bool := false
  /-- `output_byte_range : Option<Range<usize>>`, as `(start, end)`. -/
  outputByteRange : Option (UInt64 × UInt64) := none
  hints : MemoryHints := {}
  bytesExtraction : Bool := false
  linearType : LinearType := .unrestricted
  shapePredicate : Option ShapePredicate := none
  deriving DecidableEq

/-- `Program`; the caches behind `OnceLock` are functions of these fields. -/
structure Program where
  entryOpId : Option String := none
  buffers : List BufferDecl
  workgroupSize : UInt32 × UInt32 × UInt32
  entry : List Node
  nonComposableWithSelf : Bool := false

/-- `BufferDecl::storage`: the memory kind follows the access. -/
def BufferDecl.storage (name : Ident) (binding : UInt32) (access : BufferAccess)
    (element : DataType) : BufferDecl where
  name := name
  binding := binding
  access := access
  kind := match access with
    | .readOnly => .readonly
    | .uniform => .uniform
    | .workgroup => .shared
    | _ => .global
  element := element

def BufferDecl.readWrite (name : Ident) (binding : UInt32) (element : DataType) : BufferDecl :=
  .storage name binding .readWrite element

def BufferDecl.workgroup (name : Ident) (count : UInt32) (element : DataType) : BufferDecl :=
  { BufferDecl.storage name 0 .workgroup element with count }

/-- `Program::new_raw`: no operation id, self-composable. -/
def Program.newRaw (buffers : List BufferDecl) (workgroupSize : UInt32 × UInt32 × UInt32)
    (entry : List Node) : Program :=
  { buffers, workgroupSize, entry }

def rootRegionGenerator : Ident := "vyre.program.root"

/-- `Program::wrapped` for an entry that is not already wrapped. -/
def Program.wrapped (buffers : List BufferDecl) (workgroupSize : UInt32 × UInt32 × UInt32)
    (entry : List Node) : Program :=
  .newRaw buffers workgroupSize [.region rootRegionGenerator none entry]

/-- `Program::buffer`: lookup through the name index, where the first
declaration of a name stays. -/
def Program.buffer (p : Program) (name : Ident) : Option BufferDecl :=
  p.buffers.find? (·.name == name)

end Vyre
