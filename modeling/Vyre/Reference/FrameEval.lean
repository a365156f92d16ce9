import Vyre.Lib.Worklist
import Vyre.Reference.Eval

/-!
# The frame-stack evaluator

`eval_frame_oracle` (`execution/expr.rs`): a stack of frames still to run and a
stack of values. Unlike the recursive evaluator it looks buffers up through
their declarations. The arguments of a call are evaluated by a nested run, so
the evaluator is bounded by the nesting of calls.
-/

namespace Vyre.Reference

open Eval List ByteCodec

/-- The frames of `eval_frame_oracle`. -/
inductive EvalFrame where
  | expr (e : Expr)
  | binOp (op : BinOp)
  | unOp (op : UnOp)
  | select
  | cast (target : DataType)
  | fma
  | load (buffer : Ident)
  | atomicIndex (op : AtomicOp) (buffer : Ident) (expected : Option Expr) (value : Expr)
  | atomicExpected (op : AtomicOp) (buffer : Ident) (index : UInt32) (value expectedExpr : Expr)
  | atomicValue (op : AtomicOp) (buffer : Ident) (expected : Option UInt32) (index : UInt32)

structure EvalState where
  values : List Value
  memory : Memory

namespace EvalState

def push (st : EvalState) (v : Value) : EvalState := { st with values := v :: st.values }

/-- `values.pop().ok_or_else(..)`. -/
def pop (st : EvalState) (message : String) : Except Error (Value × EvalState) :=
  match st.values with
  | v :: values => .ok (v, { st with values })
  | [] => .error (.interp message)

end EvalState

/-- `ok_or_else` outside the evaluation monad. -/
def orError {α : Type} (o : Option α) (e : Error) : Except Error α :=
  match o with
  | some a => .ok a
  | none => .error e

section Declared

variable (program : Program)

def bufferDecl (name : Ident) : Except Error BufferDecl :=
  orError (program.buffer name)
    (.interp s!"unknown buffer `{name}`. Fix: declare it in Program::buffers.")

/-- The buffer in the map its declaration names, as `resolve_buffer` and
`resolve_buffer_mut` look it up. -/
def declaredBuffer (memory : Memory) (decl : BufferDecl) (name : Ident) : Except Error Buffer :=
  orError (if decl.access = .workgroup then memory.workgroup name else memory.storage name)
    (.interp s!"missing buffer `{name}`. Fix: initialize all declared buffers.")

/-- `resolve_buffer` of `execution/expr.rs`. -/
def resolveDeclared (memory : Memory) (name : Ident) : Except Error Buffer := do
  let decl ← bufferDecl program name
  declaredBuffer memory decl name

/-- `atomic_buffer_mut` of `execution/expr.rs`. -/
def atomicDeclared (memory : Memory) (name : Ident) : Except Error Buffer := do
  let decl ← bufferDecl program name
  match decl.access with
  | .readWrite => declaredBuffer memory decl name
  | .workgroup => .error (.interp s!"atomic target `{name}` is workgroup memory. Fix: atomics only support ReadWrite storage buffers.")
  | .readOnly | .uniform => .error (.interp s!"atomic target `{name}` is not writable. Fix: atomics only support ReadWrite storage buffers.")
  | _ => .error (.interp s!"atomic target `{name}` uses an unsupported access mode. Fix: use a supported BufferAccess.")

end Declared

/-- `resolve_call` of `call.rs`. -/
def resolveFrameCall (host : Host) (opId : Ident) : Except Error OpDef :=
  match host.dialect with
  | none => .error (.interp s!"unsupported call `{opId}`: no DialectLookup is installed. Fix: initialize vyre-driver before running the reference interpreter or inline the callee as IR.")
  | some lookup =>
      orError (lookup opId) (.interp s!"unsupported call `{opId}`. Fix: register the op in DialectRegistry or inline the callee as IR.")

/-- `encode_inputs` of `call.rs`, with the nested evaluator it calls. -/
def encodeFrameInputs (evalArg : Expr → Eval Value) (opId : Ident) :
    List Expr → List String → List UInt8 → Eval (List UInt8)
  | arg :: args, param :: params, input => do
      if maxCallInputBytes < input.length + paramWidth param then
        fail (.interp s!"call `{opId}` requires {input.length + paramWidth param} input bytes, exceeding the {maxCallInputBytes}-byte reference budget. Fix: reduce call input size.")
      let v ← evalArg arg
      encodeFrameInputs evalArg opId args params (input ++ v.toBytesWidth (paramWidth param))
  | _, _, input => return input

/-- `eval_call` of `call.rs`. -/
def evalFrameCall (host : Host) (evalArg : Expr → Eval Value) (opId : Ident) (args : List Expr) :
    Eval Value := do
  let op ← Eval.lift (resolveFrameCall host opId)
  Eval.lift (validateArity opId args.length op.inputs.length)
  let input ← encodeFrameInputs evalArg opId args op.inputs []
  let output ← Eval.lift (invokeCpuRef opId op input)
  return specOutputValue host.floats (parsedOutType op.outputs) output

section Machine

variable (host : Host) (program : Program) (lane : Lane) (evalArg : Expr → Eval Value)

/-- One round of the loop: the frames pushed, first the one popped next. -/
def frameStep : EvalFrame → EvalState → Except Error (List EvalFrame × EvalState)
  | .expr (.litU32 value), st => .ok ([], st.push (.u32 value))
  | .expr (.litI32 value), st => .ok ([], st.push (.i32 value))
  | .expr (.litF32 bits), st => .ok ([], st.push (floatValue host.floats bits))
  | .expr (.litBool value), st => .ok ([], st.push (.bool value))
  | .expr (.var name), st => do
      let v ← orError (lane.locals name) (.undeclaredVariable name)
      return ([], st.push v)
  | .expr (.bufLen buffer), st => do
      let target ← resolveDeclared program st.memory buffer
      return ([], st.push (.u32 target.len))
  | .expr (.invocationId axis), st => do return ([], st.push (← axisValue lane.ids.global axis))
  | .expr (.workgroupId axis), st => do return ([], st.push (← axisValue lane.ids.workgroup axis))
  | .expr (.localId axis), st => do return ([], st.push (← axisValue lane.ids.local axis))
  | .expr (.load buffer index), st => .ok ([.expr index, .load buffer], st)
  | .expr (.binOp op left right), st => .ok ([.expr left, .expr right, .binOp op], st)
  | .expr (.unOp op operand), st => .ok ([.expr operand, .unOp op], st)
  | .expr (.select cond trueVal falseVal), st =>
      .ok ([.expr cond, .expr trueVal, .expr falseVal, .select], st)
  | .expr (.cast target value), st => .ok ([.expr value, .cast target], st)
  | .expr (.fma a b c), st => .ok ([.expr a, .expr b, .expr c, .fma], st)
  | .expr (.atomic op buffer index expected value _), st => do
      atomicExpectedRule op expected
      return ([.expr index, .atomicIndex op buffer expected value], st)
  | .expr (.call opId args), st => do
      let (v, memory) ← evalFrameCall host evalArg opId args st.memory
      return ([], { values := v :: st.values, memory })
  | .expr (.ext extension), _ => .error (.interp s!"reference interpreter does not support opaque expression extension `{extension.extensionKind}`/`{extension.debugIdentity}`. Fix: provide a reference evaluator for this ExprNode or lower it to core Expr variants before evaluation.")
  | .expr _, _ => .error (.interp "reference interpreter encountered an unknown expression variant. Fix: add explicit reference semantics for the new ExprNode before dispatch.")
  | .binOp op, st => do
      let (right, st) ← st.pop "binary op missing right operand. Fix: internal evaluator error."
      let (left, st) ← st.pop "binary op missing left operand. Fix: internal evaluator error."
      return ([], st.push (← evalBinop host.floats op left right))
  | .unOp op, st => do
      let (operand, st) ← st.pop "unary op missing operand. Fix: internal evaluator error."
      return ([], st.push (← evalUnop host.floats op operand))
  | .select, st => do
      let (falseVal, st) ← st.pop "select missing false branch. Fix: internal evaluator error."
      let (trueVal, st) ← st.pop "select missing true branch. Fix: internal evaluator error."
      let (cond, st) ← st.pop "select missing condition. Fix: internal evaluator error."
      return ([], st.push (if cond.truthy host.floats then trueVal else falseVal))
  | .cast target, st => do
      let (value, st) ← st.pop "cast missing value. Fix: internal evaluator error."
      return ([], st.push (← castValue host.floats target value))
  -- the operands are checked last to first, after all three are evaluated
  | .fma, st => do
      let (c, st) ← st.pop "fma missing operand c. Fix: internal evaluator error."
      let z ← orError (c.tryAsF32 host.floats) (.interp "fma operand `c` is not a float. Fix: cast to f32 before fma.")
      let (b, st) ← st.pop "fma missing operand b. Fix: internal evaluator error."
      let y ← orError (b.tryAsF32 host.floats) (.interp "fma operand `b` is not a float. Fix: cast to f32 before fma.")
      let (a, st) ← st.pop "fma missing operand a. Fix: internal evaluator error."
      let x ← orError (a.tryAsF32 host.floats) (.interp "fma operand `a` is not a float. Fix: cast to f32 before fma.")
      return ([], st.push (fmaValue host.floats x y z))
  | .load buffer, st => do
      let (value, st) ← st.pop "load missing index. Fix: internal evaluator error."
      let idx ← orError (value.tryAsU32 host.floats) (.indexNotU32 "load index" value)
      let target ← resolveDeclared program st.memory buffer
      return ([], st.push (target.load host.floats idx))
  | .atomicIndex op buffer expected value, st => do
      let (v, st) ← st.pop "atomic missing index. Fix: internal evaluator error."
      let idx ← orError (v.tryAsU32 host.floats) (.indexNotU32 "atomic index" v)
      match expected with
      | some e => return ([.expr e, .atomicExpected op buffer idx value e], st)
      | none => return ([.expr value, .atomicValue op buffer none idx], st)
  | .atomicExpected op buffer idx value e, st => do
      let (v, st) ← st.pop "atomic compare-exchange missing expected value. Fix: internal evaluator error."
      let word ← orError (v.tryAsU32 host.floats) (.atomicExpected e)
      return ([.expr value, .atomicValue op buffer (some word) idx], st)
  | .atomicValue op buffer expected idx, st => do
      let (v, st) ← st.pop "atomic missing value. Fix: internal evaluator error."
      let word ← orError (v.tryAsU32 host.floats) (.interp "atomic value cannot be represented as u32. Fix: use a scalar u32-compatible argument.")
      let (old, memory) ← atomicRmw (atomicDeclared program) op buffer idx expected word st.memory
      return ([], { values := old :: st.values, memory })

def EvalFrame.weight : EvalFrame → Nat
  | .expr e => 4 * e.size
  | .atomicIndex _ _ none value => 4 * value.size + 2
  | .atomicIndex _ _ (some e) value => 4 * e.size + 4 * value.size + 3
  | .atomicExpected _ _ _ value _ => 4 * value.size + 2
  | _ => 1

theorem frameStep_decreases {frame : EvalFrame} {st st' : EvalState} {items : List EvalFrame}
    (h : frameStep host program lane evalArg frame st = .ok (items, st')) :
    (items.map EvalFrame.weight).sum < frame.weight := by
  cases frame with
  | expr e =>
    cases e with
    | atomic _ _ _ expected _ _ =>
      simp only [frameStep, bind_eq_ok] at h
      obtain ⟨_, -, rfl, -⟩ := h
      cases expected <;> simp only [map_cons, map_nil, sum_cons, sum_nil,
        EvalFrame.weight, Expr.size, Expr.sizeOption] <;> omega
    | _ =>
      simp only [frameStep, bind_eq_ok] at h
      (first | obtain ⟨rfl, -⟩ := h | obtain ⟨_, -, rfl, -⟩ := h) <;>
      simp only [map_cons, map_nil, sum_cons, sum_nil, EvalFrame.weight,
        Expr.size] <;>
      omega
  | atomicIndex op buffer expected value =>
    simp only [frameStep, bind_eq_ok] at h
    obtain ⟨p, -, idx, -, h⟩ := h
    cases expected with
    | none | some e =>
      cases h
      simp only [map_cons, map_nil, sum_cons, sum_nil, EvalFrame.weight]
      omega
  | atomicExpected op buffer idx value e =>
    simp only [frameStep, bind_eq_ok] at h
    obtain ⟨p, -, word, -, h⟩ := h
    cases h
    simp [EvalFrame.weight]
  | _ =>
    -- The frames of an operator push nothing.
    simp only [frameStep, bind_eq_ok] at h
    first
    | obtain ⟨_, -, _, -, rfl, -⟩ := h
    | obtain ⟨_, -, _, -, _, -, rfl, -⟩ := h
    | obtain ⟨_, -, _, -, _, -, _, -, _, -, _, -, rfl, -⟩ := h
    exact Nat.one_pos

/-- The loop of `eval_frame_oracle`. -/
def frameLoop : Worklist.Loop EvalFrame EvalState Error where
  step := frameStep host program lane evalArg
  weight := EvalFrame.weight
  decreases := frameStep_decreases host program lane evalArg

/-- The body of `eval_frame_oracle`, with the evaluator of call arguments. -/
def runFrames (e : Expr) : Eval Value := fun memory => do
  let st ← (frameLoop host program lane evalArg).run [.expr e] ⟨[], memory⟩
  let (v, st) ← st.pop "expression evaluation produced no value. Fix: internal evaluator error."
  return (v, st.memory)

end Machine

section Oracle

variable (host : Host) (program : Program) (lane : Lane)

/-- `eval_frame_oracle`, with a bound on the nesting of calls. -/
def evalFramesAt : Nat → Expr → Eval Value
  | 0, _ => fail (.interp "expression evaluation produced no value. Fix: internal evaluator error.")
  | n + 1, e => runFrames host program lane (evalFramesAt n) e

/-- `eval_frame_oracle`. The arguments of a call are smaller than the call, so
the size is bound enough (`evalFrameOracle_eq`). -/
def evalFrameOracle (e : Expr) : Eval Value := evalFramesAt host program lane e.size e

variable {host program lane}

theorem encodeFrameInputs_congr {f g : Expr → Eval Value} {args : List Expr}
    (h : ∀ a ∈ args, f a = g a) (opId : Ident) (params : List String) (input : List UInt8) :
    encodeFrameInputs f opId args params input = encodeFrameInputs g opId args params input := by
  induction args generalizing params input with
  | nil => simp [encodeFrameInputs]
  | cons arg args ih =>
    cases params with
    | nil => simp [encodeFrameInputs]
    | cons param params =>
      have hrest := ih fun a ha => h a (mem_cons_of_mem arg ha)
      simp only [encodeFrameInputs, h arg (by simp), hrest]

theorem frameStep_congr {f g : Expr → Eval Value} {N : Nat}
    (h : ∀ a : Expr, a.size < N → f a = g a) {frame : EvalFrame} (hframe : frame.weight ≤ 4 * N)
    (st : EvalState) :
    frameStep host program lane f frame st = frameStep host program lane g frame st := by
  cases frame with
  | expr e =>
    cases e with
    | call opId args =>
      have hargs : ∀ a ∈ args, f a = g a := by
        intro a ha
        have hlt : a.size < (Expr.call opId args).size := Expr.size_lt_call ha
        simp only [EvalFrame.weight] at hframe
        exact h a (by omega)
      simp only [frameStep, evalFrameCall, encodeFrameInputs_congr hargs]
    | _ => rfl
  | _ => rfl

theorem runFrames_congr {f g : Expr → Eval Value} {e : Expr}
    (h : ∀ a : Expr, a.size < e.size → f a = g a) :
    runFrames host program lane f e = runFrames host program lane g e := by
  have hrun : ∀ st, (frameLoop host program lane f).run [.expr e] st =
      (frameLoop host program lane g).run [.expr e] st := by
    intro st
    -- frames never outweigh the expression they came from
    refine Worklist.Loop.run_congr _ _ (fun frame => frame.weight ≤ 4 * e.size)
      (fun frame st hframe => frameStep_congr h hframe st) ?_ _ st ?_
    · intro frame st items st' hframe hstep item hitem
      have hlt := frameStep_decreases host program lane f hstep
      have hle : item.weight ≤ (items.map EvalFrame.weight).sum :=
        le_sum_of_mem (mem_map_of_mem hitem)
      omega
    · intro frame hmem
      rw [mem_singleton.mp hmem]
      exact Nat.le_refl _
  funext memory
  simp only [runFrames, hrun]

theorem evalFramesAt_eq {n : Nat} {e : Expr} (hn : e.size ≤ n) :
    evalFramesAt host program lane n e = evalFrameOracle host program lane e := by
  induction hs : e.size using Nat.strongRecOn generalizing e n with
  | _ s ih =>
    have hpos := Expr.size_pos e
    obtain ⟨k, rfl⟩ : ∃ k, n = k + 1 := ⟨n - 1, by omega⟩
    obtain ⟨m, hm⟩ : ∃ m, e.size = m + 1 := ⟨e.size - 1, by omega⟩
    simp only [evalFrameOracle, hm]
    refine runFrames_congr fun a ha => ?_
    rw [ih a.size (by omega) (e := a) (n := k) (by omega) rfl,
      ih a.size (by omega) (e := a) (n := m) (by omega) rfl]

/-- The recursion of the source: call arguments are evaluated by the function
itself. -/
theorem evalFrameOracle_eq (e : Expr) :
    evalFrameOracle host program lane e =
      runFrames host program lane (evalFrameOracle host program lane) e := by
  obtain ⟨m, hm⟩ : ∃ m, e.size = m + 1 := ⟨e.size - 1, by have := Expr.size_pos e; omega⟩
  have hunfold : evalFrameOracle host program lane e =
      runFrames host program lane (evalFramesAt host program lane m) e := by
    simp only [evalFrameOracle, hm, evalFramesAt]
  rw [hunfold]
  exact runFrames_congr fun a ha => evalFramesAt_eq (by omega)

end Oracle

end Vyre.Reference
