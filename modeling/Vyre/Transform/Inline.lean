import Mathlib.Algebra.BigOperators.Ring.List
import Mathlib.Data.List.Sort
import Vyre.Ir.Program
import Vyre.Lib.StateExcept
import Vyre.Lib.Worklist

/-!
# Call inlining

`transform/inline`: the walker over the caller (`InlineCtx`), and the one over
the bodies of the operations it calls (`CalleeExpander`). Both hoist statements
in front of the statement they rewrite. An operation's body is expanded with the
already inlined arguments, so the two walkers call each other; `depth` bounds how
deeply, since a resolver may know operations that call ever further ones.
-/

namespace Vyre.Transform

open Worklist List

/-- The variants of `Error` the pass returns. -/
inductive InlineError where
  | interp (message : String)
  | lowering (message : String)
  | inlineCycle (opId : String)
  | inlineUnknownOp (opId : String)
  | inlineArgCountMismatch (opId : String) (expected got : Nat)
  | inlineNoOutput (opId : String)
  | inlineOutputCountMismatch (opId : String) (got : Nat)
  /-- The call stack ran out. -/
  | stackOverflow
  deriving DecidableEq

abbrev OpResolver := String → Option Program

/-- `InlineCtx` without its resolver; the innermost operation comes first. -/
structure InlineCtx where
  stack : List String
  nextCallId : Nat

abbrev Inline := StateT InlineCtx (Except InlineError)

abbrev Hoisted := List Node × Expr

section Caller

variable (resolver : OpResolver) (expandCallee : String → Program → List Expr → Inline Hoisted)

/-- The part of `inline_call` behind the arguments. -/
def inlineResolved (opId : String) (hoisted : List Node) (args : List Expr) : Inline Hoisted :=
  match resolver opId with
  | none => throw (.inlineUnknownOp opId)
  | some callee => do
      modify fun ctx => { ctx with stack := opId :: ctx.stack }
      let (calleeHoisted, value) ← expandCallee opId callee args
      modify fun ctx => { ctx with stack := ctx.stack.tail }
      return (hoisted ++ calleeHoisted, value)

/-- The check `inline_call` starts with. -/
def rejectCycle (opId : String) : Inline Unit := do
  let ctx ← get
  if opId ∈ ctx.stack then throw (.inlineCycle opId) else return ()

mutual

/-- `inline_expr`: the operands of subgroup operations are not looked at. -/
def inlineExpr : Expr → Inline Hoisted
  | .load buffer index => do
      let (hoisted, index) ← inlineExpr index
      return (hoisted, .load buffer index)
  | .binOp op left right => do
      let (hoisted, left) ← inlineExpr left
      let (rightHoisted, right) ← inlineExpr right
      return (hoisted ++ rightHoisted, .binOp op left right)
  | .unOp op operand => do
      let (hoisted, operand) ← inlineExpr operand
      return (hoisted, .unOp op operand)
  | .fma a b c => do
      let (hoisted, a) ← inlineExpr a
      let (bHoisted, b) ← inlineExpr b
      let (cHoisted, c) ← inlineExpr c
      return (hoisted ++ bHoisted ++ cHoisted, .fma a b c)
  | .call opId args => do
      rejectCycle opId
      let (hoisted, args) ← inlineArgs args
      inlineResolved resolver expandCallee opId hoisted args
  | .select cond trueVal falseVal => do
      let (hoisted, cond) ← inlineExpr cond
      let (trueHoisted, trueVal) ← inlineExpr trueVal
      let (falseHoisted, falseVal) ← inlineExpr falseVal
      return (hoisted ++ trueHoisted ++ falseHoisted, .select cond trueVal falseVal)
  | .cast target value => do
      let (hoisted, value) ← inlineExpr value
      return (hoisted, .cast target value)
  | .atomic op buffer index expected value ordering => do
      let (hoisted, index) ← inlineExpr index
      let (expectedHoisted, expected) ← inlineExpected expected
      let (valueHoisted, value) ← inlineExpr value
      return (hoisted ++ expectedHoisted ++ valueHoisted,
        .atomic op buffer index expected value ordering)
  | e => return ([], e)

def inlineExpected : Option Expr → Inline (List Node × Option Expr)
  | none => return ([], none)
  | some e => do
      let (hoisted, e) ← inlineExpr e
      return (hoisted, some e)

/-- The loop over the arguments in `inline_call`. -/
def inlineArgs : List Expr → Inline (List Node × List Expr)
  | [] => return ([], [])
  | arg :: args => do
      let (hoisted, arg) ← inlineExpr arg
      let (rest, args) ← inlineArgs args
      return (hoisted ++ rest, arg :: args)

end

mutual

/-- `inline_node`: the operands of transfers and traps are not looked at. -/
def inlineNode : Node → Inline (List Node)
  | .letBind name value => do
      let (hoisted, value) ← inlineExpr resolver expandCallee value
      return hoisted ++ [.letBind name value]
  | .assign name value => do
      let (hoisted, value) ← inlineExpr resolver expandCallee value
      return hoisted ++ [.assign name value]
  | .store buffer index value => do
      let (hoisted, index) ← inlineExpr resolver expandCallee index
      let (valueHoisted, value) ← inlineExpr resolver expandCallee value
      return hoisted ++ valueHoisted ++ [.store buffer index value]
  | .ifThen cond thenNodes otherwise => do
      let (hoisted, cond) ← inlineExpr resolver expandCallee cond
      let thenNodes ← inlineNodes thenNodes
      let otherwise ← inlineNodes otherwise
      return hoisted ++ [.ifThen cond thenNodes otherwise]
  | .loop var lo hi body => do
      let (hoisted, lo) ← inlineExpr resolver expandCallee lo
      let (hiHoisted, hi) ← inlineExpr resolver expandCallee hi
      let body ← inlineNodes body
      return hoisted ++ hiHoisted ++ [.loop var lo hi body]
  | .block body => do
      let body ← inlineNodes body
      return [.block body]
  | .region generator sourceRegion body => do
      let body ← inlineNodes body
      return [.region generator sourceRegion body]
  | .ext extension => throw (.interp s!"inliner cannot rewrite opaque statement extension `{extension.extensionKind}`/`{extension.debugIdentity}`. Fix: lower the extension to core Node variants before inlining.")
  | n => return [n]

def inlineNodes : List Node → Inline (List Node)
  | [] => return []
  | n :: ns => do
      let head ← inlineNode n
      let tail ← inlineNodes ns
      return head ++ tail

end

end Caller

/-! ## Renaming the variables of a nested call -/

/-- `composition::Frame`. -/
inductive RenameFrame where
  | enter (e : Expr)
  | load (buffer : Ident)
  | bin (op : BinOp)
  | un (op : UnOp)
  | call (opId : Ident) (args : Nat)
  | fma
  | select
  | cast (target : DataType)
  | atomic (op : AtomicOp) (buffer : Ident) (hasExpected : Bool) (ordering : MemoryOrdering)

def missing (what : String) : InlineError :=
  .lowering s!"IR inline expansion: {what} missing from expression stack. Fix: ensure the input Expr is well-formed."

def renameUse (vars : Ident → Option String) (name : Ident) : String := (vars name).getD name

/-- `enter_expr_frame`: the frames pushed, in the order they pop, and the new
values, the last one first. -/
def enterExprFrame (vars : Ident → Option String) (values : List Expr) :
    Expr → List RenameFrame × List Expr
  | .var name => ([], .var (renameUse vars name) :: values)
  | .load buffer index => ([.enter index, .load buffer], values)
  | .binOp op left right => ([.enter left, .enter right, .bin op], values)
  | .unOp op operand => ([.enter operand, .un op], values)
  | .call opId args => (args.map .enter ++ [.call opId args.length], values)
  | .fma a b c => ([.enter a, .enter b, .enter c, .fma], values)
  | .select cond trueVal falseVal =>
      ([.enter cond, .enter trueVal, .enter falseVal, .select], values)
  | .cast target value => ([.enter value, .cast target], values)
  | .atomic op buffer index expected value ordering =>
      (.enter index :: (expected.toList.map .enter ++
        [.enter value, .atomic op buffer expected.isSome ordering]), values)
  | .invocationId _ | .workgroupId _ | .localId _ | .subgroupLocalId | .subgroupSize =>
      ([], .litU32 0 :: values)
  | e => ([], e :: values)

/-- One iteration of the loop of `rename_expr_vars`. -/
def renameStep (vars : Ident → Option String) :
    RenameFrame → List Expr → Except InlineError (List RenameFrame × List Expr)
  | .enter e, values => .ok (enterExprFrame vars values e)
  | .load buffer, values =>
      match values with
      | index :: values => .ok ([], .load buffer index :: values)
      | [] => .error (missing "load index")
  | .bin op, values =>
      match values with
      | right :: left :: values => .ok ([], .binOp op left right :: values)
      | [_] => .error (missing "binop left operand")
      | [] => .error (missing "binop right operand")
  | .un op, values =>
      match values with
      | operand :: values => .ok ([], .unOp op operand :: values)
      | [] => .error (missing "unop operand")
  | .call opId args, values =>
      if args ≤ values.length then
        .ok ([], .call opId (values.take args).reverse :: values.drop args)
      else .error (missing "call argument count mismatch")
  | .fma, values =>
      match values with
      | c :: b :: a :: values => .ok ([], .fma a b c :: values)
      | [_, _] => .error (missing "fma operand a")
      | [_] => .error (missing "fma operand b")
      | [] => .error (missing "fma operand c")
  | .select, values =>
      match values with
      | falseVal :: trueVal :: cond :: values => .ok ([], .select cond trueVal falseVal :: values)
      | [_, _] => .error (missing "select condition")
      | [_] => .error (missing "select true branch")
      | [] => .error (missing "select false branch")
  | .cast target, values =>
      match values with
      | value :: values => .ok ([], .cast target value :: values)
      | [] => .error (missing "cast value")
  | .atomic op buffer true ordering, values =>
      match values with
      | value :: expected :: index :: values =>
          .ok ([], .atomic op buffer index (some expected) value ordering :: values)
      | [_, _] => .error (missing "atomic index")
      | [_] => .error (missing "atomic expected value")
      | [] => .error (missing "atomic value")
  | .atomic op buffer false ordering, values =>
      match values with
      | value :: index :: values =>
          .ok ([], .atomic op buffer index none value ordering :: values)
      | [_] => .error (missing "atomic index")
      | [] => .error (missing "atomic value")

def RenameFrame.weight : RenameFrame → Nat
  | .enter e => 2 * e.size
  | _ => 1

open RenameFrame

theorem renameStep_decreases {vars : Ident → Option String} {frame : RenameFrame}
    {values values' : List Expr} {frames : List RenameFrame}
    (h : renameStep vars frame values = .ok (frames, values')) :
    (frames.map weight).sum < frame.weight := by
  cases frame with
  | enter e =>
    have hframes : frames = (enterExprFrame vars values e).1 := by
      simp only [renameStep, Except.ok.injEq] at h
      rw [h]
    subst hframes
    cases e with
    | call opId args =>
      have hargs : ((args.map enter).map weight).sum =
          2 * (args.map Expr.size).sum := by
        rw [map_map, ← sum_map_mul_left args Expr.size 2]
        rfl
      simp only [enterExprFrame, map_append, sum_append, weight,
        Expr.size, Expr.sizeList_eq, map_cons, map_nil, sum_cons, sum_nil]
      omega
    | atomic _ _ _ expected _ _ =>
      cases expected <;>
        simp [enterExprFrame, weight, Expr.size, Expr.sizeOption] <;> omega
    | _ => simp [enterExprFrame, weight, Expr.size] <;> omega
  | call opId args =>
    simp only [renameStep] at h
    split at h
    · cases h
      simp [weight]
    · cases h
  | atomic _ _ hasExpected _ =>
    cases hasExpected <;>
    · simp only [renameStep] at h
      split at h <;> cases h
      simp [weight]
  | _ =>
    simp only [renameStep] at h
    split at h <;> cases h
    simp [weight]

/-- The loop of `rename_expr_vars` over its stack of values. -/
def renameLoop (vars : Ident → Option String) : Loop RenameFrame (List Expr) InlineError where
  step := renameStep vars
  weight := weight
  decreases := renameStep_decreases

def renameExprVars (vars : Ident → Option String) (e : Expr) : Except InlineError Expr :=
  match (renameLoop vars).run [.enter e] [] with
  | .error e => .error e
  | .ok (value :: _) => .ok value
  | .ok [] => .error (.lowering "IR inline expansion: expression rename produced no value. Fix: ensure the input Expr is well-formed.")

/-! ## The callee -/

/-- What `CalleeExpander` carries unchanged. -/
structure Expansion where
  namePrefix : String
  inputArgs : List (Ident × Expr)
  outputName : Ident
  resultName : String

/-- `input_args.get`; of several inputs with one name the last stays. -/
def Expansion.inputArg (x : Expansion) (buffer : Ident) : Option Expr :=
  (x.inputArgs.reverse.find? (·.1 == buffer)).map (·.2)

/-- What `CalleeExpander` changes. -/
structure Expander where
  ctx : InlineCtx
  vars : Ident → Option String
  sawOutput : Bool

abbrev Expand := StateT Expander (Except InlineError)

def inCtx {α : Type} (x : Inline α) : Expand α := fun s =>
  (x s.ctx).map fun r => (r.1, { s with ctx := r.2 })

section Callee

variable (x : Expansion) (inlineExpr : Expr → Inline Hoisted)

def renameDecl (name : Ident) : Expand String := do
  let renamed := x.namePrefix ++ name
  modify fun s => { s with vars := fun key => if key = name then some renamed else s.vars key }
  return renamed

mutual

/-- `CalleeExpander::expr`: a nested call is handed to the caller's walker once
its variables are renamed. -/
def expandExpr : Expr → Expand Hoisted
  | .var name => do
      let s ← get
      return ([], .var (renameUse s.vars name))
  | .load buffer index =>
      match x.inputArg buffer with
      | some arg => return ([], arg)
      | none => do
          let (hoisted, index) ← expandExpr index
          return (hoisted, .load buffer index)
  | .bufLen buffer =>
      if x.outputName = buffer ∨ (x.inputArg buffer).isSome then return ([], .litU32 1)
      else return ([], .bufLen buffer)
  | .call opId args => do
      let s ← get
      let renamed ← StateT.lift (renameExprVars s.vars (.call opId args))
      inCtx (inlineExpr renamed)
  | .invocationId _ | .workgroupId _ | .localId _ | .subgroupLocalId | .subgroupSize =>
      return ([], .litU32 0)
  | .binOp op left right => do
      let (hoisted, left) ← expandExpr left
      let (rightHoisted, right) ← expandExpr right
      return (hoisted ++ rightHoisted, .binOp op left right)
  | .unOp op operand => do
      let (hoisted, operand) ← expandExpr operand
      return (hoisted, .unOp op operand)
  | .fma a b c => do
      let (hoisted, a) ← expandExpr a
      let (bHoisted, b) ← expandExpr b
      let (cHoisted, c) ← expandExpr c
      return (hoisted ++ bHoisted ++ cHoisted, .fma a b c)
  | .select cond trueVal falseVal => do
      let (hoisted, cond) ← expandExpr cond
      let (trueHoisted, trueVal) ← expandExpr trueVal
      let (falseHoisted, falseVal) ← expandExpr falseVal
      return (hoisted ++ trueHoisted ++ falseHoisted, .select cond trueVal falseVal)
  | .cast target value => do
      let (hoisted, value) ← expandExpr value
      return (hoisted, .cast target value)
  | .atomic op buffer index expected value ordering => do
      let (hoisted, index) ← expandExpr index
      let (expectedHoisted, expected) ← expandExpected expected
      let (valueHoisted, value) ← expandExpr value
      return (hoisted ++ expectedHoisted ++ valueHoisted,
        .atomic op buffer index expected value ordering)
  | .subgroupBallot _ | .subgroupShuffle _ _ | .subgroupAdd _ =>
      throw (.lowering "inliner cannot expand subgroup intrinsics; RFC 0004 gates this on target builder 25+. Fix: avoid inlining across subgroup-op boundaries.")
  | .ext extension => throw (.lowering s!"inliner cannot expand opaque expression extension `{extension.extensionKind}`/`{extension.debugIdentity}`. Fix: lower the extension to core Expr variants before inlining.")
  | e => return ([], e)

def expandExpected : Option Expr → Expand (List Node × Option Expr)
  | none => return ([], none)
  | some e => do
      let (hoisted, e) ← expandExpr e
      return (hoisted, some e)

end

mutual

/-- `CalleeExpander::node`. -/
def expandNode : Node → Expand (List Node)
  | .letBind name value => do
      let renamed ← renameDecl x name
      let (hoisted, value) ← expandExpr x inlineExpr value
      return hoisted ++ [.letBind renamed value]
  | .assign name value => do
      let (hoisted, value) ← expandExpr x inlineExpr value
      let s ← get
      return hoisted ++ [.assign (renameUse s.vars name) value]
  | .store buffer index value => do
      let (hoisted, index) ← expandExpr x inlineExpr index
      let (valueHoisted, value) ← expandExpr x inlineExpr value
      if x.outputName = buffer then
        modify fun s => { s with sawOutput := true }
        return hoisted ++ valueHoisted ++ [.assign x.resultName value]
      else return hoisted ++ valueHoisted ++ [.store buffer index value]
  | .ifThen cond thenNodes otherwise => do
      let (hoisted, cond) ← expandExpr x inlineExpr cond
      let thenNodes ← expandNodes thenNodes
      let otherwise ← expandNodes otherwise
      return hoisted ++ [.ifThen cond thenNodes otherwise]
  | .loop var lo hi body => do
      let renamed ← renameDecl x var
      let (hoisted, lo) ← expandExpr x inlineExpr lo
      let (hiHoisted, hi) ← expandExpr x inlineExpr hi
      let body ← expandNodes body
      return hoisted ++ hiHoisted ++ [.loop renamed lo hi body]
  | .block body => do
      let body ← expandNodes body
      return [.block body]
  | .region generator sourceRegion body => do
      let body ← expandNodes body
      return [.region generator sourceRegion body]
  | .ext extension => throw (.lowering s!"inliner cannot expand opaque statement extension `{extension.extensionKind}`/`{extension.debugIdentity}`. Fix: lower the extension to core Node variants before inlining.")
  | n => return [n]

/-- `CalleeExpander::nodes`. -/
def expandNodes : List Node → Expand (List Node)
  | [] => return []
  | n :: ns => do
      let head ← expandNode n
      let tail ← expandNodes ns
      return head ++ tail

end

end Callee

def inputBuffers (callee : Program) : List BufferDecl :=
  callee.buffers.filter fun b => b.access = .readOnly || b.access = .uniform

/-- `input_arg_map`: arguments go to the inputs by binding, in a stable order. -/
def inputArgMap (callee : Program) (args : List Expr) : List (Ident × Expr) :=
  (((inputBuffers callee).insertionSort fun a b => a.binding ≤ b.binding).zip args).map
    fun (b, arg) => (b.name, arg)

def outputBuffer (opId : String) (callee : Program) : Except InlineError BufferDecl :=
  match callee.buffers.filter (·.isOutput) with
  | [output] => .ok output
  | [] => .error (.inlineNoOutput opId)
  | outputs => .error (.inlineOutputCountMismatch opId outputs.length)

def zeroValue : DataType → Expr
  | .i32 => .litI32 0
  | .bool => .litBool false
  | .f32 | .f16 | .bf16 | .f64 => .litF32 0
  | _ => .litU32 0

def expandBody (x : Expansion) (inlineExpr : Expr → Inline Hoisted) (body : List Node) :
    Inline (List Node × Bool) := fun ctx =>
  (expandNodes x inlineExpr body ⟨ctx, fun _ => none, false⟩).map fun r =>
    ((r.1, r.2.sawOutput), r.2.ctx)

def requireArgs (opId : String) (expected got : Nat) : Inline Unit :=
  if got = expected then return () else throw (.inlineArgCountMismatch opId expected got)

def requireOutput (opId : String) (sawOutput : Bool) : Inline Unit :=
  if sawOutput then return () else throw (.inlineNoOutput opId)

def expandCallee (resolver : OpResolver) : Nat → String → Program → List Expr → Inline Hoisted
  | 0, _, _, _ => throw .stackOverflow
  | depth + 1, opId, callee, args => do
      let ctx ← get
      set { ctx with nextCallId := min (ctx.nextCallId + 1) (2 ^ 64 - 1) }
      let namePrefix := s!"_vyre_inl{ctx.nextCallId}_"
      requireArgs opId (inputBuffers callee).length args.length
      let output ← StateT.lift (outputBuffer opId callee)
      let resultName := s!"{namePrefix}result"
      let (nodes, sawOutput) ← expandBody
        ⟨namePrefix, inputArgMap callee args, output.name, resultName⟩
        (inlineExpr resolver (expandCallee resolver depth)) callee.entry
      requireOutput opId sawOutput
      return (.letBind resultName (zeroValue output.element) :: nodes, .var resultName)

def wrapEntry (entry : List Node) : List Node :=
  if entry.isEmpty || entry.any fun | .region _ _ _ => false | _ => true then
    [.region rootRegionGenerator none entry]
  else entry

/-- `inline_calls_with_resolver`, with a call stack of `depth` expansions. -/
def inlineCallsWithResolver (resolver : OpResolver) (depth : Nat) (p : Program) :
    Except InlineError Program := do
  let (entry, _) ← inlineNodes resolver (expandCallee resolver depth) p.entry ⟨[], 0⟩
  return { p with entry := wrapEntry entry }

end Vyre.Transform
