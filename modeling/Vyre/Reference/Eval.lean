import Vyre.Lib.StateExcept
import Vyre.Reference.Memory

/-!
# Expression evaluation

The recursive evaluator of the hashmap interpreter: `eval_expr` and
`eval_atomic` (`hashmap/mod.rs`), `axis_value` and `eval_to_index`
(`hashmap/step.rs`), `eval_call` (`hashmap/node_step.rs`), `invoke_cpu_ref`
(`call.rs`), and the collectives (`hashmap/subgroup.rs`, `subgroup.rs`).
Operands are evaluated left to right; an atomic changes the memory the next
operand is evaluated in.

An invocation is seen through what an expression can read of it (`Lane`).
Evaluation also fills a cache of resolved calls, keyed by the address of the
expression; the registry does not change, so the cache is not modelled.
-/

namespace Vyre.Reference

/-- A registered operation: type spellings of its signature, and its CPU
reference function, which may panic with a message. -/
structure OpDef where
  inputs : List String
  outputs : List String
  cpuRef : List UInt8 → Except String (List UInt8)

/-- What the interpreter takes from outside the repository: float arithmetic,
the operation registry when one is installed, and the addresses of the
program's statements. -/
structure Host where
  floats : Floats
  dialect : Option (Ident → Option OpDef)
  /-- `node_id` of the statement with a label; statements of a region body that
  several regions share have one address. -/
  nodeId : Nat → Nat

abbrev Dim3 := UInt32 × UInt32 × UInt32

structure InvocationIds where
  global : Dim3
  workgroup : Dim3
  «local» : Dim3

/-- `HashmapInvocationSnapshot`: ids and locals of one invocation. -/
structure Lane where
  ids : InvocationIds
  linearLocalIndex : UInt32
  locals : Ident → Option Value

abbrev Eval := StateT Memory (Except Error)

namespace Eval

def fail {α : Type} (e : Error) : Eval α := fun _ => .error e

/-- `ok_or_else`. -/
def orFail {α : Type} (o : Option α) (e : Error) : Eval α :=
  match o with
  | some a => pure a
  | none => fail e

def lift {α : Type} (r : Except Error α) : Eval α := fun memory => r.map (·, memory)

end Eval

open Eval

def axisValue (values : Dim3) (axis : UInt8) : Except Error Value :=
  match axis with
  | 0 => .ok (.u32 values.1)
  | 1 => .ok (.u32 values.2.1)
  | 2 => .ok (.u32 values.2.2)
  | axis => .error (.interp s!"invocation/workgroup ID axis {axis} out of range. Fix: use 0, 1, or 2.")

def maxCallInputBytes : Nat := 64 * 1024 * 1024

def paramWidth (ty : String) : Nat :=
  if ty ∈ ["u32", "i32", "f32", "vec-count"] then 4
  else if ty ∈ ["u64", "i64", "f64"] then 8
  else 1

/-- The output type `eval_call` parses from the signature. -/
def parsedOutType (outputs : List String) : DataType :=
  match outputs with
  | "u32" :: _ => .u32
  | "i32" :: _ => .i32
  | "f32" :: _ => .f32
  | _ => .bytes

/-- Width of `SubgroupSimulator::default`. -/
def subgroupWidth : Nat := 32

/-- `subgroup_slice`: the lanes of the subgroup of a lane. -/
def subgroupSlice (snapshots : List Lane) (linearLocalIndex : UInt32) : List Lane :=
  let start := linearLocalIndex.toNat / subgroupWidth * subgroupWidth
  (snapshots.drop start).take subgroupWidth

def ballotSlice (mask : List Bool) : UInt32 :=
  (mask.take subgroupWidth).zipIdx.foldl
    (fun bits lane => if lane.1 then bits ||| (1 <<< UInt32.ofNat lane.2) else bits) 0

/-- The lanes as `u32` words, when every lane holds one. -/
def u32Lanes (values : List Value) : Option (List UInt32) :=
  values.mapM fun v => match v with
    | .u32 word => some word
    | _ => none

def floatLanes (values : List Value) : Option (List UInt64) :=
  values.mapM fun v => match v with
    | .float bits => some bits
    | _ => none

/-- The result of `eval_subgroup_shuffle`, from the lanes' values and sources. -/
def subgroupShuffle (values : List Value) (srcLanes : List UInt32) (linearLocalIndex : UInt32) :
    Except Error Value :=
  let localOffset := linearLocalIndex.toNat % subgroupWidth
  match u32Lanes values, floatLanes values with
  | some words, _ =>
      let active := min (min words.length srcLanes.length) subgroupWidth
      let shuffled := (srcLanes.take active).map fun src => words.getD src.toNat 0
      .ok (.u32 (shuffled.getD localOffset 0))
  | none, some lanes =>
      let srcLane := (srcLanes.getD localOffset 0xFFFFFFFF).toNat
      .ok (.float (lanes.getD srcLane 0))
  | none, none => .error (.interp "subgroup_shuffle lanes have mixed or unsupported value types. Fix: cast every lane value to the same primitive u32 or f32 type before the subgroup collective.")

variable (fl : Floats)

/-- The result of `eval_subgroup_add`. -/
def subgroupAdd (values : List Value) : Except Error Value :=
  match u32Lanes values, floatLanes values with
  | some words, _ => .ok (.u32 ((words.take subgroupWidth).foldl (· + ·) 0))
  | none, some lanes =>
      .ok (.float
        (fl.widen (lanes.foldl (fun acc lane => canonicalF32 (fl.add acc (fl.narrow lane))) 0)))
  | none, none => .error (.interp "subgroup_add lanes have mixed or unsupported value types. Fix: cast every lane value to the same primitive u32 or f32 type before the subgroup collective.")

def resolveCall (host : Host) (opId : Ident) : Except Error OpDef :=
  match host.dialect with
  | none => .error (.interp s!"unsupported call `{opId}`: no DialectLookup is installed.")
  | some lookup =>
      match lookup opId with
      | none => .error (.interp s!"unsupported call `{opId}`. Fix: register the op in DialectRegistry.")
      | some op => .ok op

def validateArity (opId : Ident) (actual expected : Nat) : Except Error Unit :=
  if actual = expected then .ok ()
  else .error (.interp s!"call `{opId}` received {actual} arguments but the primitive signature requires {expected}. Fix: pass exactly {expected} arguments.")

def invokeCpuRef (opId : Ident) (op : OpDef) (input : List UInt8) : Except Error (List UInt8) :=
  match op.cpuRef input with
  | .ok output => .ok output
  | .error payload => .error (.interp s!"CPU reference for `{opId}` panicked: {payload}. Fix: make the primitive reference total over byte inputs and return a structured error before registering it.")

/-- The operand rule of `eval_atomic`: only a compare-exchange has an expected
value. -/
def atomicExpectedRule (op : AtomicOp) (expected : Option Expr) : Except Error Unit :=
  match op, expected with
  | .compareExchange, none => .error (.interp "compare-exchange atomic is missing expected value. Fix: set Expr::Atomic.expected for AtomicOp::CompareExchange.")
  | .compareExchange, some _ => .ok ()
  | _, some _ => .error (.interp "non-compare-exchange atomic includes an expected value. Fix: use Expr::Atomic.expected only with AtomicOp::CompareExchange.")
  | _, none => .ok ()

/-- The read-modify-write of `eval_atomic` on the buffer that `resolve` finds:
out of bounds it returns 0 and writes nothing. -/
def atomicRmw (resolve : Memory → Ident → Except Error Buffer) (op : AtomicOp) (buffer : Ident)
    (index : UInt32) (expected : Option UInt32) (value : UInt32) : Eval Value := do
  let memory ← get
  let target ← Eval.lift (resolve memory buffer)
  match target.atomicLoad index with
  | none => return .u32 0
  | some old => do
      let (old, new) ← Eval.lift (atomicApply op old expected value)
      set { memory with storage := setBuffer memory.storage buffer (target.atomicStore index new) }
      return .u32 old

/-- The fused multiply-add of `Expr::Fma`. -/
def fmaValue (a b c : UInt32) : Value :=
  floatValue fl (fl.mulAdd (canonicalF32 a) (canonicalF32 b) (canonicalF32 c))

/-- `try_as_f32` of an operand of `Expr::Fma`. -/
def fmaOperand (slot : String) (v : Value) : Eval UInt32 :=
  orFail (v.tryAsF32 fl) (.interp s!"fma operand `{slot}` is not a float. Fix: cast to f32 before fma.")

/-- `try_as_u32` of an index. -/
def toIndex (label : String) (v : Value) : Eval UInt32 :=
  orFail (v.tryAsU32 fl) (.interp s!"{label} cannot be represented as u32. Fix: use a non-negative scalar index within u32.")

def atomicOperand (v : Value) : Eval UInt32 :=
  orFail (v.tryAsU32 fl) (.interp "atomic value cannot be represented as u32. Fix: use a scalar u32-compatible argument.")

section Eval

variable (host : Host) (snapshots : List Lane)

mutual

def evalExpr : Expr → Lane → Eval Value
  | .litU32 value, _ => return .u32 value
  | .litI32 value, _ => return .i32 value
  | .litF32 bits, _ => return floatValue host.floats bits
  | .litBool value, _ => return .bool value
  | .var name, lane => orFail (lane.locals name) (.undeclaredVariable name)
  | .load buffer index, lane => do
      let v ← evalExpr index lane
      let idx ← toIndex host.floats "load index" v
      let target ← Eval.lift ((← get).resolveBuffer buffer)
      return target.load host.floats idx
  | .bufLen buffer, _ => do
      let target ← Eval.lift ((← get).resolveBuffer buffer)
      return .u32 target.len
  | .invocationId axis, lane => Eval.lift (axisValue lane.ids.global axis)
  | .workgroupId axis, lane => Eval.lift (axisValue lane.ids.workgroup axis)
  | .localId axis, lane => Eval.lift (axisValue lane.ids.local axis)
  | .binOp op left right, lane => do
      let l ← evalExpr left lane
      let r ← evalExpr right lane
      Eval.lift (evalBinop host.floats op l r)
  | .unOp op operand, lane => do
      let v ← evalExpr operand lane
      Eval.lift (evalUnop host.floats op v)
  | .call opId args, lane => do
      let op ← Eval.lift (resolveCall host opId)
      Eval.lift (validateArity opId args.length op.inputs.length)
      let input ← encodeInputs opId args op.inputs [] lane
      let output ← Eval.lift (invokeCpuRef opId op input)
      return specOutputValue host.floats (parsedOutType op.outputs) output
  | .select cond trueVal falseVal, lane => do
      let c ← evalExpr cond lane
      let t ← evalExpr trueVal lane
      let f ← evalExpr falseVal lane
      return if c.truthy host.floats then t else f
  | .cast target value, lane => do
      let v ← evalExpr value lane
      Eval.lift (castValue host.floats target v)
  | .fma a b c, lane => do
      let x ← fmaOperand host.floats "a" (← evalExpr a lane)
      let y ← fmaOperand host.floats "b" (← evalExpr b lane)
      let z ← fmaOperand host.floats "c" (← evalExpr c lane)
      return fmaValue host.floats x y z
  | .atomic op buffer index expected value _, lane => do
      Eval.lift (atomicExpectedRule op expected)
      let idx ← toIndex host.floats "atomic index" (← evalExpr index lane)
      let exp ← evalExpected expected lane
      let v ← atomicOperand host.floats (← evalExpr value lane)
      atomicRmw Memory.atomicBuffer op buffer idx exp v
  -- A collective evaluates its operand once per lane of the subgroup. A
  -- snapshot clones the buffer maps but shares the bytes, so an atomic in the
  -- operand is seen by the lanes after it.
  | .subgroupBallot cond, lane => do
      let values ← (subgroupSlice snapshots lane.linearLocalIndex).mapM fun l => evalExpr cond l
      return .u32 (ballotSlice (values.map fun v => v.truthy host.floats))
  | .subgroupShuffle value src, lane => do
      let lanes := subgroupSlice snapshots lane.linearLocalIndex
      let values ← lanes.mapM fun l => evalExpr value l
      let srcLanes ← lanes.mapM fun l => do
        orFail ((← evalExpr src l).tryAsU32 host.floats) (.interp "subgroup_shuffle lane index is not a u32. Fix: use a scalar u32 lane argument.")
      Eval.lift (subgroupShuffle values srcLanes lane.linearLocalIndex)
  | .subgroupAdd value, lane => do
      let values ← (subgroupSlice snapshots lane.linearLocalIndex).mapM fun l => evalExpr value l
      Eval.lift (subgroupAdd host.floats values)
  | .subgroupLocalId, _ | .subgroupSize, _ => fail (.interp "hashmap reference interpreter encountered an unknown expression variant. Fix: add explicit reference semantics for the new ExprNode before dispatch.")
  | .ext extension, _ => fail (.interp s!"hashmap reference interpreter does not support opaque expression extension `{extension.extensionKind}`/`{extension.debugIdentity}`. Fix: provide a reference evaluator for this ExprNode or lower it to core Expr variants before evaluation.")

def evalExpected : Option Expr → Lane → Eval (Option UInt32)
  | none, _ => return none
  | some e, lane => do
      let v ← evalExpr e lane
      let word ← orFail (v.tryAsU32 host.floats) (.atomicExpected e)
      return some word

/-- `encode_inputs`, after `input` is encoded. -/
def encodeInputs (opId : Ident) :
    List Expr → List String → List UInt8 → Lane → Eval (List UInt8)
  | arg :: args, param :: params, input, lane => do
      if maxCallInputBytes < input.length + paramWidth param then
        fail (.interp s!"call `{opId}` requires {input.length + paramWidth param} input bytes, exceeding the {maxCallInputBytes}-byte reference budget. Fix: reduce call input size.")
      let v ← evalExpr arg lane
      encodeInputs opId args params (input ++ v.toBytesWidth (paramWidth param)) lane
  | _, _, input, _ => return input

end

end Eval

open StateExcept

/-! ## Evaluation from related memories -/

section Follows

variable {α : Type} {R : Memory → Memory → Prop}

theorem relates_fail {β : Type} {P : α → β → Prop} (e : Error) (y : Eval β) :
    Relates R P (Eval.fail e) y := by
  intro m m' a m₁ hR h
  cases h

theorem follows_orFail (o : Option α) (e e' : Error) : Follows R (orFail o e) (orFail o e') := by
  cases o with
  | none => exact relates_fail e _
  | some a => exact .pure rfl

theorem follows_lift (r : Except Error α) : Respects R (Eval.lift r) := by
  cases r with
  | error e => exact relates_fail e _
  | ok a => exact .pure rfl

theorem follows_resolve {β : Type} {buffer : Ident} {P : α → β → Prop} {k : Buffer → Eval α}
    {k' : Buffer → Eval β} (h : Respects R (get >>= fun m => Eval.lift (m.resolveBuffer buffer)))
    (hk : ∀ b, Relates R P (k b) (k' b)) :
    Relates R P (get >>= fun m => Eval.lift (m.resolveBuffer buffer) >>= k)
      (get >>= fun m => Eval.lift (m.resolveBuffer buffer) >>= k') := by
  simpa only [bind_assoc] using h.bind hk

def Accesses (R : Memory → Memory → Prop) : Expr → Prop
  | .load buffer _ => Respects R (get >>= fun m => Eval.lift (m.resolveBuffer buffer))
  | .bufLen buffer => Respects R (get >>= fun m => Eval.lift (m.resolveBuffer buffer) >>= fun b =>
      return Value.u32 b.len)
  | .atomic op buffer _ _ _ _ => ∀ index expected value,
      Respects R (atomicRmw Memory.atomicBuffer op buffer index expected value)
  | _ => True

def Operands (Q : Expr → Prop) : Expr → Prop
  | .load _ e | .unOp _ e | .cast _ e | .subgroupBallot e | .subgroupAdd e => Q e
  | .binOp _ l r | .subgroupShuffle l r => Q l ∧ Q r
  | .call _ args => ∀ e ∈ args, Q e
  | .select a b c | .fma a b c => Q a ∧ Q b ∧ Q c
  | .atomic _ _ index expected value _ => Q index ∧ (∀ e, expected = some e → Q e) ∧ Q value
  | _ => True

def mapOperands (g : Expr → Expr) : Expr → Expr
  | .load buffer index => .load buffer (g index)
  | .binOp op left right => .binOp op (g left) (g right)
  | .unOp op operand => .unOp op (g operand)
  | .call opId args => .call opId (args.map g)
  | .select cond trueVal falseVal => .select (g cond) (g trueVal) (g falseVal)
  | .cast target value => .cast target (g value)
  | .fma a b c => .fma (g a) (g b) (g c)
  | .atomic op buffer index expected value ordering =>
      .atomic op buffer (g index) (expected.map g) (g value) ordering
  | .subgroupBallot cond => .subgroupBallot (g cond)
  | .subgroupShuffle value lane => .subgroupShuffle (g value) (g lane)
  | .subgroupAdd value => .subgroupAdd (g value)
  | e => e

theorem mapOperands_id (e : Expr) : mapOperands id e = e := by
  cases e <;> simp [mapOperands]

/-- Expressions in `Q` evaluate, in related lanes, as `g` makes of them,
whatever lanes a collective sees. -/
structure Renders (host : Host) (R : Memory → Memory → Prop) (L : Lane → Lane → Prop)
    (Q : Expr → Prop) (g : Expr → Expr) : Prop where
  lanes : ∀ {l l'}, L l l' → l'.ids = l.ids ∧ l'.linearLocalIndex = l.linearLocalIndex
  operands : ∀ {e}, Q e → Operands Q e
  accesses : ∀ {e}, Q e → Accesses R e
  var : ∀ {x l l'} (seen seen' : List Lane), Q (.var x) → L l l' →
    Follows R (evalExpr host seen (.var x) l) (evalExpr host seen' (g (.var x)) l')
  built : ∀ {e l l' seen'} {x : Eval Value}, Q e → (∀ name, e ≠ .var name) → L l l' →
    Follows R x (evalExpr host seen' (mapOperands g e) l') →
    Follows R x (evalExpr host seen' (g e) l')

variable {host : Host} {seen seen' : List Lane} {L : Lane → Lane → Prop} {Q : Expr → Prop}
  {g : Expr → Expr} {lane lane' : Lane}

theorem follows_encodeInputs {args : List Expr}
    (h : ∀ a ∈ args, Follows R (evalExpr host seen a lane) (evalExpr host seen' (g a) lane'))
    (opId : Ident) (params : List String) (input : List UInt8) :
    Follows R (encodeInputs host seen opId args params input lane)
      (encodeInputs host seen' opId (args.map g) params input lane') := by
  induction args generalizing params input with
  | nil => cases params <;> exact .pure rfl
  | cons arg args ih =>
    cases params with
    | nil => exact .pure rfl
    | cons param params =>
      have hrest := ih fun a ha => h a (by simp [ha])
      simp only [List.map_cons, encodeInputs]
      split
      · exact relates_fail _ _
      · exact (h arg (by simp)).bind fun v => hrest _ _

theorem Renders.evalExpr (h : Renders host R L Q g) {e : Expr} (he : Q e) (hl : L lane lane')
    (hseen : List.Forall₂ L seen seen') :
    Follows R (evalExpr host seen e lane) (evalExpr host seen' (g e) lane') := by
  -- A collective evaluates its operands in the lanes of its subgroup.
  have hslice : ∀ i, List.Forall₂ L (subgroupSlice seen i) (subgroupSlice seen' i) :=
    fun i => List.forall₂_take _ (List.forall₂_drop _ hseen)
  induction e generalizing lane lane' with
  | var name => exact h.var seen seen' he hl
  | litU32 value | litI32 value | litF32 bits | litBool value =>
    exact h.built he nofun hl (.pure rfl)
  | load buffer index ih =>
    exact h.built he nofun hl ((ih (h.operands he) hl).bind fun v => (follows_orFail _ _ _).bind
      fun idx => follows_resolve (h.accesses he) fun target => .pure rfl)
  | bufLen buffer => exact h.built he nofun hl (h.accesses he)
  | invocationId axis | workgroupId axis | localId axis =>
    refine h.built he nofun hl ?_
    simp only [mapOperands, Reference.evalExpr, (h.lanes hl).1]
    exact follows_lift _
  | binOp op left right ihl ihr =>
    obtain ⟨hleft, hright⟩ := h.operands he
    exact h.built he nofun hl
      ((ihl hleft hl).bind fun l => (ihr hright hl).bind fun r => follows_lift _)
  | unOp op operand ih | cast target operand ih =>
    exact h.built he nofun hl ((ih (h.operands he) hl).bind fun v => follows_lift _)
  | call opId args ih =>
    refine h.built he nofun hl ?_
    simp only [mapOperands, Reference.evalExpr, List.length_map]
    exact (follows_lift _).bind fun op => (follows_lift _).bind fun _ => (follows_encodeInputs
      (fun a ha => ih a ha (h.operands he a ha) hl) _ _ _).bind fun input => (follows_lift _).bind
      fun output => .pure rfl
  | select cond trueVal falseVal ihc iht ihf =>
    obtain ⟨hcond, htrue, hfalse⟩ := h.operands he
    exact h.built he nofun hl ((ihc hcond hl).bind fun c => (iht htrue hl).bind fun t =>
      (ihf hfalse hl).bind fun f => .pure rfl)
  | fma a b c iha ihb ihc =>
    obtain ⟨ha, hb, hc⟩ := h.operands he
    exact h.built he nofun hl ((iha ha hl).bind fun _ => (follows_orFail _ _ _).bind fun x =>
      (ihb hb hl).bind fun _ => (follows_orFail _ _ _).bind fun y =>
      (ihc hc hl).bind fun _ => (follows_orFail _ _ _).bind fun z => .pure rfl)
  | atomic op _ _ expected _ _ ihi ihe ihv =>
    obtain ⟨hindex, hexpected, hvalue⟩ := h.operands he
    have hrule : atomicExpectedRule op (expected.map g) = atomicExpectedRule op expected := by
      cases op <;> cases expected <;> rfl
    have hexp : Follows R (evalExpected host seen expected lane)
        (evalExpected host seen' (expected.map g) lane') := by
      cases expected with
      | none => exact .pure rfl
      | some x =>
        exact (ihe x rfl (hexpected x rfl) hl).bind fun v => (follows_orFail _ _ _).bind fun word =>
          .pure rfl
    refine h.built he nofun hl ?_
    simp only [mapOperands, Reference.evalExpr, hrule]
    exact (follows_lift _).bind fun _ => (ihi hindex hl).bind fun _ => (follows_orFail _ _ _).bind
      fun idx => hexp.bind fun exp => (ihv hvalue hl).bind fun _ => (follows_orFail _ _ _).bind
      fun v => h.accesses he idx exp v
  | subgroupBallot cond ih =>
    refine h.built he nofun hl ?_
    simp only [mapOperands, Reference.evalExpr, (h.lanes hl).2]
    exact (Follows.mapM ((hslice _).imp fun _ _ => ih (h.operands he))).bind fun values => .pure rfl
  | subgroupShuffle value src ihv ihs =>
    obtain ⟨hvalue, hsrc⟩ := h.operands he
    refine h.built he nofun hl ?_
    simp only [mapOperands, Reference.evalExpr, (h.lanes hl).2]
    exact (Follows.mapM ((hslice _).imp fun _ _ => ihv hvalue)).bind fun values =>
      (Follows.mapM ((hslice _).imp fun _ _ hk => (ihs hsrc hk).bind fun v =>
        follows_orFail _ _ _)).bind fun lanes => follows_lift _
  | subgroupAdd value ih =>
    refine h.built he nofun hl ?_
    simp only [mapOperands, Reference.evalExpr, (h.lanes hl).2]
    exact (Follows.mapM ((hslice _).imp fun _ _ => ih (h.operands he))).bind
      fun values => follows_lift _
  | subgroupLocalId | subgroupSize | ext extension =>
    exact h.built he nofun hl (relates_fail _ _)

theorem Renders.same
    (lanes : ∀ {l l'}, L l l' → l'.ids = l.ids ∧ l'.linearLocalIndex = l.linearLocalIndex)
    (operands : ∀ {e}, Q e → Operands Q e) (accesses : ∀ {e}, Q e → Accesses R e)
    (var : ∀ {x l l'}, Q (.var x) → L l l' → ∀ v, l.locals x = some v → l'.locals x = some v) :
    Renders host R L Q id where
  lanes := lanes
  operands := operands
  accesses := accesses
  var {x l l'} _ _ hx hl := by
    show Follows R (orFail (l.locals x) _) (orFail (l'.locals x) _)
    cases hv : l.locals x with
    | none => exact relates_fail _ _
    | some v =>
      rw [var hx hl v hv]
      exact .pure rfl
  built {e l l' seen' x} _ _ _ h := by rwa [mapOperands_id] at h

theorem Renders.refl (operands : ∀ {e}, Q e → Operands Q e)
    (accesses : ∀ {e}, Q e → Accesses R e) : Renders host R Eq Q id := by
  refine .same ?_ operands accesses ?_
  · rintro l _ rfl
    exact ⟨rfl, rfl⟩
  · rintro x l _ _ rfl v hv
    exact hv

theorem operands_of_forall {P : Expr → Prop} {e : Expr} (h : e.Forall P) :
    Operands (·.Forall P) e := by
  cases e with
  | call opId args => exact Expr.forallArgs_iff.mp h.2
  | atomic _ _ _ _ _ _ =>
    exact ⟨h.2.1, Expr.forallExpected_iff.mp h.2.2.1, h.2.2.2⟩
  | load | unOp | cast | binOp | select | fma | subgroupBallot | subgroupShuffle | subgroupAdd =>
    exact h.2
  | _ => trivial

end Follows

section Keeps

variable {R : Memory → Memory → Prop} [Std.Refl R] [IsTrans Memory R] {host : Host}
  {snapshots : List Lane}

/-- The atomics of an expression keep `R`. -/
def AtomicsKeep (R : Memory → Memory → Prop) : Expr → Prop
  | .atomic op buffer _ _ _ _ =>
      ∀ index expected value, Keeps R (atomicRmw Memory.atomicBuffer op buffer index expected value)
  | _ => True

theorem accesses_of_keeps {e : Expr} (he : e.Forall (AtomicsKeep R)) (m₀ : Memory) :
    Accesses (fun m m' => m = m' ∧ R m₀ m) e := by
  have hget : Respects (fun m m' => m = m' ∧ R m₀ m) (get : Eval Memory) :=
    Keeps.respects Keeps.get m₀
  cases e with
  | load buffer index => exact hget.bind fun _ => follows_lift _
  | bufLen buffer => exact hget.bind fun _ => (follows_lift _).bind fun _ => .pure rfl
  | atomic _ _ _ _ _ _ => exact fun i x v => (he.1 i x v).respects m₀
  | _ => trivial

theorem keeps_evalExpr {e : Expr} (he : e.Forall (AtomicsKeep R)) (lane : Lane) :
    Keeps R (evalExpr host snapshots e lane) :=
  keeps_of_respects fun m₀ => (Renders.refl operands_of_forall
    fun he => accesses_of_keeps he m₀).evalExpr he rfl (List.forall₂_same.mpr fun _ _ => rfl)

end Keeps

variable {α : Type} {m m' : Memory}

theorem lift_eq_ok {r : Except Error α} {a : α} :
    Eval.lift r m = .ok (a, m') ↔ r = .ok a ∧ m' = m := by
  cases r with
  | error e => simp [Eval.lift, Except.map]
  | ok b => simp [Eval.lift, Except.map, eq_comm]

theorem orFail_eq_ok {o : Option α} {err : Error} {a : α} :
    orFail o err m = .ok (a, m') ↔ o = some a ∧ m = m' := by
  cases o with
  | none => simp [orFail, Eval.fail]
  | some b => exact pure_eq_ok.trans (by simp [eq_comm])

theorem resolveBuffer_eq_ok {name : Ident} {b : Buffer} :
    m.resolveBuffer name = .ok b ↔ m.find name = some b := by
  unfold Memory.resolveBuffer
  cases m.find name with
  | none | some b' => simp

theorem evalExpr_load_eq_ok {host : Host} {snapshots : List Lane} {buffer : Ident} {index : Expr}
    {lane : Lane} {v : Value} :
    evalExpr host snapshots (.load buffer index) lane m = .ok (v, m') ↔
      ∃ i idx b, evalExpr host snapshots index lane m = .ok (i, m') ∧
        i.tryAsU32 host.floats = some idx ∧ m'.find buffer = some b ∧
          v = b.load host.floats idx := by
  simp only [evalExpr, toIndex, bind_eq_ok, orFail_eq_ok, lift_eq_ok, resolveBuffer_eq_ok]
  constructor
  · rintro ⟨i, _, hi, idx, _, ⟨hidx, rfl⟩, _, _, ⟨⟩, b, _, ⟨hb, rfl⟩, ⟨⟩⟩
    exact ⟨i, idx, b, hi, hidx, hb, rfl⟩
  · rintro ⟨i, idx, b, hi, hidx, hb, rfl⟩
    exact ⟨i, m', hi, idx, m', ⟨hidx, rfl⟩, m', m', rfl, b, m', ⟨hb, rfl⟩, rfl⟩

def Eval.result {α : Type} (x : Eval α) (memory : Memory) : Option (α × Memory) :=
  (x memory).toOption

theorem result_eq_some {x : Eval α} {r : α × Memory} : x.result m = some r ↔ x m = .ok r := by
  rw [Eval.result]
  cases x m <;> simp [Except.toOption]

section Result

variable {α β : Type} (memory : Memory)

@[simp] theorem result_pure (a : α) : Eval.result (pure a) memory = some (a, memory) := rfl

@[simp] theorem result_fail (e : Error) : Eval.result (fail e : Eval α) memory = none := rfl

@[simp] theorem result_bind (x : Eval α) (f : α → Eval β) :
    (x >>= f).result memory = (x.result memory).bind fun r => (f r.1).result r.2 := by
  show (x memory >>= fun p => f p.1 p.2).toOption = _
  rw [Eval.result]
  cases x memory with
  | error e | ok p => rfl

@[simp] theorem result_map (f : α → β) (x : Eval α) :
    (f <$> x).result memory = (x.result memory).map fun r => (f r.1, r.2) := by
  rw [← bind_pure_comp, result_bind, Option.map_eq_bind]
  rfl

@[simp] theorem result_get : Eval.result (get : Eval Memory) memory = some (memory, memory) := rfl

@[simp] theorem result_orFail (o : Option α) (e : Error) :
    (orFail o e).result memory = o.map (·, memory) := by
  cases o <;> rfl

@[simp] theorem result_lift (r : Except Error α) :
    (Eval.lift r).result memory = r.toOption.map (·, memory) := by
  cases r <;> rfl

end Result

def SameShape (m m' : Memory) : Prop := m'.shape = m.shape

instance : Std.Refl SameShape := ⟨fun _ => rfl⟩

instance : IsTrans Memory SameShape := ⟨fun _ _ _ h h' => Eq.trans h' h⟩

/-- The same memory, with the shape of `m₀`. -/
abbrev Shaped (m₀ m m' : Memory) : Prop := m = m' ∧ SameShape m₀ m

theorem respects_bufLen {m m' : Memory} (h : SameShape m m') (buffer : Ident) :
    Respects (fun s s' => s = m ∧ s' = m')
      (get >>= fun m => Eval.lift (m.resolveBuffer buffer) >>=
        fun b => return Value.u32 b.len) := by
  rintro _ _ v _ ⟨rfl, rfl⟩ hrun
  simp only [bind_eq_ok, lift_eq_ok, resolveBuffer_eq_ok] at hrun ⊢
  obtain ⟨_, _, ⟨⟩, b, _, ⟨hb, rfl⟩, ⟨⟩⟩ := hrun
  have hfind := Memory.find_shape h buffer
  rw [hb] at hfind
  obtain ⟨b', hb', hshape⟩ := Option.map_eq_some_iff.mp hfind
  obtain ⟨helement, hlength⟩ := Prod.mk.inj hshape
  refine ⟨_, _, ⟨_, _, rfl, b', _, ⟨hb', rfl⟩, rfl⟩, ?_, rfl, rfl⟩
  rw [Buffer.len, Buffer.len, helement, hlength]

theorem atomicRmw_eq_ok {resolve : Memory → Ident → Except Error Buffer} {buffer : Ident}
    {op : AtomicOp}
    {index : UInt32} {expected : Option UInt32} {value : UInt32} {v : Value} :
    atomicRmw resolve op buffer index expected value m = .ok (v, m') ↔
      ∃ target, resolve m buffer = .ok target ∧
        (target.atomicLoad index = none ∧ v = .u32 0 ∧ m' = m ∨
          ∃ old p, target.atomicLoad index = some old ∧ atomicApply op old expected value = .ok p ∧
            v = .u32 p.1 ∧ m' =
              { m with storage := setBuffer m.storage buffer (target.atomicStore index p.2) }) := by
  simp only [atomicRmw, bind_eq_ok, lift_eq_ok]
  constructor
  · rintro ⟨_, _, ⟨⟩, target, _, ⟨htarget, rfl⟩, h⟩
    refine ⟨target, htarget, ?_⟩
    cases hload : target.atomicLoad index with
    | none =>
      simp only [hload] at h
      cases h
      exact .inl ⟨rfl, rfl, rfl⟩
    | some old =>
      simp only [hload] at h
      obtain ⟨p, m₃, hlift, h⟩ := bind_eq_ok.mp h
      obtain ⟨happly, rfl⟩ := lift_eq_ok.mp hlift
      cases h
      exact .inr ⟨old, p, rfl, happly, rfl, rfl⟩
  · rintro ⟨target, htarget, h⟩
    refine ⟨m, m, rfl, target, m, ⟨htarget, rfl⟩, ?_⟩
    rcases h with ⟨hload, rfl, rfl⟩ | ⟨old, p, hload, happly, rfl, rfl⟩
    · simp only [hload]
      rfl
    · simp only [hload]
      exact bind_eq_ok.mpr ⟨p, m, lift_eq_ok.mpr ⟨happly, rfl⟩, rfl⟩

theorem keeps_atomicRmw {resolve : Memory → Ident → Except Error Buffer} {buffer : Ident}
    (hresolve : ∀ m target, resolve m buffer = .ok target → m.storage buffer = some target)
    (op : AtomicOp) (index : UInt32) (expected : Option UInt32) (value : UInt32) :
    Keeps SameShape (atomicRmw resolve op buffer index expected value) := by
  intro m v m' h
  obtain ⟨target, htarget, ⟨-, -, rfl⟩ | ⟨old, p, -, -, -, rfl⟩⟩ := atomicRmw_eq_ok.mp h
  · exact Std.Refl.refl _
  · exact Prod.ext (setBuffer_shape (hresolve _ target htarget) (target.atomicStore_shape _ _)) rfl

theorem atomicBuffer_eq_ok {name : Ident} {b : Buffer} (h : m.atomicBuffer name = .ok b) :
    m.storage name = some b := by
  unfold Memory.atomicBuffer at h
  split at h
  · cases h
    assumption
  · cases h

theorem atomicsKeep_sameShape (e : Expr) : e.Forall (AtomicsKeep SameShape) := by
  refine Expr.forall_of_all (fun e => ?_) e
  cases e with
  | atomic op _ _ _ _ _ =>
    exact fun i x v => keeps_atomicRmw (fun m target h => atomicBuffer_eq_ok h) op i x v
  | _ => trivial

theorem evalExpr_sameShape (host : Host) (snapshots : List Lane) (e : Expr) (lane : Lane) :
    Keeps SameShape (evalExpr host snapshots e lane) :=
  keeps_evalExpr (atomicsKeep_sameShape e) lane

def integerHost : Host where
  floats :=
    { narrow := fun _ => 0, widen := fun _ => 0, toU32Checked := fun _ => none
      toU64Checked := fun _ => none, toU32 := fun _ => 0, toI32 := fun _ => 0
      ofU32 := fun _ => 0, ofI32 := fun _ => 0, ofU64 := fun _ => 0
      add := fun _ _ => 0, sub := fun _ _ => 0, mul := fun _ _ => 0, div := fun _ _ => 0
      min := fun _ _ => 0, max := fun _ _ => 0, eq := fun _ _ => false
      lt := fun _ _ => false, le := fun _ _ => false, mulAdd := fun _ _ _ => 0
      unary := fun _ _ => 0 }
  dialect := none
  nodeId := id

end Vyre.Reference
