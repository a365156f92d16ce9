import Vyre.Reference.FrameEval

/-!
# The two evaluators agree

The frame-stack evaluator and the recursive one fail together, and otherwise
return the same value and memory. They differ in their diagnostics, in the
moment `fma` looks at its operands, and in how they find a buffer: by its
declaration, or in whichever map has it. In a memory laid out as the program
declares the two lookups find the same buffer.
-/

namespace Vyre.Reference

open Eval StateExcept

variable {α : Type}

@[simp] theorem toOption_bind {β : Type} (r : Except Error α) (f : α → Except Error β) :
    (r >>= f).toOption = r.toOption.bind fun a => (f a).toOption := by
  cases r <;> rfl

@[simp] theorem toOption_ok (a : α) : (Except.ok a : Except Error α).toOption = some a := rfl

@[simp] theorem toOption_error (e : Error) :
    (Except.error e : Except Error α).toOption = none := rfl

@[simp] theorem pop_cons (v : Value) (values : List Value) (m : Memory) (message : String) :
    EvalState.pop ⟨v :: values, m⟩ message = .ok (v, ⟨values, m⟩) := rfl

@[simp] theorem toOption_map {β : Type} (f : α → β) (r : Except Error α) :
    (f <$> r).toOption = r.toOption.map f := by
  cases r <;> rfl

@[simp] theorem toOption_pure (a : α) : (pure a : Except Error α).toOption = some a := rfl

@[simp] theorem toOption_orError (o : Option α) (e : Error) : (orError o e).toOption = o := by
  cases o <;> rfl

/-- Every buffer is declared, and lives in the map its declaration names. -/
def Memory.Conforms (program : Program) (m : Memory) : Prop :=
  ∀ name, ((m.storage name).isSome →
      ∃ d, program.buffer name = some d ∧ d.access ≠ .workgroup) ∧
    ((m.workgroup name).isSome → ∃ d, program.buffer name = some d ∧ d.access = .workgroup)

theorem Memory.Conforms.of_sameShape {program : Program} {m m' : Memory}
    (h : m.Conforms program) (hshape : SameShape m m') : m'.Conforms program := by
  intro name
  obtain ⟨hs, hw⟩ := Prod.mk.inj hshape
  have hs := congrArg Option.isSome (congrFun hs name)
  have hw := congrArg Option.isSome (congrFun hw name)
  simp only [Option.isSome_map] at hs hw
  rw [hs, hw]
  exact h name

theorem Memory.Conforms.evalExpr {program : Program} {m : Memory} (h : m.Conforms program)
    {host : Host} {snapshots : List Lane} {e : Expr} {lane : Lane} {r : Value × Memory}
    (hr : (Reference.evalExpr host snapshots e lane).result m = some r) : r.2.Conforms program :=
  h.of_sameShape (evalExpr_sameShape host snapshots e lane m r.1 r.2 (result_eq_some.mp hr))

/-- The buffers an expression names are declared, and targets of atomics are
`ReadWrite`. -/
def NamesDeclared (program : Program) : Expr → Prop
  | .load buffer _ | .bufLen buffer => ∃ d, program.buffer buffer = some d
  | .atomic _ buffer _ _ _ _ => ∃ d, program.buffer buffer = some d ∧ d.access = .readWrite
  | _ => True

def NoCollective : Expr → Prop
  | .subgroupBallot _ | .subgroupShuffle _ _ | .subgroupAdd _ => False
  | _ => True

section Lookup

variable {program : Program} {m : Memory} {name : Ident} {d : BufferDecl}

theorem resolveDeclared_toOption (hm : m.Conforms program) (hd : program.buffer name = some d) :
    (resolveDeclared program m name).toOption = (m.resolveBuffer name).toOption := by
  obtain ⟨hstorage, hworkgroup⟩ := hm name
  have hfind : (m.resolveBuffer name).toOption = m.find name := by
    unfold Memory.resolveBuffer
    cases m.find name <;> rfl
  simp only [resolveDeclared, bufferDecl, declaredBuffer, toOption_bind, toOption_orError, hd,
    Option.bind_some, hfind, Memory.find]
  by_cases haccess : d.access = .workgroup
  · cases hs : m.storage name with
    | none => simp [haccess]
    | some b =>
      obtain ⟨d', hd', hne⟩ := hstorage (by simp [hs])
      rw [hd] at hd'
      cases hd'
      exact absurd haccess hne
  · cases hw : m.workgroup name with
    | none => simp [haccess]
    | some b =>
      obtain ⟨d', hd', heq⟩ := hworkgroup (by simp [hw])
      rw [hd] at hd'
      cases hd'
      exact absurd heq haccess

theorem atomicDeclared_toOption (hd : program.buffer name = some d) (hrw : d.access = .readWrite) :
    (atomicDeclared program m name).toOption = (m.atomicBuffer name).toOption := by
  have hstorage : (m.atomicBuffer name).toOption = m.storage name := by
    unfold Memory.atomicBuffer
    cases m.storage name <;> rfl
  simp [atomicDeclared, bufferDecl, declaredBuffer, hd, hrw, hstorage]

theorem atomicRmw_result {resolve resolve' : Memory → Ident → Except Error Buffer}
    (h : (resolve m name).toOption = (resolve' m name).toOption) (op : AtomicOp)
    (index : UInt32) (expected : Option UInt32) (value : UInt32) :
    (atomicRmw resolve op name index expected value).result m =
      (atomicRmw resolve' op name index expected value).result m := by
  simp only [atomicRmw, result_bind, result_get, Option.bind_some, result_lift, h]

end Lookup

/-! ## What the frames of an expression compute -/

section Agreement

def Shared (program : Program) (e : Expr) : Prop := NoCollective e ∧ NamesDeclared program e

variable {host : Host} {program : Program} {snapshots : List Lane} {lane : Lane}

def finish (host : Host) (program : Program) (lane : Lane) (frames : List EvalFrame)
    (values : List Value) (m : Memory) : Option EvalState :=
  ((frameLoop host program lane (evalFrameOracle host program lane)).run frames
    ⟨values, m⟩).toOption

/-- Running the frame of an expression pushes what the recursive evaluator
returns, and goes on with the other frames. -/
def Computes (host : Host) (program : Program) (snapshots : List Lane) (lane : Lane) (e : Expr) :
    Prop :=
  ∀ frames values m, m.Conforms program →
    finish host program lane (.expr e :: frames) values m =
      ((evalExpr host snapshots e lane).result m).bind fun r =>
        finish host program lane frames (r.1 :: values) r.2

variable {frames : List EvalFrame} {values : List Value} {m : Memory}

theorem finish_cons (frame : EvalFrame) :
    finish host program lane (frame :: frames) values m =
      (frameStep host program lane (evalFrameOracle host program lane) frame
        ⟨values, m⟩).toOption.bind fun r =>
          finish host program lane (r.1 ++ frames) r.2.values r.2.memory := by
  rw [finish, Worklist.Loop.run_cons, toOption_bind]
  rfl

theorem Computes.operand {α : Type} {e : Expr} (h : Computes host program snapshots lane e)
    (hm : m.Conforms program) {next : Value → Eval α} {K : α × Memory → Option EvalState}
    (hnext : ∀ v m', m'.Conforms program →
      finish host program lane frames (v :: values) m' = ((next v).result m').bind K) :
    finish host program lane (.expr e :: frames) values m =
      ((evalExpr host snapshots e lane >>= next).result m).bind K := by
  rw [h frames values m hm, result_bind]
  cases hr : (evalExpr host snapshots e lane).result m with
  | none => rfl
  | some r => exact hnext r.1 r.2 (hm.evalExpr hr)

theorem Computes.oracle {e : Expr} (h : Computes host program snapshots lane e)
    (hm : m.Conforms program) :
    (evalFrameOracle host program lane e).result m = (evalExpr host snapshots e lane).result m := by
  have hrun := h [] [] m hm
  rw [evalFrameOracle_eq]
  show (Except.toOption (_ >>= fun st => _)) = _
  rw [toOption_bind]
  show (finish host program lane [.expr e] [] m).bind _ = _
  rw [hrun]
  cases (evalExpr host snapshots e lane).result m with
  | none => rfl
  | some r => simp [finish]

theorem encodeFrameInputs_result {args : List Expr}
    (hargs : ∀ a ∈ args, Computes host program snapshots lane a) (opId : Ident)
    (params : List String) (input : List UInt8) (hm : m.Conforms program) :
    (encodeFrameInputs (evalFrameOracle host program lane) opId args params input).result m =
      (encodeInputs host snapshots opId args params input lane).result m := by
  induction args generalizing params input m with
  | nil => simp [encodeFrameInputs, encodeInputs]
  | cons arg args ih =>
    cases params with
    | nil => simp [encodeFrameInputs, encodeInputs]
    | cons param params =>
      have harg := (hargs arg (by simp)).oracle hm
      simp only [encodeFrameInputs, encodeInputs]
      split
      · simp
      · simp only [result_bind, harg]
        cases hr : (evalExpr host snapshots arg lane).result m with
        | none => rfl
        | some r =>
          exact ih (fun a ha => hargs a (List.mem_cons_of_mem arg ha)) params _ (hm.evalExpr hr)

theorem evalFrameCall_result {args : List Expr}
    (hargs : ∀ a ∈ args, Computes host program snapshots lane a) (opId : Ident)
    (hm : m.Conforms program) :
    (evalFrameCall host (evalFrameOracle host program lane) opId args).result m =
      (evalExpr host snapshots (.call opId args) lane).result m := by
  have hresolve : (resolveFrameCall host opId).toOption = (resolveCall host opId).toOption := by
    unfold resolveFrameCall resolveCall
    cases host.dialect with
    | none => simp only [toOption_error]
    | some lookup => cases h : lookup opId <;> simp [h]
  simp only [evalFrameCall, evalExpr, result_bind, result_lift, hresolve]
  cases (resolveCall host opId).toOption with
  | none => rfl
  | some op =>
    simp only [Option.map_some, Option.bind_some]
    cases (validateArity opId args.length op.inputs.length).toOption with
    | none => rfl
    | some u =>
      simp only [Option.map_some, Option.bind_some,
        encodeFrameInputs_result hargs opId op.inputs [] hm]

theorem finish_atomicValue {buffer : Ident} {d : BufferDecl} (hd : program.buffer buffer = some d)
    (hrw : d.access = .readWrite) (op : AtomicOp) (expected : Option UInt32) (idx : UInt32)
    (v : Value) :
    finish host program lane (.atomicValue op buffer expected idx :: frames) (v :: values) m =
      ((atomicOperand host.floats v >>= fun word =>
        atomicRmw Memory.atomicBuffer op buffer idx expected word).result m).bind fun r =>
          finish host program lane frames (r.1 :: values) r.2 := by
  have hrmw : ∀ word, (atomicRmw (atomicDeclared program) op buffer idx expected word m).toOption =
      (atomicRmw Memory.atomicBuffer op buffer idx expected word).result m :=
    atomicRmw_result (atomicDeclared_toOption hd hrw) op idx expected
  simp only [finish_cons, frameStep, pop_cons, toOption_bind, toOption_ok, toOption_orError,
    Option.bind_some, toOption_pure, hrmw, result_bind, atomicOperand, result_orFail,
    Option.bind_map, Option.bind_assoc]
  rfl

theorem finish_fma (u v w : Value) :
    finish host program lane (.fma :: frames) (w :: v :: u :: values) m =
      ((do
        let x ← fmaOperand host.floats "a" u
        let y ← fmaOperand host.floats "b" v
        let z ← fmaOperand host.floats "c" w
        return fmaValue host.floats x y z : Eval Value).result m).bind fun r =>
          finish host program lane frames (r.1 :: values) r.2 := by
  cases hx : u.tryAsF32 host.floats <;> cases hy : v.tryAsF32 host.floats <;>
    cases hz : w.tryAsF32 host.floats <;>
    simp [finish_cons, frameStep, EvalState.push, fmaOperand, hx, hy, hz]

attribute [local simp] frameStep EvalState.push Option.bind_map Option.bind_assoc
  Function.comp_def in
theorem computes {e : Expr} (he : e.Forall (Shared program)) :
    Computes host program snapshots lane e := by
  induction e with intro frames values m hm
  | litU32 value | litI32 value | litF32 bits | litBool value | subgroupLocalId | subgroupSize
  | ext extension =>
    rw [finish_cons]
    rfl
  | var name =>
    simp only [finish_cons, frameStep, evalExpr, result_orFail]
    cases lane.locals name <;> rfl
  | load buffer index ih =>
    obtain ⟨⟨-, d, hd⟩, hindex⟩ := he
    rw [finish_cons]
    show finish host program lane (.expr index :: .load buffer :: frames) values m = _
    refine (ih hindex).operand hm fun v m' hm' => ?_
    rw [finish_cons]
    simp [resolveDeclared_toOption hm' hd, toIndex]
  | bufLen buffer =>
    obtain ⟨-, d, hd⟩ := he
    rw [finish_cons]
    simp [evalExpr, resolveDeclared_toOption hm hd]
  | invocationId axis | workgroupId axis | localId axis =>
    rw [finish_cons]
    simp [evalExpr]
  | binOp op left right ihl ihr =>
    rw [finish_cons]
    show finish host program lane (.expr left :: .expr right :: .binOp op :: frames) values m = _
    refine (ihl he.2.1).operand hm fun l m₁ hm₁ => ?_
    refine (ihr he.2.2).operand hm₁ fun r m₂ _ => ?_
    rw [finish_cons]
    simp
  | unOp op operand ih =>
    rw [finish_cons]
    show finish host program lane (.expr operand :: .unOp op :: frames) values m = _
    refine (ih he.2).operand hm fun v m' _ => ?_
    rw [finish_cons]
    simp
  | call opId args ih =>
    have hargs : ∀ a ∈ args, Computes host program snapshots lane a :=
      fun a ha => ih a ha (Expr.forallArgs_iff.mp he.2 a ha)
    rw [finish_cons, ← evalFrameCall_result hargs opId hm, frameStep, toOption_bind]
    simp only [toOption_pure, Option.bind_assoc, Option.bind_some]
    rfl
  | select cond trueVal falseVal ihc iht ihf =>
    rw [finish_cons]
    show finish host program lane
      (.expr cond :: .expr trueVal :: .expr falseVal :: .select :: frames) values m = _
    refine (ihc he.2.1).operand hm fun c m₁ hm₁ => ?_
    refine (iht he.2.2.1).operand hm₁ fun t m₂ hm₂ => ?_
    refine (ihf he.2.2.2).operand hm₂ fun f m₃ _ => ?_
    rw [finish_cons]
    rfl
  | cast target value ih =>
    rw [finish_cons]
    show finish host program lane (.expr value :: .cast target :: frames) values m = _
    refine (ih he.2).operand hm fun v m' _ => ?_
    rw [finish_cons]
    simp
  | fma a b c iha ihb ihc =>
    rw [finish_cons]
    refine (iha he.2.1).operand hm fun u m₁ hm₁ => ?_
    -- the stack machine evaluates `b` and `c` before it looks at `a`
    refine ((ihb he.2.2.1).operand hm₁ fun v m₂ hm₂ =>
      (ihc he.2.2.2).operand hm₂ fun w m₃ _ => finish_fma u v w).trans ?_
    cases hx : u.tryAsF32 host.floats with
    | none => simp [fmaOperand, hx]
    | some x =>
      simp only [fmaOperand, hx, result_bind, result_orFail, result_pure, Option.map_some,
        Option.bind_some, Option.bind_assoc, Option.bind_map, Function.comp_def]
      refine congrArg _ (funext fun r => ?_)
      exact Option.bind_comm _ _
  | atomic op buffer index expected value _ ihi ihe ihv =>
    obtain ⟨⟨-, d, hd, hrw⟩, hindex, hexpected, hvalue⟩ := he
    have hlast : ∀ idx exp values m, m.Conforms program →
        finish host program lane
          (.expr value :: .atomicValue op buffer exp idx :: frames) values m =
          ((do
            let v ← atomicOperand host.floats (← evalExpr host snapshots value lane)
            atomicRmw Memory.atomicBuffer op buffer idx exp v : Eval Value).result m).bind fun r =>
              finish host program lane frames (r.1 :: values) r.2 :=
      fun idx exp values m hm => (ihv hvalue).operand hm fun v m' _ => finish_atomicValue hd hrw ..
    rw [finish_cons, evalExpr, frameStep, result_bind]
    cases atomicExpectedRule op expected with
    | error err => rfl
    | ok u =>
      show finish host program lane
        (.expr index :: .atomicIndex op buffer expected value :: frames) values m = _
      refine (ihi hindex).operand hm fun v m₁ hm₁ => ?_
      rw [finish_cons]
      cases hidx : v.tryAsU32 host.floats with
      | none => simp [toIndex, hidx]
      | some idx =>
        cases expected with
        | none => simpa [toIndex, hidx, evalExpected] using hlast idx none values m₁ hm₁
        | some e =>
          have hto : toIndex host.floats "atomic index" v = pure idx := by
            simp [toIndex, hidx, orFail]
          rw [hto, pure_bind, evalExpected, bind_assoc]
          refine Eq.trans (b := finish host program lane
            (.expr e :: .atomicExpected op buffer idx value e :: frames) values m₁)
              (by simp [hidx]) ?_
          refine (ihe e rfl hexpected).operand hm₁ fun w m₂ hm₂ => ?_
          rw [finish_cons]
          cases hword : w.tryAsU32 host.floats with
          | none => simp [hword]
          | some word => simpa [hword] using hlast idx (some word) values m₂ hm₂
  | subgroupBallot cond ih | subgroupShuffle value src ih | subgroupAdd value ih =>
    exact absurd he.1.1 id

end Agreement

/-- The frame-stack evaluator and the recursive evaluator fail together, and
otherwise return the same value and leave the same memory. Calls and extensions
are covered as well; only operations over subgroup lanes, which the frame
evaluator rejects, are not. -/
theorem evalFrameOracle_agrees (host : Host) (program : Program) (snapshots : List Lane)
    (lane : Lane) (e : Expr) (memory : Memory) (hlanes : e.Forall NoCollective)
    (hnames : e.Forall (NamesDeclared program)) (hmemory : memory.Conforms program) :
    (∃ err err', evalFrameOracle host program lane e memory = .error err ∧
        evalExpr host snapshots e lane memory = .error err') ∨
      ∃ value memory', evalFrameOracle host program lane e memory = .ok (value, memory') ∧
        evalExpr host snapshots e lane memory = .ok (value, memory') := by
  have hcomputes : Computes host program snapshots lane e := computes (hlanes.and hnames)
  have hagree := hcomputes.oracle hmemory
  unfold Eval.result at hagree
  cases hframe : evalFrameOracle host program lane e memory with
  | error err =>
    cases hrec : evalExpr host snapshots e lane memory with
    | error err' => exact .inl ⟨err, err', rfl, rfl⟩
    | ok r => simp [hframe, hrec] at hagree
  | ok r =>
    obtain ⟨value, memory'⟩ := r
    cases hrec : evalExpr host snapshots e lane memory with
    | error err' => simp [hframe, hrec] at hagree
    | ok r' =>
      simp only [hframe, hrec, toOption_ok, Option.some.injEq] at hagree
      exact .inr ⟨value, memory', rfl, by rw [← hagree]⟩

/-- One `ReadWrite` buffer of words. -/
def accProgram : Program := .wrapped [.readWrite "acc" 0 .u32] (1, 1, 1) []

def accMemory : Memory where
  storage name := if name = "acc" then some ⟨[5, 0, 0, 0, 7, 0, 0, 0], .u32⟩ else none
  workgroup _ := none

def originLane : Lane := ⟨⟨(0, 0, 0), (0, 0, 0), (0, 0, 0)⟩, 0, fun _ => none⟩

def addThenLoad : Expr :=
  .binOp .add (.atomic .add "acc" (.litU32 0) none (.litU32 3) .seqCst)
    (.load "acc" (.litU32 0))

theorem accMemory_conforms : accMemory.Conforms accProgram := by
  intro name
  constructor
  · intro h
    by_cases hname : name = "acc"
    · subst hname
      exact ⟨.readWrite "acc" 0 .u32, rfl, by decide⟩
    · simp [accMemory, hname] at h
  · intro h
    cases h

theorem evalFrameOracle_agrees_addThenLoad :
    (∃ err err', evalFrameOracle integerHost accProgram originLane addThenLoad accMemory =
          .error err ∧ evalExpr integerHost [] addThenLoad originLane accMemory = .error err') ∨
      ∃ value memory', evalFrameOracle integerHost accProgram originLane addThenLoad accMemory =
          .ok (value, memory') ∧
        evalExpr integerHost [] addThenLoad originLane accMemory = .ok (value, memory') :=
  evalFrameOracle_agrees integerHost accProgram [] originLane addThenLoad accMemory
    (by simp [addThenLoad, Expr.Forall, Expr.ForallExpected, NoCollective])
    ⟨trivial, ⟨⟨_, rfl, rfl⟩, trivial, trivial, trivial⟩, ⟨_, rfl⟩, trivial⟩
    accMemory_conforms

end Vyre.Reference
