import Vyre.Ir.Collect
import Vyre.Reference.Eval

/-!
# The workgroup machine

Invocations of one workgroup stepping in turn (`hashmap/state.rs`,
`hashmap/step.rs`, `hashmap/node_step.rs`, `hashmap/sync.rs`): locals with
scopes, a stack of statement frames for each invocation, barriers, and the
dynamic check that branches around barriers are taken alike.

A statement is identified by its `label`, its number in the program when
statements are counted in order, blocks excepted; the source uses the address
of the node (`Host.nodeId`).
-/

namespace Vyre.Reference

open Eval

/-- `HashmapLocals`; the innermost scope comes first. -/
structure Locals where
  locals : Ident → Option Value
  immutable : Ident → Bool
  scopes : List (List Ident)

namespace Locals

def new : Locals := ⟨fun _ => none, fun _ => false, [[]]⟩

variable (env : Locals)

def setLocal (name : Ident) (value : Value) : Locals :=
  { env with locals := fun key => if key = name then some value else env.locals key }

def addName (name : Ident) : List (List Ident) → List (List Ident)
  | scope :: scopes => (name :: scope) :: scopes
  | [] => []

def bind (name : Ident) (value : Value) : Except Error Locals :=
  if (env.locals name).isSome then .error (.duplicateLocal name)
  else .ok { env.setLocal name value with scopes := addName name env.scopes }

def assign (name : Ident) (value : Value) : Except Error Locals :=
  if (env.locals name).isNone then .error (.assignUndeclared name)
  else if env.immutable name then .error (.assignLoopVariable name)
  else .ok (env.setLocal name value)

def bindLoopVar (name : Ident) (value : Value) : Except Error Locals :=
  (env.bind name value).map fun env =>
    { env with immutable := fun key => if key = name then true else env.immutable key }

def pushScope : Locals := { env with scopes := [] :: env.scopes }

def popScope : Locals :=
  match env.scopes with
  | [] => env
  | names :: scopes =>
      { locals := fun key => if key ∈ names then none else env.locals key
        immutable := fun key => if key ∈ names then false else env.immutable key
        scopes }

end Locals

mutual

/-- How many labels a statement takes: one, unless it is a block, and those of
its bodies. -/
def labels : Node → Nat
  | .ifThen _ thenNodes otherwise => labelsList thenNodes + labelsList otherwise + 1
  | .loop _ _ _ body => labelsList body + 1
  | .block body => labelsList body
  | .region _ _ body => labelsList body + 1
  | _ => 1

def labelsList : List Node → Nat
  | [] => 0
  | n :: ns => labels n + labelsList ns

end

mutual

/-- `node_contains_barrier`: a region hides the barriers in its body. -/
def nodeContainsBarrier : Node → Bool
  | .barrier _ => true
  | .ifThen _ thenNodes otherwise => containsBarrier thenNodes || containsBarrier otherwise
  | .loop _ _ _ body | .block body => containsBarrier body
  | _ => false

def containsBarrier : List Node → Bool
  | [] => false
  | n :: ns => nodeContainsBarrier n || containsBarrier ns

end

/-- `workgroup::Frame`, with what is left of the statements, and the label of
the first of them. -/
inductive Frame where
  | nodes (rest : List Node) (label : Nat) (isScoped : Bool)
  | loop (var : Ident) (next stop : UInt32) (body : List Node) (label : Nat)

/-- `HashmapAsyncTransfer::Copy`. -/
structure Transfer where
  destination : Ident
  start : Nat
  payload : List UInt8

/-- `HashmapInvocation`; the top frame comes first. -/
structure Invocation where
  ids : InvocationIds
  linearLocalIndex : UInt32
  locals : Locals
  returned : Bool
  waitingAtBarrier : Bool
  uniformChecks : List (Nat × Bool)
  frames : List Frame
  pendingAsync : List (Ident × Transfer)

namespace Invocation

def new (ids : InvocationIds) (linearLocalIndex : UInt32) (entry : List Node) : Invocation where
  ids := ids
  linearLocalIndex := linearLocalIndex
  locals := Locals.new
  returned := false
  waitingAtBarrier := false
  uniformChecks := []
  frames := [.nodes entry 0 false]
  pendingAsync := []

variable (inv : Invocation)

def done : Bool := inv.returned || inv.frames.isEmpty

def lane : Lane := ⟨inv.ids, inv.linearLocalIndex, inv.locals.locals⟩

def beginAsync (tag : Ident) (transfer : Transfer) :
    Except Error Invocation :=
  if inv.pendingAsync.any (·.1 == tag) then
    .error (.interp s!"async transfer tag `{tag}` was started more than once before a matching wait. Fix: reuse the tag only after AsyncWait completes.")
  else .ok { inv with pendingAsync := (tag, transfer) :: inv.pendingAsync }

def finishAsync (tag : Ident) : Except Error (Transfer × Invocation) :=
  match inv.pendingAsync.find? (·.1 == tag) with
  | some entry =>
      .ok (entry.2, { inv with pendingAsync := inv.pendingAsync.filter (·.1 != tag) })
  | none => .error (.interp s!"async wait for tag `{tag}` has no matching async transfer. Fix: emit AsyncLoad or AsyncStore before AsyncWait.")

def enter (body : List Node) (label : Nat) : Invocation :=
  { inv with locals := inv.locals.pushScope, frames := .nodes body label true :: inv.frames }

end Invocation

/-- `read_bytes`: past the end reads as zero. -/
def readBytes (memory : Memory) (source : Ident) (start byteCount : Nat) :
    Except Error (List UInt8) := do
  let buffer ← memory.resolveBuffer source
  let available := (buffer.bytes.drop start).take byteCount
  return available ++ List.replicate (byteCount - available.length) 0

/-- `apply_async_transfer`: what does not fit is dropped. -/
def applyAsyncTransfer (transfer : Transfer) : Eval Unit := do
  let memory ← get
  let buffer ← Eval.lift (memory.resolveBuffer transfer.destination)
  if transfer.start < buffer.bytes.length then
    set (memory.update transfer.destination (buffer.overwrite transfer.start
      (transfer.payload.take (buffer.bytes.length - transfer.start))))

/-- `try_as_u64` of `eval_byte_count`. -/
def toByteCount (fl : Floats) (label : String) (v : Value) : Eval Nat := do
  let n ← orFail (v.tryAsU64 fl) (.interp s!"{label} cannot be represented as u64. Fix: use an in-range non-negative byte count.")
  return n.toNat

/-- `try_as_u32` of a loop bound. -/
def toLoopBound (fl : Floats) (which : String) (v : Value) : Eval UInt32 :=
  orFail (v.tryAsU32 fl) (.interp s!"loop {which} bound cannot be represented as u32. Fix: use an in-range unsigned loop bound.")

/-- `buffer_mut` and `oob::store`. -/
def storeElement (fl : Floats) (buffer : Ident) (index : UInt32) (value : Value) : Eval Unit := do
  let memory ← get
  let target ← Eval.lift (memory.resolveBuffer buffer)
  set (memory.update buffer (target.store fl index value))

def collectiveError (what : String) (group : UInt32) : Error :=
  .interp s!"hashmap reference interpreter reached {what} for group {group}. Fix: run this Program on a distributed backend with collective support or lower the single-rank collective before reference execution."

section Step

variable (host : Host) (snapshots : List Lane)

/-- The statement part of `step_nodes_frame`; the frame of the statements after
`n` is already pushed. -/
def executeNode (inv : Invocation) (label : Nat) : Node → Eval Invocation
  | .letBind name value => do
      let v ← evalExpr host snapshots value inv.lane
      let locals ← Eval.lift (inv.locals.bind name v)
      return { inv with locals }
  | .assign name value => do
      let v ← evalExpr host snapshots value inv.lane
      let locals ← Eval.lift (inv.locals.assign name v)
      return { inv with locals }
  | .store buffer index value => do
      let idx ← toIndex host.floats "store index" (← evalExpr host snapshots index inv.lane)
      let v ← evalExpr host snapshots value inv.lane
      storeElement host.floats buffer idx v
      return inv
  | .ifThen cond thenNodes otherwise => do
      let c := (← evalExpr host snapshots cond inv.lane).truthy host.floats
      let inv :=
        if containsBarrier thenNodes || containsBarrier otherwise then
          { inv with uniformChecks := inv.uniformChecks ++ [(host.nodeId label, c)] }
        else inv
      return if c then inv.enter thenNodes (label + 1)
        else inv.enter otherwise (label + 1 + labelsList thenNodes)
  | .loop var lo hi body => do
      let next ← toLoopBound host.floats "lower" (← evalExpr host snapshots lo inv.lane)
      let stop ← toLoopBound host.floats "upper" (← evalExpr host snapshots hi inv.lane)
      return { inv with frames := .loop var next stop body (label + 1) :: inv.frames }
  | .ret => return { inv with frames := [], returned := true }
  | .block body => return inv.enter body label
  | .barrier _ => return { inv with waitingAtBarrier := true }
  | .indirectDispatch countBuffer countOffset =>
      if 2 ^ 32 ≤ countOffset.toNat then
        fail (.interp s!"indirect dispatch count offset {countOffset} exceeds u32. Fix: keep indirect dispatch offsets within the reference interpreter index domain.")
      else fail (.interp s!"Node::IndirectDispatch cannot execute in the hashmap reference interpreter because dynamic indirect dispatch requires runtime queue scheduling. Fix: run this program on a backend/runtime that supports indirect dispatch or lower `{countBuffer}` at byte offset {countOffset} to a static workgroup grid before reference execution.")
  | .asyncLoad source destination offset size tag => do
      let start ← toByteCount host.floats "async load source offset"
        (← evalExpr host snapshots offset inv.lane)
      let byteCount ← toByteCount host.floats "async load size"
        (← evalExpr host snapshots size inv.lane)
      let memory ← get
      let payload ← Eval.lift (readBytes memory source start byteCount)
      let _ ← Eval.lift (memory.resolveBuffer destination)
      Eval.lift (inv.beginAsync tag ⟨destination, 0, payload⟩)
  | .asyncStore source destination offset size tag => do
      let start ← toByteCount host.floats "async store destination offset"
        (← evalExpr host snapshots offset inv.lane)
      let byteCount ← toByteCount host.floats "async store size"
        (← evalExpr host snapshots size inv.lane)
      let memory ← get
      let payload ← Eval.lift (readBytes memory source 0 byteCount)
      let _ ← Eval.lift (memory.resolveBuffer destination)
      Eval.lift (inv.beginAsync tag ⟨destination, start, payload⟩)
  | .asyncWait tag => do
      let (transfer, inv) ← Eval.lift (inv.finishAsync tag)
      applyAsyncTransfer transfer
      return inv
  | .trap address tag => do
      let v ← evalExpr host snapshots address inv.lane
      let word ← orFail (v.tryAsU32 host.floats) (.interp s!"reference trap `{tag}` address is not a u32. Fix: pass a scalar u32 trap address.")
      fail (.interp s!"reference dispatch trapped: address={word}, tag=`{tag}`. Fix: handle the trap condition or route this Program through a backend/runtime with replay support.")
  | .resume tag => fail (.interp s!"reference dispatch reached Resume `{tag}` without a replay runtime. Fix: lower Resume through a runtime-owned replay path before reference execution.")
  | .allReduce buffer _ group => fail (collectiveError s!"AllReduce on buffer `{buffer}`" group)
  | .allGather input output group =>
      fail (collectiveError s!"AllGather `{input}` -> `{output}`" group)
  | .reduceScatter input output _ group =>
      fail (collectiveError s!"ReduceScatter `{input}` -> `{output}`" group)
  | .broadcast buffer root group =>
      fail (collectiveError s!"Broadcast on buffer `{buffer}` from root {root}" group)
  | .region _ _ body => return inv.enter body (label + 1)
  | .ext extension => fail (.interp s!"hashmap reference interpreter does not support opaque node extension `{extension.extensionKind}`/`{extension.debugIdentity}`. Fix: provide a reference evaluator for this NodeExtension or lower it to core Node variants before evaluation.")

/-- `step_loop_frame`, with the frames below the loop. -/
def stepLoop (inv : Invocation) (var : Ident) (next stop : UInt32) (body : List Node) (label : Nat)
    (frames : List Frame) : Except Error Invocation :=
  if stop ≤ next then .ok { inv with frames }
  else do
    let locals ← inv.locals.pushScope.bindLoopVar var (.u32 next)
    return { inv with
      locals
      frames := .nodes body label true :: .loop var (next + 1) stop body label :: frames }

/-- `step`: an exhausted frame without a scope is dropped on the way. -/
def stepFrames (inv : Invocation) : List Frame → Eval Invocation
  | [] => return { inv with frames := [] }
  | .nodes [] _ false :: frames => stepFrames inv frames
  | .nodes [] _ true :: frames => return { inv with locals := inv.locals.popScope, frames }
  | .nodes (n :: rest) label isScoped :: frames =>
      executeNode host snapshots
        { inv with frames := .nodes rest (label + labels n) isScoped :: frames } label n
  | .loop var next stop body label :: frames =>
      Eval.lift (stepLoop inv var next stop body label frames)

def step (inv : Invocation) : Eval Invocation := stepFrames host snapshots inv inv.frames

def Invocation.runnable (inv : Invocation) : Bool := !inv.done && !inv.waitingAtBarrier

/-- The loop of `step_round_robin`. -/
def stepAll (invs : List Invocation) : Eval (List Invocation) :=
  invs.mapM fun inv => if inv.runnable then step host snapshots inv else return inv

end Step

def liveWaitingCount (invs : List Invocation) : Nat :=
  invs.countP fun inv => !inv.done && inv.waitingAtBarrier

/-- The loop of `verify_uniform_control_flow`, after `observed`. -/
def verifyChecks : List (Nat × Bool) → List (Nat × Bool) → Except Error Unit
  | _, [] => .ok ()
  | observed, (id, value) :: checks =>
      match observed.find? (·.1 == id) with
      | some previous =>
          if previous.2 = value then verifyChecks observed checks
          else .error (.interp "program violates uniform-control-flow rule: Barrier appears inside an If whose condition differs across the workgroup. Fix: make the condition uniform or move Barrier outside the branch.")
      | none => verifyChecks (observed ++ [(id, value)]) checks

def verifyUniformControlFlow (invs : List Invocation) : Except Error Unit :=
  verifyChecks [] ((invs.filter fun inv => !inv.done).flatMap (·.uniformChecks))

def releaseBarrierIfReady (invs : List Invocation) : Option (List Invocation) :=
  let active := invs.countP fun inv => !inv.done
  if 0 < active ∧ active = liveWaitingCount invs then
    some (invs.map fun inv => { inv with waitingAtBarrier := false })
  else none

def isSubgroupIntrinsicId (opId : Ident) : Bool :=
  ["subgroup_", "::subgroup::", "::subgroup", "wave_", "::wave::", "warp_", "::warp::"].any
    fun marker => (opId.splitOn marker).length ≠ 1

/-- What the scan of an expression marks as collective. -/
def subgroupMarks : Expr → List Unit
  | .subgroupAdd _ | .subgroupBallot _ | .subgroupShuffle _ _ | .subgroupLocalId
  | .subgroupSize => [()]
  | .call opId _ => if isSubgroupIntrinsicId opId then [()] else []
  | _ => []

/-- `scan(program).subgroup_ops`. -/
def usesSubgroupOps (entry : List Node) : Bool :=
  !(Node.collectList subgroupMarks (fun _ => []) entry).isEmpty

structure Config where
  memory : Memory
  invocations : List Invocation

namespace Config

/-- What collectives see of the other invocations: taken before the round, and
only for programs that have collectives. -/
def snapshots (usesSubgroupOps : Bool) (c : Config) : List Lane :=
  if usesSubgroupOps then c.invocations.map (·.lane) else []

/-- One round of the loop of `run_invocations`. -/
def round (host : Host) (usesSubgroupOps : Bool) (c : Config) : Except Error Config := do
  let (invs, memory) ← stepAll host (c.snapshots usesSubgroupOps) c.invocations c.memory
  verifyUniformControlFlow invs
  match releaseBarrierIfReady invs with
  | some invs => return ⟨memory, invs⟩
  | none =>
      if c.invocations.any (·.runnable) || liveWaitingCount invs = 0 then return ⟨memory, invs⟩
      else .error (.interp "program violates uniform-control-flow rule: not every live invocation reached the same barrier. Fix: move Barrier to uniform control flow.")

/-- The loop of `run_invocations` is over. -/
def finished (c : Config) : Bool := c.invocations.all (·.done)

def pendingCheck (debugIds : InvocationIds → String) (c : Config) : Except Error Unit :=
  match c.invocations.find? (fun inv => !inv.pendingAsync.isEmpty) with
  | some inv =>
      match inv.pendingAsync with
      | (tag, _) :: _ => .error (.interp s!"invocation {debugIds inv.ids} completed with async transfer tag `{tag}` still pending. Fix: add AsyncWait for every AsyncLoad/AsyncStore tag before Return or end-of-program.")
      | [] => .ok ()
  | none => .ok ()

end Config

def globalDim (wgid size localId : UInt32) : Except Error UInt32 :=
  if wgid.toNat * size.toNat + localId.toNat < 2 ^ 32 then .ok (wgid * size + localId)
  else .error (.interp "workgroup * dispatch dimensions overflow u32 global id. Fix: reduce workgroup id or workgroup size so each global_invocation_id component fits in u32.")

/-- The local ids of a workgroup, `x` fastest. -/
def localIds (size : Dim3) : List Dim3 :=
  (List.range size.2.2.toNat).flatMap fun z => (List.range size.2.1.toNat).flatMap fun y =>
    (List.range size.1.toNat).map fun x => (UInt32.ofNat x, UInt32.ofNat y, UInt32.ofNat z)

def createInvocations (program : Program) (workgroup : Dim3) : Except Error (List Invocation) :=
  let size := program.workgroupSize
  if 2 ^ 32 ≤ size.1.toNat * size.2.1.toNat * size.2.2.toNat then
    .error (.interp "workgroup invocation count overflows u32. Fix: reduce workgroup dimensions before reference execution.")
  else
    (localIds size).zipIdx.mapM fun (l, index) => do
      let x ← globalDim workgroup.1 size.1 l.1
      let y ← globalDim workgroup.2.1 size.2.1 l.2.1
      let z ← globalDim workgroup.2.2 size.2.2 l.2.2
      return Invocation.new ⟨(x, y, z), workgroup, l⟩ (UInt32.ofNat index) program.entry

theorem new_of_createInvocations {p : Program} {workgroup : Dim3} {invs : List Invocation}
    (h : createInvocations p workgroup = .ok invs) {inv : Invocation} (hinv : inv ∈ invs) :
    ∃ ids index, ids.workgroup = workgroup ∧ inv = Invocation.new ids index p.entry := by
  simp only [createInvocations] at h
  split at h
  · cases h
  · obtain ⟨⟨l, index⟩, -, hl⟩ := StateExcept.exists_of_mapM_eq_ok h hinv
    simp only [ByteCodec.bind_eq_ok, ByteCodec.pure_eq_ok] at hl
    obtain ⟨x, -, y, -, z, -, hl⟩ := hl
    exact ⟨_, _, rfl, hl.symm⟩

/-! ## What a round does -/

theorem verifyChecks_error {observed checks : List (Nat × Bool)} {e : Error}
    (h : verifyChecks observed checks = .error e) : ∃ message, e = .interp message := by
  induction checks generalizing observed with
  | nil => cases h
  | cons check checks ih =>
    rw [verifyChecks] at h
    repeat' split at h
    case isFalse =>
      cases h
      exact ⟨_, rfl⟩
    all_goals exact ih h

variable {host : Host} {usesSubgroupOps : Bool} {c : Config}

theorem Config.round_verified {c' : Config} (h : c.round host usesSubgroupOps = .ok c') : ∃ invs,
    stepAll host (c.snapshots usesSubgroupOps) c.invocations c.memory = .ok (invs, c'.memory) ∧
    verifyUniformControlFlow invs = .ok () ∧
    c'.invocations = (releaseBarrierIfReady invs).getD invs := by
  obtain ⟨⟨invs, memory⟩, hs, h⟩ := ByteCodec.bind_eq_ok.mp h
  obtain ⟨_, hv, h⟩ := ByteCodec.bind_eq_ok.mp h
  refine ⟨invs, ?_⟩
  repeat' split at h
  all_goals cases h
  all_goals simp [*]

theorem Config.round_eq_ok {c' : Config} (h : c.round host usesSubgroupOps = .ok c') : ∃ invs,
    stepAll host (c.snapshots usesSubgroupOps) c.invocations c.memory = .ok (invs, c'.memory) ∧
    (c'.invocations = invs ∨ releaseBarrierIfReady invs = some c'.invocations) := by
  obtain ⟨invs, hstep, -, hrelease⟩ := Config.round_verified h
  refine ⟨invs, hstep, ?_⟩
  cases hr : releaseBarrierIfReady invs with
  | none => exact .inl (by simpa [hr] using hrelease)
  | some released => exact .inr (by simp [hrelease, hr])

theorem Config.round_eq_error {e : Error} (h : c.round host usesSubgroupOps = .error e) :
    stepAll host (c.snapshots usesSubgroupOps) c.invocations c.memory = .error e ∨
      ∃ message, e = .interp message := by
  unfold Config.round at h
  cases hs : stepAll host (c.snapshots usesSubgroupOps) c.invocations c.memory with
  | error e' =>
    rw [hs] at h
    cases h
    exact .inl rfl
  | ok r =>
    rw [hs] at h
    cases hv : verifyUniformControlFlow r.1 with
    | error e' =>
      simp only [hv, bind, Except.bind] at h
      cases h
      exact .inr (verifyChecks_error hv)
    | ok _ =>
      simp only [hv, bind, Except.bind] at h
      repeat' split at h
      all_goals cases h
      exact .inr ⟨_, rfl⟩

theorem releaseBarrierIfReady_eq_some {invs released : List Invocation}
    (h : releaseBarrierIfReady invs = some released) :
    released = invs.map fun inv => { inv with waitingAtBarrier := false } := by
  simp only [releaseBarrierIfReady] at h
  split at h
  · exact (Option.some.inj h).symm
  · cases h

/-- The states `run_invocations` goes through. -/
inductive Reachable (host : Host) (usesSubgroupOps : Bool) (start : Config) : Config → Prop
  | start : Reachable host usesSubgroupOps start start
  | round {c c' : Config} : Reachable host usesSubgroupOps start c → c.finished = false →
      c.round host usesSubgroupOps = .ok c' → Reachable host usesSubgroupOps start c'

/-- At most `k` rounds. -/
def rounds (host : Host) (usesSubgroupOps : Bool) : Nat → Config → Except Error Config
  | 0, c => .ok c
  | k + 1, c =>
      if c.finished then .ok c
      else c.round host usesSubgroupOps >>= rounds host usesSubgroupOps k

section Rounds

variable {host : Host} {usesSubgroupOps : Bool} {start c c' : Config}

theorem Reachable.head (hfinished : start.finished = false)
    (hround : start.round host usesSubgroupOps = .ok c)
    (h : Reachable host usesSubgroupOps c c') : Reachable host usesSubgroupOps start c' := by
  induction h with
  | start => exact .round .start hfinished hround
  | round _ hf hr ih => exact .round ih hf hr

theorem reachable_of_rounds {k : Nat} (h : rounds host usesSubgroupOps k start = .ok c) :
    Reachable host usesSubgroupOps start c := by
  induction k generalizing start with
  | zero =>
    cases h
    exact .start
  | succ k ih =>
    rw [rounds] at h
    split at h
    · cases h
      exact .start
    · rename_i hfinished
      obtain ⟨c₁, hround, hrest⟩ := ByteCodec.bind_eq_ok.mp h
      exact .head (by simpa using hfinished) hround (ih hrest)

theorem reachable_of_rounds_error {k : Nat} {e : Error}
    (h : rounds host usesSubgroupOps k start = .error e) :
    ∃ c, Reachable host usesSubgroupOps start c ∧ c.round host usesSubgroupOps = .error e := by
  induction k generalizing start with
  | zero => cases h
  | succ k ih =>
    rw [rounds] at h
    split at h
    · cases h
    · rename_i hfinished
      cases hround : start.round host usesSubgroupOps with
      | error e' =>
        rw [hround] at h
        cases h
        exact ⟨start, .start, hround⟩
      | ok c₁ =>
        rw [hround] at h
        obtain ⟨c, hc, he⟩ := ih h
        exact ⟨c, .head (by simpa using hfinished) hround hc, he⟩

theorem exists_reachable_error {p : Program} {workgroup : Dim3} {memory : Memory} {e : Error}
    (k : Nat)
    (h : ∃ invs, createInvocations p workgroup = .ok invs ∧
      rounds host usesSubgroupOps k ⟨memory, invs⟩ = .error e) :
    ∃ invs c, createInvocations p workgroup = .ok invs ∧
      Reachable host usesSubgroupOps ⟨memory, invs⟩ c ∧
        c.round host usesSubgroupOps = .error e := by
  obtain ⟨invs, hinvs, hrun⟩ := h
  obtain ⟨c, hc, he⟩ := reachable_of_rounds_error hrun
  exact ⟨invs, c, hinvs, hc, he⟩

end Rounds

end Vyre.Reference
