import Vyre.Reference.Uniformity

/-!
# A single invocation

What the workgroup machine computes when the workgroup has one invocation, as a
recursive function over the statements. Loops have bounds that are evaluated
once, so the function is total.

The module connects the two: a run of the machine that ends without an error
computes what the function computes, and when the function returns the machine
ends.
-/

namespace Vyre.Reference

open Eval StateExcept Bool Control

/-- How a list of statements ends, with the state it leaves. -/
inductive Outcome (σ : Type) where
  | next (s : σ)
  | returned (s : σ)

namespace Outcome

variable {σ τ : Type}

def andThen (out : Outcome σ) (f : σ → Eval (Outcome σ)) : Eval (Outcome σ) :=
  match out with
  | .next s => f s
  | .returned s => return .returned s

def map (f : σ → σ) : Outcome σ → Outcome σ
  | .next s => .next (f s)
  | .returned s => .returned s

def state : Outcome σ → σ
  | .next s => s
  | .returned s => s

end Outcome

namespace Invocation

variable (inv : Invocation)

def enterScope : Invocation := { inv with locals := inv.locals.pushScope }

def leaveScope : Invocation := { inv with locals := inv.locals.popScope }

/-- The locals of an invocation that returned are not looked at any more. -/
def dropLocals : Invocation := { inv with locals := Locals.new }

/-- The barrier of a lone invocation is released in the round it is reached. -/
def released : Invocation := { inv with waitingAtBarrier := false }

def recordBranch (guardsBarrier : Bool) (id : Nat) (taken : Bool) : Invocation :=
  if guardsBarrier then { inv with uniformChecks := inv.uniformChecks ++ [(id, taken)] } else inv

def withFrames (frames : List Frame) : Invocation := { inv with frames }

end Invocation

def execLoop (body : Invocation → Eval (Outcome Invocation)) (var : Ident) :
    Nat → UInt32 → Invocation → Eval (Outcome Invocation)
  | 0, _, inv => return .next inv
  | left + 1, next, inv => do
      let locals ← Eval.lift (inv.locals.pushScope.bindLoopVar var (.u32 next))
      let out ← body { inv with locals }
      out.andThen fun inv => execLoop body var left (next + 1) inv.leaveScope

/-- The lanes a collective of a lone invocation sees: its own, when the program
has collectives. -/
def Lane.alone (lane : Lane) (collectives : Bool) : List Lane :=
  if collectives then [lane] else []

section Exec

variable (host : Host) (coll : Bool)

mutual

def execNode : Node → Nat → Invocation → Eval (Outcome Invocation)
  | .ifThen cond thenNodes otherwise, label, inv => do
      let c := (← evalExpr host (inv.lane.alone coll) cond inv.lane).truthy host.floats
      let inv := (inv.recordBranch (containsBarrier thenNodes || containsBarrier otherwise)
        (host.nodeId label) c).enterScope
      let out ← if c then execNodes thenNodes (label + 1) inv
        else execNodes otherwise (label + 1 + labelsList thenNodes) inv
      return out.map Invocation.leaveScope
  | .loop var lo hi body, label, inv => do
      let (next, stop) ← loopBounds host (inv.lane.alone coll) inv.lane lo hi
      execLoop (execNodes body (label + 1)) var (stop.toNat - next.toNat) next inv
  | .ret, _, inv => return .returned inv.dropLocals
  | .block body, label, inv => Outcome.map .leaveScope <$> execNodes body label inv.enterScope
  | .region _ _ body, label, inv =>
      Outcome.map .leaveScope <$> execNodes body (label + 1) inv.enterScope
  | n, label, inv => do
      let inv ← executeNode host (inv.lane.alone coll) inv label n
      return .next inv.released

def execNodes : List Node → Nat → Invocation → Eval (Outcome Invocation)
  | [], _, inv => return .next inv
  | n :: ns, label, inv => do
      let out ← execNode n label inv
      out.andThen (execNodes ns (label + labels n))

end

abbrev Ending := List (Nat × Bool) × List (Ident × Transfer)

def Invocation.ending (inv : Invocation) : Ending := (inv.uniformChecks, inv.pendingAsync)

def execFrames : List Frame → Invocation → Eval Ending
  | [], inv => return inv.ending
  | .nodes rest label isScoped :: frames, inv => do
      match ← execNodes host coll rest label inv with
      | .next inv => execFrames frames (if isScoped then inv.leaveScope else inv)
      | .returned inv => return inv.ending
  | .loop var next stop body label :: frames, inv => do
      match ← execLoop (execNodes host coll body label) var (stop.toNat - next.toNat) next inv with
      | .next inv => execFrames frames inv
      | .returned inv => return inv.ending

def execRest (inv : Invocation) : Eval Ending := execFrames host coll inv.frames (inv.withFrames [])

end Exec

/-! ## One step -/

section Step

variable {host : Host} {coll : Bool}

variable {n : Node} {α : Type} {inv : Invocation}

/-- The statements that `execNode` hands to the machine, locals excepted. -/
theorem execNode_withEffect (h : changesNoLocal n = true) (inv inv' : Invocation)
    (hlane : inv'.lane = inv.lane) (hpending : inv'.pendingAsync = inv.pendingAsync)
    (label label' : Nat) :
    execNode host coll n label inv = (fun after => .next (inv.withEffect n after).released) <$>
      executeNode host (inv.lane.alone coll) inv' label' n := by
  have hnode : execNode host coll n label inv =
      (fun after => .next after.released) <$>
        executeNode host (inv.lane.alone coll) inv label n := by
    cases n <;> first | rfl | cases h
  rw [hnode, executeNode_withEffect h inv inv' hlane hpending label label', Functor.map_map]

theorem lift_ok (a : α) : Eval.lift (.ok a) = pure a := rfl

variable (rest : List Node) (after : Nat) (isScoped : Bool) (frames : List Frame)

def execAfter (host : Host) (coll : Bool) (out : Outcome Invocation) : Eval Ending :=
  match out with
  | .next inv => execFrames host coll (.nodes rest after isScoped :: frames) inv
  | .returned inv => return inv.ending

theorem execFrames_cons (n : Node) (label : Nat) (inv : Invocation) :
    execFrames host coll (.nodes (n :: rest) label isScoped :: frames) inv = (do
      let out ← execNode host coll n label inv
      execAfter rest (label + labels n) isScoped frames host coll out) := by
  simp only [execFrames, execNodes, bind_assoc]
  congr 1
  funext out
  cases out with
  | next inv | returned inv => rfl

theorem execFrames_enter (body : List Node) (label : Nat) (inv : Invocation) :
    execFrames host coll (.nodes body label true :: .nodes rest after isScoped :: frames) inv = (do
      let out ← Outcome.map .leaveScope <$> execNodes host coll body label inv
      execAfter rest after isScoped frames host coll out) := by
  rw [execFrames, bind_map_left]
  congr 1
  funext out
  cases out with
  | next inv | returned inv => rfl

structure Invocation.Idle (inv : Invocation) : Prop where
  frames : inv.frames = []
  waiting : inv.waitingAtBarrier = false

theorem Invocation.Idle.recordBranch (h : inv.Idle) (guardsBarrier : Bool) (id : Nat)
    (taken : Bool) : (inv.recordBranch guardsBarrier id taken).Idle := by
  cases guardsBarrier with
  | true => exact ⟨h.frames, h.waiting⟩
  | false => exact h

theorem recordBranch_withFrames (inv : Invocation) (guardsBarrier : Bool) (id : Nat)
    (taken : Bool) :
    (inv.recordBranch guardsBarrier id taken).withFrames frames =
      if guardsBarrier = true then
        { inv.withFrames frames with
          uniformChecks := (inv.withFrames frames).uniformChecks ++ [(id, taken)] }
      else inv.withFrames frames := by
  cases guardsBarrier <;> rfl

theorem execRest_enter (h : inv.Idle) (body : List Node) (label : Nat) :
    execRest host coll
      ((inv.withFrames (.nodes rest after isScoped :: frames)).enter body label).released =
      (do
        let out ← Outcome.map .leaveScope <$> execNodes host coll body label inv.enterScope
        execAfter rest after isScoped frames host coll out) := by
  cases inv
  obtain ⟨rfl, rfl⟩ := h
  exact execFrames_enter rest after isScoped frames body label _

/-- A statement of the machine, and then the rest, is the statement executed by
recursion, and then the rest. -/
theorem execNode_rest {label : Nat} (h : inv.Idle) :
    (do let out ← execNode host coll n label inv
        execAfter rest after isScoped frames host coll out) =
      (do let inv ← executeNode host (inv.lane.alone coll)
            (inv.withFrames (.nodes rest after isScoped :: frames)) label n
          execRest host coll inv.released) := by
  by_cases hn : changesNoLocal n = true
  · rw [execNode_withEffect hn inv inv rfl rfl label label,
      executeNode_withEffect hn (inv.withFrames (.nodes rest after isScoped :: frames)) inv rfl rfl
        label label,
      bind_map_left, bind_map_left]
    cases inv
    obtain ⟨rfl, rfl⟩ := h
    rfl
  · cases n with
    | ifThen cond thenNodes otherwise =>
      simp only [execNode, executeNode, bind_assoc, ← recordBranch_withFrames]
      congr 1
      funext v
      have hidle := h.recordBranch (containsBarrier thenNodes || containsBarrier otherwise)
        (host.nodeId label) (v.truthy host.floats)
      cases hc : v.truthy host.floats with
      | true | false =>
        rw [hc] at hidle
        simp only [if_true, false_eq_true, if_false, execRest_enter _ _ _ _ hidle,
          bind_map_left, bind_assoc,
          pure_bind]
    | letBind | assign | loop =>
      cases inv
      obtain ⟨rfl, rfl⟩ := h
      simp only [execNode, executeNode, loopBounds, bind_assoc]
      rfl
    | ret =>
      rfl
    | block body =>
      exact (execRest_enter rest after isScoped frames h body label).symm
    | region _ _ body =>
      exact (execRest_enter rest after isScoped frames h body (label + 1)).symm
    | _ => exact absurd rfl hn

theorem execFrames_stepLoop (h : inv.Idle) (var : Ident) (next stop : UInt32) (body : List Node)
    (label : Nat) : execFrames host coll (.loop var next stop body label :: frames) inv = (do
      let inv ← Eval.lift (stepLoop inv var next stop body label frames)
      execRest host coll inv.released) := by
  obtain ⟨ids, index, locals, returned, waiting, checks, fs, pending⟩ := inv
  obtain ⟨rfl, rfl⟩ := h
  unfold stepLoop
  by_cases hend : stop ≤ next
  · have hleft : stop.toNat - next.toNat = 0 :=
      Nat.sub_eq_zero_of_le (UInt32.le_iff_toNat_le.mp hend)
    rw [if_pos hend, execFrames, hleft]
    rfl
  · have hlt : next.toNat < stop.toNat := by
      rw [UInt32.le_iff_toNat_le] at hend
      omega
    have hnext : (next + 1).toNat = next.toNat + 1 := by
      have := stop.toNat_lt
      exact Nat.mod_eq_of_lt (by simp; omega)
    have hleft : stop.toNat - next.toNat = stop.toNat - (next + 1).toNat + 1 := by omega
    rw [if_neg hend, execFrames, hleft]
    cases hbind : locals.pushScope.bindLoopVar var (.u32 next) with
    | error e =>
      simp only [execLoop, hbind]
      rfl
    | ok entered =>
      -- The body frame leaves the scope of the loop variable.
      simp only [execLoop, hbind, lift_ok, bind_assoc, pure_bind]
      show _ = execFrames host coll
        (.nodes body label true :: .loop var (next + 1) stop body label :: frames) _
      congr 1
      funext out
      cases out with
      | next inv | returned inv => rfl

theorem execRest_step (hwait : inv.waitingAtBarrier = false) :
    execRest host coll inv = (do
      let inv ← step host (inv.lane.alone coll) inv
      execRest host coll inv.released) := by
  have hidle : (inv.withFrames []).Idle := ⟨rfl, hwait⟩
  have hframes : ∀ frames, execFrames host coll frames (inv.withFrames []) = (do
      let inv ← stepFrames host (inv.lane.alone coll) inv frames
      execRest host coll inv.released) := by
    intro frames
    fun_induction stepFrames host (inv.lane.alone coll) inv frames with
    | case1 =>
      rfl
    | case2 label frames ih =>
      rw [← ih]
      rfl
    | case3 label frames =>
      cases inv
      cases hwait
      rfl
    | case4 n rest label isScoped frames =>
      rw [execFrames_cons, execNode_rest _ _ _ _ hidle]
      rfl
    | case5 var next stop body label frames =>
      rw [execFrames_stepLoop _ hidle]
      unfold stepLoop
      split_ifs <;> rfl
  exact hframes inv.frames

end Step

mutual

/-- More than the steps of a statement. -/
def nodeWeight : Node → Nat
  | .ifThen _ thenNodes otherwise => nodesWeight thenNodes + nodesWeight otherwise + 2
  | .loop _ _ _ body => 2 ^ 32 * (nodesWeight body + 2) + 2
  | .block body | .region _ _ body => nodesWeight body + 2
  | _ => 1

def nodesWeight : List Node → Nat
  | [] => 0
  | n :: ns => nodeWeight n + nodesWeight ns

end

def ControlFrame.weight : ControlFrame → Nat
  | .nodes rest _ _ => nodesWeight rest + 1
  | .loop _ left body _ => left * (nodesWeight body + 2) + 1

open ControlFrame

def framesWeight (frames : List ControlFrame) : Nat := (frames.map weight).sum

@[simp] theorem framesWeight_cons (frame : ControlFrame) (frames : List ControlFrame) :
    framesWeight (frame :: frames) = frame.weight + framesWeight frames := rfl

/-- A loop has fewer than `2 ^ 32` iterations. -/
def Decision.Bounded : Decision → Prop
  | .trips _ count => count < 2 ^ 32
  | .branch _ _ _ => True

theorem decision_bounded {host : Host} {snapshots : List Lane} {inv : Invocation} {memory : Memory}
    {d : Decision} (h : decision host snapshots inv memory = some d) : d.Bounded := by
  cases d with
  | branch label guardsBarrier taken => trivial
  | trips label count =>
    unfold decision nodeDecision at h
    repeat' split at h
    all_goals cases h
    rename_i next stop _ _ _
    have := stop.toNat_lt
    show stop.toNat - next.toNat < 2 ^ 32
    omega

theorem Control.afterNode_weight (k : Control) (label : Nat) (n : Node) {d : Option Decision}
    (hd : ∀ x, d = some x → x.Bounded) :
    framesWeight (k.afterNode label n d).frames < framesWeight k.frames + nodeWeight n := by
  cases n with
  | ifThen cond thenNodes otherwise =>
    rcases d with _ | ⟨_, _, _ | _⟩ | ⟨_, _⟩ <;>
    · simp only [afterNode, enter, framesWeight_cons, weight, nodeWeight]
      omega
  | loop var lo hi body =>
    rcases d with _ | ⟨_, _, _⟩ | ⟨_, count⟩
    case some.trips =>
      have hcount : count < 2 ^ 32 := hd _ rfl
      have := Nat.mul_le_mul_right (nodesWeight body + 2) (Nat.le_of_lt hcount)
      simp only [afterNode, framesWeight_cons, weight, nodeWeight]
      omega
    all_goals
      simp only [afterNode, nodeWeight]
      omega
  | ret => exact Nat.succ_pos _
  | _ =>
    simp only [afterNode, enter, framesWeight_cons, weight, nodeWeight]
    omega

variable {k : Control}

theorem Control.after_weight {d : Option Decision} (hd : ∀ x, d = some x → x.Bounded)
    (hlive : k.frames ≠ []) : framesWeight (k.after d).frames < framesWeight k.frames := by
  have hframes : ∀ frames, frames ≠ [] →
      framesWeight (k.afterFrames d frames).frames < framesWeight frames := by
    intro frames hne
    fun_induction afterFrames k d frames with
    | case1 => exact absurd rfl hne
    | case2 label frames ih =>
      rw [framesWeight_cons]
      cases frames with
      | nil => exact Nat.succ_pos 0
      | cons frame frames =>
        have := ih (List.cons_ne_nil _ _)
        omega
    | case3 label frames | case5 var body label frames =>
      simp only [framesWeight_cons, weight]
      omega
    | case4 n rest label isScoped frames =>
      have := afterNode_weight
        { k with frames := .nodes rest (label + labels n) isScoped :: frames } label n hd
      simp only [framesWeight_cons, weight, nodesWeight] at this ⊢
      omega
    | case6 var left body label frames =>
      simp only [framesWeight_cons, weight, Nat.succ_mul]
      omega
  exact hframes k.frames hlive

/-! ## Runs -/

def Control.Ended (k : Control) : Prop := k.returned = true → k.frames = []

theorem Control.afterNode_ended (h : k.returned = false) (label : Nat) (n : Node)
    (d : Option Decision) : (k.afterNode label n d).Ended := by
  have hlive : ∀ k' : Control, k'.returned = k.returned → k'.Ended :=
    fun k' h' hreturned => absurd (h.symm.trans (h'.symm.trans hreturned)) false_ne_true
  cases n with
  | ifThen | loop => rcases d with _ | ⟨_, _, _ | _⟩ | ⟨_, _⟩ <;> exact hlive _ rfl
  | ret => exact fun _ => rfl
  | _ => exact hlive _ rfl

theorem Control.after_ended (h : k.returned = false) (d : Option Decision) : (k.after d).Ended := by
  have hframes : ∀ frames, (k.afterFrames d frames).Ended := by
    intro frames
    fun_induction afterFrames k d frames with
    | case2 label frames ih => exact ih
    | case4 n rest label isScoped frames =>
      exact @afterNode_ended { k with frames := .nodes rest (label + labels n) isScoped :: frames }
        h label n d
    | _ => exact fun hreturned => absurd (h.symm.trans hreturned) false_ne_true
  exact hframes k.frames

structure Lone (c : Config) (inv : Invocation) : Prop where
  only : c.invocations = [inv]
  waiting : inv.frames ≠ [] → inv.waitingAtBarrier = false
  ended : inv.control.Ended

section Runs

variable {host : Host} {coll : Bool} {c c' : Config} {inv : Invocation}

theorem Control.Ended.done_iff (h : inv.control.Ended) : inv.done = true ↔ inv.frames = [] := by
  simp only [Invocation.done, or_eq_true, List.isEmpty_iff, or_iff_right_iff_imp]
  exact fun hreturned => List.map_eq_nil_iff.mp (h hreturned)

theorem Lone.finished_iff (h : Lone c inv) : c.finished = true ↔ inv.frames = [] := by
  rw [Config.finished, h.only, ← h.ended.done_iff]
  simp

theorem Lone.runnable (h : Lone c inv) (hlive : inv.frames ≠ []) : inv.runnable = true := by
  simpa [Invocation.runnable, h.waiting hlive] using h.ended.done_iff.not.mpr hlive

theorem Lone.stepAll_eq (h : Lone c inv) (hlive : inv.frames ≠ []) :
    stepAll host (c.snapshots coll) c.invocations = (do
      let inv ← step host (inv.lane.alone coll) inv
      return [inv]) := by
  rw [Config.snapshots, h.only, stepAll, List.mapM_cons, if_pos (h.runnable hlive)]
  rfl

/-- The invocation after a step, when the barrier it may have reached is
released. -/
def Invocation.afterRound (inv : Invocation) : Invocation := if inv.done then inv else inv.released

theorem verify_one (inv : Invocation) : verifyUniformControlFlow [inv] = .ok () ↔
    (inv.done = false → Consistent inv.uniformChecks) := by
  rw [verifyUniformControlFlow_iff]
  cases hdone : inv.done <;> simp [hdone, Consistent]

theorem release_one (inv : Invocation) :
    (releaseBarrierIfReady [inv]).getD [inv] = [inv.afterRound] := by
  cases hdone : inv.done with
  | true => simp [releaseBarrierIfReady, hdone, Invocation.afterRound]
  | false =>
    cases hwait : inv.waitingAtBarrier with
    | true =>
      simp [releaseBarrierIfReady, liveWaitingCount, hdone, hwait, Invocation.afterRound,
        Invocation.released]
    | false =>
      have hself : inv.released = inv := by rw [Invocation.released, ← hwait]
      simp [releaseBarrierIfReady, liveWaitingCount, hdone, hwait, Invocation.afterRound, hself]

/-- A round of one invocation: its step, the check when it goes on, and the
release of the barrier it may have reached. -/
theorem Lone.round_eq_ok (h : Lone c inv) (hlive : inv.frames ≠ []) :
    c.round host coll = .ok c' ↔ ∃ inv' memory, step host (inv.lane.alone coll) inv c.memory =
      .ok (inv', memory) ∧
      (inv'.done = false → Consistent inv'.uniformChecks) ∧ c' = ⟨memory, [inv'.afterRound]⟩ := by
  constructor
  · intro hround
    obtain ⟨invs, hall, hverify, hrelease⟩ := Config.round_verified hround
    rw [h.stepAll_eq hlive] at hall
    obtain ⟨inv', memory, hstep, hinvs⟩ := bind_eq_ok.mp hall
    obtain ⟨rfl, hmemory⟩ := Prod.mk.inj (pure_eq_ok.mp hinvs)
    rw [release_one] at hrelease
    refine ⟨inv', memory, hstep, (verify_one inv').mp hverify, ?_⟩
    rw [← hmemory, ← hrelease]
  · rintro ⟨inv', memory, hstep, hchecks, rfl⟩
    have hall : stepAll host (c.snapshots coll) c.invocations c.memory = .ok ([inv'], memory) := by
      rw [h.stepAll_eq hlive]
      exact bind_eq_ok.mpr ⟨inv', memory, hstep, rfl⟩
    have hany : c.invocations.any (·.runnable) = true := by
      rw [h.only]
      simp [h.runnable hlive]
    have hverify := (verify_one inv').mpr hchecks
    have hrelease := release_one inv'
    unfold Config.round
    rw [hall]
    simp only [hverify, bind, Except.bind]
    cases hr : releaseBarrierIfReady [inv'] with
    | some released =>
      rw [hr, Option.getD_some] at hrelease
      rw [hrelease]
      rfl
    | none =>
      rw [hr] at hrelease
      simp only [hany]
      rw [← hrelease]
      rfl

theorem execRest_of_ended {inv : Invocation} (h : inv.frames = []) :
    execRest host coll inv = return inv.ending := by
  rw [execRest, h]
  rfl

structure Advanced (host : Host) (coll : Bool) (inv stepped next : Invocation) : Prop where
  exec : execRest host coll next = execRest host coll stepped.released
  waiting : next.frames ≠ [] → next.waitingAtBarrier = false
  ended : next.control.Ended
  weight : framesWeight next.control.frames < framesWeight inv.control.frames
  same : next.uniformChecks = stepped.uniformChecks
  checks : inv.uniformChecks ⊆ stepped.uniformChecks
  /-- The last step records nothing. -/
  last : stepped.done = true → stepped.uniformChecks = inv.uniformChecks

variable {memory : Memory}

theorem Lone.advanced (h : Lone c inv) (hlive : inv.frames ≠ []) {inv' : Invocation}
    (hstep : step host (inv.lane.alone coll) inv c.memory = .ok (inv', memory)) :
    Advanced host coll inv inv' inv'.afterRound := by
  have hstepped := stepped_of_step (h.runnable hlive) hstep
  have hcontrol := hstepped.control
  rw [if_pos (h.runnable hlive)] at hcontrol
  have hreturned : inv.control.returned = false := by
    have := h.runnable hlive
    simp only [Invocation.runnable, Invocation.done, and_eq_true, not_eq_true',
      or_eq_false_iff] at this
    exact this.1.1
  have hended : inv'.control.Ended := hcontrol ▸ after_ended hreturned _
  have hweight : framesWeight inv'.control.frames < framesWeight inv.control.frames := by
    rw [hcontrol]
    refine after_weight (fun x hx => decision_bounded hx) ?_
    simpa [Invocation.control] using hlive
  have hchecks : inv.uniformChecks ⊆ inv'.uniformChecks := by
    rw [hstepped.checks]
    exact List.subset_append_left _ _
  cases hdone : inv'.done with
  | true =>
    have hround : inv'.afterRound = inv' := if_pos hdone
    have hframes := hended.done_iff.mp hdone
    rw [hround]
    refine ⟨?_, fun hne => absurd hframes hne, hended, hweight, rfl, hchecks, fun _ => ?_⟩
    · rw [execRest_of_ended hframes,
        execRest_of_ended (show inv'.released.frames = [] from hframes)]
      rfl
    · -- A step that decides leaves the invocation live.
      cases hd : decision host (inv.lane.alone coll) inv c.memory with
      | none =>
        rw [hstepped.checks, hd]
        simp [barrierBranches]
      | some d =>
        have := hstepped.live (by rw [hd]; rfl)
        rw [hdone] at this
        cases this
  | false =>
    have hround : inv'.afterRound = inv'.released := if_neg (by simp [hdone])
    rw [hround]
    refine ⟨rfl, fun _ => rfl, hended, hweight, rfl, hchecks, fun htrue => ?_⟩
    rw [hdone] at htrue
    cases htrue

theorem Lone.exec_of_rounds (h : Lone c inv) (hchecks : Consistent inv.uniformChecks) {k : Nat}
    (hrounds : rounds host coll k c = .ok c') (hfinished : c'.finished = true) :
    ∃ inv', c'.invocations = [inv'] ∧ execRest host coll inv c.memory =
      .ok (inv'.ending, c'.memory) ∧
      Consistent inv'.uniformChecks := by
  induction k generalizing c inv with
  | zero =>
    cases hrounds
    exact ⟨inv, h.only, by rw [execRest_of_ended (h.finished_iff.mp hfinished)]; rfl, hchecks⟩
  | succ k ih =>
    by_cases hframes : inv.frames = []
    · rw [rounds, if_pos (h.finished_iff.mpr hframes)] at hrounds
      cases hrounds
      exact ⟨inv, h.only, by rw [execRest_of_ended hframes]; rfl, hchecks⟩
    · have hnot := h.finished_iff.not.mpr hframes
      rw [rounds, if_neg hnot] at hrounds
      obtain ⟨c₁, hround, hrest⟩ := ByteCodec.bind_eq_ok.mp hrounds
      obtain ⟨inv', memory, hstep, hverified, rfl⟩ := (h.round_eq_ok hframes).mp hround
      have hadvanced := h.advanced hframes hstep
      have hconsistent : Consistent inv'.afterRound.uniformChecks := by
        rw [hadvanced.same]
        by_cases hdone : inv'.done = true
        · rw [hadvanced.last hdone]
          exact hchecks
        · exact hverified (by simpa using hdone)
      obtain ⟨last, honly, hexec, hlast⟩ :=
        ih ⟨rfl, hadvanced.waiting, hadvanced.ended⟩ hconsistent hrest
      refine ⟨last, honly, ?_, hlast⟩
      rw [execRest_step (h.waiting hframes)]
      refine bind_eq_ok.mpr ⟨inv', memory, hstep, ?_⟩
      rw [← hadvanced.exec]
      exact hexec

/-- What the recursion computes, the machine computes: it ends. The recorded
branches are among those at the end. -/
theorem Lone.rounds_of_exec (h : Lone c inv) {e : Ending}
    (hexec : execRest host coll inv c.memory = .ok (e, memory)) (hchecks : Consistent e.1) :
    inv.uniformChecks ⊆ e.1 ∧ ∃ k c' inv', rounds host coll k c = .ok c' ∧ c'.finished = true ∧
      c'.memory = memory ∧ c'.invocations = [inv'] ∧ inv'.ending = e := by
  induction hw : framesWeight inv.control.frames using Nat.strong_induction_on
    generalizing c inv with
  | _ w ih =>
    by_cases hframes : inv.frames = []
    · rw [execRest_of_ended hframes] at hexec
      obtain ⟨rfl, rfl⟩ := Prod.mk.inj (pure_eq_ok.mp hexec)
      exact ⟨List.Subset.refl _, 0, c, inv, rfl, h.finished_iff.mpr hframes, rfl, h.only, rfl⟩
    · rw [execRest_step (h.waiting hframes)] at hexec
      obtain ⟨inv', memory₁, hstep, hrest⟩ := bind_eq_ok.mp hexec
      have hadvanced := h.advanced hframes hstep
      rw [← hadvanced.exec] at hrest
      obtain ⟨hsub, k, c', last, hrounds, hend⟩ :=
        @ih _ (hw ▸ hadvanced.weight) ⟨memory₁, [inv'.afterRound]⟩ inv'.afterRound
          ⟨rfl, hadvanced.waiting, hadvanced.ended⟩ hrest rfl
      rw [hadvanced.same] at hsub
      refine ⟨List.Subset.trans hadvanced.checks hsub, k + 1, c', last, ?_, hend⟩
      have hnot := h.finished_iff.not.mpr hframes
      rw [rounds, if_neg hnot, (h.round_eq_ok hframes).mpr ⟨inv', memory₁, hstep,
        fun _ => hchecks.of_subset hsub, rfl⟩]
      exact hrounds

end Runs

/-- The run of a lone invocation ends without an error and leaves `memory'`. -/
def RunsAlone (host : Host) (debugIds : InvocationIds → String) (entry : List Node)
    (ids : InvocationIds) (index : UInt32) (memory memory' : Memory) : Prop :=
  ∃ k c, rounds host (usesSubgroupOps entry) k ⟨memory, [Invocation.new ids index entry]⟩ = .ok c ∧
    c.finished = true ∧ c.pendingCheck debugIds = .ok () ∧ c.memory = memory'

def Invocation.start (ids : InvocationIds) (index : UInt32) : Invocation :=
  (Invocation.new ids index []).withFrames []

theorem pendingCheck_one {debugIds : InvocationIds → String} {c : Config} {inv : Invocation}
    (h : c.invocations = [inv]) : c.pendingCheck debugIds = .ok () ↔ inv.pendingAsync = [] := by
  rw [Config.pendingCheck, h]
  cases hpending : inv.pendingAsync with
  | nil => simp [hpending]
  | cons entry rest =>
    simp [hpending]

theorem execRest_new (host : Host) (coll : Bool) (ids : InvocationIds) (index : UInt32)
    (entry : List Node) : execRest host coll (Invocation.new ids index entry) = (do
      let out ← execNodes host coll entry 0 (Invocation.start ids index)
      return out.state.ending) := by
  show execFrames host coll [.nodes entry 0 false] (Invocation.start ids index) = _
  rw [execFrames]
  congr 1
  funext out
  cases out with
  | next inv | returned inv => rfl

/-! ## Programs without collectives

Nothing depends on the lanes a collective would see. -/

section Lanes

variable {host : Host} (seen seen' : List Lane)

theorem encodeInputs_lanes {args : List Expr}
    (h : ∀ e ∈ args, ∀ lane, evalExpr host seen e lane = evalExpr host seen' e lane) (opId : Ident)
    (params : List String) (input : List UInt8) (lane : Lane) :
    encodeInputs host seen opId args params input lane =
      encodeInputs host seen' opId args params input lane := by
  induction args generalizing params input with
  | nil => rfl
  | cons arg args ih =>
    cases params with
    | nil => rfl
    | cons param params =>
      simp only [encodeInputs, h arg (by simp), ih fun e he => h e (by simp [he])]

theorem evalExpr_lanes {e : Expr} (he : e.Forall fun e => ∀ a ∈ subgroupMarks e, False)
    (lane : Lane) :
    evalExpr host seen e lane = evalExpr host seen' e lane := by
  induction e generalizing lane with
  | call opId args ih =>
    have hargs : ∀ e ∈ args, ∀ lane, evalExpr host seen e lane = evalExpr host seen' e lane :=
      fun e hmem => ih e hmem (Expr.forallArgs_iff.mp he.2 e hmem)
    simp only [evalExpr, encodeInputs_lanes seen seen' hargs]
  | atomic _ _ _ expected _ _ ihi ihe ihv =>
    have hexpected :
        evalExpected host seen expected lane = evalExpected host seen' expected lane := by
      cases expected with
      | none => rfl
      | some x => simp only [evalExpected, ihe x rfl (Expr.forallExpected_iff.mp he.2.2.1 x rfl)]
    simp only [evalExpr, ihi he.2.1, hexpected, ihv he.2.2.2]
  | load buffer index ih | unOp op index ih | cast target index ih => simp only [evalExpr, ih he.2]
  | binOp op left right ihl ihr => simp only [evalExpr, ihl he.2.1, ihr he.2.2]
  | select a b c iha ihb ihc | fma a b c iha ihb ihc =>
    simp only [evalExpr, iha he.2.1, ihb he.2.2.1, ihc he.2.2.2]
  | subgroupBallot | subgroupShuffle | subgroupAdd => exact (he.1 () (by simp [subgroupMarks])).elim
  | _ => rfl

variable {Q : Node → Prop}

theorem executeNode_lanes {n : Node} (hn : n.Forall (fun e => ∀ a ∈ subgroupMarks e, False) Q)
    (inv : Invocation) (label : Nat) :
    executeNode host seen inv label n = executeNode host seen' inv label n := by
  cases n with
  | letBind | assign | trap => simp only [executeNode, evalExpr_lanes seen seen' hn.2]
  | store | asyncLoad | asyncStore =>
    simp only [executeNode, evalExpr_lanes seen seen' hn.2.1, evalExpr_lanes seen seen' hn.2.2]
  | ifThen => simp only [executeNode, evalExpr_lanes seen seen' hn.2.1]
  | loop =>
    simp only [executeNode, evalExpr_lanes seen seen' hn.2.1, evalExpr_lanes seen seen' hn.2.2.1]
  | _ => rfl

theorem execNodes_lanes {ns : List Node}
    (h : ∀ n ∈ ns, ∀ label inv, execNode host false n label inv = execNode host true n label inv)
    (label : Nat) (inv : Invocation) :
    execNodes host false ns label inv = execNodes host true ns label inv := by
  induction ns generalizing label inv with
  | nil => rfl
  | cons n ns ih =>
    have hrest := funext (ih (fun n hn => h n (by simp [hn])) (label + labels n))
    rw [execNodes, execNodes, h n (by simp), hrest]

theorem execNode_lanes {n : Node} (hn : n.Forall (fun e => ∀ a ∈ subgroupMarks e, False) Q)
    (label : Nat) (inv : Invocation) :
    execNode host false n label inv = execNode host true n label inv := by
  have hbody : ∀ {ns : List Node}, (∀ n ∈ ns, n.Forall (fun e => ∀ a ∈ subgroupMarks e, False) Q →
      ∀ label inv, execNode host false n label inv = execNode host true n label inv) →
      Node.ForallList (fun e => ∀ a ∈ subgroupMarks e, False) Q ns → ∀ label inv,
      execNodes host false ns label inv = execNodes host true ns label inv :=
    fun ih hns => execNodes_lanes fun n hmem => ih n hmem (Node.forallList_iff.mp hns n hmem)
  induction n generalizing label inv with
  | ifThen cond thenNodes otherwise ihThen ihElse =>
    simp only [execNode, evalExpr_lanes (inv.lane.alone false) (inv.lane.alone true) hn.2.1,
      hbody ihThen hn.2.2.1, hbody ihElse hn.2.2.2]
  | loop var lo hi body ih =>
    simp only [execNode, loopBounds,
      evalExpr_lanes (inv.lane.alone false) (inv.lane.alone true) hn.2.1,
      evalExpr_lanes (inv.lane.alone false) (inv.lane.alone true) hn.2.2.1,
      funext (hbody ih hn.2.2.2 (label + 1))]
  | block body ih | region _ _ body ih =>
    simp only [execNode, hbody ih hn.2]
  | ret => rfl
  | _ => simp only [execNode, executeNode_lanes (inv.lane.alone false) (inv.lane.alone true) hn]

end Lanes

/-- What a lone invocation runs is what it runs with its own lane in sight. -/
theorem execNodes_usesSubgroupOps (host : Host) (entry : List Node) (inv : Invocation) :
    execNodes host (usesSubgroupOps entry) entry 0 inv = execNodes host true entry 0 inv := by
  cases huses : usesSubgroupOps entry with
  | true => rfl
  | false =>
    have hnone : ∀ a ∈ Node.collectList subgroupMarks (fun _ => []) entry, False := by
      have hempty : Node.collectList subgroupMarks (fun _ => []) entry = [] := by
        simpa [usesSubgroupOps] using huses
      rw [hempty]
      exact fun a ha => by cases ha
    have hall := (Node.forallList_iff_collect fun n _ => Node.forall_iff_collect).mpr hnone
    exact execNodes_lanes (fun n hn => execNode_lanes (Node.forallList_iff.mp hall n hn)) 0 inv

/-- A lone invocation ends without an error exactly when the recursion does,
takes no recorded branch to both sides and leaves no transfer pending. -/
theorem runsAlone_iff (host : Host) (debugIds : InvocationIds → String) (entry : List Node)
    (ids : InvocationIds) (index : UInt32) (memory memory' : Memory) :
    RunsAlone host debugIds entry ids index memory memory' ↔
      ∃ out, execNodes host true entry 0 (Invocation.start ids index) memory = .ok (out, memory') ∧
        Consistent out.state.uniformChecks ∧ out.state.pendingAsync = [] := by
  have hlone : Lone ⟨memory, [Invocation.new ids index entry]⟩ (Invocation.new ids index entry) :=
    ⟨rfl, fun _ => rfl, fun hreturned => absurd hreturned false_ne_true⟩
  rw [← execNodes_usesSubgroupOps]
  constructor
  · rintro ⟨k, c, hrounds, hfinished, hpending, rfl⟩
    obtain ⟨last, honly, hexec, hchecks⟩ :=
      hlone.exec_of_rounds (fun x hx => absurd hx List.not_mem_nil) hrounds hfinished
    rw [execRest_new] at hexec
    obtain ⟨out, memory₁, hout, hreturn⟩ := bind_eq_ok.mp hexec
    obtain ⟨hending, rfl⟩ := Prod.mk.inj (pure_eq_ok.mp hreturn)
    obtain ⟨hsame, hpend⟩ := Prod.mk.inj hending
    refine ⟨out, hout, hsame ▸ hchecks, ?_⟩
    rw [← hpend]
    exact (pendingCheck_one honly).mp hpending
  · rintro ⟨out, hout, hchecks, hpending⟩
    have hexec : execRest host (usesSubgroupOps entry) (Invocation.new ids index entry) memory =
        .ok (out.state.ending, memory') := by
      rw [execRest_new]
      exact bind_eq_ok.mpr ⟨out, memory', hout, rfl⟩
    obtain ⟨-, k, c, last, hrounds, hfinished, hmemory, honly, hending⟩ :=
      hlone.rounds_of_exec hexec hchecks
    refine ⟨k, c, hrounds, hfinished, (pendingCheck_one honly).mpr ?_, hmemory⟩
    rw [← hpending]
    exact congrArg Prod.snd hending

end Vyre.Reference
