import Mathlib.Data.List.Forall2
import Vyre.Reference.Machine

/-!
# Uniform control and the dynamic check

`verify_uniform_control_flow` compares the branches that live invocations have
recorded over the whole run. Here the control decisions of a run are made
explicit, and with them the runs on which all invocations decide alike. The
control part of a step is a function of the control part of the invocation and
of its decision, so such invocations stay in step; what the check then reports
is a branch that was taken both ways at different times.
-/

namespace Vyre.Reference

open Eval StateExcept List Invocation

inductive Decision where
  /-- The side of a branch, and whether a barrier depends on it. -/
  | branch (label : Nat) (guardsBarrier taken : Bool)
  /-- The number of iterations of a loop that is entered. -/
  | trips (label count : Nat)
  deriving DecidableEq

section Decisions

variable (host : Host) (snapshots : List Lane)

def loopBounds (lane : Lane) (lo hi : Expr) : Eval (UInt32 × UInt32) := do
  let next ← toLoopBound host.floats "lower" (← evalExpr host snapshots lo lane)
  let stop ← toLoopBound host.floats "upper" (← evalExpr host snapshots hi lane)
  return (next, stop)

def nodeDecision (lane : Lane) (label : Nat) (memory : Memory) : Node → Option Decision
  | .ifThen cond thenNodes otherwise =>
      match evalExpr host snapshots cond lane memory with
      | .ok (v, _) => some (.branch label (containsBarrier thenNodes || containsBarrier otherwise)
          (v.truthy host.floats))
      | .error _ => none
  | .loop _ lo hi _ =>
      match loopBounds host snapshots lane lo hi memory with
      | .ok ((next, stop), _) => some (.trips label (stop.toNat - next.toNat))
      | .error _ => none
  | _ => none

def nextStatement : List Frame → Option (Nat × Node)
  | [] => none
  | .nodes [] _ false :: frames => nextStatement frames
  | .nodes [] _ true :: _ => none
  | .nodes (n :: _) label _ :: _ => some (label, n)
  | .loop _ _ _ _ _ :: _ => none

def decision (inv : Invocation) (memory : Memory) : Option Decision :=
  match nextStatement inv.frames with
  | some (label, n) => nodeDecision host snapshots inv.lane label memory n
  | none => none

/-- The decisions of one round, invocation by invocation, up to a failure. -/
def roundDecisions : List Invocation → Memory → List (Option Decision)
  | [], _ => []
  | inv :: invs, memory =>
      if inv.runnable then
        decision host snapshots inv memory ::
          match step host snapshots inv memory with
          | .ok (_, memory) => roundDecisions invs memory
          | .error _ => []
      else none :: roundDecisions invs memory

end Decisions

def barrierBranches (host : Host) (history : List Decision) : List (Nat × Bool) :=
  history.flatMap fun
    | .branch label true taken => [(host.nodeId label, taken)]
    | _ => []

inductive ControlFrame where
  | nodes (rest : List Node) (label : Nat) (isScoped : Bool)
  | loop (var : Ident) (left : Nat) (body : List Node) (label : Nat)

def Frame.control : Frame → ControlFrame
  | .nodes rest label isScoped => .nodes rest label isScoped
  | .loop var next stop body label => .loop var (stop.toNat - next.toNat) body label

/-- What decides which statement an invocation executes next. -/
structure Control where
  frames : List ControlFrame
  returned : Bool
  waiting : Bool

def Invocation.control (inv : Invocation) : Control :=
  ⟨inv.frames.map Frame.control, inv.returned, inv.waitingAtBarrier⟩

namespace Control

def enter (k : Control) (body : List Node) (label : Nat) : Control :=
  { k with frames := .nodes body label true :: k.frames }

def afterNode (k : Control) (label : Nat) : Node → Option Decision → Control
  | .ifThen _ thenNodes _, some (.branch _ _ true) => k.enter thenNodes (label + 1)
  | .ifThen _ thenNodes otherwise, some (.branch _ _ false) =>
      k.enter otherwise (label + 1 + labelsList thenNodes)
  | .loop var _ _ body, some (.trips _ count) =>
      { k with frames := .loop var count body (label + 1) :: k.frames }
  | .ret, _ => { k with frames := [], returned := true }
  | .block body, _ => k.enter body label
  | .region _ _ body, _ => k.enter body (label + 1)
  | .barrier _, _ => { k with waiting := true }
  | _, _ => k

def afterFrames (k : Control) (d : Option Decision) : List ControlFrame → Control
  | [] => { k with frames := [] }
  | .nodes [] _ false :: frames => afterFrames k d frames
  | .nodes [] _ true :: frames => { k with frames }
  | .nodes (n :: rest) label isScoped :: frames =>
      afterNode { k with frames := .nodes rest (label + labels n) isScoped :: frames } label n d
  | .loop _ 0 _ _ :: frames => { k with frames }
  | .loop var (left + 1) body label :: frames =>
      { k with frames := .nodes body label true :: .loop var left body label :: frames }

def after (k : Control) (d : Option Decision) : Control := k.afterFrames d k.frames

def done (k : Control) : Bool := k.returned || k.frames.isEmpty

end Control

def decides : Node → Bool
  | .ifThen _ _ _ | .loop _ _ _ _ => true
  | _ => false

def Control.decidesFrames : List ControlFrame → Bool
  | .nodes [] _ false :: frames => decidesFrames frames
  | .nodes (n :: _) _ _ :: _ => decides n
  | _ => false

def Control.decides (k : Control) : Bool := decidesFrames k.frames

/-! ## The control part of a step -/

section Step

variable {host : Host} {snapshots : List Lane}

variable {inv inv' : Invocation} {memory memory' : Memory} {label : Nat}

/-- The statements that change no local and do not move control. -/
def changesNoLocal : Node → Bool
  | .letBind _ _ | .assign _ _ | .ifThen _ _ _ | .loop _ _ _ _ | .ret | .block _ | .region _ _ _ =>
      false
  | _ => true

def Invocation.withEffect (inv : Invocation) (n : Node) (after : Invocation) : Invocation :=
  { inv with
    pendingAsync := after.pendingAsync
    waitingAtBarrier := match n with
      | .barrier _ => true
      | _ => inv.waitingAtBarrier }

theorem executeNode_withEffect {n : Node} (h : changesNoLocal n = true) (inv inv' : Invocation)
    (hlane : inv'.lane = inv.lane) (hpending : inv'.pendingAsync = inv.pendingAsync)
    (label label' : Nat) :
    executeNode host snapshots inv label n =
      inv.withEffect n <$> executeNode host snapshots inv' label' n := by
  cases n with
  | letBind | assign | ifThen | loop | ret | block | region => cases h
  | store | barrier => simp only [executeNode, hlane, map_bind, map_pure, withEffect, hpending]
  | asyncLoad _ _ _ _ tag | asyncStore _ _ _ _ tag =>
    have hbegin : ∀ transfer, Eval.lift (inv.beginAsync tag transfer) =
        (fun after => { inv with pendingAsync := after.pendingAsync }) <$>
          Eval.lift (inv'.beginAsync tag transfer) := by
      intro transfer
      unfold beginAsync
      rw [hpending]
      split <;> rfl
    simp only [executeNode, hlane, map_bind, hbegin]
    rfl
  | asyncWait tag =>
    simp only [executeNode, finishAsync, hpending, map_bind]
    cases inv.pendingAsync.find? (·.1 == tag) with
    | some entry | none => rfl
  | trap address tag =>
    simp only [executeNode, hlane, map_bind]
    rfl
  | indirectDispatch buffer offset =>
    simp only [executeNode]
    split <;> rfl
  | _ => rfl

def isPlain : Node → Bool
  | .ifThen _ _ _ | .loop _ _ _ _ | .ret | .block _ | .region _ _ _ | .barrier _ => false
  | _ => true

theorem executeNode_plain {n : Node} (hplain : isPlain n = true)
    (h : executeNode host snapshots inv label n memory = .ok (inv', memory')) :
    inv'.control = inv.control ∧ inv'.uniformChecks = inv.uniformChecks := by
  cases n with
  | letBind name value | assign name value =>
    simp only [executeNode, bind_eq_ok] at h
    obtain ⟨_, _, -, _, _, -, h⟩ := h
    cases h
    exact ⟨rfl, rfl⟩
  | ifThen | loop | ret | block | region | barrier => cases hplain
  | _ =>
    rw [executeNode_withEffect rfl inv inv rfl rfl label label] at h
    obtain ⟨_, _, -, heq⟩ := map_eq_ok.mp h
    cases heq
    exact ⟨rfl, rfl⟩

theorem executeNode_control {n : Node}
    (h : executeNode host snapshots inv label n memory = .ok (inv', memory')) :
    ∃ d, nodeDecision host snapshots inv.lane label memory n = d ∧ d.isSome = decides n ∧
      inv'.control = inv.control.afterNode label n d ∧
      inv'.uniformChecks = inv.uniformChecks ++ barrierBranches host d.toList := by
  cases n with
  | ifThen cond thenNodes otherwise =>
    simp only [executeNode, bind_eq_ok] at h
    obtain ⟨v, m, hv, h⟩ := h
    refine ⟨_, rfl, ?_⟩
    simp only [nodeDecision, hv]
    cases hc : v.truthy host.floats <;>
      cases hb : containsBarrier thenNodes || containsBarrier otherwise <;>
      · simp only [hc, hb] at h
        cases h
        exact ⟨rfl, rfl, by simp [barrierBranches, enter]⟩
  | loop var lo hi body =>
    simp only [executeNode, bind_eq_ok] at h
    obtain ⟨v, m₁, hlo, next, m₂, hnext, w, m₃, hhi, stop, m₄, hstop, h⟩ := h
    have hbounds : loopBounds host snapshots inv.lane lo hi memory = .ok ((next, stop), m₄) := by
      simp only [loopBounds, bind_eq_ok]
      exact ⟨v, m₁, hlo, next, m₂, hnext, w, m₃, hhi, stop, m₄, hstop, rfl⟩
    refine ⟨_, rfl, ?_⟩
    simp only [nodeDecision, hbounds]
    cases h
    exact ⟨rfl, rfl, by simp [barrierBranches]⟩
  | ret | barrier ordering =>
    cases h
    exact ⟨none, rfl, rfl, rfl, by simp [barrierBranches]⟩
  | block body | region _ _ body =>
    cases h
    exact ⟨none, rfl, rfl, rfl, by simp [barrierBranches, enter]⟩
  | _ =>
    obtain ⟨hcontrol, hchecks⟩ := executeNode_plain rfl h
    exact ⟨none, rfl, rfl, hcontrol, by simp [barrierBranches, hchecks]⟩

theorem stepLoop_control {var : Ident} {next stop : UInt32} {body : List Node} {frames : List Frame}
    (h : stepLoop inv var next stop body label frames = .ok inv') :
    inv'.control = inv.control.afterFrames none
        (Frame.control (.loop var next stop body label) :: frames.map Frame.control) ∧
      inv'.uniformChecks = inv.uniformChecks := by
  unfold stepLoop at h
  split_ifs at h with hle
  · cases h
    have hleft : stop.toNat - next.toNat = 0 :=
      Nat.sub_eq_zero_of_le (UInt32.le_iff_toNat_le.mp hle)
    simp [Frame.control, hleft, Control.afterFrames, Invocation.control]
  · obtain ⟨locals, -, h⟩ := ByteCodec.bind_eq_ok.mp h
    cases h
    have hlt : next.toNat < stop.toNat := UInt32.lt_iff_toNat_lt.mp (UInt32.not_le.mp hle)
    have hstop := stop.toNat_lt
    have hnext : (next + 1).toNat = next.toNat + 1 := by
      exact Nat.mod_eq_of_lt (by simp; omega)
    obtain ⟨left, hleft⟩ : ∃ left, stop.toNat - next.toNat = left + 1 :=
      ⟨stop.toNat - next.toNat - 1, by omega⟩
    have hrest : stop.toNat - (next + 1).toNat = left := by omega
    refine ⟨?_, rfl⟩
    simp only [Invocation.control, Frame.control, Control.afterFrames, map_cons, hleft, hrest]

theorem stepFrames_control {frames : List Frame}
    (h : stepFrames host snapshots inv frames memory = .ok (inv', memory')) :
    ∃ d, decision host snapshots { inv with frames } memory = d ∧
      d.isSome = Control.decidesFrames (frames.map Frame.control) ∧
      inv'.control = inv.control.afterFrames d (frames.map Frame.control) ∧
      inv'.uniformChecks = inv.uniformChecks ++ barrierBranches host d.toList := by
  fun_induction stepFrames host snapshots inv frames with
  | case1 | case3 frames label =>
    cases h
    exact ⟨none, rfl, rfl, rfl, by simp [barrierBranches]⟩
  | case2 frames label ih => exact ih h
  | case4 n rest label isScoped frames =>
    exact executeNode_control h
  | case5 var next stop body label frames =>
    obtain ⟨hcontrol, hchecks⟩ := stepLoop_control (lift_eq_ok.mp h).1
    exact ⟨none, rfl, rfl, hcontrol, by simp [barrierBranches, hchecks]⟩

/-- The control part of a step is a function of the control part of the
invocation and of its decision. -/
theorem step_control (h : step host snapshots inv memory = .ok (inv', memory')) :
    ∃ d, decision host snapshots inv memory = d ∧ d.isSome = inv.control.decides ∧
      inv'.control = inv.control.after d ∧
      inv'.uniformChecks = inv.uniformChecks ++ barrierBranches host d.toList :=
  stepFrames_control h

end Step

structure Stepped (host : Host) (inv : Invocation) (d : Option Decision) (inv' : Invocation) :
    Prop where
  decided : d.isSome = (inv.runnable && inv.control.decides)
  control : inv'.control = if inv.runnable then inv.control.after d else inv.control
  checks : inv'.uniformChecks = inv.uniformChecks ++ barrierBranches host d.toList

def extend (histories : List (List Decision)) (ds : List (Option Decision)) :
    List (List Decision) :=
  zipWith (fun h d => h ++ d.toList) histories ds

section Rounds

variable {host : Host} {snapshots : List Lane}

theorem stepped_of_step {inv inv' : Invocation} {memory memory' : Memory}
    (hrun : inv.runnable = true) (h : step host snapshots inv memory = .ok (inv', memory')) :
    Stepped host inv (decision host snapshots inv memory) inv' := by
  obtain ⟨d, rfl, hsome, hcontrol, hchecks⟩ := step_control h
  exact ⟨by simp [hrun, hsome], by simp [hrun, hcontrol], hchecks⟩

theorem stepped_of_idle {inv : Invocation} (hidle : inv.runnable = false) :
    Stepped host inv none inv :=
  ⟨by simp [hidle], by simp [hidle], by simp [barrierBranches]⟩

theorem stepAll_forall {R R' : Invocation → List Decision → Prop}
    (hstep : ∀ inv h d inv', R inv h → Stepped host inv d inv' → R' inv' (h ++ d.toList))
    {invs invs' : List Invocation} {histories : List (List Decision)} {memory memory' : Memory}
    (hR : List.Forall₂ R invs histories)
    (h : stepAll host snapshots invs memory = .ok (invs', memory')) :
    List.Forall₂ R' invs' (extend histories (roundDecisions host snapshots invs memory)) := by
  induction hR generalizing invs' memory memory' with
  | nil =>
    cases h
    exact .nil
  | @cons inv history invs histories hinv _ ih =>
    rw [stepAll, mapM_cons] at h
    simp only [bind_eq_ok] at h
    obtain ⟨inv₁, m₁, hone, rest, m₂, hrest, heq⟩ := h
    cases heq
    split_ifs at hone with hrun
    · rw [roundDecisions, if_pos hrun, hone]
      exact .cons (hstep _ _ _ _ hinv (stepped_of_step hrun hone)) (ih hrest)
    · cases hone
      rw [roundDecisions, if_neg hrun]
      have hidle : inv.runnable = false := by simpa using hrun
      exact .cons (hstep _ _ _ _ hinv (stepped_of_idle hidle)) (ih hrest)

end Rounds

def Config.decided (host : Host) (usesSubgroupOps : Bool) (c : Config)
    (histories : List (List Decision)) : List (List Decision) :=
  extend histories (roundDecisions host (c.snapshots usesSubgroupOps) c.invocations c.memory)

/-- The states of a run, with what every invocation has decided so far. -/
inductive Traced (host : Host) (usesSubgroupOps : Bool) (start : Config) :
    Config → List (List Decision) → Prop
  | start : Traced host usesSubgroupOps start start (start.invocations.map fun _ => [])
  | round {c c' : Config} {histories : List (List Decision)} :
      Traced host usesSubgroupOps start c histories → c.finished = false →
      c.round host usesSubgroupOps = .ok c' →
      Traced host usesSubgroupOps start c' (c.decided host usesSubgroupOps histories)

/-- The `k`-th decisions of any two invocations are the same, for every `k` that
both have come to. -/
def Agree (histories : List (List Decision)) : Prop :=
  ∀ h ∈ histories, ∀ h' ∈ histories, ∀ pair ∈ h.zip h', pair.1 = pair.2

/-- A branch around a barrier is taken to the same side every time. -/
def Steady (host : Host) (history : List Decision) : Prop :=
  ∀ x ∈ barrierBranches host history, ∀ y ∈ barrierBranches host history,
    x.1 = y.1 → x.2 = y.2

section Runs

variable (host : Host) (usesSubgroupOps : Bool) (start : Config)

/-- All invocations take the same branch at every execution of an `If`, and run
every loop the same number of times. -/
def UniformRun : Prop :=
  ∀ c histories, Traced host usesSubgroupOps start c histories → c.finished = false →
    Agree (c.decided host usesSubgroupOps histories)

/-- No invocation takes a branch around a barrier to both sides, as long as no
statement fails. -/
def SteadyRun : Prop :=
  ∀ c histories, Traced host usesSubgroupOps start c histories → c.finished = false →
    ∀ r, stepAll host (c.snapshots usesSubgroupOps) c.invocations c.memory = .ok r →
      ∀ h ∈ c.decided host usesSubgroupOps histories, Steady host h

/-- A round fails only if one of its steps does: neither check of
`run_invocations` reports non-uniform control flow. -/
def NeverReports : Prop :=
  ∀ c, Reachable host usesSubgroupOps start c → c.finished = false →
    ∀ r, stepAll host (c.snapshots usesSubgroupOps) c.invocations c.memory = .ok r →
      ∃ c', c.round host usesSubgroupOps = .ok c'

end Runs

def Consistent (checks : List (Nat × Bool)) : Prop :=
  ∀ x ∈ checks, ∀ y ∈ checks, x.1 = y.1 → x.2 = y.2

theorem Consistent.of_subset {checks checks' : List (Nat × Bool)} (h : Consistent checks)
    (hsub : checks' ⊆ checks) : Consistent checks' :=
  fun x hx y hy => h x (hsub hx) y (hsub hy)

theorem verifyChecks_iff {observed : List (Nat × Bool)} (hobserved : Consistent observed)
    (checks : List (Nat × Bool)) :
    verifyChecks observed checks = .ok () ↔ Consistent (observed ++ checks) := by
  induction checks generalizing observed with
  | nil => simpa [verifyChecks] using hobserved
  | cons check checks ih =>
    obtain ⟨id, value⟩ := check
    rw [verifyChecks]
    cases hfind : observed.find? (·.1 == id) with
    | some previous =>
      have hmem : previous ∈ observed := mem_of_find?_eq_some hfind
      have hid : previous.1 = id := by simpa using find?_some hfind
      by_cases hvalue : previous.2 = value
      · -- the entry is already among the observed ones
        have hsame : ∀ x, x ∈ observed ++ (id, value) :: checks ↔ x ∈ observed ++ checks := by
          grind
        simp only [hvalue, if_true, ih hobserved, Consistent, hsame]
      · simp only [hvalue, if_false, reduceCtorEq, false_iff]
        intro h
        exact hvalue (h previous (by simp [hmem]) (id, value) (by simp) hid)
    | none =>
      have hcons : Consistent (observed ++ [(id, value)]) := by
        intro x hx y hy hxy
        have hold := hobserved x
        grind
      rw [ih hcons, append_assoc]
      rfl

theorem verifyUniformControlFlow_iff (invs : List Invocation) :
    verifyUniformControlFlow invs = .ok () ↔
      Consistent ((invs.filter fun inv => !inv.done).flatMap (·.uniformChecks)) := by
  have hnil : Consistent [] := fun x hx => by cases hx
  exact verifyChecks_iff hnil _

variable {d : Option Decision}

theorem Control.afterNode_live {k : Control} {label : Nat} {n : Node}
    (hdecides : Reference.decides n = true) (hlive : k.done = false) :
    (k.afterNode label n d).done = false := by
  have hreturned : k.returned = false := by
    simp only [Control.done, Bool.or_eq_false_iff] at hlive
    exact hlive.1
  cases n with
  | ifThen | loop =>
    rcases d with _ | ⟨_, _, _ | _⟩ | ⟨_, _⟩ <;>
      first | exact hlive | simp [Control.afterNode, Control.enter, Control.done, hreturned]
  | _ => cases hdecides

theorem Control.after_live {k : Control} (hdecides : k.decides = true)
    (hreturned : k.returned = false) : (k.after d).done = false := by
  have hframes : ∀ frames, Control.decidesFrames frames = true →
      (k.afterFrames d frames).done = false := by
    intro frames hdecides
    fun_induction Control.decidesFrames frames with
    | case1 label frames ih => exact ih hdecides
    | case2 n rest label isScoped frames =>
      exact Control.afterNode_live hdecides (by simp [Control.done, hreturned])
    | case3 => cases hdecides
  exact hframes k.frames hdecides

theorem Invocation.done_eq_control (inv : Invocation) : inv.done = inv.control.done := by
  simp [done, Control.done, control]

theorem Invocation.runnable_eq_control (inv : Invocation) :
    inv.runnable = (!inv.control.done && !inv.control.waiting) := by
  rw [runnable, done_eq_control]
  rfl

theorem Stepped.live {host : Host} {inv inv' : Invocation} (h : Stepped host inv d inv')
    (hd : d.isSome = true) : inv'.done = false := by
  have hboth := h.decided.symm.trans hd
  simp only [Bool.and_eq_true] at hboth
  obtain ⟨hrun, hdecides⟩ := hboth
  have hreturned : inv.control.returned = false := by
    rw [runnable_eq_control] at hrun
    simp only [Control.done, Bool.and_eq_true, Bool.not_eq_true', Bool.or_eq_false_iff] at hrun
    exact hrun.1.1
  rw [done_eq_control, h.control, if_pos hrun]
  exact Control.after_live hdecides hreturned

theorem barrierBranches_append (host : Host) (h h' : List Decision) :
    barrierBranches host (h ++ h') = barrierBranches host h ++ barrierBranches host h' := by
  simp [barrierBranches]

section Unreported

variable {host : Host} {usesSubgroupOps : Bool} {start : Config}
  {histories : List (List Decision)}

variable {c : Config}

theorem Traced.reachable (h : Traced host usesSubgroupOps start c histories) :
    Reachable host usesSubgroupOps start c := by
  induction h with
  | start => exact .start
  | round _ hfinished hround ih => exact .round ih hfinished hround

theorem Reachable.traced (h : Reachable host usesSubgroupOps start c) :
    ∃ histories, Traced host usesSubgroupOps start c histories := by
  induction h with
  | start => exact ⟨_, .start⟩
  | round _ hfinished hround ih =>
    obtain ⟨histories, htraced⟩ := ih
    exact ⟨_, .round htraced hfinished hround⟩

variable {invs : List Invocation}

theorem forall₂_release {R : Invocation → List Decision → Prop}
    (hR : ∀ inv h, R inv h → R { inv with waitingAtBarrier := false } h)
    (h : List.Forall₂ R invs histories) :
    List.Forall₂ R ((releaseBarrierIfReady invs).getD invs) histories := by
  cases hr : releaseBarrierIfReady invs with
  | none => exact h
  | some released =>
    rw [releaseBarrierIfReady_eq_some hr, Option.getD_some, forall₂_map_left_iff]
    exact h.imp hR

/-- The invocation has recorded its branches, and none to both sides. -/
structure Recorded (host : Host) (inv : Invocation) (history : List Decision) : Prop where
  checks : inv.uniformChecks = barrierBranches host history
  steady : Steady host history

/-- The same before the check has looked at the live invocations. -/
structure Recording (host : Host) (inv : Invocation) (history : List Decision) : Prop where
  checks : inv.uniformChecks = barrierBranches host history
  steady : inv.done = true → Steady host history

theorem Recorded.stepped {inv inv' : Invocation} {history : List Decision} {d : Option Decision}
    (h : Recorded host inv history) (hs : Stepped host inv d inv') :
    Recording host inv' (history ++ d.toList) := by
  refine ⟨by rw [hs.checks, h.checks, barrierBranches_append], ?_⟩
  intro hdone
  cases d with
  | none => simpa using h.steady
  | some d => exact absurd (hs.live rfl) (by simp [hdone])

theorem recorded_stepAll {snapshots : List Lane} {invs' : List Invocation}
    {memory memory' : Memory}
    (h : List.Forall₂ (Recorded host) invs histories)
    (hstep : stepAll host snapshots invs memory = .ok (invs', memory'))
    (hverify : verifyUniformControlFlow invs' = .ok ()) :
    List.Forall₂ (Recorded host) invs'
      (extend histories (roundDecisions host snapshots invs memory)) := by
  have hconsistent := (verifyUniformControlFlow_iff invs').mp hverify
  have hstepped := stepAll_forall (fun _ _ _ _ => Recorded.stepped) h hstep
  -- an invocation that decided is live, so the check has seen its branches
  refine forall₂_iff_zip.mpr ⟨hstepped.length_eq, ?_⟩
  intro inv' history hmem
  obtain ⟨hchecks, hdone⟩ := (forall₂_iff_zip.mp hstepped).2 hmem
  refine ⟨hchecks, ?_⟩
  by_cases hd : inv'.done = true
  · exact hdone hd
  · have hsub : inv'.uniformChecks ⊆
        (invs'.filter fun inv => !inv.done).flatMap (·.uniformChecks) := by
      intro x hx
      have hinv : inv' ∈ invs' := (of_mem_zip hmem).1
      exact mem_flatMap.mpr ⟨inv', mem_filter.mpr ⟨hinv, by simp [hd]⟩, hx⟩
    rw [hchecks] at hsub
    exact hconsistent.of_subset hsub

theorem traced_recorded {program : Program} {workgroup : Dim3}
    (hinvs : createInvocations program workgroup = .ok invs) {memory : Memory}
    (h : Traced host usesSubgroupOps ⟨memory, invs⟩ c histories) :
    List.Forall₂ (Recorded host) c.invocations histories := by
  induction h with
  | start =>
    rw [forall₂_map_right_iff, forall₂_same]
    intro inv hinv
    obtain ⟨ids, index, -, rfl⟩ := new_of_createInvocations hinvs hinv
    exact ⟨rfl, fun x hx => by cases hx⟩
  | round _ _ hround ih =>
    obtain ⟨invs', hstep, hverify, hrelease⟩ := Config.round_verified hround
    rw [hrelease]
    exact forall₂_release (fun inv history hr => ⟨hr.checks, hr.steady⟩)
      (recorded_stepAll ih hstep hverify)

end Unreported

/-! ## Invocations in step -/

def Control.runnable (k : Control) : Bool := !k.done && !k.waiting

def Control.next (k : Control) (d : Option Decision) : Control :=
  if k.runnable then k.after d else k

/-- The invocation has the common control part and the common history. -/
structure InStep (host : Host) (k : Control) (common : List Decision) (inv : Invocation)
    (history : List Decision) : Prop where
  control : inv.control = k
  history : history = common
  checks : inv.uniformChecks = barrierBranches host common

section InStep

variable {host : Host} {usesSubgroupOps : Bool} {k : Control} {common : List Decision}
  {histories : List (List Decision)}

/-- The invocation has followed the common control part with some decision. -/
def FollowedBySome (host : Host) (k : Control) (common : List Decision) (inv : Invocation)
    (history : List Decision) : Prop :=
  ∃ d : Option Decision, d.isSome = (k.runnable && k.decides) ∧
    InStep host (k.next d) (common ++ d.toList) inv history

theorem InStep.stepped {inv inv' : Invocation} {history : List Decision} {d : Option Decision}
    (h : InStep host k common inv history) (hs : Stepped host inv d inv') :
    FollowedBySome host k common inv' (history ++ d.toList) := by
  obtain ⟨rfl, rfl, hchecks⟩ := h
  have hrun : inv.runnable = inv.control.runnable := inv.runnable_eq_control
  refine ⟨d, by rw [hs.decided, hrun], ?_, rfl, ?_⟩
  · rw [hs.control, Control.next, hrun]
  · rw [hs.checks, hchecks, barrierBranches_append]

theorem decision_unique {d d' : Option Decision}
    (hagree : Agree histories) (hd : common ++ d.toList ∈ histories)
    (hd' : common ++ d'.toList ∈ histories) (hsome : d.isSome = d'.isSome) : d = d' := by
  cases d <;> cases d' <;> cases hsome
  case none.none => rfl
  case some.some a b =>
    have hpair : (a, b) ∈ (common ++ [a]).zip (common ++ [b]) := by
      rw [zip_append rfl]
      simp
    exact congrArg some (hagree _ hd _ hd' (a, b) hpair)

variable {invs : List Invocation}

theorem inStep_stepAll {snapshots : List Lane} {invs' : List Invocation} {memory memory' : Memory}
    (h : List.Forall₂ (InStep host k common) invs histories)
    (hstep : stepAll host snapshots invs memory = .ok (invs', memory'))
    (hagree : Agree (extend histories (roundDecisions host snapshots invs memory))) :
    ∃ d, List.Forall₂ (InStep host (k.next d) (common ++ d.toList)) invs'
      (extend histories (roundDecisions host snapshots invs memory)) := by
  have hfollowed := stepAll_forall (fun _ _ _ _ => InStep.stepped) h hstep
  generalize extend histories (roundDecisions host snapshots invs memory) = histories' at *
  cases hfollowed with
  | nil => exact ⟨none, .nil⟩
  | @cons inv history invs' histories' hhead htail =>
    obtain ⟨d, hsome, hinv⟩ := hhead
    refine ⟨d, .cons hinv (forall₂_iff_zip.mpr ⟨htail.length_eq, ?_⟩)⟩
    intro other history' hmem
    obtain ⟨d', hsome', hother⟩ := (forall₂_iff_zip.mp htail).2 hmem
    have hhistory' : history' ∈ histories' := (of_mem_zip hmem).2
    have hfirst : common ++ d.toList ∈ history :: histories' :=
      hinv.history ▸ mem_cons_self
    have hlater : common ++ d'.toList ∈ history :: histories' :=
      hother.history ▸ mem_cons_of_mem _ hhistory'
    have heq : d' = d := decision_unique hagree hlater hfirst (hsome'.trans hsome.symm)
    exact heq ▸ hother

theorem release_of_waiting (hne : invs ≠ []) (hcontrol : ∀ inv ∈ invs, inv.control = k)
    (hlive : k.done = false) (hwaiting : k.waiting = true) : releaseBarrierIfReady invs ≠ none := by
  have hdone : ∀ inv ∈ invs, inv.done = false := by
    intro inv hinv
    rw [inv.done_eq_control, hcontrol inv hinv, hlive]
  have hwait : ∀ inv ∈ invs, inv.waitingAtBarrier = true := by
    intro inv hinv
    have hw : inv.control.waiting = true := by rw [hcontrol inv hinv, hwaiting]
    exact hw
  have hactive : (invs.countP fun inv => !inv.done) = invs.length :=
    countP_eq_length.mpr fun inv hinv => by simp [hdone inv hinv]
  have hcount : liveWaitingCount invs = invs.length :=
    countP_eq_length.mpr fun inv hinv => by simp [hdone inv hinv, hwait inv hinv]
  simp only [releaseBarrierIfReady, hactive, hcount, and_true]
  rw [if_pos (length_pos_iff.mpr hne)]
  simp

theorem inStep_control (h : List.Forall₂ (InStep host k common) invs histories) {inv : Invocation}
    (hinv : inv ∈ invs) : ∃ history ∈ histories, InStep host k common inv history := by
  obtain ⟨i, hi, rfl⟩ := mem_iff_getElem.mp hinv
  have hi' : i < histories.length := h.length_eq ▸ hi
  exact ⟨histories[i], getElem_mem hi', h.get hi hi'⟩

/-- On a uniform run the invocations are in step, and none of them waits when a
round begins. -/
theorem traced_inStep {program : Program} {workgroup : Dim3}
    (hinvs : createInvocations program workgroup = .ok invs) {memory : Memory}
    (huniform : UniformRun host usesSubgroupOps ⟨memory, invs⟩) {c : Config}
    (h : Traced host usesSubgroupOps ⟨memory, invs⟩ c histories) :
    ∃ k common, List.Forall₂ (InStep host k common) c.invocations histories ∧
      (c.invocations ≠ [] → k.done = false → k.waiting = false) := by
  induction h with
  | start =>
    refine ⟨⟨[.nodes program.entry 0 false], false, false⟩, [], ?_, fun _ _ => rfl⟩
    rw [forall₂_map_right_iff, forall₂_same]
    intro inv hinv
    obtain ⟨ids, index, -, rfl⟩ := new_of_createInvocations hinvs hinv
    exact ⟨rfl, rfl, rfl⟩
  | @round c c' histories htraced hfinished hround ih =>
    obtain ⟨k, common, hin, -⟩ := ih
    obtain ⟨invs', hstep, -, hrelease⟩ := Config.round_verified hround
    obtain ⟨d, hin'⟩ := inStep_stepAll hin hstep (huniform c histories htraced hfinished)
    rw [hrelease]
    cases hr : releaseBarrierIfReady invs' with
    | some released =>
      refine ⟨{ k.next d with waiting := false }, common ++ d.toList, ?_, fun _ _ => rfl⟩
      rw [releaseBarrierIfReady_eq_some hr, Option.getD_some, forall₂_map_left_iff]
      refine hin'.imp fun inv history hi => ⟨?_, hi.history, hi.checks⟩
      rw [← hi.control]
      rfl
    | none =>
      refine ⟨k.next d, common ++ d.toList, hin', ?_⟩
      intro hne hlive
      by_contra hwaiting
      refine release_of_waiting hne ?_ hlive (by simpa using hwaiting) hr
      intro inv hinv
      obtain ⟨history, -, hi⟩ := inStep_control hin' hinv
      exact hi.control

theorem verify_inStep (h : List.Forall₂ (InStep host k common) invs histories)
    (hsteady : ∀ history ∈ histories, Steady host history) :
    verifyUniformControlFlow invs = .ok () := by
  rw [verifyUniformControlFlow_iff]
  intro x hx y hy
  obtain ⟨inv, hinv, hx⟩ := mem_flatMap.mp hx
  obtain ⟨inv', hinv', hy⟩ := mem_flatMap.mp hy
  obtain ⟨history, hmem, hi⟩ := inStep_control h (mem_of_mem_filter hinv)
  obtain ⟨_, -, hi'⟩ := inStep_control h (mem_of_mem_filter hinv')
  have hcommon : Steady host common := hi.history ▸ hsteady history hmem
  rw [hi.checks] at hx
  rw [hi'.checks] at hy
  exact hcommon x hx y hy

end InStep

section Main

variable {host : Host} {usesSubgroupOps : Bool} {program : Program} {workgroup : Dim3}
  {invs : List Invocation} {memory : Memory}

theorem steady_of_neverReports (hinvs : createInvocations program workgroup = .ok invs)
    (h : NeverReports host usesSubgroupOps ⟨memory, invs⟩) :
    SteadyRun host usesSubgroupOps ⟨memory, invs⟩ := by
  intro c histories htraced hfinished r hr history hmem
  obtain ⟨c', hround⟩ := h c htraced.reachable hfinished r hr
  have hrecorded := traced_recorded hinvs (.round htraced hfinished hround)
  obtain ⟨i, hi, rfl⟩ := mem_iff_getElem.mp hmem
  have hlen := hrecorded.length_eq
  exact (hrecorded.get (by omega) hi).steady

theorem neverReports_of_steady (hinvs : createInvocations program workgroup = .ok invs)
    (huniform : UniformRun host usesSubgroupOps ⟨memory, invs⟩)
    (hsteady : SteadyRun host usesSubgroupOps ⟨memory, invs⟩) :
    NeverReports host usesSubgroupOps ⟨memory, invs⟩ := by
  intro c hreachable hfinished r hr
  obtain ⟨histories, htraced⟩ := hreachable.traced
  obtain ⟨k, common, hin, hwaiting⟩ := traced_inStep hinvs huniform htraced
  obtain ⟨invs', memory'⟩ := r
  obtain ⟨d, hin'⟩ := inStep_stepAll hin hr (huniform c histories htraced hfinished)
  have hverify := verify_inStep hin' (hsteady c histories htraced hfinished _ hr)
  -- someone is live, so everyone is, and nobody waits
  have hrunnable : c.invocations.any (·.runnable) = true := by
    simp only [Config.finished, all_eq_false] at hfinished
    obtain ⟨inv, hinv, hlive⟩ := hfinished
    obtain ⟨_, -, hi⟩ := inStep_control hin hinv
    have hdone : k.done = false := by
      rw [← hi.control, ← inv.done_eq_control]
      simpa using hlive
    have hwait := hwaiting (ne_nil_of_mem hinv) hdone
    refine any_eq_true.mpr ⟨inv, hinv, ?_⟩
    rw [inv.runnable_eq_control, hi.control, hdone, hwait]
    rfl
  cases hrel : releaseBarrierIfReady invs' with
  | some released =>
    refine ⟨⟨memory', released⟩, ?_⟩
    simp only [Config.round, hr, bind, Except.bind, hverify, hrel]
    rfl
  | none =>
    refine ⟨⟨memory', invs'⟩, ?_⟩
    simp only [Config.round, hr, bind, Except.bind, hverify, hrel, hrunnable]
    rfl

/-- On a uniform run the interpreter reports no non-uniform control flow exactly
when every branch around a barrier is taken to the same side every time. -/
theorem neverReports_iff (hinvs : createInvocations program workgroup = .ok invs)
    (huniform : UniformRun host usesSubgroupOps ⟨memory, invs⟩) :
    NeverReports host usesSubgroupOps ⟨memory, invs⟩ ↔
      SteadyRun host usesSubgroupOps ⟨memory, invs⟩ :=
  ⟨steady_of_neverReports hinvs, neverReports_of_steady hinvs huniform⟩

end Main

section Checking

variable (host : Host) (usesSubgroupOps : Bool)

/-- A property of the decisions of every round, on a run of fewer than `k`
rounds. -/
def holdsWithin (P : List (List Decision) → Bool) : Nat → Config → List (List Decision) → Bool
  | 0, _, _ => false
  | k + 1, c, histories =>
      c.finished || (P (c.decided host usesSubgroupOps histories) &&
        match c.round host usesSubgroupOps with
        | .ok c' => holdsWithin P k c' (c.decided host usesSubgroupOps histories)
        | .error _ => true)

variable {host usesSubgroupOps}

theorem holdsWithin_traced {P : List (List Decision) → Bool} {k : Nat} {start c : Config}
    {histories : List (List Decision)}
    (h : holdsWithin host usesSubgroupOps P k start (start.invocations.map fun _ => []) = true)
    (htraced : Traced host usesSubgroupOps start c histories) (hfinished : c.finished = false) :
    P (c.decided host usesSubgroupOps histories) = true := by
  have hlater : ∃ k, holdsWithin host usesSubgroupOps P k c histories = true := by
    clear hfinished
    induction htraced with
    | start => exact ⟨k, h⟩
    | round _ hfinished hround ih =>
      obtain ⟨k, hk⟩ := ih
      cases k with
      | zero => cases hk
      | succ k =>
        rw [holdsWithin, hfinished, hround] at hk
        exact ⟨k, (Bool.and_eq_true_iff.mp hk).2⟩
  obtain ⟨k, hk⟩ := hlater
  cases k with
  | zero => cases hk
  | succ k =>
    rw [holdsWithin, hfinished] at hk
    exact (Bool.and_eq_true_iff.mp hk).1

end Checking

instance (histories : List (List Decision)) : Decidable (Agree histories) :=
  inferInstanceAs
    (Decidable (∀ h ∈ histories, ∀ h' ∈ histories, ∀ pair ∈ h.zip h', pair.1 = pair.2))

instance (host : Host) (history : List Decision) : Decidable (Steady host history) :=
  inferInstanceAs (Decidable (∀ x ∈ barrierBranches host history,
    ∀ y ∈ barrierBranches host history, x.1 = y.1 → x.2 = y.2))

def emptyMemory : Memory := ⟨fun _ => none, fun _ => none⟩

/-- Two invocations that execute a branch around a barrier in each of two
iterations. -/
def branchInLoop (cond : Expr) : Program :=
  .wrapped [] (2, 1, 1)
    [.loop "i" (.litU32 0) (.litU32 2) [.ifThen cond [.barrier .seqCst] []]]

theorem neverReports_iff_constant :
    ∃ invs, createInvocations (branchInLoop (.litBool true)) (0, 0, 0) = .ok invs ∧
      UniformRun integerHost false ⟨emptyMemory, invs⟩ ∧
      SteadyRun integerHost false ⟨emptyMemory, invs⟩ ∧
      NeverReports integerHost false ⟨emptyMemory, invs⟩ := by
  obtain ⟨invs, hinvs⟩ :
      ∃ invs, createInvocations (branchInLoop (.litBool true)) (0, 0, 0) = .ok invs := ⟨_, rfl⟩
  have hcheck : (createInvocations (branchInLoop (.litBool true)) (0, 0, 0)).toOption.any
      (fun invs => holdsWithin integerHost false
        (fun histories => Agree histories ∧ ∀ h ∈ histories, Steady integerHost h) 40
        ⟨emptyMemory, invs⟩ (invs.map fun _ => [])) = true := by
    decide +kernel
  rw [hinvs] at hcheck
  have huniform : UniformRun integerHost false ⟨emptyMemory, invs⟩ := by
    intro c histories htraced hfinished
    exact (of_decide_eq_true (holdsWithin_traced hcheck htraced hfinished)).1
  have hsteady : SteadyRun integerHost false ⟨emptyMemory, invs⟩ := by
    intro c histories htraced hfinished _ _
    exact (of_decide_eq_true (holdsWithin_traced hcheck htraced hfinished)).2
  exact ⟨invs, hinvs, huniform, hsteady, (neverReports_iff hinvs huniform).mpr hsteady⟩

/-- The report of `verify_uniform_control_flow`. -/
def isBranchReport : Error → Bool
  | .interp message => message == "program violates uniform-control-flow rule: Barrier appears inside an If whose condition differs across the workgroup. Fix: make the condition uniform or move Barrier outside the branch."
  | _ => false

/-- A condition that changes between the iterations, the same for both
invocations, is reported. -/
theorem uniform_run_reported :
    ∃ invs c e,
      createInvocations (branchInLoop (.binOp .eq (.var "i") (.litU32 0))) (0, 0, 0) = .ok invs ∧
      UniformRun integerHost false ⟨emptyMemory, invs⟩ ∧
      Reachable integerHost false ⟨emptyMemory, invs⟩ c ∧
      c.round integerHost false = .error e ∧ isBranchReport e = true := by
  generalize hcond : Expr.binOp .eq (.var "i") (.litU32 0) = cond
  obtain ⟨invs, hinvs⟩ : ∃ invs, createInvocations (branchInLoop cond) (0, 0, 0) = .ok invs :=
    ⟨_, rfl⟩
  have hcheck : (createInvocations (branchInLoop cond) (0, 0, 0)).toOption.any
      (fun invs => holdsWithin integerHost false (fun histories => Agree histories) 40
        ⟨emptyMemory, invs⟩ (invs.map fun _ => [])) = true := by
    subst hcond
    decide +kernel
  have hreport : (createInvocations (branchInLoop cond) (0, 0, 0)).toOption.any
      (fun invs => match rounds integerHost false 40 ⟨emptyMemory, invs⟩ with
        | .ok _ => false
        | .error e => isBranchReport e) = true := by
    subst hcond
    decide +kernel
  rw [hinvs] at hcheck hreport
  cases hrun : rounds integerHost false 40 ⟨emptyMemory, invs⟩ with
  | ok c => simp [Except.toOption, hrun] at hreport
  | error e =>
    obtain ⟨c, hc, he⟩ := reachable_of_rounds_error hrun
    refine ⟨invs, c, e, hinvs, ?_, hc, he, by simpa [Except.toOption, hrun] using hreport⟩
    intro c histories htraced hfinished
    exact of_decide_eq_true (holdsWithin_traced hcheck htraced hfinished)

end Vyre.Reference
