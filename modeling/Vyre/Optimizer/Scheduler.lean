import Vyre.Optimizer.LoopGuards
import Vyre.Optimizer.ReachingDef
import Vyre.Optimizer.Rematerialize
import Vyre.Transform.Inline

/-!
# The pass scheduler

`optimizer/scheduler/run.rs`: sweeps over the passes in a fixed order, where only
dirty passes run, until a sweep changes nothing. A pass may refuse, and an
enforced gate takes a rewrite back. The sweep that records a metric row for each
pass is written out a second time there, with the gates in another order.
-/

namespace Vyre.Scheduler

open NodeMap Reference List LoopGuards LoopSubstitution

structure PassResult where
  program : Program
  changed : Bool

/-- What the scheduler asks a `ProgramPass`. A refusal is given by its kind. -/
structure Pass where
  name : String
  requires : List String
  invalidates : List String
  passId : String
  shouldRun : Program → Bool
  batchApply : Program → PassResult
  tryBatchApply : Program → Except String PassResult

/-- A check of what a pass did to a program, and what a metric row counts for it:
the bits of the effects, or the violations. -/
structure Gate where
  rejects : Pass → Program → Program → Bool
  count : Program → Nat

/-- The gates are there when they are enforced. -/
structure PassScheduler where
  passes : List Pass
  executionOrder : List Nat
  requirementsPrevalidated : Bool
  maxIterations : Nat
  cost : Option Gate
  effects : Option Gate
  linearTypes : Option Gate
  shapePredicates : Option Gate

inductive OptimizerError where
  | unsatisfiedRequirement (pass missing : String)
  | maxIterations (maxIterations : Nat) (lastPass : String)

/-- The variables of the loop over the passes. -/
structure Sweep where
  program : Program
  changed : Bool
  changedBy : Option String
  nextDirty : List Bool
  available : Option (List String)

/-- A gate that is enforced takes the rewrite back. -/
def rejectedBy (gate : Option Gate) (pass : Pass) (p after : Program) : Bool :=
  gate.any fun gate => gate.rejects pass p after

variable (s : PassScheduler)

def enforceGates : Bool :=
  s.cost.isSome || s.effects.isSome || s.linearTypes.isSome || s.shapePredicates.isSome

/-- How `run_once_flags` applies a pass. -/
def applyPass (pass : Pass) (p : Program) : PassResult :=
  if enforceGates s then
    match pass.tryBatchApply p with
    | .ok ⟨after, true⟩ =>
      if rejectedBy s.effects pass p after || rejectedBy s.cost pass p after ||
          rejectedBy s.linearTypes pass p after || rejectedBy s.shapePredicates pass p after then
        ⟨p, false⟩
      else ⟨after, true⟩
    | .ok result => result
    | .error _ => ⟨p, false⟩
  else pass.batchApply p

def markInvalidatedPassFlags (invalidated : List String) (nextDirty : List Bool) : List Bool :=
  nextDirty.mapIdx fun i dirty =>
    dirty || s.passes[i]?.any fun pass => invalidated.any (pass.name :: pass.requires).contains

/-- The variables after a pass was applied. -/
def Sweep.land (sw : Sweep) (pass : Pass) (result : PassResult) : Sweep :=
  { sw with
    program := result.program
    changed := sw.changed || result.changed
    changedBy := if result.changed then some pass.passId else sw.changedBy
    nextDirty :=
      if result.changed then markInvalidatedPassFlags s pass.invalidates sw.nextDirty
      else sw.nextDirty }

def runPass (dirty : List Bool) (i : Nat) (pass : Pass) (sw : Sweep) : Sweep :=
  if dirty.getD i false && pass.shouldRun sw.program then
    sw.land s pass (applyPass s pass sw.program)
  else sw

/-- The first requirement that no pass before has met, when they are checked. -/
def Sweep.missing (sw : Sweep) (pass : Pass) : Option String :=
  sw.available.bind fun available => pass.requires.find? (!available.contains ·)

def Sweep.makeAvailable (sw : Sweep) (pass : Pass) : Sweep :=
  { sw with available := sw.available.map (pass.name :: ·) }

/-- `run_once_flags`. -/
def runOnce (dirty : List Bool) : List Nat → Sweep → Except OptimizerError Sweep
  | [], sw => .ok sw
  | i :: order, sw =>
    match s.passes[i]? with
    | none => runOnce dirty order sw
    | some pass =>
      match sw.missing pass with
      | some missing => .error (.unsatisfiedRequirement pass.name missing)
      | none => runOnce dirty order ((runPass s dirty i pass sw).makeAvailable pass)

def startSweep (p : Program) : Sweep :=
  ⟨p, false, none, replicate s.passes.length false,
    if s.requirementsPrevalidated then none else some []⟩

/-- `Program::reconcile_runnable_top_level`. -/
def reconcileRunnableTopLevel (p : Program) : Program :=
  { p with entry := Transform.wrapEntry p.entry }

def runFrom (p : Program) (dirty : List Bool) (lastPass : String) :
    Nat → Except OptimizerError Program
  | 0 => .error (.maxIterations s.maxIterations lastPass)
  | left + 1 => do
    let sw ← runOnce s dirty s.executionOrder (startSweep s p)
    if sw.changed then runFrom sw.program sw.nextDirty (sw.changedBy.getD lastPass) left
    else return reconcileRunnableTopLevel sw.program

def run (p : Program) : Except OptimizerError Program :=
  runFrom s p (replicate s.passes.length true) "<none>" s.maxIterations

/-! ## The sweep that records metrics -/

inductive PassRunDecision where
  | cleanSkipped
  | analysisSkipped
  | ranUnchanged
  | changed
  | costReverted
  | effectReverted
  | linearTypeReverted
  | shapePredicateReverted
  | refused
  deriving DecidableEq

/-- A row of the report, without the time. The counters of `Program::stats` are
one value, and so is the estimate of the allocations. -/
structure PassRunMetric (σ α : Type) where
  iteration : Nat
  pass : String
  ran : Bool := false
  changed : Bool := false
  decision : PassRunDecision
  refusalKind : Option String := none
  /-- Bits of the effects, violations of linear types and of shape predicates. -/
  gatesBefore : Nat × Nat × Nat := (0, 0, 0)
  gatesAfter : Nat × Nat × Nat := (0, 0, 0)
  statsBefore : σ
  statsAfter : σ
  allocationsBefore : α
  allocationsAfter : α

/-- What is measured of a program. -/
structure Meter (σ α : Type) where
  stats : Program → σ
  allocations : Program → α

structure MeteredSweep (σ α : Type) extends Sweep where
  cachedAllocationEstimate : Option α
  metrics : List (PassRunMetric σ α)

def gateCounts (p : Program) : Nat × Nat × Nat :=
  let count (gate : Option Gate) : Nat := gate.elim 0 fun gate => gate.count p
  (count s.effects, count s.linearTypes, count s.shapePredicates)

structure Applied where
  result : PassResult
  decision : PassRunDecision
  refusalKind : Option String := none

/-- How `run_once_with_metrics` applies a pass. -/
def applyWithMetrics (pass : Pass) (p : Program) : Applied :=
  if enforceGates s then
    match pass.tryBatchApply p with
    | .ok ⟨after, true⟩ =>
      if rejectedBy s.effects pass p after then ⟨⟨p, false⟩, .effectReverted, none⟩
      else if rejectedBy s.linearTypes pass p after then ⟨⟨p, false⟩, .linearTypeReverted, none⟩
      else if rejectedBy s.shapePredicates pass p after then
        ⟨⟨p, false⟩, .shapePredicateReverted, none⟩
      else if rejectedBy s.cost pass p after then ⟨⟨p, false⟩, .costReverted, none⟩
      else ⟨⟨after, true⟩, .changed, none⟩
    | .ok ⟨after, false⟩ => ⟨⟨after, false⟩, .ranUnchanged, none⟩
    | .error kind => ⟨⟨p, false⟩, .refused, some kind⟩
  else
    match pass.batchApply p with
    | ⟨after, true⟩ => ⟨⟨after, true⟩, .changed, none⟩
    | ⟨after, false⟩ => ⟨⟨after, false⟩, .ranUnchanged, none⟩

section Metrics

variable {σ α : Type} (meter : Meter σ α) (iteration : Nat)

/-- The row as it is before the pass is looked at. -/
def startMetric (pass : Pass) (sw : MeteredSweep σ α) (decision : PassRunDecision) :
    PassRunMetric σ α :=
  let stats := meter.stats sw.program
  let allocations := sw.cachedAllocationEstimate.getD (meter.allocations sw.program)
  { iteration, decision, pass := pass.name, statsBefore := stats, statsAfter := stats,
    allocationsBefore := allocations, allocationsAfter := allocations }

def meterPass (dirty : List Bool) (i : Nat) (pass : Pass) (sw : MeteredSweep σ α) :
    MeteredSweep σ α :=
  let metric := startMetric meter iteration pass sw
  if dirty.getD i false then
    if pass.shouldRun sw.program then
      let applied := applyWithMetrics s pass sw.program
      let program := applied.result.program
      let landedChanged := applied.result.changed
      let row := metric applied.decision
      -- An estimate is taken anew only when a rewrite landed.
      let allocations := if landedChanged then meter.allocations program else row.allocationsBefore
      ⟨sw.land s pass applied.result, some allocations, sw.metrics ++ [{ row with
        ran := true
        changed := landedChanged
        refusalKind := applied.refusalKind
        gatesBefore := gateCounts s sw.program
        gatesAfter := gateCounts s (if landedChanged then program else sw.program)
        statsAfter := meter.stats program
        allocationsAfter := allocations }]⟩
    else ⟨sw.toSweep, some (metric .analysisSkipped).allocationsBefore,
      sw.metrics ++ [metric .analysisSkipped]⟩
  else ⟨sw.toSweep, some (metric .cleanSkipped).allocationsBefore,
    sw.metrics ++ [metric .cleanSkipped]⟩

def runOnceWithMetrics (dirty : List Bool) :
    List Nat → MeteredSweep σ α → Except OptimizerError (MeteredSweep σ α)
  | [], sw => .ok sw
  | i :: order, sw =>
    match s.passes[i]? with
    | none => runOnceWithMetrics dirty order sw
    | some pass =>
      match sw.missing pass with
      | some missing => .error (.unsatisfiedRequirement pass.name missing)
      | none =>
        let next := meterPass s meter iteration dirty i pass sw
        runOnceWithMetrics dirty order { next with toSweep := next.makeAvailable pass }

structure OptimizerRunReport (σ α : Type) where
  program : Program
  passes : List (PassRunMetric σ α)

def runFromWithMetrics (p : Program) (dirty : List Bool) (lastPass : String) (iteration : Nat)
    (metrics : List (PassRunMetric σ α)) :
    Nat → Except OptimizerError (OptimizerRunReport σ α)
  | 0 => .error (.maxIterations s.maxIterations lastPass)
  | left + 1 => do
    let sw ← runOnceWithMetrics s meter iteration dirty s.executionOrder
      ⟨startSweep s p, none, metrics⟩
    if sw.changed then
      runFromWithMetrics sw.program sw.nextDirty (sw.changedBy.getD lastPass) (iteration + 1)
        sw.metrics left
    else return ⟨reconcileRunnableTopLevel sw.program, sw.metrics⟩

def runWithMetrics (p : Program) : Except OptimizerError (OptimizerRunReport σ α) :=
  runFromWithMetrics s meter p (replicate s.passes.length true) "<none>" 0 [] s.maxIterations

variable {s meter iteration}

/-- Whatever the order of the gates, a rewrite lands when none of them rejects it. -/
theorem applyWithMetrics_result (pass : Pass) (p : Program) :
    (applyWithMetrics s pass p).result = applyPass s pass p := by
  fun_cases applyWithMetrics s pass p <;> simp_all [applyPass]

theorem meterPass_toSweep (dirty : List Bool) (i : Nat) (pass : Pass) (sw : MeteredSweep σ α) :
    (meterPass s meter iteration dirty i pass sw).toSweep =
      runPass s dirty i pass sw.toSweep := by
  rw [runPass, ← applyWithMetrics_result, meterPass]
  cases dirty.getD i false <;> cases pass.shouldRun sw.program <;> rfl

theorem runOnceWithMetrics_toSweep (dirty : List Bool) (order : List Nat)
    (sw : MeteredSweep σ α) :
    (runOnceWithMetrics s meter iteration dirty order sw).map (·.toSweep) =
      runOnce s dirty order sw.toSweep := by
  fun_induction runOnceWithMetrics s meter iteration dirty order sw with
  | case1 => rfl
  | case2 sw i order hpass ih => rw [ih, runOnce, hpass]
  | case3 sw i order pass hpass missing hmissing => simp only [runOnce, hpass, hmissing]; rfl
  | case4 sw i order pass hpass hmissing next ih =>
    rw [ih, runOnce, hpass]
    simp only [hmissing, next, meterPass_toSweep]

theorem runFromWithMetrics_program (p : Program) (dirty : List Bool) (lastPass : String)
    (iteration : Nat) (metrics : List (PassRunMetric σ α)) (left : Nat) :
    (runFromWithMetrics s meter p dirty lastPass iteration metrics left).map (·.program) =
      runFrom s p dirty lastPass left := by
  induction left generalizing p dirty lastPass iteration metrics with
  | zero => rfl
  | succ left ih =>
    rw [runFromWithMetrics, runFrom, ← runOnceWithMetrics_toSweep dirty s.executionOrder
      ⟨startSweep s p, none, metrics⟩]
    cases runOnceWithMetrics s meter iteration dirty s.executionOrder
        ⟨startSweep s p, none, metrics⟩ with
    | error e => rfl
    | ok sw =>
      show Except.map _ (if sw.changed then _ else _) = if sw.changed then _ else _
      split
      · exact ih ..
      · rfl

/-- A row says that a rewrite landed when the pass ran and changed the program. -/
def Tells (row : PassRunMetric σ α) : Prop :=
  (row.changed = true ↔ row.decision = .changed) ∧ (row.changed = true → row.ran = true)

theorem applyWithMetrics_decision (pass : Pass) (p : Program) :
    (applyWithMetrics s pass p).result.changed = true ↔
      (applyWithMetrics s pass p).decision = .changed := by
  fun_cases applyWithMetrics s pass p <;> simp

theorem meterPass_tells (dirty : List Bool) (i : Nat) (pass : Pass) {sw : MeteredSweep σ α}
    (h : ∀ row ∈ sw.metrics, Tells row) :
    ∀ row ∈ (meterPass s meter iteration dirty i pass sw).metrics, Tells row := by
  have hnew : ∀ {row : PassRunMetric σ α}, Tells row →
      ∀ row' ∈ sw.metrics ++ [row], Tells row' := by
    intro row hrow row' hmem
    rcases mem_append.mp hmem with hmem | hmem
    · exact h row' hmem
    · rw [mem_singleton.mp hmem]
      exact hrow
  fun_cases meterPass s meter iteration dirty i pass sw with
  | case1 => exact hnew ⟨applyWithMetrics_decision pass sw.program, fun _ => rfl⟩
  | case2 | case3 => exact hnew ⟨⟨fun h => (by cases h), fun h => by cases h⟩, fun h => by cases h⟩

theorem runOnceWithMetrics_tells {dirty : List Bool} {order : List Nat}
    {sw sw' : MeteredSweep σ α} (hsw : ∀ row ∈ sw.metrics, Tells row)
    (h : runOnceWithMetrics s meter iteration dirty order sw = .ok sw') :
    ∀ row ∈ sw'.metrics, Tells row := by
  fun_induction runOnceWithMetrics s meter iteration dirty order sw with
  | case1 =>
    cases h
    exact hsw
  | case2 sw i order hpass ih => exact ih hsw h
  | case3 => cases h
  | case4 sw i order pass hpass hmissing next ih => exact ih (meterPass_tells _ _ _ hsw) h

theorem runFromWithMetrics_tells {p : Program} {dirty : List Bool} {lastPass : String}
    {iteration left : Nat} {metrics : List (PassRunMetric σ α)} {report : OptimizerRunReport σ α}
    (hmetrics : ∀ row ∈ metrics, Tells row)
    (h : runFromWithMetrics s meter p dirty lastPass iteration metrics left = .ok report) :
    ∀ row ∈ report.passes, Tells row := by
  induction left generalizing p dirty lastPass iteration metrics with
  | zero => cases h
  | succ left ih =>
    obtain ⟨sw, hsweep, hrest⟩ := ByteCodec.bind_eq_ok.mp h
    have hsw := runOnceWithMetrics_tells hmetrics hsweep
    split_ifs at hrest
    · exact ih hsw hrest
    · cases hrest
      exact hsw

/-- Recording metrics does not change what is optimized, and the rows tell which
passes changed the program. -/
theorem runWithMetrics_eq_run (p : Program) :
    (runWithMetrics s meter p).map (·.program) = run s p ∧
      ∀ report, runWithMetrics s meter p = .ok report → ∀ row ∈ report.passes, Tells row :=
  ⟨runFromWithMetrics_program .., fun _ h =>
    runFromWithMetrics_tells (fun _ hrow => absurd hrow not_mem_nil) h⟩

end Metrics

/-! ## What a run keeps -/

section Keeps

variable {s} {P : Program → Prop}

theorem applyPass_keeps {pass : Pass} {p : Program} (hp : P p)
    (h : ∀ r, pass.batchApply p = r ∨ pass.tryBatchApply p = .ok r → P r.program) :
    P (applyPass s pass p).program := by
  fun_cases applyPass s pass p with
  | case1 _ _ _ _ => exact hp
  | case2 _ _ hok _ => exact h _ (.inr hok)
  | case3 _ _ _ hok => exact h _ (.inr hok)
  | case4 => exact hp
  | case5 => exact h _ (.inl rfl)

variable (happly : ∀ pass ∈ s.passes, ∀ p, P p → P (applyPass s pass p).program)
include happly

theorem runOnce_keeps {dirty : List Bool} {order : List Nat} {sw sw' : Sweep} (hp : P sw.program)
    (h : runOnce s dirty order sw = .ok sw') : P sw'.program := by
  fun_induction runOnce s dirty order sw with
  | case1 =>
    cases h
    exact hp
  | case2 _ _ _ _ ih => exact ih hp h
  | case3 => cases h
  | case4 sw i order pass hpass _ ih =>
    refine ih ?_ h
    rw [runPass]
    split_ifs
    · exact happly pass (mem_of_getElem? hpass) _ hp
    · exact hp

theorem runFrom_keeps (hwrap : ∀ p, P p → P (reconcileRunnableTopLevel p)) {p p' : Program}
    {dirty : List Bool} {lastPass : String} {left : Nat} (hp : P p)
    (h : runFrom s p dirty lastPass left = .ok p') : P p' := by
  induction left generalizing p dirty lastPass with
  | zero => cases h
  | succ left ih =>
    obtain ⟨sw, hsweep, hrest⟩ := ByteCodec.bind_eq_ok.mp h
    have hsw := runOnce_keeps happly hp hsweep
    split_ifs at hrest
    · exact ih hsw hrest
    · cases hrest
      exact hwrap _ hsw

end Keeps

theorem bodyRefines_region (ρ : Route) (generator : Ident) (ns : List Node) :
    BodyRefines ρ ns [.region generator none ns] where
  barriers hb := by cases hb
  runs π := by
    refine ⟨.node false π π, fun t => ?_⟩
    rw [runNodes_single]
    have hleave : Sim True Eq (fun u u' => t.leave u = t.leave (t.leave u'))
        (runNodes (ρ.on π) ns t) (runNodes (ρ.on π) ns t) := by
      refine (Sim.refines_iff.mp .rfl).imp fun u u' _ hu => ?_
      rw [hu, Thread.leave_leave fun _ => id]
    intro m m' out m₁ hm hrun
    obtain ⟨out', m₁', hrun', hout, hm'⟩ := hleave m m' out m₁ hm hrun
    refine ⟨out'.map t.leave, m₁', StateExcept.map_eq_ok.mpr ⟨out', m₁', hrun', rfl⟩, ?_, hm'⟩
    cases out <;> cases out' <;> exact hout

theorem bodyRefines_reconcile (ρ : Route) (p : Program) :
    BodyRefines ρ p.entry (reconcileRunnableTopLevel p).entry := by
  rw [reconcileRunnableTopLevel, Transform.wrapEntry]
  split_ifs
  · exact bodyRefines_region ρ _ _
  · exact (Replaces.refl ρ _).body

/-- The passes that are known to keep every run, and the one that does nothing. -/
def exactTransforms : List (Program → Program) :=
  [id, tightenTransform, elideTransform, unrollTransform, normalizeTransform,
    ReachingDef.transform, transform Rematerialize.sweep]

section Runs

variable {s} {host : Host} (hids : Function.Injective host.nodeId)
  {debugIds : InvocationIds → String} {ids : InvocationIds} {index : UInt32} {m m' : Memory}
  {p p' : Program}
include hids

theorem runsAlone_exactTransforms {f : Program → Program} (hf : f ∈ exactTransforms)
    (h : RunsAlone host debugIds p.entry ids index m m') :
    RunsAlone host debugIds (f p).entry ids index m m' := by
  simp only [exactTransforms, mem_cons, not_mem_nil, or_false] at hf
  rcases hf with rfl | rfl | rfl | rfl | rfl | rfl | rfl
  · exact h
  · exact BodyRefines.runsAlone (fun ρ => (replaces_tightenTransform ρ p).body) hids h
  · exact BodyRefines.runsAlone (fun ρ => (replaces_elideTransform ρ p).body) hids h
  · exact BodyRefines.runsAlone (fun ρ => (replaces_unrollTransform ρ p).body) hids h
  · exact BodyRefines.runsAlone (fun ρ => (replaces_normalizeTransform ρ p).body) hids h
  · exact ReachingDef.runsAlone_transform hids h
  · exact BodyRefines.runsAlone
      (fun ρ => bodyRefines_transform (Rematerialize.bodyRefines_sweep ρ) p) hids h

/-- Whatever the order, the dirty flags, the refusals and the gates are, the
optimized program runs as the program did. -/
theorem run_preserves (hs : ∀ pass ∈ s.passes, ∀ p r,
      pass.batchApply p = r ∨ pass.tryBatchApply p = .ok r →
      ∃ f ∈ exactTransforms, r.program = f p) (hrun : run s p = .ok p')
    (h : RunsAlone host debugIds p.entry ids index m m') :
    RunsAlone host debugIds p'.entry ids index m m' := by
  let P := fun p : Program => RunsAlone host debugIds p.entry ids index m m'
  refine runFrom_keeps (P := P)
    (fun pass hpass p hp => applyPass_keeps (P := P) hp fun r hr => ?_)
    (fun p => BodyRefines.runsAlone (fun ρ => bodyRefines_reconcile ρ p) hids) h hrun
  obtain ⟨f, hf, heq⟩ := hs pass hpass p r hr
  exact heq ▸ runsAlone_exactTransforms hids hf hp

end Runs

def unrollOnly : PassScheduler :=
  ⟨[⟨"loop_unroll", [], [], "loop_unroll", fun _ => true, fun p => ⟨unrollTransform p, true⟩,
    fun p => .ok ⟨unrollTransform p, true⟩⟩], [0], true, 50, none, none, none, none⟩

theorem run_preserves_storesIndex : ∃ p' m', run unrollOnly storesIndex = .ok p' ∧
    RunsFirst p' [0] [0, 0, 0] m' := by
  obtain ⟨m', hends⟩ := storesIndex_runs
  refine ⟨_, m', rfl, run_preserves Function.injective_id (s := unrollOnly)
    (fun pass hpass p r hr => ?_) rfl hends⟩
  cases mem_singleton.mp hpass
  refine ⟨unrollTransform, by simp [exactTransforms], ?_⟩
  cases hr with
  | inl h | inr h =>
    cases h
    rfl

end Vyre.Scheduler
