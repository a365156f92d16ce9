import Vyre.Optimizer.Along

/-!
# Rewriting the expressions of a program

`rewrite_expr` (`optimizer/rewrite.rs`), and the walk over statements of passes
that replace expressions by what they know at that place. Where what they know
is so, the new expressions give what the old ones give, and a run that succeeds
stays the same.
-/

namespace Vyre.ExprRewrite

open Reference Reference.Eval StateExcept NodeMap

section Rewrite

variable (transform : Expr → Option Expr)

def replaced (e : Expr) : Expr := (transform e).getD e

mutual

/-- `rewrite_expr`: the operands first, then the expression built from them. -/
def rewriteExpr : Expr → Expr
  | .load buffer index => replaced transform (.load buffer (rewriteExpr index))
  | .binOp op left right => replaced transform (.binOp op (rewriteExpr left) (rewriteExpr right))
  | .unOp op operand => replaced transform (.unOp op (rewriteExpr operand))
  | .call opId args => replaced transform (.call opId (rewriteArgs args))
  | .select cond trueVal falseVal => replaced transform
      (.select (rewriteExpr cond) (rewriteExpr trueVal) (rewriteExpr falseVal))
  | .cast target value => replaced transform (.cast target (rewriteExpr value))
  | .fma a b c => replaced transform (.fma (rewriteExpr a) (rewriteExpr b) (rewriteExpr c))
  | .atomic op buffer index expected value ordering => replaced transform
      (.atomic op buffer (rewriteExpr index) (rewriteExpected expected)
        (rewriteExpr value) ordering)
  | .subgroupBallot cond => replaced transform (.subgroupBallot (rewriteExpr cond))
  | .subgroupShuffle value lane => replaced transform
      (.subgroupShuffle (rewriteExpr value) (rewriteExpr lane))
  | .subgroupAdd value => replaced transform (.subgroupAdd (rewriteExpr value))
  | e => replaced transform e

def rewriteExpected : Option Expr → Option Expr
  | none => none
  | some e => some (rewriteExpr e)

def rewriteArgs : List Expr → List Expr
  | [] => []
  | e :: es => rewriteExpr e :: rewriteArgs es

end

end Rewrite

section Eval

variable {host : Host} {lane : Lane} {transform : Expr → Option Expr}

theorem rewriteExpr_eq (e : Expr) :
    rewriteExpr transform e = replaced transform (mapOperands (rewriteExpr transform) e) := by
  cases e with
  | call opId args =>
    have hargs : rewriteArgs transform args = args.map (rewriteExpr transform) := by
      induction args with
      | nil => rfl
      | cons arg args ih => rw [rewriteArgs, ih, List.map_cons]
    rw [rewriteExpr, hargs]
    rfl
  | atomic _ _ _ expected _ _ => cases expected <;> rfl
  | _ => rfl

theorem renders_rewriteExpr {R : Memory → Memory → Prop} {L : Lane → Lane → Prop}
    {Q : Expr → Prop} (hoperands : ∀ {e}, Q e → Operands Q e) (haccesses : ∀ e, Accesses R e)
    (hlanes : ∀ {l l'}, L l l' → l'.ids = l.ids ∧ l'.linearLocalIndex = l.linearLocalIndex)
    (hvar : ∀ {x l l'} (seen seen' : List Lane), Q (.var x) → L l l' →
      Follows R (evalExpr host seen (.var x) l)
        (evalExpr host seen' (rewriteExpr transform (.var x)) l'))
    (htransform : ∀ {e l l'} (seen : List Lane), Q e → L l l' → (∀ x, e ≠ .var x) →
      Refines (evalExpr host seen (mapOperands (rewriteExpr transform) e) l')
        (evalExpr host seen (rewriteExpr transform e) l')) :
    Renders host R L Q (rewriteExpr transform) where
  lanes := hlanes
  operands := hoperands
  accesses _ := haccesses _
  var := hvar
  built {e l l' seen' x} he hne hl h := by
    intro m m' v m₁ hR hrun
    obtain ⟨v', m₁', hrun', hres⟩ := h m m' v m₁ hR hrun
    exact ⟨v', m₁', htransform seen' he hl hne m' _ hrun', hres⟩

/-- A rewrite may be used where it may put what it does for each expression in
`Q`, once its operands are rewritten. -/
theorem refines_rewriteExpr {Q : Expr → Prop} (hoperands : ∀ {e}, Q e → Operands Q e)
    (htransform : ∀ (seen : List Lane) (e : Expr), Q e →
      Refines (evalExpr host seen (mapOperands (rewriteExpr transform) e) lane)
        (evalExpr host seen (rewriteExpr transform e) lane)) {e : Expr} (he : Q e) :
    Refines (evalExpr host [lane] e lane)
      (evalExpr host [lane] (rewriteExpr transform e) lane) := by
  refine refines_iff.mpr (Renders.evalExpr (L := fun l l' => l = lane ∧ l' = lane)
    (renders_rewriteExpr hoperands (fun e => ?_) ?_ ?_ ?_) he ⟨rfl, rfl⟩ (.cons ⟨rfl, rfl⟩ .nil))
  · cases e <;> simp [Accesses, respects_eq]
  · rintro l l' ⟨rfl, rfl⟩
    exact ⟨rfl, rfl⟩
  · rintro x l l' seen seen' hx ⟨rfl, rfl⟩
    exact refines_iff.mp (htransform seen' (.var x) hx)
  · rintro e l l' seen he ⟨rfl, rfl⟩ _
    exact htransform seen e he

theorem follows_rewriteVars {m₀ : Memory} {lane' : Lane} (hids : lane'.ids = lane.ids)
    (hindex : lane'.linearLocalIndex = lane.linearLocalIndex)
    (hvar : ∀ seen x v m, SameShape m₀ m → lane.locals x = some v →
      evalExpr host seen (replaced transform (.var x)) lane' m = .ok (v, m))
    (hother : ∀ e, (∀ x, e ≠ .var x) → transform e = none) (e : Expr) :
    Follows (Shaped m₀) (evalExpr host [lane] e lane)
      (evalExpr host [lane'] (rewriteExpr transform e) lane') := by
  refine Renders.evalExpr (L := fun l l' => l = lane ∧ l' = lane') (Q := fun _ => True)
    (renders_rewriteExpr (fun {e} _ => ?_)
      (fun e => accesses_of_keeps (atomicsKeep_sameShape e) m₀) ?_ ?_ ?_) trivial ⟨rfl, rfl⟩
    (.cons ⟨rfl, rfl⟩ .nil)
  · cases e <;> simp [Operands]
  · rintro l l' ⟨rfl, rfl⟩
    exact ⟨hids, hindex⟩
  · rintro x l l' seen seen' - ⟨rfl, rfl⟩ m _ v m₁ ⟨rfl, hm⟩ hrun
    obtain ⟨hv, rfl⟩ := orFail_eq_ok.mp (show orFail (l.locals x) _ m = .ok (v, m₁) from hrun)
    exact ⟨v, m, hvar seen' x v m hm hv, rfl, rfl, hm⟩
  · rintro e l l' seen - ⟨rfl, rfl⟩ hne
    have hnot : ∀ x, mapOperands (rewriteExpr transform) e ≠ .var x := by
      intro x heq
      cases e <;> first | exact hne _ rfl | cases heq
    rw [rewriteExpr_eq, replaced, hother _ hnot]
    exact .rfl

end Eval

/-! ## Statements -/

/-- A walk over statements: what it knows at the head of a body and after a
statement, and what it makes of an expression of a statement. -/
structure Walk (σ : Type) where
  init : σ
  next : σ → Node → σ
  expr : σ → Node → Expr → Expr

namespace Walk

variable {σ : Type} (w : Walk σ)

mutual

def node : σ → Node → Node
  | s, n@(.letBind name value) => .letBind name (w.expr s n value)
  | s, n@(.assign name value) => .assign name (w.expr s n value)
  | s, n@(.store buffer index value) => .store buffer (w.expr s n index) (w.expr s n value)
  | s, n@(.ifThen cond thenNodes otherwise) =>
      .ifThen (w.expr s n cond) (nodes w.init thenNodes) (nodes w.init otherwise)
  | s, n@(.loop var lo hi body) => .loop var (w.expr s n lo) (w.expr s n hi) (nodes w.init body)
  | _, .block body => .block (nodes w.init body)
  | _, .region generator sourceRegion body => .region generator sourceRegion (nodes w.init body)
  | s, n@(.asyncLoad source destination offset size tag) =>
      .asyncLoad source destination (w.expr s n offset) (w.expr s n size) tag
  | s, n@(.asyncStore source destination offset size tag) =>
      .asyncStore source destination (w.expr s n offset) (w.expr s n size) tag
  | s, n@(.trap address tag) => .trap (w.expr s n address) tag
  | _, n => n

def nodes : σ → List Node → List Node
  | _, [] => []
  | s, n :: ns => node s n :: nodes (w.next s n) ns

end

def Checked (Q : σ → Node → Prop) : σ → List Node → Prop
  | _, [] => True
  | s, n :: ns => Q s n ∧ Checked Q (w.next s n) ns

/-- What a walk knows (`I`) is so along the runs of statements that pass `Q`,
and lets it make of an expression what it does. -/
structure Sound (ρ : Route) (I : σ → Thread → Prop) (Q : σ → Node → Prop) : Prop where
  expr : ∀ {s t}, I s t → ∀ n e, Refines (evalExpr ρ.host [t.lane] e t.lane)
    (evalExpr ρ.host [t.lane] (w.expr s n e) t.lane)
  step : ∀ {s n t}, Q s n → I s t → ∀ π, GoesOn (I (w.next s n)) (runNode (ρ.on π) n t)
  bodies : ∀ {s n}, Q s n → BodiesIn (w.Checked Q w.init) n
  enter : ∀ {s t}, I s t → I w.init t
  loopVar : ∀ {s var lo hi body t v entered}, Q s (.loop var lo hi body) → I w.init t →
    t.bindLoopVar var v = .ok entered → I w.init entered
  leave : ∀ {t t'}, I w.init t → I w.init t' → I w.init (t.leave t')

theorem node_eq (s : σ) (n : Node) :
    w.node s n = mapOwn (w.expr s n) (mapBody (w.nodes w.init) n) := by
  cases n <;> rfl

variable {w} {ρ : Route} {I : σ → Thread → Prop} {Q : σ → Node → Prop} {ns : List Node} {s : σ}
  {t : Thread}

theorem hasBody_node (n : Node) : hasBody (w.node s n) = hasBody n := by
  cases n <;> rfl

/-- A walk leaves the barriers where they are. -/
theorem nodeContainsBarrier_node (n : Node) :
    nodeContainsBarrier (w.node s n) = nodeContainsBarrier n := by
  have hbody : ∀ {ns : List Node} {s : σ}, (∀ n ∈ ns, ∀ {s : σ},
      nodeContainsBarrier (w.node s n) = nodeContainsBarrier n) →
      containsBarrier (w.nodes s ns) = containsBarrier ns := by
    intro ns s ih
    induction ns generalizing s with
    | nil => rfl
    | cons n ns ihns =>
      rw [nodes, containsBarrier, containsBarrier, ih n (by simp),
        ihns fun n hn => ih n (by simp [hn])]
  induction n generalizing s with
  | ifThen cond thenNodes otherwise ihThen ihElse =>
    simp only [node, nodeContainsBarrier, hbody fun n hn {s} => ihThen n hn,
      hbody fun n hn {s} => ihElse n hn]
  | loop var lo hi body ih | block body ih =>
    simp only [node, nodeContainsBarrier, hbody fun n hn {s} => ih n hn]
  | _ => rfl

theorem containsBarrier_nodes (ns : List Node) (s : σ) :
    containsBarrier (w.nodes s ns) = containsBarrier ns := by
  induction ns generalizing s with
  | nil => rfl
  | cons n ns ih => rw [nodes, containsBarrier, containsBarrier, nodeContainsBarrier_node, ih]

theorem Sound.sim_nodes (hw : w.Sound ρ I Q)
    (h : ∀ n ∈ ns, ∀ {s t} π, Q s n → I s t →
      Sim True Eq Eq (runNode (ρ.on π) n t) (runNode (ρ.on π) (w.node s n) t))
    (hns : w.Checked Q s ns) (π : Plan) (ht : I s t) :
    Sim True Eq (fun u u' => u = u' ∧ I w.init u) (runNodes (ρ.on π) ns t)
      (runNodes (ρ.on π) (w.nodes s ns) t) := by
  induction ns generalizing s t π with
  | nil => exact .pure ⟨rfl, hw.enter ht⟩
  | cons n ns ih =>
    have hn : Sim True Eq (fun u u' => u = u' ∧ I (w.next s n) u) (runNode (ρ.on π) n t)
        (runNode (ρ.on π) (w.node s n) t) := by
      refine (h n (by simp) π hns.1 ht).imp ?_
      rintro u u' ⟨m, m₁, hrun⟩ hu
      exact ⟨hu, hw.step hns.1 ht π m u m₁ hrun⟩
    have hafter : (ρ.on π).after (w.node s n) = (ρ.on π).after n := by
      simp only [Route.after, Plan.after, hasBody_node]
    rw [nodes, runNodes, runNodes, hafter]
    refine hn.andThen ?_
    rintro u _ ⟨rfl, hu⟩
    exact ih (fun n hn => h n (by simp [hn])) hns.2 (π.after n) hu

theorem Sound.sim_node (hw : w.Sound ρ I Q) (n : Node) (π : Plan) (hn : Q s n) (ht : I s t) :
    Sim True Eq Eq (runNode (ρ.on π) n t) (runNode (ρ.on π) (w.node s n) t) := by
  have hexpr : ∀ {s t}, I s t → ∀ n e, Follows Eq (evalExpr ρ.host [t.lane] e t.lane)
      (evalExpr ρ.host [t.lane] (w.expr s n e) t.lane) :=
    fun ht n e => refines_iff.mp (hw.expr ht n e)
  have hbody : ∀ {ns} {π : Plan} {t t₀ : Thread}, Sim True Eq (fun u u' => u = u' ∧ I w.init u)
      (runNodes (ρ.on π) ns t) (runNodes (ρ.on π) (w.nodes w.init ns) t) →
      Sim True Eq (fun u u' => t₀.leave u = t₀.leave u') (runNodes (ρ.on π) ns t)
        (runNodes (ρ.on π) (w.nodes w.init ns) t) :=
    fun h => h.imp fun u u' _ hu => by rw [hu.1]
  induction n generalizing s t π with
  | letBind name value => exact Sim.letBind (hexpr ht _ value) fun _ hnone => ⟨hnone, rfl⟩
  | assign name value =>
    exact Sim.assign (hexpr ht _ value) fun v hsome hfixed => ⟨hsome, hfixed, rfl⟩
  | ifThen cond thenNodes otherwise ihThen ihElse =>
    refine Sim.ifThen (hexpr ht _ cond) rfl (fun hb => ?_)
      (hbody (hw.sim_nodes (fun n h {s t} => ihThen n h) (hw.bodies hn).1 _ (hw.enter ht)))
      (hbody (hw.sim_nodes (fun n h {s t} => ihElse n h) (hw.bodies hn).2 _ (hw.enter ht)))
    rwa [containsBarrier_nodes, containsBarrier_nodes] at hb
  | loop var lo hi body ih =>
    have hloop : Sim True Eq (fun u u' => u = u' ∧ I w.init u)
        (runNode (ρ.on π) (.loop var lo hi body) t)
        (runNode (ρ.on π) (w.node s (.loop var lo hi body)) t) := by
      refine Sim.loop (hexpr ht _ lo) (hexpr ht _ hi) ⟨rfl, hw.enter ht⟩ ?_
      rintro t _ k - ⟨rfl, ht⟩ hnone
      have hentered : I w.init ((t.set var (.u32 k)).fix var) :=
        hw.loopVar hn ht (Thread.bindLoopVar_eq_ok.mpr ⟨hnone, rfl⟩)
      refine ⟨hnone, (hw.sim_nodes (fun n h {s t} => ih n h) (hw.bodies hn) _ hentered).imp ?_⟩
      rintro u _ - ⟨rfl, hu⟩
      exact ⟨rfl, hw.leave ht hu⟩
    exact hloop.imp fun u u' _ hu => hu.1
  | block body ih | region _ _ body ih =>
    exact Sim.map (hbody (hw.sim_nodes (fun n h {s t} => ih n h) (hw.bodies hn) _ (hw.enter ht)))
  | ret => exact Sim.ret rfl rfl rfl
  | store | asyncLoad | asyncStore | trap =>
    exact Sim.plain rfl (plainOperands_of_all (hexpr ht _) _) (nodeAccesses_eq _) rfl fun _ => rfl
  | _ => exact Sim.plain (g := id) rfl trivial (nodeAccesses_eq _) rfl fun _ => rfl

/-- Where what a walk knows is so from the start, an invocation still ends, and
leaves the same. -/
theorem Sound.runsAlone {host : Host} (hw : ∀ ρ : Route, ρ.host = host → w.Sound ρ I Q)
    (hns : w.Checked Q w.init ns) {ids : InvocationIds} {index : UInt32}
    (hstart : I w.init (Invocation.start ids index).thread) (hids : Function.Injective host.nodeId)
    {debugIds : InvocationIds → String} {m m' : Memory}
    (h : RunsAlone host debugIds ns ids index m m') :
    RunsAlone host debugIds (w.nodes w.init ns) ids index m m' := by
  refine h.of_plans hids fun π ⟨out, hrun, hpending⟩ => ⟨π, ?_⟩
  have hw := hw ⟨host, true, π⟩ rfl
  obtain ⟨out', _, hrun', hout, rfl⟩ :=
    hw.sim_nodes (fun n _ {s t} => hw.sim_node n) hns π hstart m m out m' rfl hrun
  exact ⟨out', hrun', hout.pending (fun u u' hu => by rw [hu.1]) ▸ hpending⟩

end Walk

end Vyre.ExprRewrite
