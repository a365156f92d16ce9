import Vyre.Optimizer.NodeMap

/-!
# Conditions along a run

Some passes are right only where the states of a run are as they take them to be.
Such a condition is asked of every statement that the run of a program reaches,
with the statements of its body before and after it. Where it lets a pass replace
each statement, the program runs as it did.
-/

namespace Vyre.NodeMap

open Reference Reference.Eval StateExcept List

/-- A statement of a body, and the state in which a run reached it. -/
structure Visit where
  node : Node
  thread : Thread
  memory : Memory

/-- `A` holds wherever an iteration begins. -/
def AlongLoop (body : Thread → Eval (Outcome Thread)) (A : Thread → Memory → Prop)
    (var : Ident) : Nat → UInt32 → Thread → Memory → Prop
  | 0, _, _, _ => True
  | left + 1, next, t, m => ∀ entered, t.bindLoopVar var (.u32 next) = .ok entered →
      A entered m ∧ ∀ t' m', body entered m = .ok (.next t', m') →
        AlongLoop body A var left (next + 1) (t.leave t') m'

section Along

variable (host : Host) (P : List Visit → Node → List Node → Thread → Memory → Prop)

mutual

/-- `P` holds in the bodies of a statement that is run. -/
def AlongNode : Node → Thread → Memory → Prop
  | .ifThen cond thenNodes otherwise, t, m => ∀ v m',
      evalExpr host [t.lane] cond t.lane m = .ok (v, m') →
        if v.truthy host.floats then AlongNodes [] thenNodes t m'
        else AlongNodes [] otherwise t m'
  | .loop var lo hi body, t, m => ∀ bounds m',
      loopBounds host [t.lane] t.lane lo hi m = .ok (bounds, m') →
        AlongLoop (runNodes host body) (AlongNodes [] body) var
          (bounds.2.toNat - bounds.1.toNat) bounds.1 t m'
  | .block body, t, m => AlongNodes [] body t m
  | .region _ _ body, t, m => AlongNodes [] body t m
  | _, _, _ => True

/-- `P` holds of every statement that the run of a body reaches. The statements
before it are given with the last of them first. -/
def AlongNodes : List Visit → List Node → Thread → Memory → Prop
  | _, [], _, _ => True
  | past, n :: rest, t, m => P past n rest t m ∧ AlongNode n t m ∧
      ∀ t' m', runNode host n t m = .ok (.next t', m') →
        AlongNodes (⟨n, t, m⟩ :: past) rest t' m'

end

end Along

/-! ## Runs from one memory -/

/-- What `x` does from `m`, `y` does. -/
def RefinesAt {α : Type} (m : Memory) (x y : Eval α) : Prop := ∀ r, x m = .ok r → y m = .ok r

namespace RefinesAt

variable {α β : Type} {m : Memory} {x y : Eval α} {f g : α → Eval β}

theorem bind (h : RefinesAt m x y)
    (hf : ∀ a m', x m = .ok (a, m') → RefinesAt m' (f a) (g a)) :
    RefinesAt m (x >>= f) (y >>= g) := by
  intro r hrun
  obtain ⟨a, m', ha, hrest⟩ := bind_eq_ok.mp hrun
  exact bind_eq_ok.mpr ⟨a, m', h _ ha, hf a m' ha r hrest⟩

theorem map {f : α → β} (h : RefinesAt m x y) : RefinesAt m (f <$> x) (f <$> y) := by
  intro r hrun
  obtain ⟨a, m', ha, hr⟩ := map_eq_ok.mp hrun
  exact map_eq_ok.mpr ⟨a, m', h _ ha, hr⟩

theorem trans {z : Eval α} (h : RefinesAt m x y) (h' : RefinesAt m y z) : RefinesAt m x z :=
  fun r hr => h' r (h r hr)

end RefinesAt

/-! ## Passes that keep the statements in their places -/

variable {ρ : Route} {P : List Visit → Node → List Node → Thread → Memory → Prop}
  {body : List Node → List Node → List Node} {edit : List Node → Node → Node}

/-- A pass over bodies that, where `P` holds, may edit a statement whose own bodies
are done. It is told the statements before. -/
structure Edits (ρ : Route) (P : List Visit → Node → List Node → Thread → Memory → Prop)
    (body : List Node → List Node → List Node) (edit : List Node → Node → Node) : Prop where
  nil : ∀ before, body before [] = []
  cons : ∀ before n rest, body before (n :: rest) =
    edit before (mapBody (body []) n) :: body (n :: before) rest
  hasBody : ∀ before n, hasBody (edit before n) = hasBody n
  barriers : ∀ before n, nodeContainsBarrier (edit before n) = nodeContainsBarrier n
  step : ∀ {past n rest t m}, P past n rest t m → ∀ π, RefinesAt m
    (runNode (ρ.on π) (mapBody (body []) n) t)
    (runNode (ρ.on π) (edit (past.map (·.node)) (mapBody (body []) n)) t)

theorem refines_runLoop {inner inner' : Thread → Eval (Outcome Thread)} {host : Host}
    {ns : List Node} {var : Ident} {left : Nat} {next : UInt32} {t : Thread} {m : Memory}
    (hfree : ∀ t, Refines (inner t) (runNodes host ns t))
    (hbody : ∀ t m, AlongNodes host P [] ns t m → RefinesAt m (inner t) (inner' t))
    (halong : AlongLoop (runNodes host ns) (AlongNodes host P [] ns) var left next t m) :
    RefinesAt m (runLoop inner var left next t) (runLoop inner' var left next t) := by
  induction left generalizing next t m with
  | zero => exact fun _ hrun => hrun
  | succ left ih =>
    intro r hrun
    obtain ⟨hnone, out, m₁, hout, hrest⟩ := runLoop_succ_eq_ok.mp hrun
    obtain ⟨hentered, hafter⟩ := halong _ (Thread.bindLoopVar_eq_ok.mpr ⟨hnone, rfl⟩)
    refine runLoop_succ_eq_ok.mpr ⟨hnone, out, m₁, hbody _ m hentered _ hout, ?_⟩
    cases out with
    | returned u => exact hrest
    | next u => exact ih (hafter u m₁ (hfree _ m _ hout)) r hrest

namespace Edits

variable (h : Edits ρ P body edit) {π : Plan} {t : Thread} {m : Memory} {ns : List Node}

include h

theorem containsBarrier_body (before ns : List Node) :
    containsBarrier (body before ns) = containsBarrier ns := by
  have hlist : ∀ {ns before : List Node}, (∀ n ∈ ns,
      nodeContainsBarrier (mapBody (body []) n) = nodeContainsBarrier n) →
      containsBarrier (body before ns) = containsBarrier ns := by
    intro ns before hns
    induction ns generalizing before with
    | nil => rw [h.nil]
    | cons n ns ih =>
      rw [h.cons, containsBarrier, containsBarrier, h.barriers, hns n (by simp),
        ih fun n hn => hns n (by simp [hn])]
  refine hlist fun n hn => ?_
  clear hn
  induction n using bodies_induction with
  | h n ih =>
    cases n with
    | ifThen cond thenNodes otherwise =>
      simp only [mapBody, nodeContainsBarrier, hlist ih.1, hlist ih.2]
    | loop var lo hi body | block body => simp only [mapBody, nodeContainsBarrier, hlist ih]
    | _ => rfl

theorem refinesAt_nodes {past : List Visit}
    (hns : ∀ n ∈ ns, ∀ π t m, AlongNode ρ.host P n t m →
      RefinesAt m (runNode (ρ.on π) n t) (runNode (ρ.on π) (mapBody (body []) n) t))
    (halong : AlongNodes ρ.host P past ns t m) :
    RefinesAt m (runNodes (ρ.on π) ns t)
      (runNodes (ρ.on π) (body (past.map (·.node)) ns) t) := by
  induction ns generalizing past π t m with
  | nil =>
    rw [h.nil]
    exact fun _ hrun => hrun
  | cons n ns ih =>
    obtain ⟨hP, hnode, hrest⟩ := halong
    have hafter : (ρ.on π).after (edit (past.map (·.node)) (mapBody (body []) n)) =
        (ρ.on π).after n := by
      have hbody : Reference.hasBody (mapBody (body []) n) = Reference.hasBody n := by
        cases n <;> rfl
      simp only [Route.after, Plan.after, h.hasBody, hbody]
    rw [h.cons, runNodes, runNodes, hafter]
    refine RefinesAt.bind ((hns n (by simp) π t m hnode).trans (h.step hP π)) fun out m' hout => ?_
    cases out with
    | returned u => exact fun _ hrun => hrun
    | next u =>
      exact ih (fun n hn => hns n (by simp [hn])) (hrest u m' (runNode_free n π t m _ hout))

theorem refinesAt_node (n : Node) (π : Plan) (t : Thread) (m : Memory)
    (halong : AlongNode ρ.host P n t m) :
    RefinesAt m (runNode (ρ.on π) n t) (runNode (ρ.on π) (mapBody (body []) n) t) := by
  induction n using bodies_induction generalizing π t m with
  | h n ih =>
    have hself : ∀ {α : Type} {m : Memory} {x : Eval α}, RefinesAt m x x := fun _ hrun => hrun
    cases n with
    | ifThen cond thenNodes otherwise =>
      simp only [mapBody, runNode, h.containsBarrier_body]
      refine hself.bind fun v m' hv => hself.bind fun _ m₁ hcheck => ?_
      have halong := halong v m' hv
      obtain rfl := Route.check_memory hcheck
      refine RefinesAt.map ?_
      rw [Route.on_host]
      cases htruthy : v.truthy ρ.host.floats with
      | true =>
        rw [if_pos htruthy] at halong
        exact h.refinesAt_nodes ih.1 halong
      | false =>
        rw [if_neg (by simp [htruthy])] at halong
        exact h.refinesAt_nodes ih.2 halong
    | loop var lo hi ns =>
      refine hself.bind fun bounds m' hbounds => refines_runLoop (runNodes_free ns _)
        (fun t m => h.refinesAt_nodes ih) (halong bounds m' hbounds)
    | block ns | region _ _ ns =>
      exact (h.refinesAt_nodes ih halong).map
    | _ => exact hself

end Edits

/-- Where the condition holds all along the run of an invocation, it still ends
after the pass, and leaves the same. -/
theorem Edits.runsAlone {host : Host} (h : ∀ ρ : Route, ρ.host = host → Edits ρ P body edit)
    (hids : Function.Injective host.nodeId) {ns : List Node} {ids : InvocationIds}
    {index : UInt32} {m m' : Memory} {debugIds : InvocationIds → String}
    (halong : AlongNodes host P [] ns (Invocation.start ids index).thread m)
    (hrun : RunsAlone host debugIds ns ids index m m') :
    RunsAlone host debugIds (body [] ns) ids index m m' := by
  refine hrun.of_plans hids fun π ⟨out, hout, hpending⟩ => ⟨π, out, ?_, hpending⟩
  have hedits := h ⟨host, true, π⟩ rfl
  exact hedits.refinesAt_nodes (fun n _ => hedits.refinesAt_node n) halong _ hout

/-! ## The operands of a statement -/

/-- The expressions of a statement, apart from those in its bodies. -/
def ownOperands : Node → List Expr
  | .letBind _ e | .assign _ e | .ifThen e _ _ | .trap e _ => [e]
  | .store _ e e' | .loop _ e e' _ | .asyncLoad _ _ e e' _ | .asyncStore _ _ e e' _ => [e, e']
  | _ => []

def mapOwn (g : Expr → Expr) : Node → Node
  | .letBind name value => .letBind name (g value)
  | .assign name value => .assign name (g value)
  | .store buffer index value => .store buffer (g index) (g value)
  | .ifThen cond thenNodes otherwise => .ifThen (g cond) thenNodes otherwise
  | .loop var lo hi body => .loop var (g lo) (g hi) body
  | .asyncLoad source destination offset size tag =>
      .asyncLoad source destination (g offset) (g size) tag
  | .asyncStore source destination offset size tag =>
      .asyncStore source destination (g offset) (g size) tag
  | .trap address tag => .trap (g address) tag
  | n => n

theorem refines_mapOwn {g : Expr → Expr} {n : Node} {t : Thread}
    (h : ∀ e ∈ ownOperands n, Refines (evalExpr ρ.host [t.lane] e t.lane)
      (evalExpr ρ.host [t.lane] (g e) t.lane)) (π : Plan) :
    Refines (runNode (ρ.on π) n t) (runNode (ρ.on π) (mapOwn g n) t) := by
  have hbody : ∀ {ns : List Node} {π : Plan} {t t₀ : Thread}, Sim True Eq
      (fun u u' => t₀.leave u = t₀.leave u') (runNodes (ρ.on π) ns t) (runNodes (ρ.on π) ns t) :=
    (Sim.refines_iff.mp .rfl).imp fun u u' _ hu => congrArg _ hu
  have hfollows : ∀ e ∈ ownOperands n, Follows Eq (evalExpr ρ.host [t.lane] e t.lane)
      (evalExpr ρ.host [t.lane] (g e) t.lane) := fun e he => refines_iff.mp (h e he)
  refine Sim.refines_iff.mpr ?_
  cases n with
  | letBind name value =>
    exact Sim.letBind (hfollows _ (by simp [ownOperands])) fun _ hnone => ⟨hnone, rfl⟩
  | assign name value =>
    exact Sim.assign (hfollows _ (by simp [ownOperands])) fun _ hsome hfixed =>
      ⟨hsome, hfixed, rfl⟩
  | ifThen cond thenNodes otherwise =>
    exact Sim.ifThen (hfollows _ (by simp [ownOperands])) rfl id hbody hbody
  | loop var lo hi body =>
    refine Sim.loop (hfollows _ (by simp [ownOperands])) (hfollows _ (by simp [ownOperands])) rfl ?_
    rintro t _ k - rfl hnone
    exact ⟨hnone, hbody⟩
  | store | asyncLoad | asyncStore =>
    exact Sim.plain rfl ⟨hfollows _ (by simp [ownOperands]), hfollows _ (by simp [ownOperands])⟩
      (nodeAccesses_eq _) rfl fun _ => rfl
  | trap =>
    exact Sim.plain rfl (hfollows _ (by simp [ownOperands])) (nodeAccesses_eq _) rfl fun _ => rfl
  | _ => exact Sim.refines_iff.mp .rfl

end Vyre.NodeMap
