import Vyre.Optimizer.ExprRewrite

/-!
# Bodies with another expression for the variable of their loop

`substitution.rs`, and the passes that unroll a loop with constant bounds
(`loop_unroll.rs`) and move its lower bound to zero
(`loop_lower_bound_normalize.rs`).
-/

namespace Vyre.LoopSubstitution

open Reference Reference.Eval StateExcept NodeMap ExprRewrite

section Passes

mutual

/-- A pass that puts statements in the place of each one, from the inside out. -/
def flatRewrite (g : Node → List Node) : Node → List Node
  | .ifThen cond thenNodes otherwise =>
      g (.ifThen cond (flatRewriteList g thenNodes) (flatRewriteList g otherwise))
  | .loop var lo hi body => g (.loop var lo hi (flatRewriteList g body))
  | .block body => g (.block (flatRewriteList g body))
  | .region generator sourceRegion body =>
      g (.region generator sourceRegion (flatRewriteList g body))
  | n => g n

def flatRewriteList (g : Node → List Node) : List Node → List Node
  | [] => []
  | n :: ns => flatRewrite g n ++ flatRewriteList g ns

end

theorem flatRewriteList_eq (g : Node → List Node) (ns : List Node) :
    flatRewriteList g ns = ns.flatMap (flatRewrite g) := by
  induction ns with
  | nil => rfl
  | cons n ns ih => rw [flatRewriteList, ih, List.flatMap_cons]

theorem flatRewrite_eq (g : Node → List Node) (n : Node) :
    flatRewrite g n = g (mapBody (List.flatMap (flatRewrite g)) n) := by
  cases n <;> simp only [flatRewrite, mapBody, flatRewriteList_eq]

theorem replaces_flatRewrite {ρ : Route} {g : Node → List Node} (hg : ∀ n, Replaces ρ [n] (g n))
    (n : Node) : Replaces ρ [n] (flatRewrite g n) := by
  induction n using bodies_induction with
  | h n ih =>
    rw [flatRewrite_eq]
    exact (replaces_mapBody (ih.imp fun body hbody => (Replaces.flatMap hbody).body)).trans (hg _)

theorem replaces_flatRewriteList {ρ : Route} {g : Node → List Node} (hg : ∀ n, Replaces ρ [n] (g n))
    (ns : List Node) : Replaces ρ ns (flatRewriteList g ns) := by
  rw [flatRewriteList_eq]
  exact Replaces.flatMap fun n _ => replaces_flatRewrite hg n

end Passes

/-! ## Substitution -/

def substituteExpr (var : Ident) (replacement : Expr) : Expr → Expr :=
  rewriteExpr fun
    | .var name => if name = var then some replacement else none
    | _ => none

section Substitute

variable (shadows : Bool) (var : Ident) (replacement : Expr)

mutual

/-- `substitute_node`, and `substitute_var_in_node` of the normalization, which
goes into loops over the same variable too. -/
def substituteNode : Node → Node
  | .letBind name value => .letBind name (substituteExpr var replacement value)
  | .assign name value => .assign name (substituteExpr var replacement value)
  | .store buffer index value =>
      .store buffer (substituteExpr var replacement index) (substituteExpr var replacement value)
  | .ifThen cond thenNodes otherwise => .ifThen (substituteExpr var replacement cond)
      (substituteNodes thenNodes) (substituteNodes otherwise)
  | .loop inner lo hi body => .loop inner (substituteExpr var replacement lo)
      (substituteExpr var replacement hi)
        (if shadows && inner == var then body else substituteNodes body)
  | .block body => .block (substituteNodes body)
  | .region generator sourceRegion body => .region generator sourceRegion (substituteNodes body)
  | .asyncLoad source destination offset size tag => .asyncLoad source destination
      (substituteExpr var replacement offset) (substituteExpr var replacement size) tag
  | .asyncStore source destination offset size tag => .asyncStore source destination
      (substituteExpr var replacement offset) (substituteExpr var replacement size) tag
  | .trap address tag => .trap (substituteExpr var replacement address) tag
  | n => n

def substituteNodes : List Node → List Node
  | [] => []
  | n :: ns => substituteNode n :: substituteNodes ns

end

theorem substituteNodes_eq (ns : List Node) : substituteNodes shadows var replacement ns =
    ns.map (substituteNode shadows var replacement) := by
  induction ns with
  | nil => rfl
  | cons n ns ih => rw [substituteNodes, ih, List.map_cons]

theorem hasBody_substituteNode (n : Node) :
    hasBody (substituteNode shadows var replacement n) = hasBody n := by
  cases n <;> rfl

theorem nodeContainsBarrier_substituteNode (n : Node) :
    nodeContainsBarrier (substituteNode shadows var replacement n) = nodeContainsBarrier n := by
  have hbody : ∀ {ns : List Node}, (∀ n ∈ ns,
      nodeContainsBarrier (substituteNode shadows var replacement n) = nodeContainsBarrier n) →
      containsBarrier (substituteNodes shadows var replacement ns) = containsBarrier ns := by
    intro ns ih
    rw [substituteNodes_eq]
    exact containsBarrier_map ih
  induction n with
  | ifThen cond thenNodes otherwise ihThen ihElse =>
    simp only [substituteNode, nodeContainsBarrier, hbody ihThen, hbody ihElse]
  | loop inner lo hi body ih =>
    simp only [substituteNode, nodeContainsBarrier]
    split
    · rfl
    · exact hbody ih
  | block body ih => exact hbody ih
  | _ => rfl

theorem containsBarrier_substituteNodes (ns : List Node) :
    containsBarrier (substituteNodes shadows var replacement ns) = containsBarrier ns := by
  rw [substituteNodes_eq]
  exact containsBarrier_map fun n _ => nodeContainsBarrier_substituteNode shadows var replacement n

end Substitute

/-- A name that is replaced: it and others stand at a value where assignments to some
names do not change them, and the run beside has another value for it, or none. -/
structure Held where
  ids : InvocationIds
  index : UInt32
  names : Ident → Prop
  assigned : Ident → Prop
  var : Ident
  mem : names var
  value : Value
  copy : Option Value

structure Beside (h : Held) (t t' : Thread) : Prop where
  ids : t.ids = h.ids ∧ t'.ids = h.ids
  index : t.index = h.index ∧ t'.index = h.index
  pending : t'.pending = t.pending
  held : ∀ key, h.names key → t.vals key = some h.value ∧ (h.assigned key → t.fixed key = true)
  copy : t'.vals h.var = h.copy
  same : ∀ key ≠ h.var, t'.vals key = t.vals key ∧ t'.fixed key = t.fixed key

namespace Beside

variable {h : Held} {name : Ident} {t t' u u' : Thread}

theorem free (hb : Beside h t t')
    (hname : t.vals name = none ∨ h.assigned name ∧ t.fixed name = false) :
    ¬ h.names name := by
  intro hmem
  obtain ⟨hvals, hfixed⟩ := hb.held name hmem
  rcases hname with hname | ⟨hassigned, hname⟩
  · cases hname.symm.trans hvals
  · cases hname.symm.trans (hfixed hassigned)

theorem ne_var (hname : ¬ h.names name) : name ≠ h.var := fun heq => hname (heq ▸ h.mem)

theorem set (hb : Beside h t t') (hname : ¬ h.names name) (w : Value) :
    Beside h (t.set name w) (t'.set name w) :=
  { hb with
    held := fun key hkey => by
      rw [Thread.set_vals, if_neg fun heq : key = name => hname (heq ▸ hkey)]
      exact hb.held key hkey
    copy := by simpa [(ne_var hname).symm] using hb.copy
    same := fun key hkey => by simp [hb.same key hkey] }

theorem fix (hb : Beside h t t') : Beside h (t.fix name) (t'.fix name) :=
  { hb with
    held := fun key hkey => ⟨(hb.held key hkey).1, fun ha => by simp [(hb.held key hkey).2 ha]⟩
    same := fun key hkey => by simp [hb.same key hkey] }

theorem leave (hb : Beside h t t') (hb' : Beside h u u') : Beside h (t.leave u) (t'.leave u') :=
  { hb' with
    held := fun key hkey => by
      rw [Thread.leave_vals, (hb.held key hkey).1]
      exact ⟨(hb'.held key hkey).1, (hb.held key hkey).2⟩
    copy := by
      rw [Thread.leave_vals, hb.copy, hb'.copy]
      cases h.copy <;> rfl
    same := fun key hkey => by
      rw [Thread.leave_vals, (hb.same key hkey).1, (hb'.same key hkey).1]
      exact ⟨rfl, (hb.same key hkey).2⟩ }

theorem leave_eq (hb : Beside h u u') (hnone : t.vals h.var = none) : t.leave u = t.leave u' := by
  refine Thread.ext (hb.ids.1.trans hb.ids.2.symm) (hb.index.1.trans hb.index.2.symm)
    (funext fun key => ?_) rfl hb.pending.symm
  rw [Thread.leave_vals, Thread.leave_vals]
  by_cases hkey : key = h.var
  · rw [hkey, hnone]
    rfl
  · rw [(hb.same key hkey).1]

end Beside

section Runs

variable {ρ : Route} {shadows : Bool} {h : Held} {replacement : Expr} {m₀ : Memory}
  (hreplacement : ∀ {t t' m} (seen : List Lane), Beside h t t' → SameShape m₀ m →
    evalExpr ρ.host seen replacement t'.lane m = .ok (h.value, m))
include hreplacement

theorem follows_substituteExpr {t t' : Thread} (hb : Beside h t t') (e : Expr) :
    Follows (Shaped m₀) (evalExpr ρ.host [t.lane] e t.lane)
      (evalExpr ρ.host [t'.lane] (substituteExpr h.var replacement e) t'.lane) := by
  refine follows_rewriteVars (hb.ids.2.trans hb.ids.1.symm) (hb.index.2.trans hb.index.1.symm)
    (fun seen name w m hm hname => ?_) (fun e hne => ?_) e
  · by_cases hvar : name = h.var
    · subst hvar
      cases (show t.vals h.var = some w from hname).symm.trans (hb.held _ h.mem).1
      simpa [replaced] using hreplacement seen hb hm
    · have hval : t'.lane.locals name = some w := ((hb.same name hvar).1).trans hname
      simp only [replaced, if_neg hvar, Option.getD_none, evalExpr, hval]
      rfl
  · cases e <;> first | rfl | exact absurd rfl (hne _)

theorem sim_substituteNode {n : Node} (hn : n.Forall (fun _ => True) (AssignsIn h.assigned))
    (π : Plan) {t t' : Thread} (hb : Beside h t t') :
    Sim True (Shaped m₀) (Beside h) (runNode (ρ.on π) n t)
      (runNode (ρ.on π) (substituteNode shadows h.var replacement n) t') := by
  have hexpr : ∀ {t t'}, Beside h t t' → ∀ e, Follows (Shaped m₀)
      (evalExpr ρ.host [t.lane] e t.lane)
      (evalExpr ρ.host [t'.lane] (substituteExpr h.var replacement e) t'.lane) :=
    follows_substituteExpr hreplacement
  have hbody : ∀ {ns : List Node} {π : Plan} {t₀ t₀' t t' : Thread}, (∀ n ∈ ns,
      n.Forall (fun _ => True) (AssignsIn h.assigned) → ∀ (π : Plan) {t t'}, Beside h t t' →
      Sim True (Shaped m₀) (Beside h) (runNode (ρ.on π) n t)
        (runNode (ρ.on π) (substituteNode shadows h.var replacement n) t')) →
      Node.ForallList (fun _ => True) (AssignsIn h.assigned) ns → Beside h t₀ t₀' → Beside h t t' →
      Sim True (Shaped m₀) (fun u u' => Beside h (t₀.leave u) (t₀'.leave u'))
        (runNodes (ρ.on π) ns t)
        (runNodes (ρ.on π) (substituteNodes shadows h.var replacement ns) t') := by
    intro ns π t₀ t₀' t t' ih hns hb₀ hb
    rw [substituteNodes_eq]
    exact (Sim.nodes (fun n _ => hasBody_substituteNode ..)
      (fun n hn π u u' hu => ih n hn (Node.forallList_iff.mp hns n hn) π hu) hb).imp
      fun u u' _ hu => hb₀.leave hu
  induction n generalizing π t t' with
  | letBind name value =>
    refine Sim.letBind (hexpr hb value) fun _ hnone => ?_
    have hfree := hb.free (.inl hnone)
    exact ⟨(hb.same name (Beside.ne_var hfree)).1.trans hnone, hb.set hfree _⟩
  | assign name value =>
    refine Sim.assign (hexpr hb value) fun w hsome hfixed => ?_
    have hfree := hb.free (.inr ⟨hn.1, hfixed⟩)
    obtain ⟨hvals, hfix⟩ := hb.same name (Beside.ne_var hfree)
    exact ⟨hvals ▸ hsome, hfix.trans hfixed, hb.set hfree w⟩
  | ifThen cond thenNodes otherwise ihThen ihElse =>
    refine Sim.ifThen (hexpr hb cond) rfl (fun hbarrier => ?_) (hbody ihThen hn.2.2.1 hb hb)
      (hbody ihElse hn.2.2.2 hb hb)
    rwa [containsBarrier_substituteNodes, containsBarrier_substituteNodes] at hbarrier
  | loop inner lo hi body ih =>
    refine Sim.loop (hexpr hb lo) (hexpr hb hi) hb ?_
    intro t t' k _ hb hnone
    have hfree := hb.free (.inl hnone)
    have hne := Beside.ne_var hfree
    refine ⟨(hb.same inner hne).1.trans hnone, ?_⟩
    rw [show (shadows && inner == h.var) = false by simp [hne]]
    exact hbody ih hn.2.2.2 hb (hb.set hfree (.u32 k)).fix
  | block body ih | region _ _ body ih =>
    exact Sim.map (hbody ih hn.2 hb hb)
  | ret =>
    exact Sim.ret (hb.ids.2.trans hb.ids.1.symm) (hb.index.2.trans hb.index.1.symm) hb.pending
  | _ =>
    exact Sim.plain (g := substituteExpr h.var replacement) rfl (plainOperands_of_all (hexpr hb) _)
      (nodeAccesses_shaped m₀ _) hb.pending
      fun _ => ⟨hb.ids, hb.index, rfl, hb.held, hb.copy, hb.same⟩

theorem sim_substituteNodes {ns : List Node}
    (hns : ∀ n ∈ ns, n.Forall (fun _ => True) (AssignsIn h.assigned)) (π : Plan) {t t' : Thread}
    (hb : Beside h t t') : Sim True (Shaped m₀) (Beside h) (runNodes (ρ.on π) ns t)
      (runNodes (ρ.on π) (substituteNodes shadows h.var replacement ns) t') := by
  rw [substituteNodes_eq]
  exact Sim.nodes (fun n _ => hasBody_substituteNode ..)
    (fun n hn π _ _ hu => sim_substituteNode hreplacement (hns n hn) π hu) hb

end Runs

/-- An iteration, and its body with the replacement from an environment that has
another value for the variable, or none. -/
theorem refines_iteration {ρ : Route} {shadows : Bool} {var : Ident} {v : Value}
    {replacement : Expr} {body : List Node} {t t' : Thread} (hnone : t.vals var = none)
    (hids : t'.ids = t.ids) (hindex : t'.index = t.index) (hpending : t'.pending = t.pending)
    (hsame : ∀ key ≠ var, t'.vals key = t.vals key ∧ t'.fixed key = t.fixed key)
    (hreplacement : ∀ {lane : Lane} (seen : List Lane) (m : Memory),
      lane.locals var = t'.vals var → evalExpr ρ.host seen replacement lane m = .ok (v, m))
    (π : Plan) :
    Refines (Outcome.map t.leave <$> runNodes (ρ.on π) body ((t.set var v).fix var))
      (Outcome.map t.leave <$>
        runNodes (ρ.on π) (substituteNodes shadows var replacement body) t') := by
  let h : Held := ⟨t.ids, t.index, (· = var), fun _ => True, var, rfl, v, t'.vals var⟩
  have hstart : Beside h ((t.set var v).fix var) t' :=
    ⟨⟨rfl, hids⟩, ⟨rfl, hindex⟩, hpending, by simp [h], rfl,
      fun key (hne : key ≠ var) => by simpa [hne] using hsame key hne⟩
  have hassigns : ∀ n : Node, n.Forall (fun _ => True) (AssignsIn h.assigned) :=
    Node.forall_of_all (fun _ => trivial) fun n => by cases n <;> trivial
  refine Sim.refines_iff.mpr (Sim.map (relates_eq (R := SameShape) fun m₀ => ?_))
  exact (sim_substituteNodes (fun seen hb _ => hreplacement seen _ hb.copy)
    (fun n _ => hassigns n) π hstart).imp fun u u' _ hu => hu.leave_eq hnone

/-! ## Unrolling -/

mutual

/-- What `p` says of a statement, or else whether it holds in its bodies. -/
def anyNode (p : Node → Option Bool) : Node → Bool
  | .ifThen cond thenNodes otherwise =>
      (p (.ifThen cond thenNodes otherwise)).getD (anyNodes p thenNodes || anyNodes p otherwise)
  | .loop var lo hi body => (p (.loop var lo hi body)).getD (anyNodes p body)
  | .block body => (p (.block body)).getD (anyNodes p body)
  | .region generator sourceRegion body =>
      (p (.region generator sourceRegion body)).getD (anyNodes p body)
  | n => (p n).getD false

def anyNodes (p : Node → Option Bool) : List Node → Bool
  | [] => false
  | n :: ns => anyNode p n || anyNodes p ns

end

variable (body : List Node)

def bodyWritesLoopVar (var : Ident) : Bool :=
  anyNodes (fun
    | .letBind name _ | .assign name _ => some (name == var)
    | .loop inner _ _ _ => if inner = var then some false else none
    | _ => none) body

def bodyContainsAssign : Bool :=
  anyNodes (fun
    | .assign _ _ => some true
    | _ => none) body

def bodyDeclaresLocals : Bool :=
  anyNodes (fun
    | .letBind _ _ => some true
    | .loop .. | .region .. => some false
    | _ => none) body

def exprUnrollCost (e : Expr) : Nat := (e.collect fun _ => [()]).length

mutual

/-- `node_unroll_cost`. The source counts up to the largest `u32`, which is above
the limit. -/
def nodeUnrollCost : Node → Option Nat
  | .letBind _ value | .assign _ value => some (1 + exprUnrollCost value)
  | .store _ index value => some (2 + exprUnrollCost index + exprUnrollCost value)
  | .ifThen cond thenNodes otherwise => do
      return 4 + exprUnrollCost cond + (← unrollBodyCost thenNodes) + (← unrollBodyCost otherwise)
  | .loop _ lo hi body => do
      return 6 + exprUnrollCost lo + exprUnrollCost hi + (← unrollBodyCost body)
  | .block body | .region _ _ body => unrollBodyCost body
  | _ => none

def unrollBodyCost : List Node → Option Nat
  | [] => some 0
  | n :: ns => do return (← nodeUnrollCost n) + (← unrollBodyCost ns)

end

def maxUnrollTripCount : Nat := 16

def maxUnrolledBodyCost : Nat := 64

def literalU32 : Expr → Option UInt32
  | .litU32 value => some value
  | .litI32 value => if 0 ≤ value then some value.toUInt32 else none
  | _ => none

/-- The `count` values from `next` on. -/
def countUp (next : UInt32) : Nat → List UInt32
  | 0 => []
  | count + 1 => next :: countUp (next + 1) count

def unrollValues (lo hi : Expr) (body : List Node) : Option (List UInt32) := do
  let first ← literalU32 lo
  let stop ← literalU32 hi
  guard (first ≤ stop)
  let tripCount := stop.toNat - first.toNat
  guard (tripCount ≠ 0 ∧ tripCount ≤ maxUnrollTripCount)
  let bodyCost ← unrollBodyCost body
  guard (bodyCost * tripCount ≤ maxUnrolledBodyCost)
  return countUp first tripCount

/-- `rewrite_node` on a statement with its bodies rewritten. -/
def unrollNode : Node → List Node
  | .loop var lo hi body =>
      match unrollValues lo hi body with
      | some values =>
          if bodyWritesLoopVar body var || bodyContainsAssign body then [.loop var lo hi body]
          else if bodyDeclaresLocals body then
            values.map fun value => .block (substituteNodes true var (.litU32 value) body)
          else values.flatMap fun value => substituteNodes true var (.litU32 value) body
      | none => [.loop var lo hi body]
  | n => [n]

/-- `LoopUnroll::transform`. -/
def unrollTransform (p : Program) : Program :=
  { p with entry := flatRewriteList unrollNode p.entry }

section Unroll

variable {ρ : Route} {t : Thread} {var : Ident} {body : List Node}

theorem runNode_loop_literal {lo hi : Expr} {first stop : UInt32} (hlo : literalU32 lo = some first)
    (hhi : literalU32 hi = some stop) : runNode ρ (.loop var lo hi body) t =
      runLoop (runNodes (ρ.into .inner) body) var (stop.toNat - first.toNat) first t := by
  have hlit : ∀ {e : Expr} {k : UInt32}, literalU32 e = some k → ∃ v : Value,
      (∀ m, evalExpr ρ.host [t.lane] e t.lane m = .ok (v, m)) ∧
        v.tryAsU32 ρ.host.floats = some k := by
    intro e k h
    cases e with
    | litU32 value => exact ⟨.u32 value, fun _ => rfl, h⟩
    | litI32 value => exact ⟨.i32 value, fun _ => rfl, h⟩
    | _ => cases h
  obtain ⟨v, hv, hfirst⟩ := hlit hlo
  obtain ⟨w, hw, hstop⟩ := hlit hhi
  funext m
  exact bind_of_ok (loopBounds_eq_ok.mpr ⟨v, m, w, hv m, hfirst, hw m, hstop⟩)

/-- Some plan makes the copies run as the iterations, when one does for each. -/
theorem refines_copies {π : Plan} {copy : UInt32 → List Node} (hcopy : ∀ k, ∃ π', ∀ t,
      t.vals var = none →
      Refines (Outcome.map t.leave <$> runNodes (ρ.on π) body ((t.set var (.u32 k)).fix var))
        (runNodes (ρ.on π') (copy k) t)) (left : Nat) (next : UInt32) :
    ∃ π', ∀ t, Refines (runLoop (runNodes (ρ.on π) body) var left next t)
      (runNodes (ρ.on π') ((countUp next left).flatMap copy) t) := by
  induction left generalizing next with
  | zero => exact ⟨π, fun t => .rfl⟩
  | succ left ih =>
    obtain ⟨π₁, hfirst⟩ := hcopy next
    obtain ⟨π₂, hrest⟩ := ih (next + 1)
    refine ⟨.append (copy next) π₁ π₂, fun t m r hrun => ?_⟩
    obtain ⟨hnone, out, m₁, hout, hrun⟩ := runLoop_succ_eq_ok.mp hrun
    rw [countUp, List.flatMap_cons, runNodes_append]
    refine bind_eq_ok.mpr ⟨out.map t.leave, m₁,
      hfirst t hnone m _ (map_eq_ok.mpr ⟨out, m₁, hout, rfl⟩), ?_⟩
    cases out with
    | returned u => exact hrun
    | next u => exact hrest (t.leave u) m₁ r hrun

theorem leave_of_leave {t₁ : Thread} (h : t.leave t₁ = t₁) (u : Thread) :
    t.leave (t₁.leave u) = t₁.leave u := by
  refine Thread.ext rfl rfl (funext fun key => ?_) (show t.fixed = t₁.fixed by rw [← h]; rfl) rfl
  rw [Thread.leave_vals, ← h]
  by_cases hkey : (t.vals key).isSome = true
  · rw [if_pos hkey]
  · rw [if_neg hkey, Thread.leave_vals, Thread.leave_vals, if_neg hkey]
    rfl

theorem leave_node {n : Node} (hn : ∀ name value, n ≠ .letBind name value) (π : Plan) (t : Thread) :
    GoesOn (fun u => t.leave u = u) (runNode (ρ.on π) n t) := by
  suffices h : Sim True Eq (fun u u' => u = u' ∧ t.leave u = u) (runNode (ρ.on π) n t)
      (runNode (ρ.on π) n t) by
    intro m u m' hrun
    obtain ⟨out, -, -, hout, -⟩ := h m m _ m' rfl hrun
    cases out with
    | next u' => exact hout.2
    | returned u' => exact hout.elim
  have hbody : ∀ {t₁ : Thread} (ns : List Node) (π : Plan) (t₂ : Thread), t.leave t₁ = t₁ →
      Sim True Eq (fun u u' => t₁.leave u = t₁.leave u' ∧ t.leave (t₁.leave u) = t₁.leave u)
        (runNodes (ρ.on π) ns t₂) (runNodes (ρ.on π) ns t₂) :=
    fun {t₁} ns π t₂ h =>
      (Sim.refines_iff.mp .rfl).imp fun u _ _ hu => ⟨by rw [hu], leave_of_leave h u⟩
  cases n with
  | letBind name value => exact absurd rfl (hn name value)
  | assign name value =>
    refine Sim.assign (respects_eq _) fun v hsome hfixed => ⟨hsome, hfixed, rfl, ?_⟩
    refine Thread.ext rfl rfl (funext fun key => ?_) rfl rfl
    rw [Thread.leave_vals, Thread.set_vals]
    by_cases hkey : key = name
    · rw [hkey, if_pos hsome]
    · rw [if_neg hkey]
      exact congrFun (Thread.leave_vals_of_eq rfl) key
  | ifThen cond thenNodes otherwise =>
    exact Sim.ifThen (respects_eq _) rfl id (hbody thenNodes _ t t.leave_self)
      (hbody otherwise _ t t.leave_self)
  | loop var lo hi body =>
    refine Sim.loop (respects_eq _) (respects_eq _) ⟨rfl, t.leave_self⟩ ?_
    rintro t₁ _ k - ⟨rfl, h⟩ hnone
    exact ⟨hnone, hbody body _ _ h⟩
  | block body | region _ _ body => exact Sim.map (hbody body _ t t.leave_self)
  | ret => exact Sim.ret rfl rfl rfl
  | _ =>
    exact Sim.plain (g := id) rfl (plainOperands_of_all (fun _ => respects_eq _) _)
      (nodeAccesses_eq _) rfl
      fun pending => ⟨rfl, congrArg (fun t => { t with pending }) t.leave_self⟩

theorem leave_nodes {ns : List Node} (hns : ∀ n ∈ ns, ∀ name value, n ≠ .letBind name value)
    (π : Plan) (t : Thread) : GoesOn (fun u => t.leave u = u) (runNodes (ρ.on π) ns t) := by
  induction ns generalizing π t with
  | nil =>
    intro m u m' hrun
    cases hrun
    exact t.leave_self
  | cons n ns ih =>
    intro m u m' hrun
    obtain ⟨out, m₁, hn, hrest⟩ := bind_eq_ok.mp hrun
    cases out with
    | returned u₁ => cases hrest
    | next u₁ =>
      rw [← ih (fun n hn => hns n (by simp [hn])) (π.after n) u₁ m₁ u m' hrest]
      exact leave_of_leave (leave_node (hns n (by simp)) π t m u₁ m₁ hn) u

theorem anyNodes_eq_false {p : Node → Option Bool} {ns : List Node} (h : anyNodes p ns = false) :
    ∀ n ∈ ns, anyNode p n = false := by
  induction ns with
  | nil => simp
  | cons n ns ih =>
    obtain ⟨hn, hns⟩ := Bool.or_eq_false_iff.mp h
    exact List.forall_mem_cons.mpr ⟨hn, ih hns⟩

theorem substituteNodes_ne_letBind (h : bodyDeclaresLocals body = false) {replacement : Expr}
    {shadows : Bool} :
    ∀ n ∈ substituteNodes shadows var replacement body, ∀ name value, n ≠ .letBind name value := by
  rw [substituteNodes_eq]
  simp only [List.mem_map]
  rintro _ ⟨n, hn, rfl⟩ name value heq
  have hany := anyNodes_eq_false h n hn
  cases n <;> cases heq
  cases hany

theorem unrollValues_eq_some {lo hi : Expr} {values : List UInt32}
    (h : unrollValues lo hi body = some values) : ∃ first stop, literalU32 lo = some first ∧
      literalU32 hi = some stop ∧ values = countUp first (stop.toNat - first.toNat) := by
  simp only [unrollValues, Option.bind_eq_bind, Option.bind_eq_some_iff, Option.pure_def,
    Option.some.injEq] at h
  obtain ⟨first, hlo, stop, hhi, _, _, _, _, _, _, _, _, rfl⟩ := h
  exact ⟨first, stop, hlo, hhi, rfl⟩

/-- Copies of a body stand for the loop, when each of them runs as its iteration. -/
theorem replaces_copies {lo hi : Expr} {first stop : UInt32} (hlo : literalU32 lo = some first)
    (hhi : literalU32 hi = some stop) {copy : UInt32 → List Node}
    (hbarriers : ∀ k, containsBarrier (copy k) = true → containsBarrier body = true)
    (hcopy : ∀ (π : Plan) k, ∃ π', ∀ t, t.vals var = none →
      Refines (Outcome.map t.leave <$> runNodes (ρ.on π) body ((t.set var (.u32 k)).fix var))
        (runNodes (ρ.on π') (copy k) t)) :
    Replaces ρ [.loop var lo hi body]
      ((countUp first (stop.toNat - first.toNat)).flatMap copy) where
  barriers hb := by
    rw [containsBarrier_eq_any, List.any_flatMap, List.any_eq_true] at hb
    obtain ⟨k, -, hb⟩ := hb
    rw [← containsBarrier_eq_any] at hb
    simp [containsBarrier, nodeContainsBarrier, hbarriers k hb]
  runs π := by
    obtain ⟨π', hcopies⟩ :=
      refines_copies (hcopy (π.under .inner)) (stop.toNat - first.toNat) first
    refine ⟨π', fun t => ?_⟩
    rw [runNodes_single, runNode_loop_literal hlo hhi]
    exact hcopies t

theorem replaces_unrollNode (ρ : Route) (n : Node) : Replaces ρ [n] (unrollNode n) := by
  cases n with
  | loop var lo hi body =>
    have hiteration : ∀ (π : Plan) k t, t.vals var = none →
        Refines (Outcome.map t.leave <$> runNodes (ρ.on π) body ((t.set var (.u32 k)).fix var))
          (Outcome.map t.leave <$>
            runNodes (ρ.on π) (substituteNodes true var (.litU32 k) body) t) :=
      fun π k t hnone =>
        refines_iteration hnone rfl rfl rfl (fun _ _ => ⟨rfl, rfl⟩) (fun _ _ _ => rfl) π
    rw [unrollNode]
    split
    case h_1 values hvalues =>
      obtain ⟨first, stop, hlo, hhi, rfl⟩ := unrollValues_eq_some hvalues
      split
      · exact .refl ρ _
      split
      case isTrue =>
        rw [List.map_eq_flatMap]
        refine replaces_copies hlo hhi (fun k hb => ?_) fun π k =>
          ⟨.node false π π, fun t hnone => ?_⟩
        · simpa [containsBarrier, nodeContainsBarrier, containsBarrier_substituteNodes] using hb
        · rw [runNodes_single]
          exact hiteration π k t hnone
      case isFalse hlocals =>
        refine replaces_copies hlo hhi (fun k hb => ?_) fun π k => ⟨π, fun t hnone m r hrun => ?_⟩
        · rwa [containsBarrier_substituteNodes] at hb
        · obtain ⟨out, m₁, hout, rfl⟩ := map_eq_ok.mp (hiteration π k t hnone m r hrun)
          rw [hout]
          cases out with
          | returned u => rfl
          | next u =>
            have hu :=
              leave_nodes (substituteNodes_ne_letBind (by simpa using hlocals)) π t m u m₁ hout
            rw [Outcome.map, hu]
    case h_2 => exact .refl ρ _
  | _ => exact .refl ρ _

theorem replaces_unrollTransform (ρ : Route) (p : Program) :
    Replaces ρ p.entry (unrollTransform p).entry :=
  replaces_flatRewriteList (replaces_unrollNode ρ) p.entry

end Unroll

section Runs

variable {host : Host} {debugIds : InvocationIds → String} {ids : InvocationIds} {index : UInt32}
  {m m' : Memory}

end Runs

def storesIndex : Program :=
  wordProgram [.loop "i" (.litU32 1) (.litU32 3) [.store "out" (.var "i") (.var "i")]]

theorem storesIndex_runs : ∃ m', RunsFirst storesIndex [0] [0, 0, 0] m' :=
  ⟨_, runsFirst ⟨_, rfl, rfl⟩⟩

/-- Divides by the variable of a loop from zero. -/
def dividesByIndex : Program :=
  wordProgram [.loop "i" (.litU32 0) (.litU32 2)
    [.store "out" (.var "i") (.binOp .div (.litU32 10) (.var "i"))]]

def bodyRebindsVar (var : Ident) : Bool :=
  anyNodes (fun
    | .assign name _ | .letBind name _ => some (name == var)
    | .loop inner _ _ _ => if inner = var then some true else none
    | _ => none) body

/-- `recurse` on a statement with its bodies rewritten. -/
def normalizeNode : Node → Node
  | .loop var (.litU32 lo) (.litU32 hi) body =>
      if lo > 0 ∧ hi ≥ lo ∧ bodyRebindsVar body var = false then
        .loop var (.litU32 0) (.litU32 (hi - lo))
          (substituteNodes false var (.binOp .add (.var var) (.litU32 lo)) body)
      else .loop var (.litU32 lo) (.litU32 hi) body
  | n => n

/-- `LoopLowerBoundNormalize::transform`. -/
def normalizeTransform (p : Program) : Program :=
  { p with entry := flatRewriteList (fun n => [normalizeNode n]) p.entry }

section Normalize

variable {ρ : Route} {t : Thread} {var : Ident} {body : List Node}

theorem runLoop_shifted {shadows : Bool} (π : Plan) (lo : UInt32) (left : Nat) (next : UInt32)
    (t : Thread) :
    Refines (runLoop (runNodes (ρ.on π) body) var left (next + lo) t)
      (runLoop (runNodes (ρ.on π)
        (substituteNodes shadows var (.binOp .add (.var var) (.litU32 lo)) body)) var left
          next t) := by
  induction left generalizing next t with
  | zero => exact .rfl
  | succ left ih =>
    intro m r hrun
    obtain ⟨hnone, out, m₁, hout, hrun⟩ := runLoop_succ_eq_ok.mp hrun
    have hsum : ∀ {lane : Lane} (seen : List Lane) (m : Memory),
        lane.locals var = ((t.set var (.u32 next)).fix var).vals var →
        evalExpr ρ.host seen (.add (.var var) (.u32 lo)) lane m = .ok (.u32 (next + lo), m) := by
      intro lane seen m hvar
      have hval : lane.locals var = some (.u32 next) := hvar.trans (by simp)
      show (orFail (lane.locals var) _ >>= _) m = _
      rw [hval]
      rfl
    have hiteration : Refines
        (Outcome.map t.leave <$> runNodes (ρ.on π) body ((t.set var (.u32 (next + lo))).fix var))
        (Outcome.map t.leave <$> runNodes (ρ.on π)
          (substituteNodes shadows var (.add (.var var) (.u32 lo)) body)
          ((t.set var (.u32 next)).fix var)) := by
      refine refines_iteration hnone ?_ ?_ ?_ (fun key hkey => ?_) hsum π
      · rfl
      · rfl
      · rfl
      · simp [hkey]
    obtain ⟨out', m₁', hout', heq⟩ :=
      map_eq_ok.mp (hiteration m _ (map_eq_ok.mpr ⟨out, m₁, hout, rfl⟩))
    obtain ⟨hmap, rfl⟩ := Prod.mk.inj heq
    refine runLoop_succ_eq_ok.mpr ⟨hnone, out', m₁, hout', ?_⟩
    have hnext : next + lo + 1 = next + 1 + lo := by
      rw [UInt32.add_assoc, UInt32.add_comm lo, ← UInt32.add_assoc]
    cases out with
    | returned u =>
      cases out' <;> cases hmap
      exact hrun
    | next u =>
      cases out' with
      | returned u' => cases hmap
      | next u' =>
        rw [hnext] at hrun
        have hrun := ih (next + 1) (t.leave u) m₁ r hrun
        rwa [Outcome.next.inj hmap] at hrun

theorem replaces_normalizeNode (ρ : Route) (n : Node) : Replaces ρ [n] [normalizeNode n] := by
  fun_cases normalizeNode n
  case case1 var lo hi body h =>
    refine ⟨fun hb => ?_, fun π => ⟨π, fun t m r hrun => ?_⟩⟩
    · simpa [containsBarrier, nodeContainsBarrier, containsBarrier_substituteNodes] using hb
    · rw [runNodes_single, runNode_loop_literal rfl rfl] at hrun ⊢
      rw [UInt32.toNat_sub_of_le _ _ h.2.1]
      refine runLoop_shifted _ lo (hi.toNat - lo.toNat) 0 t m r ?_
      rwa [UInt32.zero_add]
  all_goals exact .refl ρ _

theorem replaces_normalizeTransform (ρ : Route) (p : Program) :
    Replaces ρ p.entry (normalizeTransform p).entry :=
  replaces_flatRewriteList (replaces_normalizeNode ρ) p.entry

end Normalize

section Runs

variable {host : Host} {debugIds : InvocationIds → String} {ids : InvocationIds} {index : UInt32}
  {m m' : Memory}

end Runs

/-- Stores an expression of the greatest depth, with the variable of a loop in it. -/
def storesDeep : Program :=
  wordProgram [.loop "i" (.litU32 1) (.litU32 2)
    [.store "out" (.litU32 0) (Nat.repeat (.unOp .bitNot) 128 (.var "i"))]]

section Deep

set_option maxRecDepth 2000

end Deep

end Vyre.LoopSubstitution
