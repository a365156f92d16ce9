import Vyre.Optimizer.ExprRewrite

/-!
# Literal propagation

`reaching_def_propagate.rs`: a name that one `let` of the whole program binds,
to a literal, and that no assignment and no loop binds again, is replaced by the
literal wherever it is read.
-/

namespace Vyre.ReachingDef

open Reference Reference.Eval StateExcept NodeMap ExprRewrite List Node

/-- The columns of `ProgramFacts` that the pass reads. A node index stands for
its statement, so a `let` is listed with its value. -/
structure ProgramFacts where
  lets : List (Ident × Expr)
  assigns : List Ident
  loopVars : List Ident

def letsOf : Node → List (Ident × Expr)
  | .letBind name value => [(name, value)]
  | _ => []

def assignsOf : Node → List Ident
  | .assign name _ => [name]
  | _ => []

def loopVarsOf : Node → List Ident
  | .loop var _ _ _ => [var]
  | _ => []

def ProgramFacts.build (entry : List Node) : ProgramFacts where
  lets := collectList (fun _ => []) letsOf entry
  assigns := collectList (fun _ => []) assignsOf entry
  loopVars := collectList (fun _ => []) loopVarsOf entry

def ProgramFacts.isNameRebound (facts : ProgramFacts) (name : Ident) : Bool :=
  1 < (facts.lets.filter (·.1 == name)).length || facts.assigns.contains name ||
    facts.loopVars.contains name

def isLiteral : Expr → Bool
  | .litU32 _ | .litI32 _ | .litF32 _ | .litBool _ => true
  | _ => false

/-- The insertions of `scan_for_literal_lets`, in the order of its walk. -/
def literalLets (candidates : List Ident) (entry : List Node) : List (Ident × Expr) :=
  (collectList (fun _ => []) letsOf entry).filter fun site =>
    candidates.contains site.1 && isLiteral site.2

open ProgramFacts

/-- `collect_propagatable_lets_with_values`: the last insertion of a name counts. -/
def collectPropagatableLets (entry : List Node) (name : Ident) : Option Expr :=
  let facts := build entry
  let candidates := (facts.lets.map (·.1)).filter fun name => !facts.isNameRebound name
  ((literalLets candidates entry).reverse.find? (·.1 == name)).map (·.2)

def substituteExpr (propagations : Ident → Option Expr) : Expr → Expr :=
  rewriteExpr fun
    | .var name => propagations name
    | _ => none

/-- `substitute_node`, for every statement. -/
def substitution (propagations : Ident → Option Expr) : Walk Unit where
  init := ()
  next _ _ := ()
  expr _ _ := substituteExpr propagations

def transform (p : Program) : Program :=
  { p with entry := (substitution (collectPropagatableLets p.entry)).nodes () p.entry }

def Respects (propagations : Ident → Option Expr) : Node → Prop
  | .letBind name value => ∀ e, propagations name = some e → value = e
  | .assign name _ | .loop name _ _ _ => propagations name = none
  | _ => True

variable {entry : List Node} {name : Ident} {e : Expr}

theorem forall_collected {α : Type} {g : Node → List α} {P : α → Prop} :
    (∀ a ∈ collectList (fun _ => []) g entry, P a) ↔
      ∀ n ∈ entry, n.Forall (fun _ => True) fun n => ∀ a ∈ g n, P a := by
  rw [← forallList_iff_collect fun n _ => forall_iff_collect]
  simp

/-- A propagated name is bound to its literal, by one `let` and nothing else. -/
theorem of_collectPropagatableLets (h : collectPropagatableLets entry name = some e) :
    isLiteral e = true ∧ (name, e) ∈ (build entry).lets ∧
      (build entry).isNameRebound name = false := by
  obtain ⟨a, hfind, rfl⟩ := Option.map_eq_some_iff.mp h
  obtain ⟨hlet, hkept⟩ := mem_filter.mp (mem_reverse.mp (mem_of_find?_eq_some hfind))
  rw [Bool.and_eq_true, contains_iff_mem] at hkept
  have heq : a.1 = name := by simpa using find?_some hfind
  subst heq
  exact ⟨hkept.2, hlet, by simpa using (mem_filter.mp hkept.1).2⟩

theorem respects_collected :
    Node.ForallList (fun _ => True) (Respects (collectPropagatableLets entry)) entry := by
  refine forallList_iff.mpr fun n hn => ?_
  have hlets := (@forall_collected entry _ letsOf (· ∈ (build entry).lets)).mp
    (fun _ h => h) n hn
  have hassigns := (@forall_collected entry _ assignsOf (· ∈ (build entry).assigns)).mp
    (fun _ h => h) n hn
  have hloops := (@forall_collected entry _ loopVarsOf (· ∈ (build entry).loopVars)).mp
    (fun _ h => h) n hn
  refine (hlets.and (hassigns.and hloops)).imp (fun _ _ => trivial) fun n hn => ?_
  obtain ⟨hlet, hassign, hloop⟩ := hn
  have hnone : ∀ name, (build entry).isNameRebound name = true →
      collectPropagatableLets entry name = none := by
    intro name hrebound
    cases hprop : collectPropagatableLets entry name with
    | none => rfl
    | some e =>
      rw [(of_collectPropagatableLets hprop).2.2] at hrebound
      cases hrebound
  cases n with
  | letBind name value =>
    intro e hprop
    obtain ⟨-, hmem, hrebound⟩ := of_collectPropagatableLets hprop
    simp only [isNameRebound, Bool.or_eq_false_iff, decide_eq_false_iff_not] at hrebound
    -- Both are among the lets of the name, and there is no second one.
    have hsites : ∀ v, (name, v) ∈ (build entry).lets →
        (name, v) ∈ (build entry).lets.filter (·.1 == name) :=
      fun v hv => mem_filter.mpr ⟨hv, by simp⟩
    have hfirst := hsites e hmem
    have hsecond := hsites value (hlet _ (by simp [letsOf]))
    obtain ⟨only, honly⟩ := length_eq_one_iff.mp
      (Nat.le_antisymm (Nat.not_lt.mp hrebound.1.1) (length_pos_of_mem hfirst))
    rw [honly, mem_singleton] at hfirst hsecond
    exact (Prod.mk.inj (hsecond.trans hfirst.symm)).2
  | assign name value =>
    refine hnone name ?_
    simp [isNameRebound, hassign name (by simp [assignsOf])]
  | loop var lo hi body =>
    refine hnone var ?_
    simp [isNameRebound, hloop var (by simp [loopVarsOf])]
  | _ => trivial

section Runs

variable {host : Host} {propagations : Ident → Option Expr} {t t' : Thread}

/-- A propagated name that is bound has the value of its literal. -/
def Holds (host : Host) (propagations : Ident → Option Expr) (t : Thread) : Prop :=
  ∀ name e, propagations name = some e → ∀ v, t.vals name = some v →
    ∀ seen lane m, evalExpr host seen e lane m = .ok (v, m)

theorem Holds.leave (h' : Holds host propagations t') : Holds host propagations (t.leave t') := by
  intro name e hprop v hv
  rw [Thread.leave_vals] at hv
  split at hv
  · exact h' name e hprop v hv
  · cases hv

theorem Holds.set (h : Holds host propagations t) {v : Value}
    (hv : ∀ e, propagations name = some e → ∀ seen lane m,
      evalExpr host seen e lane m = .ok (v, m)) :
    Holds host propagations (t.set name v) := by
  intro x e hprop v' hv'
  by_cases hx : x = name
  · subst hx
    cases (if_pos rfl).symm.trans hv'
    exact hv e hprop
  · exact h x e hprop v' ((if_neg hx).symm.trans hv')

theorem Holds.set_of_none (h : Holds host propagations t) (hname : propagations name = none)
    (v : Value) : Holds host propagations (t.set name v) :=
  h.set fun _ he => absurd (hname.symm.trans he) nofun

theorem evalExpr_literal (he : isLiteral e = true) {seen : List Lane} {lane : Lane} {m m' : Memory}
    {v : Value} (h : evalExpr host seen e lane m = .ok (v, m')) (seen' : List Lane) (lane' : Lane)
    (s : Memory) : evalExpr host seen' e lane' s = .ok (v, s) := by
  cases e <;> cases he <;> cases h <;> rfl

theorem steps_holds (hliteral : ∀ name e, propagations name = some e → isLiteral e = true) :
    Steps host (fun t t' => Holds host propagations t → Holds host propagations t')
      (Respects propagations) where
  refl _ := id
  trans h h' ht := h' (h ht)
  leave h ht := (h ht).leave
  pending _ _ ht := ht
  letBind hn _ hv ht := by
    refine ht.set fun e he => ?_
    cases hn e he
    exact evalExpr_literal (hliteral _ _ he) hv
  assign v hn _ ht := ht.set_of_none hn v
  loopVar v hn _ ht := ht.set_of_none hn v

theorem refines_substituteExpr (ht : Holds host propagations t) (e : Expr) :
    Refines (evalExpr host [t.lane] e t.lane)
      (evalExpr host [t.lane] (substituteExpr propagations e) t.lane) := by
  refine refines_rewriteExpr (Q := fun _ => True) (fun {e} _ => by cases e <;> simp [Operands])
    (fun seen e _ => ?_) trivial
  rw [rewriteExpr_eq]
  cases mapOperands (rewriteExpr _) e with
  | var name =>
    cases hprop : propagations name with
    | none => simp [replaced, hprop, Refines.rfl]
    | some e =>
      intro m r h
      obtain ⟨hv, hm⟩ := orFail_eq_ok.mp (show orFail (t.vals name) _ m = .ok (r.1, r.2) from h)
      simpa [replaced, hprop, hm] using ht name e hprop r.1 hv seen t.lane m
  | _ => exact .rfl

theorem checked_iff {ns : List Node} {Q : Node → Prop} :
    (substitution propagations).Checked (fun _ n => n.Forall (fun _ => True) Q) () ns ↔
      Node.ForallList (fun _ => True) Q ns := by
  induction ns with
  | nil => exact Iff.rfl
  | cons n ns ih => exact and_congr_right fun _ => ih

theorem sound_substitution (ρ : Route)
    (hliteral : ∀ name e, propagations name = some e → isLiteral e = true) :
    (substitution propagations).Sound ρ (fun _ => Holds ρ.host propagations)
      fun _ n => n.Forall (fun _ => True) (Respects propagations) where
  expr ht _ := refines_substituteExpr ht
  step hn ht π m t' m' hrun := (steps_holds hliteral).node hn π _ m t' m' hrun ht
  bodies {s n} hn := by
    cases n with
    | ifThen cond thenNodes otherwise => exact ⟨checked_iff.mpr hn.2.2.1, checked_iff.mpr hn.2.2.2⟩
    | loop var lo hi body => exact checked_iff.mpr hn.2.2.2
    | block body | region _ _ body => exact checked_iff.mpr hn.2
    | _ => trivial
  enter := id
  loopVar hn ht hbind := by
    rw [(Thread.bindLoopVar_eq_ok.mp hbind).2]
    exact ht.set_of_none hn.1 _
  leave _ ht' := ht'.leave

end Runs

section Pass

variable {host : Host} {debugIds : InvocationIds → String} {p : Program} {ids : InvocationIds}
  {index : UInt32} {m m' : Memory}

/-- Propagating literals keeps the run of an invocation that ends without an
error, and what it leaves in the buffers. -/
theorem runsAlone_transform (hids : Function.Injective host.nodeId)
    (h : RunsAlone host debugIds p.entry ids index m m') :
    RunsAlone host debugIds (transform p).entry ids index m m' := by
  refine Walk.Sound.runsAlone (I := fun _ => Holds host (collectPropagatableLets p.entry))
    (fun ρ hρ => hρ ▸ sound_substitution ρ fun _ _ h => (of_collectPropagatableLets h).1)
    (checked_iff.mpr respects_collected) (fun _ _ _ _ hv => ?_) hids h
  cases hv

end Pass

def literalInBranch : Program :=
  wordProgram [.ifThen (.litBool true) [.letBind "x" (.litU32 7), .store "b" (.litU32 0) (.var "x"),
    .store "out" (.litU32 0) (.binOp .add (.var "x") (.litU32 1))] []]

/-- Divides by a name that is zero. -/
def divideByName : Program :=
  wordProgram [.letBind "z" (.litU32 0),
    .store "out" (.litU32 0) (.binOp .div (.litU32 10) (.var "z"))]

end Vyre.ReachingDef
