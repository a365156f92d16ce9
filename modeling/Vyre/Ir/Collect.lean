import Vyre.Ir.Program

/-!
# Collecting from program text

What a function finds in the expressions and statements of a program, and its
agreement with `Expr.Forall` and `Node.Forall`.
-/

namespace Vyre

open List Node

/-- The buffer that an expression names itself. -/
def exprBuffer : Expr → Option Ident
  | .load buffer _ | .bufLen buffer | .atomic _ buffer _ _ _ _ => some buffer
  | _ => none

/-- The buffers that a statement names itself. -/
def nodeBuffers : Node → List Ident
  | .store buffer _ _ => [buffer]
  | .indirectDispatch countBuffer _ => [countBuffer]
  | .asyncLoad source destination _ _ _ | .asyncStore source destination _ _ _ =>
      [source, destination]
  | .allReduce buffer _ _ => [buffer]
  | .allGather input output _ => [input, output]
  | .reduceScatter input output _ _ => [input, output]
  | .broadcast buffer _ _ => [buffer]
  | _ => []

section Collect

variable {α : Type}

mutual

/-- What `f` finds in the expression and in every expression inside it. -/
def Expr.collect (f : Expr → List α) : Expr → List α
  | .load buffer index => f (.load buffer index) ++ index.collect f
  | .binOp op left right => f (.binOp op left right) ++ left.collect f ++ right.collect f
  | .unOp op operand => f (.unOp op operand) ++ operand.collect f
  | .call opId args => f (.call opId args) ++ Expr.collectArgs f args
  | .select cond trueVal falseVal => f (.select cond trueVal falseVal) ++
      cond.collect f ++ trueVal.collect f ++ falseVal.collect f
  | .cast target value => f (.cast target value) ++ value.collect f
  | .fma a b c => f (.fma a b c) ++ a.collect f ++ b.collect f ++ c.collect f
  | .atomic op buffer index expected value ordering =>
      f (.atomic op buffer index expected value ordering) ++
        index.collect f ++ Expr.collectExpected f expected ++ value.collect f
  | .subgroupBallot cond => f (.subgroupBallot cond) ++ cond.collect f
  | .subgroupShuffle value lane =>
      f (.subgroupShuffle value lane) ++ value.collect f ++ lane.collect f
  | .subgroupAdd value => f (.subgroupAdd value) ++ value.collect f
  | e => f e

def Expr.collectExpected (f : Expr → List α) : Option Expr → List α
  | none => []
  | some e => e.collect f

def Expr.collectArgs (f : Expr → List α) : List Expr → List α
  | [] => []
  | e :: es => e.collect f ++ Expr.collectArgs f es

end

mutual

/-- What `f` finds in the expressions and `g` in the statements of a statement. -/
def Node.collect (f : Expr → List α) (g : Node → List α) : Node → List α
  | .letBind name value => g (.letBind name value) ++ value.collect f
  | .assign name value => g (.assign name value) ++ value.collect f
  | .store buffer index value => g (.store buffer index value) ++ index.collect f ++ value.collect f
  | .ifThen cond thenNodes otherwise => g (.ifThen cond thenNodes otherwise) ++
      cond.collect f ++ collectList f g thenNodes ++ collectList f g otherwise
  | .loop var lo hi body => g (.loop var lo hi body) ++
      lo.collect f ++ hi.collect f ++ collectList f g body
  | .asyncLoad source destination offset size tag =>
      g (.asyncLoad source destination offset size tag) ++ offset.collect f ++ size.collect f
  | .asyncStore source destination offset size tag =>
      g (.asyncStore source destination offset size tag) ++ offset.collect f ++ size.collect f
  | .trap address tag => g (.trap address tag) ++ address.collect f
  | .block body => g (.block body) ++ collectList f g body
  | .region generator sourceRegion body =>
      g (.region generator sourceRegion body) ++ collectList f g body
  | n => g n

def Node.collectList (f : Expr → List α) (g : Node → List α) : List Node → List α
  | [] => []
  | n :: ns => n.collect f g ++ collectList f g ns

end

variable {f : Expr → List α} {g : Node → List α} {P : α → Prop}

theorem Expr.forall_iff_collect {e : Expr} :
    (e.Forall fun e => ∀ a ∈ f e, P a) ↔ ∀ a ∈ e.collect f, P a := by
  have hargs : ∀ {es : List Expr},
      (∀ e ∈ es, (e.Forall fun e => ∀ a ∈ f e, P a) ↔ ∀ a ∈ e.collect f, P a) →
      (Expr.ForallArgs (fun e => ∀ a ∈ f e, P a) es ↔ ∀ a ∈ Expr.collectArgs f es, P a) := by
    intro es ih
    induction es with
    | nil => simp [Expr.collectArgs]
    | cons e es ihs =>
      rw [Expr.ForallArgs, Expr.collectArgs, forall_mem_append, ih e (by simp),
        ihs fun x hx => ih x (by simp [hx])]
  induction e with
  | call opId args ih =>
    rw [Expr.Forall, Expr.collect, forall_mem_append, hargs ih]
  | atomic _ _ _ expected _ _ ihi ihe ihv =>
    cases expected with
    | none => simp only [Expr.Forall, Expr.ForallExpected, Expr.collect, Expr.collectExpected,
        forall_mem_append, ihi, ihv, append_nil, true_and, and_assoc]
    | some x =>
      simp only [Expr.Forall, Expr.ForallExpected, Expr.collect, Expr.collectExpected,
        forall_mem_append, ihi, ihe x rfl, ihv, and_assoc]
  | _ => simp only [Expr.Forall, Expr.collect, forall_mem_append, and_assoc, *]

theorem Node.forallList_iff_collect {ns : List Node}
    (h : ∀ n ∈ ns, (n.Forall (fun e => ∀ a ∈ f e, P a) fun n => ∀ a ∈ g n, P a) ↔
      ∀ a ∈ n.collect f g, P a) :
    (Node.ForallList (fun e => ∀ a ∈ f e, P a) (fun n => ∀ a ∈ g n, P a) ns) ↔
      ∀ a ∈ collectList f g ns, P a := by
  induction ns with
  | nil => simp [collectList]
  | cons n ns ih =>
    rw [Node.ForallList, collectList, forall_mem_append, h n (by simp),
      ih fun m hm => h m (by simp [hm])]

theorem Node.forall_iff_collect {n : Node} :
    (n.Forall (fun e => ∀ a ∈ f e, P a) fun n => ∀ a ∈ g n, P a) ↔
      ∀ a ∈ n.collect f g, P a := by
  induction n with
  | ifThen cond thenNodes otherwise iht iho =>
    simp only [Node.Forall, collect, forall_mem_append, Expr.forall_iff_collect,
      forallList_iff_collect iht, forallList_iff_collect iho, and_assoc]
  | loop var lo hi body ih =>
    simp only [Node.Forall, collect, forall_mem_append, Expr.forall_iff_collect,
      forallList_iff_collect ih, and_assoc]
  | block body ih | region _ _ body ih =>
    simp only [Node.Forall, collect, forall_mem_append, forallList_iff_collect ih]
  | _ =>
    simp only [Node.Forall, collect, forall_mem_append, Expr.forall_iff_collect, and_assoc]

end Collect

end Vyre
