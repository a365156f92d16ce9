import Mathlib.Algebra.Order.Ring.Nat
import Mathlib.Data.List.Forall2

/-!
# Failing computations that keep their state

A state that survives a failure, and total triples: from a state in the
precondition the computation succeeds.
-/

namespace ExceptState

variable {σ ε α β : Type}

def exec (x : ExceptT ε (StateM σ) α) (s : σ) : Except ε α × σ := x s

@[simp] theorem exec_get (s : σ) : exec (get : ExceptT ε (StateM σ) σ) s = (.ok s, s) := rfl

@[simp] theorem exec_set (t s : σ) :
    exec (set t : ExceptT ε (StateM σ) PUnit) s = (.ok ⟨⟩, t) := rfl

@[simp] theorem exec_liftExcept (r : Except ε α) (s : σ) :
    exec (liftExcept r : ExceptT ε (StateM σ) α) s = (r, s) := by
  cases r <;> rfl

variable {f : α → ExceptT ε (StateM σ) β}

theorem exec_bind_ok {x : ExceptT ε (StateM σ) α} {s s' : σ}
    {a : α} (h : exec x s = (.ok a, s')) : exec (x >>= f) s = exec (f a) s' := by
  show (x s >>= fun r => ExceptT.bindCont f r.1 r.2) = _
  rw [show x s = (.ok a, s') from h]
  rfl

theorem exec_bind_error {x : ExceptT ε (StateM σ) α} {s s' : σ}
    {e : ε} (h : exec x s = (.error e, s')) : exec (x >>= f) s = (.error e, s') := by
  show (x s >>= fun r => ExceptT.bindCont f r.1 r.2) = _
  rw [show x s = (.error e, s') from h]
  rfl

/-- From a state in `P` a run of `x` succeeds, with a result and a state in `Q`. -/
def Ensures (P : σ → Prop) (x : ExceptT ε (StateM σ) α) (Q : α → σ → Prop) : Prop :=
  ∀ s, P s → ∃ a s', exec x s = (.ok a, s') ∧ Q a s'

/-- A traversal, by an invariant that may count the elements still to come. -/
theorem Ensures.mapM {I : Nat → σ → Prop} {P : α → β → Prop}
    (as : List α)
    (h : ∀ a ∈ as, ∀ k < as.length, Ensures (I (k + 1)) (f a) fun b s => I k s ∧ P a b) :
    Ensures (I as.length) (as.mapM f) fun bs s => I 0 s ∧ List.Forall₂ P as bs := by
  induction as with
  | nil =>
    intro s hs
    exact ⟨[], s, rfl, hs, .nil⟩
  | cons a as ih =>
    intro s hs
    obtain ⟨b, s₁, hrun, hs₁, hb⟩ := h a (by simp) as.length (by simp) s hs
    have hrest := ih fun c hc k hk =>
      h c (List.mem_cons_of_mem a hc) k (Nat.lt_succ_of_lt hk)
    obtain ⟨bs, s₂, hruns, hs₂, hbs⟩ := hrest s₁ hs₁
    refine ⟨b :: bs, s₂, ?_, hs₂, .cons hb hbs⟩
    rw [List.mapM_cons, exec_bind_ok hrun, exec_bind_ok hruns]
    rfl

end ExceptState
