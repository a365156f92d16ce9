import Mathlib.Algebra.Order.Ring.Nat
import Mathlib.Algebra.Order.BigOperators.Group.List

/-!
# Explicit-stack loops

A loop that pops an item, updates a state and pushes further items, until the
stack is empty or a step fails. When every step replaces an item by items of
smaller total weight the loop terminates, and it computes any function that
satisfies the step's recursion equation (`Loop.run_eq_foldlM`): the explicit
stack is only a way to spell the recursion.
-/

namespace Worklist

open List

variable {σ β ε : Type}

/-- One step returns the items it pushes, in the order they will be popped. -/
structure Loop (σ β ε : Type) where
  step : σ → β → Except ε (List σ × β)
  weight : σ → Nat
  decreases : ∀ {s b items b'}, step s b = .ok (items, b') →
    (items.map weight).sum < weight s

namespace Loop

variable (L : Loop σ β ε)

def run (stack : List σ) (b : β) : Except ε β :=
  match stack with
  | [] => .ok b
  | s :: rest =>
      match _h : L.step s b with
      | .error e => .error e
      | .ok (items, b') => run (items ++ rest) b'
termination_by (stack.map L.weight).sum
decreasing_by
  have := L.decreases _h
  simp only [map_append, sum_append, map_cons, sum_cons]
  omega

@[simp] theorem run_nil (b : β) : L.run [] b = .ok b := by
  rw [run]

theorem run_cons (s : σ) (rest : List σ) (b : β) :
    L.run (s :: rest) b = L.step s b >>= fun r => L.run (r.1 ++ rest) r.2 := by
  rw [run]
  split
  · rename_i e h
    rw [h]
    rfl
  · rename_i items b' h
    rw [h]
    rfl

/-- A function that unfolds as the step does, item by item, is what the loop
computes. -/
theorem run_eq_foldlM (f : β → σ → Except ε β)
    (hf : ∀ s b, f b s = L.step s b >>= fun r => r.1.foldlM f r.2)
    (stack : List σ) (b : β) : L.run stack b = stack.foldlM f b := by
  -- on the weight of the stack: the pushed items and the rest weigh less
  induction hw : (stack.map L.weight).sum using Nat.strongRecOn generalizing stack b with
  | _ w ih =>
    cases stack with
    | nil => simp [pure, Except.pure]
    | cons s rest =>
      rw [run_cons, foldlM_cons, hf]
      cases hs : L.step s b with
      | error e => rfl
      | ok r =>
        obtain ⟨items, b'⟩ := r
        have hlt : ((items ++ rest).map L.weight).sum < w := by
          have := L.decreases hs
          simp only [map_append, sum_append]
          simp only [map_cons, sum_cons] at hw
          omega
        show L.run (items ++ rest) b' = items.foldlM f b' >>= fun b'' => rest.foldlM f b''
        rw [ih _ hlt (items ++ rest) b' rfl, foldlM_append]

theorem run_congr (L' : Loop σ β ε) (J : σ → Prop)
    (hstep : ∀ s b, J s → L.step s b = L'.step s b)
    (hkeep : ∀ s b items b', J s → L.step s b = .ok (items, b') → ∀ i ∈ items, J i)
    (stack : List σ) (b : β) (hstack : ∀ s ∈ stack, J s) :
    L.run stack b = L'.run stack b := by
  induction hw : (stack.map L.weight).sum using Nat.strongRecOn generalizing stack b with
  | _ w ih =>
    cases stack with
    | nil => simp
    | cons s rest =>
      have hs : J s := hstack s (by simp)
      rw [run_cons, run_cons, ← hstep s b hs]
      cases h : L.step s b with
      | error e => rfl
      | ok r =>
        obtain ⟨items, b'⟩ := r
        have hlt : ((items ++ rest).map L.weight).sum < w := by
          have := L.decreases h
          simp only [map_append, sum_append]
          simp only [map_cons, sum_cons] at hw
          omega
        refine ih _ hlt (items ++ rest) b' ?_ rfl
        intro i hi
        rcases mem_append.mp hi with hi | hi
        · exact hkeep s b items b' hs h i hi
        · exact hstack i (mem_cons_of_mem s hi)

theorem run_ne_error {e : ε} (hstep : ∀ s b, L.step s b ≠ .error e)
    (stack : List σ) (b : β) : L.run stack b ≠ .error e := by
  fun_induction L.run stack b with
  | case1 b => simp
  | case2 b s rest e' hs =>
    intro h
    cases h
    exact hstep s b hs
  | case3 b s rest items b' hs ih => exact ih

end Loop

end Worklist
